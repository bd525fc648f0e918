import FluxEngine.Lib.Interleaving
import FluxEngine.Engine.System

/-! # The two worker loops as threads

Every read of a flag that a handler may set, every call that may raise and
every await is an action of its own; what runs between two of them is one
update.
-/
namespace FluxEngine
open Interleaving

/-- The places where a worker makes a call that may raise. -/
inductive Site
  | prefillStopIds
  | prefillModel
  | prefillSample
  | prefillPack
  | batchModel
  | rowStopIds
  | rowSample
  | rowPack
  | queuedStopIds
  | queuedPrefill
  | queuedDecode
  | queuedSample
  | queuedPack
  deriving DecidableEq, Repr

/-- `engine.prefill`, `prefill_from_prefix`, `decode` and `decode_batch`. -/
def Site.isModel : Site → Bool
  | .prefillModel => true
  | .batchModel => true
  | .queuedPrefill => true
  | .queuedDecode => true
  | _ => false

/-- The call stands inside a `try` that catches every `Exception`. -/
def Site.covered : Site → Bool
  | .prefillStopIds => false
  | .rowStopIds => false
  | .rowSample => false
  | .rowPack => false
  | _ => true

inductive Label
  | tau
  | call (site : Site) (ids : List SeqId)
  | contain (ids : List SeqId)
  deriving DecidableEq, Repr

/-- What the outside world decides about an action: whether its call raises,
the random draw of a sampler, the clock readings. -/
structure Answer where
  raises : Option Exc := none
  rnd : ℕ := 0
  now : ℕ → ℕ := fun _ => 0

def Answer.outcome {α : Type} (w : Answer) (value : Except Exc α) : Except Exc α :=
  match w.raises with
  | some e => .error e
  | none => value

abbrev Thread (P L α : Type) := Prog (System P L) Answer Label Exc α

namespace Worker
variable {P L : Type}

/-- A call on behalf of `ids`: its exception starts to propagate, its value is
saved. -/
def call {α : Type} (site : Site) (ids : List SeqId) (value : Answer → System P L → Except Exc α)
    (save : α → System P L → System P L) : Thread P L α :=
  .act (.call site ids) (fun _ => true)
    (fun w s =>
      match w.outcome (value w s) with
      | .error e => { s with inFlight := some (ids,e) }
      | .ok a => save a s)
    (fun w s =>
      match w.outcome (value w s) with
      | .error e => .raise e
      | .ok a => .ret a)

/-- `except Exception as exc`: every sequence of the failed call ends in ERROR. -/
def contain (ids : List SeqId) (e : Exc) : Thread P L Unit :=
  .write (.contain ids) (fun _ s => { ids.foldl (fun s i => s.failOne e i) s with inFlight := none })

def wantsAbort (i : SeqId) : Thread P L Bool := .read .tau (fun s => (s.heap i).wantsAbort)
def abortOne (i : SeqId) : Thread P L Unit := .write .tau (fun _ s => s.abortOne i)

def setStatus (i : SeqId) (status : SequenceStatus) : Thread P L Unit :=
  .write .tau (fun _ s => s.modify i (fun seq => { seq with status := status }))

def hasFinishReason (i : SeqId) : Thread P L Bool :=
  .read .tau (fun s => (s.heap i).finishReason.isSome)

def isStopped : Thread P L Bool := .read .tau System.stop
def running : Thread P L (List SeqId) := .read .tau (fun s => s.stats.running)
def setRunning (ids : List SeqId) : Thread P L Unit := .write .tau (fun _ s => s.setRunning ids)

/-- `if idle: await queue.wait_not_empty()`. -/
def waitIfIdle (idle : System P L → Bool) : Thread P L Unit := do
  let isIdle ← .read .tau idle
  if isIdle then .await .tau (fun s => s.scheduler.queue.event) else pure ()

def admitRequests (runningCount : System P L → ℕ) : Thread P L (List SeqId) :=
  .act .tau (fun _ => true)
    (fun w s =>
      let (_,scheduler,heap) := s.scheduler.admitRequests s.heap (runningCount s) w.now
      { s with scheduler := scheduler, heap := heap })
    (fun w s => .ret (s.scheduler.admitRequests s.heap (runningCount s) w.now).1)

def abortLeftovers : Thread P L Unit := .write .tau (fun _ s => s.abortLeftovers)

variable [Inhabited P] [Inhabited L] (eng : CachedEngine P L)

def stopIds (site : Site) (i : SeqId) : Thread P L (List Token) :=
  call site [i]
    (fun _ s => .ok (combinedStopIds eng.tokenizer (s.heap i).sampling.stopTokenIds
      (s.heap i).sampling.ignoreEos))
    (fun _ s => s)

def sample (site : Site) (i : SeqId) : Thread P L Token :=
  call site [i]
    (fun w s =>
      match s.outbox i with
      | none => .error "no logits"
      | some (logits,_) => .ok (sampleLogits eng logits (s.heap i).sampling w.rnd))
    (fun _ s => s)

def recordToken (i : SeqId) (token : Token) (stopIds : List Token) : Thread P L Unit :=
  .write .tau (fun _ s => s.recordToken i token stopIds)

/-- `_finish_sequence`. -/
def finishSequence (site : Site) (engineName : String) (i : SeqId) : Thread P L Unit := do
  let result ← call site [i]
    (fun _ s => .ok (packResult eng.tokenizer (s.heap i).promptTokenIds (s.heap i).outputIds
      ((s.heap i).finishReason.getD .length) engineName))
    (fun _ s => s)
  .write .tau (fun _ s => s.finishSequence i result)

/-- `_prefill_with_reuse`. -/
def prefill (site : Site) (i : SeqId) : Thread P L Unit := do
  .write .tau (fun w s => s.bindPrefixAtPrefill i (w.now 0))
  let _ ← call site [i] (fun _ s => prefillWithReuse eng (s.heap i)) (fun r s => s.putOutbox i r)
  .write .tau (fun w s => s.storePrefix i w.now)

/-- The `try` block of `_prefill_one`. -/
def prefillBody (i : SeqId) (stop : List Token) : Thread P L Unit := do
  prefill eng .prefillModel i
  let token ← sample eng .prefillSample i
  recordToken i token stop
  let aborting ← wantsAbort i
  if aborting then abortOne i
  else do
    let done ← hasFinishReason i
    if done then finishSequence eng .prefillPack "continuous" i
    else setStatus i .decoding

def prefillOne (i : SeqId) : Thread P L Unit := do
  let aborting ← wantsAbort i
  if aborting then abortOne i
  else do
    setStatus i .prefill
    let stop ← stopIds eng .prefillStopIds i
    (prefillBody eng i stop).tryCatch (contain [i])

/-- The body of `for seq in admitted`. -/
def startOne (i : SeqId) : Thread P L Unit := do
  let aborting ← wantsAbort i
  if aborting then abortOne i
  else do
    prefillOne eng i
    let status ← .read .tau (fun s => (s.heap i).status)
    if status.terminal then pure ()
    else .write .tau (fun _ s => s.setRunning (s.stats.running ++ [i]))

def startAll : List SeqId → Thread P L Unit
  | [] => pure ()
  | i :: rest => do
    startOne eng i
    startAll rest

/-- A loop over a list of sequences that aborts who asks for it and keeps the
others, passing over who has `ended`. -/
def keepLive (ended : Sequence P L → Bool) : List SeqId → List SeqId → Thread P L (List SeqId)
  | [], kept => pure kept
  | i :: rest, kept => do
    let gone ← .read .tau (fun s => ended (s.heap i))
    if gone then keepLive ended rest kept
    else do
      let aborting ← wantsAbort i
      if aborting then do
        abortOne i
        keepLive ended rest kept
      else keepLive ended rest (kept ++ [i])

def dropAborted : Thread P L Unit := do
  let ids ← running
  let kept ← keepLive (fun _ => false) ids []
  setRunning kept

/-- The loop that ends an iteration of `run`. -/
def sweep : Thread P L Unit := do
  let ids ← running
  let still ← keepLive (fun seq => seq.status.terminal) ids []
  setRunning still

/-- The first loop of `_decode_one_step`. -/
def abortWanting : List SeqId → Thread P L Unit
  | [] => pure ()
  | i :: rest => do
    let aborting ← wantsAbort i
    if aborting then do
      abortOne i
      abortWanting rest
    else abortWanting rest

/-- The list `live` of `_decode_one_step`. -/
def liveRows : List SeqId → List SeqId → Thread P L (List SeqId)
  | [], live => pure live
  | i :: rest, live => do
    let ready ← .read .tau (fun s =>
      decide ((s.heap i).status = .decoding) && (s.heap i).lastToken.isSome)
    if ready then do
      let aborting ← wantsAbort i
      if aborting then liveRows rest live else liveRows rest (live ++ [i])
    else liveRows rest live

/-- `decode_batch` on the last tokens and caches of the live rows. -/
def batchCall (live : List SeqId) : Thread P L Unit := do
  let _ ← call .batchModel live
    (fun _ s => eng.decodeBatch (live.map (fun i => (s.heap i).lastToken.getD 0))
      (live.map (fun i => (s.heap i).kvCache.getD (.legacy []))))
    (fun r s => s.putBatch live r)
  pure ()

/-- One row of the loop after a decode call. -/
def decodeRow (i : SeqId) : Thread P L Unit := do
  let aborting ← wantsAbort i
  if aborting then abortOne i
  else do
    let stop ← stopIds eng .rowStopIds i
    let token ← sample eng .rowSample i
    recordToken i token stop
    let done ← hasFinishReason i
    if done then finishSequence eng .rowPack "continuous" i else pure ()

def decodeRows : List SeqId → Thread P L Unit
  | [] => pure ()
  | i :: rest => do
    decodeRow eng i
    decodeRows rest

def decodeOneStep (ids : List SeqId) : Thread P L Unit := do
  abortWanting ids
  let live ← liveRows ids []
  if live = [] then pure ()
  else do
    .write .tau (fun _ s => { s with stats := { s.stats with lastBatchSize := live.length } })
    let ok ← Prog.tryCatch
      (do batchCall eng live; pure true)
      (fun e => do contain live e; pure false)
    if ok then decodeRows eng live else pure ()

/-- The decode half of an iteration. -/
def decodePhase : Thread P L Unit := do
  let ids ← running
  if ids = [] then pure ()
  else do
    decodeOneStep eng ids
    sweep

/-- What an iteration does once the worker is awake and not stopped. -/
def iterate : Thread P L Unit := do
  dropAborted
  let admitted ← admitRequests (fun s => s.stats.running.length)
  startAll eng admitted
  decodePhase eng

/-- One iteration of `ContinuousWorker.run`. -/
def continuousRound : Thread P L Bool := do
  let stopped ← isStopped
  if stopped then pure false
  else do
    waitIfIdle (fun s => decide (s.stats.running = []) && decide (s.waiting = []))
    let stopped ← isStopped
    if stopped then pure false
    else do
      iterate eng
      pure true

def continuous : Service (System P L) Answer Label Exc where
  body := continuousRound eng
  epilogue := abortLeftovers
  body_acts := trivial
  epilogue_acts := trivial

def decodeCall (i : SeqId) : Thread P L Unit := do
  let _ ← call .queuedDecode [i]
    (fun _ s => eng.decode ((s.heap i).lastToken.getD 0) ((s.heap i).kvCache.getD (.legacy [])))
    (fun r s => s.putOutbox i r)
  pure ()

/-- `while not seq.finish_reason`.  A round appends a token and `_note_token`
stops at `max_tokens`, so `max_tokens` rounds are enough. -/
def decodeWhile (i : SeqId) (stop : List Token) : ℕ → Thread P L Unit
  | 0 => .raise "out of rounds"
  | k+1 => do
    let done ← hasFinishReason i
    if done then finishSequence eng .queuedPack "queued" i
    else do
      let aborting ← wantsAbort i
      if aborting then abortOne i
      else do
        decodeCall eng i
        let token ← sample eng .queuedSample i
        recordToken i token stop
        decodeWhile i stop k

def runOne (i : SeqId) : Thread P L Unit := do
  let stop ← stopIds eng .queuedStopIds i
  prefill eng .queuedPrefill i
  let token ← sample eng .queuedSample i
  recordToken i token stop
  let aborting ← wantsAbort i
  if aborting then abortOne i
  else do
    let done ← hasFinishReason i
    if done then finishSequence eng .queuedPack "queued" i
    else do
      let maxTokens ← .read .tau (fun s => (s.heap i).sampling.maxTokens)
      decodeWhile eng i stop maxTokens

/-- The part of a `QueuedWorker` iteration after the admission. -/
def serveOne (i : SeqId) : Thread P L Unit := do
  let aborting ← wantsAbort i
  if aborting then abortOne i
  else do
    .write .tau (fun _ s =>
      let s := s.modify i (fun seq => { seq with status := .decoding })
      { s with stats := { s.stats with running := [i], lastBatchSize := 1 } })
    (runOne eng i).tryCatch (contain [i])
    setRunning []

/-- One iteration of `QueuedWorker.run`. -/
def queuedRound : Thread P L Bool := do
  let stopped ← isStopped
  if stopped then pure false
  else do
    waitIfIdle (fun s => decide (s.waiting = []))
    let stopped ← isStopped
    if stopped then pure false
    else do
      let admitted ← admitRequests (fun s => s.scheduler.maxBatch - 1)
      match admitted with
      | [] => pure true
      | i :: _ => do
        serveOne eng i
        pure true

def queued : Service (System P L) Answer Label Exc where
  body := queuedRound eng
  epilogue := abortLeftovers
  body_acts := trivial
  epilogue_acts := trivial

end Worker
end FluxEngine
