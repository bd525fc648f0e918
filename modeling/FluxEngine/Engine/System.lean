import FluxEngine.Engine.CachedEngine
import FluxEngine.Engine.Scheduler

/-! # The state shared by the worker and the request handlers

Besides the objects of the source the state keeps three things that are not
fields there: the ids accepted so far, what the last model call returned for
each sequence (the worker's locals `logits` and `cache`), and the exception
that is propagating, with the sequences it was raised for.
-/
namespace FluxEngine

structure WorkerStats where
  lastBatchSize : ℕ := 0
  tokensGenerated : ℕ := 0
  running : List SeqId := []

structure System (P L : Type) where
  scheduler : Scheduler P L
  heap : Heap P L := fun _ => {}
  stats : WorkerStats := {}
  stop : Bool := false
  accepted : List SeqId := []
  /-- the exporter's `flux_output_tokens_total` -/
  outputTokensTotal : ℕ := 0
  outbox : SeqId → Option (L × KvCache P) := fun _ => none
  inFlight : Option (List SeqId × Exc) := none

namespace Sequence
variable {P L : Type}

def queuePut (seq : Sequence P L) (item : Option Token) : Sequence P L :=
  { seq with tokenQueue := seq.tokenQueue ++ [item] }

def signalEnd (seq : Sequence P L) : Sequence P L := { seq.queuePut none with finishedEvent := true }

def noteToken (seq : Sequence P L) (token : Token) (stopIds : List Token) : Sequence P L :=
  let seq := { seq with outputIds := seq.outputIds ++ [token], lastToken := some token }
  let seq := seq.queuePut (some token)
  if token ∈ stopIds then { seq with finishReason := some .stop }
  else if seq.sampling.maxTokens ≤ seq.outputIds.length then { seq with finishReason := some .length }
  else seq

theorem noteToken_eq (seq : Sequence P L) (token : Token) (stopIds : List Token) :
    seq.noteToken token stopIds =
      { seq with
        outputIds := seq.outputIds ++ [token]
        lastToken := some token
        tokenQueue := seq.tokenQueue ++ [some token]
        finishReason :=
          if token ∈ stopIds then some .stop
          else if seq.sampling.maxTokens ≤ (seq.outputIds ++ [token]).length then some .length
          else seq.finishReason } := by
  simp only [noteToken,queuePut]
  by_cases hstop : token ∈ stopIds
  · simp only [if_pos hstop]
  · by_cases hlen : seq.sampling.maxTokens ≤ (seq.outputIds ++ [token]).length
    · simp only [if_neg hstop,if_pos hlen]
      exact if_pos hlen
    · simp only [if_neg hstop,if_neg hlen]
      exact if_neg hlen

def wantsAbort (seq : Sequence P L) : Bool := seq.abortRequested || decide (seq.status = .aborted)

end Sequence

namespace System
variable {P L : Type} (s : System P L)

def waiting : List SeqId := s.scheduler.queue.waiting

def modify (i : SeqId) (f : Sequence P L → Sequence P L) : System P L :=
  { s with heap := Function.update s.heap i (f (s.heap i)) }

/-- `_release(seq, scheduler)`. -/
def release (i : SeqId) : System P L :=
  let scheduler := s.scheduler.releasePrefix (s.heap i).prefixKey
  let freed := match scheduler.pool with
    | none => (none,s.heap i)
    | some pool => let (pool,seq) := pool.freeSeq i (s.heap i); (some pool,seq)
  let seq := { freed.2 with kvCache := none, prefixKv := none, prefixLogits := none,
                            releases := freed.2.releases + 1 }
  { s with scheduler := { scheduler with pool := freed.1 }, heap := Function.update s.heap i seq }

/-- Mark a sequence with its ending, release what it holds, signal the end. -/
def terminate (i : SeqId) (mark : Sequence P L → Sequence P L) : System P L :=
  ((s.modify i mark).release i).modify i Sequence.signalEnd

def abortOne (i : SeqId) : System P L := s.terminate i (fun seq => { seq with status := .aborted })

def failOne (e : Exc) (i : SeqId) : System P L :=
  s.terminate i (fun seq => { seq with error := some e, status := .error })

def conclude (i : SeqId) (result : GenerateResult) : System P L :=
  s.terminate i (fun seq => { seq with result := some result, status := .finished })

/-- `observe_finished`, as far as `flux_output_tokens_total` goes. -/
def observeFinished (result : GenerateResult) : System P L :=
  { s with outputTokensTotal :=
      if 0 < result.completionTokens then s.outputTokensTotal + result.completionTokens else s.outputTokensTotal }

/-- `_finish_sequence` once `pack_result` has returned. -/
def finishSequence (i : SeqId) (result : GenerateResult) : System P L :=
  (s.observeFinished result).conclude i result

def setQueue (queue : RequestQueue) : System P L :=
  { s with scheduler := { s.scheduler with queue := queue } }

/-- One round of the loop that empties the queue. -/
def drainOne : System P L :=
  match s.scheduler.queue.popOne with
  | (none,_) => s
  | (some i,queue) => (s.setQueue queue).abortOne i

/-- Pop and abort until the queue is empty; `fuel` is the length of the queue. -/
def drainQueue : ℕ → System P L → System P L
  | 0, s => s
  | fuel+1, s => drainQueue fuel s.drainOne

/-- The second loop of `_abort_leftovers`. -/
def abortRunning : List SeqId → System P L → System P L
  | [], s => s
  | i :: rest, s => abortRunning rest (if (s.heap i).finishedEvent then s else s.abortOne i)

def setRunning (running : List SeqId) : System P L :=
  { s with stats := { s.stats with running := running } }

def abortLeftovers : System P L :=
  let s := drainQueue s.waiting.length s
  (abortRunning s.stats.running s).setRunning []

/-- The part of `_bind_prefix_at_prefill` after a hit. -/
def bindHit (i : SeqId) (hit : PrefixHit P L) (scheduler : Scheduler P L) : System P L :=
  let seq := Scheduler.applyHit (s.heap i) hit
  match scheduler.pool with
  | none => { s with scheduler := scheduler, heap := Function.update s.heap i seq }
  | some pool =>
    let (extra,pool,seq) := pool.detach i seq (pool.blocksNeeded hit.nTokens)
    let pool := if extra = [] then pool else pool.release extra none
    let owned := (pool.alloc.get? i).getD []
    { s with
      scheduler := { scheduler with pool := some pool }
      heap := Function.update s.heap i
        { seq with ownedBlockIds := owned, blockIds := hit.blockIds ++ owned } }

/-- `_bind_prefix_at_prefill`. -/
def bindPrefixAtPrefill (i : SeqId) (now : ℕ) : System P L :=
  if (s.heap i).prefixKey.isSome || (s.scheduler.peekPrefix (s.heap i).promptTokenIds).isNone then s
  else
    match s.scheduler.lookupPrefix (s.heap i).promptTokenIds now with
    | (none,scheduler) => { s with scheduler := scheduler }
    | (some hit,scheduler) => s.bindHit i hit scheduler

/-- The insertion and adoption at the end of `_prefill_with_reuse`. -/
def storePrefix (i : SeqId) (now : ℕ → ℕ) : System P L :=
  match s.scheduler.prefixCache, s.outbox i with
  | some c, some (logits,kv) =>
    let (c,pool) := c.insert s.scheduler.pool (s.heap i).promptTokenIds (some kv) (some logits) (now 0)
    let (c,pool,seq) := c.adopt pool i (s.heap i) (now 1)
    { s with
      scheduler := { s.scheduler with prefixCache := some c, pool := pool }
      heap := Function.update s.heap i seq }
  | _, _ => s

/-- What follows a sampled token: `_note_token`, `seq.kv_cache = cache` (the cache of
the call whose logits were sampled) and `stats.tokens_generated += 1`. -/
def recordToken (i : SeqId) (token : Token) (stopIds : List Token) : System P L :=
  let kv := (s.outbox i).map Prod.snd
  let s := s.modify i (fun seq => { seq.noteToken token stopIds with kvCache := kv })
  { s with
    outbox := Function.update s.outbox i none
    stats := { s.stats with tokensGenerated := s.stats.tokensGenerated + 1 } }

def putOutbox (i : SeqId) (result : L × KvCache P) : System P L :=
  { s with outbox := Function.update s.outbox i (some result) }

/-- What `decode_batch` returned, row by row. -/
def putBatch [Inhabited L] (live : List SeqId) (result : List L × List (KvCache P)) : System P L :=
  { s with outbox := fun i =>
      if i ∈ live then
        some (result.1.getD (live.idxOf i) default,result.2.getD (live.idxOf i) (.legacy []))
      else s.outbox i }

/-- One round of the loop in `admit`. -/
def admitRound (now : ℕ) : System P L :=
  let (_,scheduler,heap) := s.scheduler.admitRound s.heap now
  { s with scheduler := scheduler, heap := heap }

/-- `scheduler.submit` on a new sequence; a refusal leaves everything as it was. -/
def submit (i : SeqId) (prompt : List Token) (sampling : SamplingParams) : System P L :=
  match s.scheduler.submit i { promptTokenIds := prompt, sampling := sampling } with
  | .error _ => s
  | .ok (scheduler,seq) =>
    { s with scheduler := scheduler, heap := Function.update s.heap i seq,
             accepted := s.accepted ++ [i] }

/-- `seq.request_abort()`. -/
def requestAbort (i : SeqId) : System P L := s.modify i Sequence.requestAbort

/-- `POST /admin/abort`, taken as one step. -/
def adminAbort (i : SeqId) : System P L :=
  if i ∈ s.waiting then (s.setQueue (s.scheduler.queue.remove i).2).abortOne i
  else if i ∈ s.stats.running then s.requestAbort i
  else s

def requestStop : System P L := { s.setQueue s.scheduler.queue.wake with stop := true }

end System

/-- The model part of `_prefill_with_reuse`: exact hit, suffix, empty suffix
without logits, miss. -/
def prefillWithReuse {P L : Type} [Inhabited L] (eng : CachedEngine P L) (seq : Sequence P L) :
    Except Exc (L × KvCache P) :=
  match seq.prefixKv with
  | none => eng.prefill seq.promptTokenIds
  | some kv =>
    if 0 < seq.prefixTokens then
      let prefixKv := cloneCache kv
      let reuseSuffix :=
        let suffix := seq.promptTokenIds.drop seq.prefixTokens
        if suffix = [] then eng.prefill seq.promptTokenIds
        else eng.prefillFromPrefix suffix prefixKv
      match seq.prefixLogits with
      | none => reuseSuffix
      | some logits =>
        if seq.promptTokenIds.length ≤ seq.prefixTokens then .ok (logits,prefixKv) else reuseSuffix
    else eng.prefill seq.promptTokenIds

end FluxEngine
