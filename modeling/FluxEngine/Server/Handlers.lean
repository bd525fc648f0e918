import FluxEngine.Server.RateLimit
import FluxEngine.Server.Requests

/-! # The request handlers beside a worker

A handler is where its coroutine or its generator is suspended.  The event loop
runs it from there to the next such place; a client may leave at any of them, and
a generator that nobody has entered is dropped without a trace.
-/
namespace FluxEngine
open Transition
variable {P L : Type}

/-- How a handler has ended: at its end, by an exception, on `is_disconnected`, by
a cancellation at an await, by `aclose` at a yield, or without its generator being
entered. -/
inductive HandlerEnding
  | complete
  | failed
  | disconnected
  | cancelled
  | closed
  | dropped
  deriving DecidableEq, Repr

/-- The places of `_stream_completion` and `_stream_chat`: not entered, at the yield
of the role, in `iter_text_deltas`, in `is_disconnected`, at the yield of a delta, of
the last chunk, of `[DONE]`; the one of a handler that does not stream, in
`_wait_result`; and the end. -/
inductive HandlerPc
  | created
  | role
  | iterating
  | checking
  | delta
  | last (reason : FinishReason)
  | done (reason : FinishReason)
  | result
  | ended (ending : HandlerEnding)
  deriving DecidableEq, Repr

def HandlerPc.isEnded : HandlerPc → Bool
  | .ended _ => true
  | _ => false

structure Handler where
  endpoint : Endpoint
  responseId : ℕ
  streaming : Bool
  pc : HandlerPc
  stream : Stream := {}

inductive HandlerEvent
  | enter
  | drop
  | update (ev : StreamEvent)
  | iterate (ev : ClientEvent)
  | leave
  | connected
  | disconnected
  | resume
  | cancel
  | close
  | raise
  | result
  deriving DecidableEq, Repr

/-- What a handler does to the sequence and to the job store. -/
structure Effect where
  abort : Bool := false
  remember : Option Job := none

namespace Handler
variable (decode : List Token → Text) (i : SeqId) (x : Sequence P L) (h : Handler)

def jobId : JobId := .response h.endpoint h.responseId

/-- `finally: if not seq.finished_event.is_set(): seq.request_abort()`. -/
def finish (ending : HandlerEnding) (remember : Option Job) : Handler × Effect :=
  ({ h with pc := .ended ending },⟨!h.stream.finishedEvent,remember⟩)

/-- `except asyncio.CancelledError`. -/
def abandon (ending : HandlerEnding) : Handler × Effect := ({ h with pc := .ended ending },⟨true,none⟩)

def goto (pc : HandlerPc) : Handler × Effect := ({ h with pc := pc },{})

/-- The end of the loop over the deltas. -/
def afterLoop : HandlerPc :=
  let reason := x.finishReason.getD (if x.abortRequested then .abort else .length)
  if x.status ≠ .aborted then .last reason else .done reason

/-- One step of a handler, which sees its sequence as `x`. -/
def exec : HandlerEvent → Option (Handler × Effect)
  | .enter =>
    match h.pc, h.endpoint with
    | .created, .chat => some (h.goto .role)
    | .created, .completions => some (h.goto .iterating)
    | _, _ => none
  | .drop => if h.pc = .created then some (h.goto (.ended .dropped)) else none
  | .update (.client _) => none
  | .update ev =>
    if Response.shows x h.stream ev then (h.stream.exec decode ev).map (fun t => ({ h with stream := t },{})) else none
  | .iterate ev =>
    if h.pc = .iterating then
      (h.stream.exec decode (.client ev)).map (fun t =>
        ({ h with stream := t, pc := if t.client.yielded = h.stream.client.yielded then .iterating else .checking },{}))
    else none
  | .leave => if h.pc = .iterating ∧ h.stream.client.pc = .done then some (h.goto (afterLoop x)) else none
  | .connected => if h.pc = .checking then some (h.goto .delta) else none
  | .disconnected => if h.pc = .checking then some (h.abandon .disconnected) else none
  | .resume =>
    match h.pc with
    | .role | .delta => some (h.goto .iterating)
    | .last reason => some (h.goto (.done reason))
    | .done reason => some (h.finish .complete (some ⟨h.jobId,"finished",some i,some reason,none⟩))
    | _ => none
  | .cancel =>
    match h.pc with
    | .iterating | .checking => some (h.abandon .cancelled)
    | .result => some (h.goto (.ended .cancelled))
    | _ => none
  | .close =>
    match h.pc with
    | .role | .delta | .last _ | .done _ => some (h.finish .closed none)
    | _ => none
  | .raise => if h.pc = .iterating then some (h.finish .failed none) else none
  | .result =>
    match h.pc, waitResult x with
    | .result, some (.ok result) =>
      some ({ h with pc := .ended .complete },⟨false,some ⟨h.jobId,"finished",none,none,some result.engine⟩⟩)
    | .result, some (.error _) => some (h.goto (.ended .failed))
    | _, _ => none

end Handler

/-- A validated body that asks for a served model. -/
structure Incoming where
  endpoint : Endpoint
  streaming : Bool
  prompt : List Token
  fields : SamplingFields

/-- The sampling that reaches `_submit`; without streaming `_generate_ids` fits it once more. -/
def Settings.requested (settings : Settings) (req : Incoming) : Except HttpException SamplingParams := do
  let sampling ← settings.fitMaxSeq req.prompt
    (settings.sampling req.fields.temperature req.fields.topP req.fields.maxTokens)
  if req.streaming then pure sampling else settings.fitMaxSeq req.prompt sampling

/-- A worker, the job store and the handlers by their sequences; `issued` has the
random parts of the response ids so far and is not part of the source. -/
structure Server (P L : Type) where
  worker : WorkerControl P L × System P L
  control : Option ControlPlane
  handlers : SeqId → Option Handler := fun _ => none
  issued : List ℕ := []

inductive ServerEvent
  | worker (answer : Answer)
  | adminAbort (i : SeqId)
  | requestStop
  | receive (i : SeqId) (n : ℕ) (req : Incoming) (allowed : Bool) (up : Bool × Bool)
  | handler (i : SeqId) (ev : HandlerEvent) (up : Bool)
  | expire (id : JobId)
  | close

namespace Server
variable (w : Server P L)

def system : System P L := w.worker.2

def setSystem (s : System P L) : Server P L := { w with worker := (w.worker.1,s) }

/-- What `_submit` and a streaming handler record. -/
def recordRequest (control : Option ControlPlane) (up : Bool × Bool) (i : SeqId) (h : Handler) : Option ControlPlane :=
  let control := rememberJob control up.1 ⟨.seq i,"waiting",none,none,none⟩
  if h.streaming then rememberJob control up.2 ⟨h.jobId,"running",some i,none,none⟩ else control

/-- What the endpoints check ahead of `_submit`; `allowed` is the answer of `allow`. -/
def checked (settings : Settings) (req : Incoming) (allowed : Bool) : Except HttpException SamplingParams := do
  enforceRateLimit w.control allowed
  settings.requested req

/-- `create_completion` or `create_chat_completion` up to its first await; a request
that is refused leaves nothing behind. -/
def receive (settings : Settings) (i : SeqId) (n : ℕ) (req : Incoming) (allowed : Bool) (up : Bool × Bool) :
    Server P L :=
  match w.checked settings req allowed with
  | .error _ => w
  | .ok sampling =>
    match w.system.scheduler.submit i { promptTokenIds := req.prompt, sampling := sampling } with
    | .error _ => w
    | .ok _ =>
      let h : Handler := ⟨req.endpoint,n,req.streaming,if req.streaming then .created else .result,{}⟩
      { w.setSystem (w.system.submit i req.prompt sampling) with
        control := recordRequest w.control up i h
        handlers := Function.update w.handlers i (some h)
        issued := n :: w.issued }

def affect (i : SeqId) (h : Handler) (eff : Effect) (up : Bool) : Server P L :=
  { w.setSystem (if eff.abort then w.system.requestAbort i else w.system) with
    control := match eff.remember with
      | none => w.control
      | some job => rememberJob w.control up job
    handlers := Function.update w.handlers i (some h) }

variable [Inhabited P] [Inhabited L] (settings : Settings) (mode : ServeEngine) (eng : CachedEngine P L)
  (may : Site → Bool)

def exec (w : Server P L) : ServerEvent → Option (Server P L)
  | .worker answer => (mode.act eng may answer w.worker).map (fun d => { w with worker := d })
  | .adminAbort i => some (w.setSystem (w.system.adminAbort i))
  | .requestStop => some (w.setSystem w.system.requestStop)
  | .receive i n req allowed up =>
    if i ∉ w.system.accepted ∧ w.handlers i = none ∧ n ∉ w.issued then some (w.receive settings i n req allowed up)
    else none
  | .handler i ev up =>
    (w.handlers i).bind (fun h =>
      (h.exec eng.tokenizer.decode i (w.system.heap i) ev).map (fun r => w.affect i r.1 r.2 up))
  | .expire id => some { w with control := w.control.map (fun plane => plane.expire id) }
  | .close => some { w with control := w.control.map ControlPlane.close }

def Step (ev : ServerEvent) (w v : Server P L) : Prop := exec settings mode eng may w ev = some v

/-- A worker about to start, and a control plane without records. -/
structure Boot (w : Server P L) : Prop where
  worker : w.worker.1 = (mode.service eng).start
  system : w.system.Boot
  control : ∃ enabled, w.control = some { enabled := enabled }
  handlers : w.handlers = fun _ => none

def Runs (w : Server P L) : Prop := ∃ v : Server P L, v.Boot mode eng ∧ Reaches (Step settings mode eng may) v w

end Server
end FluxEngine
