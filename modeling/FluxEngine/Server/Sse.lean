import FluxEngine.Engine.Tokenizer

/-! # Streaming the tokens of one sequence

The worker appends tokens to `output_ids` and schedules puts on `token_queue`
with `call_soon_threadsafe`; the event loop runs the puts later, in order.
`iter_text_deltas` takes items off the queue and decodes all of `output_ids`
whenever it has got one.
-/
namespace FluxEngine

/-- Where `iter_text_deltas` stands: about to look at the event and the queue,
in `wait_for(token_queue.get())`, about to decode, about to decode once more,
or at its end. -/
inductive ClientPc
  | check
  | getting
  | decode
  | flush
  | done
  deriving DecidableEq, Repr

/-- The iterator and the part of the queue that has been put already. -/
structure Client where
  pc : ClientPc := .check
  queue : List (Option Token) := []
  prev : Text := []
  yielded : List Text := []

inductive ClientEvent
  | check
  | get
  | timeout
  | decode
  deriving DecidableEq, Repr

namespace Client
variable (decode : List Token → Text)

/-- `decode_delta`, and `if delta: yield delta`. -/
def emit (outputIds : List Token) (pc : ClientPc) (c : Client) : Client :=
  let (prev,delta) := decodeDelta decode outputIds c.prev
  { c with pc := pc, prev := prev, yielded := if delta = [] then c.yielded else c.yielded ++ [delta] }

/-- One action of the iterator, with what it sees of the sequence. -/
def exec (outputIds : List Token) (finished : Bool) : ClientEvent → Client → Option Client
  | .check, c =>
    if c.pc = .check then some { c with pc := if finished && decide (c.queue = []) then .flush else .getting }
    else none
  | .get, c =>
    match c.pc, c.queue with
    | .getting, none :: rest => some { c with pc := .flush, queue := rest }
    | .getting, some _ :: rest => some { c with pc := .decode, queue := rest }
    | _, _ => none
  | .timeout, c => if c.pc = .getting then some { c with pc := .check } else none
  | .decode, c =>
    match c.pc with
    | .decode => some (c.emit decode outputIds .check)
    | .flush => some (c.emit decode outputIds .done)
    | _ => none

end Client

/-- Where the worker stands: free to append, between an append and its put,
between the put of the end marker and `finished_event.set()`, or past it. -/
inductive ProducerPc
  | ready
  | appended (token : Token)
  | ended
  | closed
  deriving DecidableEq, Repr

/-- The worker, the puts that the event loop has not run yet, and the iterator. -/
structure Stream where
  producer : ProducerPc := .ready
  outputIds : List Token := []
  pending : List (Option Token) := []
  finishedEvent : Bool := false
  client : Client := {}

inductive StreamEvent
  | append (token : Token)
  | put
  | putEnd
  | setFinished
  | runPut
  | client (ev : ClientEvent)
  deriving DecidableEq, Repr

namespace Stream
variable (decode : List Token → Text)

def exec : StreamEvent → Stream → Option Stream
  | .append token, s =>
    if s.producer = .ready then some { s with producer := .appended token, outputIds := s.outputIds ++ [token] }
    else none
  | .put, s =>
    match s.producer with
    | .appended token => some { s with producer := .ready, pending := s.pending ++ [some token] }
    | _ => none
  | .putEnd, s =>
    if s.producer = .ready then some { s with producer := .ended, pending := s.pending ++ [none] } else none
  | .setFinished, s =>
    if s.producer = .ended then some { s with producer := .closed, finishedEvent := true } else none
  | .runPut, s =>
    match s.pending with
    | [] => none
    | item :: rest => some { s with pending := rest, client := { s.client with queue := s.client.queue ++ [item] } }
  | .client ev, s =>
    (s.client.exec decode s.outputIds s.finishedEvent ev).map (fun c => { s with client := c })

def Step (ev : StreamEvent) (s t : Stream) : Prop := exec decode ev s = some t

end Stream
end FluxEngine
