import FluxEngine.Engine.Sequence

/-! # The chunks of a response, and the two readings of a sequence's end

A streaming handler closes with what `finish_reason`, `abort_requested`,
`status` and `result` say; `_wait_result` goes by `error`, `status` and
`result`.  Encoding, headers and job records are left out.
-/
namespace FluxEngine
variable {P L : Type}

def servedModelId : String := "flux-qwen-0.5b"

structure CompletionUsage where
  promptTokens : ℕ
  completionTokens : ℕ
  totalTokens : ℕ
  deriving DecidableEq, Repr

/-- `_usage`. -/
def GenerateResult.usage (result : GenerateResult) : CompletionUsage where
  promptTokens := result.promptTokens
  completionTokens := result.completionTokens
  totalTokens := result.promptTokens + result.completionTokens

/-- What the last chunk adds to the payload: the usage, and of `flux` the engine. -/
structure FluxExtra where
  usage : CompletionUsage
  engine : String
  deriving DecidableEq, Repr

def fluxExtra : Option GenerateResult → Option FluxExtra
  | none => none
  | some result => some ⟨result.usage,result.engine⟩

/-- The text of a completion choice, whose `logprobs` are `None`, or the `delta` of a chat choice. -/
inductive ChoiceBody
  | text (text : Text)
  | delta (fields : List (String × Text))
  deriving DecidableEq, Repr

/-- A payload with its only choice. -/
structure Chunk where
  id : String
  object : String
  created : ℕ
  model : String := servedModelId
  index : ℕ := 0
  body : ChoiceBody
  finishReason : Option FinishReason
  extra : Option FluxExtra
  deriving DecidableEq, Repr

def completionChunk (requestId : String) (created : ℕ) (text : Text) (finishReason : Option FinishReason := none)
    (extra : Option FluxExtra := none) : Chunk where
  id := requestId
  object := "text_completion"
  created := created
  body := .text text
  finishReason := finishReason
  extra := extra

def chatChunk (requestId : String) (created : ℕ) (delta : List (String × Text))
    (finishReason : Option FinishReason := none) (extra : Option FluxExtra := none) : Chunk where
  id := requestId
  object := "chat.completion.chunk"
  created := created
  body := .delta delta
  finishReason := finishReason
  extra := extra

/-- The argument of `sse_data`. -/
inductive SseEvent
  | data (payload : Chunk)
  | done
  deriving DecidableEq, Repr

/-- The finish reason of an event, with the usage beside it. -/
def SseEvent.final : SseEvent → Option (FinishReason × Option CompletionUsage)
  | .data payload => payload.finishReason.map (fun reason => (reason,payload.extra.map FluxExtra.usage))
  | .done => none

def finals (events : List SseEvent) : List (FinishReason × Option CompletionUsage) := events.filterMap SseEvent.final

/-- What a streaming handler sends first, for a delta, and last; only the last
chunk has a finish reason. -/
structure StreamHandler where
  opening : List Chunk
  delta : Text → Chunk
  final : FinishReason → Option FluxExtra → Chunk
  opening_open : ∀ chunk ∈ opening, chunk.finishReason = none
  delta_open : ∀ text, (delta text).finishReason = none
  final_closed : ∀ reason extra, (final reason extra).finishReason = some reason ∧ (final reason extra).extra = extra

/-- `_stream_completion`. -/
def streamCompletion (requestId : String) (created : ℕ) : StreamHandler where
  opening := []
  delta text := completionChunk requestId created text
  final reason extra := completionChunk requestId created [] (some reason) extra
  opening_open := by simp
  delta_open _ := rfl
  final_closed _ _ := ⟨rfl,rfl⟩

/-- `_stream_chat`. -/
def streamChat (requestId : String) (created : ℕ) : StreamHandler where
  opening := [chatChunk requestId created [("role","assistant".toList)]]
  delta text := chatChunk requestId created [("content",text)]
  final reason extra := chatChunk requestId created [] (some reason) extra
  opening_open := by simp [chatChunk]
  delta_open _ := rfl
  final_closed _ _ := ⟨rfl,rfl⟩

inductive Endpoint
  | completions
  | chat
  deriving DecidableEq, Repr

def Endpoint.handler : Endpoint → String → ℕ → StreamHandler
  | .completions => streamCompletion
  | .chat => streamChat

namespace StreamHandler
variable (handler : StreamHandler)

/-- What follows the deltas. -/
def closing (seq : Sequence P L) : List SseEvent :=
  let reason := seq.finishReason.getD (if seq.abortRequested then .abort else .length)
  (if seq.status ≠ .aborted then [.data (handler.final reason (fluxExtra seq.result))] else []) ++ [.done]

/-- What has been sent, once the handler has received some deltas. -/
def sent (deltas : List Text) (closing : Option (List SseEvent)) : List SseEvent :=
  handler.opening.map .data ++ deltas.map (fun text => .data (handler.delta text)) ++ closing.getD []

theorem finals_sent (deltas : List Text) (closing : Option (List SseEvent)) :
    finals (handler.sent deltas closing) = finals (closing.getD []) := by
  have hopening : finals (handler.opening.map .data) = [] := by
    unfold finals
    rw [List.filterMap_eq_nil_iff]
    intro event hevent
    obtain ⟨chunk,hchunk,rfl⟩ := List.mem_map.mp hevent
    simp [SseEvent.final,handler.opening_open chunk hchunk]
  have hdeltas : finals (deltas.map (fun text => .data (handler.delta text))) = [] := by
    unfold finals
    rw [List.filterMap_eq_nil_iff]
    intro event hevent
    obtain ⟨text,_,rfl⟩ := List.mem_map.mp hevent
    simp [SseEvent.final,handler.delta_open]
  unfold finals at hopening hdeltas
  simp only [finals,sent,List.filterMap_append,hopening,hdeltas,List.nil_append]

theorem finals_closing (seq : Sequence P L) : finals (handler.closing seq) =
    if seq.status = .aborted then []
    else [(seq.finishReason.getD (if seq.abortRequested then .abort else .length),
      seq.result.map GenerateResult.usage)] := by
  have hextra : (fluxExtra seq.result).map FluxExtra.usage = seq.result.map GenerateResult.usage := by
    cases seq.result with
    | none => rfl
    | some result => rfl
  by_cases hst : seq.status = .aborted
  · simp [closing,hst,finals,SseEvent.final]
  · simp [closing,hst,finals,SseEvent.final,handler.final_closed,hextra]

end StreamHandler

structure HttpException where
  statusCode : ℕ
  detail : String
  deriving DecidableEq, Repr

/-- `_wait_result`; `none` as long as it waits. -/
def waitResult (seq : Sequence P L) : Option (Except HttpException GenerateResult) :=
  if seq.finishedEvent then
    match seq.error with
    | some e => some (.error ⟨500,e⟩)
    | none =>
      if seq.status = .aborted then some (.error ⟨499,"request aborted"⟩)
      else
        match seq.result with
        | none => some (.error ⟨500,"sequence finished without a result"⟩)
        | some result => some (.ok result)
  else none

/-- The final chunk that is due when a request has this outcome. -/
def due : Option (Except HttpException GenerateResult) → List (FinishReason × Option CompletionUsage)
  | some (.ok result) => [(result.finishReason,some result.usage)]
  | _ => []

end FluxEngine
