import FluxEngine.Lib.Json
import FluxEngine.Lib.Utf8
import FluxEngine.Server.Routes

/-! # The bytes of an event stream

The dicts that `completion_chunk` and `chat_chunk` return, and `sse_data`.  The two
latencies of the `flux` entry are floats and come as the literals written for them.
-/
namespace FluxEngine

abbrev Dict := List (String × Json)

def FinishReason.value : FinishReason → String
  | .stop => "stop"
  | .length => "length"
  | .abort => "abort"

def CompletionUsage.modelDump (usage : CompletionUsage) : Dict :=
  [("prompt_tokens",.number (.ofNat usage.promptTokens)),
    ("completion_tokens",.number (.ofNat usage.completionTokens)),
    ("total_tokens",.number (.ofNat usage.totalTokens))]

/-- `_flux_extra` of a result. -/
def FluxExtra.dict (ttftMs tpotMs : Numeral) (extra : FluxExtra) : Dict :=
  [("usage",.object extra.usage.modelDump),
    ("flux",.object [("ttft_ms",.number ttftMs),("tpot_ms",.number tpotMs),("engine",.string extra.engine.toList)])]

def optionalReason : Option FinishReason → Json
  | none => .null
  | some reason => .string reason.value.toList

/-- The entry of `choices`. -/
def Chunk.choice (chunk : Chunk) : Dict :=
  match chunk.body with
  | .text text =>
    [("index",.number (.ofNat chunk.index)),("text",.string text),("logprobs",.null),
      ("finish_reason",optionalReason chunk.finishReason)]
  | .delta fields =>
    [("index",.number (.ofNat chunk.index)),
      ("delta",.object (fields.map (fun field => (field.1,.string field.2)))),
      ("finish_reason",optionalReason chunk.finishReason)]

/-- The payload; `update` only adds to it, its keys being new. -/
def Chunk.dict (ttftMs tpotMs : Numeral) (chunk : Chunk) : Dict :=
  [("id",.string chunk.id.toList),("object",.string chunk.object.toList),("created",.number (.ofNat chunk.created)),
    ("model",.string chunk.model.toList),("choices",.array [.object chunk.choice])] ++
    (chunk.extra.map (FluxExtra.dict ttftMs tpotMs)).getD []

/-- The `delta.content` of a chunk, if it has one. -/
def Chunk.content (chunk : Chunk) : Option Text :=
  match chunk.body with
  | .text _ => none
  | .delta fields => fields.lookup "content"

/-- What `sse_data` is given. -/
inductive SsePayload
  | dict (payload : Dict)
  | str (payload : Text)

def doneText : Text := ['[','D','O','N','E',']']

/-- `str.encode`. -/
def utf8Bytes (text : Text) : List UInt8 := text.flatMap utf8.encode

def dataLine (payload : Text) : Text := ['d','a','t','a',':',' '] ++ payload

def sseText : SsePayload → Text
  | .str payload => if payload = doneText then dataLine doneText else dataLine (Json.string payload).dumps
  | .dict payload => dataLine (Json.object payload).dumps

def sseData (payload : SsePayload) : List UInt8 := utf8Bytes (sseText payload ++ ['\n','\n'])

def SseEvent.payload (ttftMs tpotMs : Numeral) : SseEvent → SsePayload
  | .data chunk => .dict (chunk.dict ttftMs tpotMs)
  | .done => .str doneText

theorem newline_not_mem {text : Text} (h : ∀ c ∈ text, Printable c) : '\n' ∉ text :=
  fun hmem => absurd (h _ hmem) (by decide)

theorem sseText_printable (payload : SsePayload) : ∀ c ∈ sseText payload, Printable c := by
  have hline {text : Text} (h : ∀ c ∈ text, Printable c) : ∀ c ∈ dataLine text, Printable c := by
    simp only [dataLine,List.forall_mem_append]
    exact ⟨by simp [Printable],h⟩
  cases payload with
  | dict payload => exact hline (Json.printable_dumps _)
  | str payload =>
    have hdone : ∀ c ∈ doneText, Printable c := by simp [doneText,Printable]
    by_cases hpayload : payload = doneText
    · simp only [sseText,if_pos hpayload]
      exact hline hdone
    · simp only [sseText,if_neg hpayload]
      exact hline (Json.printable_dumps _)

theorem sseData_flatMap (payloads : List SsePayload) :
    payloads.flatMap sseData = utf8Bytes ((payloads.map sseText).flatMap (· ++ ['\n','\n'])) := by
  induction payloads with
  | nil => rfl
  | cons payload payloads ih =>
    rw [List.flatMap_cons,ih]
    simp only [sseData,utf8Bytes,List.map_cons,List.flatMap_cons,List.flatMap_append]

end FluxEngine
