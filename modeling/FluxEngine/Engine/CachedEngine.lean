import FluxEngine.Engine.Batching
import FluxEngine.Engine.Tokenizer

/-! # The engine with a KV cache

The language model itself, the argmax and the random draw of the sampler and
the tokenizer are third-party code and stay parameters.
-/
namespace FluxEngine

structure ModelCall (P : Type) where
  inputIds : List (List Token)
  useCache : Bool := true
  pastKeyValues : Option (KvCache P) := none
  attentionMask : Option (List (List ℕ)) := none
  positionIds : Option (List (List ℕ)) := none
  cachePosition : Option (List ℕ) := none

/-- `logits` holds one entry per row and position. -/
structure ModelOutput (P L : Type) where
  logits : List (List L)
  pastKeyValues : KvCache P

abbrev Model (P L : Type) := ModelCall P → ModelOutput P L

structure CachedEngine (P L : Type) where
  model : Model P L
  tokenizer : Tokenizer
  huggingface : Bool
  argmax : L → Token
  /-- temperature and top-p sampling, by the random draw -/
  multinomial : L → SamplingParams → ℕ → Token

def sampleLogits {P L : Type} (eng : CachedEngine P L) (logits : L) (params : SamplingParams)
    (rnd : ℕ) : Token :=
  if params.temperature ≤ 0 then eng.argmax logits else eng.multinomial logits params rnd

def packResult (tok : Tokenizer) (promptTokenIds outputIds : List Token) (finishReason : FinishReason)
    (engine : String) : GenerateResult where
  text := tok.decode outputIds
  promptTokenIds := promptTokenIds
  outputTokenIds := outputIds
  promptTokens := promptTokenIds.length
  completionTokens := outputIds.length
  finishReason := finishReason
  engine := engine

theorem map_eq_ok {ε α β : Type} {f : α → β} {x : Except ε α} {b : β} (h : x.map f = .ok b) :
    ∃ a, x = .ok a ∧ f a = b := by
  cases x with
  | error e => cases h
  | ok a => exact ⟨a,rfl,Except.ok.inj h⟩

def noPosition : Exc := "index -1 is out of bounds for dimension 1 with size 0"

/-- A model returns logits for every row and position of its input. -/
def Positional {P L : Type} (model : Model P L) : Prop :=
  ∀ call, (model call).logits.map List.length = call.inputIds.map List.length

namespace CachedEngine
variable {P L : Type}

/-- `outputs.logits[:, -1, :]`. -/
def lastLogits (out : ModelOutput P L) : Except Exc (List L) :=
  match out.logits.mapM List.getLast? with
  | some logits => .ok logits
  | none => .error noPosition

variable [Inhabited L]

/-- What a call for one row returns: the logits of the last position, and the cache. -/
def answer (out : ModelOutput P L) : Except Exc (L × KvCache P) :=
  (lastLogits out).map (fun logits => (logits.headD default,out.pastKeyValues))

theorem cache_of_answer {out : ModelOutput P L} {r : L × KvCache P} (h : answer out = .ok r) :
    r.2 = out.pastKeyValues := by
  obtain ⟨logits,_,rfl⟩ := map_eq_ok h
  rfl

theorem answer_nil {model : Model P L} (h : Positional model) {call : ModelCall P} (hids : call.inputIds = [[]]) :
    answer (model call) = .error noPosition := by
  have hrows := h call
  rw [hids] at hrows
  obtain ⟨row,rest,hlogits,hrow,_⟩ := List.map_eq_cons_iff.mp hrows
  have hnil : row = [] := List.length_eq_zero_iff.mp hrow
  simp [answer,lastLogits,hlogits,hnil,Except.map]

variable [Inhabited P] (eng : CachedEngine P L)

def prefill (promptIds : List Token) : Except Exc (L × KvCache P) :=
  answer (eng.model { inputIds := [promptIds], cachePosition := some (List.range promptIds.length) })

def prefillFromPrefix (suffixIds : List Token) (prefixKv : KvCache P) : Except Exc (L × KvCache P) :=
  if suffixIds = [] then .error "prefill_from_prefix requires a non-empty suffix"
  else
    let pastLen := cacheSeqLen prefixKv
    let cachePosition := List.range' pastLen suffixIds.length
    answer (eng.model
      { inputIds := [suffixIds], pastKeyValues := some (wrapPast (iterKv prefixKv) eng.huggingface),
        cachePosition := some cachePosition,
        attentionMask := some [List.replicate (pastLen + suffixIds.length) 1],
        positionIds := some [cachePosition] })

def decode (lastToken : Token) (kvCache : KvCache P) : Except Exc (L × KvCache P) :=
  answer (eng.model
    { inputIds := [[lastToken]], pastKeyValues := some kvCache,
      cachePosition := some [cacheSeqLen kvCache] })

def decodeBatch (lastTokens : List Token) (caches : List (KvCache P)) :
    Except Exc (List L × List (KvCache P)) :=
  if caches = [] then .error "decode_batch requires caches"
  else
    match stackCaches caches with
    | .error e => .error e
    | .ok (stacked,lengths,maxPast) =>
      let out := eng.model
        { inputIds := lastTokens.map (fun t => [t]),
          pastKeyValues := some (wrapPast stacked eng.huggingface),
          attentionMask := some (attentionMaskForDecode lengths maxPast),
          positionIds := some (lengths.map (fun n => [n])), cachePosition := some [maxPast] }
      (lastLogits out).map (fun logits =>
        (logits,lengths.mapIdx (fun row oldLen => extractRowCache out.pastKeyValues row oldLen)))

/-- The decode loop of `generate_ids`, with the number of tokens still allowed. -/
def generateLoop (stopIds : List Token) (sampling : SamplingParams) (rnd : ℕ → ℕ) :
    ℕ → Token → KvCache P → List Token → Except Exc (List Token × FinishReason)
  | 0, _, _, outputIds => .ok (outputIds,.length)
  | k+1, lastToken, kvCache, outputIds =>
    match eng.decode lastToken kvCache with
    | .error e => .error e
    | .ok (logits,kvCache) =>
      let token := sampleLogits eng logits sampling (rnd outputIds.length)
      let outputIds := outputIds ++ [token]
      if token ∈ stopIds then .ok (outputIds,.stop)
      else generateLoop stopIds sampling rnd k token kvCache outputIds

/-- The tokens of `generate_ids`, with why it stops. -/
def generateTokens (inputIds : List Token) (sampling : SamplingParams) (rnd : ℕ → ℕ) :
    Except Exc (List Token × FinishReason) :=
  let stopIds := combinedStopIds eng.tokenizer sampling.stopTokenIds sampling.ignoreEos
  match eng.prefill inputIds with
  | .error e => .error e
  | .ok (logits,kvCache) =>
    let token := sampleLogits eng logits sampling (rnd 0)
    if token ∈ stopIds then .ok ([token],.stop)
    else eng.generateLoop stopIds sampling rnd (sampling.maxTokens - 1) token kvCache [token]

def generateIds (inputIds : List Token) (sampling : SamplingParams) (rnd : ℕ → ℕ) :
    Except Exc GenerateResult :=
  if sampling.maxTokens < 1 then .error "max_tokens must be >= 1"
  else
    (eng.generateTokens inputIds sampling rnd).map (fun r =>
      packResult eng.tokenizer inputIds r.1 r.2 "cached")

end CachedEngine
end FluxEngine
