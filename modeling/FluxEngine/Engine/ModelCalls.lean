import FluxEngine.Engine.System

/-! # The calls that reach the model

What the functions of the engine hand to the model, beside what they make of
its answer.
-/
namespace FluxEngine
variable {P L : Type}

/-- The cache is a `DynamicCache`. -/
def KvCache.IsDynamic : KvCache P → Prop
  | .legacy _ => False
  | .dynamic _ => True

instance (cache : KvCache P) : Decidable cache.IsDynamic :=
  match cache with
  | .legacy _ => .isFalse id
  | .dynamic _ => .isTrue trivial

theorem isDynamic_wrapPast {layers : Layers P} {huggingface : Bool} :
    (wrapPast layers huggingface).IsDynamic ↔ huggingface = true := by
  cases huggingface with
  | true => exact iff_of_true trivial rfl
  | false => exact iff_of_false id Bool.false_ne_true

theorem not_isDynamic_cloneCache (cache : KvCache P) : ¬ (cloneCache cache).IsDynamic := id

/-- `past_key_values` is None or a `DynamicCache`. -/
def ModelCall.Accepted (call : ModelCall P) : Prop := ∀ cache, call.pastKeyValues = some cache → cache.IsDynamic

/-- The prompt is the stored prefix, and its logits are there. -/
def Sequence.ExactHit (seq : Sequence P L) : Prop :=
  seq.prefixKv.isSome ∧ 0 < seq.prefixTokens ∧ seq.prefixLogits.isSome ∧
    seq.promptTokenIds.length ≤ seq.prefixTokens

namespace CachedEngine
variable (eng : CachedEngine P L)

def prefillCall (promptIds : List Token) : ModelCall P :=
  { inputIds := [promptIds], cachePosition := some (List.range promptIds.length) }

def prefillFromPrefixCall (suffixIds : List Token) (prefixKv : KvCache P) : ModelCall P :=
  let pastLen := cacheSeqLen prefixKv
  let cachePosition := List.range' pastLen suffixIds.length
  { inputIds := [suffixIds], pastKeyValues := some (wrapPast (iterKv prefixKv) eng.huggingface),
    cachePosition := some cachePosition,
    attentionMask := some [List.replicate (pastLen + suffixIds.length) 1],
    positionIds := some [cachePosition] }

def decodeCall (lastToken : Token) (kvCache : KvCache P) : ModelCall P :=
  { inputIds := [[lastToken]], pastKeyValues := some kvCache,
    cachePosition := some [cacheSeqLen kvCache] }

/-- No call is made where `decode_batch` raises before. -/
def decodeBatchCall [Inhabited P] (lastTokens : List Token) (caches : List (KvCache P)) : Option (ModelCall P) :=
  if caches = [] then none
  else
    match stackCaches caches with
    | .error _ => none
    | .ok (stacked,lengths,maxPast) => some
      { inputIds := lastTokens.map (fun t => [t]),
        pastKeyValues := some (wrapPast stacked eng.huggingface),
        attentionMask := some (attentionMaskForDecode lengths maxPast),
        positionIds := some (lengths.map (fun n => [n])), cachePosition := some [maxPast] }

/-- The call of `_prefill_with_reuse`; an exact hit makes none. -/
def reuseCall (seq : Sequence P L) : Option (ModelCall P) :=
  match seq.prefixKv with
  | none => some (prefillCall seq.promptTokenIds)
  | some kv =>
    if 0 < seq.prefixTokens then
      let suffixCall :=
        let suffix := seq.promptTokenIds.drop seq.prefixTokens
        if suffix = [] then prefillCall seq.promptTokenIds
        else eng.prefillFromPrefixCall suffix (cloneCache kv)
      match seq.prefixLogits with
      | none => some suffixCall
      | some _ => if seq.promptTokenIds.length ≤ seq.prefixTokens then none else some suffixCall
    else some (prefillCall seq.promptTokenIds)

variable [Inhabited L]

theorem prefill_eq (promptIds : List Token) : eng.prefill promptIds = answer (eng.model (prefillCall promptIds)) := rfl

theorem prefillFromPrefix_eq {suffixIds : List Token} (h : suffixIds ≠ []) (prefixKv : KvCache P) :
    eng.prefillFromPrefix suffixIds prefixKv =
      answer (eng.model (eng.prefillFromPrefixCall suffixIds prefixKv)) :=
  if_neg h

theorem decode_eq (lastToken : Token) (kvCache : KvCache P) :
    eng.decode lastToken kvCache = answer (eng.model (decodeCall lastToken kvCache)) := rfl

omit [Inhabited L] in
theorem reuseCall_eq_none {seq : Sequence P L} : eng.reuseCall seq = none ↔ seq.ExactHit := by
  unfold reuseCall Sequence.ExactHit
  cases seq.prefixKv with
  | none => simp
  | some kv =>
    by_cases hn : 0 < seq.prefixTokens
    · cases seq.prefixLogits with
      | none => simp [hn]
      | some logits => simp [hn]
    · simp [hn]

/-- What `_prefill_with_reuse` returns is the answer to its call. -/
theorem prefillWithReuse_of_call {seq : Sequence P L} {call : ModelCall P} (h : eng.reuseCall seq = some call) :
    prefillWithReuse eng seq = answer (eng.model call) := by
  have hsuffix : ∀ kv : KvCache P,
      (if seq.promptTokenIds.drop seq.prefixTokens = [] then prefillCall seq.promptTokenIds
        else eng.prefillFromPrefixCall (seq.promptTokenIds.drop seq.prefixTokens) (cloneCache kv)) = call →
      (if seq.promptTokenIds.drop seq.prefixTokens = [] then eng.prefill seq.promptTokenIds
        else eng.prefillFromPrefix (seq.promptTokenIds.drop seq.prefixTokens) (cloneCache kv)) =
      answer (eng.model call) := by
    intro kv hcall
    by_cases hd : seq.promptTokenIds.drop seq.prefixTokens = []
    · rw [if_pos hd] at hcall ⊢
      rw [← hcall,prefill_eq]
    · rw [if_neg hd] at hcall ⊢
      rw [← hcall,eng.prefillFromPrefix_eq hd]
  unfold reuseCall at h
  unfold prefillWithReuse
  cases hkv : seq.prefixKv with
  | none =>
    rw [hkv] at h
    cases h
    rfl
  | some kv =>
    simp only [hkv] at h ⊢
    by_cases hn : 0 < seq.prefixTokens
    · rw [if_pos hn] at h ⊢
      cases hl : seq.prefixLogits with
      | none =>
        simp only [hl] at h ⊢
        exact hsuffix kv (Option.some.inj h)
      | some logits =>
        simp only [hl] at h ⊢
        by_cases hlen : seq.promptTokenIds.length ≤ seq.prefixTokens
        · simp [hlen] at h
        · rw [if_neg hlen] at h ⊢
          exact hsuffix kv (Option.some.inj h)
    · rw [if_neg hn] at h ⊢
      cases h
      rfl

theorem prefillWithReuse_of_exactHit {seq : Sequence P L} (h : seq.ExactHit) :
    ∃ logits kv, prefillWithReuse eng seq = .ok (logits,cloneCache kv) := by
  obtain ⟨hkv,hn,hl,hlen⟩ := h
  obtain ⟨kv,hkv⟩ := Option.isSome_iff_exists.mp hkv
  obtain ⟨logits,hl⟩ := Option.isSome_iff_exists.mp hl
  refine ⟨logits,kv,?_⟩
  unfold prefillWithReuse
  simp only [hkv,hl,if_pos hn,if_pos hlen]

omit [Inhabited L] in
/-- Every call of `_prefill_with_reuse` hands over nothing or a wrapped cache. -/
theorem reuseCall_accepted (hf : eng.huggingface = true) {seq : Sequence P L} {call : ModelCall P}
    (h : eng.reuseCall seq = some call) : call.Accepted := by
  have hprefill : (prefillCall seq.promptTokenIds : ModelCall P).Accepted := by
    rintro _ ⟨⟩
  have hprefix : ∀ suffix kv, (eng.prefillFromPrefixCall suffix kv).Accepted := by
    rintro suffix kv _ ⟨⟩
    exact isDynamic_wrapPast.mpr hf
  unfold reuseCall at h
  simp only at h
  split at h
  · cases h
    exact hprefill
  · split at h
    · split at h
      · cases h
        split
        · exact hprefill
        · exact hprefix _ _
      · split at h
        · cases h
        · cases h
          split
          · exact hprefill
          · exact hprefix _ _
    · cases h
      exact hprefill

omit [Inhabited L] in
theorem decodeBatchCall_accepted [Inhabited P] (hf : eng.huggingface = true) {lastTokens : List Token} {caches : List (KvCache P)}
    {call : ModelCall P} (h : eng.decodeBatchCall lastTokens caches = some call) : call.Accepted := by
  unfold decodeBatchCall at h
  split at h
  · cases h
  · split at h
    · cases h
    · cases h
      rintro _ ⟨⟩
      exact isDynamic_wrapPast.mpr hf

end CachedEngine
end FluxEngine
