import FluxEngine.Engine.FakeLm
import FluxEngine.Engine.System

/-! # Causal models in exact arithmetic

What is assumed of a language model: prefilling gives the logits and the KV of
a token list, a prefix of the KV is the KV of the prefix, and prefilling a
suffix on the KV of a prefix equals prefilling the whole.
-/
namespace FluxEngine

def SingleRow {P : Type} (n : ℕ) (layer : Tensor P × Tensor P) : Prop :=
  ∃ k v : List P, layer = ([k],[v]) ∧ k.length = n ∧ v.length = n

/-- A causal model in exact arithmetic: `logits` and `kv` are what it computes of a
token list, in one call or in two. -/
structure CausalModel {P L : Type} [Inhabited L] (model : Model P L) where
  positional : Positional model
  logits : List Token → L
  kv : List Token → Layers P
  nLayers : ℕ
  nLayers_pos : 0 < nLayers
  depth : ∀ ids, (kv ids).length = nLayers
  shape : ∀ ids, ∀ layer ∈ kv ids, SingleRow ids.length layer
  take : ∀ ids rest, (kv (ids ++ rest)).map (fun layer =>
    (takePositions ids.length layer.1,takePositions ids.length layer.2)) = kv ids
  prefill : ∀ ids, ids ≠ [] → ∃ cache, CachedEngine.answer
    (model { inputIds := [ids], cachePosition := some (List.range ids.length) }) = .ok (logits ids,cache) ∧
    iterKv cache = kv ids
  extend : ∀ ids suffix past, suffix ≠ [] → iterKv past = kv ids → ∃ cache, CachedEngine.answer
    (model { inputIds := [suffix], pastKeyValues := some past,
             cachePosition := some (List.range' ids.length suffix.length),
             attentionMask := some [List.replicate (ids.length + suffix.length) 1],
             positionIds := some [List.range' ids.length suffix.length] }) = .ok (logits (ids ++ suffix),cache) ∧
    iterKv cache = kv (ids ++ suffix)

namespace CausalModel
variable {P L : Type} [Inhabited L] {eng : CachedEngine P L} (M : CausalModel eng.model)

theorem cacheSeqLen_kv {cache : KvCache P} {ids : List Token} (h : iterKv cache = M.kv ids) :
    cacheSeqLen cache = ids.length := by
  unfold cacheSeqLen
  rw [h]
  cases hk : M.kv ids with
  | nil =>
    have hlen := M.depth ids
    have hpos := M.nLayers_pos
    rw [hk,List.length_nil] at hlen
    omega
  | cons layer layers =>
    obtain ⟨k,v,rfl,hlen,_⟩ := M.shape ids layer (by rw [hk]; exact List.mem_cons_self)
    exact hlen

theorem sliceCache_kv {cache : KvCache P} {ids : List Token} (h : iterKv cache = M.kv ids) {n : ℕ}
    (hn : n ≤ ids.length) : iterKv (sliceCache cache n) = M.kv (ids.take n) := by
  rw [iterKv_sliceCache,h]
  have hlen : (ids.take n).length = n := by
    rw [List.length_take]
    exact Nat.min_eq_left hn
  have ht := M.take (ids.take n) (ids.drop n)
  rw [List.take_append_drop,hlen] at ht
  exact ht

theorem cloneCache_kv {cache : KvCache P} {ids : List Token} (h : iterKv cache = M.kv ids) :
    iterKv (cloneCache cache) = M.kv ids := by
  unfold cloneCache
  rw [M.cacheSeqLen_kv h,M.sliceCache_kv h le_rfl,List.take_length]

def Computes (r : L × KvCache P) (ids : List Token) : Prop := r.1 = M.logits ids ∧ iterKv r.2 = M.kv ids

theorem prefill_computes {ids : List Token} (hne : ids ≠ []) :
    ∃ r, eng.prefill ids = .ok r ∧ M.Computes r ids := by
  obtain ⟨cache,hanswer,hkv⟩ := M.prefill ids hne
  exact ⟨_,hanswer,rfl,hkv⟩

include M in
theorem prefill_nil : eng.prefill [] = .error noPosition := CachedEngine.answer_nil M.positional rfl

theorem prefillFromPrefix_computes {ids suffix : List Token} {cache : KvCache P} (hs : suffix ≠ [])
    (h : iterKv cache = M.kv ids) :
    ∃ r, eng.prefillFromPrefix suffix cache = .ok r ∧ M.Computes r (ids ++ suffix) := by
  obtain ⟨past,hanswer,hkv⟩ := M.extend ids suffix (wrapPast (iterKv cache) eng.huggingface) hs
    (by rw [iterKv_wrapPast,h])
  unfold CachedEngine.prefillFromPrefix
  rw [if_neg hs]
  simp only [M.cacheSeqLen_kv h,hanswer]
  exact ⟨_,rfl,rfl,hkv⟩

/-- The prefix a sequence is bound to holds what it claims to hold. -/
def PrefixSound (seq : Sequence P L) : Prop :=
  ∀ cache, seq.prefixKv = some cache → seq.prefixTokens ≤ seq.promptTokenIds.length ∧
    iterKv cache = M.kv (seq.promptTokenIds.take seq.prefixTokens) ∧
    ∀ logits, seq.prefixLogits = some logits →
      seq.prefixTokens = seq.promptTokenIds.length ∧ logits = M.logits seq.promptTokenIds

/-- Every branch of `_prefill_with_reuse` computes the whole prompt. -/
theorem prefillWithReuse_computes {seq : Sequence P L} (h : M.PrefixSound seq) (hne : seq.promptTokenIds ≠ []) :
    ∃ r, prefillWithReuse eng seq = .ok r ∧ M.Computes r seq.promptTokenIds := by
  unfold prefillWithReuse
  cases hkv : seq.prefixKv with
  | none => exact M.prefill_computes hne
  | some cache =>
    obtain ⟨hle,hcache,hlogits⟩ := h cache hkv
    simp only
    by_cases hpos : 0 < seq.prefixTokens
    · rw [if_pos hpos]
      have hclone := M.cloneCache_kv hcache
      have hreuse : ∃ r, (if seq.promptTokenIds.drop seq.prefixTokens = [] then eng.prefill seq.promptTokenIds
          else eng.prefillFromPrefix (seq.promptTokenIds.drop seq.prefixTokens) (cloneCache cache)) =
          .ok r ∧ M.Computes r seq.promptTokenIds := by
        by_cases hnil : seq.promptTokenIds.drop seq.prefixTokens = []
        · rw [if_pos hnil]
          exact M.prefill_computes hne
        · rw [if_neg hnil]
          have hr := M.prefillFromPrefix_computes hnil hclone
          rw [List.take_append_drop] at hr
          exact hr
      cases hl : seq.prefixLogits with
      | none => exact hreuse
      | some logits =>
        obtain ⟨hn,hlg⟩ := hlogits logits hl
        simp only
        rw [if_pos hn.ge]
        refine ⟨_,rfl,hlg,?_⟩
        rw [hclone,hn,List.take_length]
    · rw [if_neg hpos]
      exact M.prefill_computes hne

theorem prefillWithReuse_nil {seq : Sequence P L} (h : M.PrefixSound seq) (hnil : seq.promptTokenIds = []) :
    prefillWithReuse eng seq = .error noPosition := by
  unfold prefillWithReuse
  rw [hnil]
  cases hkv : seq.prefixKv with
  | none => exact M.prefill_nil
  | some cache =>
    have hle := (h cache hkv).1
    rw [hnil,List.length_nil] at hle
    simp only [if_neg (Nat.not_lt.mpr hle)]
    exact M.prefill_nil

theorem computes_of_prefillWithReuse {seq : Sequence P L} (h : M.PrefixSound seq) {r : L × KvCache P}
    (hr : prefillWithReuse eng seq = .ok r) : seq.promptTokenIds ≠ [] ∧ M.Computes r seq.promptTokenIds := by
  by_cases hnil : seq.promptTokenIds = []
  · rw [M.prefillWithReuse_nil h hnil] at hr
    cases hr
  · obtain ⟨r',hr',hc⟩ := M.prefillWithReuse_computes h hnil
    rw [hr] at hr'
    cases hr'
    exact ⟨hnil,hc⟩

end CausalModel
end FluxEngine
