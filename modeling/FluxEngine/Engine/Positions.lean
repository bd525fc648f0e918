import FluxEngine.Engine.ModelCalls
import FluxEngine.Engine.Stepwise

/-! # How many positions a cache holds

What is assumed of the model here: a forward over `k` tokens on a cache of `m`
positions returns a cache of `m + k` positions.  Slicing, padding and extraction
keep the count, so every cache is as long as the tokens it stands for.
-/
namespace FluxEngine
variable {P L : Type}

/-- `b` rows of `n` positions. -/
structure Tensor.Shaped (b n : ℕ) (t : Tensor P) : Prop where
  rows : t.length = b
  positions : ∀ row ∈ t, row.length = n

/-- Every tensor of every layer has `b` rows of `n` positions. -/
structure KvCache.Shaped (nLayers b n : ℕ) (cache : KvCache P) : Prop where
  depth : (iterKv cache).length = nLayers
  keys : ∀ layer ∈ iterKv cache, layer.1.Shaped b n
  values : ∀ layer ∈ iterKv cache, layer.2.Shaped b n

/-- A model whose caches grow by the positions of each call. -/
structure AppendingModel {P L : Type} (model : Model P L) where
  nLayers : ℕ
  nLayers_pos : 0 < nLayers
  prefill : ∀ (call : ModelCall P) (k : ℕ), call.pastKeyValues = none → (∀ row ∈ call.inputIds, row.length = k) →
    (model call).pastKeyValues.Shaped nLayers call.inputIds.length k
  append : ∀ (call : ModelCall P) (past : KvCache P) (m k : ℕ), call.pastKeyValues = some past →
    past.Shaped nLayers call.inputIds.length m → (∀ row ∈ call.inputIds, row.length = k) →
    (model call).pastKeyValues.Shaped nLayers call.inputIds.length (m + k)

variable {t : Tensor P} {cache : KvCache P} {nLayers b m n r : ℕ}

namespace Tensor.Shaped

theorem row (h : t.Shaped b n) (hr : r < b) : (t.getD r []).length = n := by
  have hlt : r < t.length := h.rows.symm ▸ hr
  rw [List.getD_eq_getElem?_getD,List.getElem?_eq_getElem hlt]
  exact h.positions _ (List.getElem_mem hlt)

theorem seqDim (h : t.Shaped b n) (hb : 0 < b) : FluxEngine.seqDim t = n := by
  unfold FluxEngine.seqDim
  cases t with
  | nil =>
    have hrows := h.rows
    simp only [List.length_nil] at hrows
    omega
  | cons row t => exact h.positions row List.mem_cons_self

theorem take (h : t.Shaped b n) (hm : m ≤ n) : (takePositions m t).Shaped b m := by
  refine ⟨by rw [takePositions,List.length_map,h.rows],?_⟩
  intro row hrow
  obtain ⟨row₀,h₀,rfl⟩ := List.mem_map.mp hrow
  rw [List.length_take,h.positions row₀ h₀,Nat.min_eq_left hm]

theorem extract (h : t.Shaped b (m + 1)) (hr : r < b) (hn : n ≤ m) : (extractRow t r n).Shaped 1 (n + 1) := by
  have hrow := h.row hr
  have hlast : (((t.getD r []).drop m).take 1).length = 1 := by
    rw [List.length_take,List.length_drop,hrow]
    omega
  have hseq := h.seqDim (Nat.zero_lt_of_lt hr)
  unfold extractRow
  simp only [hseq,Nat.add_sub_cancel]
  split
  · rename_i hzero
    refine ⟨rfl,?_⟩
    intro row hmem
    rw [List.mem_singleton.mp hmem,hlast,hzero]
  · refine ⟨rfl,?_⟩
    intro row hmem
    rw [List.mem_singleton.mp hmem,List.length_append,List.length_take,hlast,hrow]
    omega

end Tensor.Shaped

namespace KvCache.Shaped

theorem congr {c : KvCache P} (h : cache.Shaped nLayers b n) (heq : iterKv c = iterKv cache) :
    c.Shaped nLayers b n :=
  ⟨heq ▸ h.depth,heq ▸ h.keys,heq ▸ h.values⟩

theorem seqLen (h : cache.Shaped nLayers b n) (hpos : 0 < nLayers) (hb : 0 < b) : cacheSeqLen cache = n := by
  have hdepth := h.depth
  have hkeys := h.keys
  unfold cacheSeqLen
  cases hlayers : iterKv cache with
  | nil =>
    rw [hlayers,List.length_nil] at hdepth
    omega
  | cons layer layers =>
    rw [hlayers] at hkeys
    exact (hkeys layer List.mem_cons_self).seqDim hb

theorem slice (h : cache.Shaped nLayers b n) (hm : m ≤ n) : (sliceCache cache m).Shaped nLayers b m := by
  refine ⟨?_,?_,?_⟩
  · rw [iterKv_sliceCache,List.length_map]
    exact h.depth
  · intro layer hmem
    obtain ⟨layer₀,h₀,rfl⟩ := List.mem_map.mp hmem
    exact (h.keys layer₀ h₀).take hm
  · intro layer hmem
    obtain ⟨layer₀,h₀,rfl⟩ := List.mem_map.mp hmem
    exact (h.values layer₀ h₀).take hm

theorem clone (h : cache.Shaped nLayers b n) (hpos : 0 < nLayers) (hb : 0 < b) :
    (cloneCache cache).Shaped nLayers b n := by
  unfold cloneCache
  rw [h.seqLen hpos hb]
  exact h.slice le_rfl

theorem extract (h : cache.Shaped nLayers b (m + 1)) (hr : r < b) (hn : n ≤ m) :
    (extractRowCache cache r n).Shaped nLayers 1 (n + 1) := by
  refine ⟨?_,?_,?_⟩
  · simp only [extractRowCache,iterKv,List.length_map]
    exact h.depth
  · intro layer hmem
    obtain ⟨layer₀,h₀,rfl⟩ := List.mem_map.mp hmem
    exact (h.keys layer₀ h₀).extract hr hn
  · intro layer hmem
    obtain ⟨layer₀,h₀,rfl⟩ := List.mem_map.mp hmem
    exact (h.values layer₀ h₀).extract hr hn

theorem layer (h : cache.Shaped nLayers 1 n) {ℓ : ℕ} (hℓ : ℓ < nLayers) :
    ((layerAt ℓ cache).1.headD []).length = n ∧ ((layerAt ℓ cache).2.headD []).length = n := by
  have hlt : ℓ < (iterKv cache).length := h.depth.symm ▸ hℓ
  have hat : layerAt ℓ cache = (iterKv cache)[ℓ] := by
    rw [layerAt,List.getD_eq_getElem?_getD,List.getElem?_eq_getElem hlt]
    rfl
  rw [hat]
  exact ⟨(h.keys _ (List.getElem_mem hlt)).seqDim Nat.one_pos,(h.values _ (List.getElem_mem hlt)).seqDim Nat.one_pos⟩

end KvCache.Shaped

section Stack
variable [Inhabited P] {α : Type} {ids : List α} {kv : α → KvCache P} {len : α → ℕ}

theorem length_padRow {row : List P} (h : row.length = n) (hle : n ≤ m) : (padRow m n row).length = m := by
  rw [padRow,List.length_append,List.length_take,List.length_replicate,h]
  omega

/-- Caches of any lengths stack to one rectangular cache. -/
theorem stackCaches_shaped (h : ∀ a ∈ ids, (kv a).Shaped nLayers 1 (len a)) (hpos : 0 < nLayers) (hne : ids ≠ []) :
    ∃ stacked maxLen, stackCaches (ids.map kv) = .ok (stacked,ids.map len,maxLen) ∧
      (KvCache.legacy stacked).Shaped nLayers ids.length maxLen ∧ (∀ a ∈ ids, len a ≤ maxLen) ∧
      ∃ a ∈ ids, maxLen = len a := by
  obtain ⟨a₀,rest,rfl⟩ := List.exists_cons_of_ne_nil hne
  have hlen : ∀ a ∈ a₀ :: rest, cacheSeqLen (kv a) = len a := fun a ha => (h a ha).seqLen hpos Nat.one_pos
  have hlengths : ((a₀ :: rest).map kv).map cacheSeqLen = (a₀ :: rest).map len := by
    rw [List.map_map]
    exact List.map_congr_left hlen
  have hle := (le_foldl_max ((a₀ :: rest).map len) 0).2
  refine ⟨(List.range nLayers).map (stackLayer ((a₀ :: rest).map kv) (((a₀ :: rest).map len).foldl max 0)),
    ((a₀ :: rest).map len).foldl max 0,?_,?_,fun a ha => hle _ (List.mem_map_of_mem ha),?_⟩
  · rw [← hlengths,← (h a₀ List.mem_cons_self).depth]
    rfl
  · have hpad : ∀ (row : α → List P), (∀ a ∈ a₀ :: rest, (row a).length = len a) →
        Tensor.Shaped (a₀ :: rest).length (((a₀ :: rest).map len).foldl max 0)
          ((a₀ :: rest).map (fun a => padRow (((a₀ :: rest).map len).foldl max 0) (cacheSeqLen (kv a)) (row a))) := by
      intro row hrow
      refine ⟨List.length_map _,?_⟩
      intro padded hmem
      obtain ⟨a,ha,rfl⟩ := List.mem_map.mp hmem
      rw [hlen a ha]
      exact length_padRow (hrow a ha) (hle _ (List.mem_map_of_mem ha))
    refine ⟨by simp [iterKv],?_,?_⟩
    · intro layer hmem
      obtain ⟨ℓ,hℓ,rfl⟩ := List.mem_map.mp hmem
      simp only [stackLayer,List.map_map]
      exact hpad _ (fun a ha => ((h a ha).layer (List.mem_range.mp hℓ)).1)
    · intro layer hmem
      obtain ⟨ℓ,hℓ,rfl⟩ := List.mem_map.mp hmem
      simp only [stackLayer,List.map_map]
      exact hpad _ (fun a ha => ((h a ha).layer (List.mem_range.mp hℓ)).2)
  · have hmax : ∀ (lengths : List ℕ) (m : ℕ), lengths.foldl max m = m ∨ lengths.foldl max m ∈ lengths := by
      intro lengths
      induction lengths with
      | nil => exact fun m => Or.inl rfl
      | cons n lengths ih =>
        intro m
        rcases ih (max m n) with hm | hm
        · rw [List.foldl_cons,hm]
          rcases max_choice m n with hc | hc
          · exact Or.inl hc
          · rw [hc]
            exact Or.inr List.mem_cons_self
        · exact Or.inr (List.mem_cons_of_mem n hm)
    rcases hmax ((a₀ :: rest).map len) 0 with hzero | hmem
    · refine ⟨a₀,List.mem_cons_self,?_⟩
      have hle₀ := hle _ (List.mem_map_of_mem (f := len) (List.mem_cons_self (a := a₀) (l := rest)))
      omega
    · obtain ⟨a,ha,heq⟩ := List.mem_map.mp hmem
      exact ⟨a,ha,heq.symm⟩

end Stack

namespace AppendingModel
variable [Inhabited L] {eng : CachedEngine P L} (M : AppendingModel eng.model)

theorem prefill_shaped {promptIds : List Token} {r : L × KvCache P} (h : eng.prefill promptIds = .ok r) :
    r.2.Shaped M.nLayers 1 promptIds.length := by
  rw [CachedEngine.cache_of_answer h]
  exact M.prefill (CachedEngine.prefillCall promptIds) promptIds.length rfl (by simp [CachedEngine.prefillCall])

theorem prefillFromPrefix_shaped {suffixIds : List Token} {prefixKv : KvCache P} {r : L × KvCache P}
    (hkv : prefixKv.Shaped M.nLayers 1 n) (h : eng.prefillFromPrefix suffixIds prefixKv = .ok r) :
    r.2.Shaped M.nLayers 1 (n + suffixIds.length) := by
  by_cases hs : suffixIds = []
  · rw [CachedEngine.prefillFromPrefix,if_pos hs] at h
    cases h
  · rw [eng.prefillFromPrefix_eq hs] at h
    rw [CachedEngine.cache_of_answer h]
    exact M.append (eng.prefillFromPrefixCall suffixIds prefixKv) _ n suffixIds.length rfl
      (hkv.congr (iterKv_wrapPast _ _)) (by simp [CachedEngine.prefillFromPrefixCall])

theorem decode_shaped {token : Token} (hcache : cache.Shaped M.nLayers 1 n) {r : L × KvCache P}
    (h : eng.decode token cache = .ok r) : r.2.Shaped M.nLayers 1 (n + 1) := by
  rw [CachedEngine.cache_of_answer h]
  exact M.append (CachedEngine.decodeCall token cache) cache n 1 rfl hcache (by simp [CachedEngine.decodeCall])

def BoundShaped (nLayers : ℕ) (seq : Sequence P L) : Prop :=
  ∀ kv, seq.prefixKv = some kv → kv.Shaped nLayers 1 seq.prefixTokens ∧ seq.prefixTokens ≤ seq.promptTokenIds.length

theorem prefillWithReuse_shaped {seq : Sequence P L} {r : L × KvCache P} (hbound : BoundShaped M.nLayers seq)
    (h : prefillWithReuse eng seq = .ok r) : r.2.Shaped M.nLayers 1 seq.promptTokenIds.length := by
  by_cases hexact : seq.ExactHit
  · obtain ⟨hkv,hn,hl,hlen⟩ := hexact
    obtain ⟨kv,hkv⟩ := Option.isSome_iff_exists.mp hkv
    obtain ⟨logits,hl⟩ := Option.isSome_iff_exists.mp hl
    obtain ⟨hshape,hle⟩ := hbound kv hkv
    unfold prefillWithReuse at h
    simp only [hkv,hl,if_pos hn,if_pos hlen,Except.ok.injEq] at h
    rw [← h,← Nat.le_antisymm hle hlen]
    exact hshape.clone M.nLayers_pos Nat.one_pos
  · cases hkv : seq.prefixKv with
    | none =>
      simp only [prefillWithReuse,hkv] at h
      exact M.prefill_shaped h
    | some kv =>
      obtain ⟨hshape,hle⟩ := hbound kv hkv
      have hsuffix : (if seq.promptTokenIds.drop seq.prefixTokens = [] then eng.prefill seq.promptTokenIds
          else eng.prefillFromPrefix (seq.promptTokenIds.drop seq.prefixTokens) (cloneCache kv)) = .ok r →
          r.2.Shaped M.nLayers 1 seq.promptTokenIds.length := by
        intro h
        by_cases hs : seq.promptTokenIds.drop seq.prefixTokens = []
        · rw [if_pos hs] at h
          exact M.prefill_shaped h
        · rw [if_neg hs] at h
          have hlong := M.prefillFromPrefix_shaped (hshape.clone M.nLayers_pos Nat.one_pos) h
          rwa [List.length_drop,Nat.add_sub_cancel' hle] at hlong
      simp only [prefillWithReuse,hkv] at h
      split at h
      · split at h
        · exact hsuffix h
        · rename_i hpos _ logits hl
          rw [if_neg (fun hlen => hexact ⟨by simp [hkv],hpos,by simp [hl],hlen⟩)] at h
          exact hsuffix h
      · exact M.prefill_shaped h

/-- Every position id of a call is below `n`. -/
structure PositionsBelow (n : ℕ) (call : ModelCall P) : Prop where
  positionIds : ∀ rows, call.positionIds = some rows → ∀ row ∈ rows, ∀ m ∈ row, m < n
  cachePosition : ∀ positions, call.cachePosition = some positions → ∀ m ∈ positions, m < n

omit [Inhabited L] in
include M in
theorem decodeBatchCall_below [Inhabited P] {α : Type} {ids : List α} (tok : α → Token) {kv : α → KvCache P}
    {len : α → ℕ} (h : ∀ a ∈ ids, (kv a).Shaped M.nLayers 1 (len a)) (hlt : ∀ a ∈ ids, len a < n) {call : ModelCall P}
    (hcall : eng.decodeBatchCall (ids.map tok) (ids.map kv) = some call) :
    call.inputIds.length = ids.length ∧ PositionsBelow n call := by
  unfold CachedEngine.decodeBatchCall at hcall
  split at hcall
  · cases hcall
  · rename_i hcaches
    have hne : ids ≠ [] := by simpa using hcaches
    obtain ⟨stacked,maxLen,hstack,_,_,a,ha,hmax⟩ := stackCaches_shaped h M.nLayers_pos hne
    simp only [hstack,Option.some.injEq] at hcall
    subst hcall
    refine ⟨by simp,?_,?_⟩
    · rintro _ ⟨⟩ row hrow m hm
      obtain ⟨_,hlen,rfl⟩ := List.mem_map.mp hrow
      obtain ⟨a,ha,rfl⟩ := List.mem_map.mp hlen
      rw [List.mem_singleton.mp hm]
      exact hlt a ha
    · rintro _ ⟨⟩ m hm
      rw [List.mem_singleton.mp hm,hmax]
      exact hlt a ha

omit [Inhabited L] in
theorem decodeBatch_shaped [Inhabited P] {α : Type} {ids : List α} (tok : α → Token) {kv : α → KvCache P} {len : α → ℕ}
    (h : ∀ a ∈ ids, (kv a).Shaped M.nLayers 1 (len a)) {result : List L × List (KvCache P)}
    (hr : eng.decodeBatch (ids.map tok) (ids.map kv) = .ok result) {k : ℕ} {a : α} (hk : ids[k]? = some a) :
    ∃ cache, result.2[k]? = some cache ∧ cache.Shaped M.nLayers 1 (len a + 1) := by
  have ha := List.mem_of_getElem? hk
  have hne : ids ≠ [] := List.ne_nil_of_mem ha
  obtain ⟨stacked,maxLen,hstack,hshape,hle,_⟩ := stackCaches_shaped h M.nLayers_pos hne
  have hcaches : ids.map kv ≠ [] := by simpa using hne
  unfold CachedEngine.decodeBatch at hr
  simp only [if_neg hcaches,hstack] at hr
  have hrows : ids.length = ((ids.map tok).map (fun t => [t])).length := by simp
  have hout := M.append
    { inputIds := (ids.map tok).map (fun t => [t])
      pastKeyValues := some (wrapPast stacked eng.huggingface)
      attentionMask := some (attentionMaskForDecode (ids.map len) maxLen)
      positionIds := some ((ids.map len).map (fun n => [n])), cachePosition := some [maxLen] }
    (wrapPast stacked eng.huggingface) maxLen 1 rfl
    (hrows ▸ hshape.congr (iterKv_wrapPast _ _)) (by simp)
  simp only [List.length_map] at hout
  obtain ⟨logits,_,rfl⟩ := map_eq_ok hr
  have hextract := hout.extract (List.getElem?_eq_some_iff.mp hk).1 (hle a ha)
  refine ⟨_,?_,hextract⟩
  simp [List.getElem?_mapIdx,hk]

end AppendingModel
end FluxEngine
