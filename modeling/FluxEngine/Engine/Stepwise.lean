import FluxEngine.Engine.Causal

/-! # Decoding in exact arithmetic

What is assumed of a decode step: every row of the batch appends one position
to each layer, and depends on its token, its position id and the unmasked
cached positions.  It follows that a row of a padded batch decodes as the
sequence would alone.
-/
namespace FluxEngine

abbrev Row (P : Type) := List (List P × List P)

namespace Row
variable {P : Type}

def layers (row : Row P) : Layers P := row.map (fun kv => ([kv.1],[kv.2]))

def OfLength (n : ℕ) (row : Row P) : Prop := ∀ kv ∈ row, kv.1.length = n ∧ kv.2.length = n

def push (row : Row P) (new : List (P × P)) : Row P :=
  List.zipWith (fun kv p => (kv.1 ++ [p.1],kv.2 ++ [p.2])) row new

def pad [Inhabited P] (k : ℕ) (row : Row P) : Row P :=
  row.map (fun kv => (kv.1 ++ List.replicate k default,kv.2 ++ List.replicate k default))

variable {row : Row P} {new : List (P × P)} {n k : ℕ}

theorem length_push (h : new.length = row.length) : (row.push new).length = row.length := by
  rw [push,List.length_zipWith,h,Nat.min_self]

theorem OfLength.push (h : row.OfLength n) : (row.push new).OfLength (n + 1) := by
  induction row generalizing new with
  | nil => simp [Row.push,OfLength]
  | cons kv row ih =>
    cases new with
    | nil => simp [Row.push,OfLength]
    | cons p new =>
      have hkv := h kv List.mem_cons_self
      have hrow : Row.OfLength n row := fun kv' hkv' => h kv' (List.mem_cons_of_mem _ hkv')
      intro kv' hmem
      rcases List.mem_cons.mp hmem with rfl | hmem
      · simp [hkv.1,hkv.2]
      · exact ih hrow kv' hmem

theorem OfLength.pad [Inhabited P] (h : row.OfLength n) : (row.pad k).OfLength (n + k) := by
  intro kv hmem
  obtain ⟨kv₀,h₀,rfl⟩ := List.mem_map.mp hmem
  simp [h kv₀ h₀]

/-- Positions `0..n` and the one at `m` of each layer. -/
def cut (n m : ℕ) (row : Row P) : Layers P :=
  row.map (fun kv => ([kv.1.take n ++ (kv.1.drop m).take 1],[kv.2.take n ++ (kv.2.drop m).take 1]))

theorem cut_pad_push [Inhabited P] (k : ℕ) (new : List (P × P)) (h : row.OfLength n) :
    ((row.pad k).push new).cut n (n + k) = (row.push new).layers := by
  induction row generalizing new with
  | nil => rfl
  | cons kv row ih =>
    cases new with
    | nil => rfl
    | cons p new =>
      obtain ⟨hk,hv⟩ := h kv List.mem_cons_self
      have hrow : Row.OfLength n row := fun kv' hkv' => h kv' (List.mem_cons_of_mem _ hkv')
      have hkeep : ∀ (l : List P) (x : P), l.length = n →
          (l ++ List.replicate k default ++ [x]).take n ++
            ((l ++ List.replicate k default ++ [x]).drop (n + k)).take 1 = l ++ [x] := by
        intro l x hl
        have hlen : (l ++ List.replicate k default).length = n + k := by simp [hl]
        rw [List.drop_left' hlen,List.append_assoc,List.take_left' hl]
        rfl
      apply List.cons_eq_cons.mpr
      constructor
      · simp only [hkeep _ _ hk,hkeep _ _ hv]
      · exact ih new hrow

end Row

variable {P : Type}

/-- Row `r` of a cache. -/
def rowOf (layers : Layers P) (r : ℕ) : Row P := layers.map (fun layer => (layer.1.getD r [],layer.2.getD r []))

/-- The positions that the mask lets through, in order. -/
def unmasked (mask : List ℕ) (positions : List P) : List P :=
  ((positions.zip mask).filter (fun pm => pm.2 ≠ 0)).map Prod.fst

def visible (mask : Option (List (List ℕ))) (r : ℕ) (row : Row P) : Row P :=
  match mask with
  | none => row
  | some rows => row.map (fun kv => (unmasked (rows.getD r []) kv.1,unmasked (rows.getD r []) kv.2))

/-- The mask lets through the new column, its last. -/
def ownVisible (mask : Option (List (List ℕ))) (r : ℕ) : Bool :=
  match mask with
  | none => true
  | some rows => decide ((rows.getD r []).getLastD 0 ≠ 0)

def positionId (call : ModelCall P) (r : ℕ) : ℕ :=
  match call.positionIds with
  | none =>
    match call.cachePosition with
    | none => (call.pastKeyValues.map cacheSeqLen).getD 0
    | some positions => positions.headD 0
  | some rows => (rows.getD r []).headD 0

/-- Every tensor has `n` batch rows. -/
def Batched (n : ℕ) (layers : Layers P) : Prop := ∀ layer ∈ layers, layer.1.length = n ∧ layer.2.length = n

theorem unmasked_pad [Inhabited P] {n k : ℕ} {l : List P} (hl : l.length = n) :
    unmasked (List.replicate n 1 ++ List.replicate k 0 ++ [1]) (l ++ List.replicate k default) = l := by
  have hshow : ((l.zip (List.replicate n 1)).filter (fun pm => pm.2 ≠ 0)).map Prod.fst = l := by
    rw [List.filter_eq_self.mpr,List.map_fst_zip (by simp [hl])]
    intro pm hpm
    have h1 := List.eq_of_mem_replicate (List.of_mem_zip hpm).2
    simp [h1]
  have hhide : ((List.replicate k (default : P)).zip (List.replicate k 0 ++ [1])).filter
      (fun pm => pm.2 ≠ 0) = [] := by
    have hz : (List.replicate k (default : P) ++ []).zip (List.replicate k 0 ++ [1]) =
        (List.replicate k default).zip (List.replicate k 0) ++ ([] : List P).zip [1] := List.zip_append (by simp)
    rw [List.append_nil,List.zip_nil_left,List.append_nil] at hz
    rw [hz,List.filter_eq_nil_iff]
    intro pm hpm
    have h0 := List.eq_of_mem_replicate (List.of_mem_zip hpm).2
    simp [h0]
  unfold unmasked
  rw [List.append_assoc,List.zip_append (by simp [hl]),List.filter_append,List.map_append,hshow,hhide,
    List.map_nil,List.append_nil]

/-- A row is as deep as the model and its tensors have one length. -/
structure Row.Fits (nLayers n : ℕ) (row : Row P) : Prop where
  depth : row.length = nLayers
  ofLength : row.OfLength n

theorem rowOf_layers (row : Row P) : rowOf row.layers 0 = row := by
  unfold rowOf Row.layers
  rw [List.map_map]
  exact List.map_id row

theorem Batched.layers_rowOf {layers : Layers P} (h : Batched 1 layers) : (rowOf layers 0).layers = layers := by
  unfold rowOf Row.layers
  rw [List.map_map]
  refine (List.map_congr_left ?_).trans (List.map_id layers)
  intro layer hmem
  obtain ⟨h1,h2⟩ := h layer hmem
  obtain ⟨k,hk⟩ := List.length_eq_one_iff.mp h1
  obtain ⟨v,hv⟩ := List.length_eq_one_iff.mp h2
  simp only [Function.comp,hk,hv,List.getD_cons_zero,id]
  exact Prod.ext hk.symm hv.symm

theorem cacheSeqLen_layers {cache : KvCache P} {row : Row P} {nLayers n : ℕ} (h : iterKv cache = row.layers)
    (hf : row.Fits nLayers n) (hpos : 0 < nLayers) : cacheSeqLen cache = n := by
  unfold cacheSeqLen
  rw [h]
  cases row with
  | nil =>
    have hd := hf.depth
    simp only [List.length_nil] at hd
    omega
  | cons kv row => exact (hf.ofLength kv List.mem_cons_self).1

section Batch
variable [Inhabited P] {α : Type} {ids : List α} {tok : α → Token} {cache : α → KvCache P}
  {row : α → Row P} {len : α → ℕ} {nLayers : ℕ}

theorem le_foldl_max (lengths : List ℕ) (m : ℕ) : m ≤ lengths.foldl max m ∧ ∀ n ∈ lengths, n ≤ lengths.foldl max m := by
  induction lengths generalizing m with
  | nil => simp
  | cons n lengths ih =>
    obtain ⟨hle,hall⟩ := ih (max m n)
    refine ⟨(Nat.le_max_left m n).trans hle,?_⟩
    intro k hk
    rcases List.mem_cons.mp hk with rfl | hk
    · exact (Nat.le_max_right m k).trans hle
    · exact hall k hk

def Rows (nLayers : ℕ) (ids : List α) (cache : α → KvCache P) (row : α → Row P) (len : α → ℕ) : Prop :=
  ∀ a ∈ ids, iterKv (cache a) = (row a).layers ∧ (row a).Fits nLayers (len a)

theorem stackLayer_row (h : Rows nLayers ids cache row len) (hlen : ∀ a ∈ ids, cacheSeqLen (cache a) = len a) (maxLen : ℕ) {k ℓ : ℕ} {a : α}
    (hk : ids[k]? = some a) (hℓ : ℓ < (row a).length) :
    let layer := stackLayer (ids.map cache) maxLen ℓ
    ((row a).pad (maxLen - len a))[ℓ]? = some (layer.1.getD k [],layer.2.getD k []) := by
  obtain ⟨hc,hf⟩ := h a (List.mem_of_getElem? hk)
  have hlenA := hlen a (List.mem_of_getElem? hk)
  have hlayer : layerAt ℓ (cache a) = ([((row a)[ℓ]).1],[((row a)[ℓ]).2]) := by
    unfold layerAt
    rw [hc,List.getD_eq_getElem?_getD]
    simp [Row.layers,hℓ]
  obtain ⟨h1,h2⟩ := hf.ofLength _ (List.getElem_mem hℓ)
  simp only [stackLayer,List.getD_eq_getElem?_getD,List.getElem?_map,hk,Option.map_some,Option.getD_some,hlenA,
    hlayer,List.headD_cons,padRow,Row.pad,List.getElem?_eq_getElem hℓ]
  rw [List.take_of_length_le h1.le,List.take_of_length_le h2.le]

theorem stackCaches_rows (h : Rows nLayers ids cache row len) (hlen : ∀ a ∈ ids, cacheSeqLen (cache a) = len a)
    (hne : ids ≠ []) :
    ∃ stacked maxLen, stackCaches (ids.map cache) = .ok (stacked,ids.map len,maxLen) ∧
      stacked.length = nLayers ∧ Batched ids.length stacked ∧ (∀ a ∈ ids, len a ≤ maxLen) ∧
      ∀ k a, ids[k]? = some a → rowOf stacked k = (row a).pad (maxLen - len a) := by
  obtain ⟨a₀,rest,rfl⟩ := List.exists_cons_of_ne_nil hne
  have hlengths : ((a₀ :: rest).map cache).map cacheSeqLen = (a₀ :: rest).map len := by
    rw [List.map_map]
    exact List.map_congr_left hlen
  obtain ⟨hc₀,hf₀⟩ := h a₀ List.mem_cons_self
  have hdepth : (iterKv (cache a₀)).length = nLayers := by
    rw [hc₀,Row.layers,List.length_map]
    exact hf₀.depth
  refine ⟨(List.range nLayers).map (stackLayer ((a₀ :: rest).map cache) (((a₀ :: rest).map len).foldl max 0)),
    ((a₀ :: rest).map len).foldl max 0,?_,by simp,?_,?_,?_⟩
  · rw [← hlengths,← hdepth]
    rfl
  · intro layer hmem
    obtain ⟨ℓ,_,rfl⟩ := List.mem_map.mp hmem
    simp [stackLayer]
  · intro a ha
    exact (le_foldl_max _ 0).2 _ (List.mem_map_of_mem ha)
  · intro k a hk
    have hf := (h a (List.mem_of_getElem? hk)).2
    apply List.ext_getElem?
    intro ℓ
    by_cases hℓ : ℓ < (row a).length
    · have hrange : (List.range nLayers)[ℓ]? = some ℓ := List.getElem?_range (hf.depth ▸ hℓ)
      simp only [rowOf,List.getElem?_map,hrange,Option.map_some,
        stackLayer_row h hlen (((a₀ :: rest).map len).foldl max 0) hk hℓ]
    · rw [List.getElem?_eq_none,List.getElem?_eq_none]
      · simpa [Row.pad] using hℓ
      · simpa [rowOf,← hf.depth] using hℓ

omit [Inhabited P] in
theorem iterKv_extractRowCache {out : KvCache P} {r n m : ℕ}
    (hseq : ∀ layer ∈ iterKv out, seqDim layer.1 = m + 1 ∧ seqDim layer.2 = m + 1) :
    iterKv (extractRowCache out r n) = (rowOf (iterKv out) r).cut n m := by
  have hrow : ∀ t : Tensor P, seqDim t = m + 1 →
      extractRow t r n = [(t.getD r []).take n ++ ((t.getD r []).drop m).take 1] := by
    intro t ht
    unfold extractRow
    rw [ht]
    by_cases hn : n = 0
    · simp [hn]
    · simp [hn]
  unfold extractRowCache rowOf Row.cut
  rw [List.map_map]
  apply List.map_congr_left
  intro layer hmem
  obtain ⟨h1,h2⟩ := hseq layer hmem
  exact Prod.ext (hrow _ h1) (hrow _ h2)

omit [Inhabited P] in
theorem seqDim_of_rowOf {layers : Layers P} {n : ℕ} (h : (rowOf layers 0).OfLength n) :
    ∀ layer ∈ layers, seqDim layer.1 = n ∧ seqDim layer.2 = n := by
  intro layer hmem
  have hl := h _ (List.mem_map_of_mem hmem)
  simp only [List.getD_eq_getElem?_getD,← List.head?_eq_getElem?] at hl
  simpa [seqDim,List.headD_eq_head?_getD] using hl

end Batch

/-- One step of decoding, row by row: `attend` is given the token, the position id,
the unmasked past positions in order, and whether the new column is unmasked. -/
structure RowwiseModel {P L : Type} (model : Model P L) where
  nLayers : ℕ
  attend : Token → ℕ → Row P → Bool → L × List (P × P)
  attend_length : ∀ t n row own, (attend t n row own).2.length = row.length
  step : ∀ (tokens : List Token) (call : ModelCall P) (past : KvCache P),
    call.inputIds = tokens.map (fun t => [t]) → call.pastKeyValues = some past →
    (iterKv past).length = nLayers → Batched tokens.length (iterKv past) →
    ∃ logits, CachedEngine.lastLogits (model call) = .ok logits ∧
      Batched tokens.length (iterKv (model call).pastKeyValues) ∧
      ∀ r t, tokens[r]? = some t →
        let new := attend t (positionId call r) (visible call.attentionMask r (rowOf (iterKv past) r))
          (ownVisible call.attentionMask r)
        logits[r]? = some new.1 ∧
        rowOf (iterKv (model call).pastKeyValues) r = (rowOf (iterKv past) r).push new.2

namespace RowwiseModel
variable {L : Type} [Inhabited L] {eng : CachedEngine P L} (M : RowwiseModel eng.model)

/-- Alone, a sequence attends to its whole cache and to itself. -/
theorem decode_row {cache : KvCache P} {row : Row P} {n : ℕ} (h : iterKv cache = row.layers)
    (hdepth : row.length = M.nLayers) (hlen : cacheSeqLen cache = n) (t : Token) :
    ∃ r, eng.decode t cache = .ok r ∧ r.1 = (M.attend t n row true).1 ∧
      iterKv r.2 = (row.push (M.attend t n row true).2).layers := by
  have hbatch : Batched [t].length (iterKv cache) := by
    rw [h]
    intro layer hmem
    obtain ⟨kv,_,rfl⟩ := List.mem_map.mp hmem
    exact ⟨rfl,rfl⟩
  have hlayers : (iterKv cache).length = M.nLayers := by
    rw [h,Row.layers,List.length_map]
    exact hdepth
  obtain ⟨logits,hlast,hb,hrow⟩ := M.step [t]
    { inputIds := [[t]], pastKeyValues := some cache, cachePosition := some [cacheSeqLen cache] } cache rfl rfl
    hlayers hbatch
  obtain ⟨hlg,hkv⟩ := hrow 0 t rfl
  simp only [positionId,visible,ownVisible,List.headD_cons,hlen] at hlg hkv
  rw [h,rowOf_layers] at hlg hkv
  rw [hlen] at hlast hb
  unfold CachedEngine.decode CachedEngine.answer
  rw [hlen,hlast]
  have hhead : logits.headD default = (M.attend t n row true).1 := by
    rw [List.headD_eq_head?_getD,List.head?_eq_getElem?,hlg]
    rfl
  refine ⟨_,rfl,hhead,?_⟩
  rw [← hb.layers_rowOf,hkv]

omit [Inhabited L] in
/-- A row of a decode batch attends to its own past and to itself, and no padding
stays in its cache. -/
theorem decodeBatch_row [Inhabited P] {α : Type} {ids : List α} (tok : α → Token) {cache : α → KvCache P}
    {row : α → Row P} {len : α → ℕ} (h : Rows M.nLayers ids cache row len)
    (hlen : ∀ a ∈ ids, cacheSeqLen (cache a) = len a) (hne : ids ≠ []) :
    ∃ r, eng.decodeBatch (ids.map tok) (ids.map cache) = .ok r ∧ r.2.length = ids.length ∧
      ∀ (k : ℕ) (a : α), ids[k]? = some a → ∃ logits kv, r.1[k]? = some logits ∧ r.2[k]? = some kv ∧
        logits = (M.attend (tok a) (len a) (row a) true).1 ∧
        iterKv kv = ((row a).push (M.attend (tok a) (len a) (row a) true).2).layers := by
  obtain ⟨stacked,maxLen,hstack,hdepth,hbatch,hle,hrows⟩ := stackCaches_rows h hlen hne
  let call : ModelCall P :=
    { inputIds := (ids.map tok).map (fun t => [t])
      pastKeyValues := some (wrapPast stacked eng.huggingface)
      attentionMask := some (attentionMaskForDecode (ids.map len) maxLen)
      positionIds := some ((ids.map len).map (fun n => [n])), cachePosition := some [maxLen] }
  obtain ⟨logits,hlast,_,hstep⟩ := M.step (ids.map tok) call (wrapPast stacked eng.huggingface) rfl rfl
    (by rw [iterKv_wrapPast,hdepth]) (by rw [iterKv_wrapPast,List.length_map]; exact hbatch)
  have hrow : ∀ k a, ids[k]? = some a → logits[k]? = some (M.attend (tok a) (len a) (row a) true).1 ∧
      rowOf (iterKv (eng.model call).pastKeyValues) k =
        ((row a).pad (maxLen - len a)).push (M.attend (tok a) (len a) (row a) true).2 := by
    intro k a hk
    have hf := (h a (List.mem_of_getElem? hk)).2
    have hs := hstep k (tok a) (by simp [hk])
    have hvis : visible (some (attentionMaskForDecode (ids.map len) maxLen)) k
        ((row a).pad (maxLen - len a)) = row a := by
      simp only [visible,attentionMaskForDecode,List.getD_eq_getElem?_getD,List.getElem?_map,hk,Option.map_some,
        Option.getD_some,Row.pad,List.map_map]
      refine (List.map_congr_left ?_).trans (List.map_id (row a))
      intro kv hmem
      obtain ⟨h1,h2⟩ := hf.ofLength kv hmem
      exact Prod.ext (unmasked_pad h1) (unmasked_pad h2)
    have hown : ownVisible (some (attentionMaskForDecode (ids.map len) maxLen)) k = true := by
      simp only [ownVisible,attentionMaskForDecode,List.getD_eq_getElem?_getD,List.getElem?_map,hk,Option.map_some,
        Option.getD_some,List.getLastD_concat]
      rfl
    simp only [call,iterKv_wrapPast,hrows k a hk,hvis,hown] at hs
    simpa [call,positionId,hk] using hs
  have hcaches : ids.map cache ≠ [] := by simpa using hne
  unfold CachedEngine.decodeBatch
  simp only [if_neg hcaches,hstack]
  rw [hlast]
  have hseq : ∀ layer ∈ iterKv (eng.model call).pastKeyValues, seqDim layer.1 = maxLen + 1 ∧ seqDim layer.2 = maxLen + 1 := by
    obtain ⟨a₀,rest,rfl⟩ := List.exists_cons_of_ne_nil hne
    apply seqDim_of_rowOf
    have h0 : (((row a₀).pad (maxLen - len a₀)).push (M.attend (tok a₀) (len a₀) (row a₀) true).2).OfLength
        (len a₀ + (maxLen - len a₀) + 1) := (h a₀ List.mem_cons_self).2.ofLength.pad.push
    rwa [← (hrow 0 a₀ rfl).2,Nat.add_sub_cancel' (hle a₀ List.mem_cons_self)] at h0
  refine ⟨_,rfl,by simp,?_⟩
  intro k a hk
  obtain ⟨hlg,hkv⟩ := hrow k a hk
  have ha := List.mem_of_getElem? hk
  have hextract : ((ids.map len).mapIdx (fun r oldLen => extractRowCache (eng.model call).pastKeyValues r oldLen))[k]? =
      some (extractRowCache (eng.model call).pastKeyValues k (len a)) := by
    simp [List.getElem?_mapIdx,hk]
  refine ⟨_,_,hlg,hextract,rfl,?_⟩
  rw [iterKv_extractRowCache hseq,hkv]
  have hcut := Row.cut_pad_push (maxLen - len a) (M.attend (tok a) (len a) (row a) true).2 (h a ha).2.ofLength
  rwa [Nat.add_sub_cancel' (hle a ha)] at hcut

end RowwiseModel

/-- A causal model that decodes row by row. -/
structure StepwiseModel {P L : Type} [Inhabited L] (model : Model P L) extends CausalModel model, RowwiseModel model

namespace StepwiseModel
variable {L : Type} [Inhabited L] {eng : CachedEngine P L} (M : StepwiseModel eng.model)

def Holds (r : L × KvCache P) (state : L × Row P) : Prop := r.1 = state.1 ∧ iterKv r.2 = state.2.layers

/-- One more token for a sequence of `n` cached positions, which attends to itself. -/
def grow (n : ℕ) (row : Row P) (t : Token) : L × Row P :=
  ((M.attend t n row true).1,row.push (M.attend t n row true).2)

theorem grow_fits {n : ℕ} {row : Row P} (h : row.Fits M.nLayers n) (t : Token) :
    (M.grow n row t).2.Fits M.nLayers (n + 1) :=
  ⟨(Row.length_push (M.attend_length t n row true)).trans h.depth,h.ofLength.push⟩

theorem decode_holds {cache : KvCache P} {row : Row P} {n : ℕ} (h : iterKv cache = row.layers)
    (hf : row.Fits M.nLayers n) (t : Token) : ∃ r, eng.decode t cache = .ok r ∧ Holds r (M.grow n row t) :=
  M.toRowwiseModel.decode_row h hf.depth (cacheSeqLen_layers h hf M.nLayers_pos) t

theorem decodeBatch_holds [Inhabited P] {α : Type} {ids : List α} (tok : α → Token) {cache : α → KvCache P}
    {row : α → Row P} {len : α → ℕ} (h : Rows M.nLayers ids cache row len) (hne : ids ≠ []) :
    ∃ r, eng.decodeBatch (ids.map tok) (ids.map cache) = .ok r ∧
      ∀ (k : ℕ) (a : α), ids[k]? = some a → ∃ logits kv, r.1[k]? = some logits ∧ r.2[k]? = some kv ∧
        Holds (logits,kv) (M.grow (len a) (row a) (tok a)) := by
  have hlen : ∀ a ∈ ids, cacheSeqLen (cache a) = len a :=
    fun a ha => cacheSeqLen_layers (h a ha).1 (h a ha).2 M.nLayers_pos
  obtain ⟨r,hr,-,hrow⟩ := M.toRowwiseModel.decodeBatch_row tok h hlen hne
  exact ⟨r,hr,hrow⟩

end StepwiseModel
end FluxEngine
