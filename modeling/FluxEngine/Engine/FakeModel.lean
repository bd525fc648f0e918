import FluxEngine.Engine.Positions

/-! # The stand-in is a causal model, and appends to its caches -/
namespace FluxEngine
namespace FakeLm
variable (lm : FakeLm)

theorem extend_one (past : Tensor ℕ) (seq : ℕ) : extend 1 seq past = [past.getD 0 [] ++ List.replicate seq 0] := rfl

/-- A cache of zeros for `n` positions. -/
def zeros (n : ℕ) : Layers ℕ := List.replicate lm.nLayers ([List.replicate n 0],[List.replicate n 0])

theorem extend_zeros (n m : ℕ) :
    (List.range lm.nLayers).map (fun layer =>
      (extend 1 m ((lm.zeros n).getD layer ([],[])).1,extend 1 m ((lm.zeros n).getD layer ([],[])).2)) =
      lm.zeros (n + m) := by
  apply List.ext_getElem
  · simp [zeros]
  · intro layer h1 _
    have hlt : layer < lm.nLayers := by simpa using h1
    simp [zeros,extend_one,List.getD_eq_getElem?_getD,hlt]

theorem length_extend (batch seq : ℕ) (past : Tensor ℕ) : (extend batch seq past).length = batch := by
  simp [extend]

theorem getD_extend {batch r : ℕ} (hr : r < batch) (seq : ℕ) (past : Tensor ℕ) :
    (extend batch seq past).getD r [] = past.getD r [] ++ List.replicate seq 0 := by
  simp [extend,List.getD_eq_getElem?_getD,hr]

theorem rowOf_extend {batch r : ℕ} (hr : r < batch) (layers : Layers ℕ) :
    rowOf ((List.range layers.length).map (fun layer =>
      (extend batch 1 (layers.getD layer ([],[])).1,extend batch 1 (layers.getD layer ([],[])).2))) r =
      (rowOf layers r).push (List.replicate (rowOf layers r).length (0,0)) := by
  apply List.ext_getElem
  · simp [rowOf,Row.push]
  · intro layer h1 _
    have hlt : layer < layers.length := by simpa [rowOf] using h1
    have hget : layers.getD layer ([],[]) = layers[layer] := by simp [List.getD_eq_getElem?_getD,hlt]
    simp only [rowOf,Row.push,List.getElem_map,List.getElem_range,List.getElem_zipWith,List.getElem_replicate,
      getD_extend hr,hget,List.replicate_one]

theorem getLastD_append (ids suffix : List Token) (h : suffix ≠ []) :
    (ids ++ suffix).getLastD 0 = suffix.getLastD 0 := by
  obtain ⟨init,t,rfl⟩ := List.eq_nil_or_concat suffix |>.resolve_left h
  rw [List.concat_eq_append,← List.append_assoc,List.getLastD_concat,List.getLastD_concat]

theorem lastLogits_forward {call : ModelCall ℕ} (h : ∀ row ∈ call.inputIds, row ≠ []) :
    CachedEngine.lastLogits (lm.engine.model call) =
      .ok (call.inputIds.map (fun row => lm.nextId (row.getLastD 0))) := by
  have hrows : ∀ rows : List (List Token), (∀ row ∈ rows, row ≠ []) →
      (rows.map (fun row => if row = [] then [] else
        List.replicate (row.length - 1) 0 ++ [lm.nextId (row.getLastD 0)])).mapM List.getLast? =
        some (rows.map (fun row => lm.nextId (row.getLastD 0))) := by
    intro rows
    induction rows with
    | nil => exact fun _ => rfl
    | cons row rows ih =>
      intro hne
      rw [List.forall_mem_cons] at hne
      rw [List.map_cons,List.mapM_cons,if_neg hne.1,List.getLast?_concat,ih hne.2]
      rfl
  simp only [CachedEngine.lastLogits,engine,forward,hrows call.inputIds h]

theorem positional : Positional lm.engine.model := by
  intro call
  simp only [engine,forward,List.map_map]
  apply List.map_congr_left
  intro row _
  by_cases hrow : row = []
  · simp [hrow]
  · have hpos := List.length_pos_iff.mpr hrow
    simp only [Function.comp,if_neg hrow,List.length_append,List.length_replicate,List.length_singleton]
    omega

theorem answer_forward {call : ModelCall ℕ} {row : List Token} (hids : call.inputIds = [row]) (hne : row ≠ []) :
    CachedEngine.answer (lm.engine.model call) =
      .ok (lm.nextId (row.getLastD 0),(lm.engine.model call).pastKeyValues) := by
  have hrows : ∀ row ∈ call.inputIds, row ≠ [] := by
    simpa [hids] using hne
  have hlast := lm.lastLogits_forward hrows
  rw [hids] at hlast
  rw [CachedEngine.answer,hlast]
  rfl

/-- The stand-in meets every assumption made of a language model. -/
def stepwise (h : 0 < lm.nLayers) : StepwiseModel lm.engine.model where
  positional := lm.positional
  logits ids := lm.nextId (ids.getLastD 0)
  kv ids := lm.zeros ids.length
  nLayers := lm.nLayers
  nLayers_pos := h
  depth ids := by simp [zeros]
  shape ids layer hl := by
    obtain ⟨_,rfl⟩ := List.mem_replicate.mp hl
    exact ⟨_,_,rfl,by simp,by simp⟩
  take ids rest := by simp [zeros,takePositions]
  prefill ids hne := by
    refine ⟨_,lm.answer_forward rfl hne,?_⟩
    apply List.ext_getElem
    · simp [engine,forward,iterKv,zeros]
    · simp [engine,forward,iterKv,zeros,extend_one]
  extend ids suffix past hs hpast := by
    rw [getLastD_append ids suffix hs]
    refine ⟨_,lm.answer_forward rfl hs,?_⟩
    simp only [engine,forward,hpast,List.length_append]
    exact lm.extend_zeros ids.length suffix.length
  attend t _ row _ := (lm.nextId t,List.replicate row.length (0,0))
  attend_length := by simp
  step tokens call past hids hpast hdepth hbatch := by
    have hbatchSize : call.inputIds.length = tokens.length := by
      rw [hids,List.length_map]
    refine ⟨_,lm.lastLogits_forward (by simp [hids]),?_,?_⟩
    · intro layer hl
      obtain ⟨_,_,rfl⟩ := List.mem_map.mp hl
      simp only [length_extend,hbatchSize,and_self]
    · intro r t hr
      obtain ⟨hlt,rfl⟩ := List.getElem?_eq_some_iff.mp hr
      have hseq : (call.inputIds.headD []).length = 1 := by
        rw [hids]
        cases tokens with
        | nil => simp at hlt
        | cons _ _ => rfl
      constructor
      · simp [hids,hlt]
      · have hlength : (visible call.attentionMask r (rowOf (iterKv past) r)).length =
            (rowOf (iterKv past) r).length := by
          unfold visible
          split
          · rfl
          · rw [List.length_map]
        simp only [hlength]
        rw [← rowOf_extend hlt,hdepth]
        simp only [engine,forward,hpast,hseq,hbatchSize]
        rfl

theorem extend_shaped {batch seq n : ℕ} {past : Tensor ℕ} (h : ∀ r < batch, (past.getD r []).length + seq = n) :
    (extend batch seq past).Shaped batch n := by
  refine ⟨length_extend batch seq past,?_⟩
  intro row hrow
  obtain ⟨r,hr,rfl⟩ := List.mem_map.mp hrow
  rw [List.length_append,List.length_replicate,h r (List.mem_range.mp hr)]

theorem shaped_of_layers {ids : List (List Token)} {n k : ℕ} (past : ℕ → Tensor ℕ × Tensor ℕ)
    (hids : ∀ row ∈ ids, row.length = k) (h : ∀ layer < lm.nLayers, ∀ r < ids.length,
      ((past layer).1.getD r []).length = n ∧ ((past layer).2.getD r []).length = n) :
    (KvCache.legacy ((List.range lm.nLayers).map (fun layer =>
      (extend ids.length (ids.headD []).length (past layer).1,extend ids.length (ids.headD []).length (past layer).2)))).Shaped
      lm.nLayers ids.length (n + k) := by
  have hseq : ∀ r < ids.length, (ids.headD []).length = k := by
    intro r hr
    obtain ⟨row,rest,rfl⟩ := List.exists_cons_of_length_pos (Nat.zero_lt_of_lt hr)
    exact hids row List.mem_cons_self
  refine ⟨by simp [iterKv],?_,?_⟩
  · intro layer hlayer
    obtain ⟨ℓ,hℓ,rfl⟩ := List.mem_map.mp hlayer
    refine extend_shaped ?_
    intro r hr
    rw [(h ℓ (List.mem_range.mp hℓ) r hr).1,hseq r hr]
  · intro layer hlayer
    obtain ⟨ℓ,hℓ,rfl⟩ := List.mem_map.mp hlayer
    refine extend_shaped ?_
    intro r hr
    rw [(h ℓ (List.mem_range.mp hℓ) r hr).2,hseq r hr]

/-- The stand-in appends the positions of a call to its cache. -/
def appending (h : 0 < lm.nLayers) : AppendingModel lm.engine.model where
  nLayers := lm.nLayers
  nLayers_pos := h
  prefill call k hnone hids := by
    have hshape := lm.shaped_of_layers (n := 0) (fun _ => ([],[])) hids (by simp)
    rw [Nat.zero_add] at hshape
    simpa only [engine,forward,hnone] using hshape
  append call past n k hsome hpast hids := by
    have hshape := lm.shaped_of_layers (n := n) (fun layer => (iterKv past).getD layer ([],[])) hids ?_
    · simpa only [engine,forward,hsome] using hshape
    · intro layer hlayer r hr
      have hlt : layer < (iterKv past).length := hpast.depth.symm ▸ hlayer
      have hat : (iterKv past).getD layer ([],[]) = (iterKv past)[layer] := by
        simp [List.getD_eq_getElem?_getD,hlt]
      rw [hat]
      exact ⟨(hpast.keys _ (List.getElem_mem hlt)).row hr,(hpast.values _ (List.getElem_mem hlt)).row hr⟩

end FakeLm
end FluxEngine
