import FluxEngine.Engine.FakeModel

/-! # A batch decodes row by row

Every row of a decode batch gets the logits and the cache that `decode` would
return for it alone, whatever the lengths of the other rows.
-/
namespace FluxEngine
variable {P L : Type}

theorem KvCache.Shaped.row {cache : KvCache P} {nLayers n : ℕ} (h : cache.Shaped nLayers 1 n) :
    iterKv cache = (rowOf (iterKv cache) 0).layers ∧ (rowOf (iterKv cache) 0).Fits nLayers n := by
  have hbatched : Batched 1 (iterKv cache) := fun layer hl => ⟨(h.keys layer hl).rows,(h.values layer hl).rows⟩
  refine ⟨hbatched.layers_rowOf.symm,?_,?_⟩
  · rw [rowOf,List.length_map]
    exact h.depth
  · intro kv hkv
    obtain ⟨layer,hl,rfl⟩ := List.mem_map.mp hkv
    exact ⟨(h.keys layer hl).row Nat.one_pos,(h.values layer hl).row Nat.one_pos⟩

/-- The caches of a batch have the layers of the model, one row each and any lengths. -/
def Stackable (nLayers : ℕ) (caches : List (KvCache P)) : Prop :=
  ∀ cache ∈ caches, cache.Shaped nLayers 1 (cacheSeqLen cache)

/-- Whatever the lengths beside it, empty ones among them, a row of a decode batch gets
the logits and the cache that `decode` returns for it alone: its own positions and one
new, without padding. -/
theorem batch_decodes_alone [Inhabited P] [Inhabited L] {eng : CachedEngine P L} (M : RowwiseModel eng.model)
    {tokens : List Token} {caches : List (KvCache P)} (hne : caches ≠ []) (hlen : tokens.length = caches.length)
    (hshape : Stackable M.nLayers caches) :
    ∃ logits kvs, eng.decodeBatch tokens caches = .ok (logits,kvs) ∧ kvs.length = caches.length ∧
      ∀ (k : ℕ) (token : Token) (cache : KvCache P), tokens[k]? = some token → caches[k]? = some cache →
        ∃ alone kv, eng.decode token cache = .ok alone ∧ logits[k]? = some alone.1 ∧
          kvs[k]? = some kv ∧ iterKv kv = iterKv alone.2 ∧
          iterKv kv = ((rowOf (iterKv cache) 0).push
            (M.attend token (cacheSeqLen cache) (rowOf (iterKv cache) 0) true).2).layers := by
  let rows := tokens.zip caches
  have htokens : rows.map Prod.fst = tokens := List.map_fst_zip hlen.le
  have hcaches : rows.map Prod.snd = caches := List.map_snd_zip hlen.ge
  have hholds : Rows M.nLayers rows Prod.snd (fun r => rowOf (iterKv r.2) 0) (fun r => cacheSeqLen r.2) :=
    fun r hr => (hshape r.2 (List.of_mem_zip hr).2).row
  have hrows : rows ≠ [] := by
    intro hnil
    rw [hnil] at hcaches
    exact hne hcaches.symm
  obtain ⟨⟨logits,kvs⟩,hbatch,hcount,hrow⟩ := M.decodeBatch_row Prod.fst hholds (fun _ _ => rfl) hrows
  rw [htokens,hcaches] at hbatch
  refine ⟨logits,kvs,hbatch,?_,?_⟩
  · rw [← hcaches,List.length_map]
    exact hcount
  · intro k token cache htoken hcache
    have hk : rows[k]? = some (token,cache) := by simp [rows,List.getElem?_zip_eq_some,htoken,hcache]
    obtain ⟨row,kv,hrow,hkv,rfl,hiter⟩ := hrow k (token,cache) hk
    obtain ⟨hlayers,hfits⟩ := (hshape cache (List.mem_of_getElem? hcache)).row
    obtain ⟨alone,hdecode,halone,hcache⟩ := M.decode_row hlayers hfits.depth rfl token
    exact ⟨alone,kv,hdecode,hrow.trans (congrArg some halone.symm),hkv,hiter.trans hcache.symm,hiter⟩

theorem FakeLm.zeros_shaped (lm : FakeLm) (n : ℕ) : (KvCache.legacy (lm.zeros n)).Shaped lm.nLayers 1 n := by
  have hzeros : ∀ layer ∈ lm.zeros n, layer = ([List.replicate n 0],[List.replicate n 0]) :=
    fun layer hl => (List.mem_replicate.mp hl).2
  refine ⟨List.length_replicate,?_,?_⟩
  · intro layer hl
    rw [hzeros layer hl]
    exact ⟨rfl,by simp⟩
  · intro layer hl
    rw [hzeros layer hl]
    exact ⟨rfl,by simp⟩

theorem FakeLm.stackable_zeros (lm : FakeLm) (h : 0 < lm.nLayers) (ns : List ℕ) :
    Stackable lm.nLayers (ns.map (fun n => .legacy (lm.zeros n))) := by
  intro cache hc
  obtain ⟨n,_,rfl⟩ := List.mem_map.mp hc
  have hshaped := lm.zeros_shaped n
  rw [hshaped.seqLen h Nat.one_pos]
  exact hshaped

/-- An empty cache beside longer ones. -/
theorem batch_decodes_alone_mixed : ∃ logits kvs,
    (FakeLm.engine {}).decodeBatch [7,8,9] ([0,3,1].map (fun n => .legacy (FakeLm.zeros {} n))) = .ok (logits,kvs) ∧
      kvs.length = 3 ∧ ∃ alone, (FakeLm.engine {}).decode 7 (.legacy (FakeLm.zeros {} 0)) = .ok alone ∧
        logits[0]? = some alone.1 := by
  have hpos : 0 < FakeLm.nLayers {} := by decide
  have hstackable := FakeLm.stackable_zeros {} hpos [0,3,1]
  have hlen : ([7,8,9] : List Token).length = ([0,3,1].map (fun n => KvCache.legacy (FakeLm.zeros {} n))).length := rfl
  obtain ⟨logits,kvs,hbatch,hcount,hrow⟩ :=
    batch_decodes_alone (FakeLm.stepwise {} hpos).toRowwiseModel (by simp) hlen hstackable
  obtain ⟨alone,_,hdecode,hlogits,_⟩ := hrow 0 7 _ rfl rfl
  exact ⟨logits,kvs,hbatch,hcount,alone,hdecode,hlogits⟩

end FluxEngine
