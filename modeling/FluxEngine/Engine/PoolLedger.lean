import FluxEngine.Lib.Ledger
import FluxEngine.Engine.BlockPool

/-! # The pool as a ledger of blocks

The operations are rewritten into explicit updates of the free list and of the
allocation table, and each keeps the ledger balanced.
-/
namespace FluxEngine.BlockPool
open OrderedDict
variable {P L : Type} {pool pool' : BlockPool} {id : SeqId} {seq : Sequence P L} {ids : List ℕ} {pins : ℕ → ℕ}

def owned (pool : BlockPool) (b : ℕ) : ℕ := weight (fun _ ids => ids.count b) pool.alloc

def Balanced (pool : BlockPool) (pins : ℕ → ℕ) : Prop :=
  Ledger.Balanced (List.range pool.numBlocks) pool.free pool.owned pins

def shape (pool : BlockPool) : ℕ × ℕ := (pool.numBlocks,pool.blockSize)

theorem blocksNeeded_mono {m n : ℕ} (h : m ≤ n) : pool.blocksNeeded m ≤ pool.blocksNeeded n := by
  unfold blocksNeeded
  have hdiv : (m + pool.blockSize - 1) / pool.blockSize ≤ (n + pool.blockSize - 1) / pool.blockSize :=
    Nat.div_le_div_right (by omega)
  by_cases hm : m = 0
  · simp [hm]
  · have hn : n ≠ 0 := by omega
    simpa [hm,hn] using hdiv

theorem blocksNeeded_congr (hs : pool'.shape = pool.shape) (n : ℕ) :
    pool'.blocksNeeded n = pool.blocksNeeded n := by
  have hb : pool'.blockSize = pool.blockSize := congrArg Prod.snd hs
  unfold blocksNeeded
  rw [hb]

theorem canAllocate_iff {n : ℕ} : pool.canAllocate n = true ↔ pool.blocksNeeded n ≤ pool.free.length :=
  decide_eq_true_iff

theorem reserve_none (pool : BlockPool) (n : ℕ) :
    pool.reserve n none =
      if pool.canAllocate n then
        some (pool.free.take (pool.blocksNeeded n),{ pool with free := pool.free.drop (pool.blocksNeeded n) })
      else none := by
  unfold reserve canAllocate freeBlocks
  by_cases h0 : pool.blocksNeeded n = 0
  · simp [h0]
  · by_cases hle : pool.blocksNeeded n ≤ pool.free.length
    · simp [h0,hle]
    · simp [h0,hle]

theorem allocate_eq (pool : BlockPool) (id : SeqId) (seq : Sequence P L) (n : ℕ) :
    pool.allocate id seq n =
      if pool.canAllocate n then
        let ids := pool.free.take (pool.blocksNeeded n)
        some (ids,{ pool with free := pool.free.drop (pool.blocksNeeded n), alloc := pool.alloc.set id ids },
          { seq with blockIds := ids })
      else none := by
  unfold allocate
  rw [reserve_none]
  cases pool.canAllocate n <;> rfl

theorem detach_eq (h : pool.alloc.get? id = some ids) (n : ℕ) :
    pool.detach id seq n =
      (ids.take n,{ pool with alloc := pool.alloc.set id (ids.drop n) },{ seq with ownedBlockIds := ids.drop n }) := by
  unfold detach
  rw [h]
  have htake : ids.take (min n ids.length) = ids.take n := by
    rw [← List.take_take,List.take_length]
  have hdrop : ids.drop (min n ids.length) = ids.drop n := by
    rcases Nat.le_total n ids.length with hle | hle
    · rw [Nat.min_eq_left hle]
    · rw [Nat.min_eq_right hle,List.drop_length,List.drop_eq_nil_of_le hle]
  simp only [Option.getD_some,htake,hdrop]

theorem freeSeq_of_some (h : pool.alloc.get? id = some ids) :
    pool.freeSeq id seq =
      ({ pool with alloc := pool.alloc.pop id, free := pool.free ++ ids },
        { seq with blockIds := [], ownedBlockIds := [] }) := by
  unfold freeSeq
  rw [h]
  rfl

theorem freeSeq_of_none (h : pool.alloc.get? id = none) (hf : fallbackIds seq = []) :
    pool.freeSeq id seq = (pool,{ seq with blockIds := [], ownedBlockIds := [] }) := by
  simp only [freeSeq,h,Option.getD_none,hf,pop_of_none _ h,List.append_nil]

theorem owned_set_of_none (h : pool.alloc.get? id = none) (free : List ℕ) (b : ℕ) :
    owned { pool with free := free, alloc := pool.alloc.set id ids } b = pool.owned b + ids.count b :=
  weight_set_of_none _ _ _ h

theorem owned_pop (h : pool.alloc.get? id = some ids) (free : List ℕ) (b : ℕ) :
    pool.owned b = owned { pool with alloc := pool.alloc.pop id, free := free } b + ids.count b :=
  (weight_pop_of_some (fun _ ids => List.count b ids) pool.alloc h).symm

theorem owned_drop (h : pool.alloc.get? id = some ids) (n b : ℕ) :
    pool.owned b =
      owned { pool with alloc := pool.alloc.set id (ids.drop n) } b + (ids.take n).count b := by
  have hw := weight_set_of_some (fun _ ids => ids.count b) pool.alloc (ids.drop n) h
  have hc : ids.count b = (ids.take n).count b + (ids.drop n).count b := by
    rw [← List.count_append,List.take_append_drop]
  simp only [owned]
  omega

theorem Balanced.congr (h : pool.Balanced pins) {pins' : ℕ → ℕ} (hp : ∀ b, pins' b = pins b) :
    pool.Balanced pins' :=
  Ledger.Balanced.congr h (fun _ => rfl) hp

theorem Balanced.allocate (h : pool.Balanced pins) (hid : pool.alloc.get? id = none) (n : ℕ) :
    Balanced { pool with
      free := pool.free.drop n
      alloc := pool.alloc.set id (pool.free.take n) } pins := by
  have hs : Ledger.Balanced (List.range pool.numBlocks) (pool.free.take n ++ pool.free.drop n)
      pool.owned pins := by
    rw [List.take_append_drop]
    exact h
  exact hs.grant (owned_set_of_none hid _)

theorem Balanced.pinFree (h : pool.Balanced pins) (n : ℕ) {pins' : ℕ → ℕ}
    (hp : ∀ b, pins' b = pins b + (pool.free.take n).count b) :
    Balanced { pool with free := pool.free.drop n } pins' := by
  have hs : Ledger.Balanced (List.range pool.numBlocks) (pool.free.take n ++ pool.free.drop n)
      pool.owned pins := by
    rw [List.take_append_drop]
    exact h
  exact hs.pinFree hp

theorem Balanced.pinDetached (h : pool.Balanced pins) (hid : pool.alloc.get? id = some ids) (n : ℕ)
    {pins' : ℕ → ℕ} (hp : ∀ b, pins' b = pins b + (ids.take n).count b) :
    Balanced { pool with alloc := pool.alloc.set id (ids.drop n) } pins' :=
  Ledger.Balanced.pinOwned h (owned_drop hid n) hp

theorem Balanced.freeDetached (h : pool.Balanced pins) (hid : pool.alloc.get? id = some ids) (n : ℕ) :
    Balanced { pool with
      alloc := pool.alloc.set id (ids.drop n)
      free := pool.free ++ ids.take n } pins :=
  Ledger.Balanced.giveBack h (owned_drop hid n)

theorem Balanced.freeSeq (h : pool.Balanced pins) (hid : pool.alloc.get? id = some ids) :
    Balanced { pool with alloc := pool.alloc.pop id, free := pool.free ++ ids } pins :=
  Ledger.Balanced.giveBack h (owned_pop hid _)

theorem Balanced.alloc_nodup (h : pool.Balanced pins) (hid : pool.alloc.get? id = some ids) : ids.Nodup := by
  rw [List.nodup_iff_count_le_one]
  intro b
  exact (le_weight (fun _ ids => ids.count b) pool.alloc hid).trans (Ledger.Balanced.owned_le_one h b)

theorem owned_eq_count (pool : BlockPool) (b : ℕ) : pool.owned b = pool.alloc.values.flatten.count b := by
  unfold owned weight values
  rw [List.count_flatten,List.map_map]
  rfl

theorem Balanced.usedBlocks_eq_zero (h : pool.Balanced pins) (ho : ∀ b, pool.owned b = 0)
    (hp : ∀ b, pins b = 0) : pool.usedBlocks = 0 := by
  have hperm : pool.free.Perm (List.range pool.numBlocks) := by
    rw [List.perm_iff_count]
    intro b
    have := h.total b
    rw [ho b,hp b] at this
    omega
  have hlen := hperm.length_eq
  rw [List.length_range] at hlen
  simp [usedBlocks,freeBlocks,hlen]

theorem Balanced.idle (h : pool.Balanced pins) (hu : pool.usedBlocks = 0) (b : ℕ) :
    pool.owned b = 0 ∧ pins b = 0 := by
  have hsub : pool.free ⊆ List.range pool.numBlocks := by
    intro a ha
    rw [← List.count_pos_iff,← h.total a]
    have := List.count_pos_iff.mpr ha
    omega
  have hlen : (List.range pool.numBlocks).length ≤ pool.free.length := by
    rw [List.length_range]
    unfold usedBlocks freeBlocks at hu
    omega
  have hperm := (List.subperm_of_subset h.free_nodup hsub).perm_of_length_le hlen
  have hb := h.total b
  rw [hperm.count_eq b] at hb
  omega

end FluxEngine.BlockPool
