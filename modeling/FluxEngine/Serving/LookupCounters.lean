import Mathlib.Algebra.Group.Prod
import FluxEngine.Serving.AdmissionOrder

/-! # The counters of the prefix cache

Only a lookup moves `hits` and `tokens_saved`, and it moves them whether or not
what it finds is used.
-/
namespace FluxEngine
open OrderedDict
variable {P L : Type}

namespace PrefixCache
variable {c : PrefixCache P L} {pool : Option BlockPool} {p : BlockPool}

/-- `hits` and `tokens_saved`. -/
def savings (c : PrefixCache P L) : ℕ × ℕ := (c.hits,c.tokensSaved)

theorem savings_release (key : Option (List Token)) : (c.release pool key).1.savings = c.savings := by
  unfold release
  split
  · rfl
  · split
    · rfl
    · split
      · rfl
      · split <;> rfl

theorem savings_evictLoop (fuel : ℕ) : (evictLoop fuel c pool).1.savings = c.savings := by
  induction fuel generalizing c pool with
  | zero => rfl
  | succ fuel ih =>
    unfold evictLoop
    split
    · split
      · rfl
      · exact ih
    · rfl

theorem savings_insertLoop (tokenIds : List Token) (kvCache : KvCache P) (lastLogits : Option L) (now : ℕ)
    (lengths : List ℕ) : (insertLoop tokenIds kvCache lastLogits now lengths c pool).1.savings = c.savings := by
  induction lengths generalizing c pool with
  | nil => rfl
  | cons n lengths ih =>
    have hevict : (c.evict pool).1.savings = c.savings := savings_evictLoop _
    unfold insertLoop
    split
    · exact ih
    · split
      · exact ih
      · simp only
        split
        · exact ih.trans hevict
        · exact ih.trans hevict

theorem savings_insert (tokenIds : List Token) (kvCache : Option (KvCache P)) (lastLogits : Option L) (now : ℕ) :
    (c.insert pool tokenIds kvCache lastLogits now).1.savings = c.savings := by
  unfold insert
  split
  · rfl
  · split
    · rfl
    · exact savings_insertLoop tokenIds _ lastLogits now _

theorem savings_adopt (id : SeqId) (seq : Sequence P L) (now : ℕ) :
    (c.adopt pool id seq now).1.savings = c.savings := by
  unfold adopt
  split
  · rfl
  · split
    · rfl
    · simp only
      split
      · rfl
      · split
        · rfl
        · split <;> rfl

/-- The blocks that `_acquire_blocks` takes out of the pool. -/
def acquisitionCost (c : PrefixCache P L) (p : BlockPool) (entry : PrefixEntry P L) : ℕ :=
  if 0 < entry.refs ∨ (c.shareFromLive (some p) entry.tokenIds).isSome ∨ ¬ p.canAllocate entry.tokenIds.length then 0
  else p.blocksNeeded entry.tokenIds.length

theorem acquireBlocks_pool (entry : PrefixEntry P L) : (c.acquireBlocks (some p) entry).2.2 =
    some { p with free := p.free.drop (c.acquisitionCost p entry) } := by
  unfold acquireBlocks acquisitionCost
  by_cases hrefs : 0 < entry.refs
  · simp [hrefs]
  · cases hshare : c.shareFromLive (some p) entry.tokenIds with
    | some shared => simp [hrefs,hshare]
    | none =>
      have hreserve := BlockPool.reserve_none p entry.tokenIds.length
      cases hfree : p.canAllocate entry.tokenIds.length with
      | false =>
        rw [hfree] at hreserve
        simp [hrefs,hshare,hreserve]
      | true =>
        rw [hfree] at hreserve
        simp [hrefs,hshare,hreserve]

theorem acquisitionCost_le (entry : PrefixEntry P L) : c.acquisitionCost p entry ≤ p.free.length := by
  unfold acquisitionCost
  split
  · exact Nat.zero_le _
  · rename_i hcost
    simp only [not_or,not_not] at hcost
    exact BlockPool.canAllocate_iff.mp hcost.2.2

end PrefixCache

namespace Scheduler
variable {s t : Scheduler P L} {heap : Heap P L} {id : SeqId} {seq : Sequence P L} {tokenIds : List Token}

def savings (s : Scheduler P L) : ℕ × ℕ := s.prefixCache.elim 0 PrefixCache.savings

def credit (s : Scheduler P L) (tokenIds : List Token) : ℕ × ℕ :=
  (s.peekPrefix tokenIds).elim 0 (fun hit => (1,hit.nTokens))

/-- The blocks of its prefix and the rest of its reservation are free at once. -/
def Affords (s : Scheduler P L) (seq : Sequence P L) : Prop :=
  ∀ p ∈ s.pool, ∀ c ∈ s.prefixCache, ∀ hit ∈ c.peek seq.promptTokenIds, ∀ entry ∈ c.entries.get? hit.tokenIds,
    c.acquisitionCost p entry + p.blocksNeeded (seq.reservationTokens - hit.nTokens) ≤ p.free.length

instance (s : Scheduler P L) (seq : Sequence P L) : Decidable (s.Affords seq) :=
  inferInstanceAs (Decidable (∀ p ∈ s.pool, ∀ c ∈ s.prefixCache, ∀ hit ∈ c.peek seq.promptTokenIds,
    ∀ entry ∈ c.entries.get? hit.tokenIds, _ ≤ _))

theorem Books.keyed {full : Prop} {held : List Token → ℕ} (h : s.Books full held) : s.Keyed := by
  intro k x hx
  obtain ⟨c,hc,hx⟩ := Option.bind_eq_some_iff.mp hx
  obtain ⟨entry,hentry,rfl⟩ := Option.map_eq_some_iff.mp hx
  unfold Books at h
  rw [hc] at h
  exact (h.keyed k entry hentry).1

theorem savings_releasePrefix (key : Option (List Token)) : (s.releasePrefix key).savings = s.savings := by
  unfold releasePrefix savings
  cases hc : s.prefixCache with
  | none => simp only [hc]
  | some c => exact PrefixCache.savings_release key

theorem credit_of_none (h : s.peekPrefix tokenIds = none) : s.credit tokenIds = 0 := by
  rw [credit,h,Option.elim_none]

theorem credit_of_hit {hit : PrefixHit P L} (h : s.peekPrefix tokenIds = some hit) :
    s.credit tokenIds = (1,hit.nTokens) := by
  rw [credit,h,Option.elim_some]

theorem lookupPrefix_of_hit (hk : s.Keyed) {hit : PrefixHit P L} (h : s.peekPrefix tokenIds = some hit) (now : ℕ) :
    ∃ c entry found, s.prefixCache = some c ∧ c.peek tokenIds = some hit ∧
      c.entries.get? hit.tokenIds = some entry ∧ (s.lookupPrefix tokenIds now).1 = some found ∧
      found.nTokens = hit.nTokens ∧ (s.lookupPrefix tokenIds now).2.savings = s.savings + (1,hit.nTokens) ∧
      (s.lookupPrefix tokenIds now).2.pool =
        s.pool.map (fun p => { p with free := p.free.drop (c.acquisitionCost p entry) }) := by
  obtain ⟨c,entry,hc,hpeek,hhit⟩ := peekPrefix_eq_some h
  have hkey : entry.tokenIds = hit.tokenIds := by
    refine hk hit.tokenIds entry.content ?_
    simp only [contentAt,hc,Option.bind_some,hhit.stored,Option.map_some]
  obtain ⟨ids,pins,pool',hacq,_⟩ := PrefixCache.acquireBlocks_eq c s.pool entry
  have hpool : pool' = s.pool.map (fun p => { p with free := p.free.drop (c.acquisitionCost p entry) }) := by
    have hp : (c.acquireBlocks s.pool entry).2.2 = pool' := by rw [hacq]
    rw [← hp]
    cases s.pool with
    | none => rfl
    | some p => exact PrefixCache.acquireBlocks_pool entry
  unfold lookupPrefix savings
  simp only [hc,PrefixCache.lookup,hpeek,hhit.stored,hacq,hkey,hhit.length_key]
  exact ⟨c,entry,_,rfl,hpeek,hhit.stored,rfl,rfl,rfl,hpool⟩

theorem lookupPrefix_of_none (h : s.peekPrefix tokenIds = none) (now : ℕ) :
    (s.lookupPrefix tokenIds now).1 = none ∧ (s.lookupPrefix tokenIds now).2.savings = s.savings ∧
      (s.lookupPrefix tokenIds now).2.pool = s.pool := by
  unfold peekPrefix at h
  unfold lookupPrefix savings
  cases hc : s.prefixCache with
  | none => simp [hc]
  | some c =>
    rw [hc,Option.bind_some] at h
    simp only [PrefixCache.lookup,h]
    exact ⟨trivial,rfl,trivial⟩

theorem savings_lookupPrefix (hk : s.Keyed) (tokenIds : List Token) (now : ℕ) :
    (s.lookupPrefix tokenIds now).2.savings = s.savings + s.credit tokenIds := by
  cases h : s.peekPrefix tokenIds with
  | none => rw [credit_of_none h,(lookupPrefix_of_none h now).2.1,add_zero]
  | some hit =>
    obtain ⟨_,_,_,_,_,_,_,_,hsav,_⟩ := lookupPrefix_of_hit hk h now
    rw [credit_of_hit h,hsav]

theorem savings_tryAllocate (hk : s.Keyed) (id : SeqId) (seq : Sequence P L) (now : ℕ) :
    (s.tryAllocate id seq now).2.1.savings = s.savings + s.credit seq.promptTokenIds := by
  have hl := savings_lookupPrefix hk seq.promptTokenIds now
  unfold tryAllocate
  rcases hlk : s.lookupPrefix seq.promptTokenIds now with ⟨hit,s₁⟩
  rw [hlk] at hl
  simp only
  cases s₁.pool with
  | none => exact hl
  | some p =>
    simp only [BlockPool.allocate_eq]
    split
    · cases hit with
      | none => exact hl
      | some hit => exact (savings_releasePrefix (some hit.tokenIds)).trans hl
    · exact hl

/-- After a hit an allocation succeeds exactly if there is room for both parts. -/
theorem tryAllocate_of_hit_iff (hk : s.Keyed) {hit : PrefixHit P L} (h : s.peekPrefix seq.promptTokenIds = some hit)
    (id : SeqId) (now : ℕ) : (s.tryAllocate id seq now).1 = true ↔ s.Affords seq := by
  obtain ⟨c,entry,found,hc,hpeek,hentry,hfound,hn,_,hpool⟩ := lookupPrefix_of_hit hk h now
  have haffords : s.Affords seq ↔ ∀ p, s.pool = some p →
      c.acquisitionCost p entry + p.blocksNeeded (seq.reservationTokens - hit.nTokens) ≤ p.free.length := by
    constructor
    · exact fun hall p hp => hall p hp c hc hit hpeek entry hentry
    · intro hall p hp c' hc' hit' hpeek' entry' hentry'
      rw [hc] at hc'
      cases hc'
      rw [hpeek] at hpeek'
      cases hpeek'
      rw [hentry] at hentry'
      cases hentry'
      exact hall p hp
  rw [haffords]
  unfold tryAllocate
  rcases hlk : s.lookupPrefix seq.promptTokenIds now with ⟨hit₁,s₁⟩
  rw [hlk] at hfound hpool
  simp only at hfound hpool
  subst hfound
  simp only [hpool,hn]
  cases s.pool with
  | none => simp
  | some p =>
    have hcost := c.acquisitionCost_le (p := p) entry
    have hneed : ({ p with free := p.free.drop (c.acquisitionCost p entry) } : BlockPool).blocksNeeded
        (seq.reservationTokens - hit.nTokens) = p.blocksNeeded (seq.reservationTokens - hit.nTokens) :=
      BlockPool.blocksNeeded_congr rfl _
    simp only [Option.map_some,BlockPool.allocate_eq,Option.some.injEq,forall_eq']
    by_cases hfree : p.blocksNeeded (seq.reservationTokens - hit.nTokens) ≤ p.free.length - c.acquisitionCost p entry
    · have hcan : ({ p with free := p.free.drop (c.acquisitionCost p entry) } : BlockPool).canAllocate
          (seq.reservationTokens - hit.nTokens) = true := by
        rw [BlockPool.canAllocate_iff,hneed,List.length_drop]
        exact hfree
      rw [if_pos hcan]
      simp only [true_iff]
      omega
    · have hcan : ¬ ({ p with free := p.free.drop (c.acquisitionCost p entry) } : BlockPool).canAllocate
          (seq.reservationTokens - hit.nTokens) = true := by
        rw [BlockPool.canAllocate_iff,hneed,List.length_drop]
        exact hfree
      rw [if_neg hcan]
      simp only [Bool.false_eq_true,false_iff]
      omega

end Scheduler

namespace System
variable {s t : System P L} {i : SeqId}

theorem savings_terminate (mark : Sequence P L → Sequence P L) :
    (s.terminate i mark).scheduler.savings = s.scheduler.savings := by
  rw [Scheduler.savings,terminate_prefixCache]
  exact Scheduler.savings_releasePrefix _

theorem savings_storePrefix (now : ℕ → ℕ) : (s.storePrefix i now).scheduler.savings = s.scheduler.savings := by
  unfold storePrefix
  cases hc : s.scheduler.prefixCache with
  | none => rfl
  | some c =>
    cases s.outbox i with
    | none => rfl
    | some r =>
      simp only [Scheduler.savings,hc,Option.elim_some]
      exact (PrefixCache.savings_adopt _ _ _).trans (PrefixCache.savings_insert _ _ _ _)

theorem savings_bind (hk : s.scheduler.Keyed) (i : SeqId) (now : ℕ) :
    (s.bindPrefixAtPrefill i now).scheduler.savings =
      if (s.heap i).prefixKey = none then s.scheduler.savings + s.scheduler.credit (s.heap i).promptTokenIds
      else s.scheduler.savings := by
  have hl := Scheduler.savings_lookupPrefix hk (s.heap i).promptTokenIds now
  unfold bindPrefixAtPrefill
  cases hkey : (s.heap i).prefixKey with
  | some k => simp
  | none =>
    cases hpeek : s.scheduler.peekPrefix (s.heap i).promptTokenIds with
    | none => simp [Scheduler.credit_of_none hpeek]
    | some hit =>
      simp only [Option.isSome_none,Option.isNone_some,Bool.or_self,Bool.false_eq_true,if_false,if_true]
      rcases hlk : s.scheduler.lookupPrefix (s.heap i).promptTokenIds now with ⟨hit₁,sch⟩
      rw [hlk] at hl
      cases hit₁ with
      | none => exact hl
      | some found =>
        simp only [bindHit]
        split
        · exact hl
        · exact hl

theorem bind_of_miss {now : ℕ} (h : s.scheduler.peekPrefix (s.heap i).promptTokenIds = none) :
    s.bindPrefixAtPrefill i now = s := by
  simp [bindPrefixAtPrefill,h]

theorem bind_of_key {now : ℕ} (h : (s.heap i).prefixKey ≠ none) : s.bindPrefixAtPrefill i now = s := by
  obtain ⟨k,hk⟩ := Option.ne_none_iff_exists'.mp h
  simp [bindPrefixAtPrefill,hk]

theorem bind_prefixTokens (hk : s.scheduler.Keyed) (hkey : (s.heap i).prefixKey = none) {hit : PrefixHit P L}
    (hpeek : s.scheduler.peekPrefix (s.heap i).promptTokenIds = some hit) (now : ℕ) :
    ((s.bindPrefixAtPrefill i now).heap i).prefixTokens = hit.nTokens := by
  obtain ⟨c,entry,found,_,_,_,hfound,hn,_,_⟩ := Scheduler.lookupPrefix_of_hit hk hpeek now
  unfold bindPrefixAtPrefill
  simp only [hkey,hpeek,Option.isSome_none,Option.isNone_some,Bool.or_self,Bool.false_eq_true,if_false]
  rcases hlk : s.scheduler.lookupPrefix (s.heap i).promptTokenIds now with ⟨hit₁,sch⟩
  rw [hlk] at hfound
  simp only at hfound
  subst hfound
  rw [← hn]
  simp only [bindHit]
  split
  · simp [Scheduler.applyHit]
  · simp [Scheduler.applyHit,BlockPool.detach]

end System
end FluxEngine
