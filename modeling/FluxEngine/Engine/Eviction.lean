import FluxEngine.Engine.PrefixAccounts

/-! # Evictions

The entries that an insertion evicts, each with the cache it is taken from, and
the size of the cache.
-/
namespace FluxEngine.PrefixCache
open OrderedDict
variable {P L : Type} {full : Prop} {c : PrefixCache P L} {pool : Option BlockPool} {held : List Token → ℕ}
variable {tokenIds k : List Token} {e : PrefixEntry P L}

/-- The victims of the loop of `_evict`, in order. -/
def evictLoopVictims : ℕ → PrefixCache P L → Option BlockPool → List (PrefixCache P L × PrefixEntry P L)
  | 0, _, _ => []
  | fuel+1, c, pool =>
    if c.maxEntries ≤ c.entries.size then
      match oldest (c.entries.values.filter (fun e => e.refs = 0)) with
      | none => []
      | some victim =>
        let (pins,pool) := unpin c.blockPins pool victim.blockIds
        (c,victim) :: evictLoopVictims fuel
          { c with blockPins := pins, entries := c.entries.pop victim.tokenIds } pool
    else []

def evictVictims (c : PrefixCache P L) (pool : Option BlockPool) : List (PrefixCache P L × PrefixEntry P L) :=
  evictLoopVictims c.entries.size c pool

/-- The victims of the calls of `_evict` in the loop of `insert`. -/
def insertLoopVictims (tokenIds : List Token) (kvCache : KvCache P) (lastLogits : Option L) (now : ℕ) :
    List ℕ → PrefixCache P L → Option BlockPool → List (PrefixCache P L × PrefixEntry P L)
  | [], _, _ => []
  | n :: lengths, c, pool =>
    if cacheSeqLen kvCache < n then insertLoopVictims tokenIds kvCache lastLogits now lengths c pool
    else if (c.entries.get? (tokenIds.take n)).isSome then
      insertLoopVictims tokenIds kvCache lastLogits now lengths c pool
    else
      let victims := c.evictVictims pool
      let (c,pool) := c.evict pool
      if c.maxEntries ≤ c.entries.size then
        victims ++ insertLoopVictims tokenIds kvCache lastLogits now lengths c pool
      else
        victims ++ insertLoopVictims tokenIds kvCache lastLogits now lengths
          { c with entries := c.entries.set (tokenIds.take n) (freshEntry tokenIds kvCache lastLogits now n) } pool

def insertVictims (c : PrefixCache P L) (pool : Option BlockPool) (tokenIds : List Token)
    (kvCache : Option (KvCache P)) (lastLogits : Option L) (now : ℕ) : List (PrefixCache P L × PrefixEntry P L) :=
  match kvCache with
  | none => []
  | some kv =>
    if cacheSeqLen kv < c.minTokens then []
    else insertLoopVictims tokenIds kv lastLogits now (c.candidateLengths tokenIds) c pool

/-- Stored, without references, and the least recently used of these. -/
structure Evictable (c : PrefixCache P L) (victim : PrefixEntry P L) : Prop where
  stored : c.entries.get? victim.tokenIds = some victim
  unused : victim.refs = 0
  least : ∀ k e, c.entries.get? k = some e → e.refs = 0 → victim.lastUsed ≤ e.lastUsed

theorem oldest_le {l : List (PrefixEntry P L)} {f : PrefixEntry P L} (h : oldest l = some e) (hf : f ∈ l) :
    e.lastUsed ≤ f.lastUsed := by
  induction l generalizing e with
  | nil => cases hf
  | cons g rest ih =>
    unfold oldest at h
    cases hr : oldest rest with
    | none =>
      rw [hr] at h
      cases h
      cases rest with
      | nil =>
        rw [List.mem_singleton.mp hf]
      | cons g' rest =>
        unfold oldest at hr
        cases hr' : oldest rest with
        | none => simp [hr'] at hr
        | some e' =>
          rw [hr'] at hr
          simp only at hr
          split at hr <;> cases hr
    | some g' =>
      rw [hr] at h
      simp only at h
      split at h
      · rename_i hlt
        cases h
        rcases List.mem_cons.mp hf with rfl | hf
        · exact hlt.le
        · exact ih hr hf
      · rename_i hle
        cases h
        rcases List.mem_cons.mp hf with rfl | hf
        · exact le_rfl
        · exact (not_lt.mp hle).trans (ih hr hf)

theorem Books.evictable (h : Books full pool c held) {victim : PrefixEntry P L}
    (hv : oldest (c.entries.values.filter (fun e => e.refs = 0)) = some victim) : c.Evictable victim := by
  obtain ⟨hstored,hr,_⟩ := h.victim hv
  refine ⟨hstored,hr,?_⟩
  intro k e he hunused
  refine oldest_le hv (List.mem_filter.mpr ⟨c.entries.mem_values_iff.mpr ⟨k,he⟩,?_⟩)
  simpa using hunused

theorem Books.evictLoopVictims (h : Books full pool c held) (fuel : ℕ) :
    ∀ p ∈ PrefixCache.evictLoopVictims fuel c pool, p.1.Evictable p.2 := by
  induction fuel generalizing c with
  | zero =>
    intro p hp
    cases hp
  | succ fuel ih =>
    intro p hp
    unfold PrefixCache.evictLoopVictims at hp
    split at hp
    · cases hv : oldest (c.entries.values.filter (fun e => e.refs = 0)) with
      | none =>
        rw [hv] at hp
        cases hp
      | some victim =>
        obtain ⟨hstored,hr,hunpin⟩ := h.victim hv
        rw [hv] at hp
        simp only [hunpin] at hp
        rcases List.mem_cons.mp hp with rfl | hp
        · exact h.evictable hv
        · exact ih (h.pop hstored hr) p hp
    · cases hp

/-- What a loop of `_evict` removes is among its victims. -/
theorem mem_evictLoopVictims {fuel : ℕ} (he : c.entries.get? k = some e)
    (hgone : (evictLoop fuel c pool).1.entries.get? k = none) :
    ∃ p ∈ evictLoopVictims fuel c pool, p.2.tokenIds = k := by
  induction fuel generalizing c pool with
  | zero =>
    rw [evictLoop,he] at hgone
    cases hgone
  | succ fuel ih =>
    unfold evictLoop at hgone
    unfold evictLoopVictims
    split at hgone
    · rename_i hfull
      rw [if_pos hfull]
      cases hv : oldest (c.entries.values.filter (fun e => e.refs = 0)) with
      | none =>
        rw [hv] at hgone
        simp only [he] at hgone
        cases hgone
      | some victim =>
        rw [hv] at hgone
        simp only at hgone ⊢
        by_cases hk : k = victim.tokenIds
        · exact ⟨_,List.mem_cons_self,hk.symm⟩
        · obtain ⟨p,hp,hpk⟩ := ih (by rw [get?_pop,if_neg hk]; exact he) hgone
          exact ⟨p,List.mem_cons_of_mem _ hp,hpk⟩
    · rw [he] at hgone
      cases hgone

theorem Books.insertLoopVictims (h : Books full pool c held) {kvCache : KvCache P} {lastLogits : Option L} {now : ℕ}
    {lengths : List ℕ} (hlen : ∀ n ∈ lengths, c.minTokens ≤ n ∧ n ≤ tokenIds.length) :
    ∀ p ∈ PrefixCache.insertLoopVictims tokenIds kvCache lastLogits now lengths c pool, p.1.Evictable p.2 := by
  induction lengths generalizing c with
  | nil =>
    intro p hp
    cases hp
  | cons n lengths ih =>
    have hrest : ∀ m ∈ lengths, c.minTokens ≤ m ∧ m ≤ tokenIds.length :=
      fun m hm => hlen m (List.mem_cons_of_mem _ hm)
    obtain ⟨hmin,hle⟩ := hlen n List.mem_cons_self
    intro p hp
    unfold PrefixCache.insertLoopVictims at hp
    split at hp
    · exact ih h hrest p hp
    · split at hp
      · exact ih h hrest p hp
      · rename_i hnone
        obtain ⟨hpool,hmt,hev⟩ := h.evictLoop c.entries.size
        have hevict : c.evict pool = ((c.evict pool).1,pool) := Prod.ext rfl hpool
        have hnew : (c.evict pool).1.entries.get? (tokenIds.take n) = none := by
          rw [Option.eq_none_iff_forall_ne_some]
          intro f hf
          rw [get?_evict hf] at hnone
          exact hnone rfl
        rw [hevict] at hp
        simp only at hp
        split at hp
        · rcases List.mem_append.mp hp with hp | hp
          · exact h.evictLoopVictims _ p hp
          · exact ih hev (by rw [← hmt] at hrest; exact hrest) p hp
        · rcases List.mem_append.mp hp with hp | hp
          · exact h.evictLoopVictims _ p hp
          · have hlength : (tokenIds.take n).length = n := by
              rw [List.length_take]
              exact Nat.min_eq_left hle
            have hst := hev.store hnew (by rw [hlength]; exact hmt.le.trans hmin)
              (e := freshEntry tokenIds kvCache lastLogits now n) rfl rfl rfl
            exact ih hst (by rw [← hmt] at hrest; exact hrest) p hp

theorem Books.insertVictims (h : Books full pool c held) (tokenIds : List Token) (kvCache : Option (KvCache P))
    (lastLogits : Option L) (now : ℕ) :
    ∀ p ∈ c.insertVictims pool tokenIds kvCache lastLogits now, p.1.Evictable p.2 := by
  intro p hp
  unfold PrefixCache.insertVictims at hp
  cases kvCache with
  | none => cases hp
  | some kv =>
    simp only at hp
    split at hp
    · cases hp
    · exact h.insertLoopVictims (fun n hn => mem_candidateLengths hn) p hp

theorem mem_insertLoopVictims {kvCache : KvCache P} {lastLogits : Option L} {now : ℕ} {lengths : List ℕ}
    (he : c.entries.get? k = some e)
    (hgone : (insertLoop tokenIds kvCache lastLogits now lengths c pool).1.entries.get? k = none) :
    ∃ p ∈ insertLoopVictims tokenIds kvCache lastLogits now lengths c pool, p.2.tokenIds = k := by
  induction lengths generalizing c pool e with
  | nil =>
    rw [insertLoop,he] at hgone
    cases hgone
  | cons n lengths ih =>
    unfold insertLoop at hgone
    unfold insertLoopVictims
    split at hgone
    · rename_i hlen
      rw [if_pos hlen]
      exact ih he hgone
    · rename_i hlen
      rw [if_neg hlen]
      split at hgone
      · rename_i hsome
        rw [if_pos hsome]
        exact ih he hgone
      · rename_i hnone
        rw [if_neg hnone]
        cases hev : (c.evict pool).1.entries.get? k with
        | none =>
          obtain ⟨p,hp,hpk⟩ := mem_evictLoopVictims he hev
          refine ⟨p,?_,hpk⟩
          simp only
          split
          · exact List.mem_append_left _ hp
          · exact List.mem_append_left _ hp
        | some f =>
          simp only at hgone ⊢
          split at hgone
          · rename_i hfull
            rw [if_pos hfull]
            obtain ⟨p,hp,hpk⟩ := ih hev hgone
            exact ⟨p,List.mem_append_right _ hp,hpk⟩
          · rename_i hfull
            rw [if_neg hfull]
            obtain ⟨f',hf'⟩ : ∃ f', ((c.evict pool).1.entries.set (tokenIds.take n)
                (freshEntry tokenIds kvCache lastLogits now n)).get? k = some f' := by
              rw [get?_set]
              split
              · exact ⟨_,rfl⟩
              · exact ⟨f,hev⟩
            obtain ⟨p,hp,hpk⟩ := ih hf' hgone
            exact ⟨p,List.mem_append_right _ hp,hpk⟩

theorem mem_insertVictims {kvCache : Option (KvCache P)} {lastLogits : Option L} {now : ℕ}
    (he : c.entries.get? k = some e) (hgone : (c.insert pool tokenIds kvCache lastLogits now).1.entries.get? k = none) :
    ∃ p ∈ c.insertVictims pool tokenIds kvCache lastLogits now, p.2.tokenIds = k := by
  unfold insert at hgone
  unfold insertVictims
  cases kvCache with
  | none =>
    rw [he] at hgone
    cases hgone
  | some kv =>
    simp only at hgone ⊢
    split at hgone
    · rw [he] at hgone
      cases hgone
    · rename_i hmin
      rw [if_neg hmin]
      exact mem_insertLoopVictims he hgone

def Bounded (c : PrefixCache P L) : Prop := c.entries.size ≤ c.maxEntries

theorem Bounded.set {c' : PrefixCache P L} (h : c.Bounded) (he : c.entries.get? k = some e) (e' : PrefixEntry P L)
    (hset : c'.entries = c.entries.set k e') (hmax : c'.maxEntries = c.maxEntries) : c'.Bounded := by
  unfold Bounded
  rw [hset,hmax,size_set_of_some _ _ he]
  exact h

theorem Bounded.lookup (h : c.Bounded) (tokenIds : List Token) (now : ℕ) : (c.lookup pool tokenIds now).2.1.Bounded := by
  unfold PrefixCache.lookup
  cases c.peek tokenIds with
  | none => exact h
  | some hit =>
    simp only
    cases he : c.entries.get? hit.tokenIds with
    | none => exact h
    | some entry =>
      simp only
      exact h.set he _ rfl rfl

theorem Bounded.release (h : c.Bounded) (key : Option (List Token)) : (c.release pool key).1.Bounded := by
  unfold PrefixCache.release
  cases key with
  | none => exact h
  | some key =>
    simp only
    split
    · exact h
    · cases he : c.entries.get? key with
      | none => exact h
      | some entry =>
        simp only
        split
        · exact h
        · exact h.set he _ rfl rfl

theorem Bounded.adopt (h : c.Bounded) (id : SeqId) (seq : Sequence P L) (now : ℕ) :
    (c.adopt pool id seq now).1.Bounded := by
  unfold PrefixCache.adopt
  cases seq.prefixKey with
  | some key => exact h
  | none =>
    simp only
    cases c.candidateLengths seq.promptTokenIds with
    | nil => exact h
    | cons n lengths =>
      simp only
      cases he : c.entries.get? (seq.promptTokenIds.take n) with
      | none => exact h
      | some entry =>
        simp only
        split
        · exact h.set he _ rfl rfl
        · cases pool with
          | none => exact h.set he _ rfl rfl
          | some p => exact h.set he _ rfl rfl

theorem size_evictLoop (fuel : ℕ) (c : PrefixCache P L) (pool : Option BlockPool) :
    (evictLoop fuel c pool).1.maxEntries = c.maxEntries ∧
      (evictLoop fuel c pool).1.entries.size ≤ c.entries.size := by
  induction fuel generalizing c pool with
  | zero => exact ⟨rfl,le_rfl⟩
  | succ fuel ih =>
    unfold evictLoop
    split
    · cases oldest (c.entries.values.filter (fun e => e.refs = 0)) with
      | none => exact ⟨rfl,le_rfl⟩
      | some victim =>
        simp only
        obtain ⟨hmax,hsize⟩ := ih { c with
          blockPins := (unpin c.blockPins pool victim.blockIds).1
          entries := c.entries.pop victim.tokenIds } (unpin c.blockPins pool victim.blockIds).2
        exact ⟨hmax,hsize.trans (size_pop_le _ _)⟩
    · exact ⟨rfl,le_rfl⟩

theorem Bounded.insertLoop (h : c.Bounded) (tokenIds : List Token) (kvCache : KvCache P) (lastLogits : Option L)
    (now : ℕ) (lengths : List ℕ) :
    (PrefixCache.insertLoop tokenIds kvCache lastLogits now lengths c pool).1.Bounded := by
  induction lengths generalizing c pool with
  | nil => exact h
  | cons n lengths ih =>
    unfold PrefixCache.insertLoop
    split
    · exact ih h
    · split
      · exact ih h
      · obtain ⟨hmax,hsize⟩ := size_evictLoop c.entries.size c pool
        have hev : (c.evict pool).1.Bounded := by
          unfold Bounded at h ⊢
          unfold evict
          omega
        simp only
        split
        · exact ih hev
        · rename_i hroom
          refine ih ?_
          unfold Bounded
          simp only
          cases hg : (c.evict pool).1.entries.get? (tokenIds.take n) with
          | none =>
            rw [size_set_of_none _ _ hg]
            omega
          | some f =>
            rw [size_set_of_some _ _ hg]
            omega

theorem Bounded.insert (h : c.Bounded) (tokenIds : List Token) (kvCache : Option (KvCache P)) (lastLogits : Option L)
    (now : ℕ) : (c.insert pool tokenIds kvCache lastLogits now).1.Bounded := by
  unfold PrefixCache.insert
  cases kvCache with
  | none => exact h
  | some kv =>
    simp only
    split
    · exact h
    · exact h.insertLoop tokenIds kv lastLogits now _

end FluxEngine.PrefixCache
