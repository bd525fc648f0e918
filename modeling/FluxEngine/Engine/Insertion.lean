import FluxEngine.Lib.Replacement
import FluxEngine.Engine.Eviction

/-! # What one insertion stores and evicts

The entries without references are the slots that an insertion can fill, in the
order in which `_evict` takes them, and the candidate prefixes of the prompt are
the requests for them.
-/
namespace FluxEngine.PrefixCache
open OrderedDict Replacement
variable {P L : Type}

/-- The keys of the entries that `_evict` may take, in the order in which it does. -/
def evictionOrder (c : PrefixCache P L) : List (List Token) :=
  (byAge PrefixEntry.lastUsed (c.entries.values.filter (fun e => e.refs = 0))).map PrefixEntry.tokenIds

def slots (c : PrefixCache P L) : Slots (List Token) := ⟨c.maxEntries - c.entries.size,c.evictionOrder⟩

def referenced (c : PrefixCache P L) (k : List Token) : Bool := (c.entries.get? k).any (fun e => 0 < e.refs)

def contenders (c : PrefixCache P L) (tokenIds : List Token) (lengths : List ℕ) : List (List Token) :=
  (lengths.map (fun n => tokenIds.take n)).filter (fun k => !c.referenced k)

/-- What the loop of `insert` stores and what it evicts, in order. -/
def insertLoopTurns (tokenIds : List Token) (kvCache : KvCache P) (lastLogits : Option L) (now : ℕ) :
    List ℕ → PrefixCache P L → Option BlockPool → List (Turn (List Token))
  | [], _, _ => []
  | n :: lengths, c, pool =>
    if cacheSeqLen kvCache < n then insertLoopTurns tokenIds kvCache lastLogits now lengths c pool
    else if (c.entries.get? (tokenIds.take n)).isSome then
      insertLoopTurns tokenIds kvCache lastLogits now lengths c pool
    else
      let evicted := (c.evictVictims pool).map (fun p => Turn.leave p.2.tokenIds)
      let (c,pool) := c.evict pool
      if c.maxEntries ≤ c.entries.size then
        evicted ++ insertLoopTurns tokenIds kvCache lastLogits now lengths c pool
      else
        evicted ++ .enter (tokenIds.take n) :: insertLoopTurns tokenIds kvCache lastLogits now lengths
          { c with entries := c.entries.set (tokenIds.take n) (freshEntry tokenIds kvCache lastLogits now n) } pool

def insertTurns (c : PrefixCache P L) (pool : Option BlockPool) (tokenIds : List Token)
    (kvCache : Option (KvCache P)) (lastLogits : Option L) (now : ℕ) : List (Turn (List Token)) :=
  match kvCache with
  | none => []
  | some kv =>
    if cacheSeqLen kv < c.minTokens then []
    else insertLoopTurns tokenIds kv lastLogits now (c.candidateLengths tokenIds) c pool

/-- Entries under their own keys, no more than there may be, none used after `now`. -/
structure Shelved (c : PrefixCache P L) (now : ℕ) : Prop where
  keyed : ∀ k e, c.entries.get? k = some e → e.tokenIds = k
  bounded : c.Bounded
  used : ∀ k e, c.entries.get? k = some e → e.lastUsed ≤ now

variable {c c' : PrefixCache P L} {pool : Option BlockPool} {now : ℕ} {tokenIds k : List Token}
variable {kvCache : KvCache P} {lastLogits : Option L} {lengths : List ℕ} {n : ℕ}

theorem oldest_eq_head? (l : List (PrefixEntry P L)) : oldest l = (byAge PrefixEntry.lastUsed l).head? := by
  induction l with
  | nil => rfl
  | cons e rest ih =>
    rw [oldest,ih,byAge_cons]
    cases byAge PrefixEntry.lastUsed rest with
    | nil => rfl
    | cons f others =>
      rw [List.head?_cons,insertByAge_cons]
      by_cases hlt : f.lastUsed < e.lastUsed
      · simp [hlt,Nat.not_le.mpr hlt]
      · simp [hlt,Nat.not_lt.mp hlt]

theorem mem_evictionOrder (hk : ∀ k e, c.entries.get? k = some e → e.tokenIds = k) :
    k ∈ c.evictionOrder ↔ ∃ e, c.entries.get? k = some e ∧ e.refs = 0 := by
  unfold evictionOrder
  simp only [List.mem_map,(byAge_perm _ _).mem_iff,List.mem_filter,decide_eq_true_eq,mem_values_iff]
  constructor
  · rintro ⟨e,⟨⟨j,hj⟩,hr⟩,rfl⟩
    rw [hk j e hj]
    exact ⟨e,hj,hr⟩
  · rintro ⟨e,he,hr⟩
    exact ⟨e,⟨⟨k,he⟩,hr⟩,hk k e he⟩

theorem values_nodup (hk : ∀ k e, c.entries.get? k = some e → e.tokenIds = k) :
    (c.entries.values.map PrefixEntry.tokenIds).Nodup := by
  have hkeys : c.entries.values.map PrefixEntry.tokenIds = c.entries.keys := by
    unfold values keys
    rw [List.map_map]
    exact List.map_congr_left (fun p hp => hk p.1 p.2 (c.entries.get?_eq_some_iff.mpr hp))
  rw [hkeys]
  exact c.entries.keys_nodup

theorem evictionOrder_nodup (hk : ∀ k e, c.entries.get? k = some e → e.tokenIds = k) : c.evictionOrder.Nodup := by
  unfold evictionOrder
  rw [((byAge_perm _ _).map _).nodup_iff]
  exact (values_nodup hk).sublist (List.filter_sublist.map _)

theorem evictionOrder_pop (hk : ∀ k e, c.entries.get? k = some e → e.tokenIds = k) {victim : PrefixEntry P L}
    (hv : oldest (c.entries.values.filter (fun e => e.refs = 0)) = some victim)
    (hpop : c'.entries = c.entries.pop victim.tokenIds) :
    c.evictionOrder = victim.tokenIds :: c'.evictionOrder := by
  have hnd := evictionOrder_nodup hk
  rw [oldest_eq_head?,List.head?_eq_some_iff] at hv
  obtain ⟨others,horder⟩ := hv
  unfold evictionOrder at hnd ⊢
  rw [horder,List.map_cons,List.nodup_cons] at hnd
  have hothers : others.filter (fun e => decide (e.tokenIds ≠ victim.tokenIds)) = others := by
    refine List.filter_eq_self.mpr ?_
    intro e he
    have hne : e.tokenIds ≠ victim.tokenIds := fun h => hnd.1 (h ▸ List.mem_map_of_mem he)
    simpa using hne
  have hrest : byAge PrefixEntry.lastUsed (c'.entries.values.filter (fun e => e.refs = 0)) = others := by
    rw [hpop,values_pop c.entries hk,List.filter_comm,byAge_filter,horder,
      List.filter_cons_of_neg (by simp),hothers]
  rw [horder,hrest,List.map_cons]

theorem evictionOrder_set (hu : ∀ k e, c.entries.get? k = some e → e.lastUsed ≤ now) {e : PrefixEntry P L}
    (hnone : c.entries.get? k = none) (hrefs : e.refs = 0) (hused : e.lastUsed = now)
    (hset : c'.entries = c.entries.set k e) : c'.evictionOrder = c.evictionOrder ++ [e.tokenIds] := by
  unfold evictionOrder
  rw [hset,values_set_of_none _ _ hnone,List.filter_append,List.filter_singleton]
  simp only [hrefs,decide_true,cond_true]
  rw [byAge_concat,List.map_append,List.map_singleton]
  intro f hf
  obtain ⟨j,hj⟩ := c.entries.mem_values_iff.mp (List.mem_of_mem_filter hf)
  rw [hused]
  exact hu j f hj

/-- `_evict` has nothing to do, finds nobody, or takes the first in order. -/
theorem Shelved.evict_cases (h : c.Shelved now) (pool : Option BlockPool) :
    (c.entries.size < c.maxEntries ∧ c.evict pool = (c,pool) ∧ c.evictVictims pool = []) ∨
    (c.entries.size = c.maxEntries ∧ c.evictionOrder = []) ∨
    ∃ victim c' pool', c.entries.size = c.maxEntries ∧ c.entries.get? victim.tokenIds = some victim ∧
      victim.refs = 0 ∧ c.evictionOrder = victim.tokenIds :: c'.evictionOrder ∧ c.evict pool = (c',pool') ∧
      c'.entries = c.entries.pop victim.tokenIds ∧ c'.maxEntries = c.maxEntries ∧
      c'.entries.size + 1 = c.entries.size ∧
      (c.evictVictims pool).map (fun p => Turn.leave p.2.tokenIds) = [Turn.leave victim.tokenIds] := by
  rcases Nat.lt_or_ge c.entries.size c.maxEntries with hlt | hge
  · refine Or.inl ⟨hlt,?_,?_⟩
    · unfold evict
      cases c.entries.size <;> simp [evictLoop,Nat.not_le.mpr hlt]
    · unfold evictVictims
      cases c.entries.size <;> simp [evictLoopVictims,Nat.not_le.mpr hlt]
  · have hsize : c.entries.size = c.maxEntries := Nat.le_antisymm h.bounded hge
    refine Or.inr ?_
    cases hv : oldest (c.entries.values.filter (fun e => e.refs = 0)) with
    | none =>
      rw [oldest_eq_head?,List.head?_eq_none_iff] at hv
      exact Or.inl ⟨hsize,by rw [evictionOrder,hv,List.map_nil]⟩
    | some victim =>
      have hmem : victim ∈ c.entries.values.filter (fun e => e.refs = 0) := by
        rw [oldest_eq_head?] at hv
        exact (byAge_perm _ _).mem_iff.mp (List.mem_of_mem_head? hv)
      rw [List.mem_filter,decide_eq_true_eq] at hmem
      obtain ⟨k,hk⟩ := c.entries.mem_values_iff.mp hmem.1
      have hstored : c.entries.get? victim.tokenIds = some victim := by
        rw [h.keyed k victim hk]
        exact hk
      have hpop := c.entries.size_pop_of_some hstored
      have hfull : ¬ c.maxEntries ≤ (c.entries.pop victim.tokenIds).size := by omega
      obtain ⟨fuel,hfuel⟩ := Nat.exists_eq_succ_of_ne_zero (n := c.entries.size) (by omega)
      refine Or.inr ⟨victim,
        { c with
          blockPins := (unpin c.blockPins pool victim.blockIds).1
          entries := c.entries.pop victim.tokenIds },(unpin c.blockPins pool victim.blockIds).2,
        hsize,hstored,hmem.2,evictionOrder_pop h.keyed hv rfl,?_,rfl,rfl,hpop,?_⟩
      · unfold evict
        rw [hfuel,evictLoop,if_pos hge,hv]
        cases fuel <;> simp [evictLoop,hfull]
      · unfold evictVictims
        rw [hfuel,evictLoopVictims,if_pos hge,hv]
        cases fuel <;> simp [evictLoopVictims,hfull]

theorem referenced_of_none (h : c.entries.get? k = none) : c.referenced k = false := by
  simp [referenced,h]

theorem referenced_of_some {e : PrefixEntry P L} (h : c.entries.get? k = some e) :
    c.referenced k = decide (0 < e.refs) := by
  simp [referenced,h]

theorem Shelved.pop (h : c.Shelved now) (hpop : c'.entries = c.entries.pop k) (hmax : c'.maxEntries = c.maxEntries) :
    c'.Shelved now := by
  have hget : ∀ j e, c'.entries.get? j = some e → c.entries.get? j = some e := by
    intro j e hj
    rw [hpop,get?_pop] at hj
    split at hj
    · cases hj
    · exact hj
  refine ⟨fun j e hj => h.keyed j e (hget j e hj),?_,fun j e hj => h.used j e (hget j e hj)⟩
  unfold Bounded
  rw [hpop,hmax]
  exact (size_pop_le _ _).trans h.bounded

/-- The cache with the fresh entry for the first `n` tokens. -/
def putFresh (c : PrefixCache P L) (tokenIds : List Token) (kvCache : KvCache P) (lastLogits : Option L)
    (now n : ℕ) : PrefixCache P L :=
  { c with entries := c.entries.set (tokenIds.take n) (freshEntry tokenIds kvCache lastLogits now n) }

theorem get?_putFresh (k : List Token) : (c.putFresh tokenIds kvCache lastLogits now n).entries.get? k =
    if k = tokenIds.take n then some (freshEntry tokenIds kvCache lastLogits now n) else c.entries.get? k :=
  get?_set _ _ _ _

theorem referenced_putFresh (hnone : c.entries.get? (tokenIds.take n) = none) (k : List Token) :
    (c.putFresh tokenIds kvCache lastLogits now n).referenced k = c.referenced k := by
  unfold referenced
  rw [get?_putFresh]
  split
  · rename_i hk
    rw [hk,hnone]
    rfl
  · rfl

theorem slots_putFresh (h : c.Shelved now) (hnone : c.entries.get? (tokenIds.take n) = none) :
    (c.putFresh tokenIds kvCache lastLogits now n).slots = ⟨c.slots.free - 1,c.slots.order ++ [tokenIds.take n]⟩ := by
  have horder : (c.putFresh tokenIds kvCache lastLogits now n).evictionOrder = c.evictionOrder ++ [tokenIds.take n] :=
    evictionOrder_set (e := freshEntry tokenIds kvCache lastLogits now n) h.used hnone rfl rfl rfl
  have hsize : (c.putFresh tokenIds kvCache lastLogits now n).entries.size = c.entries.size + 1 :=
    size_set_of_none _ _ hnone
  unfold slots
  rw [horder,hsize]
  exact congrArg (fun free => Slots.mk free _) (Nat.sub_succ _ _)

theorem Shelved.putFresh (h : c.Shelved now) (hnone : c.entries.get? (tokenIds.take n) = none)
    (hroom : c.entries.size < c.maxEntries) : (c.putFresh tokenIds kvCache lastLogits now n).Shelved now := by
  refine ⟨?_,?_,?_⟩
  · intro j f hj
    rw [get?_putFresh] at hj
    split at hj
    · cases hj
      exact Eq.symm ‹_›
    · exact h.keyed j f hj
  · unfold Bounded
    exact (size_set_of_none _ _ hnone).trans_le hroom
  · intro j f hj
    rw [get?_putFresh] at hj
    split at hj
    · cases hj
      exact le_rfl
    · exact h.used j f hj

/-- A prefix that is not stored takes a slot. -/
theorem Shelved.insertLoop_store (h : c.Shelved now) (hpos : 0 < c.slots.capacity) (hlen : n ≤ cacheSeqLen kvCache)
    (hnone : c.entries.get? (tokenIds.take n) = none) (lastLogits : Option L) (pool : Option BlockPool)
    (lengths : List ℕ) : ∃ c' pool', insertLoop tokenIds kvCache lastLogits now (n :: lengths) c pool =
        insertLoop tokenIds kvCache lastLogits now lengths c' pool' ∧
      insertLoopTurns tokenIds kvCache lastLogits now (n :: lengths) c pool =
        c.slots.leaving.map Turn.leave ++
          .enter (tokenIds.take n) :: insertLoopTurns tokenIds kvCache lastLogits now lengths c' pool' ∧
      c'.Shelved now ∧ c'.slots = c.slots.take (tokenIds.take n) ∧ (∀ k, c'.referenced k = c.referenced k) ∧
      ∀ k, c'.entries.get? k = if k = tokenIds.take n then some (freshEntry tokenIds kvCache lastLogits now n)
        else if k ∈ c.slots.leaving then none else c.entries.get? k := by
  have hlen' : ¬ cacheSeqLen kvCache < n := Nat.not_lt.mpr hlen
  rcases h.evict_cases pool with ⟨hlt,hev,hvic⟩ | ⟨hsize,horder⟩ |
    ⟨victim,c₁,pool₁,hsize,hstored,hunused,horder,hev,hpop,hmax,hless,hvic⟩
  · have hfree : 0 < c.slots.free := Nat.sub_pos_of_lt hlt
    have hleft : c.slots.leaving = [] := if_pos hfree
    refine ⟨c.putFresh tokenIds kvCache lastLogits now n,pool,?_,?_,h.putFresh hnone hlt,?_,
      referenced_putFresh hnone,?_⟩
    · simp only [insertLoop,if_neg hlen',hnone,hev,Option.isSome_none,Bool.false_eq_true,if_false,
        if_neg (Nat.not_le.mpr hlt)]
      rfl
    · simp only [insertLoopTurns,if_neg hlen',hnone,hev,hvic,hleft,Option.isSome_none,Bool.false_eq_true,if_false,
        if_neg (Nat.not_le.mpr hlt),List.map_nil]
      rfl
    · rw [Slots.take,if_pos hfree]
      exact slots_putFresh h hnone
    · intro k
      rw [get?_putFresh,hleft]
      simp
  · simp [slots,Slots.capacity,hsize,horder] at hpos
  · have hfree : ¬ 0 < c.slots.free := by simp [slots,hsize]
    have hleft : c.slots.leaving = [victim.tokenIds] := by
      rw [Slots.leaving,if_neg hfree]
      simp [slots,horder]
    have hne : tokenIds.take n ≠ victim.tokenIds := by
      intro heq
      rw [heq,hstored] at hnone
      cases hnone
    have hroom : c₁.entries.size < c₁.maxEntries := by omega
    have h₁ : c₁.Shelved now := h.pop hpop hmax
    have hnone₁ : c₁.entries.get? (tokenIds.take n) = none := by
      rw [hpop,get?_pop,if_neg hne]
      exact hnone
    refine ⟨c₁.putFresh tokenIds kvCache lastLogits now n,pool₁,?_,?_,h₁.putFresh hnone₁ hroom,?_,?_,?_⟩
    · simp only [insertLoop,if_neg hlen',hnone,hev,Option.isSome_none,Bool.false_eq_true,if_false,
        if_neg (Nat.not_le.mpr hroom)]
      rfl
    · simp only [insertLoopTurns,if_neg hlen',hnone,hev,hvic,hleft,Option.isSome_none,Bool.false_eq_true,if_false,
        if_neg (Nat.not_le.mpr hroom),List.map_cons,List.map_nil]
      rfl
    · have hfree₁ : c₁.slots.free - 1 = 0 := by
        simp only [slots]
        omega
      rw [Slots.take,if_neg hfree,slots_putFresh h₁ hnone₁,hfree₁]
      simp [slots,horder]
    · intro k
      rw [referenced_putFresh hnone₁]
      simp only [referenced,hpop,get?_pop]
      split
      · rename_i hk
        rw [hk,hstored]
        simp [hunused]
      · rfl
    · intro k
      rw [get?_putFresh,hpop,get?_pop,hleft]
      simp

theorem Shelved.mem_order_iff (h : c.Shelved now) {k : List Token} {e : PrefixEntry P L}
    (he : c.entries.get? k = some e) : k ∈ c.slots.order ↔ e.refs = 0 := by
  refine (mem_evictionOrder h.keyed).trans ⟨?_,fun hr => ⟨e,he,hr⟩⟩
  rintro ⟨f,hf,hr⟩
  rw [he] at hf
  cases hf
  exact hr

theorem Shelved.not_mem_order (h : c.Shelved now) {k : List Token} (he : c.entries.get? k = none) :
    k ∉ c.slots.order := by
  intro hmem
  obtain ⟨f,hf,_⟩ := (mem_evictionOrder h.keyed).mp hmem
  rw [he] at hf
  cases hf

/-- The loop of `insert` is first-in first-out replacement in the unreferenced entries. -/
theorem Shelved.insertLoopTurns_eq (h : c.Shelved now) (hpos : 0 < c.slots.capacity)
    (hlen : ∀ n ∈ lengths, n ≤ cacheSeqLen kvCache) (tokenIds : List Token) (lastLogits : Option L)
    (pool : Option BlockPool) : insertLoopTurns tokenIds kvCache lastLogits now lengths c pool =
      c.slots.turns (c.contenders tokenIds lengths) := by
  induction lengths generalizing c pool with
  | nil => rfl
  | cons n rest ih =>
    have hn := hlen n List.mem_cons_self
    have hrest : ∀ m ∈ rest, m ≤ cacheSeqLen kvCache := fun m hm => hlen m (List.mem_cons_of_mem n hm)
    cases he : c.entries.get? (tokenIds.take n) with
    | some e =>
      have hskip : insertLoopTurns tokenIds kvCache lastLogits now (n :: rest) c pool =
          insertLoopTurns tokenIds kvCache lastLogits now rest c pool := by
        simp [insertLoopTurns,he]
      rw [hskip,ih h hpos hrest pool]
      by_cases hr : 0 < e.refs
      · simp [contenders,referenced_of_some he,hr]
      · have hmem : tokenIds.take n ∈ c.slots.order := (h.mem_order_iff he).mpr (Nat.eq_zero_of_not_pos hr)
        simp [contenders,referenced_of_some he,hr,Slots.turns_of_mem hmem]
    | none =>
      obtain ⟨c',pool',_,hturns,h',hslots,href,_⟩ :=
        h.insertLoop_store hpos hn he lastLogits pool rest
      have hmem : tokenIds.take n ∉ c.slots.order := h.not_mem_order he
      have hpos' : 0 < c'.slots.capacity := by
        rw [hslots,Slots.capacity_take hpos]
        exact hpos
      have hcont : c'.contenders tokenIds rest = c.contenders tokenIds rest := by simp only [contenders,href]
      rw [hturns,ih h' hpos' hrest pool',hcont,hslots]
      simp [contenders,referenced_of_none he,Slots.turns_of_not_mem hmem]

/-- What is stored stays unless it is evicted. -/
theorem Shelved.insertLoop_stored (h : c.Shelved now) (hpos : 0 < c.slots.capacity)
    (hlen : ∀ n ∈ lengths, n ≤ cacheSeqLen kvCache) (lastLogits : Option L) (pool : Option BlockPool)
    {e : PrefixEntry P L} (he : c.entries.get? k = some e) (hk : ∀ n ∈ lengths, tokenIds.take n ≠ k) :
    ((insertLoop tokenIds kvCache lastLogits now lengths c pool).1.entries.get? k).isSome = true ↔
      Turn.leave k ∉ insertLoopTurns tokenIds kvCache lastLogits now lengths c pool := by
  induction lengths generalizing c pool e with
  | nil => simp [insertLoop,insertLoopTurns,he]
  | cons n rest ih =>
    have hn := hlen n List.mem_cons_self
    have hrest : ∀ m ∈ rest, m ≤ cacheSeqLen kvCache := fun m hm => hlen m (List.mem_cons_of_mem n hm)
    have hkrest : ∀ m ∈ rest, tokenIds.take m ≠ k := fun m hm => hk m (List.mem_cons_of_mem n hm)
    cases hstored : c.entries.get? (tokenIds.take n) with
    | some f =>
      have hskip := ih h hpos hrest pool he hkrest
      simpa [insertLoop,insertLoopTurns,hstored,Nat.not_lt.mpr hn] using hskip
    | none =>
      obtain ⟨c',pool',hloop,hturns,h',hslots,_,hget⟩ :=
        h.insertLoop_store hpos hn hstored lastLogits pool rest
      have hpos' : 0 < c'.slots.capacity := by
        rw [hslots,Slots.capacity_take hpos]
        exact hpos
      have hgetk := hget k
      rw [if_neg (Ne.symm (hk n List.mem_cons_self)),he] at hgetk
      rw [hloop,hturns]
      by_cases hleft : k ∈ c.slots.leaving
      · rw [if_pos hleft] at hgetk
        refine iff_of_false ?_ ?_
        · intro hsome
          obtain ⟨f,hf⟩ := Option.isSome_iff_exists.mp hsome
          rcases get?_insertLoop hf with hf | ⟨m,hm,_,hkm,_⟩
          · rw [hgetk] at hf
            cases hf
          · exact hkrest m hm hkm.symm
        · simp [hleft]
      · rw [if_neg hleft] at hgetk
        rw [ih h' hpos' hrest pool' hgetk hkrest]
        simp [hleft]

end FluxEngine.PrefixCache
