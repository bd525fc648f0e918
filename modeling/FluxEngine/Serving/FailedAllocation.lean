import FluxEngine.Serving.Progress

/-! # A failed allocation

A lookup acquires the prefix before the rest of the request is allocated, and a
failure releases it.  Only the entry of the hit is written by the two, and it
ends with the blocks that it had; references, pins and free blocks follow, since
the books are in order before and after.
-/
namespace FluxEngine
open OrderedDict Transition
variable {P L : Type}

def PrefixEntry.account (e : PrefixEntry P L) : ℕ × List ℕ := (e.refs,e.blockIds)

namespace PrefixCache
variable {c c₁ : PrefixCache P L} {pool pool' : Option BlockPool} {held : List Token → ℕ} {k : List Token}
variable {e : PrefixEntry P L} {ids : List ℕ} {pins : OrderedDict ℕ ℕ}

theorem Books.acquired_blockIds (h : Books False pool c held) (he : c.entries.get? k = some e)
    (ha : Acquires c e pool ids pins pool') : (if e.refs = 0 then [] else ids) = e.blockIds := by
  by_cases h0 : e.refs = 0
  · rw [if_pos h0,h.unused k e he (Or.inl h0)]
  · rw [if_neg h0]
    cases ha with
    | unpooled => rfl
    | again _ => rfl
    | share hr => exact absurd hr h0
    | short hr => exact absurd hr h0
    | reserve hr => exact absurd hr h0

theorem Books.account_release (h : Books False pool c held) (he : c.entries.get? k = some e)
    (ha : Acquires c e pool ids pins pool') {e₁ : PrefixEntry P L} (hset : c₁.entries = c.entries.set k e₁)
    (hrefs : e₁.refs = e.refs + 1) (hids : e₁.blockIds = ids) (j : List Token) :
    ((c₁.release pool' (some k)).1.entries.get? j).map PrefixEntry.account =
      (c.entries.get? j).map PrefixEntry.account := by
  have he₁ : c₁.entries.get? k = some e₁ := by rw [hset,get?_set_self]
  have hpos : e₁.refs ≠ 0 := by omega
  have hblocks := h.acquired_blockIds he ha
  unfold PrefixCache.release
  simp only [if_neg (h.key_ne_nil he),he₁,if_neg hpos]
  by_cases hj : j = k
  · rw [hj,get?_set_self,he]
    simp only [Option.map_some,PrefixEntry.account,hrefs,Nat.add_sub_cancel,hids,hblocks]
  · rw [get?_set_ne _ _ hj,hset,get?_set_ne _ _ hj]

end PrefixCache

namespace Scheduler
variable {s t : Scheduler P L} {held : List Token → ℕ} {id : SeqId} {seq seq' : Sequence P L} {now : ℕ}

def accountAt (s : Scheduler P L) (k : List Token) : Option (ℕ × List ℕ) :=
  s.prefixCache.bind (fun c => (c.entries.get? k).map PrefixEntry.account)

theorem tryAllocate_false (hfail : s.tryAllocate id seq now = (false,t,seq')) :
    seq' = seq ∧ t = (s.lookupPrefix seq.promptTokenIds now).1.elim (s.lookupPrefix seq.promptTokenIds now).2
      (fun hit => (s.lookupPrefix seq.promptTokenIds now).2.releasePrefix (some hit.tokenIds)) := by
  unfold Scheduler.tryAllocate at hfail
  rcases hlk : s.lookupPrefix seq.promptTokenIds now with ⟨hit,s₁⟩
  rw [hlk] at hfail
  cases hp : s₁.pool with
  | none => simp [hp] at hfail
  | some p =>
    simp only [hp,BlockPool.allocate_eq] at hfail
    split at hfail
    · cases hfail
      exact ⟨rfl,rfl⟩
    · cases hfail

theorem isSome_lookupPrefix (s : Scheduler P L) (tokenIds : List Token) (now : ℕ) :
    (s.lookupPrefix tokenIds now).2.prefixCache.isSome = s.prefixCache.isSome := by
  unfold Scheduler.lookupPrefix
  cases hc : s.prefixCache with
  | none => simp [hc]
  | some c => rfl

theorem isSome_releasePrefix (s : Scheduler P L) (key : Option (List Token)) :
    (s.releasePrefix key).prefixCache.isSome = s.prefixCache.isSome := by
  unfold Scheduler.releasePrefix
  cases hc : s.prefixCache with
  | none => simp [hc]
  | some c => rfl

theorem Books.accountAt_tryAllocate (h : s.Books False held) (hfail : s.tryAllocate id seq now = (false,t,seq'))
    (k : List Token) : t.accountAt k = s.accountAt k := by
  obtain ⟨_,rfl⟩ := tryAllocate_false hfail
  cases hc : s.prefixCache with
  | none => simp [Scheduler.lookupPrefix,accountAt,hc]
  | some c =>
    have hb : c.Books False s.pool held := by
      unfold Books at h
      rwa [hc] at h
    rcases hb.lookup seq.promptTokenIds now (fun hfalse => hfalse.elim) with
      ⟨hpeek,_⟩ | ⟨hit,e,ids,pins,pool',r,hpeek,hhit,hacq,hr,hfound,hpool,_,_,hset,_⟩
    · simp [Scheduler.lookupPrefix,PrefixCache.lookup,accountAt,hc,hpeek]
    · have haccount := hb.account_release hhit.stored hacq hset rfl rfl k
      simp only [Scheduler.lookupPrefix,hc,hr,hfound,hpool,Option.elim_some,Scheduler.releasePrefix,accountAt,
        Option.bind_some]
      exact haccount

end Scheduler

theorem PrefixCache.Books.pins_congr {c c' : PrefixCache P L} {pool pool' : Option BlockPool}
    {held held' : List Token → ℕ} (h : c.Books False pool held) (h' : c'.Books False pool' held')
    (hacc : ∀ k, (c'.entries.get? k).map PrefixEntry.account = (c.entries.get? k).map PrefixEntry.account) (b : ℕ) :
    pinCount c'.blockPins b = pinCount c.blockPins b := by
  rw [h'.pins b,h.pins b]
  exact weight_eq_of_map (fun _ (a : ℕ × List ℕ) => if b ∈ a.2 then a.1 else 0) hacc

theorem BlockPool.Balanced.free_perm {p p' : BlockPool} {pins pins' : ℕ → ℕ} (h : p.Balanced pins)
    (h' : p'.Balanced pins') (hshape : p'.shape = p.shape) (halloc : p'.alloc = p.alloc)
    (hpins : ∀ b, pins' b = pins b) : p'.free.Perm p.free := by
  rw [List.perm_iff_count]
  intro b
  have htotal := h.total b
  have htotal' := h'.total b
  have hblocks : p'.numBlocks = p.numBlocks := congrArg Prod.fst hshape
  rw [hblocks,hpins b] at htotal'
  unfold BlockPool.owned at htotal htotal'
  rw [halloc] at htotal'
  omega

namespace Scheduler
variable {s t : Scheduler P L} {held : List Token → ℕ} {id : SeqId} {seq seq' : Sequence P L} {now : ℕ}

theorem Books.pins_congr {held' : List Token → ℕ} (h : s.Books False held) (h' : t.Books False held')
    (hcache : t.prefixCache.isSome = s.prefixCache.isSome) (hacc : ∀ k, t.accountAt k = s.accountAt k) (b : ℕ) :
    t.pins b = s.pins b := by
  unfold Books at h h'
  unfold accountAt at hacc
  unfold pins
  cases hc : s.prefixCache with
  | none =>
    rw [hc,Option.isSome_none,Option.isSome_eq_false_iff,Option.isNone_iff_eq_none] at hcache
    rw [hcache]
  | some c =>
    rw [hc,Option.isSome_some] at hcache
    obtain ⟨c',hc'⟩ := Option.isSome_iff_exists.mp hcache
    rw [hc] at h
    rw [hc'] at h' ⊢
    rw [hc,hc'] at hacc
    exact PrefixCache.Books.pins_congr h h' hacc b

/-- Nothing is left of the attempt. -/
structure Undone (s t : Scheduler P L) : Prop where
  queue : t.queue = s.queue
  pool : ∀ p, s.pool = some p → ∃ p', t.pool = some p' ∧ p'.free.Perm p.free ∧ p'.alloc = p.alloc ∧
    p'.shape = p.shape
  accounts : ∀ k, t.accountAt k = s.accountAt k
  contents : ∀ k, t.contentAt k = s.contentAt k
  pins : ∀ b, t.pins b = s.pins b

theorem Books.undone (h : s.Books False held) (hid : ∀ p, s.pool = some p → p.alloc.get? id = none)
    (hfail : s.tryAllocate id seq now = (false,t,seq')) : Undone s t := by
  have hacc := h.accountAt_tryAllocate hfail
  have hcont : ∀ k, t.contentAt k = s.contentAt k := by
    intro k
    have hk := contentAt_tryAllocate (s := s) id seq now k
    rwa [hfail] at hk
  rcases h.tryAllocate hid now False.elim with ⟨t',seq'',hok,_⟩ | ⟨t',heq,href⟩
  · rw [hfail] at hok
    cases hok
  · rw [hfail] at heq
    cases heq
    have hcache : t.prefixCache.isSome = s.prefixCache.isSome := by
      rw [(tryAllocate_false hfail).2]
      cases (s.lookupPrefix seq.promptTokenIds now).1 with
      | none => exact isSome_lookupPrefix s _ now
      | some hit =>
        rw [Option.elim_some,isSome_releasePrefix]
        exact isSome_lookupPrefix s _ now
    have hpins := h.pins_congr href.books hcache hacc
    refine ⟨href.queue,?_,hacc,hcont,hpins⟩
    intro p hp
    have hshape := href.shape
    have halloc := href.alloc
    rw [hp,Option.map_some] at hshape halloc
    obtain ⟨p',hp',hs⟩ := Option.map_eq_some_iff.mp hshape
    rw [hp',Option.map_some,Option.some.injEq] at halloc
    exact ⟨p',hp',(h.balanced hp).free_perm (href.books.balanced hp') hs halloc hpins,halloc,hs⟩

end Scheduler

variable [Inhabited P] [Inhabited L] {eng : CachedEngine P L} {s : System P L}

/-- In every reachable state an allocation for a waiting sequence that fails leaves
the sequence, the allocation table, what the entries hold and the pins as they
were, and the free blocks up to their order. -/
theorem failed_allocation_undone (h : Reachable eng s) {i : SeqId} (hi : i ∈ s.waiting) {now : ℕ}
    {t : Scheduler P L} {seq : Sequence P L} (hfail : s.scheduler.tryAllocate i (s.heap i) now = (false,t,seq)) :
    seq = s.heap i ∧ s.scheduler.Undone t := by
  have hbooks := books_of_reachable h
  refine ⟨(Scheduler.tryAllocate_false hfail).1,hbooks.books.undone ?_ hfail⟩
  intro p hp
  rw [Option.eq_none_iff_forall_ne_some]
  intro ids hids
  exact ((hbooks.owners p hp i).mp ⟨ids,hids⟩).2.1 hi

/-- The request behind a stored prefix for which the pool is too small. -/
theorem failed_allocation_undone_stalled :
    ∃ (s : System ℕ Token) (t : Scheduler ℕ Token) (seq : Sequence ℕ Token), 1 ∈ s.waiting ∧
      (s.scheduler.peekPrefix (s.heap 1).promptTokenIds).isSome ∧
      s.scheduler.tryAllocate 1 (s.heap 1) 3 = (false,t,seq) ∧ seq = s.heap 1 ∧ s.scheduler.Undone t := by
  have hobs : (execAll (FakeLm.engine {}) stalledRun smallSystem).map (fun s =>
      ((s.waiting,(s.scheduler.peekPrefix (s.heap 1).promptTokenIds).isSome),
        (s.scheduler.tryAllocate 1 (s.heap 1) 3).1)) = some (([1],true),false) := by
    decide
  obtain ⟨s,hs,hobs⟩ := Option.map_eq_some_iff.mp hobs
  simp only [Prod.mk.injEq] at hobs
  obtain ⟨⟨hw,hpeek⟩,hfalse⟩ := hobs
  have hi : 1 ∈ s.waiting := by
    rw [hw]
    exact List.mem_cons_self
  have hfail : s.scheduler.tryAllocate 1 (s.heap 1) 3 = (false,(s.scheduler.tryAllocate 1 (s.heap 1) 3).2) :=
    Prod.ext hfalse rfl
  exact ⟨s,_,_,hi,hpeek,hfail,failed_allocation_undone ⟨_,smallSystem_initial,_,execAll_run hs⟩ hi hfail⟩

end FluxEngine
