import FluxEngine.Serving.Frames

/-! # The books of the serving machine

The references on a prefix are counted by the live sequences bound to it, the
allocation table lists the live sequences, and a live sequence without a
prefix owns its whole reservation.
-/
namespace FluxEngine
open OrderedDict
namespace System
variable {P L : Type}

def holds (s : System P L) (k : List Token) (i : SeqId) : Bool :=
  !(s.heap i).status.terminal && decide ((s.heap i).prefixKey = some k)

def held (s : System P L) (k : List Token) : ℕ := s.accepted.countP (s.holds k)

structure Books (full : Prop) (s : System P L) : Prop where
  nodup : s.accepted.Nodup
  waiting_nodup : s.waiting.Nodup
  waiting : ∀ i ∈ s.waiting, i ∈ s.accepted ∧ (s.heap i).Pristine
  books : s.scheduler.Books full s.held
  owners : ∀ p, s.scheduler.pool = some p → ∀ i, (∃ ids, p.alloc.get? i = some ids) ↔ s.Live i
  unbound : ∀ p, s.scheduler.pool = some p → ∀ i ids, p.alloc.get? i = some ids →
    (s.heap i).prefixKey = none → ids.length = p.blocksNeeded (s.heap i).reservationTokens

variable {full : Prop} {s t : System P L} {i j : SeqId} {k : List Token} {mark : Sequence P L → Sequence P L}

theorem holds_congr (hs : (t.heap i).status.terminal = (s.heap i).status.terminal)
    (hk : (t.heap i).prefixKey = (s.heap i).prefixKey) : t.holds k i = s.holds k i := by
  unfold holds
  rw [hs,hk]

theorem held_congr (hacc : t.accepted = s.accepted) (h : ∀ k, ∀ i ∈ s.accepted, t.holds k i = s.holds k i) :
    t.held = s.held := by
  funext k
  unfold held
  rw [hacc]
  exact List.countP_congr (fun i hi => by rw [h k i hi])

theorem held_change (hacc : t.accepted = s.accepted) (hnd : s.accepted.Nodup) (hi : i ∈ s.accepted)
    (hoff : ∀ j, j ≠ i → t.heap j = s.heap j) (k : List Token) :
    t.held k + (if s.holds k i then 1 else 0) = s.held k + (if t.holds k i then 1 else 0) := by
  unfold held
  rw [hacc]
  exact Ledger.countP_change hnd hi (fun j _ hj => by unfold holds; rw [hoff j hj])

theorem held_bound (hacc : t.accepted = s.accepted) (hnd : s.accepted.Nodup) (hi : i ∈ s.accepted)
    (hoff : ∀ j, j ≠ i → t.heap j = s.heap j) (hs : (s.heap i).prefixKey = none)
    (ht : (t.heap i).prefixKey = some k) (hlive : (t.heap i).status.terminal = false) :
    t.held = Function.update s.held k (s.held k + 1) := by
  funext j
  have h := held_change hacc hnd hi hoff j
  simp only [holds,hs,ht,hlive,reduceCtorEq,decide_false,Bool.and_false,Bool.not_false,Bool.true_and,
    Bool.false_eq_true,if_false,Option.some.injEq,decide_eq_true_eq] at h
  by_cases hj : j = k
  · subst hj
    rw [Function.update_self]
    simpa using h
  · rw [Function.update_of_ne hj]
    simpa [Ne.symm hj] using h

theorem held_ended (hacc : t.accepted = s.accepted) (hnd : s.accepted.Nodup) (hi : i ∈ s.accepted)
    (hoff : ∀ j, j ≠ i → t.heap j = s.heap j) (hlive : (s.heap i).status.terminal = false)
    (hend : (t.heap i).status.terminal = true) :
    match (s.heap i).prefixKey with
    | none => t.held = s.held
    | some k => 0 < s.held k ∧ t.held = Function.update s.held k (s.held k - 1) := by
  have h := held_change hacc hnd hi hoff
  simp only [holds,hlive,hend,Bool.not_false,Bool.not_true,Bool.true_and,Bool.false_and,
    Bool.false_eq_true,if_false,decide_eq_true_eq] at h
  cases hk : (s.heap i).prefixKey with
  | none =>
    funext j
    simpa [hk] using h j
  | some k =>
    have hself := h k
    simp only [hk,if_true] at hself
    refine ⟨by omega,?_⟩
    funext j
    by_cases hj : j = k
    · subst hj
      rw [Function.update_self]
      omega
    · rw [Function.update_of_ne hj]
      simpa [hk,Ne.symm hj] using h j

theorem Books.of_frame (h : s.Books full) (hacc : t.accepted = s.accepted) (hwait : t.waiting = s.waiting)
    (hpool : t.scheduler.pool = s.scheduler.pool)
    (hcache : t.scheduler.prefixCache = s.scheduler.prefixCache)
    (hheap : ∀ i ∈ s.accepted, (t.heap i).status.terminal = (s.heap i).status.terminal ∧
      (t.heap i).prefixKey = (s.heap i).prefixKey ∧
      (t.heap i).reservationTokens = (s.heap i).reservationTokens)
    (hpristine : ∀ i ∈ s.waiting, (t.heap i).Pristine) : t.Books full := by
  have hlive : ∀ i, t.Live i ↔ s.Live i := by
    intro i
    unfold Live
    rw [hacc,hwait]
    constructor
    · rintro ⟨h1,h2,h3⟩
      exact ⟨h1,h2,(hheap i h1).1 ▸ h3⟩
    · rintro ⟨h1,h2,h3⟩
      exact ⟨h1,h2,(hheap i h1).1.trans h3⟩
  constructor
  · rw [hacc]
    exact h.nodup
  · rw [hwait]
    exact h.waiting_nodup
  · rw [hwait,hacc]
    exact fun i hi => ⟨(h.waiting i hi).1,hpristine i hi⟩
  · rw [held_congr hacc (fun k i hi => holds_congr (hheap i hi).1 (hheap i hi).2.1)]
    refine h.books.setPool hcache (by rw [hpool]) ?_
    rw [hpool]
    exact fun p hp => h.books.balanced hp
  · rw [hpool]
    intro p hp i
    rw [hlive]
    exact h.owners p hp i
  · rw [hpool]
    intro p hp i ids hids hk
    have hi := ((h.owners p hp i).mp ⟨ids,hids⟩).1
    rw [(hheap i hi).2.1] at hk
    rw [(hheap i hi).2.2]
    exact h.unbound p hp i ids hids hk

theorem Books.modify (h : s.Books full) {f : Sequence P L → Sequence P L}
    (hf : (f (s.heap i)).status.terminal = (s.heap i).status.terminal)
    (hkey : (f (s.heap i)).prefixKey = (s.heap i).prefixKey)
    (hres : (f (s.heap i)).reservationTokens = (s.heap i).reservationTokens)
    (hpristine : i ∈ s.waiting → (f (s.heap i)).Pristine) : (s.modify i f).Books full := by
  refine h.of_frame rfl rfl rfl rfl ?_ ?_
  · intro j _
    rw [modify_heap]
    by_cases hji : j = i
    · subst hji
      rw [Function.update_self]
      exact ⟨hf,hkey,hres⟩
    · rw [Function.update_of_ne hji]
      exact ⟨rfl,rfl,rfl⟩
  · intro j hj
    rw [modify_heap]
    by_cases hji : j = i
    · subst hji
      rw [Function.update_self]
      exact hpristine hj
    · rw [Function.update_of_ne hji]
      exact (h.waiting j hj).2

end System
end FluxEngine
