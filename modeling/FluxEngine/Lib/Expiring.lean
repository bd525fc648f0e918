import Mathlib.Data.Nat.Notation
import Mathlib.Logic.Function.Basic

/-! # Counters that expire

A store of counters under keys.  An entry may carry a deadline, and it is dropped
by the step of the clock that reaches it; how often that has happened to a key is
counted.
-/
namespace Expiring
variable {κ : Type*} [DecidableEq κ]

structure Entry where
  count : ℕ
  deadline : Option ℕ
  deriving DecidableEq, Repr

def Entry.due (e : Entry) (time : ℕ) : Bool := e.deadline.any (fun d => decide (d ≤ time))

structure Store (κ : Type*) where
  now : ℕ := 0
  entry : κ → Option Entry := fun _ => none
  expired : κ → ℕ := fun _ => 0

namespace Store

/-- A new counter carries no deadline, and counting leaves the deadline alone. -/
def incr (s : Store κ) (k : κ) : Store κ × ℕ :=
  let e := (s.entry k).getD ⟨0,none⟩
  ({ s with entry := Function.update s.entry k (some { e with count := e.count + 1 }) },e.count + 1)

def pass {κ : Type*} (s : Store κ) (time : ℕ) : Store κ where
  now := s.now + time
  entry := fun k => (s.entry k).filter (fun e => !e.due (s.now + time))
  expired := fun k => s.expired k + if (s.entry k).any (fun e => e.due (s.now + time)) then 1 else 0

/-- The store in which a deadline is set, before the clock looks at it. -/
def setDeadline (s : Store κ) (k : κ) (e : Entry) (time : ℕ) : Store κ :=
  { s with entry := Function.update s.entry k (some { e with deadline := some (s.now + time) }) }

/-- Nothing happens to a key that is absent, and a deadline of now is at once due. -/
def expireIn (s : Store κ) (k : κ) (time : ℕ) : Store κ :=
  match s.entry k with
  | none => s
  | some e => (s.setDeadline k e time).pass 0

variable {s : Store κ} {k j : κ} {e : Entry} {time : ℕ}

def Due {κ : Type*} (s : Store κ) (k : κ) (time : ℕ) : Prop :=
  ∃ e d, s.entry k = some e ∧ e.deadline = some d ∧ d ≤ time

omit [DecidableEq κ] in
theorem pass_cases (s : Store κ) (time : ℕ) (k : κ) :
    (s.Due k (s.now + time) ∧ (s.pass time).entry k = none ∧ (s.pass time).expired k = s.expired k + 1) ∨
      (¬ s.Due k (s.now + time) ∧ (s.pass time).entry k = s.entry k ∧ (s.pass time).expired k = s.expired k) := by
  cases he : s.entry k with
  | none => exact Or.inr (by simp [pass,he,Due])
  | some e =>
    cases hd : e.deadline with
    | none => exact Or.inr (by simp [pass,he,hd,Due,Entry.due])
    | some d =>
      by_cases hle : d ≤ s.now + time
      · exact Or.inl (by simp [pass,he,hd,Due,Entry.due,hle])
      · exact Or.inr (by simp [pass,he,hd,Due,Entry.due,hle])

omit [DecidableEq κ] in
theorem pass_now (s : Store κ) (time : ℕ) : (s.pass time).now = s.now + time := rfl

theorem incr_now (s : Store κ) (k : κ) : (s.incr k).1.now = s.now := rfl

theorem incr_expired (s : Store κ) (k : κ) : (s.incr k).1.expired = s.expired := rfl

theorem incr_entry_of_ne (h : j ≠ k) : (s.incr k).1.entry j = s.entry j := Function.update_of_ne h _ _

theorem incr_new (h : s.entry k = none) : (s.incr k).2 = 1 ∧ (s.incr k).1.entry k = some ⟨1,none⟩ := by
  simp [incr,h]

theorem incr_old (h : s.entry k = some e) :
    (s.incr k).2 = e.count + 1 ∧ (s.incr k).1.entry k = some ⟨e.count + 1,e.deadline⟩ := by
  simp [incr,h]

theorem expireIn_eq (h : s.entry k = some e) : s.expireIn k time = (s.setDeadline k e time).pass 0 := by
  simp only [expireIn,h]

theorem setDeadline_self (s : Store κ) (k : κ) (e : Entry) (time : ℕ) :
    (s.setDeadline k e time).entry k = some ⟨e.count,some (s.now + time)⟩ := Function.update_self _ _ _

theorem setDeadline_of_ne (h : j ≠ k) : (s.setDeadline k e time).entry j = s.entry j := Function.update_of_ne h _ _

theorem expireIn_self (h : s.entry k = some e) (time : ℕ) :
    (time = 0 ∧ (s.expireIn k time).entry k = none ∧ (s.expireIn k time).expired k = s.expired k + 1) ∨
      (0 < time ∧ (s.expireIn k time).entry k = some ⟨e.count,some (s.now + time)⟩ ∧
        (s.expireIn k time).expired k = s.expired k) := by
  rw [expireIn_eq h]
  have hself := setDeadline_self s k e time
  have hnow : (s.setDeadline k e time).now = s.now := rfl
  rcases pass_cases (s.setDeadline k e time) 0 k with ⟨⟨e',d,he,hd,hle⟩,hnone,hexpired⟩ | ⟨hdue,hentry,hexpired⟩
  · rw [hself] at he
    cases he
    cases hd
    exact Or.inl ⟨by omega,hnone,hexpired⟩
  · refine Or.inr ⟨?_,hentry.trans hself,hexpired⟩
    by_contra hzero
    exact hdue ⟨_,_,hself,rfl,by omega⟩

theorem expireIn_of_ne (hne : j ≠ k) (time : ℕ) :
    (s.Due j s.now ∧ (s.expireIn k time).entry j = none ∧ (s.expireIn k time).expired j = s.expired j + 1) ∨
      ((s.expireIn k time).entry j = s.entry j ∧ (s.expireIn k time).expired j = s.expired j) := by
  cases he : s.entry k with
  | none => exact Or.inr (by simp [expireIn,he])
  | some e =>
    rw [expireIn_eq he]
    have hother : (s.setDeadline k e time).entry j = s.entry j := setDeadline_of_ne hne
    rcases pass_cases (s.setDeadline k e time) 0 j with ⟨⟨e',d,hj,hd,hle⟩,hnone,hexpired⟩ | ⟨-,hentry,hexpired⟩
    · exact Or.inl ⟨⟨e',d,hother.symm.trans hj,hd,hle⟩,hnone,hexpired⟩
    · exact Or.inr ⟨hentry.trans hother,hexpired⟩

theorem expireIn_now (s : Store κ) (k : κ) (time : ℕ) : (s.expireIn k time).now = s.now := by
  unfold expireIn
  split
  · rfl
  · rfl

end Store
end Expiring
