import Mathlib.Logic.Function.Basic

/-! # A service with tickets

A request gets a ticket, its answer is written on it piece by piece, and then the
ticket is closed.  The rules say which piece may come next and how a ticket may be
closed; both look at this ticket only.
-/
namespace Tickets
open Function
variable {ι ρ τ ω : Type*}

/-- Which piece may follow, and how a ticket may be closed. -/
structure Rules (ρ τ ω : Type*) where
  may : ρ → List τ → τ → Prop
  ends : ρ → List τ → ω → Prop

structure Ticket (ρ τ ω : Type*) where
  request : ρ
  output : List τ := []
  outcome : Option ω := none

/-- What happens to one open ticket. -/
inductive Move (R : Rules ρ τ ω) : Ticket ρ τ ω → Ticket ρ τ ω → Prop
  | emit {x : Ticket ρ τ ω} {t : τ} : x.outcome = none → R.may x.request x.output t →
      Move R x { x with output := x.output ++ [t] }
  | close {x : Ticket ρ τ ω} {o : ω} : x.outcome = none → R.ends x.request x.output o →
      Move R x { x with outcome := some o }

/-- One step of the service, labelled with the ticket it is about. -/
inductive Step [DecidableEq ι] (R : Rules ρ τ ω) : ι → (ι → Option (Ticket ρ τ ω)) → (ι → Option (Ticket ρ τ ω)) → Prop
  | accept {book : ι → Option (Ticket ρ τ ω)} {i : ι} (r : ρ) : book i = none →
      Step R i book (update book i (some { request := r }))
  | move {book : ι → Option (Ticket ρ τ ω)} {i : ι} {x y : Ticket ρ τ ω} : book i = some x → Move R x y →
      Step R i book (update book i (some y))

variable {R : Rules ρ τ ω} {x y : Ticket ρ τ ω}

/-- Every piece followed from what came before it, and the ticket was closed by the
rules. -/
structure Lawful (R : Rules ρ τ ω) (x : Ticket ρ τ ω) : Prop where
  pieces : ∀ n t, x.output[n]? = some t → R.may x.request (x.output.take n) t
  outcome : ∀ o, x.outcome = some o → R.ends x.request x.output o

theorem lawful_fresh (r : ρ) : Lawful R { request := r } := by
  constructor
  · intro n t h
    simp at h
  · rintro _ ⟨⟩

theorem Move.lawful (h : Move R x y) (hx : Lawful R x) : Lawful R y := by
  cases h with
  | emit hopen hmay =>
    constructor
    · intro n t hn
      rcases Nat.lt_trichotomy n x.output.length with hlt | heq | hgt
      · rw [List.getElem?_append_left hlt] at hn
        rw [List.take_append_of_le_length (Nat.le_of_lt hlt)]
        exact hx.pieces n t hn
      · subst heq
        simp only [List.getElem?_concat_length,Option.some.injEq] at hn
        subst hn
        rw [List.take_left' rfl]
        exact hmay
      · obtain ⟨hlt,_⟩ := List.getElem?_eq_some_iff.mp hn
        rw [List.length_append,List.length_singleton] at hlt
        omega
    · intro o ho
      rw [hopen] at ho
      cases ho
  | close hopen hends =>
    constructor
    · exact hx.pieces
    · rintro _ ⟨⟩
      exact hends

variable [DecidableEq ι] {book book' : ι → Option (Ticket ρ τ ω)} {i j : ι}

theorem Step.lawful (h : Step R i book book') (hbook : ∀ j x, book j = some x → Lawful R x) :
    ∀ j x, book' j = some x → Lawful R x := by
  intro j y hy
  by_cases hj : j = i
  · subst hj
    cases h with
    | accept r _ =>
      rw [update_self] at hy
      cases hy
      exact lawful_fresh r
    | move hx hmove =>
      rw [update_self] at hy
      cases hy
      exact hmove.lawful (hbook _ _ hx)
  · cases h with
    | accept r _ =>
      rw [update_of_ne hj] at hy
      exact hbook j y hy
    | move _ _ =>
      rw [update_of_ne hj] at hy
      exact hbook j y hy

end Tickets
