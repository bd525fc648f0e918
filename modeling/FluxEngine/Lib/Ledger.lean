import Mathlib.Algebra.BigOperators.Group.List.Basic
import Mathlib.Data.List.Nodup
import Mathlib.Data.List.Count

/-! # A stock of units under three kinds of custody

Every unit of a fixed stock lies in the free list, with one owner, or under a
shared pin that is counted.  Custody is recorded by multiplicities, so that a
unit lost or held twice shows as a wrong sum.
-/
namespace Ledger
variable {α : Type*} [DecidableEq α]

/-- Each unit of the stock is in exactly one custody; a pinned unit counts once
however many pins it carries. -/
structure Balanced (stock free : List α) (owned pins : α → ℕ) : Prop where
  once : stock.Nodup
  total : ∀ b, free.count b + owned b + min 1 (pins b) = stock.count b

namespace Balanced
variable {stock free ids rest : List α} {owned owned' pins pins' : α → ℕ}

theorem total_le_one (h : Balanced stock free owned pins) (b : α) :
    free.count b + owned b + min 1 (pins b) ≤ 1 := by
  rw [h.total b]
  exact List.nodup_iff_count_le_one.mp h.once b

theorem free_nodup (h : Balanced stock free owned pins) : free.Nodup := by
  rw [List.nodup_iff_count_le_one]
  intro b
  have := h.total_le_one b
  omega

theorem owned_le_one (h : Balanced stock free owned pins) (b : α) : owned b ≤ 1 := by
  have := h.total_le_one b
  omega

theorem congr (h : Balanced stock free owned pins) (ho : ∀ b, owned' b = owned b)
    (hp : ∀ b, pins' b = pins b) : Balanced stock free owned' pins' := by
  refine ⟨h.once,?_⟩
  intro b
  rw [ho,hp]
  exact h.total b

theorem grant (h : Balanced stock (ids ++ rest) owned pins)
    (ho : ∀ b, owned' b = owned b + ids.count b) : Balanced stock rest owned' pins := by
  refine ⟨h.once,?_⟩
  intro b
  have hb := h.total b
  rw [List.count_append] at hb
  have := ho b
  omega

theorem giveBack (h : Balanced stock free owned pins)
    (ho : ∀ b, owned b = owned' b + ids.count b) : Balanced stock (free ++ ids) owned' pins := by
  refine ⟨h.once,?_⟩
  intro b
  have hb := h.total b
  rw [List.count_append]
  have := ho b
  omega

theorem pinFree (h : Balanced stock (ids ++ rest) owned pins)
    (hp : ∀ b, pins' b = pins b + ids.count b) : Balanced stock rest owned pins' := by
  refine ⟨h.once,?_⟩
  intro b
  have hb := h.total b
  have hle := h.total_le_one b
  rw [List.count_append] at hb hle
  have := hp b
  omega

theorem pinOwned (h : Balanced stock free owned pins) (ho : ∀ b, owned b = owned' b + ids.count b)
    (hp : ∀ b, pins' b = pins b + ids.count b) : Balanced stock free owned' pins' := by
  refine ⟨h.once,?_⟩
  intro b
  have hb := h.total b
  have hle := h.total_le_one b
  have h1 := ho b
  have h2 := hp b
  omega

theorem pinAgain (h : Balanced stock free owned pins) (hids : ∀ b ∈ ids, 0 < pins b)
    (hp : ∀ b, pins' b = pins b + ids.count b) : Balanced stock free owned pins' := by
  refine ⟨h.once,?_⟩
  intro b
  have hb := h.total b
  have h2 := hp b
  by_cases hm : b ∈ ids
  · have := hids b hm
    omega
  · rw [List.count_eq_zero_of_not_mem hm] at h2
    omega

theorem unpin (h : Balanced stock free owned pins) (hnd : ids.Nodup) (hids : ∀ b ∈ ids, 0 < pins b)
    (hp : ∀ b, pins' b = pins b - ids.count b) :
    Balanced stock (free ++ ids.filter (fun b => pins b ≤ 1)) owned pins' := by
  refine ⟨h.once,?_⟩
  intro b
  have hb := h.total b
  have h2 := hp b
  rw [List.count_append]
  by_cases hm : b ∈ ids
  · have hpos := hids b hm
    have hc := List.count_eq_one_of_mem hnd hm
    by_cases hle : pins b ≤ 1
    · rw [List.count_filter (by simpa using hle),hc]
      omega
    · have hf : b ∉ ids.filter (fun b => pins b ≤ 1) := by simp [hle]
      rw [List.count_eq_zero_of_not_mem hf]
      omega
  · have hf : b ∉ ids.filter (fun b => pins b ≤ 1) := fun hx => hm (List.mem_filter.mp hx).1
    rw [List.count_eq_zero_of_not_mem hm] at h2
    rw [List.count_eq_zero_of_not_mem hf]
    omega

end Balanced

theorem countP_change {l : List α} (hnd : l.Nodup) {a : α} (ha : a ∈ l) {p q : α → Bool}
    (hoff : ∀ b ∈ l, b ≠ a → q b = p b) :
    l.countP q + (if p a then 1 else 0) = l.countP p + (if q a then 1 else 0) := by
  have hrest : (l.erase a).countP q = (l.erase a).countP p := by
    apply List.countP_congr
    intro b hb
    rw [hnd.mem_erase_iff] at hb
    rw [hoff b hb.2 hb.1]
  have hp := (List.perm_cons_erase ha).countP_eq p
  have hq := (List.perm_cons_erase ha).countP_eq q
  rw [List.countP_cons] at hp hq
  omega

theorem sum_change {M : Type*} [AddCommMonoid M] {l : List α} (hnd : l.Nodup) {a : α} (ha : a ∈ l) {f g : α → M}
    (hoff : ∀ b ∈ l, b ≠ a → g b = f b) : (l.map g).sum + f a = (l.map f).sum + g a := by
  have hrest : (l.erase a).map g = (l.erase a).map f := by
    apply List.map_congr_left
    intro b hb
    rw [hnd.mem_erase_iff] at hb
    exact hoff b hb.2 hb.1
  rw [← List.sum_map_erase f ha,← List.sum_map_erase g ha,hrest,add_comm (g a),add_right_comm,add_comm (f a)]

end Ledger
