import Mathlib.Data.List.Nodup

/-! # Fair queues

A queue with its history: who has arrived, who has left the queue unserved, and
who has been served, each in order.  A move serves any number from the front.
-/
namespace Fifo
variable {α : Type*} [DecidableEq α]

structure History (α : Type*) where
  arrived : List α := []
  removed : List α := []
  served : List α := []
  waiting : List α := []

/-- One move of the queue. -/
inductive Move (s t : History α) : Prop
  | arrive (a : α) : a ∉ s.arrived →
      t = { s with arrived := s.arrived ++ [a], waiting := s.waiting ++ [a] } → Move s t
  | serve (front rest : List α) : s.waiting = front ++ rest →
      t = { s with served := s.served ++ front, waiting := rest } → Move s t
  | remove (a : α) : a ∈ s.waiting →
      t = { s with removed := a :: s.removed, waiting := s.waiting.erase a } → Move s t

/-- Served and waiting are the arrived in order, the removed left out. -/
structure Fair (s : History α) : Prop where
  nodup : s.arrived.Nodup
  arrived : ∀ a ∈ s.removed, a ∈ s.arrived
  order : s.served ++ s.waiting = s.arrived.filter (fun a => a ∉ s.removed)

theorem fair_empty : Fair ({} : History α) := ⟨List.nodup_nil,by simp,rfl⟩

variable {s t : History α}

theorem Fair.nodup_order (h : Fair s) : (s.served ++ s.waiting).Nodup := by
  rw [h.order]
  exact h.nodup.filter _

theorem filter_removed {l removed : List α} {a : α} (hl : l.Nodup) :
    l.filter (fun b => b ∉ a :: removed) = (l.filter (fun b => b ∉ removed)).erase a := by
  rw [(hl.filter _).erase_eq_filter,List.filter_filter]
  refine List.filter_congr ?_
  intro b _
  by_cases hb : b = a
  · simp [hb]
  · simp [hb]

theorem Move.fair (h : Move s t) (hs : Fair s) : Fair t := by
  cases h with
  | arrive a ha heq =>
    subst heq
    have hrem : a ∉ s.removed := fun hr => ha (hs.arrived a hr)
    refine ⟨?_,?_,?_⟩
    · simpa [List.nodup_append] using ⟨hs.nodup,fun b hb hba => ha (hba ▸ hb)⟩
    · exact fun b hb => List.mem_append_left _ (hs.arrived b hb)
    · rw [List.filter_append,← hs.order]
      simp [hrem]
  | serve front rest hw heq =>
    subst heq
    refine ⟨hs.nodup,hs.arrived,?_⟩
    rw [← hs.order,hw,List.append_assoc]
  | remove a ha heq =>
    subst heq
    have hnd := hs.nodup_order
    have hserved : a ∉ s.served := fun hm => (List.nodup_append.mp hnd).2.2 a hm a ha rfl
    have harr : a ∈ s.arrived := by
      have hmem : a ∈ s.served ++ s.waiting := List.mem_append_right _ ha
      rw [hs.order] at hmem
      exact List.mem_of_mem_filter hmem
    refine ⟨hs.nodup,?_,?_⟩
    · intro b hb
      rcases List.mem_cons.mp hb with rfl | hb
      · exact harr
      · exact hs.arrived b hb
    · rw [filter_removed hs.nodup,← hs.order,List.erase_append_right _ hserved]

theorem Fair.idxOf_lt (h : Fair s) {front back : List α} {a b : α} (heq : s.served ++ s.waiting = front ++ b :: back)
    (ha : a ∈ front) : s.arrived.idxOf a < s.arrived.idxOf b := by
  have hsub : (front ++ b :: back).Sublist s.arrived := by
    rw [← heq,h.order]
    exact List.filter_sublist
  have hall : s.arrived.Pairwise (fun x y => s.arrived.idxOf x < s.arrived.idxOf y) := by
    rw [List.pairwise_iff_getElem]
    intro m n hm hn hmn
    rwa [h.nodup.idxOf_getElem m hm,h.nodup.idxOf_getElem n hn]
  exact (List.pairwise_append.mp (hall.sublist hsub)).2.2 a ha b List.mem_cons_self

end Fifo
