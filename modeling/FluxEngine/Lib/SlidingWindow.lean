import Mathlib.Algebra.Order.Group.Defs
import Mathlib.Data.List.Sort

/-! # Sliding windows over a stream of dated items

A queue that drops its front when it is out of date.  While the clock does not
go back, the queue holds the items of the window and no others.
-/
namespace SlidingWindow
variable {τ α : Type*} [LinearOrder τ]

def trim (cutoff : τ) (items : List (τ × α)) : List (τ × α) := items.dropWhile (fun x => decide (x.1 < cutoff))

/-- As `trim`, but never the last item. -/
def trimButLast (cutoff : τ) : List (τ × α) → List (τ × α)
  | [] => []
  | [x] => [x]
  | x :: y :: rest => if x.1 < cutoff then trimButLast cutoff (y :: rest) else x :: y :: rest

/-- The items from `start` on. -/
def since (start : τ) (items : List (τ × α)) : List (τ × α) := items.filter (fun x => decide (start ≤ x.1))

def Dated (items : List (τ × α)) : Prop := items.Pairwise (fun x y => x.1 ≤ y.1)

variable {items : List (τ × α)} {cutoff start now : τ} {x : τ × α}

theorem mem_since : x ∈ since start items ↔ x ∈ items ∧ start ≤ x.1 := by
  simp only [since,List.mem_filter,decide_eq_true_eq]

theorem since_append_singleton (h : start ≤ x.1) : since start (items ++ [x]) = since start items ++ [x] := by
  unfold since
  rw [List.filter_append,List.filter_cons_of_pos (by exact decide_eq_true h),List.filter_nil]

theorem since_map {β : Type*} (f : α → β) :
    since start (items.map (fun x => (x.1,f x.2))) = (since start items).map (fun x => (x.1,f x.2)) := by
  unfold since
  rw [List.filter_map]
  rfl

theorem since_since (h : start ≤ cutoff) : since cutoff (since start items) = since cutoff items := by
  unfold since
  rw [List.filter_filter]
  apply List.filter_congr
  intro x _
  rw [← Bool.decide_and]
  exact decide_eq_decide.mpr ⟨And.left,fun hx => ⟨hx,h.trans hx⟩⟩

theorem Dated.since (h : Dated items) (start : τ) : Dated (SlidingWindow.since start items) :=
  List.Pairwise.sublist List.filter_sublist h

theorem Dated.snoc (h : Dated items) (hx : ∀ y ∈ items, y.1 ≤ x.1) : Dated (items ++ [x]) := by
  refine List.pairwise_append.mpr ⟨h,List.pairwise_singleton _ _,?_⟩
  intro y hy z hz
  rw [List.mem_singleton.mp hz]
  exact hx y hy

theorem trim_eq_since (h : Dated items) : trim cutoff items = since cutoff items := by
  unfold trim since
  induction items with
  | nil => rfl
  | cons x rest ih =>
    obtain ⟨hx,hrest⟩ := List.pairwise_cons.mp h
    by_cases hlt : x.1 < cutoff
    · rw [List.dropWhile_cons_of_pos (by exact decide_eq_true hlt),ih hrest,
        List.filter_cons_of_neg (by simpa using hlt)]
    · have hle : cutoff ≤ x.1 := not_lt.mp hlt
      rw [List.dropWhile_cons_of_neg (by simpa using hlt)]
      symm
      rw [List.filter_eq_self]
      intro y hy
      rcases List.mem_cons.mp hy with rfl | hy
      · exact decide_eq_true hle
      · exact decide_eq_true (hle.trans (hx y hy))

theorem trimButLast_eq_trim (h : cutoff ≤ x.1) : trimButLast cutoff (items ++ [x]) = trim cutoff (items ++ [x]) := by
  unfold trim
  induction items with
  | nil => exact (List.dropWhile_cons_of_neg (by simpa using h)).symm
  | cons y rest ih =>
    obtain ⟨z,more,hmore⟩ : ∃ z more, rest ++ [x] = z :: more := List.exists_cons_of_ne_nil (by simp)
    rw [hmore] at ih
    rw [List.cons_append,hmore,trimButLast]
    by_cases hlt : y.1 < cutoff
    · rw [if_pos hlt,ih,List.dropWhile_cons_of_pos (a := y) (by exact decide_eq_true hlt)]
    · rw [if_neg hlt,List.dropWhile_cons_of_neg (by simpa using hlt)]

section Width
variable [AddCommGroup τ] [IsOrderedAddMonoid τ] {width : τ} {queue history : List (τ × α)} {later : τ}

/-- At the time `now` the queue holds the last `width` of the history. -/
structure Tracks (width : τ) (history : List (τ × α)) (now : τ) (queue : List (τ × α)) : Prop where
  dated : Dated history
  past : ∀ x ∈ history, x.1 ≤ now
  queue : queue = since (now - width) history

omit [IsOrderedAddMonoid τ] in
theorem tracks_empty (width now : τ) : Tracks width ([] : List (τ × α)) now [] :=
  ⟨List.Pairwise.nil,fun _ hx => absurd hx List.not_mem_nil,rfl⟩

theorem Tracks.trim (h : Tracks width history now queue) (hnow : now ≤ later) :
    Tracks width history later (SlidingWindow.trim (later - width) queue) := by
  refine ⟨h.dated,fun x hx => (h.past x hx).trans hnow,?_⟩
  rw [h.queue,trim_eq_since (h.dated.since _),since_since (sub_le_sub_right hnow width)]

theorem Tracks.push (h : Tracks width history now queue) (hnow : now ≤ later) (hwidth : 0 ≤ width) (a : α) :
    Tracks width (history ++ [(later,a)]) later (SlidingWindow.trim (later - width) (queue ++ [(later,a)])) := by
  have hpast : ∀ x ∈ history, x.1 ≤ later := fun x hx => (h.past x hx).trans hnow
  have hfresh : later - width ≤ (later,a).1 := sub_le_self later hwidth
  have hqueue : Dated (queue ++ [(later,a)]) := by
    rw [h.queue]
    exact (h.dated.since _).snoc (fun x hx => hpast x (mem_since.mp hx).1)
  refine ⟨h.dated.snoc hpast,?_,?_⟩
  · intro x hx
    rcases List.mem_append.mp hx with hx | hx
    · exact hpast x hx
    · rw [List.mem_singleton.mp hx]
  · rw [trim_eq_since hqueue,since_append_singleton hfresh,since_append_singleton hfresh,h.queue,
      since_since (sub_le_sub_right hnow width)]

end Width

section Median
variable {β : Type*} [LinearOrder β] {values : List β} {v : β}

/-- At most the lower half of the values lies below `v`, at most the upper half above. -/
structure Median (values : List β) (v : β) : Prop where
  mem : v ∈ values
  below : values.countP (fun x => decide (x < v)) ≤ (values.length - 1) / 2
  above : values.countP (fun x => decide (v < x)) ≤ values.length / 2

/-- Fewer than `k + 1` of the values come before the `k`th of them in order. -/
theorem countP_lt_sorted {k : ℕ} (h : values.Pairwise (· ≤ ·)) (hk : values[k]? = some v) :
    values.countP (fun x => decide (x < v)) ≤ k ∧ values.countP (fun x => decide (v < x)) + (k + 1) ≤ values.length := by
  obtain ⟨hlt,hget⟩ := List.getElem?_eq_some_iff.mp hk
  have hsplit : values = values.take k ++ v :: values.drop (k + 1) := by
    rw [← hget,List.getElem_cons_drop,List.take_append_drop]
  have hlength : (values.take k).length = k := List.length_take_of_le hlt.le
  have hpair := h
  rw [hsplit,List.pairwise_append,List.pairwise_cons] at hpair
  obtain ⟨_,⟨hafter,_⟩,hbefore⟩ := hpair
  have hlow : (v :: values.drop (k + 1)).countP (fun x => decide (x < v)) = 0 := by
    rw [List.countP_eq_zero]
    intro x hx
    rcases List.mem_cons.mp hx with rfl | hx
    · simp
    · simpa using hafter x hx
  have hhigh : (values.take k).countP (fun x => decide (v < x)) = 0 := by
    rw [List.countP_eq_zero]
    intro x hx
    simpa using hbefore x hx v List.mem_cons_self
  have hsize : (values.drop (k + 1)).length = values.length - (k + 1) := List.length_drop
  constructor
  · rw [hsplit,List.countP_append,hlow,Nat.add_zero]
    exact List.countP_le_length.trans hlength.le
  · have habove : values.countP (fun x => decide (v < x)) ≤ (values.drop (k + 1)).length := by
      rw [hsplit,List.countP_append,hhigh,Nat.zero_add,List.countP_cons_of_neg (by simp),← hsplit]
      exact List.countP_le_length
    omega

theorem median_of_sorted (h : (values.insertionSort (· ≤ ·))[(values.length - 1) / 2]? = some v) : Median values v := by
  have hperm : (values.insertionSort (· ≤ ·)).Perm values := List.perm_insertionSort _ values
  obtain ⟨hbelow,habove⟩ := countP_lt_sorted (List.pairwise_insertionSort (· ≤ ·) values) h
  rw [hperm.countP_eq] at hbelow habove
  rw [hperm.length_eq] at habove
  exact ⟨hperm.mem_iff.mp (List.mem_of_getElem? h),hbelow,by omega⟩

end Median
end SlidingWindow
