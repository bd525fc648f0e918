import Mathlib.Algebra.Order.BigOperators.Group.List
import Mathlib.Data.Nat.Find

/-! # Running sums and scattered rows

Where the running sums of a list of weights cross a bound, and what a row holds
after values have been written to it at given positions.
-/
namespace Rows
variable {α K : Type*}

/-- The sums of the first entries, on top of `acc`. -/
def cumsum [Add K] : K → List K → List K
  | _, [] => []
  | acc, x :: xs => (acc + x) :: cumsum (acc + x) xs

@[simp] theorem length_cumsum [Add K] (acc : K) (xs : List K) : (cumsum acc xs).length = xs.length := by
  induction xs generalizing acc with
  | nil => rfl
  | cons x xs ih => simp [cumsum,ih]

theorem getElem?_cumsum [AddMonoid K] (acc : K) {xs : List K} {k : ℕ} (hk : k < xs.length) :
    (cumsum acc xs)[k]? = some (acc + (xs.take (k + 1)).sum) := by
  induction xs generalizing acc k with
  | nil => simp at hk
  | cons x xs ih =>
    cases k with
    | zero => simp [cumsum]
    | succ k =>
      rw [cumsum,List.getElem?_cons_succ,ih (acc + x) (Nat.lt_of_succ_lt_succ hk),List.take_succ_cons,List.sum_cons,add_assoc]

section Crossing
variable [AddCommMonoid K] [LinearOrder K]

/-- `k` is the least number of entries whose sum is above the bound. -/
structure Crosses (xs : List K) (bound : K) (k : ℕ) : Prop where
  le_length : k ≤ xs.length
  above : bound < (xs.take k).sum
  below : ∀ m < k, (xs.take m).sum ≤ bound

variable {xs : List K} {bound : K} {k : ℕ}

theorem exists_crosses (h : bound < xs.sum) : ∃ k, Crosses xs bound k := by
  have hex : ∃ k, bound < (xs.take k).sum := ⟨xs.length,by rwa [List.take_length]⟩
  refine ⟨Nat.find hex,?_,Nat.find_spec hex,fun m hm => not_lt.mp (Nat.find_min hex hm)⟩
  exact Nat.find_min' hex (by rwa [List.take_length])

theorem Crosses.pos (h : Crosses xs bound k) (hbound : 0 ≤ bound) : 0 < k := by
  by_contra hk
  have habove := h.above
  rw [Nat.eq_zero_of_not_pos hk,List.take_zero,List.sum_nil] at habove
  exact absurd habove (not_lt.mpr hbound)

theorem sum_take_mono [IsOrderedAddMonoid K] (hxs : ∀ x ∈ xs, 0 ≤ x) {m n : ℕ} (hmn : m ≤ n) :
    (xs.take m).sum ≤ (xs.take n).sum := by
  have hsplit := List.take_append_drop m (xs.take n)
  rw [List.take_take,Nat.min_eq_left hmn] at hsplit
  rw [← hsplit,List.sum_append]
  apply le_add_of_nonneg_right
  apply List.sum_nonneg
  exact fun x hx => hxs x (List.mem_of_mem_take (List.mem_of_mem_drop hx))

theorem Crosses.lt_sum_iff [IsOrderedAddMonoid K] (h : Crosses xs bound k) (hxs : ∀ x ∈ xs, 0 ≤ x) (m : ℕ) :
    bound < (xs.take m).sum ↔ k ≤ m := by
  constructor
  · intro hm
    by_contra hlt
    exact absurd hm (not_lt.mpr (h.below m (Nat.not_le.mp hlt)))
  · exact fun hkm => h.above.trans_le (sum_take_mono hxs hkm)

end Crossing

/-- The entries of a row at the positions `idx`. -/
def gather (row : List α) (idx : List ℕ) : List α := idx.filterMap (fun i => row[i]?)

/-- Write `src` to the positions `idx`, one after the other. -/
def scatter : List α → List ℕ → List α → List α
  | row, i :: idx, x :: src => scatter (row.set i x) idx src
  | row, _, _ => row

variable {row src : List α} {idx : List ℕ} {i j k : ℕ} {x : α}

theorem mem_take_iff {l : List α} (hnd : l.Nodup) (hj : l[j]? = some x) : x ∈ l.take k ↔ j < k := by
  constructor
  · intro hmem
    obtain ⟨m,hm⟩ := List.mem_iff_getElem?.mp hmem
    rw [List.getElem?_take] at hm
    split at hm
    · rename_i hmk
      obtain ⟨hlt,_⟩ := List.getElem?_eq_some_iff.mp hj
      rwa [(List.getElem?_inj hlt hnd).mp (hj.trans hm.symm)]
    · cases hm
  · intro hjk
    exact List.mem_of_getElem? (by rw [List.getElem?_take,if_pos hjk,hj])

theorem getElem?_gather (h : ∀ i ∈ idx, i < row.length) (j : ℕ) :
    (gather row idx)[j]? = idx[j]?.bind (fun i => row[i]?) := by
  induction idx generalizing j with
  | nil => rfl
  | cons i idx ih =>
    have hi := List.getElem?_eq_getElem (h i List.mem_cons_self)
    rw [gather,List.filterMap_cons_some hi]
    cases j with
    | zero => exact hi.symm
    | succ j => exact ih (fun k hk => h k (List.mem_cons_of_mem i hk)) j

theorem length_gather (h : ∀ i ∈ idx, i < row.length) : (gather row idx).length = idx.length := by
  induction idx with
  | nil => rfl
  | cons i idx ih =>
    have hi := List.getElem?_eq_getElem (h i List.mem_cons_self)
    rw [gather,List.filterMap_cons_some hi,List.length_cons,List.length_cons]
    exact congrArg (· + 1) (ih (fun k hk => h k (List.mem_cons_of_mem i hk)))

@[simp] theorem length_scatter (row : List α) (idx : List ℕ) (src : List α) :
    (scatter row idx src).length = row.length := by
  induction idx generalizing row src with
  | nil => cases src <;> rfl
  | cons i idx ih =>
    cases src with
    | nil => rfl
    | cons x src => rw [scatter,ih,List.length_set]

theorem getElem?_scatter_of_notMem (h : i ∉ idx) : (scatter row idx src)[i]? = row[i]? := by
  induction idx generalizing row src with
  | nil => cases src <;> rfl
  | cons k idx ih =>
    rw [List.mem_cons,not_or] at h
    cases src with
    | nil => rfl
    | cons x src => rw [scatter,ih h.2,List.getElem?_set_ne (Ne.symm h.1)]

theorem getElem?_scatter (hnd : idx.Nodup) (hi : idx[j]? = some i) (hx : src[j]? = some x) (hlt : i < row.length) :
    (scatter row idx src)[i]? = some x := by
  induction idx generalizing row src j with
  | nil => simp at hi
  | cons k idx ih =>
    obtain ⟨hk,hnd⟩ := List.nodup_cons.mp hnd
    cases src with
    | nil => simp at hx
    | cons y src =>
      rw [scatter]
      cases j with
      | zero =>
        cases hi
        cases hx
        rw [getElem?_scatter_of_notMem hk,List.getElem?_set_self hlt]
      | succ j => exact ih hnd hi hx (by rwa [List.length_set])

end Rows
