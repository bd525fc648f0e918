import Mathlib.Algebra.BigOperators.Ring.List
import Mathlib.Algebra.Field.Rat
import Mathlib.Algebra.Order.Field.Basic
import Mathlib.Algebra.Order.Ring.Rat
import Mathlib.Data.List.Sort
import Mathlib.Tactic.Positivity
import FluxEngine.Engine.Sequence
import FluxEngine.Lib.Rows

/-! # Nucleus sampling

The sort and the softmax of the tensor library are parameters: any descending
order of the row, and any map to probabilities that keeps the order.
-/
namespace FluxEngine

/-- `torch.sort(..., descending=True)`, in whatever order it leaves ties. -/
structure DescendingSort (R : Type) [LinearOrder R] where
  indices : List R → List ℕ
  perm : ∀ row, (indices row).Perm (List.range row.length)
  sorted : ∀ row, (indices row).Pairwise (fun i j => ∀ x ∈ row[i]?, ∀ y ∈ row[j]?, y ≤ x)

/-- `torch.softmax` on a row. -/
structure ProbabilityMap (R K : Type) [LinearOrder R] [Field K] [LinearOrder K] where
  probs : List R → List K
  length_probs : ∀ row, (probs row).length = row.length
  nonneg : ∀ row, ∀ p ∈ probs row, 0 ≤ p
  sum_probs : ∀ row, row ≠ [] → (probs row).sum = 1
  strict : ∀ {row : List R} {i j : ℕ} {x y : R} {p q : K}, row[i]? = some x → row[j]? = some y →
    (probs row)[i]? = some p → (probs row)[j]? = some q → x < y → p < q

variable {R K : Type} [LinearOrder R] [Field K] [LinearOrder K]

def DescendingSort.values (sort : DescendingSort R) (row : List R) : List R := Rows.gather row (sort.indices row)

/-- `masked_fill(mask, float("-inf"))`. -/
def maskedFill (mask : List Bool) (row : List R) : List (WithBot R) :=
  List.zipWith (fun masked x => if masked then ⊥ else (x : WithBot R)) mask row

/-- `_nucleus_mask_row`. -/
def nucleusMaskRow (sort : DescendingSort R) (softmax : ProbabilityMap R K) (row : List R) (topP : K) :
    Except Exc (List (WithBot R)) :=
  let sortedLogits := sort.values row
  let sortedIdx := sort.indices row
  let cumulative := Rows.cumsum 0 (softmax.probs sortedLogits)
  let remove := cumulative.map (fun p => decide (topP < p))
  -- the mask moves right, so that the token which crosses the threshold stays
  let shifted := remove.take 1 ++ remove.dropLast
  if shifted = [] then .error "index 0 is out of bounds for dimension 0 with size 0"
  else .ok (Rows.scatter (List.replicate row.length ⊥) sortedIdx (maskedFill (shifted.set 0 false) sortedLogits))

/-- A sort that leaves ties in their order. -/
def DescendingSort.stable [Inhabited R] : DescendingSort R where
  indices row := (List.range row.length).insertionSort (fun i j => row.getD j default ≤ row.getD i default)
  perm _ := List.perm_insertionSort _ _
  sorted row := by
    have htotal : Std.Total (fun i j => row.getD j default ≤ row.getD i default) := ⟨fun _ _ => le_total _ _⟩
    have htrans : IsTrans ℕ (fun i j => row.getD j default ≤ row.getD i default) :=
      ⟨fun _ _ _ hij hjk => hjk.trans hij⟩
    refine (List.pairwise_insertionSort (fun i j => row.getD j default ≤ row.getD i default) _).imp ?_
    intro i j hij x hx y hy
    rwa [List.getD_eq_getElem?_getD,List.getD_eq_getElem?_getD,hx,hy] at hij

/-- Weights that grow with the logits, over their sum; `torch.softmax` has the exponential. -/
def ProbabilityMap.ofWeight [IsStrictOrderedRing K] (weight : R → K) (hpos : ∀ x, 0 < weight x)
    (hmono : StrictMono weight) : ProbabilityMap R K where
  probs row := row.map (fun x => weight x / (row.map weight).sum)
  length_probs row := List.length_map _
  nonneg row := by
    intro p hp
    obtain ⟨x,_,rfl⟩ := List.mem_map.mp hp
    refine div_nonneg (hpos x).le (List.sum_nonneg ?_)
    intro q hq
    obtain ⟨y,_,rfl⟩ := List.mem_map.mp hq
    exact (hpos y).le
  sum_probs row hrow := by
    have hsum : 0 < (row.map weight).sum := List.sum_pos _ (by simpa using fun x _ => hpos x) (by simpa using hrow)
    simp only [div_eq_mul_inv]
    rw [List.sum_map_mul_right,mul_inv_cancel₀ hsum.ne']
  strict {row i j x y p q} hx hy hp hq hxy := by
    have hrow : row ≠ [] := List.ne_nil_of_mem (List.mem_of_getElem? hx)
    have hsum : 0 < (row.map weight).sum := List.sum_pos _ (by simpa using fun x _ => hpos x) (by simpa using hrow)
    rw [List.getElem?_map,hx] at hp
    rw [List.getElem?_map,hy] at hq
    cases hp
    cases hq
    exact div_lt_div_of_pos_right (hmono hxy) hsum

namespace DescendingSort
variable (sort : DescendingSort R) (row : List R)

theorem lt_length {i : ℕ} (h : i ∈ sort.indices row) : i < row.length :=
  List.mem_range.mp ((sort.perm row).mem_iff.mp h)

theorem nodup : (sort.indices row).Nodup := (sort.perm row).nodup_iff.mpr List.nodup_range

theorem length_indices : (sort.indices row).length = row.length := by
  rw [(sort.perm row).length_eq,List.length_range]

@[simp] theorem length_values : (sort.values row).length = row.length := by
  rw [values,Rows.length_gather (fun i => sort.lt_length row),sort.length_indices]

variable {sort row}

theorem exists_place {i : ℕ} {x : R} (h : row[i]? = some x) :
    ∃ j : ℕ, (sort.indices row)[j]? = some i ∧ (sort.values row)[j]? = some x := by
  obtain ⟨hi,_⟩ := List.getElem?_eq_some_iff.mp h
  obtain ⟨j,hj⟩ := List.mem_iff_getElem?.mp ((sort.perm row).mem_iff.mpr (List.mem_range.mpr hi))
  refine ⟨j,hj,?_⟩
  rw [values,Rows.getElem?_gather (fun i => sort.lt_length row),hj,Option.bind_some,h]

theorem le_of_lt {i j a b : ℕ} {x y : R} (hij : i < j) (hi : (sort.indices row)[i]? = some a)
    (hj : (sort.indices row)[j]? = some b) (hx : row[a]? = some x) (hy : row[b]? = some y) : y ≤ x := by
  obtain ⟨hi',rfl⟩ := List.getElem?_eq_some_iff.mp hi
  obtain ⟨hj',rfl⟩ := List.getElem?_eq_some_iff.mp hj
  exact List.pairwise_iff_getElem.mp (sort.sorted row) i j hi' hj' hij x hx y hy

end DescendingSort

omit [LinearOrder R] in
theorem getElem?_maskedFill {mask : List Bool} {row : List R} {j : ℕ} {masked : Bool} {x : R}
    (hm : mask[j]? = some masked) (hx : row[j]? = some x) :
    (maskedFill mask row)[j]? = some (if masked then ⊥ else (x : WithBot R)) := by
  rw [maskedFill,List.getElem?_zipWith,hm,hx]

section Mask
variable [IsOrderedAddMonoid K] {probs : List K} {topP : K} {k j : ℕ}

theorem getElem?_shifted (h : Rows.Crosses probs topP k) (hprobs : ∀ p ∈ probs, 0 ≤ p) (htop : 0 ≤ topP)
    (hj : j < probs.length) :
    let remove := (Rows.cumsum 0 probs).map (fun p => decide (topP < p))
    ((remove.take 1 ++ remove.dropLast).set 0 false)[j]? = some (decide (k ≤ j)) := by
  intro remove
  have hlen : remove.length = probs.length := by rw [List.length_map,Rows.length_cumsum]
  have htake : (remove.take 1).length = 1 := by rw [List.length_take,hlen]; omega
  cases j with
  | zero =>
    rw [List.getElem?_set_self (by rw [List.length_append,htake]; omega)]
    rw [decide_eq_false (Nat.not_le.mpr (h.pos htop))]
  | succ j =>
    have hj' : j < probs.length := Nat.lt_of_succ_lt hj
    have hsum := Rows.getElem?_cumsum 0 hj'
    rw [List.getElem?_set_ne (Nat.succ_ne_zero j).symm,List.getElem?_append_right (by omega),htake,Nat.succ_sub_one,
      List.getElem?_dropLast,hlen,if_pos (by omega),List.getElem?_map,hsum,Option.map_some,zero_add]
    exact congrArg some (decide_eq_decide.mpr (h.lt_sum_iff hprobs (j + 1)))

end Mask

section Nucleus
variable [IsStrictOrderedRing K] {sort : DescendingSort R} {softmax : ProbabilityMap R K} {row : List R} {topP : K}

/-- Where the cumulative probability crosses the threshold, the first `k` ids of the
order keep their logits and the others are masked. -/
theorem nucleusMaskRow_of_crosses {k : ℕ} (h : Rows.Crosses (softmax.probs (sort.values row)) topP k)
    (hrow : row ≠ []) (htop : 0 ≤ topP) : ∃ restored, nucleusMaskRow sort softmax row topP = .ok restored ∧
      restored.length = row.length ∧ ∀ (i : ℕ) (x : R), row[i]? = some x →
        restored[i]? = some (if i ∈ (sort.indices row).take k then (x : WithBot R) else ⊥) := by
  have hlen : (softmax.probs (sort.values row)).length = row.length := by
    rw [softmax.length_probs,sort.length_values]
  have hpos : 0 < row.length := List.length_pos_iff.mpr hrow
  unfold nucleusMaskRow
  simp only
  rw [if_neg]
  · refine ⟨_,rfl,?_,?_⟩
    · rw [Rows.length_scatter,List.length_replicate]
    · intro i x hx
      obtain ⟨j,hj,hv⟩ := sort.exists_place hx
      obtain ⟨hi,_⟩ := List.getElem?_eq_some_iff.mp hx
      have hjlt : j < (softmax.probs (sort.values row)).length := by
        rw [hlen,← sort.length_indices]
        exact (List.getElem?_eq_some_iff.mp hj).1
      have hmask := getElem?_shifted h (softmax.nonneg _) htop hjlt
      rw [Rows.getElem?_scatter (sort.nodup row) hj (getElem?_maskedFill hmask hv) (by rwa [List.length_replicate])]
      by_cases hkj : k ≤ j
      · rw [decide_eq_true hkj,if_pos rfl,if_neg]
        rw [Rows.mem_take_iff (sort.nodup row) hj]
        exact Nat.not_lt.mpr hkj
      · rw [decide_eq_false hkj,if_neg Bool.false_ne_true,if_pos]
        exact (Rows.mem_take_iff (sort.nodup row) hj).mpr (Nat.not_le.mp hkj)
  · intro hnil
    have hlength := congrArg List.length hnil
    simp only [List.length_append,List.length_take,List.length_dropLast,List.length_map,Rows.length_cumsum,hlen,
      List.length_nil] at hlength
    omega

theorem DescendingSort.exists_best (sort : DescendingSort R) (hrow : row ≠ []) :
    ∃ (best : ℕ) (x : R), (sort.indices row)[0]? = some best ∧ row[best]? = some x ∧ ∀ y ∈ row, y ≤ x := by
  have hpos : 0 < (sort.indices row).length := by
    rw [sort.length_indices]
    exact List.length_pos_iff.mpr hrow
  have hbest := List.getElem?_eq_getElem hpos
  have hlt := sort.lt_length row (List.getElem_mem hpos)
  refine ⟨_,_,hbest,List.getElem?_eq_getElem hlt,?_⟩
  intro y hy
  obtain ⟨i,hi⟩ := List.mem_iff_getElem?.mp hy
  obtain ⟨j,hj,_⟩ := sort.exists_place hi
  rcases Nat.eq_zero_or_pos j with rfl | hj0
  · rw [hbest] at hj
    cases hj
    rw [List.getElem?_eq_getElem hlt] at hi
    exact (Option.some.inj hi).ge
  · exact sort.le_of_lt hj0 hbest hj (List.getElem?_eq_getElem hlt) hi

/-- `_nucleus_mask_row` keeps the first `k` ids of the descending order for the least
`k` whose cumulative probability exceeds `top_p`, with their own logits, and masks
the others. -/
theorem nucleusMaskRow_keeps_nucleus (sort : DescendingSort R) (softmax : ProbabilityMap R K) (hrow : row ≠ [])
    (h0 : 0 < topP) (h1 : topP < 1) :
    ∃ restored k, nucleusMaskRow sort softmax row topP = .ok restored ∧ restored.length = row.length ∧
      (∀ (i : ℕ) (x : R), row[i]? = some x →
        restored[i]? = some (if i ∈ (sort.indices row).take k then (x : WithBot R) else ⊥)) ∧
      topP < ((softmax.probs (sort.values row)).take k).sum ∧
      (∀ m < k, ((softmax.probs (sort.values row)).take m).sum ≤ topP) ∧
      (∃ (best : ℕ) (x : R), best ∈ (sort.indices row).take k ∧ row[best]? = some x ∧ ∀ y ∈ row, y ≤ x) ∧
      ∀ (i j : ℕ) (x y : R), row[i]? = some x → row[j]? = some y →
        restored[i]? ≠ some ⊥ → restored[j]? = some ⊥ → y ≤ x := by
  have hvalues : sort.values row ≠ [] := by
    rw [← List.length_pos_iff,sort.length_values]
    exact List.length_pos_iff.mpr hrow
  obtain ⟨k,hk⟩ := Rows.exists_crosses (h1.trans_eq (softmax.sum_probs _ hvalues).symm)
  obtain ⟨restored,hok,hlen,hentry⟩ := nucleusMaskRow_of_crosses hk hrow h0.le
  obtain ⟨best,x,hbest,hx,hmax⟩ := sort.exists_best hrow
  refine ⟨restored,k,hok,hlen,hentry,hk.above,hk.below,⟨best,x,?_,hx,hmax⟩,?_⟩
  · exact (Rows.mem_take_iff (sort.nodup row) hbest).mpr (hk.pos h0.le)
  · intro i j x y hx hy hkept hmasked
    obtain ⟨a,ha,_⟩ := sort.exists_place hx
    obtain ⟨b,hb,_⟩ := sort.exists_place hy
    rw [hentry i x hx] at hkept
    rw [hentry j y hy] at hmasked
    have hak : a < k := by
      by_contra hnot
      rw [if_neg (fun hmem => hnot ((Rows.mem_take_iff (sort.nodup row) ha).mp hmem))] at hkept
      exact hkept rfl
    have hkb : k ≤ b := by
      by_contra hnot
      rw [if_pos ((Rows.mem_take_iff (sort.nodup row) hb).mpr (Nat.not_le.mp hnot))] at hmasked
      exact WithBot.coe_ne_bot (Option.some.inj hmasked)
    exact sort.le_of_lt (hak.trans_le hkb) ha hb hx hy

end Nucleus

/-- The logit plus one as the weight. -/
def ProbabilityMap.succ : ProbabilityMap ℕ ℚ :=
  .ofWeight (fun n => (n : ℚ) + 1) (fun n => n.cast_add_one_pos)
    (fun _ _ h => add_lt_add_left (Nat.cast_lt.mpr h) 1)

/-- Of three tokens the best one has less than half of the probability. -/
theorem nucleusMaskRow_keeps_two : ∃ restored k,
    nucleusMaskRow .stable ProbabilityMap.succ [2,5,3] (1 / 2) = .ok restored ∧
      restored = [⊥,((5 : ℕ) : WithBot ℕ),((3 : ℕ) : WithBot ℕ)] ∧
      1 / 2 < ((ProbabilityMap.succ.probs [5,3,2]).take k).sum := by
  obtain ⟨restored,k,hok,_,_,habove,_⟩ :=
    nucleusMaskRow_keeps_nucleus .stable .succ (by decide : [2,5,3] ≠ []) (half_pos one_pos) one_half_lt_one
  have heval : (nucleusMaskRow .stable ProbabilityMap.succ [2,5,3] (1 / 2)).toOption =
      some [⊥,((5 : ℕ) : WithBot ℕ),((3 : ℕ) : WithBot ℕ)] := by decide +kernel
  have hsame : restored = [⊥,((5 : ℕ) : WithBot ℕ),((3 : ℕ) : WithBot ℕ)] := by
    rw [hok] at heval
    exact Option.some.inj heval
  exact ⟨restored,k,hok,hsame,habove⟩

/-- The row whose softmax `sample_logits` draws from at a positive temperature. -/
def sampledRow (sort : DescendingSort K) (softmax : ProbabilityMap K K) (row : List K) (temperature topP : K) :
    Except Exc (List (WithBot K)) :=
  let scaled := row.map (fun x => x / max temperature (1 / 10 ^ 8))
  if 0 < topP ∧ topP < 1 then nucleusMaskRow sort softmax scaled topP
  else .ok (scaled.map WithBot.some)

/-- Whatever the temperature and the threshold, a token with the largest logit can be drawn. -/
theorem sampledRow_keeps_best [IsStrictOrderedRing K] (sort : DescendingSort K) (softmax : ProbabilityMap K K)
    {row : List K} (hrow : row ≠ []) (temperature topP : K) :
    ∃ (restored : List (WithBot K)) (best : ℕ) (x : K),
      sampledRow sort softmax row temperature topP = .ok restored ∧ row[best]? = some x ∧ (∀ y ∈ row, y ≤ x) ∧
      restored[best]? = some ((x / max temperature (1 / 10 ^ 8) : K) : WithBot K) := by
  have hscale : 0 < max temperature (1 / 10 ^ 8) := lt_max_of_lt_right (by positivity)
  have hscaled : row.map (fun x => x / max temperature (1 / 10 ^ 8)) ≠ [] := by simpa using hrow
  obtain ⟨best,_,hbest,hy,hmax⟩ := sort.exists_best hscaled
  obtain ⟨x,hx,rfl⟩ := Option.map_eq_some_iff.mp ((List.getElem?_map ..).symm.trans hy)
  have hlargest : ∀ y ∈ row, y ≤ x := by
    intro y hmem
    have hle := hmax _ (List.mem_map_of_mem hmem)
    exact (div_le_div_iff_of_pos_right hscale).mp hle
  unfold sampledRow
  simp only
  split
  · rename_i htop
    have hvalues : sort.values (row.map (fun x => x / max temperature (1 / 10 ^ 8))) ≠ [] := by
      rw [← List.length_pos_iff,sort.length_values]
      exact List.length_pos_iff.mpr hscaled
    obtain ⟨k,hk⟩ := Rows.exists_crosses (htop.2.trans_eq (softmax.sum_probs _ hvalues).symm)
    obtain ⟨restored,hok,_,hentry⟩ := nucleusMaskRow_of_crosses hk hscaled htop.1.le
    have hkept := (Rows.mem_take_iff (sort.nodup _) hbest).mpr (hk.pos htop.1.le)
    have hrestored := hentry best _ hy
    rw [if_pos hkept] at hrestored
    exact ⟨restored,best,x,hok,hx,hlargest,hrestored⟩
  · refine ⟨_,best,x,rfl,hx,hlargest,?_⟩
    rw [List.getElem?_map,hy,Option.map_some]

end FluxEngine
