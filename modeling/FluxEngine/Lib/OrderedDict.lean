import Mathlib.Data.List.Basic
import Mathlib.Data.List.Nodup
import Mathlib.Algebra.BigOperators.Group.List.Basic
import Mathlib.Algebra.GroupWithZero.Nat

/-! # Insertion-ordered dictionaries

Overwriting a key keeps its position and a fresh key goes to the end, so that
iteration visits the keys in the order of their first insertion.  The weight
lemmas say how a sum over all bindings moves with one update.
-/

/-- Bindings in insertion order, no key twice. -/
structure OrderedDict (κ ν : Type*) where
  entries : List (κ × ν)
  nodup : (entries.map Prod.fst).Nodup

namespace OrderedDict
variable {κ ν : Type*}

def empty : OrderedDict κ ν := ⟨[],List.nodup_nil⟩

instance : Inhabited (OrderedDict κ ν) := ⟨empty⟩

def keys (d : OrderedDict κ ν) : List κ := d.entries.map Prod.fst
def values (d : OrderedDict κ ν) : List ν := d.entries.map Prod.snd
def size (d : OrderedDict κ ν) : ℕ := d.entries.length

variable [DecidableEq κ]

/-- Value of the first binding of a key in a list of bindings. -/
def find (k : κ) : List (κ × ν) → Option ν
  | [] => none
  | p :: rest => if p.1 = k then some p.2 else find k rest

/-- Overwrite the binding of a key in place, or append it. -/
def put (k : κ) (v : ν) : List (κ × ν) → List (κ × ν)
  | [] => [(k,v)]
  | p :: rest => if p.1 = k then (k,v) :: rest else p :: put k v rest

theorem map_fst_put (k : κ) (v : ν) (l : List (κ × ν)) :
    (put k v l).map Prod.fst = if k ∈ l.map Prod.fst then l.map Prod.fst else l.map Prod.fst ++ [k] := by
  induction l with
  | nil => simp [put]
  | cons p rest ih =>
    unfold put
    by_cases hp : p.1 = k
    · simp [hp]
    · have hk : k ≠ p.1 := fun h => hp h.symm
      simp only [if_neg hp, List.map_cons, ih, List.mem_cons, hk, false_or]
      split <;> rfl

theorem nodup_put (k : κ) (v : ν) {l : List (κ × ν)} (h : (l.map Prod.fst).Nodup) :
    ((put k v l).map Prod.fst).Nodup := by
  rw [map_fst_put]
  split
  · exact h
  · rename_i hk
    exact List.nodup_append.mpr ⟨h,List.nodup_singleton k,by
      intro a ha b hb
      rw [List.mem_singleton.mp hb]
      exact fun hab => hk (hab ▸ ha)⟩

def get? (d : OrderedDict κ ν) (k : κ) : Option ν := find k d.entries

def set (d : OrderedDict κ ν) (k : κ) (v : ν) : OrderedDict κ ν :=
  ⟨put k v d.entries,nodup_put k v d.nodup⟩

def pop (d : OrderedDict κ ν) (k : κ) : OrderedDict κ ν :=
  ⟨d.entries.filter (fun p => p.1 ≠ k),
    d.nodup.sublist (List.Sublist.map Prod.fst List.filter_sublist)⟩

@[simp] theorem get?_empty (k : κ) : (empty : OrderedDict κ ν).get? k = none := rfl
omit [DecidableEq κ] in
@[simp] theorem entries_empty : (empty : OrderedDict κ ν).entries = [] := rfl
omit [DecidableEq κ] in
@[simp] theorem keys_empty : (empty : OrderedDict κ ν).keys = [] := rfl

@[simp] theorem get?_set_self (d : OrderedDict κ ν) (k : κ) (v : ν) : (d.set k v).get? k = some v := by
  have h : ∀ l : List (κ × ν), find k (put k v l) = some v := by
    intro l
    induction l with
    | nil => simp [put,find]
    | cons p rest ih =>
      unfold put
      by_cases hp : p.1 = k
      · simp [hp,find]
      · simp [hp,find,ih]
  exact h d.entries

theorem get?_set_ne (d : OrderedDict κ ν) {k k' : κ} (v : ν) (hk : k' ≠ k) :
    (d.set k v).get? k' = d.get? k' := by
  have h : ∀ l : List (κ × ν), find k' (put k v l) = find k' l := by
    intro l
    induction l with
    | nil => simp [put,find,Ne.symm hk]
    | cons p rest ih =>
      unfold put
      by_cases hp : p.1 = k
      · simp [hp,find,Ne.symm hk]
      · simp [hp,find,ih]
  exact h d.entries

theorem get?_set (d : OrderedDict κ ν) (k k' : κ) (v : ν) :
    (d.set k v).get? k' = if k' = k then some v else d.get? k' := by
  by_cases h : k' = k
  · subst h
    simp
  · simp [h,get?_set_ne d v h]

theorem find_filter_ne (k k' : κ) (l : List (κ × ν)) :
    find k' (l.filter (fun p => p.1 ≠ k)) = if k' = k then none else find k' l := by
  induction l with
  | nil => simp [find]
  | cons p rest ih =>
    by_cases hp : p.1 = k
    · rw [List.filter_cons_of_neg (by simp [hp]),ih]
      by_cases hk : k' = k
      · simp [hk]
      · simp [hk,find,hp,Ne.symm hk]
    · rw [List.filter_cons_of_pos (by simp [hp])]
      by_cases hk : k' = k
      · subst hk
        simpa [find,hp] using ih
      · simp only [if_neg hk] at ih ⊢
        simp only [find,ih]

theorem get?_pop (d : OrderedDict κ ν) (k k' : κ) :
    (d.pop k).get? k' = if k' = k then none else d.get? k' := find_filter_ne k k' d.entries

@[simp] theorem get?_pop_self (d : OrderedDict κ ν) (k : κ) : (d.pop k).get? k = none := by
  simp [get?_pop]

theorem find_eq_some_iff {l : List (κ × ν)} (h : (l.map Prod.fst).Nodup) {k : κ} {v : ν} :
    find k l = some v ↔ (k,v) ∈ l := by
  induction l with
  | nil => simp [find]
  | cons p rest ih =>
    rw [List.map_cons,List.nodup_cons] at h
    by_cases hp : p.1 = k
    · have hn : (k,v) ∉ rest := fun hm => h.1 (hp ▸ List.mem_map_of_mem (f := Prod.fst) hm)
      simp only [find,if_pos hp,Option.some.injEq,List.mem_cons,hn,or_false]
      constructor
      · rintro rfl
        exact Prod.ext hp.symm rfl
      · intro he
        rw [← he]
    · have hne : (k,v) ≠ p := fun he => hp (he ▸ rfl)
      simp [find,hp,ih h.2,hne]

theorem get?_eq_some_iff (d : OrderedDict κ ν) {k : κ} {v : ν} : d.get? k = some v ↔ (k,v) ∈ d.entries :=
  find_eq_some_iff d.nodup

theorem mem_keys_iff (d : OrderedDict κ ν) {k : κ} : k ∈ d.keys ↔ ∃ v, d.get? k = some v := by
  simp only [get?_eq_some_iff,keys,List.mem_map,Prod.exists,exists_and_right,exists_eq_right]

theorem get?_eq_none_iff (d : OrderedDict κ ν) {k : κ} : d.get? k = none ↔ k ∉ d.keys := by
  rw [mem_keys_iff,not_exists,Option.eq_none_iff_forall_not_mem]
  exact Iff.rfl

theorem mem_values_iff (d : OrderedDict κ ν) {v : ν} : v ∈ d.values ↔ ∃ k, d.get? k = some v := by
  simp only [get?_eq_some_iff,values,List.mem_map,Prod.exists,exists_eq_right]

omit [DecidableEq κ] in
theorem keys_nodup (d : OrderedDict κ ν) : d.keys.Nodup := d.nodup

theorem size_set_of_none (d : OrderedDict κ ν) {k : κ} (v : ν) (h : d.get? k = none) :
    (d.set k v).size = d.size + 1 := by
  have hk : k ∉ d.entries.map Prod.fst := d.get?_eq_none_iff.mp h
  have hm := congrArg List.length (map_fst_put k v d.entries)
  simpa [hk,size,set] using hm

theorem size_set_of_some (d : OrderedDict κ ν) {k : κ} {w : ν} (v : ν) (h : d.get? k = some w) :
    (d.set k v).size = d.size := by
  have hk : k ∈ d.entries.map Prod.fst := d.mem_keys_iff.mpr ⟨w,h⟩
  have hm := congrArg List.length (map_fst_put k v d.entries)
  simpa [hk,size,set] using hm

theorem values_set_of_none (d : OrderedDict κ ν) {k : κ} (v : ν) (h : d.get? k = none) :
    (d.set k v).values = d.values ++ [v] := by
  have hl : ∀ l : List (κ × ν), find k l = none → (put k v l).map Prod.snd = l.map Prod.snd ++ [v] := by
    intro l
    induction l with
    | nil => simp [put]
    | cons p rest ih =>
      intro hn
      by_cases hp : p.1 = k
      · simp [find,hp] at hn
      · simp only [find,if_neg hp] at hn
        simp only [put,if_neg hp,List.map_cons,ih hn,List.cons_append]
  exact hl d.entries h

theorem values_pop (d : OrderedDict κ ν) {key : ν → κ} (hkey : ∀ k v, d.get? k = some v → key v = k) (k : κ) :
    (d.pop k).values = d.values.filter (fun v => key v ≠ k) := by
  unfold values pop
  rw [List.filter_map]
  refine congrArg (List.map Prod.snd) (List.filter_congr ?_)
  intro p hp
  simp only [Function.comp_apply,hkey p.1 p.2 (d.get?_eq_some_iff.mpr hp)]

theorem size_pop_le (d : OrderedDict κ ν) (k : κ) : (d.pop k).size ≤ d.size :=
  List.length_filter_le _ _

theorem pop_of_none (d : OrderedDict κ ν) {k : κ} (h : d.get? k = none) : d.pop k = d := by
  have hk : k ∉ d.entries.map Prod.fst := d.get?_eq_none_iff.mp h
  have hf : d.entries.filter (fun p => p.1 ≠ k) = d.entries := by
    apply List.filter_eq_self.mpr
    intro p hp
    simpa using fun he : p.1 = k => hk (he ▸ List.mem_map_of_mem (f := Prod.fst) hp)
  cases d
  simpa only [pop,mk.injEq] using hf

def weight (f : κ → ν → ℕ) (d : OrderedDict κ ν) : ℕ := (d.entries.map (fun p => f p.1 p.2)).sum

omit [DecidableEq κ] in
@[simp] theorem weight_empty (f : κ → ν → ℕ) : weight f empty = 0 := rfl

theorem weight_set_of_none (f : κ → ν → ℕ) (d : OrderedDict κ ν) {k : κ} (v : ν) (h : d.get? k = none) :
    weight f (d.set k v) = weight f d + f k v := by
  have hl : ∀ l : List (κ × ν), find k l = none →
      ((put k v l).map (fun p => f p.1 p.2)).sum = (l.map (fun p => f p.1 p.2)).sum + f k v := by
    intro l
    induction l with
    | nil => simp [put]
    | cons p rest ih =>
      intro hn
      by_cases hp : p.1 = k
      · simp [find,hp] at hn
      · simp only [find,if_neg hp] at hn
        simp only [put,if_neg hp,List.map_cons,List.sum_cons,ih hn]
        omega
  exact hl d.entries h

theorem weight_set_of_some (f : κ → ν → ℕ) (d : OrderedDict κ ν) {k : κ} {w : ν} (v : ν)
    (h : d.get? k = some w) : weight f (d.set k v) + f k w = weight f d + f k v := by
  have hl : ∀ l : List (κ × ν), find k l = some w →
      ((put k v l).map (fun p => f p.1 p.2)).sum + f k w =
        (l.map (fun p => f p.1 p.2)).sum + f k v := by
    intro l
    induction l with
    | nil => simp [find]
    | cons p rest ih =>
      intro hs
      by_cases hp : p.1 = k
      · simp only [find,if_pos hp,Option.some.injEq] at hs
        simp only [put,if_true,List.map_cons,List.sum_cons,← hs,hp]
        omega
      · simp only [find,if_neg hp] at hs
        have := ih hs
        simp only [put,if_neg hp,List.map_cons,List.sum_cons]
        omega
  exact hl d.entries h

theorem weight_pop_of_some (f : κ → ν → ℕ) (d : OrderedDict κ ν) {k : κ} {w : ν}
    (h : d.get? k = some w) : weight f (d.pop k) + f k w = weight f d := by
  have hl : ∀ l : List (κ × ν), (l.map Prod.fst).Nodup → find k l = some w →
      ((l.filter (fun p => p.1 ≠ k)).map (fun p => f p.1 p.2)).sum + f k w =
        (l.map (fun p => f p.1 p.2)).sum := by
    intro l
    induction l with
    | nil => simp [find]
    | cons p rest ih =>
      intro hnd hs
      rw [List.map_cons,List.nodup_cons] at hnd
      by_cases hp : p.1 = k
      · simp only [find,if_pos hp,Option.some.injEq] at hs
        have hf : rest.filter (fun p => p.1 ≠ k) = rest := by
          apply List.filter_eq_self.mpr
          intro q hq
          simpa using fun he : q.1 = k =>
            hnd.1 (hp ▸ he ▸ List.mem_map_of_mem (f := Prod.fst) hq)
        rw [List.filter_cons_of_neg (by simp [hp]),hf,List.map_cons,List.sum_cons,← hs,hp]
        omega
      · simp only [find,if_neg hp] at hs
        have := ih hnd.2 hs
        rw [List.filter_cons_of_pos (by simp [hp]),List.map_cons,List.map_cons,List.sum_cons,List.sum_cons]
        omega
  exact hl d.entries d.nodup h

theorem size_pop_of_some (d : OrderedDict κ ν) {k : κ} {w : ν} (h : d.get? k = some w) :
    (d.pop k).size + 1 = d.size := by
  have hsize : ∀ d : OrderedDict κ ν, weight (fun _ _ => 1) d = d.size := by
    intro d
    simp [weight,size]
  rw [← hsize,← hsize]
  exact weight_pop_of_some (fun _ _ => 1) d h

theorem le_weight (f : κ → ν → ℕ) (d : OrderedDict κ ν) {k : κ} {v : ν} (h : d.get? k = some v) :
    f k v ≤ weight f d := by
  have := weight_pop_of_some f d h
  omega

theorem weight_eq_zero_iff (f : κ → ν → ℕ) (d : OrderedDict κ ν) :
    weight f d = 0 ↔ ∀ k v, d.get? k = some v → f k v = 0 := by
  constructor
  · intro h k v hv
    have := le_weight f d hv
    omega
  · intro h
    apply List.sum_eq_zero
    intro x hx
    obtain ⟨⟨k,v⟩,hp,rfl⟩ := List.mem_map.mp hx
    exact h k v (d.get?_eq_some_iff.mpr hp)

theorem weight_eq_of_map {μ : Type*} {g : ν → μ} (f : κ → μ → ℕ) {d d' : OrderedDict κ ν}
    (h : ∀ k, (d'.get? k).map g = (d.get? k).map g) :
    weight (fun k v => f k (g v)) d' = weight (fun k v => f k (g v)) d := by
  have hmem : ∀ (d : OrderedDict κ ν) (q : κ × μ),
      q ∈ d.entries.map (fun p => (p.1,g p.2)) ↔ (d.get? q.1).map g = some q.2 := by
    rintro d ⟨k,m⟩
    simp only [List.mem_map,Prod.exists,Prod.mk.injEq,Option.map_eq_some_iff,get?_eq_some_iff]
    constructor
    · rintro ⟨_,v,hv,rfl,hm⟩
      exact ⟨v,hv,hm⟩
    · rintro ⟨v,hv,hm⟩
      exact ⟨k,v,hv,rfl,hm⟩
  have hnd : ∀ d : OrderedDict κ ν, (d.entries.map (fun p => (p.1,g p.2))).Nodup := by
    intro d
    refine List.Nodup.of_map Prod.fst ?_
    rw [List.map_map]
    exact d.nodup
  have hperm : (d'.entries.map (fun p => (p.1,g p.2))).Perm (d.entries.map (fun p => (p.1,g p.2))) := by
    refine (List.perm_ext_iff_of_nodup (hnd d') (hnd d)).mpr ?_
    intro q
    rw [hmem d',hmem d,h]
  have hsum := (hperm.map (fun q => f q.1 q.2)).sum_eq
  rw [List.map_map,List.map_map] at hsum
  exact hsum

end OrderedDict
