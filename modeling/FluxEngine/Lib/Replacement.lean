import Mathlib.Data.List.Nodup
import Mathlib.Data.List.Infix
import Mathlib.Data.List.Sort
import Mathlib.Data.Nat.Notation
import Mathlib.Order.Basic

/-! # First-in first-out replacement

A store with a bounded number of slots fills the free ones and then replaces what
has been in it longest.  Requests for what is in the store change nothing.
-/
namespace Replacement
variable {α : Type*} [DecidableEq α]

/-- The free slots, and what the others hold in the order in which it leaves. -/
structure Slots (α : Type*) where
  free : ℕ
  order : List α

inductive Turn (α : Type*)
  | enter (a : α)
  | leave (a : α)
  deriving DecidableEq, Repr

namespace Slots

def capacity (s : Slots α) : ℕ := s.free + s.order.length

/-- Put in what is missing, into a free slot or into that of the first in order. -/
def take (s : Slots α) (a : α) : Slots α :=
  if 0 < s.free then ⟨s.free - 1,s.order ++ [a]⟩ else ⟨0,s.order.tail ++ [a]⟩

def leaving (s : Slots α) : List α := if 0 < s.free then [] else s.order.take 1

/-- What enters and leaves while the requests are served. -/
def turns : Slots α → List α → List (Turn α)
  | _, [] => []
  | s, a :: rest =>
    if a ∈ s.order then s.turns rest
    else s.leaving.map Turn.leave ++ .enter a :: (s.take a).turns rest

/-- How many may enter before it has to leave; for what is not there, the capacity. -/
def delay (s : Slots α) (a : α) : ℕ := s.free + s.order.idxOf a

/-- How many have entered when it has left; 0 for what is not there. -/
def place (s : Slots α) (a : α) : ℕ := if a ∈ s.order then s.delay a + 1 else 0

end Slots

/-- The requests that find their slot taken, when `m` have entered before. -/
def missed (place : α → ℕ) : ℕ → List α → List α
  | _, [] => []
  | m, a :: rest => if place a ≤ m then a :: missed place (m + 1) rest else missed place m rest

/-- Requests that are all missed when only they enter. -/
def Crowd (place : α → ℕ) : ℕ → List α → Prop
  | _, [] => True
  | m, a :: rest => place a ≤ m ∧ Crowd place (m + 1) rest

section Greedy
variable {place place' : α → ℕ} {m : ℕ} {l crowd : List α}

omit [DecidableEq α] in
theorem missed_sublist : (missed place m l).Sublist l := by
  induction l generalizing m with
  | nil => exact List.Sublist.refl _
  | cons a rest ih =>
    unfold missed
    split
    · exact ih.cons_cons a
    · exact ih.cons a

omit [DecidableEq α] in
theorem crowd_missed : Crowd place m (missed place m l) := by
  induction l generalizing m with
  | nil => trivial
  | cons a rest ih =>
    unfold missed
    split
    · exact ⟨‹_›,ih⟩
    · exact ih

omit [DecidableEq α] in
theorem Crowd.mono {n : ℕ} (h : Crowd place m crowd) (hmn : m ≤ n) : Crowd place n crowd := by
  induction crowd generalizing m n with
  | nil => trivial
  | cons a rest ih => exact ⟨h.1.trans hmn,ih h.2 (Nat.succ_le_succ hmn)⟩

omit [DecidableEq α] in
theorem Crowd.length_le (h : Crowd place m crowd) (hsub : crowd.Sublist l) :
    crowd.length ≤ (missed place m l).length := by
  induction l generalizing m crowd with
  | nil => rw [List.sublist_nil.mp hsub]; exact Nat.zero_le _
  | cons a rest ih =>
    unfold missed
    rcases List.sublist_cons_iff.mp hsub with hrest | ⟨crowd',rfl,hrest⟩
    · split
      · exact (ih (h.mono (Nat.le_succ m)) hrest).trans (Nat.le_succ _)
      · exact ih h hrest
    · rw [if_pos h.1]
      exact Nat.succ_le_succ (ih h.2 hrest)

omit [DecidableEq α] in
theorem length_missed_le_iff {bound : ℕ} : (missed place m l).length ≤ bound ↔
    ∀ crowd : List α, crowd.Sublist l → Crowd place m crowd → crowd.length ≤ bound := by
  constructor
  · intro h crowd hsub hc
    exact (hc.length_le hsub).trans h
  · intro h
    exact h _ missed_sublist crowd_missed

omit [DecidableEq α] in
theorem missed_succ (h : ∀ a ∈ l, place' a = place a - 1) : missed place (m + 1) l = missed place' m l := by
  induction l generalizing m with
  | nil => rfl
  | cons a rest ih =>
    have hrest : ∀ b ∈ rest, place' b = place b - 1 := fun b hb => h b (List.mem_cons_of_mem a hb)
    have ha : place a ≤ m + 1 ↔ place' a ≤ m := by
      rw [h a List.mem_cons_self]
      omega
    simp only [missed,ha,ih hrest]

omit [DecidableEq α] in
theorem missed_of_place_zero (h : ∀ a ∈ l, place a = 0) : missed place m l = l := by
  induction l generalizing m with
  | nil => rfl
  | cons a rest ih =>
    rw [missed,h a List.mem_cons_self,if_pos (Nat.zero_le m),ih (fun b hb => h b (List.mem_cons_of_mem a hb))]

end Greedy

namespace Slots
variable {s : Slots α} {a b : α} {l : List α}

omit [DecidableEq α] in
theorem capacity_take (h : 0 < s.capacity) (a : α) : (s.take a).capacity = s.capacity := by
  unfold capacity at h ⊢
  unfold take
  split
  · simp only [List.length_append,List.length_singleton]
    omega
  · simp only [List.length_append,List.length_tail,List.length_singleton]
    omega

omit [DecidableEq α] in
theorem mem_take (hb : b ∈ (s.take a).order) : b = a ∨ b ∈ s.order := by
  unfold take at hb
  split at hb
  · rcases List.mem_append.mp hb with hb | hb
    · exact Or.inr hb
    · exact Or.inl (List.mem_singleton.mp hb)
  · rcases List.mem_append.mp hb with hb | hb
    · exact Or.inr (List.mem_of_mem_tail hb)
    · exact Or.inl (List.mem_singleton.mp hb)

omit [DecidableEq α] in
theorem nodup_take (hnd : s.order.Nodup) (ha : a ∉ s.order) : (s.take a).order.Nodup := by
  have hsnoc : ∀ l : List α, l.Nodup → a ∉ l → (l ++ [a]).Nodup := by
    intro l hl hal
    exact List.nodup_append.mpr ⟨hl,List.nodup_singleton a,by
      intro x hx y hy
      rw [List.mem_singleton.mp hy]
      exact fun hxa => hal (hxa ▸ hx)⟩
  unfold take
  split
  · exact hsnoc _ hnd ha
  · exact hsnoc _ (hnd.sublist (List.tail_sublist _)) (fun h => ha (List.mem_of_mem_tail h))

omit [DecidableEq α] in
theorem take_cases (h : 0 < s.capacity) (a : α) :
    (0 < s.free ∧ s.take a = ⟨s.free - 1,s.order ++ [a]⟩ ∧ s.leaving = []) ∨
    ∃ first rest, s.free = 0 ∧ s.order = first :: rest ∧ s.take a = ⟨0,rest ++ [a]⟩ ∧ s.leaving = [first] := by
  unfold capacity at h
  unfold take leaving
  by_cases hfree : 0 < s.free
  · simp [hfree]
  · obtain ⟨first,rest,heq⟩ := List.exists_cons_of_length_pos (l := s.order) (by omega)
    exact Or.inr ⟨first,rest,by omega,heq,by simp [hfree,heq],by simp [hfree,heq]⟩

theorem place_of_not_mem (h : a ∉ s.order) : s.place a = 0 := if_neg h

theorem place_of_mem (h : a ∈ s.order) : s.place a = s.delay a + 1 := if_pos h

theorem delay_of_not_mem (h : a ∉ s.order) : s.delay a = s.capacity := by
  unfold delay capacity
  rw [List.idxOf_eq_length h]

theorem delay_lt (h : a ∈ s.order) : s.delay a < s.capacity :=
  Nat.add_lt_add_left (List.idxOf_lt_length_of_mem h) _

/-- Whoever enters moves the others one place on. -/
theorem place_take (hpos : 0 < s.capacity) (hnd : s.order.Nodup) (hba : b ≠ a) :
    (s.take a).place b = s.place b - 1 := by
  rcases take_cases hpos a with ⟨hfree,heq,_⟩ | ⟨first,rest,hfree,horder,heq,_⟩
  · rw [heq]
    by_cases hb : b ∈ s.order
    · rw [place_of_mem hb,place_of_mem (List.mem_append_left _ hb)]
      simp only [delay,List.idxOf_append_of_mem hb]
      omega
    · have hb' : b ∉ s.order ++ [a] := by simp [hb,hba]
      rw [place_of_not_mem hb,place_of_not_mem hb']
  · rw [horder,List.nodup_cons] at hnd
    rw [heq]
    by_cases hb : b ∈ rest
    · have hne : first ≠ b := fun h => hnd.1 (h ▸ hb)
      have hmem : b ∈ s.order := by
        rw [horder]
        exact List.mem_cons_of_mem _ hb
      rw [place_of_mem hmem,place_of_mem (List.mem_append_left _ hb)]
      simp only [delay,horder,hfree,List.idxOf_append_of_mem hb,List.idxOf_cons_ne _ hne]
      omega
    · have hb' : b ∉ rest ++ [a] := by simp [hb,hba]
      rw [place_of_not_mem hb']
      by_cases hfirst : b = first
      · have hmem : b ∈ s.order := by simp [horder,hfirst]
        rw [place_of_mem hmem,delay,horder,hfree,hfirst,List.idxOf_cons_self]
      · rw [place_of_not_mem (by simp [horder,hfirst,hb])]

theorem turns_of_mem (h : a ∈ s.order) : s.turns (a :: l) = s.turns l := if_pos h

theorem turns_of_not_mem (h : a ∉ s.order) :
    s.turns (a :: l) = s.leaving.map Turn.leave ++ .enter a :: (s.take a).turns l := if_neg h

theorem missed_of_mem (h : a ∈ s.order) : missed s.place 0 (a :: l) = missed s.place 0 l := by
  rw [missed,place_of_mem h,if_neg (by omega)]

theorem missed_of_not_mem (hpos : 0 < s.capacity) (hnd : s.order.Nodup) (h : a ∉ s.order) (hal : a ∉ l) :
    missed s.place 0 (a :: l) = a :: missed (s.take a).place 0 l := by
  rw [missed,place_of_not_mem h,if_pos le_rfl]
  congr 1
  exact missed_succ (fun b hb => place_take hpos hnd (fun hba => hal (hba ▸ hb)))

theorem mem_of_leave (h : Turn.leave b ∈ s.turns l) : b ∈ s.order ∨ b ∈ l := by
  induction l generalizing s with
  | nil => cases h
  | cons a rest ih =>
    by_cases ha : a ∈ s.order
    · rw [turns_of_mem ha] at h
      exact (ih h).imp_right (List.mem_cons_of_mem a)
    · rw [turns_of_not_mem ha,List.mem_append,List.mem_cons] at h
      rcases h with h | h | h
      · obtain ⟨c,hc,heq⟩ := List.mem_map.mp h
        cases heq
        unfold leaving at hc
        split at hc
        · cases hc
        · exact Or.inl (List.mem_of_mem_take hc)
      · cases h
      · rcases ih h with hb | hb
        · rcases mem_take hb with rfl | hb
          · exact Or.inr List.mem_cons_self
          · exact Or.inl hb
        · exact Or.inr (List.mem_cons_of_mem a hb)

/-- What is there leaves exactly when enough requests are missed. -/
theorem leave_mem_turns_iff (hpos : 0 < s.capacity) (hnd : s.order.Nodup) (hl : l.Nodup) (hb : b ∈ s.order)
    (hbl : b ∉ l) : Turn.leave b ∈ s.turns l ↔ s.delay b < (missed s.place 0 l).length := by
  induction l generalizing s with
  | nil => simp [turns,missed]
  | cons a rest ih =>
    rw [List.nodup_cons] at hl
    have hba : b ≠ a := fun h => hbl (h ▸ List.mem_cons_self)
    have hbrest : b ∉ rest := fun h => hbl (List.mem_cons_of_mem a h)
    by_cases ha : a ∈ s.order
    · rw [turns_of_mem ha,missed_of_mem ha]
      exact ih hpos hnd hl.2 hb hbrest
    · have hpos' : 0 < (s.take a).capacity := by
        rw [capacity_take hpos]
        exact hpos
      have hrest := ih hpos' (nodup_take hnd ha) hl.2
      rw [turns_of_not_mem ha,missed_of_not_mem hpos hnd ha hl.1,List.length_cons]
      rcases take_cases hpos a with ⟨hfree,heq,hleft⟩ | ⟨first,others,hfree,horder,heq,hleft⟩
      · rw [heq] at hrest ⊢
        have hr := hrest (List.mem_append_left _ hb) hbrest
        rw [delay,List.idxOf_append_of_mem hb] at hr
        simp only [hleft,List.map_nil,List.nil_append,List.mem_cons,reduceCtorEq,false_or]
        rw [hr,delay]
        simp only
        omega
      · rw [heq] at hrest ⊢
        simp only [delay,hleft,horder,hfree,List.map_cons,List.map_nil,List.cons_append,List.nil_append,List.mem_cons,
          Turn.leave.injEq,reduceCtorEq,false_or]
        by_cases hfirst : b = first
        · simp [hfirst]
        · have hmem : b ∈ others := by
            rw [horder] at hb
            exact (List.mem_cons.mp hb).resolve_left hfirst
          have hr := hrest (List.mem_append_left _ hmem) hbrest
          rw [delay,List.idxOf_append_of_mem hmem] at hr
          rw [hr,List.idxOf_cons_ne _ (Ne.symm hfirst)]
          simp only [hfirst,false_or]
          omega

omit [DecidableEq α] in
theorem enter_leave_sublist_iff {left : List α} {turns : List (Turn α)} :
    [Turn.enter b,.leave b].Sublist (left.map Turn.leave ++ .enter a :: turns) ↔
      b = a ∧ Turn.leave b ∈ turns ∨ [Turn.enter b,.leave b].Sublist turns := by
  induction left with
  | nil =>
    rw [List.map_nil,List.nil_append,List.sublist_cons_iff]
    constructor
    · rintro (h | ⟨r,heq,h⟩)
      · exact Or.inr h
      · cases heq
        exact Or.inl ⟨rfl,List.singleton_sublist.mp h⟩
    · rintro (⟨rfl,h⟩ | h)
      · exact Or.inr ⟨_,rfl,List.singleton_sublist.mpr h⟩
      · exact Or.inl h
  | cons c left ih =>
    rw [List.map_cons,List.cons_append,List.sublist_cons_iff,ih]
    simp

/-- Something leaves that has entered exactly when more requests are missed than
there are slots. -/
theorem enter_leave_turns_iff (hpos : 0 < s.capacity) (hnd : s.order.Nodup) (hl : l.Nodup) :
    (∃ b, [Turn.enter b,.leave b].Sublist (s.turns l)) ↔ s.capacity < (missed s.place 0 l).length := by
  induction l generalizing s with
  | nil => simp [turns,missed]
  | cons a rest ih =>
    rw [List.nodup_cons] at hl
    by_cases ha : a ∈ s.order
    · rw [turns_of_mem ha,missed_of_mem ha]
      exact ih hpos hnd hl.2
    · have hcap := capacity_take hpos a
      have hpos' : 0 < (s.take a).capacity := by
        rw [hcap]
        exact hpos
      have hnd' := nodup_take hnd ha
      have hlast : a ∈ (s.take a).order ∧ (s.take a).delay a + 1 = s.capacity := by
        rcases take_cases hpos a with ⟨hfree,heq,_⟩ | ⟨first,others,hfree,horder,heq,_⟩
        · rw [heq]
          refine ⟨List.mem_append_right _ List.mem_cons_self,?_⟩
          simp only [delay,List.idxOf_append_of_notMem ha,List.idxOf_cons_self,capacity]
          omega
        · have haothers : a ∉ others := by
            rw [horder] at ha
            exact fun h => ha (List.mem_cons_of_mem _ h)
          rw [heq]
          refine ⟨List.mem_append_right _ List.mem_cons_self,?_⟩
          simp only [delay,List.idxOf_append_of_notMem haothers,List.idxOf_cons_self,capacity,hfree,horder,List.length_cons]
          omega
      have hself := leave_mem_turns_iff hpos' hnd' hl.2 hlast.1 hl.1
      have hrest := ih hpos' hnd' hl.2
      rw [turns_of_not_mem ha,missed_of_not_mem hpos hnd ha hl.1,List.length_cons]
      simp only [enter_leave_sublist_iff,exists_or,exists_eq_left]
      rw [hself,hrest,hcap]
      omega

end Slots

section Age
variable {β : Type*} {age : β → ℕ} {x y : β} {l : List β}

def insertByAge (age : β → ℕ) (x : β) (l : List β) : List β := l.orderedInsert (fun x y => age x ≤ age y) x

def byAge (age : β → ℕ) (l : List β) : List β := l.insertionSort (fun x y => age x ≤ age y)

theorem byAge_cons : byAge age (x :: l) = insertByAge age x (byAge age l) := rfl

theorem insertByAge_cons : insertByAge age x (y :: l) = if age x ≤ age y then x :: y :: l else y :: insertByAge age x l :=
  rfl

theorem byAge_perm (age : β → ℕ) (l : List β) : (byAge age l).Perm l := List.perm_insertionSort _ l

theorem byAge_sorted (age : β → ℕ) (l : List β) : (byAge age l).Pairwise (fun x y => age x ≤ age y) := by
  have : Std.Total (fun x y : β => age x ≤ age y) := ⟨fun x y => Nat.le_total (age x) (age y)⟩
  have : IsTrans β (fun x y : β => age x ≤ age y) := ⟨fun _ _ _ => Nat.le_trans⟩
  exact List.pairwise_insertionSort _ l

theorem insertByAge_front (h : ∀ y ∈ l, age x ≤ age y) : insertByAge age x l = x :: l := by
  cases l with
  | nil => rfl
  | cons y rest => rw [insertByAge_cons,if_pos (h y List.mem_cons_self)]

theorem insertByAge_concat (h : age y ≤ age x) : insertByAge age y (l ++ [x]) = insertByAge age y l ++ [x] := by
  induction l with
  | nil => rw [List.nil_append,insertByAge_cons,if_pos h]; rfl
  | cons z rest ih =>
    rw [List.cons_append,insertByAge_cons,insertByAge_cons,ih]
    split <;> rfl

theorem byAge_concat (h : ∀ y ∈ l, age y ≤ age x) : byAge age (l ++ [x]) = byAge age l ++ [x] := by
  induction l with
  | nil => rfl
  | cons y rest ih =>
    rw [List.cons_append,byAge_cons,ih (fun z hz => h z (List.mem_cons_of_mem y hz)),
      insertByAge_concat (h y List.mem_cons_self),byAge_cons]

theorem insertByAge_filter (p : β → Bool) (hl : l.Pairwise (fun x y => age x ≤ age y)) :
    (insertByAge age x l).filter p = if p x then insertByAge age x (l.filter p) else l.filter p := by
  induction l with
  | nil => cases hp : p x <;> simp [insertByAge,hp]
  | cons z rest ih =>
    rw [List.pairwise_cons] at hl
    rw [insertByAge_cons]
    by_cases hxz : age x ≤ age z
    · have hall : ∀ w ∈ (z :: rest).filter p, age x ≤ age w := by
        intro w hw
        rcases List.mem_cons.mp (List.mem_of_mem_filter hw) with rfl | hw
        · exact hxz
        · exact hxz.trans (hl.1 w hw)
      rw [if_pos hxz,insertByAge_front hall,List.filter_cons]
    · rw [if_neg hxz,List.filter_cons,List.filter_cons,ih hl.2]
      cases hz : p z
      · simp
      · simp only [if_true,insertByAge_cons,if_neg hxz]
        split <;> rfl

theorem byAge_filter (p : β → Bool) : byAge age (l.filter p) = (byAge age l).filter p := by
  induction l with
  | nil => rfl
  | cons y rest ih =>
    rw [byAge_cons,insertByAge_filter p (byAge_sorted age rest),List.filter_cons,← ih]
    split <;> rfl

end Age
end Replacement
