import Mathlib.Data.List.Basic

/-! # Prefix codes and their lossy decoding

A decoder that reads letter by letter, holds an unfinished code word back and
writes a replacement symbol for the longest piece that no code word continues.
-/
namespace FluxEngine

/-- Symbols as non-empty words, none of them a proper prefix of another, such that
a letter that begins a word stands at no later place of a word. -/
structure PrefixCode (β α : Type) where
  encode : α → List β
  /-- the symbol whose word this is -/
  complete : List β → Option α
  /-- whether this is a non-empty proper prefix of a word -/
  viable : List β → Bool
  complete_iff : ∀ {p : List β} {a : α}, complete p = some a ↔ encode a = p
  viable_iff : ∀ {p : List β}, viable p = true ↔ p ≠ [] ∧ ∃ a q, q ≠ [] ∧ encode a = p ++ q
  encode_ne : ∀ a, encode a ≠ []
  free : ∀ {a b : α} {q : List β}, encode a = encode b ++ q → q = []
  sync : ∀ {a b : α} {p q r : List β} {x : β}, encode a = p ++ x :: q → encode b = x :: r → p = []

namespace PrefixCode
variable {β α : Type} (C : PrefixCode β α) (bad : α)

/-- A letter where no word is open. -/
def start (x : β) : List α × List β :=
  match C.complete [x] with
  | some a => ([a],[])
  | none => if C.viable [x] then ([],[x]) else ([bad],[])

/-- A letter after the open word `pending`: the symbols written and the word open now. -/
def feed (pending : List β) (x : β) : List α × List β :=
  match C.complete (pending ++ [x]) with
  | some a => ([a],[])
  | none =>
    if C.viable (pending ++ [x]) then ([],pending ++ [x])
    else if pending.isEmpty then ([bad],[])
    else (bad :: (C.start bad x).1,(C.start bad x).2)

def scan : List β → List β → List α × List β
  | pending, [] => ([],pending)
  | pending, x :: xs =>
    let (out,pending) := C.feed bad pending x
    (out ++ (scan pending xs).1,(scan pending xs).2)

def close (pending : List β) : List α := if pending.isEmpty then [] else [bad]

def lossyFrom (pending xs : List β) : List α :=
  (C.scan bad pending xs).1 ++ close bad (C.scan bad pending xs).2

def lossy (xs : List β) : List α := C.lossyFrom bad [] xs

variable {C bad} {a : α} {x : β} {p q r xs ys : List β}

@[simp] theorem scan_nil : C.scan bad p [] = ([],p) := rfl

theorem scan_cons : C.scan bad p (x :: xs) =
    ((C.feed bad p x).1 ++ (C.scan bad (C.feed bad p x).2 xs).1,
      (C.scan bad (C.feed bad p x).2 xs).2) := rfl

theorem scan_append : C.scan bad p (xs ++ ys) =
    ((C.scan bad p xs).1 ++ (C.scan bad (C.scan bad p xs).2 ys).1,
      (C.scan bad (C.scan bad p xs).2 ys).2) := by
  induction xs generalizing p with
  | nil => simp
  | cons x xs ih => simp only [List.cons_append,scan_cons,ih,List.append_assoc]

theorem lossyFrom_append : C.lossyFrom bad p (xs ++ ys) =
    (C.scan bad p xs).1 ++ C.lossyFrom bad (C.scan bad p xs).2 ys := by
  simp only [lossyFrom,scan_append,List.append_assoc]

theorem lossy_append : C.lossy bad (xs ++ ys) =
    (C.scan bad [] xs).1 ++ C.lossyFrom bad (C.scan bad [] xs).2 ys := lossyFrom_append

theorem complete_open (ha : C.encode a = p ++ q) (hq : q ≠ []) : C.complete p = none := by
  cases hp : C.complete p with
  | none => rfl
  | some b =>
    rw [← C.complete_iff.mp hp] at ha
    exact absurd (C.free ha) hq

theorem viable_open (ha : C.encode a = p ++ q) (hp : p ≠ []) (hq : q ≠ []) : C.viable p = true :=
  C.viable_iff.mpr ⟨hp,a,q,hq,ha⟩

theorem feed_open (ha : C.encode a = p ++ x :: q) (hq : q ≠ []) :
    C.feed bad p x = ([],p ++ [x]) := by
  have hax : C.encode a = (p ++ [x]) ++ q := by rw [ha,List.append_assoc]; rfl
  have hv : C.viable (p ++ [x]) = true := viable_open hax (by simp) hq
  simp only [feed,complete_open hax hq,hv,if_pos]

theorem feed_complete (ha : C.encode a = p ++ [x]) : C.feed bad p x = ([a],[]) := by
  simp only [feed,C.complete_iff.mpr ha]

theorem scan_rest (ha : C.encode a = p ++ q) (hq : q ≠ []) : C.scan bad p q = ([a],[]) := by
  induction q generalizing p with
  | nil => exact absurd rfl hq
  | cons x q ih =>
    rw [scan_cons]
    by_cases hq' : q = []
    · subst hq'
      rw [feed_complete ha]
      rfl
    · rw [feed_open ha hq',ih (by rw [ha,List.append_assoc]; rfl) hq']
      rfl

theorem scan_encode : C.scan bad [] (C.encode a) = ([a],[]) :=
  scan_rest (List.nil_append _).symm (C.encode_ne a)

theorem scan_encodes (s : List α) : C.scan bad [] (s.flatMap C.encode) = (s,[]) := by
  induction s with
  | nil => rfl
  | cons a s ih => simp only [List.flatMap_cons,scan_append,scan_encode,ih,List.singleton_append]

theorem scan_open (ha : C.encode a = p ++ (xs ++ q)) (hq : q ≠ []) :
    C.scan bad p xs = ([],p ++ xs) := by
  induction xs generalizing p with
  | nil => simp
  | cons x xs ih =>
    have hx : C.encode a = (p ++ [x]) ++ (xs ++ q) := by simpa using ha
    rw [scan_cons,feed_open ha (by simp [hq]),ih hx]
    simp

def Held (C : PrefixCode β α) (p : List β) : Prop := p = [] ∨ C.viable p = true

theorem held_start (x : β) : C.Held (C.start bad x).2 := by
  unfold start
  split
  · exact Or.inl rfl
  · split
    · exact Or.inr ‹_›
    · exact Or.inl rfl

theorem held_feed (p : List β) (x : β) : C.Held (C.feed bad p x).2 := by
  unfold feed
  split
  · exact Or.inl rfl
  · split
    · exact Or.inr ‹_›
    · split
      · exact Or.inl rfl
      · exact held_start x

theorem held_scan (hp : C.Held p) : C.Held (C.scan bad p xs).2 := by
  induction xs generalizing p with
  | nil => exact hp
  | cons x xs ih =>
    rw [scan_cons]
    exact ih (held_feed p x)

theorem start_suffix (x : β) : (C.start bad x).2 <:+ [x] := by
  unfold start
  split
  · exact List.nil_suffix
  · split
    · exact List.suffix_rfl
    · exact List.nil_suffix

theorem feed_suffix (p : List β) (x : β) : (C.feed bad p x).2 <:+ p ++ [x] := by
  unfold feed
  split
  · exact List.nil_suffix
  · split
    · exact List.suffix_rfl
    · split
      · exact List.nil_suffix
      · exact (start_suffix x).trans (List.suffix_append p [x])

theorem scan_suffix : (C.scan bad p xs).2 <:+ p ++ xs := by
  induction xs generalizing p with
  | nil => rw [List.append_nil]; exact List.suffix_rfl
  | cons x xs ih =>
    rw [scan_cons,show p ++ x :: xs = (p ++ [x]) ++ xs by simp]
    obtain ⟨t,ht⟩ : (C.feed bad p x).2 <:+ p ++ [x] := feed_suffix p x
    refine ih.trans ?_
    rw [← ht,List.append_assoc]
    exact List.suffix_append t _

theorem feed_first (ha : C.encode a = x :: q) (hq : q ≠ []) : (C.feed bad p x).2 = [x] := by
  by_cases hp : p = []
  · subst hp
    rw [feed_open (a := a) ha hq]
    rfl
  · have hclosed : C.complete (p ++ [x]) = none := by
      cases hc : C.complete (p ++ [x]) with
      | none => rfl
      | some b => exact absurd (C.sync (C.complete_iff.mp hc) ha) hp
    have hstuck : ¬ C.viable (p ++ [x]) = true := by
      intro hv
      obtain ⟨_,b,r,_,hb⟩ := C.viable_iff.mp hv
      exact hp (C.sync (q := r) (by rw [hb,List.append_assoc]; rfl) ha)
    have hx : C.start bad x = ([],[x]) := by
      simp only [start,complete_open (p := [x]) ha hq,viable_open (p := [x]) ha (by simp) hq,if_pos]
    simp [feed,hclosed,hstuck,hp,hx]

theorem scan_tail (ha : C.encode a = xs ++ q) (hx : xs ≠ []) (hq : q ≠ []) :
    (C.scan bad p xs).2 = xs := by
  cases xs with
  | nil => exact absurd rfl hx
  | cons x xs =>
    have hcons : C.encode a = x :: (xs ++ q) := ha
    rw [scan_cons,feed_first hcons (by simp [hq]),scan_open (p := [x]) (by simpa using ha) hq]
    rfl

/-- What a decoder writes first when a word is open: the replacement, or the
symbol whose word the input finishes. -/
theorem lossyFrom_open (hp : C.viable p = true) (ys : List β) :
    ∃ a out, C.lossyFrom bad p ys = a :: out ∧
      (a = bad ∨ ∃ q, q ≠ [] ∧ C.encode a = p ++ q ∧ q <+: ys) := by
  induction ys generalizing p with
  | nil =>
    have hne : p ≠ [] := (C.viable_iff.mp hp).1
    exact ⟨bad,[],by simp [lossyFrom,close,hne],Or.inl rfl⟩
  | cons y ys ih =>
    have hne : p.isEmpty = false := by simpa using (C.viable_iff.mp hp).1
    have hstep : C.lossyFrom bad p (y :: ys) =
        (C.feed bad p y).1 ++ C.lossyFrom bad (C.feed bad p y).2 ys := by
      simp only [lossyFrom,scan_cons,List.append_assoc]
    rw [hstep]
    cases hc : C.complete (p ++ [y]) with
    | some a =>
      have ha : C.encode a = p ++ [y] := C.complete_iff.mp hc
      rw [feed_complete ha]
      exact ⟨a,_,rfl,Or.inr ⟨[y],by simp,ha,by simp⟩⟩
    | none =>
      by_cases hv : C.viable (p ++ [y]) = true
      · obtain ⟨a,out,hout,hcase⟩ := ih hv
        have hfeed : C.feed bad p y = ([],p ++ [y]) := by simp only [feed,hc,hv,if_pos]
        rw [hfeed]
        refine ⟨a,out,hout,hcase.imp_right ?_⟩
        rintro ⟨q,_,ha,hq⟩
        exact ⟨y :: q,by simp,by rw [ha,List.append_assoc]; rfl,by simpa using hq⟩
      · have hfeed : C.feed bad p y = (bad :: (C.start bad y).1,(C.start bad y).2) := by
          simp [feed,hc,hv,hne]
        rw [hfeed]
        exact ⟨bad,_,rfl,Or.inl rfl⟩

theorem lossyFrom_rest (ha : C.encode a = p ++ q) (hq : q ≠ []) (hys : q <+: ys) :
    ∃ out, C.lossyFrom bad p ys = a :: out := by
  obtain ⟨t,rfl⟩ := hys
  rw [lossyFrom_append,scan_rest ha hq]
  exact ⟨_,rfl⟩

/-- Some word that is not the replacement's lies across the place between the two
inputs. -/
def Splits (C : PrefixCode β α) (bad : α) (xs ys : List β) : Prop :=
  ∃ a p q, a ≠ bad ∧ C.encode a = p ++ q ∧ p ≠ [] ∧ q ≠ [] ∧ p <:+ xs ∧ q <+: ys

theorem lossy_eq_scan (xs : List β) :
    C.lossy bad xs = (C.scan bad [] xs).1 ++ close bad (C.scan bad [] xs).2 := rfl

theorem Splits.part (h : C.Splits bad xs ys) (zs : List β) :
    ¬ C.lossy bad xs <+: C.lossy bad (xs ++ ys ++ zs) := by
  obtain ⟨a,p,q,hbad,ha,hp,hq,⟨t,rfl⟩,hys⟩ := h
  have hheld : (C.scan bad [] (t ++ p)).2 = p := by
    rw [scan_append]
    exact scan_tail ha hp hq
  obtain ⟨out,hout⟩ : ∃ out, C.lossyFrom bad p (ys ++ zs) = a :: out :=
    lossyFrom_rest ha hq (hys.trans (List.prefix_append ys zs))
  have hlong : C.lossy bad (t ++ p ++ ys ++ zs) = (C.scan bad [] (t ++ p)).1 ++ a :: out := by
    rw [List.append_assoc (t ++ p) ys zs,lossy_append,hheld,hout]
  rw [hlong,lossy_eq_scan,hheld,List.prefix_append_right_inj]
  have hclose : close bad p = [bad] := by simp [close,hp]
  rw [hclose]
  intro hpre
  exact hbad (List.cons_prefix_cons.mp hpre).1.symm

theorem lossy_prefix_of_not_splits (h : ¬ C.Splits bad xs ys) :
    C.lossy bad xs <+: C.lossy bad (xs ++ ys) := by
  have hheld : C.Held (C.scan bad [] xs).2 := held_scan (Or.inl rfl)
  rw [lossy_append,lossy_eq_scan,List.prefix_append_right_inj]
  rcases hheld with hnil | hviable
  · rw [hnil]
    exact List.nil_prefix
  · have hne := (C.viable_iff.mp hviable).1
    obtain ⟨a,out,hout,hcase⟩ := C.lossyFrom_open hviable ys
    have hbad : a = bad := by
      rcases hcase with hbad | ⟨q,hq,ha,hys⟩
      · exact hbad
      · by_contra hab
        have hsuffix : (C.scan bad [] xs).2 <:+ [] ++ xs := scan_suffix
        exact h ⟨a,_,q,hab,ha,hne,hq,hsuffix,hys⟩
    have hclose : close bad (C.scan bad [] xs).2 = [bad] := by simp [close,hne]
    rw [hclose,hout,hbad]
    exact List.cons_prefix_cons.mpr ⟨rfl,List.nil_prefix⟩

theorem lossy_prefix_iff : C.lossy bad xs <+: C.lossy bad (xs ++ ys) ↔ ¬ C.Splits bad xs ys := by
  refine ⟨?_,lossy_prefix_of_not_splits⟩
  intro hpre hsplit
  refine hsplit.part [] ?_
  rwa [List.append_nil]

end PrefixCode
end FluxEngine
