import Mathlib.Data.List.Infix

/-! # Splitting a list at a word

The parts between the occurrences of a separator, found from left to right and
without overlap, as `String.prototype.split` finds them.  A reader that gets its
input in pieces splits what it has, keeps the last part and goes on from there.
-/
namespace FluxEngine
variable {α : Type} {sep xs ys block rest : List α} {x : α}

/-- No occurrence of the separator ends before the one at the end of the block. -/
def Blocked (sep block : List α) : Prop := ¬ sep <:+: (block ++ sep).dropLast

theorem Blocked.tail (hsep : sep ≠ []) (h : Blocked sep (x :: block)) : Blocked sep block := by
  unfold Blocked at h ⊢
  rw [List.dropLast_append_of_ne_nil hsep] at h ⊢
  exact fun hin => h (hin.trans (List.suffix_cons x _).isInfix)

theorem Blocked.not_prefix (hsep : sep ≠ []) (h : Blocked sep (x :: block)) (rest : List α) :
    ¬ sep <+: x :: (block ++ sep ++ rest) := by
  intro hpre
  have hlong : (x :: block) ++ sep.dropLast <+: x :: (block ++ sep ++ rest) := by
    rw [List.cons_append,List.append_assoc]
    refine List.cons_prefix_cons.mpr ⟨rfl,(List.prefix_append_right_inj block).mpr ?_⟩
    exact (List.dropLast_prefix sep).trans (List.prefix_append sep rest)
  have hlen : sep.length ≤ ((x :: block) ++ sep.dropLast).length := by
    simp only [List.length_append,List.length_cons,List.length_dropLast]
    omega
  apply h
  rw [List.dropLast_append_of_ne_nil hsep]
  exact (List.prefix_of_prefix_length_le hpre hlong hlen).isInfix

theorem exists_block (hsep : sep ≠ []) (h : sep <:+: xs) :
    ∃ block rest, xs = block ++ sep ++ rest ∧ Blocked sep block := by
  induction xs with
  | nil => exact absurd (List.infix_nil.mp h) hsep
  | cons x xs ih =>
    by_cases hpre : sep <+: x :: xs
    · obtain ⟨rest,hrest⟩ := hpre
      refine ⟨[],rest,hrest.symm,?_⟩
      intro hin
      have hlen := hin.length_le
      have hpos := List.length_pos_iff.mpr hsep
      simp only [List.nil_append,List.length_dropLast] at hlen
      omega
    · obtain ⟨block,rest,rfl,hblock⟩ := ih ((List.infix_cons_iff.mp h).resolve_left hpre)
      refine ⟨x :: block,rest,rfl,?_⟩
      unfold Blocked
      rw [List.dropLast_append_of_ne_nil hsep,List.cons_append,List.infix_cons_iff]
      rintro (hhead | htail)
      · apply hpre
        refine hhead.trans (List.cons_prefix_cons.mpr ⟨rfl,?_⟩)
        rw [List.append_assoc,List.prefix_append_right_inj]
        exact (List.dropLast_prefix sep).trans (List.prefix_append sep rest)
      · rw [← List.dropLast_append_of_ne_nil hsep] at htail
        exact hblock htail

/-- Puts an element in front of the first part. -/
def consHead (x : α) : List (List α) → List (List α)
  | [] => [[x]]
  | part :: parts => (x :: part) :: parts

theorem consHead_ne_nil (x : α) (parts : List (List α)) : consHead x parts ≠ [] := by
  cases parts with
  | nil => simp [consHead]
  | cons part parts => simp [consHead]

variable [DecidableEq α]

/-- `skip` elements of an occurrence are still to be passed over. -/
def splitFrom (sep : List α) : ℕ → List α → List (List α)
  | _, [] => [[]]
  | skip + 1, _ :: xs => splitFrom sep skip xs
  | 0, x :: xs =>
    if sep.isPrefixOf (x :: xs) then [] :: splitFrom sep (sep.length - 1) xs
    else consHead x (splitFrom sep 0 xs)

def split (sep xs : List α) : List (List α) := splitFrom sep 0 xs

theorem splitFrom_ne_nil (sep : List α) (skip : ℕ) (xs : List α) : splitFrom sep skip xs ≠ [] := by
  induction xs generalizing skip with
  | nil => simp [splitFrom]
  | cons x xs ih =>
    cases skip with
    | succ skip => exact ih skip
    | zero =>
      unfold splitFrom
      split
      · simp
      · exact consHead_ne_nil _ _

theorem split_ne_nil (sep xs : List α) : split sep xs ≠ [] := splitFrom_ne_nil sep 0 xs

@[simp] theorem split_nil (sep : List α) : split sep [] = [[]] := rfl

theorem splitFrom_skip (sep xs ys : List α) : splitFrom sep xs.length (xs ++ ys) = split sep ys := by
  induction xs with
  | nil => rfl
  | cons x xs ih => exact ih

theorem split_sep_append (hsep : sep ≠ []) (ys : List α) : split sep (sep ++ ys) = [] :: split sep ys := by
  obtain ⟨x,tail,rfl⟩ := List.exists_cons_of_ne_nil hsep
  have hpre : (x :: tail).isPrefixOf (x :: (tail ++ ys)) = true := by
    rw [List.isPrefixOf_iff_prefix]
    exact List.prefix_append (x :: tail) ys
  rw [List.cons_append,split,splitFrom,if_pos hpre,List.length_cons,Nat.add_sub_cancel,splitFrom_skip]

theorem split_cons (h : ¬ sep <+: x :: xs) : split sep (x :: xs) = consHead x (split sep xs) := by
  rw [split,splitFrom,if_neg]
  · rfl
  · rwa [List.isPrefixOf_iff_prefix]

theorem split_without (h : ¬ sep <:+: xs) : split sep xs = [xs] := by
  induction xs with
  | nil => rfl
  | cons x xs ih =>
    rw [split_cons (fun hpre => h hpre.isInfix),ih (fun hin => h (hin.trans (List.suffix_cons x xs).isInfix))]
    rfl

theorem split_block (hsep : sep ≠ []) (h : Blocked sep block) (rest : List α) :
    split sep (block ++ sep ++ rest) = block :: split sep rest := by
  induction block with
  | nil => exact split_sep_append hsep rest
  | cons x block ih =>
    rw [List.cons_append,List.cons_append,split_cons (h.not_prefix hsep rest),ih (h.tail hsep)]
    rfl

theorem split_append (hsep : sep ≠ []) (xs ys : List α) : split sep (xs ++ ys) =
    (split sep xs).dropLast ++ split sep ((split sep xs).getLast?.getD [] ++ ys) := by
  obtain ⟨n,hn⟩ : ∃ n, xs.length = n := ⟨_,rfl⟩
  induction n using Nat.strong_induction_on generalizing xs with
  | h n ih =>
    by_cases hin : sep <:+: xs
    · obtain ⟨block,rest,rfl,hblock⟩ := exists_block hsep hin
      have hlt : rest.length < n := by
        have hpos := List.length_pos_iff.mpr hsep
        simp only [List.length_append] at hn
        omega
      have hrest := ih _ hlt rest rfl
      obtain ⟨last,hlast⟩ : ∃ last, (split sep rest).getLast? = some last :=
        ⟨_,List.getLast?_eq_some_getLast (split_ne_nil sep rest)⟩
      simp only [split_block hsep hblock,List.getLast?_cons,hlast,
        List.dropLast_cons_of_ne_nil (split_ne_nil sep rest)]
      rw [hlast] at hrest
      rw [List.append_assoc,split_block hsep hblock,hrest]
      rfl
    · simp [split_without hin]

theorem split_blocks (hsep : sep ≠ []) {blocks : List (List α)} (h : ∀ block ∈ blocks, Blocked sep block) :
    split sep (blocks.flatMap (· ++ sep)) = blocks ++ [[]] := by
  induction blocks with
  | nil => rfl
  | cons block blocks ih =>
    rw [List.flatMap_cons,split_block hsep (h block List.mem_cons_self),
      ih (fun b hb => h b (List.mem_cons_of_mem block hb))]
    rfl

end FluxEngine
