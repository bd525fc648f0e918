import Mathlib.Data.List.Perm.Basic
import Mathlib.Data.List.Range
import FluxEngine.Lib.Transition

/-! # Workers that share a counter

A worker takes the next number, works on the task with that number and comes back
for another; the first number that has no task sends it home.  However the workers
are interleaved, every task is taken once and in order, and a task overtakes no more
tasks than there are other workers.
-/
namespace WorkSharing
open scoped List
variable {ρ : Type*}

inductive Worker
  | idle
  | busy (idx : ℕ)
  | stopped
  deriving DecidableEq, Repr

def Worker.task : Worker → Option ℕ
  | .busy idx => some idx
  | _ => none

/-- The counter, the workers, and the results in the order in which they came in,
with their tasks. -/
structure Crew (ρ : Type*) where
  next : ℕ := 0
  workers : List Worker
  results : List (ℕ × ρ) := []

inductive Event (ρ : Type*)
  | take (w : ℕ)
  | finish (w : ℕ) (result : ρ)

namespace Crew
variable (s : Crew ρ)

def start (k : ℕ) : Crew ρ := { workers := List.replicate k .idle }

def tasks : List ℕ := s.workers.filterMap Worker.task

def finished : List ℕ := s.results.map Prod.fst

def Over : Prop := ∀ x ∈ s.workers, x = .stopped

instance : Decidable s.Over := inferInstanceAs (Decidable (∀ x ∈ s.workers, x = .stopped))

def exec (n : ℕ) (s : Crew ρ) : Event ρ → Option (Crew ρ)
  | .take w =>
    if s.workers[w]? = some .idle then
      some { s with
        next := s.next + 1
        workers := s.workers.set w (if s.next < n then .busy s.next else .stopped) }
    else none
  | .finish w result =>
    match s.workers[w]? with
    | some (.busy idx) => some { s with workers := s.workers.set w .idle, results := s.results ++ [(idx,result)] }
    | _ => none

def Step (n : ℕ) (ev : Event ρ) (s t : Crew ρ) : Prop := exec n s ev = some t

variable {s} {t : Crew ρ} {n k w : ℕ} {ev : Event ρ} {ls : List (Event ρ)}

/-- What a step does. -/
inductive Acts (n : ℕ) (s : Crew ρ) : Crew ρ → Prop
  | take {w : ℕ} : s.workers[w]? = some .idle → s.next < n →
      Acts n s { s with next := s.next + 1, workers := s.workers.set w (.busy s.next) }
  | stop {w : ℕ} : s.workers[w]? = some .idle → n ≤ s.next →
      Acts n s { s with next := s.next + 1, workers := s.workers.set w .stopped }
  | finish {w idx : ℕ} (result : ρ) : s.workers[w]? = some (.busy idx) →
      Acts n s { s with workers := s.workers.set w .idle, results := s.results ++ [(idx,result)] }

theorem acts_of_step (h : Step n ev s t) : s.Acts n t := by
  unfold Step at h
  cases ev with
  | take w =>
    simp only [exec,Option.ite_none_right_eq_some,Option.some.injEq] at h
    obtain ⟨hidle,rfl⟩ := h
    by_cases hn : s.next < n
    · rw [if_pos hn]
      exact .take hidle hn
    · rw [if_neg hn]
      exact .stop hidle (Nat.not_lt.mp hn)
  | finish w result =>
    simp only [exec] at h
    split at h
    · rename_i hbusy
      cases h
      exact .finish result hbusy
    · cases h

theorem filterMap_cons_toList {α β : Type*} (f : α → Option β) (x : α) (l : List α) :
    (x :: l).filterMap f = (f x).toList ++ l.filterMap f := by
  cases h : f x with
  | none => simp [h]
  | some y => simp [h]

theorem filterMap_set {α β : Type*} {l : List α} {x y : α} (h : l[w]? = some y) (f : α → Option β) :
    (f y).toList ++ (l.set w x).filterMap f ~ (f x).toList ++ l.filterMap f := by
  obtain ⟨hw,rfl⟩ := List.getElem?_eq_some_iff.mp h
  have hset : (l.set w x).filterMap f ~ (f x).toList ++ (l.eraseIdx w).filterMap f := by
    have hperm := (List.set_perm_cons_eraseIdx hw x).filterMap f
    rwa [filterMap_cons_toList] at hperm
  have hold : l.filterMap f ~ (f l[w]).toList ++ (l.eraseIdx w).filterMap f := by
    have hperm := (List.getElem_cons_eraseIdx_perm hw).symm.filterMap f
    rwa [filterMap_cons_toList] at hperm
  calc (f l[w]).toList ++ (l.set w x).filterMap f
      ~ (f l[w]).toList ++ ((f x).toList ++ (l.eraseIdx w).filterMap f) := hset.append_left _
    _ ~ (f x).toList ++ ((f l[w]).toList ++ (l.eraseIdx w).filterMap f) := List.perm_append_comm_assoc _ _ _
    _ ~ (f x).toList ++ l.filterMap f := hold.symm.append_left _

/-- What holds of `k` workers and `n` tasks in every state: the tasks taken are the first
ones, each with one worker or over; a worker has stopped for every number past the
last task; and the result in place `j` belongs to a task before `j + k`. -/
structure Shared (n k : ℕ) (s : Crew ρ) : Prop where
  size : s.workers.length = k
  taken : s.tasks ++ s.finished ~ List.range (min s.next n)
  stopped : s.workers.count .stopped = s.next - n
  early : ∀ j idx, s.finished[j]? = some idx → idx < j + k

theorem tasks_set {x y : Worker} (h : s.workers[w]? = some y) :
    y.task.toList ++ (s.workers.set w x).filterMap Worker.task ~ x.task.toList ++ s.tasks :=
  filterMap_set h Worker.task

theorem count_set_of {x y : Worker} (h : s.workers[w]? = some y) :
    (s.workers.set w x).count .stopped + (if y = .stopped then 1 else 0) =
      s.workers.count .stopped + (if x = .stopped then 1 else 0) := by
  obtain ⟨hw,rfl⟩ := List.getElem?_eq_some_iff.mp h
  have hpos : s.workers[w] = .stopped → 0 < s.workers.count .stopped := by
    intro heq
    exact List.count_pos_iff.mpr (heq ▸ List.getElem_mem hw)
  rw [List.count_set hw]
  by_cases hy : s.workers[w] = .stopped
  · have := hpos hy
    by_cases hx : x = .stopped
    · simp [hx,hy]
      omega
    · simp [hx,hy]
      omega
  · by_cases hx : x = .stopped
    · simp [hx,hy]
    · simp [hx,hy]

theorem Shared.length (h : s.Shared n k) : s.tasks.length + s.finished.length = min s.next n := by
  rw [← List.length_append,h.taken.length_eq,List.length_range]

theorem Shared.tasks_le (h : s.Shared n k) : s.tasks.length ≤ k :=
  h.size ▸ List.length_filterMap_le _ _

theorem shared_start (n k : ℕ) : (start k : Crew ρ).Shared n k := by
  refine ⟨List.length_replicate,?_,?_,by simp [Crew.start,finished]⟩
  · simp [Crew.start,tasks,finished,Worker.task]
  · simp [Crew.start,List.count_replicate]

theorem Shared.acts (h : s.Shared n k) (ha : s.Acts n t) : t.Shared n k := by
  cases ha with
  | @take w hidle hn =>
    have htasks := tasks_set (x := .busy s.next) hidle
    have hcount := count_set_of (x := .busy s.next) hidle
    refine ⟨by rw [List.length_set,h.size],?_,?_,h.early⟩
    · have hrange : List.range (min (s.next + 1) n) = List.range (min s.next n) ++ [s.next] := by
        rw [Nat.min_eq_left hn,Nat.min_eq_left hn.le,List.range_succ]
      calc (s.workers.set w (.busy s.next)).filterMap Worker.task ++ s.finished
          ~ [s.next] ++ s.tasks ++ s.finished := htasks.append_right _
        _ ~ (s.tasks ++ s.finished) ++ [s.next] := by
            rw [List.append_assoc]
            exact List.perm_append_comm
        _ ~ List.range (min s.next n) ++ [s.next] := h.taken.append_right _
        _ = List.range (min (s.next + 1) n) := hrange.symm
    · simp only [reduceCtorEq,if_false,Nat.add_zero] at hcount
      have hnone : s.next + 1 - n = s.next - n := by omega
      exact hcount.trans (h.stopped.trans hnone.symm)
  | @stop w hidle hn =>
    have htasks := tasks_set (x := .stopped) hidle
    have hcount := count_set_of (x := .stopped) hidle
    refine ⟨by rw [List.length_set,h.size],?_,?_,h.early⟩
    · have htaken := h.taken
      rw [Nat.min_eq_right hn] at htaken
      rw [Nat.min_eq_right (Nat.le_succ_of_le hn)]
      exact (htasks.append_right _).trans htaken
    · simp only [reduceCtorEq,if_false,if_true,Nat.add_zero] at hcount
      have hmore : s.next + 1 - n = s.next - n + 1 := Nat.succ_sub hn
      rw [h.stopped] at hcount
      exact hcount.trans hmore.symm
  | @finish w idx result hbusy =>
    have htasks := tasks_set (x := .idle) hbusy
    have hcount := count_set_of (x := .idle) hbusy
    have hidx : idx ∈ s.tasks := List.mem_filterMap.mpr ⟨_,List.mem_of_getElem? hbusy,rfl⟩
    have hlt : idx < min s.next n := List.mem_range.mp (h.taken.subset (List.mem_append_left _ hidx))
    have hlength := h.length
    have hle := h.tasks_le
    have hfinished : (s.results ++ [(idx,result)]).map Prod.fst = s.finished ++ [idx] := by
      rw [List.map_append]
      rfl
    refine ⟨by rw [List.length_set,h.size],?_,?_,?_⟩
    · calc (s.workers.set w .idle).filterMap Worker.task ++ (s.results ++ [(idx,result)]).map Prod.fst
          = (s.workers.set w .idle).filterMap Worker.task ++ (s.finished ++ [idx]) := by rw [hfinished]
        _ ~ [idx] ++ (s.workers.set w .idle).filterMap Worker.task ++ s.finished := by
            rw [← List.append_assoc,List.append_assoc [idx]]
            exact List.perm_append_comm
        _ ~ s.tasks ++ s.finished := htasks.append_right _
        _ ~ List.range (min s.next n) := h.taken
    · simp only [reduceCtorEq,if_false,Nat.add_zero] at hcount
      rw [hcount,h.stopped]
    · intro j i hj
      replace hj : (s.finished ++ [idx])[j]? = some i := by
        rw [← hfinished]
        exact hj
      rcases Nat.lt_trichotomy j s.finished.length with hlt' | heq | hgt
      · rw [List.getElem?_append_left hlt'] at hj
        exact h.early j i hj
      · subst heq
        rw [List.getElem?_concat_length,Option.some.injEq] at hj
        omega
      · obtain ⟨hj,_⟩ := List.getElem?_eq_some_iff.mp hj
        rw [List.length_append,List.length_singleton] at hj
        omega

theorem Shared.run (h : Transition.Run (Step n) (start k : Crew ρ) ls s) : s.Shared n k :=
  h.invariant (shared_start n k) (fun _ _ _ ht hst => ht.acts (acts_of_step hst))

theorem Acts.taken (h : s.Acts n t) {idx : ℕ} (hidx : idx ∈ s.tasks ∨ idx ∈ s.finished) :
    idx ∈ t.tasks ∨ idx ∈ t.finished := by
  rcases hidx with hidx | hidx
  · cases h with
    | take hidle _ => exact Or.inl ((tasks_set hidle).symm.subset (List.mem_append_right _ hidx))
    | stop hidle _ => exact Or.inl ((tasks_set hidle).symm.subset (List.mem_append_right _ hidx))
    | @finish w j result hbusy =>
      have hmem := (tasks_set (x := .idle) hbusy).symm.subset (List.mem_append_right _ hidx)
      rcases List.mem_append.mp hmem with hself | hrest
      · rw [Worker.task,Option.toList_some,List.mem_singleton] at hself
        refine Or.inr ?_
        simp [finished,hself]
      · exact Or.inl hrest
  · cases h with
    | take _ _ => exact Or.inr hidx
    | stop _ _ => exact Or.inr hidx
    | finish result _ =>
      refine Or.inr ?_
      rw [finished,List.map_append]
      exact List.mem_append_left _ hidx

theorem results_of_take (h : Step n (.take w) s t) : t.results = s.results := by
  simp only [Step,exec,Option.ite_none_right_eq_some,Option.some.injEq] at h
  rw [← h.2]

theorem results_of_finish {result : ρ} {idx : ℕ} (hbusy : s.workers[w]? = some (.busy idx))
    (h : Step n (.finish w result) s t) : t.results = s.results ++ [(idx,result)] := by
  simp only [Step,exec,hbusy,Option.some.injEq] at h
  rw [← h]

theorem Shared.not_stopped (h : s.Shared n k) (hn : s.next ≤ n) : .stopped ∉ s.workers := by
  rw [← List.count_eq_zero,h.stopped]
  omega

theorem Over.tasks (h : s.Over) : s.tasks = [] := by
  rw [Crew.tasks,List.filterMap_eq_nil_iff]
  intro x hx
  rw [h x hx]
  rfl

theorem Shared.le_next (h : s.Shared n k) (hk : 0 < k) (hover : s.Over) : n ≤ s.next := by
  obtain ⟨x,hx⟩ := List.exists_mem_of_length_pos (h.size.symm ▸ hk)
  by_contra hlt
  exact h.not_stopped (Nat.le_of_not_le hlt) (hover x hx ▸ hx)

theorem Shared.finished_perm (h : s.Shared n k) (hk : 0 < k) (hover : s.Over) : s.finished ~ List.range n := by
  have htaken := h.taken
  rwa [hover.tasks,List.nil_append,Nat.min_eq_right (h.le_next hk hover)] at htaken

/-- The steps that are left: two for a task that has not been taken, one for a task
that is being worked on, and one for a worker that has not stopped. -/
def left (n : ℕ) (s : Crew ρ) : ℕ :=
  2 * (n - s.next) + s.tasks.length + (s.workers.length - s.workers.count .stopped)

theorem left_start : left n (start k : Crew ρ) = 2 * n + k := by
  simp [left,Crew.start,tasks,Worker.task,List.count_replicate]

theorem Acts.left (h : s.Acts n t) : left n s = left n t + 1 := by
  have hle (l : List Worker) : l.count .stopped ≤ l.length := List.count_le_length
  cases h with
  | @take w hidle hn =>
    have htasks := (tasks_set (x := .busy s.next) hidle).length_eq
    have hcount := count_set_of (x := .busy s.next) hidle
    simp only [Worker.task,Option.toList_some,Option.toList_none,List.nil_append,List.singleton_append,
      List.length_cons] at htasks
    simp only [reduceCtorEq,if_false,Nat.add_zero] at hcount
    simp only [Crew.left,tasks,List.length_set,htasks,hcount]
    omega
  | @stop w hidle hn =>
    have htasks := (tasks_set (x := .stopped) hidle).length_eq
    have hcount := count_set_of (x := .stopped) hidle
    have hroom := hle (s.workers.set w .stopped)
    simp only [Worker.task,Option.toList_none,List.nil_append] at htasks
    simp only [reduceCtorEq,if_false,if_true,Nat.add_zero] at hcount
    rw [hcount,List.length_set] at hroom
    simp only [Crew.left,tasks,List.length_set,htasks,hcount]
    omega
  | @finish w idx result hbusy =>
    have htasks := (tasks_set (x := .idle) hbusy).length_eq
    have hcount := count_set_of (x := .idle) hbusy
    simp only [Worker.task,Option.toList_some,Option.toList_none,List.nil_append,List.singleton_append,
      List.length_cons] at htasks
    simp only [reduceCtorEq,if_false,Nat.add_zero] at hcount
    unfold tasks at htasks
    simp only [Crew.left,tasks,List.length_set,hcount]
    omega

theorem run_length (h : Transition.Run (Step n) (start k : Crew ρ) ls s) : ls.length + left n s = 2 * n + k := by
  induction h with
  | nil => rw [List.length_nil,Nat.zero_add,left_start]
  | snoc _ hl ih =>
    have hleft := (acts_of_step hl).left
    rw [List.length_append,List.length_singleton]
    omega

theorem Shared.left_eq_zero_iff (h : s.Shared n k) (hk : 0 < k) : left n s = 0 ↔ s.Over := by
  constructor
  · intro hleft x hx
    have hcount : s.workers.count .stopped = s.workers.length := by
      have hle : s.workers.count .stopped ≤ s.workers.length := List.count_le_length
      unfold left at hleft
      omega
    exact (List.count_eq_length.mp hcount x hx).symm
  · intro hover
    have hcount : s.workers.count .stopped = s.workers.length :=
      List.count_eq_length.mpr (fun x hx => (hover x hx).symm)
    have hn := h.le_next hk hover
    rw [left,hover.tasks,hcount,List.length_nil]
    omega

end Crew
end WorkSharing
