import FluxEngine.Serving.Queue
import FluxEngine.Serving.WorkerRules

/-! # The end of a worker, and its waiting

After `request_stop` a worker empties the queue and ends what is still running.
Before, it waits for the event of the queue, which is set while anyone waits.
-/
namespace FluxEngine
open Transition Interleaving
variable {P L : Type} {eng : CachedEngine P L} {may : Site → Bool}
variable {s t : System P L} {i : SeqId} {ids run rest : List SeqId} {Φ : SeqId → Own P L → Prop}

def RequestQueue.Alert (q : RequestQueue) : Prop := q.waiting ≠ [] → q.event = true

theorem RequestQueue.Alert.remove {q : RequestQueue} (h : q.Alert) (i : SeqId) : (q.remove i).2.Alert := by
  intro hne
  simp only [RequestQueue.remove] at hne ⊢
  rw [if_neg hne]
  apply h
  intro hnil
  rw [hnil] at hne
  exact hne rfl

theorem RequestQueue.Move.alert {q q' : RequestQueue} {came went : List SeqId} (hmove : q.Move came went q')
    (h : q.Alert) : q'.Alert := by
  cases hmove with
  | stay => exact h
  | enter hq =>
    unfold RequestQueue.tryEnqueue at hq
    split at hq
    · cases hq
    · cases hq
      exact fun _ => rfl
  | leave _ => exact h.remove _
  | putBack _ => exact fun _ => rfl

theorem Step.alert [Inhabited P] [Inhabited L] (hb : s.Books False) {ev : Event} (h : Step eng ev s t)
    (ha : s.scheduler.queue.Alert) : t.scheduler.queue.Alert := by
  by_cases hev : ev = .requestStop
  · subst hev
    cases h with
    | requestStop => exact fun _ => rfl
  · obtain ⟨came,went,_,_,hmove⟩ := h.queueMove hb hev
    exact hmove.alert ha

theorem Reachable.alert [Inhabited P] [Inhabited L] (h : Reachable eng s) : s.scheduler.queue.Alert := by
  have hinv : s.Books False ∧ s.scheduler.queue.Alert := by
    refine h.invariant (I := fun s => s.Books False ∧ s.scheduler.queue.Alert) ?_ ?_
    · exact fun s h0 => ⟨h0.books,fun hne => absurd h0.waiting hne⟩
    · exact fun ev s t hs hst => ⟨hs.1.step hst False.elim,hst.alert hs.1 hs.2⟩
  exact hinv.2

theorem requested_drainOne (s : System P L) : Requested s s.drainOne := by
  rcases s.drainOne_cases with ⟨_,heq⟩ | ⟨i,queue,hi,hq,heq⟩
  · rw [heq]
    exact .refl s
  · rw [heq]
    exact requested_dequeue s hi hq

theorem length_drainOne (s : System P L) : s.drainOne.waiting.length = s.waiting.length - 1 := by
  rcases s.drainOne_cases with ⟨hnil,heq⟩ | ⟨i,queue,hi,hq,heq⟩
  · rw [heq,hnil]
    rfl
  · have hwait : s.drainOne.waiting = s.waiting.erase i := by
      rw [heq,System.abortOne,System.terminate_waiting]
      exact hq
    rw [hwait,List.length_erase_of_mem hi]

variable [Inhabited P] [Inhabited L]

theorem drainQueue_crew (eng : CachedEngine P L) (k : ℕ) (hΦ : ∀ i, Patient (Φ i)) (h : Crew none ids run Φ s) :
    Reaches (Orderly eng .tau) s (System.drainQueue k s) ∧ Crew none ids run Φ (System.drainQueue k s) ∧
      (s.waiting.length ≤ k → (System.drainQueue k s).waiting = []) := by
  induction k generalizing s with
  | zero => exact ⟨.refl s,h,fun hk => List.eq_nil_of_length_eq_zero (Nat.le_zero.mp hk)⟩
  | succ k ih =>
    obtain ⟨hreach,hcrew,hwait⟩ := ih (h.requested hΦ (requested_drainOne s))
    refine ⟨((Reaches.refl s).tail ⟨.drain,trivial⟩).trans hreach,hcrew,?_⟩
    intro hk
    apply hwait
    rw [length_drainOne]
    omega

theorem abortRunning_eq (hinv : Reachable eng s) (hnd : rest.Nodup) (hlive : ∀ i ∈ rest, s.Live i) :
    System.abortRunning rest s = rest.foldl (fun s i => s.abortOne i) s := by
  induction rest generalizing s with
  | nil => rfl
  | cons i rest ih =>
    obtain ⟨hir,hnd⟩ := List.nodup_cons.mp hnd
    have hi := hlive i List.mem_cons_self
    have hevent : (s.heap i).finishedEvent = false := (hinv.signalled hi.1).event.trans hi.2.2
    simp only [System.abortRunning,hevent,Bool.false_eq_true,if_false,List.foldl_cons]
    obtain ⟨s₀,h0,hr⟩ := hinv
    refine ih ⟨s₀,h0,hr.tail (.abort hi)⟩ hnd ?_
    intro j hj
    have hji : j ≠ i := fun hji => hir (hji ▸ hj)
    rw [System.Live,System.abortOne,System.terminate_waiting,System.terminate_heap_of_ne hji]
    exact hlive j (List.mem_cons_of_mem _ hj)

def Finished (s : System P L) : Prop := s.waiting = [] ∧ ∀ i ∈ s.accepted, (s.heap i).status.terminal = true

omit [Inhabited P] [Inhabited L] in
theorem finished_of_not_live (hwait : s.waiting = []) (hlive : ∀ i, ¬s.Live i) : Finished s := by
  refine ⟨hwait,?_⟩
  intro i hi
  by_contra hopen
  refine hlive i ⟨hi,?_,by simpa using hopen⟩
  rw [hwait]
  exact List.not_mem_nil

namespace Worker
variable {E : Exc → System P L → Prop}

/-- `_abort_leftovers` ends all there is. -/
theorem safe_abortLeftovers (hΦ : ∀ i, Patient (Φ i)) (hopen : ∀ i own, Φ i own → Open own)
    (h : Crew none run run Φ s) :
    (abortLeftovers : Thread P L Unit).Safe (serving eng may) (fun _ t => Finished t) E s := by
  refine Prog.safe_write (Crew.stable hΦ) h ?_
  intro t ht hinv w _
  obtain ⟨hdrain,hcrew,hempty⟩ := drainQueue_crew eng t.waiting.length hΦ ht
  obtain ⟨u,hu⟩ : ∃ u, u = System.drainQueue t.waiting.length t := ⟨_,rfl⟩
  rw [← hu] at hdrain hcrew hempty
  have hinv' : Reachable eng u := by
    obtain ⟨s₀,h0,hr⟩ := hinv
    exact ⟨s₀,h0,hr.trans (Orderly.reaches hdrain)⟩
  have hlive : ∀ i ∈ run, u.Live i := fun i hi => hcrew.live hi (hopen i _ (hcrew.own i hi))
  obtain ⟨hreach,hacc,hwait,_,hfl,hend,hoff⟩ := endAll
    (fun s i hi => ⟨Event.abort i,(⟨.abort hi,trivial⟩ : Orderly eng .tau (.abort i) s (s.abortOne i))⟩) hcrew.nodup hlive
  have heq : System.abortLeftovers t =
      (run.foldl (fun s i => s.abortOne i) u).setRunning [] := by
    unfold System.abortLeftovers
    simp only [← hu,hcrew.running,abortRunning_eq hinv' hcrew.nodup hlive]
  rw [heq]
  refine ⟨effect_of_reaches ((hdrain.trans hreach).tail ⟨.bookkeeping _ _ _,trivial⟩) ht.flight (hfl.trans hcrew.flight) trivial,?_⟩
  apply finished_of_not_live
  · exact hwait.trans (hempty le_rfl)
  · rintro i ⟨hia,hiw,hst⟩
    by_cases hi : i ∈ run
    · have hterm := Sequence.status_of_life (hend i hi)
      simp only [System.setRunning,System.abortOne,hterm] at hst
      cases hst
    · have hheap := congrArg Prod.fst (hoff i hi)
      simp only [System.own] at hheap
      apply hi
      apply hcrew.complete
      refine ⟨hacc ▸ hia,?_,?_⟩
      · rw [← hwait]
        exact hiw
      · rw [← hheap]
        exact hst

theorem safe_waitIfIdle {idle : System P L → Bool} (hΦ : ∀ i, Patient (Φ i)) (h : Crew none run run Φ s)
    (hidle : ∀ t : System P L, idle t = true → t.stats.running = run → run = []) :
    (waitIfIdle idle : Thread P L Unit).Safe (serving eng may) (fun _ t => Crew none run run Φ t) E s := by
  unfold waitIfIdle
  refine (safe_look idle hΦ h).bind ?_
  rintro isIdle s ⟨h,hread⟩
  split
  · rename_i hi
    have hnil : run = [] := hidle s (hread.symm.trans hi) h.running
    subst hnil
    refine Prog.safe_await (Crew.stable hΦ) h ?_ ?_
    · intro t ht hinv hevent
      have hwait : t.waiting = [] := by
        by_contra hne
        rw [hinv.alert hne] at hevent
        cases hevent
      exact (finished_of_not_live hwait (fun i hi => List.not_mem_nil (ht.complete i hi))).2
    · intro t ht _ _ w _
      exact ⟨effect_of_reaches (.refl t) ht.flight ht.flight trivial,ht⟩
  · exact h

end Worker
end FluxEngine
