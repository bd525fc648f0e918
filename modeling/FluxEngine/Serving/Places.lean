import FluxEngine.Engine.AdmissionRace
import FluxEngine.Serving.Leftovers
import FluxEngine.Serving.PrefixSoundness

/-! # The place of a sequence while requests are aborted

Every sequence waits, is held by the worker, is in the hands of an abort, or has
ended.  As long as the admission takes out of the queue what it has decided on,
it is one of these, and nobody is admitted after an abort.
-/
namespace FluxEngine
open Transition Function
variable {P L : Type}

namespace Race

theorem execAll_run {cond : RaceEvent → Race P L → Bool} {evs : List RaceEvent} {s t : Race P L}
    (h : execAll cond evs s = some t) : Run (StepIf cond) s evs t := by
  refine playAll_run ?_ h
  intro ev _ s t hst
  simp only [Option.ite_none_right_eq_some] at hst
  exact hst

end Race

inductive Place
  | queue
  | held
  | aborting
  | ended
  deriving DecidableEq, Repr

namespace Race
variable {s t : Race P L} {i j : SeqId} {p q : Place}

/-- A sequence is at a place. -/
def At (s : Race P L) : Place → SeqId → Prop
  | .queue, i => i ∈ s.system.waiting
  | .held, i => i ∈ s.held ∨ s.admission.taken = some i
  | .aborting, i => ∃ h, s.calls h = .removed i
  | .ended, i => (s.system.heap i).status.terminal = true

/-- Nothing is anywhere twice. -/
structure Tidy (s : Race P L) : Prop where
  waiting : s.system.waiting.Nodup
  held : s.held.Nodup
  taken : ∀ i, s.admission.taken = some i → i ∉ s.held
  calls : ∀ h k i, s.calls h = .removed i → s.calls k = .removed i → h = k

/-- Every accepted sequence is at one place. -/
structure Custody (s : Race P L) : Prop where
  place : ∀ i ∈ s.system.accepted, ∃! p, s.At p i
  known : ∀ p i, s.At p i → p ≠ .ended → i ∈ s.system.accepted
  tidy : s.Tidy

theorem Custody.only (hs : s.Custody) (hp : s.At p i) (hi : i ∈ s.system.accepted) (q : Place) :
    s.At q i ↔ q = p := by
  obtain ⟨r,_,hr⟩ := hs.place i hi
  refine ⟨fun hq => (hr q hq).trans (hr p hp).symm,?_⟩
  rintro rfl
  exact hp

theorem Custody.move (hs : s.Custody) (hsub : s.system.accepted ⊆ t.system.accepted)
    (hnew : ∀ j ∈ t.system.accepted, j ≠ i → j ∈ s.system.accepted) (hi : i ∈ t.system.accepted)
    (hoff : ∀ q j, j ≠ i → (t.At q j ↔ s.At q j)) (hself : ∀ q, t.At q i ↔ q = p) (htidy : t.Tidy) : t.Custody := by
  refine ⟨?_,?_,htidy⟩
  · intro j hj
    by_cases hji : j = i
    · subst hji
      exact ⟨p,(hself p).mpr rfl,fun q hq => (hself q).mp hq⟩
    · obtain ⟨r,hr,huniq⟩ := hs.place j (hnew j hj hji)
      exact ⟨r,(hoff r j hji).mpr hr,fun q hq => huniq q ((hoff q j hji).mp hq)⟩
  · intro q j hq hne
    by_cases hji : j = i
    · rwa [hji]
    · exact hsub (hs.known q j ((hoff q j hji).mp hq) hne)

theorem Custody.shift {p₀ : Place} (hs : s.Custody) (hold : s.At p₀ i) (hi : i ∈ s.system.accepted) (hne : p ≠ p₀)
    (hacc : t.system.accepted = s.system.accepted)
    (hoff : ∀ q j, (q ≠ p₀ ∧ q ≠ p) ∨ j ≠ i → (t.At q j ↔ s.At q j)) (hgone : ¬t.At p₀ i) (hcome : t.At p i)
    (htidy : t.Tidy) : t.Custody := by
  have hself : ∀ q, t.At q i ↔ q = p := by
    intro q
    by_cases hq : q = p
    · subst hq
      exact iff_of_true hcome rfl
    · by_cases hq₀ : q = p₀
      · subst hq₀
        exact iff_of_false hgone hq
      · rw [hoff q i (Or.inl ⟨hq₀,hq⟩),hs.only hold hi q]
        exact iff_of_false hq₀ hq
  refine hs.move (hacc ▸ fun _ => id) ?_ (hacc ▸ hi) (fun q j hji => hoff q j (Or.inr hji)) hself htidy
  intro j hj _
  rwa [← hacc]

theorem Custody.stay (hs : s.Custody) (hacc : t.system.accepted = s.system.accepted)
    (hat : ∀ q j, t.At q j ↔ s.At q j) (htidy : t.Tidy) : t.Custody := by
  refine ⟨?_,?_,htidy⟩
  · intro j hj
    obtain ⟨r,hr,huniq⟩ := hs.place j (hacc ▸ hj)
    exact ⟨r,(hat r j).mpr hr,fun q hq => huniq q ((hat q j).mp hq)⟩
  · intro q j hq hne
    rw [hacc]
    exact hs.known q j ((hat q j).mp hq) hne

theorem idle_not_taken (h : s.admission = .idle) (i : SeqId) : s.admission.taken ≠ some i := by
  rw [h]
  simp [Admission.taken]

theorem removed_update {calls : ℕ → AbortCall} {h : ℕ} {c : AbortCall} (hc : ∀ i, calls h ≠ .removed i) (i : SeqId) :
    (∃ k, update calls h c k = .removed i) ↔ c = .removed i ∨ ∃ k, calls k = .removed i := by
  constructor
  · rintro ⟨k,hk⟩
    by_cases hkh : k = h
    · subst hkh
      rw [update_self] at hk
      exact Or.inl hk
    · rw [update_of_ne hkh] at hk
      exact Or.inr ⟨k,hk⟩
  · rintro (rfl | ⟨k,hk⟩)
    · exact ⟨h,update_self _ _ _⟩
    · refine ⟨k,?_⟩
      rw [update_of_ne]
      · exact hk
      · rintro rfl
        exact hc i hk

theorem Custody.submit (hs : s.Custody) (hi : i ∉ s.system.accepted) (prompt : List Token)
    (sampling : SamplingParams) : ({ s with system := s.system.submit i prompt sampling } : Race P L).Custody := by
  rcases s.system.submit_cases i prompt sampling with heq | ⟨queue,hq,heq⟩
  · rw [heq]
    exact hs
  · have hnot : ∀ q, q ≠ .ended → ¬s.At q i := fun q hne hat => hi (hs.known q i hat hne)
    have hwait : queue.waiting = s.system.waiting ++ [i] := hq
    rw [heq]
    refine hs.move (i := i) (p := .queue) (List.subset_append_left _ _) ?_ (by simp) ?_ ?_ ?_
    · intro j hj hji
      simpa [hji] using hj
    · intro q j hji
      cases q with
      | queue => simp [At,System.waiting,hwait,hji]
      | held => exact Iff.rfl
      | aborting => exact Iff.rfl
      | ended => simp only [At,update_of_ne hji]
    · intro q
      cases q with
      | queue => simp [At,System.waiting,hwait]
      | held =>
        have hno := hnot .held (by simp)
        simp only [reduceCtorEq,iff_false]
        exact hno
      | aborting =>
        have hno := hnot .aborting (by simp)
        simp only [reduceCtorEq,iff_false]
        exact hno
      | ended => simp [At,SequenceStatus.terminal]
    · refine ⟨?_,hs.tidy.held,hs.tidy.taken,hs.tidy.calls⟩
      have hno : i ∉ s.system.waiting := hnot .queue (by simp)
      simp only [System.waiting,hwait]
      rw [List.nodup_append]
      refine ⟨hs.tidy.waiting,List.nodup_singleton i,?_⟩
      intro j hj k hk
      rw [List.mem_singleton.mp hk]
      rintro rfl
      exact hno hj

theorem ended_terminate {system : System P L} (how : Ending) (j : SeqId) :
    ((system.terminate i how.mark).heap j).status.terminal = true ↔
      j = i ∨ (system.heap j).status.terminal = true := by
  by_cases hji : j = i
  · subst hji
    have hlife : ((system.terminate j how.mark).heap j).life = (how.mark (system.heap j)).closed.life :=
      System.terminate_heap_self.1
    rw [Sequence.status_of_life hlife]
    cases how <;> simp [Ending.mark,Sequence.closed,SequenceStatus.terminal]
  · rw [System.terminate_heap_of_ne hji]
    simp [hji]

theorem Custody.workerEnds (hs : s.Custody) (hidle : s.admission = .idle) (hi : i ∈ s.held) (how : Ending) :
    ({ s with system := s.system.terminate i how.mark, held := s.held.erase i } : Race P L).Custody := by
  have hat : s.At .held i := Or.inl hi
  refine hs.shift (p := .ended) hat (hs.known .held i hat (by simp)) (by simp) rfl ?_ ?_ ?_ ?_
  · intro q j hqj
    cases q with
    | queue => simp only [At,System.terminate_waiting]
    | held =>
      have hji : j ≠ i := hqj.resolve_left (by simp)
      simp only [At,List.mem_erase_of_ne hji]
    | aborting => exact Iff.rfl
    | ended =>
      have hji : j ≠ i := hqj.resolve_left (by simp)
      simp only [At,ended_terminate,hji,false_or]
  · simp only [At,hs.tidy.held.mem_erase_iff,idle_not_taken hidle i]
    simp
  · simp [At,ended_terminate]
  · refine ⟨?_,hs.tidy.held.erase i,?_,hs.tidy.calls⟩
    · rw [System.terminate_waiting]
      exact hs.tidy.waiting
    · intro j hj
      exact absurd hj (idle_not_taken hidle j)

theorem calls_update {calls : ℕ → AbortCall} {h : ℕ} {c : AbortCall}
    (hu : ∀ h k i, calls h = .removed i → calls k = .removed i → h = k)
    (hc : ∀ i, c = .removed i → ∀ k, calls k ≠ .removed i) (k l : ℕ) (i : SeqId)
    (hk : update calls h c k = .removed i) (hl : update calls h c l = .removed i) : k = l := by
  by_cases hkh : k = h
  · by_cases hlh : l = h
    · rw [hkh,hlh]
    · subst hkh
      rw [update_self] at hk
      rw [update_of_ne hlh] at hl
      exact absurd hl (hc i hk l)
  · by_cases hlh : l = h
    · subst hlh
      rw [update_self] at hl
      rw [update_of_ne hkh] at hk
      exact absurd hk (hc i hl k)
    · rw [update_of_ne hkh] at hk
      rw [update_of_ne hlh] at hl
      exact hu k l i hk hl

theorem Custody.calls (hs : s.Custody) {h : ℕ} {c : AbortCall} (hold : ∀ i, s.calls h ≠ .removed i)
    (hc : ∀ i, c ≠ .removed i) : ({ s with calls := update s.calls h c } : Race P L).Custody := by
  refine hs.stay rfl ?_ ⟨hs.tidy.waiting,hs.tidy.held,hs.tidy.taken,?_⟩
  · intro q j
    cases q with
    | queue => exact Iff.rfl
    | held => exact Iff.rfl
    | aborting => simp only [At,removed_update hold,hc j,false_or]
    | ended => exact Iff.rfl
  · exact calls_update hs.tidy.calls (fun i hi => absurd hi (hc i))

theorem Custody.remove {h : ℕ} (hs : s.Custody) (hst : s.removeCall h = some t) : t.Custody := by
  unfold removeCall at hst
  cases hc : s.calls h with
  | found i =>
    have hcalm : ∀ k, s.calls h ≠ .removed k := by simp [hc]
    simp only [hc,RequestQueue.remove,Option.some.injEq] at hst
    subst hst
    by_cases hi : i ∈ s.system.scheduler.queue.waiting
    · have hat : s.At .queue i := hi
      have hacc := hs.known .queue i hat (by simp)
      simp only [hi,decide_true,if_true]
      refine hs.shift (p := .aborting) hat hacc (by simp) rfl ?_ ?_ ?_ ?_
      · intro q j hqj
        cases q with
        | queue =>
          have hji : j ≠ i := hqj.resolve_left (by simp)
          simp only [At,System.setQueue,System.waiting,List.mem_erase_of_ne hji]
        | held => exact Iff.rfl
        | aborting =>
          have hji : j ≠ i := hqj.resolve_left (by simp)
          simp only [At,removed_update hcalm,AbortCall.removed.injEq,Ne.symm hji,false_or]
        | ended => exact Iff.rfl
      · exact fun hmem => (hs.tidy.waiting.mem_erase_iff.mp hmem).1 rfl
      · exact ⟨h,update_self _ _ _⟩
      · refine ⟨hs.tidy.waiting.erase i,hs.tidy.held,hs.tidy.taken,calls_update hs.tidy.calls ?_⟩
        rintro _ ⟨⟩ k hk
        have hq := (hs.only hat hacc .aborting).mp ⟨k,hk⟩
        cases hq
    · have hnext := hs.calls hcalm (c := .missed i) (by simp)
      simp only [hi,decide_false,Bool.false_eq_true,if_false,List.erase_of_not_mem hi]
      exact hnext.stay rfl (fun _ _ => Iff.rfl) ⟨hs.tidy.waiting,hs.tidy.held,hs.tidy.taken,hnext.tidy.calls⟩
  | idle => simp [hc] at hst
  | removed i => simp [hc] at hst
  | missed i => simp [hc] at hst

theorem Custody.settle {h : ℕ} (hs : s.Custody) (hst : s.settleCall h = some t) : t.Custody := by
  unfold settleCall at hst
  cases hc : s.calls h with
  | removed i =>
    simp only [hc,Option.some.injEq] at hst
    subst hst
    have hat : s.At .aborting i := ⟨h,hc⟩
    have hidle : ∀ j, (∃ k, update s.calls h .idle k = .removed j) ↔ (∃ k, s.calls k = .removed j) ∧ j ≠ i := by
      intro j
      constructor
      · rintro ⟨k,hk⟩
        by_cases hkh : k = h
        · rw [hkh,update_self] at hk
          cases hk
        · rw [update_of_ne hkh] at hk
          refine ⟨⟨k,hk⟩,?_⟩
          rintro rfl
          exact hkh (hs.tidy.calls k h j hk hc)
      · rintro ⟨⟨k,hk⟩,hji⟩
        refine ⟨k,?_⟩
        rw [update_of_ne]
        · exact hk
        · rintro rfl
          rw [hc] at hk
          cases hk
          exact hji rfl
    have hend : ∀ j, ((s.system.abortOne i).heap j).status.terminal = true ↔
        j = i ∨ (s.system.heap j).status.terminal = true := ended_terminate .aborted
    refine hs.shift (p := .ended) hat (hs.known .aborting i hat (by simp)) (by simp) rfl ?_ ?_ ?_ ?_
    · intro q j hqj
      cases q with
      | queue => simp only [At,System.abortOne,System.terminate_waiting]
      | held => exact Iff.rfl
      | aborting =>
        have hji : j ≠ i := hqj.resolve_left (by simp)
        simp only [At,hidle,hji,ne_eq,not_false_eq_true,and_true]
      | ended =>
        have hji : j ≠ i := hqj.resolve_left (by simp)
        simp only [At,hend,hji,false_or]
    · simp only [At,hidle]
      simp
    · simp [At,hend]
    · refine ⟨?_,hs.tidy.held,hs.tidy.taken,calls_update hs.tidy.calls (by simp)⟩
      rw [System.abortOne,System.terminate_waiting]
      exact hs.tidy.waiting
  | missed i =>
    simp only [hc,Option.some.injEq] at hst
    subst hst
    have hnext := hs.calls (h := h) (c := .idle) (by simp [hc]) (by simp)
    refine hnext.stay rfl ?_ ⟨hs.tidy.waiting,hs.tidy.held,hs.tidy.taken,hnext.tidy.calls⟩
    intro q j
    cases q with
    | queue => exact Iff.rfl
    | held => exact Iff.rfl
    | aborting => exact Iff.rfl
    | ended =>
      by_cases hji : j = i
      · subst hji
        simp [At,System.requestAbort,System.modify,Sequence.requestAbort]
      · simp [At,System.requestAbort,System.modify,hji]
  | idle => simp [hc] at hst
  | found i => simp [hc] at hst

theorem takeOut_waiting {now : ℕ} {room : ℕ} (hadm : s.admission = .take room i) (h : takesIts (.admission now) s = true) :
    i ∈ s.system.waiting ∧ (s.system.scheduler.takeOut i).waiting = s.system.waiting.erase i := by
  unfold takesIts at h
  simp only [hadm] at h
  unfold Scheduler.takeOut System.waiting
  cases hp : s.system.scheduler.policy with
  | fcfs =>
    simp only [hp,RequestQueue.peekOne] at h
    obtain ⟨rest,hw⟩ := List.head?_eq_some_iff.mp (of_decide_eq_true h)
    simp [RequestQueue.popOne,hw]
  | memoryFit =>
    simp only [hp] at h
    exact ⟨of_decide_eq_true h,rfl⟩

theorem Custody.setAdmission (hs : s.Custody) {admission : Admission} (h : admission.taken = s.admission.taken) :
    ({ s with admission := admission } : Race P L).Custody := by
  refine hs.stay rfl ?_ ⟨hs.tidy.waiting,hs.tidy.held,?_,hs.tidy.calls⟩
  · intro q j
    cases q with
    | queue => exact Iff.rfl
    | held => simp only [At,h]
    | aborting => exact Iff.rfl
    | ended => exact Iff.rfl
  · rw [h]
    exact hs.tidy.taken

theorem Custody.takeOut (hs : s.Custody) {now room : ℕ} (hadm : s.admission = .take room i)
    (hits : takesIts (.admission now) s = true) :
    ({ s with system := s.system.setQueue (s.system.scheduler.takeOut i), admission := .allocate room i } :
      Race P L).Custody := by
  obtain ⟨hi,hwait⟩ := takeOut_waiting hadm hits
  have hat : s.At .queue i := hi
  have hacc := hs.known .queue i hat (by simp)
  have hnone : ∀ j, s.admission.taken ≠ some j := by simp [hadm,Admission.taken]
  refine hs.shift (p := .held) hat hacc (by simp) rfl ?_ ?_ ?_ ?_
  · intro q j hqj
    cases q with
    | queue =>
      have hji : j ≠ i := hqj.resolve_left (by simp)
      have hmem := List.mem_erase_of_ne (l := s.system.waiting) hji
      rw [← hwait] at hmem
      exact hmem
    | held =>
      have hji : j ≠ i := hqj.resolve_left (by simp)
      have hother : (Admission.allocate room i).taken ≠ some j := by simp [Admission.taken,Ne.symm hji]
      simp only [At,hother,hnone j]
    | aborting => exact Iff.rfl
    | ended => exact Iff.rfl
  · intro hmem
    have hmem : i ∈ (s.system.scheduler.takeOut i).waiting := hmem
    rw [hwait] at hmem
    exact (hs.tidy.waiting.mem_erase_iff.mp hmem).1 rfl
  · exact Or.inr rfl
  · refine ⟨?_,hs.tidy.held,?_,hs.tidy.calls⟩
    · have hnd := hs.tidy.waiting.erase i
      rw [← hwait] at hnd
      exact hnd
    · rintro _ ⟨⟩ hheld
      have hq := (hs.only hat hacc .held).mp (Or.inl hheld)
      cases hq

theorem Custody.allocate (hs : s.Custody) {now room : ℕ} (hadm : s.admission = .allocate room i)
    (hst : s.admissionCall now = some t) : t.Custody := by
  have htaken : s.admission.taken = some i := by rw [hadm]; rfl
  have hat : s.At .held i := Or.inr htaken
  unfold admissionCall at hst
  simp only [hadm] at hst
  have hqueue := s.system.scheduler.tryAllocate_queue i (s.system.heap i) now
  have hstatus := Sequence.status_of_life (s.system.scheduler.tryAllocate_life i (s.system.heap i) now)
  rcases htry : s.system.scheduler.tryAllocate i (s.system.heap i) now with ⟨ok,sch,seq⟩
  simp only [htry] at hst hqueue hstatus
  have hended : ∀ j, (update s.system.heap i seq j).status = (s.system.heap j).status := by
    intro j
    by_cases hji : j = i
    · subst hji
      rw [update_self]
      exact hstatus
    · rw [update_of_ne hji]
  have hwait : sch.queue.waiting = s.system.waiting := congrArg RequestQueue.waiting hqueue
  have htidy : sch.queue.waiting.Nodup := by
    rw [hwait]
    exact hs.tidy.waiting
  cases ok with
  | true =>
    simp only [if_true,Option.some.injEq] at hst
    subst hst
    refine hs.stay rfl ?_ ⟨htidy,?_,?_,hs.tidy.calls⟩
    · intro q j
      cases q with
      | queue => simp only [At,System.waiting,hwait]
      | held =>
        simp only [At,htaken,List.mem_append,List.mem_singleton,Option.some.injEq,eq_comm]
        simp [Admission.taken]
      | aborting => exact Iff.rfl
      | ended => simp only [At,hended]
    · rw [List.nodup_append]
      refine ⟨hs.tidy.held,List.nodup_singleton i,?_⟩
      intro j hj k hk
      rw [List.mem_singleton.mp hk]
      rintro rfl
      exact hs.tidy.taken j htaken hj
    · intro j hj
      cases hj
  | false =>
    simp only [Bool.false_eq_true,if_false,Option.some.injEq] at hst
    subst hst
    refine hs.stay rfl ?_ ⟨htidy,hs.tidy.held,?_,hs.tidy.calls⟩
    · intro q j
      cases q with
      | queue => simp only [At,System.waiting,hwait]
      | held =>
        have hsame : (Admission.putBack i).taken = s.admission.taken := htaken.symm
        simp only [At,hsame]
      | aborting => exact Iff.rfl
      | ended => simp only [At,hended]
    · rintro _ ⟨⟩
      exact hs.tidy.taken i htaken

theorem Custody.putBack (hs : s.Custody) (hadm : s.admission = .putBack i) :
    ({ s with system := s.system.setQueue (s.system.scheduler.queue.pushFront i), admission := .idle } :
      Race P L).Custody := by
  have htaken : s.admission.taken = some i := by rw [hadm]; rfl
  have hat : s.At .held i := Or.inr htaken
  have hacc := hs.known .held i hat (by simp)
  have honly := hs.only hat hacc
  refine hs.shift (p := .queue) hat hacc (by simp) rfl ?_ ?_ ?_ ?_
  · intro q j hqj
    cases q with
    | queue =>
      have hji : j ≠ i := hqj.resolve_left (by simp)
      simp only [At,System.setQueue,System.waiting,RequestQueue.pushFront,List.mem_cons,hji,false_or]
    | held =>
      have hji : j ≠ i := hqj.resolve_left (by simp)
      simp only [At,htaken,Option.some.injEq,Ne.symm hji,or_false]
      simp [Admission.taken]
    | aborting => exact Iff.rfl
    | ended => exact Iff.rfl
  · have hheld := hs.tidy.taken i htaken
    simp only [At,hheld,false_or]
    simp [Admission.taken]
  · simp [At,System.setQueue,System.waiting,RequestQueue.pushFront]
  · refine ⟨?_,hs.tidy.held,?_,hs.tidy.calls⟩
    · have hno : i ∉ s.system.waiting := by
        intro hmem
        have hq := (honly .queue).mp hmem
        cases hq
      exact List.nodup_cons.mpr ⟨hno,hs.tidy.waiting⟩
    · intro j hj
      cases hj

theorem Custody.admissionCall (hs : s.Custody) {now : ℕ} (hits : takesIts (.admission now) s = true)
    (hst : s.admissionCall now = some t) : t.Custody := by
  have hcase := hst
  unfold Race.admissionCall at hcase
  cases hadm : s.admission with
  | idle => simp [hadm] at hcase
  | top room =>
    cases room with
    | zero =>
      simp only [hadm,Option.some.injEq] at hcase
      subst hcase
      exact hs.setAdmission (by rw [hadm]; rfl)
    | succ room =>
      simp only [hadm,Option.some.injEq] at hcase
      subst hcase
      exact hs.setAdmission (by rw [hadm]; rfl)
  | check room candidates =>
    cases candidates with
    | nil =>
      simp only [hadm,Option.some.injEq] at hcase
      subst hcase
      exact hs.setAdmission (by rw [hadm]; rfl)
    | cons i rest =>
      simp only [hadm,Option.some.injEq] at hcase
      subst hcase
      apply hs.setAdmission
      rw [hadm]
      split <;> rfl
  | take room i =>
    simp only [hadm,Option.some.injEq] at hcase
    subst hcase
    exact hs.takeOut hadm hits
  | allocate room i => exact hs.allocate hadm hst
  | putBack i =>
    simp only [hadm,Option.some.injEq] at hcase
    subst hcase
    exact hs.putBack hadm

/-- A step that takes what it has decided on keeps everybody in one place. -/
theorem Custody.step (hs : s.Custody) {ev : RaceEvent} (hits : takesIts ev s = true) (hst : Step ev s t) : t.Custody := by
  unfold Step at hst
  cases ev with
  | submit i prompt sampling =>
    simp only [exec,Option.ite_none_right_eq_some,Option.some.injEq] at hst
    obtain ⟨⟨_,hi⟩,rfl⟩ := hst
    exact hs.submit hi prompt sampling
  | setRunning running =>
    simp only [exec,Option.ite_none_right_eq_some,Option.some.injEq] at hst
    obtain ⟨_,rfl⟩ := hst
    refine hs.stay rfl ?_ ⟨hs.tidy.waiting,hs.tidy.held,hs.tidy.taken,hs.tidy.calls⟩
    intro q j
    cases q with
    | queue => exact Iff.rfl
    | held => exact Iff.rfl
    | aborting => exact Iff.rfl
    | ended => exact Iff.rfl
  | workerEnds i how =>
    simp only [exec,Option.ite_none_right_eq_some,Option.some.injEq] at hst
    obtain ⟨⟨hidle,hi⟩,rfl⟩ := hst
    exact hs.workerEnds hidle hi how
  | start room =>
    simp only [exec,Option.ite_none_right_eq_some,Option.some.injEq] at hst
    obtain ⟨hidle,rfl⟩ := hst
    exact hs.setAdmission (by rw [hidle]; rfl)
  | admission now => exact hs.admissionCall hits hst
  | find h i =>
    simp only [exec,Option.ite_none_right_eq_some,Option.some.injEq] at hst
    obtain ⟨⟨hidle,_⟩,rfl⟩ := hst
    exact hs.calls (by simp [hidle]) (by simp)
  | remove h => exact hs.remove hst
  | settle h => exact hs.settle hst

/-- Nothing has been submitted, and no thread is between two calls. -/
structure Boot (s : Race P L) : Prop where
  accepted : s.system.accepted = []
  waiting : s.system.waiting = []
  held : s.held = []
  admission : s.admission = .idle
  calls : ∀ h, s.calls h = .idle

theorem Boot.custody (h : s.Boot) : s.Custody := by
  have htaken : ∀ i, s.admission.taken ≠ some i := idle_not_taken h.admission
  refine ⟨by simp [h.accepted],?_,?_,by simp [h.held],by simp [h.held],by simp [h.calls]⟩
  · intro q i hat hne
    cases q with
    | queue => simp [At,h.waiting] at hat
    | held => simp [At,h.held,htaken i] at hat
    | aborting => simp [At,h.calls] at hat
    | ended => exact absurd rfl hne
  · rw [h.waiting]
    exact List.nodup_nil

theorem custody_reaches {s₀ : Race P L} (h0 : s₀.Custody) (hr : Reaches (StepIf takesIts) s₀ s) : s.Custody :=
  hr.invariant h0 (fun _ _ _ ht hst => ht.step hst.1 hst.2)

theorem ended_admissionCall {now : ℕ} (hst : s.admissionCall now = some t) (i : SeqId) :
    t.system.accepted = s.system.accepted ∧ (t.system.heap i).status = (s.system.heap i).status := by
  unfold admissionCall at hst
  cases hadm : s.admission with
  | allocate room j =>
    have hstatus := Sequence.status_of_life (s.system.scheduler.tryAllocate_life j (s.system.heap j) now)
    simp only [hadm] at hst
    rcases htry : s.system.scheduler.tryAllocate j (s.system.heap j) now with ⟨ok,sch,seq⟩
    simp only [htry] at hst hstatus
    have hended : (update s.system.heap j seq i).status = (s.system.heap i).status := by
      by_cases hij : i = j
      · subst hij
        rw [update_self]
        exact hstatus
      · rw [update_of_ne hij]
    cases ok with
    | true =>
      cases hst
      exact ⟨rfl,hended⟩
    | false =>
      cases hst
      exact ⟨rfl,hended⟩
  | idle => simp [hadm] at hst
  | top room =>
    cases room with
    | zero =>
      simp only [hadm] at hst
      cases hst
      exact ⟨rfl,rfl⟩
    | succ room =>
      simp only [hadm] at hst
      cases hst
      exact ⟨rfl,rfl⟩
  | check room candidates =>
    cases candidates with
    | nil =>
      simp only [hadm] at hst
      cases hst
      exact ⟨rfl,rfl⟩
    | cons j rest =>
      simp only [hadm] at hst
      cases hst
      exact ⟨rfl,rfl⟩
  | take room j =>
    simp only [hadm] at hst
    cases hst
    exact ⟨rfl,rfl⟩
  | putBack j =>
    simp only [hadm] at hst
    cases hst
    exact ⟨rfl,rfl⟩

/-- What has ended stays so. -/
theorem Step.ended {ev : RaceEvent} (hst : Step ev s t) (hi : i ∈ s.system.accepted) (hend : s.At .ended i) :
    i ∈ t.system.accepted ∧ t.At .ended i := by
  have hterm : ∀ (j : SeqId) (how : Ending), ((s.system.terminate j how.mark).heap i).status.terminal = true :=
    fun j how => (ended_terminate how i).mpr (Or.inr hend)
  unfold Step at hst
  cases ev with
  | submit j prompt sampling =>
    simp only [exec,Option.ite_none_right_eq_some,Option.some.injEq] at hst
    obtain ⟨⟨_,hj⟩,rfl⟩ := hst
    have hij : i ≠ j := fun hij => hj (hij ▸ hi)
    rcases s.system.submit_cases j prompt sampling with heq | ⟨queue,_,heq⟩
    · rw [heq]
      exact ⟨hi,hend⟩
    · rw [heq]
      refine ⟨List.mem_append_left _ hi,?_⟩
      simp only [At,update_of_ne hij]
      exact hend
  | setRunning running =>
    simp only [exec,Option.ite_none_right_eq_some,Option.some.injEq] at hst
    obtain ⟨_,rfl⟩ := hst
    exact ⟨hi,hend⟩
  | workerEnds j how =>
    simp only [exec,Option.ite_none_right_eq_some,Option.some.injEq] at hst
    obtain ⟨_,rfl⟩ := hst
    exact ⟨hi,hterm j how⟩
  | start room =>
    simp only [exec,Option.ite_none_right_eq_some,Option.some.injEq] at hst
    obtain ⟨_,rfl⟩ := hst
    exact ⟨hi,hend⟩
  | admission now =>
    obtain ⟨hacc,hstatus⟩ := ended_admissionCall hst i
    refine ⟨hacc ▸ hi,?_⟩
    simp only [At,hstatus]
    exact hend
  | find h j =>
    simp only [exec,Option.ite_none_right_eq_some,Option.some.injEq] at hst
    obtain ⟨_,rfl⟩ := hst
    exact ⟨hi,hend⟩
  | remove h =>
    simp only [exec,removeCall] at hst
    split at hst
    · cases hst
      exact ⟨hi,hend⟩
    · cases hst
  | settle h =>
    simp only [exec,settleCall] at hst
    split at hst
    · cases hst
      exact ⟨hi,hterm _ .aborted⟩
    · rename_i j _
      cases hst
      refine ⟨hi,?_⟩
      by_cases hij : i = j
      · subst hij
        simpa [At,System.requestAbort,System.modify,Sequence.requestAbort] using hend
      · simpa [At,System.requestAbort,System.modify,hij] using hend
    · cases hst

/-- The state after a whole round of `admit`. -/
def afterRound (s : Race P L) (room : ℕ) : Option SeqId × Scheduler P L × Heap P L → Race P L
  | (some i,sch,heap) =>
    { s with system := { s.system with scheduler := sch, heap := heap }, admission := .top room, held := s.held ++ [i] }
  | (none,sch,heap) =>
    { s with system := { s.system with scheduler := sch, heap := heap }, admission := .idle }

theorem reaches_check (now room : ℕ) (candidates : List SeqId) :
    Reaches Step { s with admission := .check room candidates }
      (match candidates.find? (fun i => s.system.scheduler.fits (s.system.heap i)) with
        | some i => { s with admission := .take room i }
        | none => { s with admission := .idle }) := by
  induction candidates with
  | nil => exact (Reaches.refl _).tail (l := .admission now) rfl
  | cons i rest ih =>
    have hnext : Step (.admission now) { s with admission := .check room (i :: rest) }
        { s with admission := if s.system.scheduler.fits (s.system.heap i) then .take room i else .check room rest } :=
      rfl
    cases hfit : s.system.scheduler.fits (s.system.heap i) with
    | true =>
      simp only [hfit,if_true] at hnext
      simp only [List.find?_cons,hfit]
      exact (Reaches.refl _).tail hnext
    | false =>
      simp only [hfit,Bool.false_eq_true,if_false] at hnext
      simp only [List.find?_cons,hfit]
      exact ((Reaches.refl _).tail hnext).trans ih

theorem reaches_tryTaken (now room : ℕ) (i : SeqId) :
    Reaches Step { s with admission := .take room i } (s.afterRound room
      (Scheduler.tryTaken { s.system.scheduler with queue := s.system.scheduler.takeOut i } s.system.heap i now)) := by
  have htake : Step (.admission now) { s with admission := .take room i }
      { s with system := s.system.setQueue (s.system.scheduler.takeOut i), admission := .allocate room i } := rfl
  unfold Scheduler.tryTaken
  rcases htry : Scheduler.tryAllocate { s.system.scheduler with queue := s.system.scheduler.takeOut i } i
    (s.system.heap i) now with ⟨ok,sch,seq⟩
  have halloc : (admissionCall
      { s with system := s.system.setQueue (s.system.scheduler.takeOut i), admission := .allocate room i } now) =
      if ok then some { s with
        system := { s.system with scheduler := sch, heap := update s.system.heap i seq },
        admission := .top room, held := s.held ++ [i] }
      else some { s with
        system := { s.system with scheduler := sch, heap := update s.system.heap i seq },
        admission := .putBack i } := by
    simp only [admissionCall,System.setQueue,htry]
  cases ok with
  | true => exact ((Reaches.refl _).tail htake).tail (l := .admission now) halloc
  | false =>
    simp only [Bool.false_eq_true,if_false] at halloc
    have hput : Step (.admission now)
        { s with system := s.system.setQueue (s.system.scheduler.takeOut i), admission := .allocate room i }
        { s with
          system := { s.system with scheduler := sch, heap := update s.system.heap i seq },
          admission := .putBack i } := halloc
    have hback : Step (.admission now) { s with
        system := { s.system with scheduler := sch, heap := update s.system.heap i seq },
        admission := .putBack i } (s.afterRound room
          (none,{ sch with queue := sch.queue.pushFront i },update s.system.heap i seq)) := rfl
    exact (((Reaches.refl _).tail htake).tail hput).tail hback

/-- Without an abort in between, the calls of a round are `admitRound`. -/
theorem reaches_admitRound (now room : ℕ) (hadm : s.admission = .top (room + 1)) :
    Reaches Step s (s.afterRound room (s.system.scheduler.admitRound s.system.heap now)) := by
  have htop : Step (.admission now) s { s with admission := .check room s.system.scheduler.candidates } := by
    simp only [Step,exec,admissionCall,hadm]
  have hcheck := ((Reaches.refl s).tail htop).trans (reaches_check now room s.system.scheduler.candidates)
  unfold Scheduler.admitRound
  unfold Scheduler.candidates at hcheck
  cases hp : s.system.scheduler.policy with
  | memoryFit =>
    simp only [hp] at hcheck
    simp only [Scheduler.memoryFitRound]
    cases hfind : s.system.scheduler.queue.waiting.find? (fun i => s.system.scheduler.fits (s.system.heap i)) with
    | none =>
      rw [hfind] at hcheck
      exact hcheck
    | some i =>
      rw [hfind] at hcheck
      have hout : s.system.scheduler.takeOut i = (s.system.scheduler.queue.remove i).2 := by
        simp only [Scheduler.takeOut,hp]
      have htaken := hcheck.trans (reaches_tryTaken now room i)
      rw [hout] at htaken
      exact htaken
  | fcfs =>
    simp only [hp] at hcheck
    simp only [Scheduler.fcfsRound]
    cases hpeek : s.system.scheduler.queue.peekOne with
    | none =>
      rw [hpeek] at hcheck
      exact hcheck
    | some i =>
      rw [hpeek] at hcheck
      cases hfit : s.system.scheduler.fits (s.system.heap i) with
      | true =>
        simp only [Option.toList_some,List.find?_cons,hfit] at hcheck
        have hout : s.system.scheduler.takeOut i = s.system.scheduler.queue.popOne.2 := by
          simp only [Scheduler.takeOut,hp]
        have htaken := hcheck.trans (reaches_tryTaken now room i)
        rw [hout] at htaken
        simp only [hfit,if_true]
        exact htaken
      | false =>
        simp only [Option.toList_some,List.find?_cons,List.find?_nil,hfit] at hcheck
        simp only [hfit,Bool.false_eq_true,if_false]
        exact hcheck

end Race

/-- As long as `admit` takes out of the queue what it has decided on, every
accepted sequence is at one place, and one that has ended stays ended and is never
admitted. -/
theorem one_place {s₀ s : Race P L} (h0 : s₀.Boot) (hr : Reaches (Race.StepIf Race.takesIts) s₀ s) :
    (∀ i ∈ s.system.accepted, ∃! p, s.At p i) ∧
    ∀ t, Reaches (Race.StepIf Race.takesIts) s t → ∀ i ∈ s.system.accepted, s.At .ended i →
      t.At .ended i ∧ ¬t.At .held i ∧ ¬t.At .queue i := by
  have hs := Race.custody_reaches h0.custody hr
  refine ⟨hs.place,?_⟩
  intro t hst i hi hend
  have ht := Race.custody_reaches hs hst
  have hstay : i ∈ t.system.accepted ∧ t.At .ended i := by
    refine hst.invariant (P := fun t => i ∈ t.system.accepted ∧ t.At .ended i) ⟨hi,hend⟩ ?_
    exact fun _ _ _ hu hstep => hstep.2.ended hu.1 hu.2
  have honly := ht.only hstay.2 hstay.1
  refine ⟨hstay.2,?_,?_⟩
  · rw [honly]
    simp
  · rw [honly]
    simp

def roomyRace : Race ℕ Token := { system := roomySystem }

theorem roomyRace_boot : roomyRace.Boot := ⟨rfl,rfl,rfl,rfl,fun _ => rfl⟩

/-- Sequence 0 is aborted before `admit` looks at the queue. -/
def abortedFirst : List RaceEvent :=
  [.submit 0 [5,6] oneToken,.submit 1 [7] oneToken,.start 1,.find 0 0,.remove 0,.settle 0] ++
    List.replicate 4 (.admission 0)

theorem one_place_aborted : ∃ s : Race ℕ Token, (s.system.heap 0).status = .aborted ∧ s.held = [1] ∧
    (∃! p, s.At p 1) ∧ ¬s.At .held 0 := by
  have hobs : (Race.execAll Race.takesIts abortedFirst roomyRace).map
      (fun s => ((s.system.heap 0).status,s.held,s.system.accepted)) = some (.aborted,[1],[0,1]) := by decide
  obtain ⟨s,hs,hobs⟩ := Option.map_eq_some_iff.mp hobs
  simp only [Prod.mk.injEq] at hobs
  obtain ⟨hst,hheld,hacc⟩ := hobs
  obtain ⟨hplace,hstay⟩ := one_place roomyRace_boot ⟨_,Race.execAll_run hs⟩
  have hend : s.At .ended 0 := by
    simp only [Race.At,hst]
    rfl
  exact ⟨s,hst,hheld,hplace 1 (by simp [hacc]),(hstay s (.refl s) 0 (by simp [hacc]) hend).2.1⟩

/-- Sequence 0 is aborted after `_fits` and before `pop_one`. -/
def abortedBetween : List RaceEvent :=
  [.submit 0 [5,6] oneToken,.submit 1 [7] oneToken,.find 0 0,.start 1,.admission 0,.admission 0,.remove 0,.settle 0,
    .admission 0,.admission 0]

/-- The aborted sequence is admitted, and the other one is neither waiting nor
held nor ended. -/
theorem not_one_place : ∃ s : Race ℕ Token, roomyRace.Boot ∧ Reaches Race.Step roomyRace s ∧
    (s.system.heap 0).status = .aborted ∧ s.At .held 0 ∧ ¬(∃! p, s.At p 0) ∧
    1 ∈ s.system.accepted ∧ ¬s.At .queue 1 ∧ ¬s.At .held 1 ∧ ¬s.At .ended 1 := by
  have hobs : (Race.execAll (fun _ _ => true) abortedBetween roomyRace).map
      (fun s => (((s.system.heap 0).status,s.held,s.system.accepted),s.system.waiting,(s.system.heap 1).status,
        s.admission.taken)) = some ((.aborted,[0],[0,1]),[],.waiting,none) := by decide
  obtain ⟨s,hs,hobs⟩ := Option.map_eq_some_iff.mp hobs
  simp only [Prod.mk.injEq] at hobs
  obtain ⟨⟨hst,hheld,hacc⟩,hwait,hst1,htaken⟩ := hobs
  have hreach : Reaches Race.Step roomyRace s := by
    have hrun : Reaches (Race.StepIf (fun _ _ => true)) roomyRace s := ⟨_,Race.execAll_run hs⟩
    exact hrun.mono (fun _ _ _ hst => hst.2)
  have hheld0 : s.At .held 0 := Or.inl (by simp [hheld])
  have hended0 : s.At .ended 0 := by
    simp only [Race.At,hst]
    rfl
  refine ⟨s,roomyRace_boot,hreach,hst,hheld0,?_,by simp [hacc],?_,?_,?_⟩
  · rintro ⟨p,_,hp⟩
    have hsame := (hp _ hheld0).trans (hp _ hended0).symm
    cases hsame
  · simp [Race.At,hwait]
  · simp [Race.At,hheld,htaken]
  · simp [Race.At,hst1,SequenceStatus.terminal]

end FluxEngine
