import FluxEngine.Serving.ContinuousRound
import FluxEngine.Serving.QueuedRound
import FluxEngine.Serving.SoloAgreement

/-! # Runs of a worker

A run interleaves the actions of one of the two workers with any requests.  It
ends and signals every sequence once, and what it generates for a sequence is
what the prompt generates alone.
-/
namespace FluxEngine
open Transition Interleaving
variable {P L : Type} {eng : CachedEngine P L} {may : Site → Bool} {s t : System P L} {i : SeqId}

abbrev WorkerControl (P L : Type) := Control (System P L) Answer Label Exc

/-- Nothing has been submitted, and the worker is about to start. -/
structure System.Boot (s : System P L) : Prop where
  initial : s.Initial
  running : s.stats.running = []
  inFlight : s.inFlight = none
  stop : s.stop = false

theorem System.bindPrefixAtPrefill_stop (s : System P L) (i : SeqId) (now : ℕ) :
    (s.bindPrefixAtPrefill i now).stop = s.stop := by
  unfold System.bindPrefixAtPrefill System.bindHit
  split
  · rfl
  · split
    · rfl
    · split <;> rfl

theorem System.storePrefix_stop (s : System P L) (i : SeqId) (now : ℕ → ℕ) : (s.storePrefix i now).stop = s.stop := by
  unfold System.storePrefix
  split <;> rfl

variable [Inhabited P] [Inhabited L]

/-- Nobody takes back a request to stop. -/
theorem Step.stop {ev : Event} (h : Step eng ev s t) (hs : s.stop = true) : t.stop = true := by
  cases h with
  | @submit _ j prompt sampling _ =>
    rcases s.submit_cases j prompt sampling with heq | ⟨queue,_,heq⟩
    · rw [heq]
      exact hs
    · rw [heq]
      exact hs
  | adminAbort j =>
    unfold System.adminAbort
    split
    · exact hs
    · split
      · exact hs
      · exact hs
  | requestStop => rfl
  | bind now _ =>
    rw [System.bindPrefixAtPrefill_stop]
    exact hs
  | store now _ _ =>
    rw [System.storePrefix_stop]
    exact hs
  | drain =>
    rcases s.drainOne_cases with ⟨_,heq⟩ | ⟨j,queue,_,_,heq⟩
    · rw [heq]
      exact hs
    · rw [heq]
      exact hs
  | _ => exact hs

theorem stop_of_reaches (h : Reaches (Step eng) s t) (hs : s.stop = true) : t.stop = true :=
  h.invariant (P := fun t => t.stop = true) hs (fun _ _ _ ht hst => hst.stop ht)

theorem safe_stopped {α : Type} {p : Thread P L α} {Q : α → System P L → Prop} {E : Exc → System P L → Prop}
    (h : p.Safe (serving eng may) Q E s) (hs : s.stop = true) :
    p.Safe (serving eng may) (fun a t => Q a t ∧ t.stop = true) E s :=
  (Worker.safe_since h (.refl s)).mono (fun _ _ ht => ⟨ht.1,stop_of_reaches ht.2 hs⟩) (fun _ _ => id)

namespace ServeEngine
variable (mode : ServeEngine)

def service (eng : CachedEngine P L) : ServeEngine → Service (System P L) Answer Label Exc
  | .queued => Worker.queued eng
  | .continuous => Worker.continuous eng

/-- The worker stands between two rounds. -/
def Rest : ServeEngine → System P L → Prop
  | .queued => Vacant
  | .continuous => Worker.Rested

def Over (s : System P L) : Prop := Finished s ∧ s.stop = true

theorem verified : (mode.service eng).Verified (serving eng may) mode.Rest (fun s => s.stop = true ∧ mode.Rest s) Over
    (Worker.Uncovered may) := by
  have hstop : ∀ {S : Service (System P L) Answer Label Exc} {Rest : System P L → Prop},
      S.Verified (serving eng may) Rest (fun s => s.stop = true ∧ Rest s) Finished (Worker.Uncovered may) →
      S.Verified (serving eng may) Rest (fun s => s.stop = true ∧ Rest s) Over (Worker.Uncovered may) :=
    fun h => ⟨h.sound,h.body,fun s hs => safe_stopped (h.epilogue s hs) hs.1⟩
  cases mode with
  | queued => exact hstop Worker.queued_verified
  | continuous => exact hstop Worker.continuous_verified

omit [Inhabited P] [Inhabited L] in
theorem rest_of_boot (h : s.Boot) : mode.Rest s := by
  have hcrew : ∀ {Φ : SeqId → Own P L → Prop}, Crew none [] [] Φ s := by
    refine ⟨h.inFlight,h.running,List.nodup_nil,by simp,?_,by simp⟩
    rintro i ⟨hi,_⟩
    rw [h.initial.accepted] at hi
    exact hi
  cases mode with
  | queued => exact hcrew
  | continuous => exact ⟨[],hcrew⟩

/-- The steps of the worker and of the requests; calls raise where they `may`. -/
abbrev Next (eng : CachedEngine P L) (may : Site → Bool) : Option (Label × Answer) → WorkerControl P L × System P L →
    WorkerControl P L × System P L → Prop :=
  (mode.service eng).Step (serving eng may)

def Runs (eng : CachedEngine P L) (may : Site → Bool) (c : WorkerControl P L × System P L) : Prop :=
  ∃ s, s.Boot ∧ Reaches (mode.Next eng may) ((mode.service eng).start,s) c

variable {mode} {c d : WorkerControl P L × System P L}

theorem Runs.good (h : mode.Runs eng may c) :
    Service.Good (serving eng may) mode.Rest (fun s => s.stop = true ∧ mode.Rest s) Over (Worker.Uncovered may) c := by
  obtain ⟨s,hs,hr⟩ := h
  have hinv : Reachable eng s := ⟨s,hs.initial,.refl s⟩
  exact Service.good_reaches mode.verified (Service.good_start mode.verified hinv (mode.rest_of_boot hs)) hr

theorem Runs.reachable (h : mode.Runs eng may c) : Reachable eng c.2 := h.good.1

theorem Runs.tail (h : mode.Runs eng may c) {l : Option (Label × Answer)} (hst : mode.Next eng may l c d) :
    mode.Runs eng may d := by
  obtain ⟨s,hs,hr⟩ := h
  exact ⟨s,hs,hr.tail hst⟩

theorem Runs.reaches_step (h : mode.Runs eng may c) {l : Option (Label × Answer)} (hst : mode.Next eng may l c d) :
    Reaches (Step eng) c.2 d.2 := by
  cases hst with
  | env hr =>
    obtain ⟨ev,_,hst⟩ := hr
    exact (Reaches.refl _).tail hst
  | act ha hw => exact Orderly.reaches (Service.good_act mode.verified h.good ha hw).1.1

theorem Runs.reaches (h : mode.Runs eng may c) (hr : Reaches (mode.Next eng may) c d) :
    mode.Runs eng may d ∧ Reaches (Step eng) c.2 d.2 := by
  refine hr.invariant (P := fun d => mode.Runs eng may d ∧ Reaches (Step eng) c.2 d.2) ⟨h,.refl _⟩ ?_
  rintro l d e ⟨hd,hcd⟩ hst
  exact ⟨hd.tail hst,hcd.trans (hd.reaches_step hst)⟩

theorem Runs.not_crashed (h : mode.Runs eng may c) (hcov : ∀ site, may site = true → site.covered = true) (e : Exc) :
    c.1 ≠ .crashed e := by
  intro hc
  obtain ⟨_,hstand⟩ := h.good
  obtain ⟨c,s⟩ := c
  subst hc
  obtain ⟨_,site,hmay,hun⟩ := hstand
  rw [hcov site hmay] at hun
  cases hun

variable (mode)

/-- What happens next: a request, or an action of the worker. -/
inductive Move
  | request (ev : Event)
  | act (w : Answer)

/-- An action of the worker, if it is enabled and its call may raise. -/
def act (eng : CachedEngine P L) (may : Site → Bool) (w : Answer) (c : WorkerControl P L × System P L) :
    Option (WorkerControl P L × System P L) :=
  match (mode.service eng).advance w c.2 c.1 with
  | some (.call site _,d,t) => if w.raises.isSome && !may site then none else some (d,t)
  | some (_,d,t) => some (d,t)
  | none => none

def play (eng : CachedEngine P L) (may : Site → Bool) :
    List Move → WorkerControl P L × System P L → Option (WorkerControl P L × System P L)
  | [], c => some c
  | .request ev :: moves, (c,s) =>
    if ev.isRequest then (ev.exec eng s).bind (fun t => play eng may moves (c,t)) else none
  | .act w :: moves, c => (act mode eng may w c).bind (play eng may moves)

theorem act_label {w : Answer} (h : mode.act eng may w c = some d) : ∃ l, mode.Next eng may (some l) c d := by
  obtain ⟨c,s⟩ := c
  unfold act at h
  cases ha : (mode.service eng).advance w s c with
  | none => simp [ha] at h
  | some r =>
    obtain ⟨l,d',t⟩ := r
    have hnext : (serving eng may).answers l w → d = (d',t) → ∃ l, mode.Next eng may (some l) (c,s) d := by
      rintro hw rfl
      exact ⟨_,.act ha hw⟩
    simp only [ha] at h
    cases l with
    | call site ids =>
      simp only [Option.ite_none_left_eq_some,Option.some.injEq] at h
      refine hnext ?_ h.2.symm
      rintro _ _ ⟨⟩ hraises
      by_contra hnot
      exact h.1 (by simp [hraises,hnot])
    | tau =>
      refine hnext ?_ (Option.some.inj h).symm
      rintro _ _ ⟨⟩
    | contain ids =>
      refine hnext ?_ (Option.some.inj h).symm
      rintro _ _ ⟨⟩

theorem play_sound {moves : List Move} (h : mode.play eng may moves c = some d) :
    Reaches (mode.Next eng may) c d := by
  induction moves generalizing c with
  | nil =>
    cases h
    exact .refl _
  | cons move moves ih =>
    cases move with
    | request ev =>
      obtain ⟨c,s⟩ := c
      simp only [play,Option.ite_none_right_eq_some] at h
      obtain ⟨hev,h⟩ := h
      obtain ⟨t,ht,h⟩ := Option.bind_eq_some_iff.mp h
      exact ((Reaches.refl _).tail (.env ⟨ev,hev,ev.exec_sound ht⟩)).trans (ih h)
    | act w =>
      obtain ⟨e,he,h⟩ := Option.bind_eq_some_iff.mp h
      obtain ⟨l,hl⟩ := mode.act_label he
      exact ((Reaches.refl _).tail hl).trans (ih h)

theorem runs_of_play {moves : List Move} (hs : s.Boot)
    (h : mode.play eng may moves ((mode.service eng).start,s) = some c) : mode.Runs eng may c :=
  ⟨s,hs,mode.play_sound h⟩

end ServeEngine

/-- Where only model calls raise, a worker survives, ends no sequence twice and
signals each one once; it returns on request, with everybody ended. -/
theorem ends_once {mode : ServeEngine} {c : WorkerControl P L × System P L} (h : mode.Runs eng Site.isModel c) :
    (∀ e, c.1 ≠ .crashed e) ∧
    (∀ i ∈ c.2.accepted, (c.2.heap i).Signalled) ∧
    (∀ d, Reaches (mode.Next eng Site.isModel) c d → ∀ i ∈ c.2.accepted, i ∈ d.2.accepted ∧
      ((c.2.heap i).status.terminal = true → (d.2.heap i).outcome = (c.2.heap i).outcome)) ∧
    (∀ l d, mode.Next eng Site.isModel l c d → c.1 ≠ .returned → d.1 = .returned →
      d.2.stop = true ∧ d.2.waiting = [] ∧
      ∀ i ∈ d.2.accepted, (d.2.heap i).status.terminal = true ∧ (d.2.heap i).finishedEvent = true) := by
  refine ⟨?_,fun i hi => h.reachable.signalled hi,?_,?_⟩
  · apply h.not_crashed
    intro site hsite
    cases site <;> first | rfl | cases hsite
  · intro d hr i hi
    have hrun := (h.reaches hr).2
    exact ⟨h.reachable.accepted_run hrun hi,h.reachable.outcome_eq hrun hi⟩
  · intro l d hst hc hd
    have hdone : ServeEngine.Over d.2 := by
      cases hst with
      | env hr => exact absurd hd hc
      | act ha hw => exact (Service.good_act mode.verified h.good ha hw).2.2.1 hd
    obtain ⟨⟨hwait,hend⟩,hstop⟩ := hdone
    refine ⟨hstop,hwait,?_⟩
    intro i hi
    exact ⟨hend i hi,((h.tail hst).reachable.signalled hi).event.trans (hend i hi)⟩

def twoTokens : SamplingParams := { maxTokens := 2, ignoreEos := true }

theorem roomySystem_boot : roomySystem.Boot := ⟨roomySystem_initial,rfl,rfl,rfl⟩

def bothServed : List ServeEngine.Move :=
  [.request (.submit 0 [5,6] twoTokens),.request (.submit 1 [7] twoTokens)] ++ List.replicate 60 (.act {})

theorem ends_once_served : ∃ c : WorkerControl ℕ Token × System ℕ Token,
    ServeEngine.continuous.Runs (FakeLm.engine {}) Site.isModel c ∧ (c.2.heap 0).status = .finished ∧
      (c.2.heap 0).tokenQueue = [some 7,some 8,none] ∧ (c.2.heap 0).Signalled := by
  have hobs : (ServeEngine.continuous.play (FakeLm.engine {}) Site.isModel bothServed
      ((ServeEngine.continuous.service (FakeLm.engine {})).start,roomySystem)).map
      (fun c => (c.2.accepted,(c.2.heap 0).status,(c.2.heap 0).tokenQueue)) =
      some ([0,1],.finished,[some 7,some 8,none]) := by decide
  obtain ⟨c,hc,hobs⟩ := Option.map_eq_some_iff.mp hobs
  simp only [Prod.mk.injEq] at hobs
  have hrun := ServeEngine.continuous.runs_of_play roomySystem_boot hc
  exact ⟨c,hrun,hobs.2.1,hobs.2.2,(ends_once hrun).2.1 0 (by simp [hobs.1])⟩

/-- Whatever is served beside it, a greedy sequence gets the output of its prompt
alone, or a prefix of it before it has finished.  An empty prompt generates nothing,
alone or served. -/
theorem serves_alone (M : StepwiseModel eng.model) {mode : ServeEngine} {c : WorkerControl P L × System P L}
    (h : mode.Runs eng may c) (hi : i ∈ c.2.accepted) (htemp : (c.2.heap i).sampling.temperature ≤ 0)
    (hmax : 1 ≤ (c.2.heap i).sampling.maxTokens) (rnd : ℕ → ℕ) :
    ((c.2.heap i).promptTokenIds ≠ [] →
      ∃ r, eng.generateIds (c.2.heap i).promptTokenIds (c.2.heap i).sampling rnd = .ok r ∧
        (c.2.heap i).outputIds <+: r.outputTokenIds ∧
        ((c.2.heap i).status = .finished → (c.2.heap i).outputIds = r.outputTokenIds ∧
          (c.2.heap i).finishReason = some r.finishReason)) ∧
    ((c.2.heap i).promptTokenIds = [] →
      eng.generateIds [] (c.2.heap i).sampling rnd = .error noPosition ∧
        (c.2.heap i).outputIds = [] ∧ (c.2.heap i).status ≠ .finished) :=
  M.serves_solo h.reachable hi htemp hmax rnd

theorem serves_alone_served : ∃ c : WorkerControl ℕ Token × System ℕ Token,
    ServeEngine.continuous.Runs (FakeLm.engine {}) Site.isModel c ∧ (c.2.heap 1).status = .finished ∧
      ∃ r, (FakeLm.engine {}).generateIds [7] twoTokens (fun _ => 0) = .ok r ∧
        (c.2.heap 1).outputIds = r.outputTokenIds ∧ (c.2.heap 1).finishReason = some r.finishReason := by
  have hobs : (ServeEngine.continuous.play (FakeLm.engine {}) Site.isModel bothServed
      ((ServeEngine.continuous.service (FakeLm.engine {})).start,roomySystem)).map
      (fun c => (c.2.accepted,(c.2.heap 1).status,(c.2.heap 1).promptTokenIds,(c.2.heap 1).sampling)) =
      some ([0,1],.finished,[7],twoTokens) := by decide
  obtain ⟨c,hc,hobs⟩ := Option.map_eq_some_iff.mp hobs
  simp only [Prod.mk.injEq] at hobs
  obtain ⟨hacc,hfin,hprompt,hsampling⟩ := hobs
  have hrun := ServeEngine.continuous.runs_of_play roomySystem_boot hc
  obtain ⟨r,hr,_,hdone⟩ := (serves_alone fakeModel hrun (i := 1) (by simp [hacc]) (by rw [hsampling]; decide)
    (by rw [hsampling]; decide) (fun _ => 0)).1 (by rw [hprompt]; decide)
  rw [hprompt,hsampling] at hr
  exact ⟨c,hrun,hfin,r,hr,hdone hfin⟩

end FluxEngine
