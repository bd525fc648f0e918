import FluxEngine.Lib.Upkeep
import FluxEngine.Serving.AbortDelay
import FluxEngine.Serving.Starvation

/-! # Requests that nobody disturbs

A worker aborts a sequence only when it is asked to, or told to stop.  So what
nobody disturbs finishes, unless one of its calls raises, and a fair run serves
it with what the prompt generates alone.
-/
namespace FluxEngine
open Transition Interleaving
variable {P L : Type} {s t : System P L} {i j : SeqId}

/-- Nobody has asked for the end of `i`, and it has not been aborted. -/
structure Undisturbed (i : SeqId) (s : System P L) : Prop where
  unasked : (s.heap i).wantsAbort = false
  stop : s.stop = false

/-- The requests after which `i` may be aborted. -/
def Event.disturbs (i : SeqId) : Event → Bool
  | .requestAbort j => decide (j = i)
  | .adminAbort j => decide (j = i)
  | .requestStop => true
  | _ => false

namespace Undisturbed

theorem of_heap (h : Undisturbed i s) (hheap : t.heap i = s.heap i) (hstop : t.stop = s.stop) : Undisturbed i t :=
  ⟨by rw [hheap]; exact h.unasked,hstop.trans h.stop⟩

theorem of_life (h : Undisturbed i s) (hlife : (t.heap i).life = (s.heap i).life) (hstop : t.stop = s.stop) :
    Undisturbed i t :=
  ⟨(Sequence.eq_of_life Sequence.wantsAbort (fun _ => rfl) hlife).trans h.unasked,hstop.trans h.stop⟩

theorem of_update (h : Undisturbed i s) {x : Sequence P L} (hheap : t.heap = Function.update s.heap j x)
    (hx : (s.heap j).wantsAbort = false → x.wantsAbort = false) (hstop : t.stop = s.stop) : Undisturbed i t := by
  refine ⟨?_,hstop.trans h.stop⟩
  by_cases hij : i = j
  · subst hij
    rw [hheap,Function.update_self]
    exact hx h.unasked
  · rw [hheap,Function.update_of_ne hij]
    exact h.unasked

theorem terminate (h : Undisturbed i s) {mark : Sequence P L → Sequence P L}
    (hmark : ∀ x : Sequence P L, x.wantsAbort = false → (mark x).wantsAbort = false) :
    Undisturbed i (s.terminate j mark) := by
  by_cases hij : i = j
  · subst hij
    refine ⟨?_,h.stop⟩
    have hlife : ((s.terminate i mark).heap i).life = (mark (s.heap i)).closed.life := System.terminate_heap_self.1
    exact (Sequence.eq_of_life Sequence.wantsAbort (fun _ => rfl) hlife).trans (hmark _ h.unasked)
  · exact h.of_heap (System.terminate_heap_of_ne hij) rfl

theorem abortOne (h : Undisturbed i s) (hj : j ≠ i) : Undisturbed i (s.abortOne j) :=
  h.of_heap (System.terminate_heap_of_ne (Ne.symm hj)) rfl

theorem wantsAbort_of_status {x : Sequence P L} (status : SequenceStatus) (hstatus : status ≠ .aborted)
    (hx : x.wantsAbort = false) : (x.abortRequested || decide (status = .aborted)) = false := by
  simp only [Sequence.wantsAbort,Bool.or_eq_false_iff,decide_eq_false_iff_not] at hx ⊢
  exact ⟨hx.1,hstatus⟩

theorem failAll (h : Undisturbed i s) (e : Exc) (ids : List SeqId) :
    Undisturbed i (ids.foldl (fun s j => s.failOne e j) s) := by
  induction ids generalizing s with
  | nil => exact h
  | cons j rest ih =>
    exact ih (h.terminate (fun _ => wantsAbort_of_status .error (by decide)))

theorem bindPrefixAtPrefill (h : Undisturbed i s) (now : ℕ) : Undisturbed i (s.bindPrefixAtPrefill j now) := by
  unfold System.bindPrefixAtPrefill
  split
  · exact h
  · split
    · exact h.of_heap rfl rfl
    · unfold System.bindHit
      simp only
      split
      · exact h.of_update rfl id rfl
      · exact h.of_update rfl id rfl

theorem storePrefix (h : Undisturbed i s) (now : ℕ → ℕ) : Undisturbed i (s.storePrefix j now) := by
  unfold System.storePrefix
  split
  · refine h.of_update rfl ?_ rfl
    intro hx
    exact (Sequence.eq_of_life Sequence.wantsAbort (fun _ => rfl) (PrefixCache.adopt_life _ _ _ _ _)).trans hx
  · exact h

variable [Inhabited P] [Inhabited L] {eng : CachedEngine P L}

theorem request (h : Undisturbed i s) {ev : Event} (hst : Step eng ev s t) (hreq : ev.isRequest = true)
    (hev : ev.disturbs i = false) : Undisturbed i t := by
  cases hst with
  | @submit _ j prompt sampling _ =>
    rcases s.submit_cases j prompt sampling with heq | ⟨queue,_,heq⟩
    · rwa [heq]
    · rw [heq]
      exact h.of_update rfl (fun _ => rfl) rfl
  | requestAbort j =>
    have hj : j ≠ i := of_decide_eq_false hev
    exact h.of_heap (Function.update_of_ne (Ne.symm hj) _ _) rfl
  | adminAbort j =>
    have hj : j ≠ i := of_decide_eq_false hev
    unfold System.adminAbort
    split
    · have hqueue : Undisturbed i (s.setQueue (s.scheduler.queue.remove j).2) := h.of_heap rfl rfl
      exact hqueue.abortOne hj
    · split
      · exact h.of_heap (Function.update_of_ne (Ne.symm hj) _ _) rfl
      · exact h
  | requestStop => cases hev
  | _ => cases hreq

end Undisturbed

namespace Worker

/-- What every action of a worker does, to a sequence that nobody disturbs. -/
abbrev Minds {α : Type} (i : SeqId) (p : Thread P L α) : Prop := p.Upholds (Undisturbed i) (fun _ => True)

theorem minds_guard {α : Type} {f : Bool → Thread P L α} (ht : j ≠ i → Minds i (f true)) (hf : Minds i (f false)) :
    Minds i ((wantsAbort j : Thread P L Bool) >>= f) := by
  have hread : (wantsAbort j : Thread P L Bool).Upholds (Undisturbed i) (fun aborting => aborting = true → j ≠ i) := by
    refine Prog.upholds_read ?_
    rintro s hs haborting rfl
    rw [hs.unasked] at haborting
    cases haborting
  refine hread.bind ?_
  intro aborting haborting
  cases aborting with
  | true => exact ht (haborting rfl)
  | false => exact hf

/-- No action of a worker disturbs anyone. -/
theorem minds_walk : WholeWalk (P := P) (L := L) (fun _ _ => True) (fun _ => True) (Minds i) where
  pure _ := trivial
  raise := Prog.upholds_raise
  bind hp hr hf := hp.bind_of_returns hr hf
  tryCatch hp hh := hp.tryCatch hh
  look _ := Prog.upholds_read (fun _ _ => trivial)
  call value _ _ hsave := by
    intro w s hs
    beta_reduce
    cases w.outcome (value w s) with
    | error e => exact ⟨hs.of_heap rfl rfl,trivial⟩
    | ok a =>
      obtain ⟨outbox,heq⟩ := hsave a s
      simp only [heq]
      exact ⟨hs.of_heap rfl rfl,trivial⟩
  guard _ hp hq :=
    minds_guard (fun hj => (Prog.upholds_write (fun _ _ hs => hs.abortOne hj)).bind (fun _ _ => hp)) hq
  setStatus _ hstatus :=
    Prog.upholds_write (fun _ _ hs => hs.of_update rfl (Undisturbed.wantsAbort_of_status _ hstatus) rfl)
  contain e _ := Prog.upholds_write (fun _ _ hs => (hs.failAll e _).of_heap rfl rfl)
  recordToken token stop _ _ := by
    refine Prog.upholds_write (fun _ s hs => hs.of_update rfl ?_ rfl)
    intro hx
    simp only [Sequence.noteToken_eq]
    exact hx
  bindPrefix _ := Prog.upholds_write (fun w _ hs => hs.bindPrefixAtPrefill (w.now 0))
  storePrefix _ := Prog.upholds_write (fun w _ hs => hs.storePrefix w.now)
  finish result _ := by
    refine Prog.upholds_write (fun _ s hs => ?_)
    have hobserved : Undisturbed i (s.observeFinished result) := hs.of_heap rfl rfl
    exact hobserved.terminate (fun _ => Undisturbed.wantsAbort_of_status .finished (by decide))
  batchSize _ := Prog.upholds_write (fun _ _ hs => hs.of_heap rfl rfl)
  await _ := Prog.upholds_await
  setRunning _ := Prog.upholds_write (fun _ _ hs => hs.of_heap rfl rfl)
  admitRequests count w s hs :=
    ⟨hs.of_life (Scheduler.admitLoop_life w.now (s.scheduler.maxBatch - count s) s.scheduler s.heap i) rfl,trivial⟩
  turn _ :=
    Prog.upholds_write (fun _ _ hs => hs.of_update rfl (Undisturbed.wantsAbort_of_status .decoding (by decide)) rfl)

theorem upholds_unlessStopped {p : Thread P L Bool} (hp : p.Upholds (Undisturbed i) (fun more => more = true)) :
    (do
      let stopped ← isStopped
      if stopped then pure false else p : Thread P L Bool).Upholds (Undisturbed i) (fun more => more = true) := by
  have hread : (isStopped : Thread P L Bool).Upholds (Undisturbed i) (fun stopped => stopped = false) :=
    Prog.upholds_read (fun _ hs => hs.stop)
  refine hread.bind ?_
  rintro stopped rfl
  exact hp

variable [Inhabited L] (eng : CachedEngine P L)

theorem upholds_queuedRound : (queuedRound eng).Upholds (Undisturbed i) (fun more => more = true) := by
  refine upholds_unlessStopped ((minds_walk.waitIfIdle _).bind (fun _ _ => upholds_unlessStopped ?_))
  refine (minds_walk.admitRequests _).bind ?_
  intro admitted _
  cases admitted with
  | nil => exact rfl
  | cons j rest =>
    have hserve : Minds i (serveOne eng j) := minds_walk.serveOne eng (fun _ => trivial) (fun _ _ _ => trivial) j
    exact hserve.bind (fun _ _ => rfl)

theorem upholds_continuousRound [Inhabited P] :
    (continuousRound eng).Upholds (Undisturbed i) (fun more => more = true) := by
  refine upholds_unlessStopped ((minds_walk.waitIfIdle _).bind (fun _ _ => upholds_unlessStopped ?_))
  have hiterate : Minds i (iterate eng) := minds_walk.iterate eng (fun _ => trivial) (fun _ _ _ => trivial)
  exact hiterate.bind (fun _ _ => rfl)

end Worker

variable [Inhabited P] [Inhabited L] {eng : CachedEngine P L} {may : Site → Bool} {mode : ServeEngine}
  {c : WorkerControl P L × System P L}

/-- The serving protocol where every request leaves `i` undisturbed. -/
def servingFor (eng : CachedEngine P L) (may : Site → Bool) (i : SeqId) : Protocol (System P L) Answer Label :=
  { serving eng may with rely := fun s t => ∃ ev : Event, (ev.isRequest = true ∧ ev.disturbs i = false) ∧ Step eng ev s t }

theorem servingFor_tamer (i : SeqId) : (servingFor eng may i).Tamer (serving eng may) := by
  constructor
  · rintro s t ⟨ev,⟨hreq,_⟩,hst⟩
    exact ⟨ev,hreq,hst⟩
  · exact fun _ _ => Iff.rfl

theorem ServeEngine.upholds_body (mode : ServeEngine) (eng : CachedEngine P L) (i : SeqId) :
    (mode.service eng).body.Upholds (Undisturbed i) (fun more => more = true) := by
  cases mode with
  | queued => exact Worker.upholds_queuedRound eng
  | continuous => exact Worker.upholds_continuousRound eng

theorem ServeEngine.undisturbed_reaches (hs : Undisturbed i s)
    (hr : Reaches ((mode.service eng).Step (servingFor eng may i)) ((mode.service eng).start,s) c) :
    Undisturbed i c.2 ∧ Service.Upholding (Undisturbed i) c.1 := by
  refine Service.upholds_reaches (mode.upholds_body eng i) ?_ hs hr
  rintro s t hs ⟨ev,⟨hreq,hev⟩,hst⟩
  exact hs.request hst hreq hev

theorem ServeEngine.play_acts_sound {Q : Protocol (System P L) Answer Label} (hQ : Q.Tamer (serving eng may))
    {d : WorkerControl P L × System P L} {ws : List Answer} (h : mode.play eng may (ws.map .act) c = some d) :
    Reaches ((mode.service eng).Step Q) c d := by
  induction ws generalizing c with
  | nil =>
    cases h
    exact .refl _
  | cons w ws ih =>
    obtain ⟨e,he,h⟩ := Option.bind_eq_some_iff.mp h
    obtain ⟨l,hl⟩ := mode.act_label he
    exact ((Reaches.refl _).tail (hl.tame hQ)).trans (ih h)

/-- A worker aborts nobody who has not been asked to end, and goes on until it is
told to stop, unless a call that nothing covers raises. -/
theorem aborts_on_request_only (hboot : s.Boot) (hs : (s.heap i).wantsAbort = false)
    (hr : Reaches ((mode.service eng).Step (servingFor eng may i)) ((mode.service eng).start,s) c) :
    (c.2.heap i).status ≠ .aborted ∧ (c.1.isLooping = true ∨ ∃ e, c.1 = .crashed e) ∧
      ((∀ site, may site = true → site.covered = true) → c.1.isLooping = true) := by
  obtain ⟨hc,hcontrol⟩ := ServeEngine.undisturbed_reaches ⟨hs,hboot.stop⟩ hr
  have hruns : mode.Runs eng may c := ⟨s,hboot,hr.mono (fun _ _ _ hst => hst.widen (servingFor_tamer i))⟩
  obtain ⟨c,t⟩ := c
  have hunasked := hc.unasked
  simp only [Sequence.wantsAbort,Bool.or_eq_false_iff,decide_eq_false_iff_not] at hunasked
  refine ⟨hunasked.2,?_⟩
  cases c with
  | looping p => exact ⟨Or.inl rfl,fun _ => rfl⟩
  | closing p => exact hcontrol.elim
  | returned => exact hcontrol.elim
  | crashed e => exact ⟨Or.inr ⟨e,rfl⟩,fun hcov => absurd rfl (hruns.not_crashed hcov e)⟩

def oneAborted : System ℕ Token := twoWaiting.requestAbort 0

theorem reaches_oneAborted : Reaches ((ServeEngine.continuous.service (FakeLm.engine {})).Step
    (servingFor (FakeLm.engine {}) Site.isModel 1)) ((ServeEngine.continuous.service (FakeLm.engine {})).start,roomySystem)
    ((ServeEngine.continuous.service (FakeLm.engine {})).start,oneAborted) :=
  (((Reaches.refl _).tail (.env ⟨_,⟨rfl,rfl⟩,.submit [5,6] twoTokens (by decide)⟩)).tail
    (.env ⟨_,⟨rfl,rfl⟩,.submit [7] twoTokens (by decide)⟩)).tail (.env ⟨_,⟨rfl,rfl⟩,.requestAbort 0⟩)

theorem aborts_on_request_only_two : ∃ c : WorkerControl ℕ Token × System ℕ Token,
    (c.2.heap 0).status = .aborted ∧ (c.2.heap 1).status ≠ .aborted ∧ c.1.isLooping = true := by
  have hobs : (ServeEngine.continuous.play (FakeLm.engine {}) Site.isModel ((List.replicate 40 {}).map .act)
      ((ServeEngine.continuous.service (FakeLm.engine {})).start,oneAborted)).map (fun c => (c.2.heap 0).status) =
      some .aborted := by decide
  obtain ⟨c,hc,hobs⟩ := Option.map_eq_some_iff.mp hobs
  have hr := reaches_oneAborted.trans (ServeEngine.play_acts_sound (servingFor_tamer 1) hc)
  obtain ⟨hstatus,_,hloop⟩ := aborts_on_request_only roomySystem_boot (by decide) hr
  exact ⟨c,hobs,hstatus,hloop (fun _ => Site.covered_of_isModel)⟩

end FluxEngine
