import FluxEngine.Engine.FakeLm
import FluxEngine.Server.Handlers

/-! # What the job records tell about a request

The record of a sequence is written once, before it runs, and shadows the
sequence itself; the record of a response is written again at the end of a
handler, if it gets there.
-/
namespace FluxEngine
open Transition
variable {P L : Type} {decode : List Token → Text} {i : SeqId} {x : Sequence P L} {h k : Handler} {eff : Effect}

namespace Handler

def recorded (h : Handler) : Option String :=
  if h.pc = .ended .complete then some "finished" else if h.streaming then some "running" else none

/-- A step leaves the ids alone, and what it records is the end. -/
structure Moves (h k : Handler) (remember : Option Job) : Prop where
  endpoint : k.endpoint = h.endpoint
  responseId : k.responseId = h.responseId
  streaming : k.streaming = h.streaming
  quiet : remember = none → (k.pc = .ended .complete ↔ h.pc = .ended .complete)
  records : ∀ job, remember = some job → job.id = h.jobId ∧ job.status = "finished" ∧ k.pc = .ended .complete

theorem Moves.jobId {remember : Option Job} (hm : h.Moves k remember) : k.jobId = h.jobId := by
  simp only [Handler.jobId,hm.endpoint,hm.responseId]

theorem Moves.recorded (hm : h.Moves k none) : k.recorded = h.recorded := by
  simp only [Handler.recorded,hm.quiet rfl,hm.streaming]

theorem moves_pc {pc : HandlerPc} (hh : h.pc ≠ .ended .complete) (hpc : pc ≠ .ended .complete) (t : Stream) :
    h.Moves { h with stream := t, pc := pc } none :=
  ⟨rfl,rfl,rfl,fun _ => iff_of_false hpc hh,by simp⟩

theorem moves_to {pc old : HandlerPc} {quiet : Effect} (hpc : h.pc = old) (hold : old ≠ .ended .complete)
    (hnew : pc ≠ .ended .complete) (hquiet : quiet.remember = none)
    (hex : some (({ h with pc := pc },quiet) : Handler × Effect) = some (k,eff)) : h.Moves k eff.remember := by
  cases hex
  rw [hquiet]
  exact moves_pc (hpc ▸ hold) hnew h.stream

theorem moves_stream (t : Stream) : h.Moves { h with stream := t } none := ⟨rfl,rfl,rfl,fun _ => Iff.rfl,by simp⟩

theorem moves_complete {job : Job} (hid : job.id = h.jobId) (hst : job.status = "finished") :
    h.Moves { h with pc := .ended .complete } (some job) := by
  refine ⟨rfl,rfl,rfl,by simp,?_⟩
  rintro _ ⟨⟩
  exact ⟨hid,hst,rfl⟩

theorem afterLoop_ne (x : Sequence P L) : afterLoop x ≠ .ended .complete := by
  unfold afterLoop
  simp only
  split
  · simp
  · simp

theorem moves_of_exec {ev : HandlerEvent} (hex : h.exec decode i x ev = some (k,eff)) : h.Moves k eff.remember := by
  cases ev with
  | enter =>
    simp only [exec] at hex
    split at hex
    · rename_i hpc _
      exact moves_to hpc (by simp) (by simp) rfl hex
    · rename_i hpc _
      exact moves_to hpc (by simp) (by simp) rfl hex
    · cases hex
  | drop =>
    simp only [exec,Option.ite_none_right_eq_some] at hex
    obtain ⟨hpc,hex⟩ := hex
    exact moves_to hpc (by simp) (by simp) rfl hex
  | update ev =>
    have hmap : ∀ ev, (h.stream.exec decode ev).map (fun t => (({ h with stream := t },{}) : Handler × Effect)) =
        some (k,eff) → h.Moves k eff.remember := by
      intro ev hex
      obtain ⟨t,_,ht⟩ := Option.map_eq_some_iff.mp hex
      cases ht
      exact moves_stream t
    cases ev with
    | client ev => cases hex
    | _ =>
      simp only [exec,Option.ite_none_right_eq_some] at hex
      exact hmap _ hex.2
  | iterate ev =>
    simp only [exec,Option.ite_none_right_eq_some] at hex
    obtain ⟨hpc,hex⟩ := hex
    obtain ⟨t,_,ht⟩ := Option.map_eq_some_iff.mp hex
    cases ht
    refine moves_pc (by simp [hpc]) ?_ t
    split
    · simp
    · simp
  | leave =>
    simp only [exec,Option.ite_none_right_eq_some] at hex
    obtain ⟨⟨hpc,_⟩,hex⟩ := hex
    exact moves_to hpc (by simp) (afterLoop_ne x) rfl hex
  | connected =>
    simp only [exec,Option.ite_none_right_eq_some] at hex
    obtain ⟨hpc,hex⟩ := hex
    exact moves_to hpc (by simp) (by simp) rfl hex
  | disconnected =>
    simp only [exec,Option.ite_none_right_eq_some] at hex
    obtain ⟨hpc,hex⟩ := hex
    exact moves_to hpc (by simp) (by simp) rfl hex
  | resume =>
    simp only [exec] at hex
    split at hex
    · rename_i hpc
      exact moves_to hpc (by simp) (by simp) rfl hex
    · rename_i hpc
      exact moves_to hpc (by simp) (by simp) rfl hex
    · rename_i hpc
      exact moves_to hpc (by simp) (by simp) rfl hex
    · cases hex
      exact moves_complete rfl rfl
    · cases hex
  | cancel =>
    simp only [exec] at hex
    split at hex
    · rename_i hpc
      exact moves_to hpc (by simp) (by simp) rfl hex
    · rename_i hpc
      exact moves_to hpc (by simp) (by simp) rfl hex
    · rename_i hpc
      exact moves_to hpc (by simp) (by simp) rfl hex
    · cases hex
  | close =>
    simp only [exec] at hex
    split at hex
    · rename_i hpc
      exact moves_to hpc (by simp) (by simp) rfl hex
    · rename_i hpc
      exact moves_to hpc (by simp) (by simp) rfl hex
    · rename_i hpc
      exact moves_to hpc (by simp) (by simp) rfl hex
    · rename_i hpc
      exact moves_to hpc (by simp) (by simp) rfl hex
    · cases hex
  | raise =>
    simp only [exec,Option.ite_none_right_eq_some] at hex
    obtain ⟨hpc,hex⟩ := hex
    exact moves_to hpc (by simp) (by simp) rfl hex
  | result =>
    simp only [exec] at hex
    split at hex
    · cases hex
      exact moves_complete rfl rfl
    · rename_i hpc _
      exact moves_to hpc (by simp) (by simp) rfl hex
    · cases hex

end Handler

def waitingJob (i : SeqId) : Job := ⟨.seq i,"waiting",none,none,none⟩

namespace Server
variable {handlers : SeqId → Option Handler} {issued : List ℕ} {plane : ControlPlane}

/-- Every response has an id of its own. -/
structure Numbered (handlers : SeqId → Option Handler) (issued : List ℕ) : Prop where
  issued : ∀ j k, handlers j = some k → k.responseId ∈ issued
  alone : ∀ j l k m, handlers j = some k → handlers l = some m → k.responseId = m.responseId → j = l

theorem Numbered.ne (hn : Numbered handlers issued) (hnew : h.responseId ∉ issued) {j : SeqId} (hj : handlers j = some k) :
    k.responseId ≠ h.responseId := fun heq => hnew (heq ▸ hn.issued j k hj)

theorem Numbered.receive (hn : Numbered handlers issued) (hnew : h.responseId ∉ issued) :
    Numbered (Function.update handlers i (some h)) (h.responseId :: issued) := by
  have hcases {j : SeqId} {k : Handler} (hj : Function.update handlers i (some h) j = some k) :
      j = i ∧ k = h ∨ handlers j = some k := by
    by_cases hji : j = i
    · rw [hji,Function.update_self,Option.some.injEq] at hj
      exact Or.inl ⟨hji,hj.symm⟩
    · rw [Function.update_of_ne hji] at hj
      exact Or.inr hj
  constructor
  · intro j k hj
    rcases hcases hj with ⟨_,rfl⟩ | hold
    · exact List.mem_cons_self
    · exact List.mem_cons_of_mem _ (hn.issued j k hold)
  · intro j l k m hj hl heq
    rcases hcases hj with ⟨hji,rfl⟩ | holdj
    · rcases hcases hl with ⟨hli,_⟩ | holdl
      · rw [hji,hli]
      · exact absurd heq.symm (hn.ne hnew holdl)
    · rcases hcases hl with ⟨_,rfl⟩ | holdl
      · exact absurd heq (hn.ne hnew holdj)
      · exact hn.alone j l k m holdj holdl heq

theorem Numbered.handler (hn : Numbered handlers issued) (hi : handlers i = some h) (hid : k.responseId = h.responseId) :
    Numbered (Function.update handlers i (some k)) issued := by
  have hcases {j : SeqId} {m : Handler} (hj : Function.update handlers i (some k) j = some m) :
      ∃ old, handlers j = some old ∧ m.responseId = old.responseId := by
    by_cases hji : j = i
    · rw [hji,Function.update_self,Option.some.injEq] at hj
      exact ⟨h,hji ▸ hi,hj ▸ hid⟩
    · rw [Function.update_of_ne hji] at hj
      exact ⟨m,hj,rfl⟩
  constructor
  · intro j m hj
    obtain ⟨old,hold,heq⟩ := hcases hj
    rw [heq]
    exact hn.issued j old hold
  · intro j l m n hj hl heq
    obtain ⟨oldj,holdj,heqj⟩ := hcases hj
    obtain ⟨oldl,holdl,heql⟩ := hcases hl
    exact hn.alone j l oldj oldl holdj holdl (heqj.symm.trans (heq.trans heql))

/-- What the store has: one record for every sequence since its submission, the
status of every response, and nothing under other ids. -/
structure Kept (handlers : SeqId → Option Handler) (issued : List ℕ) (plane : ControlPlane) : Prop where
  ids : Numbered handlers issued
  seqs : ∀ j, plane.Holds (.seq j) ((handlers j).map (fun _ => waitingJob j))
  responses : ∀ j k, handlers j = some k → (plane.jobs k.jobId).map Job.status = k.recorded
  unissued : ∀ e n, n ∉ issued → plane.jobs (.response e n) = none

theorem Kept.expire (hk : Kept handlers issued plane) (id : JobId) : Kept handlers issued (plane.expire id) :=
  ⟨hk.ids,fun j => (hk.seqs j).expire id,hk.responses,hk.unissued⟩

theorem Kept.close (hk : Kept handlers issued plane) : Kept handlers issued plane.close :=
  ⟨hk.ids,fun j => (hk.seqs j).close,hk.responses,hk.unissued⟩

theorem jobId_ne (hne : k.responseId ≠ h.responseId) : k.jobId ≠ h.jobId := by
  simp [Handler.jobId,hne]

theorem recorded_of_open (hpc : h.pc ≠ .ended .complete) :
    h.recorded = if h.streaming then some "running" else none := if_neg hpc

/-- The store after the records of a request. -/
structure Recorded (i : SeqId) (h : Handler) (plane after : ControlPlane) : Prop where
  seq : plane.Holds (.seq i) none → after.Holds (.seq i) (some (waitingJob i))
  seqs : ∀ j stored, j ≠ i → plane.Holds (.seq j) stored → after.Holds (.seq j) stored
  response : plane.jobs h.jobId = none → (after.jobs h.jobId).map Job.status = if h.streaming then some "running" else none
  responses : ∀ e n, .response e n ≠ h.jobId → after.jobs (.response e n) = plane.jobs (.response e n)

theorem recordRequest_spec (plane : ControlPlane) (up : Bool × Bool) (i : SeqId) (h : Handler) :
    ∃ after, recordRequest (some plane) up i h = some after ∧ Recorded i h plane after := by
  have hseq (j : SeqId) : JobId.seq j ≠ h.jobId := by simp [Handler.jobId]
  have hfirst : ∀ id, id ≠ .seq i → (plane.putJob up.1 (waitingJob i)).jobs id = plane.jobs id :=
    fun _ hne => ControlPlane.putJob_jobs_of_ne up.1 hne
  have hkeep : ∀ j stored, j ≠ i → plane.Holds (.seq j) stored →
      (plane.putJob up.1 (waitingJob i)).Holds (.seq j) stored := by
    intro j stored hj hholds
    exact hholds.putJob_of_ne (by simp [waitingJob,hj])
  cases hstream : h.streaming with
  | false =>
    refine ⟨plane.putJob up.1 (waitingJob i),by simp [recordRequest,rememberJob,hstream,waitingJob],?_,hkeep,?_,?_⟩
    · exact fun hnone => ControlPlane.Holds.putJob_first hnone
    · intro hnone
      rw [hfirst _ (hseq i).symm,hnone,hstream]
      rfl
    · intro e n _
      exact hfirst _ (by simp)
  | true =>
    let running : Job := ⟨h.jobId,"running",some i,none,none⟩
    refine ⟨(plane.putJob up.1 (waitingJob i)).putJob up.2 running,
      by simp [recordRequest,rememberJob,hstream,waitingJob,running],?_,?_,?_,?_⟩
    · intro hnone
      have hwaiting : (plane.putJob up.1 (waitingJob i)).Holds (.seq i) (some (waitingJob i)) :=
        ControlPlane.Holds.putJob_first hnone
      exact hwaiting.putJob_of_ne (hseq i)
    · intro j stored hj hholds
      exact (hkeep j stored hj hholds).putJob_of_ne (hseq j)
    · intro _
      have hlast : ((plane.putJob up.1 (waitingJob i)).putJob up.2 running).jobs h.jobId = some running :=
        ControlPlane.putJob_jobs_self _ up.2 running
      rw [hlast,hstream]
      rfl
    · intro e n hne
      rw [ControlPlane.putJob_jobs_of_ne up.2 hne]
      exact hfirst _ (by simp)

theorem Kept.receive (hk : Kept handlers issued plane) (hnone : handlers i = none) (hnew : h.responseId ∉ issued)
    (hpc : h.pc ≠ .ended .complete) (up : Bool × Bool) : ∃ after, recordRequest (some plane) up i h = some after ∧
      Kept (Function.update handlers i (some h)) (h.responseId :: issued) after := by
  obtain ⟨after,heq,hrec⟩ := recordRequest_spec plane up i h
  refine ⟨after,heq,hk.ids.receive hnew,?_,?_,?_⟩
  · intro j
    by_cases hj : j = i
    · rw [hj,Function.update_self]
      exact hrec.seq (by simpa [hnone] using hk.seqs i)
    · rw [Function.update_of_ne hj]
      exact hrec.seqs j _ hj (hk.seqs j)
  · intro j k hj
    by_cases hji : j = i
    · rw [hji,Function.update_self,Option.some.injEq] at hj
      rw [← hj,recorded_of_open hpc]
      exact hrec.response (hk.unissued _ _ hnew)
    · rw [Function.update_of_ne hji] at hj
      have hne : k.jobId ≠ h.jobId := jobId_ne (hk.ids.ne hnew hj)
      rw [Handler.jobId,hrec.responses _ _ hne]
      exact hk.responses j k hj
  · intro e n hn
    rw [List.mem_cons,not_or] at hn
    have hne : JobId.response e n ≠ h.jobId := by simp [Handler.jobId,hn.1]
    rw [hrec.responses e n hne]
    exact hk.unissued e n hn.2

/-- A handler that takes a step. -/
theorem Kept.handler {remember : Option Job} (hk : Kept handlers issued plane) (hi : handlers i = some h)
    (hm : h.Moves k remember) (up : Bool) : ∃ after,
      (match remember with
        | none => some plane
        | some job => rememberJob (some plane) up job) = some after ∧
      Kept (Function.update handlers i (some k)) issued after := by
  have hmap (j : SeqId) : (Function.update handlers i (some k) j).map (fun _ => waitingJob j) =
      (handlers j).map (fun _ => waitingJob j) := by
    by_cases hj : j = i
    · rw [hj,Function.update_self,hi]
      rfl
    · rw [Function.update_of_ne hj]
  have hids := hk.ids.handler hi hm.responseId
  cases remember with
  | none =>
    refine ⟨plane,rfl,hids,fun j => hmap j ▸ hk.seqs j,?_,hk.unissued⟩
    intro j m hj
    by_cases hji : j = i
    · rw [hji,Function.update_self,Option.some.injEq] at hj
      rw [← hj,hm.jobId,hm.recorded]
      exact hk.responses i h hi
    · rw [Function.update_of_ne hji] at hj
      exact hk.responses j m hj
  | some job =>
    obtain ⟨hid,hst,hpc⟩ := hm.records job rfl
    refine ⟨plane.putJob up job,rfl,hids,?_,?_,?_⟩
    · intro j
      rw [hmap j]
      exact (hk.seqs j).putJob_of_ne (by simp [hid,Handler.jobId])
    · intro j m hj
      by_cases hji : j = i
      · rw [hji,Function.update_self,Option.some.injEq] at hj
        rw [← hj,hm.jobId,← hid,ControlPlane.putJob_jobs_self,Handler.recorded,if_pos hpc,Option.map_some,hst]
      · rw [Function.update_of_ne hji] at hj
        have hne : m.responseId ≠ h.responseId := fun heq => hji (hk.ids.alone j i m h hj hi heq)
        rw [ControlPlane.putJob_jobs_of_ne up (hid ▸ jobId_ne hne)]
        exact hk.responses j m hj
    · intro e n hn
      have hne : JobId.response e n ≠ job.id := by
        intro heq
        rw [hid,Handler.jobId,JobId.response.injEq] at heq
        exact hn (heq.2 ▸ hk.ids.issued i h hi)
      rw [ControlPlane.putJob_jobs_of_ne up hne]
      exact hk.unissued e n hn

variable [Inhabited P] [Inhabited L] {settings : Settings} {mode : ServeEngine} {eng : CachedEngine P L}
  {may : Site → Bool} {w v : Server P L}

theorem kept_step {ev : ServerEvent} (hw : ∃ plane, w.control = some plane ∧ Kept w.handlers w.issued plane)
    (hst : Step settings mode eng may ev w v) : ∃ plane, v.control = some plane ∧ Kept v.handlers v.issued plane := by
  obtain ⟨plane,hcontrol,hk⟩ := hw
  unfold Step at hst
  cases ev with
  | worker answer =>
    obtain ⟨d,_,rfl⟩ := Option.map_eq_some_iff.mp hst
    exact ⟨plane,hcontrol,hk⟩
  | adminAbort j =>
    cases hst
    exact ⟨plane,hcontrol,hk⟩
  | requestStop =>
    cases hst
    exact ⟨plane,hcontrol,hk⟩
  | receive j n req allowed up =>
    simp only [exec,Option.ite_none_right_eq_some,Option.some.injEq] at hst
    obtain ⟨⟨_,hnone,hnew⟩,rfl⟩ := hst
    unfold receive
    split
    · exact ⟨plane,hcontrol,hk⟩
    · split
      · exact ⟨plane,hcontrol,hk⟩
      · simp only [hcontrol]
        refine hk.receive hnone hnew ?_ up
        split
        · simp
        · simp
  | handler j ev up =>
    obtain ⟨h,hj,hst⟩ := Option.bind_eq_some_iff.mp hst
    obtain ⟨r,hex,rfl⟩ := Option.map_eq_some_iff.mp hst
    simp only [affect,hcontrol]
    exact hk.handler hj (Handler.moves_of_exec hex) up
  | expire id =>
    cases hst
    exact ⟨plane.expire id,by simp [hcontrol],hk.expire id⟩
  | close =>
    cases hst
    exact ⟨plane.close,by simp [hcontrol],hk.close⟩

theorem Runs.kept (hw : w.Runs settings mode eng may) :
    ∃ plane, w.control = some plane ∧ Kept w.handlers w.issued plane := by
  obtain ⟨v,hv,hr⟩ := hw
  refine hr.invariant (P := fun w => ∃ plane, w.control = some plane ∧ Kept w.handlers w.issued plane) ?_
    (fun _ _ _ hw hst => kept_step hw hst)
  obtain ⟨enabled,hcontrol⟩ := hv.control
  refine ⟨_,hcontrol,⟨by simp [hv.handlers],by simp [hv.handlers]⟩,?_,by simp [hv.handlers],by simp⟩
  intro j
  rw [hv.handlers]
  exact ⟨rfl,by simp⟩

/-- The worker of a server runs as a worker. -/
theorem Runs.worker (hw : w.Runs settings mode eng may) : mode.Runs eng may w.worker := by
  obtain ⟨v,hv,hr⟩ := hw
  have hstart : mode.Runs eng may v.worker :=
    ⟨v.system,hv.system,by rw [← hv.worker]; exact .refl _⟩
  refine hr.invariant (P := fun w => mode.Runs eng may w.worker) hstart ?_
  intro ev w v hrun hst
  have henv {t : System P L} {ev : Event} (hev : ev.isRequest = true) (hst : FluxEngine.Step eng ev w.system t) :
      mode.Runs eng may (w.worker.1,t) := hrun.tail (.env ⟨ev,hev,hst⟩)
  unfold Step at hst
  cases ev with
  | worker answer =>
    obtain ⟨d,hd,rfl⟩ := Option.map_eq_some_iff.mp hst
    obtain ⟨l,hl⟩ := mode.act_label hd
    exact hrun.tail hl
  | adminAbort j =>
    cases hst
    exact henv rfl (.adminAbort j)
  | requestStop =>
    cases hst
    exact henv rfl .requestStop
  | receive j n req allowed up =>
    simp only [exec,Option.ite_none_right_eq_some,Option.some.injEq] at hst
    obtain ⟨⟨hfresh,_⟩,rfl⟩ := hst
    unfold receive
    split
    · exact hrun
    · split
      · exact hrun
      · exact henv rfl (.submit req.prompt _ hfresh)
  | handler j ev up =>
    obtain ⟨h,_,hst⟩ := Option.bind_eq_some_iff.mp hst
    obtain ⟨r,_,rfl⟩ := Option.map_eq_some_iff.mp hst
    simp only [affect,setSystem]
    split
    · exact henv rfl (.requestAbort j)
    · exact hrun
  | expire id =>
    cases hst
    exact hrun
  | close =>
    cases hst
    exact hrun

/-- What is reported for a request is not stale. -/
structure Fresh (w : Server P L) (i : SeqId) (h : Handler) : Prop where
  ended : (w.system.heap i).status.terminal = true → h.pc.isEnded = true → ∀ id ∈ [JobId.seq i,h.jobId], ∀ up,
    reportedStatus w.control up w.system id ≠ some "waiting" ∧ reportedStatus w.control up w.system id ≠ some "running"
  live : (w.system.heap i).status.terminal = false → ∀ up,
    reportedStatus w.control up w.system (.seq i) = some (w.system.heap i).status.value

end Server

theorem SequenceStatus.value_eq_waiting (status : SequenceStatus) : status.value = "waiting" ↔ status = .waiting := by
  cases status with
  | waiting => simp [value]
  | _ => simp [value]

variable [Inhabited P] [Inhabited L] {settings : Settings} {mode : ServeEngine} {eng : CachedEngine P L}
  {may : Site → Bool} {w : Server P L}

/-- In every state of every run: what is reported for a request is not stale exactly
while its sequence waits, and between the end of the sequence and that of its
handler.  Under the id of the sequence `waiting` is reported for good; under that of
the response, without Redis, `running` exactly for a streaming handler that has not
got to its end. -/
theorem job_status_fresh_iff (hw : w.Runs settings mode eng may) (hh : w.handlers i = some h) :
    (w.Fresh i h ↔ (w.system.heap i).status = .waiting ∨
      (w.system.heap i).status.terminal = true ∧ h.pc.isEnded = false) ∧
    (∀ up, reportedStatus w.control up w.system (.seq i) = some "waiting") ∧
    (∀ plane, w.control = some plane → plane.enabled = false → ∀ up,
      (reportedStatus w.control up w.system h.jobId = some "running" ↔
        h.streaming = true ∧ h.pc ≠ .ended .complete)) := by
  obtain ⟨plane,hcontrol,hk⟩ := hw.kept
  have hwaiting : ∀ up, reportedStatus w.control up w.system (.seq i) = some "waiting" := by
    intro up
    have hholds : plane.Holds (.seq i) (some (waitingJob i)) := by simpa [hh] using hk.seqs i
    rw [hcontrol]
    exact hholds.reported up w.system
  refine ⟨?_,hwaiting,?_⟩
  · constructor
    · intro hfresh
      cases hend : (w.system.heap i).status.terminal with
      | false =>
        have hlive := (hwaiting true).symm.trans (hfresh.live hend true)
        exact Or.inl ((SequenceStatus.value_eq_waiting _).mp (Option.some.inj hlive).symm)
      | true =>
        refine Or.inr ⟨rfl,?_⟩
        rw [← Bool.not_eq_true]
        intro hended
        exact (hfresh.ended hend hended _ List.mem_cons_self true).1 (hwaiting true)
    · rintro (hst | ⟨hend,hopen⟩)
      · refine ⟨by simp [hst,SequenceStatus.terminal],?_⟩
        intro _ up
        rw [hwaiting up,hst]
        rfl
      · exact ⟨by simp [hopen],by simp [hend]⟩
  · intro other hother hoff up
    obtain rfl : plane = other := Option.some.inj (hcontrol.symm.trans hother)
    have hreported : reportedStatus w.control up w.system h.jobId = h.recorded := by
      rw [hcontrol,Handler.jobId,ControlPlane.reported_response hoff]
      exact hk.responses i h hh
    rw [hreported,Handler.recorded]
    by_cases hpc : h.pc = .ended .complete
    · simp [hpc]
    · simp [hpc]

def twoTokenRequest : Incoming := ⟨.completions,false,[5,6],⟨0,1,2,by decide,by decide,by decide⟩⟩

def freshServer : Server ℕ Token where
  worker := ((ServeEngine.continuous.service (FakeLm.engine {})).start,roomySystem)
  control := some {}

theorem freshServer_boot : freshServer.Boot .continuous (FakeLm.engine {}) :=
  ⟨rfl,roomySystem_boot,⟨false,rfl⟩,rfl⟩

/-- The request, the worker until it has served it, and the result. -/
def requestServed : List ServerEvent :=
  [.receive 0 0 twoTokenRequest true (true,true)] ++ List.replicate 35 (.worker {}) ++ [.handler 0 .result true]

theorem requestServed_reached : ∃ w : Server ℕ Token, ∃ h : Handler,
    w.Runs {} .continuous (FakeLm.engine {}) Site.isModel ∧ w.handlers 0 = some h ∧ h.pc = .ended .complete ∧
      (w.system.heap 0).status = .finished := by
  have hobs : (playAll (fun ev w => Server.exec {} .continuous (FakeLm.engine {}) Site.isModel w ev) requestServed
      freshServer).map (fun w => ((w.handlers 0).map Handler.pc,(w.system.heap 0).status)) =
      some (some (.ended .complete),.finished) := by decide
  obtain ⟨w,hw,hobs⟩ := Option.map_eq_some_iff.mp hobs
  simp only [Prod.mk.injEq] at hobs
  obtain ⟨h,hh,hpc⟩ := Option.map_eq_some_iff.mp hobs.1
  exact ⟨w,h,⟨freshServer,freshServer_boot,_,playAll_run (fun _ _ _ _ hst => hst) hw⟩,hh,hpc,hobs.2⟩

/-- The request has been answered, and its sequence is reported as waiting. -/
theorem not_job_status_fresh : ∃ w : Server ℕ Token, ∃ h : Handler,
    w.Runs {} .continuous (FakeLm.engine {}) Site.isModel ∧ w.handlers 0 = some h ∧ h.pc = .ended .complete ∧
      (w.system.heap 0).status = .finished ∧ reportedStatus w.control true w.system (.seq 0) = some "waiting" ∧
        ¬w.Fresh 0 h := by
  obtain ⟨w,h,hw,hh,hpc,hst⟩ := requestServed_reached
  obtain ⟨plane,hcontrol,hk⟩ := hw.kept
  have hwaiting : reportedStatus w.control true w.system (.seq 0) = some "waiting" := by
    have hholds : plane.Holds (.seq 0) (some (waitingJob 0)) := by simpa [hh] using hk.seqs 0
    rw [hcontrol]
    exact hholds.reported true w.system
  refine ⟨w,h,hw,hh,hpc,hst,hwaiting,?_⟩
  intro hfresh
  exact (hfresh.ended (by rw [hst]; rfl) (by rw [hpc]; rfl) _ List.mem_cons_self true).1 hwaiting

theorem job_status_fresh_iff_served : ∃ w : Server ℕ Token, ∃ h : Handler,
    w.Runs {} .continuous (FakeLm.engine {}) Site.isModel ∧ w.handlers 0 = some h ∧
      (w.system.heap 0).status = .finished ∧ reportedStatus w.control true w.system (.seq 0) = some "waiting" := by
  obtain ⟨w,h,hw,hh,_,hst⟩ := requestServed_reached
  exact ⟨w,h,hw,hh,hst,(job_status_fresh_iff hw hh).2.1 true⟩

end FluxEngine
