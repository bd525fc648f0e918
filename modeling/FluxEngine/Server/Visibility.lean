import FluxEngine.Serving.Actions
import FluxEngine.Server.Admin

/-! # What the admin routes see of a running worker

The event loop runs other handlers wherever the continuous worker awaits.  At
each of these points every sequence in flight waits, runs, or is still to be
started by the round; the handlers do not see the last.
-/
namespace FluxEngine
open Transition Interleaving
open Relation (ReflTransGen)
variable {P L : Type} {s t : System P L} {i : SeqId} {ids run now later : List SeqId} {who : SeqId → Prop}

/-- The queue and the running list stay as they are, and so does the status of
everybody but `who`. -/
structure Quiet (who : SeqId → Prop) (s t : System P L) : Prop where
  accepted : t.accepted = s.accepted
  waiting : t.waiting = s.waiting
  running : t.stats.running = s.stats.running
  status : ∀ j, ¬who j → (t.heap j).status = (s.heap j).status

theorem Quiet.refl (s : System P L) : Quiet who s s := ⟨rfl,rfl,rfl,fun _ _ => rfl⟩

theorem Quiet.trans {u : System P L} (h : Quiet who s t) (k : Quiet who t u) : Quiet who s u :=
  ⟨k.accepted.trans h.accepted,k.waiting.trans h.waiting,k.running.trans h.running,
    fun j hj => (k.status j hj).trans (h.status j hj)⟩

theorem status_update (hi : who i) (x : Sequence P L) :
    ∀ j, ¬who j → (Function.update s.heap i x j).status = (s.heap j).status := by
  intro j hj
  have hne : j ≠ i := fun hji => hj (hji ▸ hi)
  rw [Function.update_of_ne hne]

theorem quiet_modify (hi : who i) (f : Sequence P L → Sequence P L) : Quiet who s (s.modify i f) :=
  ⟨rfl,rfl,rfl,status_update hi _⟩

theorem quiet_terminate (hi : who i) (mark : Sequence P L → Sequence P L) : Quiet who s (s.terminate i mark) := by
  refine ⟨rfl,System.terminate_waiting,rfl,?_⟩
  intro j hj
  have hne : j ≠ i := fun hji => hj (hji ▸ hi)
  rw [System.terminate_heap_of_ne hne]

theorem quiet_finishSequence (hi : who i) (result : GenerateResult) : Quiet who s (s.finishSequence i result) := by
  have hobserved : Quiet who s (s.observeFinished result) := ⟨rfl,rfl,rfl,fun _ _ => rfl⟩
  exact hobserved.trans (quiet_terminate hi _)

theorem quiet_recordToken (hi : who i) (token : Token) (stop : List Token) : Quiet who s (s.recordToken i token stop) :=
  ⟨rfl,rfl,rfl,status_update hi _⟩

theorem quiet_bind (hi : who i) (s : System P L) (now : ℕ) : Quiet who s (s.bindPrefixAtPrefill i now) := by
  have hbound : (s.scheduler.lookupPrefix (s.heap i).promptTokenIds now).2.queue = s.scheduler.queue :=
    congrArg Prod.fst (Scheduler.desk_lookupPrefix (s.heap i).promptTokenIds now)
  unfold System.bindPrefixAtPrefill
  split
  · exact .refl s
  · rcases hl : s.scheduler.lookupPrefix (s.heap i).promptTokenIds now with ⟨hit,scheduler⟩
    rw [hl] at hbound
    cases hit with
    | none => exact ⟨rfl,congrArg RequestQueue.waiting hbound,rfl,fun _ _ => rfl⟩
    | some hit =>
      unfold System.bindHit
      simp only
      split
      · exact ⟨rfl,congrArg RequestQueue.waiting hbound,rfl,status_update hi _⟩
      · exact ⟨rfl,congrArg RequestQueue.waiting hbound,rfl,status_update hi _⟩

theorem quiet_store (hi : who i) (s : System P L) (now : ℕ → ℕ) : Quiet who s (s.storePrefix i now) := by
  unfold System.storePrefix
  split
  · exact ⟨rfl,rfl,rfl,status_update hi _⟩
  · exact .refl s

theorem quiet_failAll (e : Exc) (hids : ∀ i ∈ ids, who i) (s : System P L) :
    Quiet who s (ids.foldl (fun s i => s.failOne e i) s) := by
  induction ids generalizing s with
  | nil => exact .refl s
  | cons i rest ih =>
    exact (quiet_terminate (hids i List.mem_cons_self) _).trans
      (ih (fun j hj => hids j (List.mem_cons_of_mem i hj)) (s.failOne e i))

/-- The actions on the sequences in `who`. -/
theorem quiet_walk (who : SeqId → Prop) : Worker.Walk (P := P) (L := L) (fun _ _ => True) who (fun _ => True)
    (fun p => p.Keeps (Quiet who)) where
  pure := Prog.keeps_pure
  raise := Prog.keeps_raise
  bind hp hr hf := hp.bind_of_returns hr hf
  tryCatch hp hh := hp.tryCatch hh
  look _ := Prog.keeps_read .refl
  call _ _ _ hsave := by
    refine Worker.keeps_call (fun s e => ⟨rfl,rfl,rfl,fun _ _ => rfl⟩) ?_
    intro a s
    obtain ⟨outbox,heq⟩ := hsave a s
    rw [heq]
    exact ⟨rfl,rfl,rfl,fun _ _ => rfl⟩
  guard hi hp hq := by
    refine Prog.Keeps.bind (Prog.keeps_read .refl) ?_
    intro aborting
    split
    · exact Prog.Keeps.bind (Prog.keeps_write (fun _ _ => quiet_terminate hi _)) (fun _ => hp)
    · exact hq
  setStatus hi _ := Prog.keeps_write (fun _ _ => quiet_modify hi _)
  contain e hids := by
    refine Prog.keeps_write (fun _ s => ?_)
    exact (quiet_failAll e hids s).trans ⟨rfl,rfl,rfl,fun _ _ => rfl⟩
  recordToken token stop hi _ := Prog.keeps_write (fun _ _ => quiet_recordToken hi token stop)
  bindPrefix hi := Prog.keeps_write (fun w s => quiet_bind hi s (w.now 0))
  storePrefix hi := Prog.keeps_write (fun w s => quiet_store hi s w.now)
  finish result hi := Prog.keeps_write (fun _ _ => quiet_finishSequence hi result)
  batchSize _ := Prog.keeps_write (fun _ _ => ⟨rfl,rfl,rfl,fun _ _ => rfl⟩)

/-- The worker runs `run`, is starting `now` and going to start `later`, and holds
nobody else that is live. -/
structure Stage (run now later : List SeqId) (s : System P L) : Prop where
  running : s.stats.running = run
  nodup : (run ++ (now ++ later)).Nodup
  admitted : ∀ i ∈ run ++ (now ++ later), s.Admitted i
  complete : ∀ i, s.Live i → i ∈ run ++ (now ++ later)
  later : ∀ i ∈ later, (s.heap i).status.terminal = false

theorem stage_of_crew {Ψ : SeqId → Own P L → Prop} (hnd : (run ++ (now ++ later)).Nodup)
    (hsub : run ++ (now ++ later) ⊆ ids)
    (h : Crew none ids run (Staged run (now ++ later) Ψ (fun _ => Fresh) (fun _ => Ended)) s) :
    Stage run now later s := by
  refine ⟨h.running,hnd,fun i hi => h.admitted i (hsub hi),?_,?_⟩
  · intro i hi
    by_contra hnot
    rw [List.mem_append,not_or] at hnot
    have hend : (s.heap i).status.terminal = true := (h.own i (h.complete i hi)).2.2 hnot.1 hnot.2
    rw [hi.2.2] at hend
    cases hend
  · intro i hi
    have hmem : i ∈ now ++ later := List.mem_append_right _ hi
    exact ((h.own i (hsub (List.mem_append_right _ hmem))).2.1 hmem).isOpen

theorem stage_of_top {n : SeqId → ℕ} (h : Worker.AtTop n run s) : Stage run [] [] s := by
  have hstaged : Crew none run run (Staged run [] (fun i => Ready (n i)) (fun _ => Fresh) (fun _ => Ended)) s :=
    h.mono (fun i hi hown => ⟨fun _ => hown,by simp,fun hr => absurd hi hr⟩)
  exact stage_of_crew (by simpa using h.nodup) (by simp) hstaged

theorem Stage.requested (h : Stage run now later s) (hst : Requested s t) : Stage run now later t := by
  refine ⟨?_,h.nodup,?_,fun i hi => h.complete i (hst.live i hi),?_⟩
  · rw [hst.stats]
    exact h.running
  · intro i hi
    exact (hst.admitted i (h.admitted i hi).1 (h.admitted i hi).2).1
  · intro i hi
    have hadm := h.admitted i (by simp [hi])
    have hopen := h.later i hi
    rcases (hst.admitted i hadm.1 hadm.2).2 with heq | heq
    · have hheap : t.heap i = s.heap i := congrArg Prod.fst heq
      rwa [hheap]
    · have hheap : t.heap i = (s.heap i).requestAbort := congrArg Prod.fst heq
      rwa [hheap]

variable [Inhabited P] [Inhabited L] {eng : CachedEngine P L} {may : Site → Bool}

theorem stage_stable : (serving eng may).Stable (Stage run now later) := by
  rintro s t ⟨_,ev,hev,hst⟩ h
  exact h.requested (hst.requested hev)

theorem Stage.quiet (h : Stage run now later s) (hinv : Reachable eng s) (hr : Reaches (Step eng) s t)
    (hq : Quiet who s t) (hwho : ∀ i ∈ later, ¬who i) : Stage run now later t := by
  refine ⟨hq.running.trans h.running,h.nodup,?_,?_,?_⟩
  · intro i hi
    rw [System.Admitted,hq.accepted,hq.waiting]
    exact h.admitted i hi
  · rintro i ⟨hi,hw,hst⟩
    rw [hq.accepted] at hi
    rw [hq.waiting] at hw
    refine h.complete i ⟨hi,hw,?_⟩
    by_contra hend
    rw [Bool.not_eq_false] at hend
    have hsame : (t.heap i).status = (s.heap i).status := congrArg (fun o => o.1.1) (hinv.outcome_eq hr hi hend)
    rw [hsame,hend] at hst
    cases hst
  · intro i hi
    rw [hq.status i (hwho i hi)]
    exact h.later i hi

theorem Stage.passes {α : Type} {p q : Thread P L α} {Q : α → System P L → Prop} {E : Exc → System P L → Prop}
    (h : Stage run now later s) (hsafe : p.Safe (serving eng may) Q E s) (hk : p.Keeps (Quiet who))
    (hwho : ∀ i ∈ later, ¬who i) (hp : Prog.Passes (serving eng may) p s q t) : Stage run now later t := by
  refine hp.invariant hsafe hk h stage_stable ?_
  rintro l w t u hinv ⟨hr,_⟩ hq ht
  exact ht.quiet hinv (Orderly.reaches hr) hq hwho

/-- The handlers see every sequence in flight exactly if nobody is to be started
later and those being started have ended. -/
theorem Stage.transparent_iff (h : Stage run now later s) (hinv : Reachable eng s) :
    s.Transparent ↔ later = [] ∧ ∀ j ∈ now, (s.heap j).status.terminal = true := by
  have hb := hinv.books
  have hnw : ∀ i ∈ s.stats.running, i ∉ s.waiting :=
    fun i hi => (h.admitted i (List.mem_append_left _ (h.running ▸ hi))).2
  have hnd : (s.waiting ++ s.runningIds).Nodup := by
    rw [List.nodup_append]
    refine ⟨hb.waiting_nodup,?_,?_⟩
    · unfold System.runningIds
      rw [h.running]
      exact h.nodup.of_append_left.filter _
    · rintro i hw _ hr rfl
      exact hnw i (s.mem_runningIds.mp hr).1 hw
  constructor
  · intro hsees
    have hended : ∀ j ∈ now ++ later, (s.heap j).status.terminal = true := by
      intro j hj
      by_contra hopen
      rw [Bool.not_eq_true] at hopen
      have hadm := h.admitted j (List.mem_append_right _ hj)
      rcases (hsees.sees j hadm.1 hopen).place with hw | hr
      · exact hadm.2 hw
      · rw [h.running] at hr
        exact List.disjoint_of_nodup_append h.nodup hr hj
    refine ⟨?_,fun j hj => hended j (List.mem_append_left _ hj)⟩
    apply List.eq_nil_iff_forall_not_mem.mpr
    intro j hj
    have hend := hended j (List.mem_append_right _ hj)
    rw [h.later j hj] at hend
    cases hend
  · rintro ⟨rfl,hend⟩
    have hplace : ∀ i ∈ s.accepted, (s.heap i).status.terminal = false → i ∈ s.waiting ∨ i ∈ s.stats.running := by
      intro i hi hopen
      by_cases hw : i ∈ s.waiting
      · exact Or.inl hw
      · have hheld := h.complete i ⟨hi,hw,hopen⟩
        rw [List.append_nil] at hheld
        rcases List.mem_append.mp hheld with hr | hp
        · exact Or.inr (h.running ▸ hr)
        · rw [hend i hp] at hopen
          cases hopen
    have hmem : ∀ i, i ∈ s.waiting ++ s.runningIds ↔ i ∈ s.accepted.filter (fun i => !(s.heap i).status.terminal) := by
      intro i
      simp only [List.mem_append,s.mem_runningIds,List.mem_filter,Bool.not_eq_true']
      constructor
      · rintro (hw | ⟨hr,hopen⟩)
        · obtain ⟨ha,hpristine⟩ := hb.waiting i hw
          refine ⟨ha,?_⟩
          rw [hpristine.status]
          rfl
        · exact ⟨(h.admitted i (List.mem_append_left _ (h.running ▸ hr))).1,hopen⟩
      · rintro ⟨ha,hopen⟩
        exact (hplace i ha hopen).imp_right (fun hr => ⟨hr,hopen⟩)
    have hcount : s.waiting.length + s.runningIds.length =
        s.accepted.countP (fun i => !(s.heap i).status.terminal) := by
      rw [List.countP_eq_length_filter,← List.length_append]
      exact ((List.perm_ext_iff_of_nodup hnd (hb.nodup.filter _)).mpr hmem).length_eq
    refine ⟨?_,hcount,?_⟩
    · intro i hi hopen
      have hp := hplace i hi hopen
      have hfound := s.findSequence_isSome.mpr hp
      refine ⟨hp,?_,?_,?_⟩
      · obtain ⟨j,hj⟩ := Option.isSome_iff_exists.mp hfound
        rw [hj,s.findSequence_eq hj]
      · rw [s.abortAnswer_isOk]
        exact hfound
      · have hlisted := (hmem i).mpr (List.mem_filter.mpr ⟨hi,by simp [hopen]⟩)
        exact List.count_eq_one_of_mem hnd hlisted
    · rw [System.runningIds,← List.countP_eq_length_filter] at hcount
      exact hcount

namespace Worker

def isIdle (s : System P L) : Bool := decide (s.stats.running = []) && decide (s.waiting = [])

/-- A round as far as its admission; `none` when the worker stops. -/
def intake : Thread P L (Option (List SeqId)) := do
  let stopped ← isStopped
  if stopped then pure none
  else do
    waitIfIdle isIdle
    let stopped ← isStopped
    if stopped then pure none
    else do
      dropAborted
      let admitted ← admitRequests (fun s => s.stats.running.length)
      pure (some admitted)

/-- The rest of the round. -/
def serve (eng : CachedEngine P L) : Option (List SeqId) → Thread P L Bool
  | none => pure false
  | some admitted => do
    startAll eng admitted
    decodePhase eng
    pure true

theorem continuousRound_eq (eng : CachedEngine P L) : continuousRound eng = intake >>= serve eng := by
  unfold continuousRound intake
  rw [Prog.bind_assoc]
  congr 1
  funext stopped
  cases stopped with
  | true => rfl
  | false =>
    simp only [Bool.false_eq_true,if_false]
    rw [Prog.bind_assoc]
    congr 1
    funext _
    rw [Prog.bind_assoc]
    congr 1
    funext stopped
    cases stopped with
    | true => rfl
    | false =>
      simp only [Bool.false_eq_true,if_false,iterate]
      simp only [Prog.bind_assoc]
      rfl

omit [Inhabited P] in
theorem startAll_append (eng : CachedEngine P L) (done rest : List SeqId) :
    startAll eng (done ++ rest) = startAll eng done >>= fun _ => startAll eng rest := by
  induction done with
  | nil => rfl
  | cons i done ih =>
    simp only [List.cons_append,startAll]
    rw [Prog.bind_assoc]
    congr 1
    funext _
    exact ih

end Worker

/-- The awaits of `run`: on the queue, in `_prefill_one` with these still to come, in
`_decode_one_step`, and `sleep(0)`. -/
inductive Pause
  | wait
  | prefill (i : SeqId) (rest : List SeqId)
  | decode
  | sleep
  deriving DecidableEq, Repr

/-- Whom the worker is starting at the await, and whom it starts later. -/
def Pause.starting : Pause → List SeqId × List SeqId
  | .prefill i rest => ([i],rest)
  | _ => ([],[])

/-- No prefill is awaited, or it is the last of its admission and the sequence has
ended. -/
def Pause.Clear (s : System P L) : Pause → Prop
  | .prefill i rest => rest = [] ∧ (s.heap i).status.terminal = true
  | _ => True

/-- In an iteration that began in `s₀` the worker is at an await, and the other
handlers have brought the state to `t`. -/
inductive Paused (eng : CachedEngine P L) (may : Site → Bool) (s₀ : System P L) : Pause → System P L → Prop
  | wait {s₁ s₂ t : System P L} :
      Prog.Passes (serving eng may) Worker.isStopped s₀ (.ret false) s₁ →
      Prog.Passes (serving eng may) (.read .tau Worker.isIdle : Thread P L Bool) s₁ (.ret true) s₂ →
      ReflTransGen (serving eng may).Interferes s₂ t → Paused eng may s₀ .wait t
  | prefill {done rest : List SeqId} {i : SeqId} {s₁ s₂ s₃ u t : System P L} {q : Thread P L Unit} :
      Prog.Passes (serving eng may) Worker.intake s₀ (.ret (some (done ++ i :: rest))) s₁ →
      Prog.Passes (serving eng may) (Worker.startAll eng done) s₁ (.ret ()) s₂ →
      Prog.Passes (serving eng may) (Worker.wantsAbort i) s₂ (.ret false) s₃ →
      Prog.Passes (serving eng may) (Worker.prefillOne eng i) s₃ q u →
      ReflTransGen (serving eng may).Interferes u t → Paused eng may s₀ (.prefill i rest) t
  | decode {admitted ids : List SeqId} {s₁ s₂ s₃ u t : System P L} {q : Thread P L Unit} :
      Prog.Passes (serving eng may) Worker.intake s₀ (.ret (some admitted)) s₁ →
      Prog.Passes (serving eng may) (Worker.startAll eng admitted) s₁ (.ret ()) s₂ →
      Prog.Passes (serving eng may) Worker.running s₂ (.ret ids) s₃ → ids ≠ [] →
      Prog.Passes (serving eng may) (Worker.decodeOneStep eng ids) s₃ q u →
      ReflTransGen (serving eng may).Interferes u t → Paused eng may s₀ .decode t
  | sleep {s₁ s₂ t : System P L} :
      Prog.Passes (serving eng may) Worker.intake s₀ (.ret (some [])) s₁ →
      Prog.Passes (serving eng may) Worker.running s₁ (.ret []) s₂ →
      ReflTransGen (serving eng may).Interferes s₂ t → Paused eng may s₀ .sleep t

variable {s₀ : System P L} {pause : Pause}

/-- Every pause is a point of the round. -/
theorem Paused.passes (h : Paused eng may s₀ pause t) : ∃ p u,
    Prog.Passes (serving eng may) (Worker.continuousRound eng) s₀ p u ∧
      ReflTransGen (serving eng may).Interferes u t := by
  cases h with
  | @wait s₁ s₂ _ h1 h2 h3 =>
    have hround : Prog.Passes (serving eng may) (Worker.continuousRound eng) s₀ _ s₂ := h1.seq h2.bind.bind
    exact ⟨_,s₂,hround,h3⟩
  | @prefill done rest i s₁ s₂ s₃ u _ q h1 h2 h3 h4 h5 =>
    have hone : Prog.Passes (serving eng may) (Worker.startOne eng i) s₂ _ u := h3.seq h4.bind
    obtain ⟨r,hall⟩ : ∃ r, Prog.Passes (serving eng may) (Worker.startAll eng (done ++ i :: rest)) s₁ r u := by
      rw [Worker.startAll_append]
      exact ⟨_,h2.seq hone.bind⟩
    rw [Worker.continuousRound_eq]
    exact ⟨_,u,h1.seq hall.bind,h5⟩
  | @decode admitted ids s₁ s₂ s₃ u _ q h1 h2 h3 hne h4 h5 =>
    have hrest : ∃ r, Prog.Passes (serving eng may)
        (if ids = [] then pure () else Worker.decodeOneStep eng ids >>= fun _ => Worker.sweep) s₃ r u := by
      rw [if_neg hne]
      exact ⟨_,h4.bind⟩
    obtain ⟨r,hrest⟩ := hrest
    have hphase : Prog.Passes (serving eng may) (Worker.decodePhase eng) s₂ r u := h3.seq hrest
    rw [Worker.continuousRound_eq]
    exact ⟨_,u,h1.seq (h2.seq hphase.bind),h5⟩
  | @sleep s₁ s₂ _ h1 h2 h3 =>
    have hphase : Prog.Passes (serving eng may) (Worker.decodePhase eng) s₁ _ s₂ := h2.bind
    rw [Worker.continuousRound_eq]
    exact ⟨_,s₂,h1.seq hphase.bind,h3⟩

theorem Paused.runs (h : Paused eng may s₀ pause t)
    (hrun : ServeEngine.continuous.Runs eng may ((Worker.continuous eng).start,s₀)) :
    ∃ c, ServeEngine.continuous.Runs eng may (c,t) := by
  obtain ⟨p,u,hp,hut⟩ := h.passes
  clear h
  have hstep : Reaches (ServeEngine.continuous.Next eng may) ((Worker.continuous eng).start,s₀)
      ((Worker.continuous eng).settle p,u) := Service.reaches_of_passes hp
  have hall : Reaches (ServeEngine.continuous.Next eng may) ((Worker.continuous eng).start,s₀)
      ((Worker.continuous eng).settle p,t) := by
    induction hut with
    | refl => exact hstep
    | tail _ hst ih => exact ih.tail (.env hst.2)
  exact ⟨_,(hrun.reaches hall).1⟩

namespace Worker
variable {n : SeqId → ℕ}

theorem safe_intake (h : AtTop n run s) :
    (intake : Thread P L (Option (List SeqId))).Safe (serving eng may)
      (fun r t => ∀ admitted, r = some admitted → ∃ kept, Intaken n run kept admitted t) (Uncovered may) s := by
  have hready : ∀ i, Patient (Ready (P := P) (L := L) (n i)) := fun _ => patient_ready
  unfold intake
  refine (safe_look _ hready h).bind ?_
  rintro stopped s ⟨h,_⟩
  split
  · rintro _ ⟨⟩
  · refine (safe_waitIfIdle hready h ?_).bind ?_
    · intro t ht hrun
      simp only [isIdle,Bool.and_eq_true,decide_eq_true_eq] at ht
      exact hrun.symm.trans ht.1
    intro _ s h
    refine (safe_look _ hready h).bind ?_
    rintro stopped s ⟨h,_⟩
    split
    · rintro _ ⟨⟩
    · refine (safe_dropAborted h).bind ?_
      rintro _ s ⟨kept,hknd,hksub,h⟩
      refine (safe_admitRequests runningCount (patient_staged (fun _ => patient_ready) (fun _ => patient_ready)
        (fun _ => patient_ended)) (.refl s) h).bind ?_
      rintro admitted s ⟨_,_,h⟩ _ ⟨⟩
      exact ⟨kept,intaken_of_crew hknd hksub h⟩

theorem safe_started {kept done later : List SeqId} (h : Intaken n run kept (done ++ later) s)
    (hn : ∀ i, i ∉ run → n i = 0) :
    (startAll eng done).Safe (serving eng may) (fun _ t => ∃ ids run', (run' ++ later).Nodup ∧ run' ++ later ⊆ ids ∧
      Crew none ids run' (Staged run' later (fun i => Ready (n i)) (fun _ => Fresh) (fun _ => Ended)) t)
      (Uncovered may) s := by
  have hsub : done ++ later ⊆ run ++ (done ++ later) := List.subset_append_right _ _
  refine (safe_startAll h.nodup hsub (fun i hi => hn i (h.new i (List.mem_append_left _ hi))) h.crew).mono ?_
    (fun _ _ => id)
  rintro _ t ⟨run',hnd,hrun,hcrew⟩
  refine ⟨_,run',hnd,?_,hcrew⟩
  rw [List.append_subset]
  constructor
  · intro i hi
    apply h.subset
    have hmem := hrun hi
    simp only [List.mem_append] at hmem ⊢
    exact hmem.imp_right Or.inl
  · exact fun i hi => hsub (List.mem_append_right _ hi)

end Worker

open Worker in
/-- At each pause the worker holds what runs and what is still to be started. -/
theorem Paused.stage (h : Paused eng may s₀ pause t) (htop : Rested s₀) :
    ∃ run, Stage run pause.starting.1 pause.starting.2 t := by
  obtain ⟨run,htop⟩ := htop
  have hready : ∀ i : SeqId, Patient (Ready (P := P) (L := L) 0) := fun _ => patient_ready
  have hstaged : ∀ run later i, Patient (Staged run later (fun _ => Ready (P := P) (L := L) 0) (fun _ => Fresh)
      (fun _ => Ended) i) :=
    fun _ _ => patient_staged (fun _ => patient_ready) (fun _ => patient_fresh) (fun _ => patient_ended)
  have hintake : intake.Safe (serving eng may) _ (Uncovered may) s₀ := safe_intake htop
  cases h with
  | @wait s₁ s₂ _ h1 h2 h3 =>
    have hs₁ := (safe_look (E := Uncovered may) System.stop hready htop).passes h1
    have hs₂ := (safe_look (E := Uncovered may) isIdle hready hs₁.1).passes h2
    exact ⟨run,stage_stable.star h3 (stage_of_top hs₂.1)⟩
  | @prefill done rest i s₁ s₂ s₃ u _ q h1 h2 h3 h4 h5 =>
    obtain ⟨kept,hs₁⟩ := hintake.passes h1 _ rfl
    have hstart : (startAll eng done).Safe (serving eng may) _ (Uncovered may) s₁ := safe_started hs₁ (fun _ _ => rfl)
    obtain ⟨ids,run',hnd,hsub,hs₂⟩ := hstart.passes h2
    have hs₃ := (safe_look (E := Uncovered may) _ (hstaged run' (i :: rest)) hs₂).passes h3
    have hi : i ∈ ids := hsub (by simp)
    have hsafe : (prefillOne eng i).Safe (serving eng may) _ (Uncovered may) s₃ :=
      safe_prefillOne (hstaged run' (i :: rest)) hi hs₃.1.next
    have hstage : Stage run' [i] rest s₃ := stage_of_crew hnd hsub hs₃.1
    have hother : ∀ j ∈ rest, ¬i = j := by
      rintro j hj rfl
      exact (List.nodup_cons.mp hnd.of_append_right).1 hj
    exact ⟨run',stage_stable.star h5 (hstage.passes hsafe ((quiet_walk _).prefillOne eng rfl trivial (fun _ _ _ _ => trivial)) hother h4)⟩
  | @decode admitted ids s₁ s₂ s₃ u _ q h1 h2 h3 hne h4 h5 =>
    obtain ⟨kept,hs₁⟩ := hintake.passes h1 _ rfl
    rw [← List.append_nil admitted] at hs₁
    have hstart : (startAll eng admitted).Safe (serving eng may) _ (Uncovered may) s₁ :=
      safe_started hs₁ (fun _ _ => rfl)
    obtain ⟨held,run',hnd,hsub,hs₂⟩ := hstart.passes h2
    obtain ⟨rfl,hs₃⟩ := (safe_running (E := Uncovered may) (hstaged run' []) hs₂).passes h3
    have hstage : Stage run' [] [] s₃ := stage_of_crew hnd hsub hs₃
    rw [List.append_nil] at hnd hsub
    have hsafe : (decodeOneStep eng run').Safe (serving eng may) _ (Uncovered may) s₃ :=
      safe_decodeOneStep hnd hsub hs₃
    have hdecode : (Worker.decodeOneStep eng run').Keeps (Quiet (fun _ => True)) :=
      (quiet_walk _).decodeOneStep eng (fun _ => trivial) (fun _ => trivial) (fun _ _ _ _ => trivial)
        (fun _ _ => trivial)
    exact ⟨_,stage_stable.star h5 (hstage.passes hsafe hdecode (by simp) h4)⟩
  | @sleep s₁ s₂ _ h1 h2 h3 =>
    obtain ⟨kept,hs₁⟩ := hintake.passes h1 _ rfl
    have hs₂ := (safe_running (E := Uncovered may) (hstaged kept []) hs₁.crew).passes h2
    have hstage : Stage kept [] [] s₂ := stage_of_crew hs₁.nodup hs₁.subset hs₂.2
    exact ⟨kept,stage_stable.star h3 hstage⟩

/-- Where the worker awaits in a run, the handlers see every sequence in flight
exactly if it does not await a prefill, or the last of the admission, which has
ended. -/
theorem in_flight_seen_iff (hs : s.Boot) (hround : (Worker.continuous eng).Rounds (serving eng may) s s₀)
    (h : Paused eng may s₀ pause t) : t.Transparent ↔ pause.Clear t := by
  have hrun : ServeEngine.continuous.Runs eng may ((Worker.continuous eng).start,s₀) := ⟨s,hs,hround.reaches⟩
  obtain ⟨c,hc⟩ := h.runs hrun
  obtain ⟨run,hstage⟩ := h.stage (hround.top ServeEngine.continuous.verified (ServeEngine.continuous.rest_of_boot hs))
  rw [hstage.transparent_iff hc.reachable]
  cases pause with
  | prefill i rest => simp [Pause.starting,Pause.Clear]
  | wait => simp [Pause.starting,Pause.Clear]
  | decode => simp [Pause.starting,Pause.Clear]
  | sleep => simp [Pause.starting,Pause.Clear]

def oneRequest : System ℕ Token := roomySystem.submit 0 [5,6] twoTokens

theorem oneRequest_interferes (may : Site → Bool) : (serving (FakeLm.engine {}) may).Interferes roomySystem oneRequest :=
  ⟨⟨roomySystem,roomySystem_initial,.refl _⟩,.submit 0 [5,6] twoTokens,rfl,.submit [5,6] twoTokens (by simp [roomySystem])⟩

theorem answers_none (l : Label) {n : ℕ} (w : Answer) (hw : w ∈ List.replicate n {}) :
    (serving (FakeLm.engine {}) Site.isModel).answers l w := by
  rintro site ids rfl hraises
  rw [List.eq_of_mem_replicate hw] at hraises
  cases hraises

open Worker in
theorem oneRequest_intake {q : Thread ℕ Token (Option (List SeqId))} {t : System ℕ Token}
    (h : intake.drive (List.replicate 6 {}) oneRequest = some (q,t)) :
    Prog.Passes (serving (FakeLm.engine {}) Site.isModel) intake roomySystem q t ∧ Reachable (FakeLm.engine {}) t := by
  obtain ⟨run,htop⟩ := ServeEngine.continuous.rest_of_boot roomySystem_boot
  have hsafe : intake.Safe (serving (FakeLm.engine {}) Site.isModel) _ (Uncovered Site.isModel) roomySystem :=
    safe_intake htop
  have hst := oneRequest_interferes Site.isModel
  have hreach : Reachable (FakeLm.engine {}) oneRequest := (serving_sound Site.isModel).rely _ _ hst
  obtain ⟨hpass,ht⟩ := Prog.passes_of_drive (serving_sound Site.isModel) (hsafe.rely trivial (.single hst)) hreach
    (fun l w hw => answers_none l w hw) h
  have henv : Prog.Passes (serving (FakeLm.engine {}) Site.isModel) intake roomySystem intake oneRequest :=
    .env .refl trivial hst
  exact ⟨henv.trans hpass,ht⟩

open Worker in
theorem in_flight_seen_iff_decode : ∃ t : System ℕ Token, Paused (FakeLm.engine {}) Site.isModel roomySystem .decode t ∧
    t.stats.running = [0] ∧ t.Transparent := by
  have hobs : ((intake.drive (List.replicate 6 {}) oneRequest).bind (fun r =>
      ((startAll (FakeLm.engine {}) [0]).drive (List.replicate 14 {}) r.2).map
        (fun q => (r.1.value,q.1.value,q.2.stats.running)))) = some (some (some [0]),some (),[0]) := by decide
  obtain ⟨⟨q,s₁⟩,hq,hobs⟩ := Option.bind_eq_some_iff.mp hobs
  obtain ⟨⟨r,t⟩,hr,hobs⟩ := Option.map_eq_some_iff.mp hobs
  simp only [Prod.mk.injEq] at hobs
  obtain ⟨hqv,hrv,hrun⟩ := hobs
  obtain ⟨hpass,hreach⟩ := oneRequest_intake hq
  rw [Prog.eq_ret_of_value hqv] at hpass
  obtain ⟨run,htop⟩ := ServeEngine.continuous.rest_of_boot roomySystem_boot
  have hsafe : intake.Safe (serving (FakeLm.engine {}) Site.isModel) _ (Uncovered Site.isModel) roomySystem :=
    safe_intake htop
  obtain ⟨kept,hs₁⟩ := hsafe.passes hpass _ rfl
  rw [← List.append_nil [0]] at hs₁
  have hstart : (startAll (FakeLm.engine {}) [0]).Safe (serving (FakeLm.engine {}) Site.isModel) _
      (Uncovered Site.isModel) s₁ := safe_started hs₁ (fun _ _ => rfl)
  obtain ⟨hpass',ht⟩ := Prog.passes_of_drive (serving_sound Site.isModel) hstart hreach
    (fun l w hw => answers_none l w hw) hr
  rw [Prog.eq_ret_of_value hrv] at hpass'
  have hread : Prog.Passes (serving (FakeLm.engine {}) Site.isModel) running t (.ret [0]) t := by
    rw [← hrun]
    exact .act (w := {}) .refl ht rfl (by rintro _ _ ⟨⟩)
  have hpaused : Paused (FakeLm.engine {}) Site.isModel roomySystem .decode t :=
    .decode hpass hpass' hread (by simp) .refl .refl
  exact ⟨t,hpaused,hrun,(in_flight_seen_iff roomySystem_boot .refl hpaused).mpr trivial⟩

open Worker in
/-- While its prompt is in the model, a request is found and counted nowhere. -/
theorem not_in_flight_seen : ∃ t : System ℕ Token, roomySystem.Boot ∧
    Paused (FakeLm.engine {}) Site.isModel roomySystem (.prefill 0 []) t ∧ 0 ∈ t.accepted ∧
    (t.heap 0).status.terminal = false ∧ 0 ∉ t.waiting ∧ 0 ∉ t.stats.running ∧ t.findSequence 0 = none ∧
    t.abortAnswer 0 = .error ⟨404,"unknown request 0"⟩ ∧ t.adminStats.inFlight = 0 ∧ t.updateGauges.running = 0 := by
  have hobs : (intake.drive (List.replicate 6 {}) oneRequest).map (fun r => (r.1.value,(r.2.heap 0).wantsAbort,
      (r.2.heap 0).status)) = some (some (some [0]),false,.waiting) := by decide
  have hplaces : (intake.drive (List.replicate 6 {}) oneRequest).map (fun r => (r.2.accepted,r.2.waiting,
      r.2.stats.running)) = some ([0],[],[]) := by decide
  obtain ⟨⟨q,t⟩,hq,hobs⟩ := Option.map_eq_some_iff.mp hobs
  rw [hq] at hplaces
  simp only [Prod.mk.injEq] at hobs
  simp only [Option.map_some,Option.some.injEq,Prod.mk.injEq] at hplaces
  obtain ⟨hqv,habort,hst⟩ := hobs
  obtain ⟨hacc,hwait,hrun⟩ := hplaces
  obtain ⟨hpass,hreach⟩ := oneRequest_intake hq
  rw [Prog.eq_ret_of_value hqv] at hpass
  have hlook : Prog.Passes (serving (FakeLm.engine {}) Site.isModel) (wantsAbort 0) t (.ret false) t := by
    rw [← habort]
    exact .act (w := {}) .refl hreach rfl (by rintro _ _ ⟨⟩)
  have hpass' : Prog.Passes (serving (FakeLm.engine {}) Site.isModel) intake roomySystem (.ret (some ([] ++ [0]))) t := hpass
  have hstart : Prog.Passes (serving (FakeLm.engine {}) Site.isModel) (startAll (FakeLm.engine {}) []) t (.ret ()) t :=
    .refl
  have hpaused : Paused (FakeLm.engine {}) Site.isModel roomySystem (.prefill 0 []) t :=
    .prefill hpass' hstart hlook .refl .refl
  have hnone : t.findSequence 0 = none := by simp [System.findSequence,hwait,hrun]
  refine ⟨t,roomySystem_boot,hpaused,by simp [hacc],by simp [hst,SequenceStatus.terminal],by simp [hwait],
    by simp [hrun],hnone,?_,?_,?_⟩
  · simp only [System.abortAnswer,hnone]
    rfl
  · simp [System.adminStats,System.runningIds,hwait,hrun]
  · simp [System.updateGauges,hrun]

end FluxEngine
