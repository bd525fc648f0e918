import FluxEngine.Serving.Seniority
import FluxEngine.Server.JobStatus

/-! # Handlers whose clients stay

A client that leaves takes its handler with it while the sequence goes on.  Where no
client leaves and no iterator fails, a handler ends after its sequence.
-/
namespace FluxEngine
open Transition
variable {P L : Type} {decode : List Token → Text} {i : SeqId} {x y : Sequence P L} {h k : Handler} {eff : Effect}

/-- Neither the client leaves nor the iterator fails. -/
def HandlerEvent.attended : HandlerEvent → Bool
  | .drop | .disconnected | .cancel | .close | .raise => false
  | _ => true

def ServerEvent.attended : ServerEvent → Bool
  | .handler _ ev _ => ev.attended
  | _ => true

namespace Handler

/-- The loop over the deltas is behind the handler, which has not ended. -/
def Closing (h : Handler) : Prop := ∃ reason, h.pc = .last reason ∨ h.pc = .done reason

/-- A handler beside its sequence. -/
structure Attended (x : Sequence P L) (h : Handler) : Prop where
  timely : h.stream.Timely
  past : h.stream.Over → x.status.terminal = true
  closing : h.Closing → h.stream.client.pc = .done
  result : h.pc = .result → h.streaming = false
  ended : h.pc.isEnded = true → x.status.terminal = true ∧ (h.pc = .ended .complete ∨ h.streaming = false)

theorem attended_new (endpoint : Endpoint) (n : ℕ) (streaming : Bool) :
    Attended x ⟨endpoint,n,streaming,if streaming then .created else .result,{}⟩ := by
  refine ⟨Stream.timely_start,fun hover => absurd hover (Stream.not_over rfl),?_,?_,?_⟩
  · rintro ⟨reason,hpc | hpc⟩
    · cases streaming <;> cases hpc
    · cases streaming <;> cases hpc
  · intro hpc
    cases streaming with
    | false => rfl
    | true => cases hpc
  · intro hend
    cases streaming <;> cases hend

theorem Attended.of_status (hh : h.Attended x) (hxy : x.status.terminal = true → y.status.terminal = true) :
    h.Attended y :=
  ⟨hh.timely,fun hover => hxy (hh.past hover),hh.closing,hh.result,fun hend => ⟨hxy (hh.ended hend).1,(hh.ended hend).2⟩⟩

theorem Attended.goto {pc : HandlerPc} (hh : h.Attended x) (hopen : pc.isEnded = false) (hpc : pc ≠ .result)
    (hclosing : Handler.Closing { h with pc := pc } → h.stream.client.pc = .done) : Attended x { h with pc := pc } := by
  refine ⟨hh.timely,hh.past,hclosing,fun heq => absurd heq hpc,?_⟩
  intro hend
  rw [hopen] at hend
  cases hend

theorem Attended.goto_open {pc : HandlerPc} {quiet : Effect} (hh : h.Attended x) (hopen : pc.isEnded = false)
    (hpc : pc ≠ .result) (hloop : ∀ reason, pc ≠ .last reason ∧ pc ≠ .done reason)
    (hex : some (({ h with pc := pc },quiet) : Handler × Effect) = some (k,eff)) : k.Attended x := by
  cases hex
  refine hh.goto hopen hpc ?_
  rintro ⟨reason,heq | heq⟩
  · exact absurd heq (hloop reason).1
  · exact absurd heq (hloop reason).2

theorem Attended.over_of_step {ev : StreamEvent} {s : Stream} (hh : h.Attended x)
    (hst : Stream.Step decode ev h.stream s) (hshows : Response.shows x h.stream ev = true) (hover : s.Over) :
    x.status.terminal = true := by
  cases Stream.acts_of_step hst with
  | append _ => exact absurd hover (Stream.not_over_of_appended rfl)
  | put _ => exact absurd hover (Stream.not_over rfl)
  | putEnd _ => exact (Bool.and_eq_true_iff.mp hshows).1
  | setFinished hended => exact hh.past (Or.inl hended)
  | runPut _ => exact hh.past hover
  | client _ => exact hh.past hover

theorem Attended.update {ev : StreamEvent} {s : Stream} (hh : h.Attended x) (hst : Stream.Step decode ev h.stream s)
    (hshows : Response.shows x h.stream ev = true) (hpc : s.client.pc = h.stream.client.pc) :
    Attended x { h with stream := s } :=
  ⟨hh.timely.step hst,hh.over_of_step hst hshows,fun hclosing => hpc.trans (hh.closing hclosing),hh.result,hh.ended⟩

theorem Attended.iterate {ev : ClientEvent} {s : Stream} {pc : HandlerPc} (hh : h.Attended x)
    (hst : Stream.Step decode (.client ev) h.stream s) (hpc : pc = .iterating ∨ pc = .checking) :
    Attended x { h with stream := s, pc := pc } := by
  refine ⟨hh.timely.step hst,hh.over_of_step hst rfl,?_,?_,?_⟩
  · rintro ⟨reason,heq | heq⟩
    · rcases hpc with rfl | rfl <;> cases heq
    · rcases hpc with rfl | rfl <;> cases heq
  · intro heq
    rcases hpc with rfl | rfl <;> cases heq
  · intro hend
    rcases hpc with rfl | rfl <;> cases hend

theorem Attended.over_of_closing (hh : h.Attended x) (hclosing : h.Closing) : x.status.terminal = true :=
  hh.past (hh.timely.past (Or.inr (hh.closing hclosing)))

theorem not_ended_afterLoop (x : Sequence P L) : (afterLoop x).isEnded = false ∧ afterLoop x ≠ .result := by
  unfold afterLoop
  simp only
  split
  · exact ⟨rfl,by simp⟩
  · exact ⟨rfl,by simp⟩

/-- A step of a handler whose client stays. -/
theorem Attended.step {ev : HandlerEvent} (hh : h.Attended x) (hx : x.finishedEvent = x.status.terminal)
    (hev : ev.attended = true) (hex : h.exec decode i x ev = some (k,eff)) : k.Attended x := by
  cases ev with
  | enter =>
    simp only [exec] at hex
    split at hex
    · exact hh.goto_open rfl (by simp) (by simp) hex
    · exact hh.goto_open rfl (by simp) (by simp) hex
    · cases hex
  | update ev =>
    have hmap : ∀ ev, (∀ t, Stream.Step decode ev h.stream t → t.client.pc = h.stream.client.pc) →
        Response.shows x h.stream ev = true →
        (h.stream.exec decode ev).map (fun t => (({ h with stream := t },{}) : Handler × Effect)) = some (k,eff) →
        k.Attended x := by
      intro ev hpc hshows hex
      obtain ⟨t,ht,heq⟩ := Option.map_eq_some_iff.mp hex
      cases heq
      exact hh.update ht hshows (hpc t ht)
    cases ev with
    | client ev => cases hex
    | _ =>
      simp only [exec,Option.ite_none_right_eq_some] at hex
      refine hmap _ ?_ hex.1 hex.2
      intro t ht
      cases Stream.acts_of_step ht with
      | _ => rfl
  | iterate ev =>
    simp only [exec,Option.ite_none_right_eq_some] at hex
    obtain ⟨_,hex⟩ := hex
    obtain ⟨t,ht,heq⟩ := Option.map_eq_some_iff.mp hex
    cases heq
    refine hh.iterate ht ?_
    split
    · exact Or.inl rfl
    · exact Or.inr rfl
  | leave =>
    simp only [exec,Option.ite_none_right_eq_some] at hex
    obtain ⟨⟨_,hdone⟩,hex⟩ := hex
    cases hex
    exact hh.goto (not_ended_afterLoop x).1 (not_ended_afterLoop x).2 (fun _ => hdone)
  | connected =>
    simp only [exec,Option.ite_none_right_eq_some] at hex
    exact hh.goto_open rfl (by simp) (by simp) hex.2
  | resume =>
    simp only [exec] at hex
    split at hex
    · exact hh.goto_open rfl (by simp) (by simp) hex
    · exact hh.goto_open rfl (by simp) (by simp) hex
    · rename_i reason hpc
      cases hex
      exact hh.goto rfl (by simp) (fun _ => hh.closing ⟨reason,Or.inl hpc⟩)
    · rename_i reason hpc
      have hend := hh.over_of_closing ⟨reason,Or.inr hpc⟩
      cases hex
      refine ⟨hh.timely,hh.past,?_,by simp,fun _ => ⟨hend,Or.inl rfl⟩⟩
      rintro ⟨_,heq | heq⟩ <;> cases heq
    · cases hex
  | result =>
    have hend : ∀ outcome, waitResult x = some outcome → x.status.terminal = true := by
      intro outcome hwait
      unfold waitResult at hwait
      split at hwait
      · rename_i hevent
        rw [← hx]
        exact hevent
      · cases hwait
    simp only [exec] at hex
    split at hex
    · rename_i hpc hwait
      cases hex
      refine ⟨hh.timely,hh.past,?_,by simp,fun _ => ⟨hend _ hwait,Or.inl rfl⟩⟩
      rintro ⟨_,heq | heq⟩ <;> cases heq
    · rename_i hpc hwait
      cases hex
      refine ⟨hh.timely,hh.past,?_,by simp,fun _ => ⟨hend _ hwait,Or.inr (hh.result hpc)⟩⟩
      rintro ⟨_,heq | heq⟩ <;> cases heq
    · cases hex
  | _ => cases hev

end Handler

namespace Server

/-- Every handler belongs to an accepted sequence, and ends after it. -/
def Attended (w : Server P L) : Prop :=
  ∀ j k, w.handlers j = some k → j ∈ w.system.accepted ∧ k.Attended (w.system.heap j)

variable [Inhabited P] [Inhabited L] {settings : Settings} {mode : ServeEngine} {eng : CachedEngine P L}
  {may : Site → Bool} {w v : Server P L}

theorem Boot.attended (hw : w.Boot mode eng) : w.Attended := by
  intro j k hj
  rw [hw.handlers] at hj
  cases hj

theorem Runs.tail (hw : w.Runs settings mode eng may) {ev : ServerEvent} (hst : Step settings mode eng may ev w v) :
    v.Runs settings mode eng may := by
  obtain ⟨u,hu,hr⟩ := hw
  exact ⟨u,hu,hr.tail hst⟩

/-- What a step of the server does to the system. -/
theorem Runs.reaches_system (hw : w.Runs settings mode eng may) {ev : ServerEvent}
    (hst : Step settings mode eng may ev w v) : Reaches (FluxEngine.Step eng) w.system v.system := by
  unfold Step at hst
  cases ev with
  | worker answer =>
    obtain ⟨d,hd,rfl⟩ := Option.map_eq_some_iff.mp hst
    obtain ⟨l,hl⟩ := mode.act_label hd
    exact hw.worker.reaches_step hl
  | adminAbort j =>
    cases hst
    exact (Reaches.refl _).tail (.adminAbort j)
  | requestStop =>
    cases hst
    exact (Reaches.refl _).tail .requestStop
  | receive j n req allowed up =>
    simp only [exec,Option.ite_none_right_eq_some,Option.some.injEq] at hst
    obtain ⟨⟨hfresh,_⟩,rfl⟩ := hst
    unfold receive
    split
    · exact .refl _
    · split
      · exact .refl _
      · exact (Reaches.refl _).tail (.submit req.prompt _ hfresh)
  | handler j ev up =>
    obtain ⟨h,_,hst⟩ := Option.bind_eq_some_iff.mp hst
    obtain ⟨r,_,rfl⟩ := Option.map_eq_some_iff.mp hst
    simp only [affect,setSystem,system]
    split
    · exact (Reaches.refl _).tail (.requestAbort j)
    · exact .refl _
  | expire id =>
    cases hst
    exact .refl _
  | close =>
    cases hst
    exact .refl _

theorem Attended.of_reaches (ha : w.Attended) (hs : Reachable eng w.system)
    (hr : Reaches (FluxEngine.Step eng) w.system v.system) {j : SeqId} (hj : w.handlers j = some k) :
    j ∈ v.system.accepted ∧ k.Attended (v.system.heap j) := by
  obtain ⟨hacc,hk⟩ := ha j k hj
  exact ⟨hs.accepted_run hr hacc,hk.of_status (hs.terminal_mono hr hacc)⟩

/-- What comes of a request at once: the status of a refusal, or its sequence. -/
def verdict (settings : Settings) (w : Server P L) (i : SeqId) (req : Incoming) (allowed : Bool) : Except ℕ SeqId :=
  match w.checked settings req allowed with
  | .error e => .error e.statusCode
  | .ok sampling =>
    match w.system.scheduler.submit i { promptTokenIds := req.prompt, sampling := sampling } with
    | .error (.queueFull _) => .error 429
    | .error (.requestTooLarge _) => .error 400
    | .ok _ => .ok i

/-- A request has been taken in. -/
structure Received (i : SeqId) (req : Incoming) (w v : Server P L) : Prop where
  accepted : v.system.accepted = w.system.accepted ++ [i]
  waiting : v.system.waiting = w.system.waiting ++ [i]
  handlers : ∃ h, v.handlers = Function.update w.handlers i (some h) ∧ h.streaming = req.streaming ∧
    h.pc.isEnded = false ∧ ∀ x : Sequence P L, h.Attended x

omit [Inhabited P] [Inhabited L] in
theorem receive_cases (settings : Settings) (w : Server P L) (i : SeqId) (n : ℕ) (req : Incoming) (allowed : Bool)
    (up : Bool × Bool) :
    (∃ status, w.verdict settings i req allowed = .error status ∧ w.receive settings i n req allowed up = w) ∨
    (w.verdict settings i req allowed = .ok i ∧ Received i req w (w.receive settings i n req allowed up)) := by
  unfold verdict receive
  cases w.checked settings req allowed with
  | error e => exact Or.inl ⟨e.statusCode,rfl,rfl⟩
  | ok sampling =>
    rcases w.system.scheduler.submit_cases i { promptTokenIds := req.prompt, sampling := sampling } with
      ⟨e,heq⟩ | ⟨queue,hqueue,heq⟩
    · simp only [heq]
      cases e with
      | queueFull message => exact Or.inl ⟨429,rfl,trivial⟩
      | requestTooLarge message => exact Or.inl ⟨400,rfl,trivial⟩
    · have hsystem : w.system.submit i req.prompt sampling =
          { w.system with
            scheduler := { w.system.scheduler with queue := queue }
            heap := Function.update w.system.heap i { promptTokenIds := req.prompt, sampling := sampling }
            accepted := w.system.accepted ++ [i] } := by
        unfold System.submit
        rw [heq]
      simp only [heq,hsystem]
      refine Or.inr ⟨trivial,rfl,RequestQueue.tryEnqueue_waiting hqueue,
        ⟨_,rfl,rfl,?_,fun x => Handler.attended_new _ _ _⟩⟩
      cases req.streaming <;> rfl

omit [Inhabited P] [Inhabited L] in
theorem affect_status (w : Server P L) (i : SeqId) (h : Handler) (eff : Effect) (up : Bool) :
    ((w.affect i h eff up).system.heap i).status = (w.system.heap i).status := by
  simp only [affect,setSystem,system]
  split
  · simp only [System.requestAbort,System.modify,Function.update_self,Sequence.requestAbort]
  · rfl

theorem Runs.attended_step (hw : w.Runs settings mode eng may) (ha : w.Attended) {ev : ServerEvent}
    (hev : ev.attended = true) (hst : Step settings mode eng may ev w v) : v.Attended := by
  have hs : Reachable eng w.system := hw.worker.reachable
  have hold : ∀ j k, w.handlers j = some k → j ∈ v.system.accepted ∧ k.Attended (v.system.heap j) :=
    fun j k hj => ha.of_reaches hs (hw.reaches_system hst) hj
  unfold Step at hst
  cases ev with
  | worker answer =>
    obtain ⟨d,_,rfl⟩ := Option.map_eq_some_iff.mp hst
    exact hold
  | adminAbort j =>
    cases hst
    exact hold
  | requestStop =>
    cases hst
    exact hold
  | receive j n req allowed up =>
    simp only [exec,Option.ite_none_right_eq_some,Option.some.injEq] at hst
    obtain ⟨_,rfl⟩ := hst
    rcases w.receive_cases settings j n req allowed up with ⟨_,_,heq⟩ | ⟨_,hrec⟩
    · rw [heq]
      exact ha
    · obtain ⟨h,hh,_,_,hfresh⟩ := hrec.handlers
      intro l m hl
      rw [hh] at hl
      by_cases hlj : l = j
      · rw [hlj,Function.update_self,Option.some.injEq] at hl
        rw [hlj,← hl,hrec.accepted]
        exact ⟨List.mem_append_right _ List.mem_cons_self,hfresh _⟩
      · rw [Function.update_of_ne hlj] at hl
        exact hold l m hl
  | handler j ev up =>
    obtain ⟨h,hj,hst⟩ := Option.bind_eq_some_iff.mp hst
    obtain ⟨r,hex,rfl⟩ := Option.map_eq_some_iff.mp hst
    obtain ⟨hacc,hh⟩ := ha j h hj
    have hmoved : r.1.Attended (w.system.heap j) := hh.step (hs.signalled hacc).event hev hex
    intro l m hl
    by_cases hlj : l = j
    · have hsame : (w.affect j r.1 r.2 up).handlers j = some r.1 := Function.update_self _ _ _
      rw [hlj,hsame,Option.some.injEq] at hl
      rw [hlj,← hl]
      exact ⟨(hold j h hj).1,hmoved.of_status (fun hend => (w.affect_status j r.1 r.2 up) ▸ hend)⟩
    · have hother : (w.affect j r.1 r.2 up).handlers l = w.handlers l := Function.update_of_ne hlj _ _
      exact hold l m (hother ▸ hl)
  | expire id =>
    cases hst
    exact hold
  | close =>
    cases hst
    exact hold

end Server
end FluxEngine
