import FluxEngine.Bench.LoadGen
import FluxEngine.Server.Attendance
import FluxEngine.Server.Deployment
import FluxEngine.Serving.TokenCount

/-! # The load generator against a server

All requests come from `run_load`.  A worker of the load sends its next request when
the response to the one before has ended, so that never more sequences wait than
there are workers.
-/
namespace FluxEngine
open Transition WorkSharing Function
variable {P L : Type}

theorem greedy_temperature : (0 : ℚ) ≤ 0 := le_rfl

theorem default_topP : (0 : ℚ) < 1 ∧ (1 : ℚ) ≤ 1 := ⟨zero_lt_one,le_rfl⟩

/-- The body as the endpoint reads it, if its validation lets it through; `top_p` keeps
its default. -/
def CompletionBody.incoming (encode : Text → List Token) (body : CompletionBody) : Option Incoming :=
  if h : 1 ≤ body.maxTokens ∧ body.prompt.any (fun c => !isSpace c) = true then
    some ⟨.completions,body.stream,encode body.prompt,⟨0,1,body.maxTokens,greedy_temperature,default_topP,h.1⟩⟩
  else none

/-- The status of a response that has been sent to its end. -/
def Handler.httpStatus (x : Sequence P L) (h : Handler) : Option ℕ :=
  match h.pc, waitResult x with
  | .ended .complete, _ => some 200
  | .ended .failed, some (.error e) => if h.streaming then none else some e.statusCode
  | _, _ => none

/-- A server, the load whose requests it gets, and what came of each request that has
arrived: the status of a refusal, or its sequence. -/
structure Bench (P L : Type) where
  server : Server P L
  load : Load
  outcome : ℕ → Option (Except ℕ SeqId) := fun _ => none

/-- A worker of the load takes a prompt, its request arrives, the server takes a step
of its own, or a response comes back to its worker. -/
inductive BenchEvent
  | take (w : ℕ)
  | arrive (idx : ℕ) (i : SeqId) (n : ℕ) (allowed : Bool) (up : Bool × Bool)
  | server (ev : ServerEvent)
  | answer (w : ℕ) (rec : RequestRecord)

/-- A step of the server that no new request and no leaving client has caused. -/
def ServerEvent.inner : ServerEvent → Bool
  | .receive _ _ _ _ _ => false
  | ev => ev.attended

namespace Bench

/-- The status of the response to a prompt, once it has ended. -/
def response (b : Bench P L) (idx : ℕ) : Option ℕ :=
  match b.outcome idx with
  | none => none
  | some (.error status) => some status
  | some (.ok i) => (b.server.handlers i).bind (Handler.httpStatus (b.server.system.heap i))

def setOutcome (b : Bench P L) (server : Server P L) (idx : ℕ) (outcome : Except ℕ SeqId) : Bench P L :=
  { b with server := server, outcome := update b.outcome idx (some outcome) }

variable [Inhabited P] [Inhabited L] (args : LoadArgs) (encode : Text → List Token) (settings : Settings)
  (mode : ServeEngine) (eng : CachedEngine P L) (may : Site → Bool)

/-- The request for a prompt arrives; one that is not valid is refused with 422. -/
def arrive (b : Bench P L) (idx : ℕ) (i : SeqId) (n : ℕ) (allowed : Bool) (up : Bool × Bool) : Option (Bench P L) :=
  if h : idx < args.n then
    if idx ∈ b.load.tasks ∧ b.outcome idx = none then
      match (args.body idx h).incoming encode with
      | none => some (b.setOutcome b.server idx (.error 422))
      | some req => (b.server.exec settings mode eng may (.receive i n req allowed up)).map (fun server =>
          b.setOutcome server idx (b.server.verdict settings i req allowed))
    else none
  else none

def exec (b : Bench P L) : BenchEvent → Option (Bench P L)
  | .take w => (Crew.exec args.n b.load (.take w)).map (fun load => { b with load := load })
  | .arrive idx i n allowed up => arrive args encode settings mode eng may b idx i n allowed up
  | .server ev =>
    if ev.inner then (b.server.exec settings mode eng may ev).map (fun server => { b with server := server }) else none
  | .answer w rec =>
    match b.load.workers[w]? with
    | some (.busy idx) =>
      if b.response idx = some rec.httpStatus then
        (Crew.exec args.n b.load (.finish w rec)).map (fun load => { b with load := load })
      else none
    | _ => none

def Step (ev : BenchEvent) (b c : Bench P L) : Prop := exec args encode settings mode eng may b ev = some c

end Bench

/-- Every request is valid and fits, also into the pool. -/
def LoadArgs.Fits (args : LoadArgs) (encode : Text → List Token) (settings : Settings) (s : System P L) : Prop :=
  ∀ (idx : ℕ) (h : idx < args.n), ∃ req sampling, (args.body idx h).incoming encode = some req ∧
    settings.requested req = .ok sampling ∧
    ∀ p, s.scheduler.pool = some p → p.blocksNeeded (req.prompt.length + sampling.maxTokens) ≤ p.numBlocks

variable [Inhabited P] [Inhabited L] {args : LoadArgs} {encode : Text → List Token} {settings : Settings}
  {mode : ServeEngine} {eng : CachedEngine P L} {may : Site → Bool}

namespace Server
variable {w v : Server P L} {i : SeqId} {req : Incoming} {sampling : SamplingParams}

/-- Without Redis no request is limited. -/
def Unlimited (w : Server P L) : Prop := ∀ plane, w.control = some plane → plane.enabled = false

omit [Inhabited P] [Inhabited L] in
theorem Unlimited.checked (hw : w.Unlimited) (settings : Settings) (req : Incoming) (allowed : Bool) :
    w.checked settings req allowed = settings.requested req := by
  unfold Server.checked enforceRateLimit
  cases hc : w.control with
  | none => rfl
  | some plane =>
    simp only [hw plane hc,Bool.not_false,Bool.true_or,if_true]
    rfl

omit [Inhabited P] [Inhabited L] in
theorem Unlimited.remember {control : Option ControlPlane} (h : ∀ plane, control = some plane → plane.enabled = false)
    (up : Bool) (job : Job) : ∀ plane, rememberJob control up job = some plane → plane.enabled = false := by
  intro plane hplane
  obtain ⟨old,hold,rfl⟩ := Option.map_eq_some_iff.mp hplane
  exact h old hold

/-- Nothing turns the rate limit on. -/
theorem Unlimited.step (hw : w.Unlimited) {ev : ServerEvent} (hst : Step settings mode eng may ev w v) :
    v.Unlimited := by
  unfold Step at hst
  cases ev with
  | worker answer =>
    obtain ⟨d,_,rfl⟩ := Option.map_eq_some_iff.mp hst
    exact hw
  | adminAbort j =>
    cases hst
    exact hw
  | requestStop =>
    cases hst
    exact hw
  | receive j n req allowed up =>
    simp only [exec,Option.ite_none_right_eq_some,Option.some.injEq] at hst
    obtain ⟨_,rfl⟩ := hst
    unfold receive
    split
    · exact hw
    · split
      · exact hw
      · have hwaiting := Unlimited.remember hw up.1 ⟨.seq j,"waiting",none,none,none⟩
        simp only [Unlimited,recordRequest]
        split
        · exact Unlimited.remember hwaiting up.2 _
        · exact hwaiting
  | handler j ev up =>
    obtain ⟨h,_,hst⟩ := Option.bind_eq_some_iff.mp hst
    obtain ⟨r,_,rfl⟩ := Option.map_eq_some_iff.mp hst
    simp only [Unlimited,affect]
    split
    · exact hw
    · exact Unlimited.remember hw up _
  | expire id =>
    cases hst
    intro plane hplane
    obtain ⟨old,hold,rfl⟩ := Option.map_eq_some_iff.mp hplane
    exact hw old hold
  | close =>
    cases hst
    intro plane hplane
    obtain ⟨old,_,rfl⟩ := Option.map_eq_some_iff.mp hplane
    rfl

omit [Inhabited P] [Inhabited L] in
theorem verdict_ok (hw : w.Unlimited) (allowed : Bool) (hreq : settings.requested req = .ok sampling)
    (hpool : ∀ p, w.system.scheduler.pool = some p → p.blocksNeeded (req.prompt.length + sampling.maxTokens) ≤ p.numBlocks) :
    w.verdict settings i req allowed =
      if w.system.waiting.length < w.system.scheduler.queue.maxWaiting then .ok i else .error 429 := by
  have hsmall : w.system.scheduler.tooLarge
      ({ promptTokenIds := req.prompt, sampling := sampling } : Sequence P L) = none := by
    unfold Scheduler.tooLarge
    cases hp : w.system.scheduler.pool with
    | none => rfl
    | some p =>
      have hneed := p.blocksNeeded_mono (w.system.scheduler.needTokens_le
        ({ promptTokenIds := req.prompt, sampling := sampling } : Sequence P L))
      exact if_neg (Nat.not_lt.mpr (hneed.trans (hpool p hp)))
  unfold verdict Scheduler.submit RequestQueue.tryEnqueue System.waiting
  simp only [hw.checked settings req allowed,hreq,hsmall]
  by_cases hfull : w.system.scheduler.queue.maxWaiting ≤ w.system.scheduler.queue.waiting.length
  · rw [if_neg (Nat.not_lt.mpr hfull)]
    simp only [if_pos hfull]
  · rw [if_pos (Nat.not_le.mp hfull)]
    simp only [if_neg hfull]

/-- Only a request that is taken in makes a new sequence. -/
theorem Runs.inner_accepted (hw : w.Runs settings mode eng may) {ev : ServerEvent} (hev : ev.inner = true)
    (hst : Step settings mode eng may ev w v) : v.system.accepted = w.system.accepted := by
  unfold Step at hst
  cases ev with
  | worker answer =>
    obtain ⟨d,hd,rfl⟩ := Option.map_eq_some_iff.mp hst
    obtain ⟨l,hl⟩ := mode.act_label hd
    exact (hw.worker.act hl).accepted_eq
  | adminAbort j =>
    cases hst
    change (w.system.adminAbort j).accepted = w.system.accepted
    unfold System.adminAbort
    split
    · rfl
    · split <;> rfl
  | requestStop =>
    cases hst
    rfl
  | receive j n req allowed up => cases hev
  | handler j ev up =>
    obtain ⟨h,_,hst⟩ := Option.bind_eq_some_iff.mp hst
    obtain ⟨r,_,rfl⟩ := Option.map_eq_some_iff.mp hst
    simp only [affect,setSystem,system]
    split <;> rfl
  | expire id =>
    cases hst
    rfl
  | close =>
    cases hst
    rfl

end Server

namespace Bench
variable {v : Server P L} {b c : Bench P L} {idx : ℕ} {i : SeqId}

/-- What holds in every state of a run from the server `v`: the requests of the prompts
that are out or answered are the only ones, a response to an accepted one ends after
its sequence, and every record has the status of a response. -/
structure Kept (args : LoadArgs) (settings : Settings) (mode : ServeEngine) (eng : CachedEngine P L) (may : Site → Bool)
    (v : Server P L) (b : Bench P L) : Prop where
  runs : b.server.Runs settings mode eng may
  unlimited : b.server.Unlimited
  reaches : Reaches (FluxEngine.Step eng) v.system b.server.system
  attended : b.server.Attended
  shared : b.load.Shared args.n args.workers
  known : ∀ idx, b.outcome idx ≠ none → idx ∈ b.load.tasks ∨ idx ∈ b.load.finished
  owner : ∀ i ∈ b.server.system.accepted, ∃ idx, b.outcome idx = some (.ok i)
  handler : ∀ idx i, b.outcome idx = some (.ok i) → ∃ h, b.server.handlers i = some h ∧ h.streaming = args.stream
  answered : ∀ idx ∈ b.load.finished, ∀ i, b.outcome idx = some (.ok i) → (b.server.system.heap i).status.terminal = true
  status : ∀ rec ∈ b.load.records, (∃ idx, b.outcome idx = some (.error rec.httpStatus)) ∨ rec.httpStatus = 200 ∨
    args.stream = false ∧ rec.httpStatus ∈ [499,500]

def start (args : LoadArgs) (v : Server P L) : Bench P L := { server := v, load := args.start }

theorem kept_start (args : LoadArgs) (hv : v.Boot mode eng) (hoff : v.Unlimited) :
    Kept args settings mode eng may v (start args v) := by
  refine ⟨⟨v,hv,.refl v⟩,hoff,.refl _,hv.attended,Crew.shared_start args.n args.workers,by simp [start],?_,by simp [start],
    by simp [start],?_⟩
  · intro i hi
    simp only [start,hv.system.initial.accepted] at hi
    cases hi
  · intro rec hrec
    cases hrec

theorem Kept.waiting_sent (hk : Kept args settings mode eng may v b) (hi : i ∈ b.server.system.waiting) :
    ∃ idx ∈ b.load.tasks, b.outcome idx = some (.ok i) := by
  have hb := books_of_reachable hk.runs.worker.reachable
  obtain ⟨hacc,hpristine⟩ := hb.waiting i hi
  obtain ⟨idx,hidx⟩ := hk.owner i hacc
  rcases hk.known idx (by simp [hidx]) with htask | hfinished
  · exact ⟨idx,htask,hidx⟩
  · have hend := hk.answered idx hfinished i hidx
    have hopen : (b.server.system.heap i).status = .waiting := hpristine.status
    rw [hopen] at hend
    cases hend

theorem Kept.waiting_lt (hk : Kept args settings mode eng may v b) (hidx : idx ∈ b.load.tasks)
    (hnone : b.outcome idx = none) : b.server.system.waiting.length < min args.workers args.n := by
  have hsub : b.server.system.waiting ⊆
      (b.load.tasks.erase idx).filterMap (fun j => (b.outcome j).bind Except.toOption) := by
    intro i hi
    obtain ⟨j,hj,hout⟩ := hk.waiting_sent hi
    have hne : j ≠ idx := by
      rintro rfl
      rw [hnone] at hout
      cases hout
    refine List.mem_filterMap.mpr ⟨j,(List.mem_erase_of_ne hne).mpr hj,?_⟩
    rw [hout]
    rfl
  have hnodup := (books_of_reachable hk.runs.worker.reachable).waiting_nodup
  have hlength : b.server.system.waiting.length ≤ (b.load.tasks.erase idx).length :=
    (hnodup.subperm hsub).length_le.trans (List.length_filterMap_le _ _)
  have htasks : 0 < b.load.tasks.length := List.length_pos_of_mem hidx
  have hworkers := hk.shared.tasks_le
  have htaken := hk.shared.length
  rw [List.length_erase_of_mem hidx] at hlength
  omega

omit [Inhabited P] [Inhabited L] in
/-- The status of a response that has ended, after its sequence. -/
theorem ended_of_httpStatus {x : Sequence P L} {h : Handler} (hh : h.Attended x) {status : ℕ}
    (hst : h.httpStatus x = some status) : x.status.terminal = true ∧
      (status = 200 ∨ h.streaming = false ∧ status ∈ [499,500]) := by
  unfold Handler.httpStatus at hst
  split at hst
  · rename_i hpc
    cases hst
    exact ⟨(hh.ended (by rw [hpc]; rfl)).1,Or.inl rfl⟩
  · rename_i e hpc hwait
    refine ⟨(hh.ended (by rw [hpc]; rfl)).1,?_⟩
    simp only [Option.ite_none_left_eq_some,Option.some.injEq,Bool.not_eq_true] at hst
    obtain ⟨hstream,rfl⟩ := hst
    refine Or.inr ⟨hstream,?_⟩
    unfold waitResult at hwait
    split at hwait
    · split at hwait
      · cases hwait
        simp
      · split at hwait
        · cases hwait
          simp
        · split at hwait
          · cases hwait
            simp
          · cases hwait
    · cases hwait
  · cases hst

theorem Kept.take (hk : Kept args settings mode eng may v b) {w : ℕ} {load : Load}
    (hst : Crew.Step args.n (.take w) b.load load) : Kept args settings mode eng may v { b with load := load } := by
  have hacts := Crew.acts_of_step hst
  have hresults := Crew.results_of_take hst
  have hfinished : Crew.finished load = b.load.finished := congrArg (List.map Prod.fst) hresults
  have hrecords : Load.records load = b.load.records := congrArg (List.map Prod.snd) hresults
  refine ⟨hk.runs,hk.unlimited,hk.reaches,hk.attended,hk.shared.acts hacts,?_,hk.owner,hk.handler,?_,?_⟩
  · exact fun idx hidx => hacts.taken (hk.known idx hidx)
  · intro idx hidx
    exact hk.answered idx (hfinished ▸ hidx)
  · intro rec hrec
    exact hk.status rec (hrecords ▸ hrec)

theorem Kept.answer (hk : Kept args settings mode eng may v b) {w idx : ℕ} {rec : RequestRecord} {load : Load}
    (hbusy : b.load.workers[w]? = some (.busy idx)) (hres : b.response idx = some rec.httpStatus)
    (hst : Crew.Step args.n (.finish w rec) b.load load) : Kept args settings mode eng may v { b with load := load } := by
  have hacts := Crew.acts_of_step hst
  have hresults := Crew.results_of_finish hbusy hst
  have hended : ∀ i, b.outcome idx = some (.ok i) → (b.server.system.heap i).status.terminal = true ∧
      (rec.httpStatus = 200 ∨ args.stream = false ∧ rec.httpStatus ∈ [499,500]) := by
    intro i hout
    obtain ⟨h,hh,hstream⟩ := hk.handler idx i hout
    simp only [response,hout,hh,Option.bind_some] at hres
    rw [← hstream]
    exact ended_of_httpStatus (hk.attended i h hh).2 hres
  refine ⟨hk.runs,hk.unlimited,hk.reaches,hk.attended,hk.shared.acts hacts,?_,hk.owner,hk.handler,?_,?_⟩
  · exact fun idx hidx => hacts.taken (hk.known idx hidx)
  · intro j hj i hout
    rw [Crew.finished,hresults,List.map_append] at hj
    rcases List.mem_append.mp hj with hj | hj
    · exact hk.answered j hj i hout
    · rw [List.map_singleton,List.mem_singleton] at hj
      subst hj
      exact (hended i hout).1
  · intro r hr
    rw [Load.records,hresults,List.map_append] at hr
    rcases List.mem_append.mp hr with hr | hr
    · exact hk.status r hr
    · rw [List.map_singleton,List.mem_singleton] at hr
      subst hr
      cases hout : b.outcome idx with
      | none => simp [response,hout] at hres
      | some outcome =>
        cases outcome with
        | ok i => exact Or.inr (hended i hout).2
        | error status =>
          simp only [response,hout,Option.some.injEq] at hres
          exact Or.inl ⟨idx,by rw [hout,hres]⟩

/-- What a step of the server alone does to its handlers. -/
theorem handlers_inner {w u : Server P L} {ev : ServerEvent} (hev : ev.inner = true)
    (hst : Server.Step settings mode eng may ev w u) {h : Handler} (hi : w.handlers i = some h) :
    ∃ k, u.handlers i = some k ∧ k.streaming = h.streaming := by
  unfold Server.Step at hst
  cases ev with
  | worker answer =>
    obtain ⟨d,_,rfl⟩ := Option.map_eq_some_iff.mp hst
    exact ⟨h,hi,rfl⟩
  | adminAbort j =>
    cases hst
    exact ⟨h,hi,rfl⟩
  | requestStop =>
    cases hst
    exact ⟨h,hi,rfl⟩
  | receive j n req allowed up => cases hev
  | handler j ev up =>
    obtain ⟨m,hm,hst⟩ := Option.bind_eq_some_iff.mp hst
    obtain ⟨r,hex,rfl⟩ := Option.map_eq_some_iff.mp hst
    by_cases hij : i = j
    · subst hij
      rw [hi,Option.some.injEq] at hm
      subst hm
      exact ⟨r.1,update_self _ _ _,(Handler.moves_of_exec hex).streaming⟩
    · exact ⟨h,(update_of_ne hij _ _).trans hi,rfl⟩
  | expire id =>
    cases hst
    exact ⟨h,hi,rfl⟩
  | close =>
    cases hst
    exact ⟨h,hi,rfl⟩

theorem attended_of_inner {ev : ServerEvent} (hev : ev.inner = true) : ev.attended = true := by
  cases ev with
  | receive i n req allowed up => cases hev
  | _ => exact hev

theorem Kept.inner (hk : Kept args settings mode eng may v b) {ev : ServerEvent} {server : Server P L}
    (hev : ev.inner = true) (hst : Server.Step settings mode eng may ev b.server server) :
    Kept args settings mode eng may v { b with server := server } := by
  have hr := hk.runs.reaches_system hst
  have hs : Reachable eng b.server.system := hk.runs.worker.reachable
  refine ⟨hk.runs.tail hst,hk.unlimited.step hst,hk.reaches.trans hr,
    hk.runs.attended_step hk.attended (attended_of_inner hev) hst,hk.shared,hk.known,?_,?_,?_,hk.status⟩
  · intro i hi
    rw [hk.runs.inner_accepted hev hst] at hi
    exact hk.owner i hi
  · intro idx i hout
    obtain ⟨h,hh,hstream⟩ := hk.handler idx i hout
    obtain ⟨k,hk',hsame⟩ := handlers_inner hev hst hh
    exact ⟨k,hk',hsame.trans hstream⟩
  · intro idx hidx i hout
    obtain ⟨h,hh,_⟩ := hk.handler idx i hout
    exact hs.terminal_mono hr (hk.attended i h hh).1 (hk.answered idx hidx i hout)

section Arrival
variable {o o' : Except ℕ SeqId} {j : ℕ}

omit [Inhabited P] [Inhabited L] in
theorem outcome_old (server : Server P L) (hnone : b.outcome idx = none) (hj : b.outcome j = some o) :
    (b.setOutcome server idx o').outcome j = some o := by
  have hne : j ≠ idx := by
    rintro rfl
    rw [hnone] at hj
    cases hj
  exact (update_of_ne hne _ _).trans hj

omit [Inhabited P] [Inhabited L] in
theorem outcome_cases {server : Server P L} (hj : (b.setOutcome server idx o').outcome j = some o) :
    j = idx ∧ o' = o ∨ b.outcome j = some o := by
  unfold setOutcome at hj
  simp only at hj
  by_cases hji : j = idx
  · rw [hji,update_self,Option.some.injEq] at hj
    exact Or.inl ⟨hji,hj⟩
  · rw [update_of_ne hji] at hj
    exact Or.inr hj

theorem Kept.known_set (hk : Kept args settings mode eng may v b) (hidx : idx ∈ b.load.tasks) {server : Server P L}
    (hj : (b.setOutcome server idx o).outcome j ≠ none) : j ∈ b.load.tasks ∨ j ∈ b.load.finished := by
  by_cases hji : j = idx
  · exact Or.inl (hji ▸ hidx)
  · have hsame : (b.setOutcome server idx o).outcome j = b.outcome j := update_of_ne hji _ _
    exact hk.known j (hsame ▸ hj)

theorem Kept.status_set (hk : Kept args settings mode eng may v b) (hnone : b.outcome idx = none)
    (server : Server P L) {rec : RequestRecord} (hrec : rec ∈ b.load.records) :
    (∃ j, (b.setOutcome server idx o).outcome j = some (.error rec.httpStatus)) ∨ rec.httpStatus = 200 ∨
      args.stream = false ∧ rec.httpStatus ∈ [499,500] := by
  rcases hk.status rec hrec with ⟨j,hj⟩ | hrest
  · exact Or.inl ⟨j,outcome_old server hnone hj⟩
  · exact Or.inr hrest

end Arrival

theorem Kept.refused (hk : Kept args settings mode eng may v b) (hidx : idx ∈ b.load.tasks) (hnone : b.outcome idx = none)
    (status : ℕ) : Kept args settings mode eng may v (b.setOutcome b.server idx (.error status)) := by
  refine ⟨hk.runs,hk.unlimited,hk.reaches,hk.attended,hk.shared,fun _ hj => hk.known_set hidx hj,?_,?_,?_,
    fun _ hrec => hk.status_set hnone _ hrec⟩
  · intro i hi
    obtain ⟨j,hj⟩ := hk.owner i hi
    exact ⟨j,outcome_old _ hnone hj⟩
  · intro j i hj
    rcases outcome_cases hj with ⟨_,heq⟩ | hj
    · cases heq
    · exact hk.handler j i hj
  · intro j hmem i hj
    rcases outcome_cases hj with ⟨_,heq⟩ | hj
    · cases heq
    · exact hk.answered j hmem i hj

theorem Kept.received (hk : Kept args settings mode eng may v b) {n : ℕ} {allowed : Bool} {up : Bool × Bool} {req : Incoming}
    {server : Server P L} (hidx : idx ∈ b.load.tasks) (hnone : b.outcome idx = none) (hstream : req.streaming = args.stream)
    (hst : Server.Step settings mode eng may (.receive i n req allowed up) b.server server) :
    Kept args settings mode eng may v (b.setOutcome server idx (b.server.verdict settings i req allowed)) := by
  have hr := hk.runs.reaches_system hst
  have hs : Reachable eng b.server.system := hk.runs.worker.reachable
  have hruns := hk.runs.tail hst
  have hunlimited := hk.unlimited.step hst
  have hattended := hk.runs.attended_step hk.attended rfl hst
  simp only [Server.Step,Server.exec,Option.ite_none_right_eq_some,Option.some.injEq] at hst
  obtain ⟨⟨hfresh,_,_⟩,rfl⟩ := hst
  rcases b.server.receive_cases settings i n req allowed up with ⟨status,hverdict,hsame⟩ | ⟨hverdict,hrec⟩
  · rw [hverdict,hsame]
    exact hk.refused hidx hnone status
  · rw [hverdict]
    obtain ⟨h,hh,hhs,_,_⟩ := hrec.handlers
    have hopen : idx ∉ b.load.finished := by
      intro hfin
      have hnd := hk.shared.taken.nodup_iff.mpr List.nodup_range
      exact List.disjoint_of_nodup_append hnd hidx hfin
    refine ⟨hruns,hunlimited,hk.reaches.trans hr,hattended,hk.shared,fun _ hj => hk.known_set hidx hj,?_,?_,?_,
      fun _ hrec => hk.status_set hnone _ hrec⟩
    · intro k hacc
      replace hacc : k ∈ (b.server.receive settings i n req allowed up).system.accepted := hacc
      rw [hrec.accepted] at hacc
      rcases List.mem_append.mp hacc with hold | hnew
      · obtain ⟨j,hj⟩ := hk.owner k hold
        exact ⟨j,outcome_old _ hnone hj⟩
      · rw [List.mem_singleton] at hnew
        exact ⟨idx,hnew ▸ update_self _ _ _⟩
    · intro j k hj
      change ∃ m, (b.server.receive settings i n req allowed up).handlers k = some m ∧ m.streaming = args.stream
      rw [hh]
      rcases outcome_cases hj with ⟨_,heq⟩ | hj
      · cases heq
        exact ⟨h,update_self _ _ _,hhs.trans hstream⟩
      · obtain ⟨m,hm,hms⟩ := hk.handler j k hj
        have hne : k ≠ i := fun heq => hfresh (heq ▸ (hk.attended k m hm).1)
        exact ⟨m,by rw [update_of_ne hne,hm],hms⟩
    · intro j hmem k hj
      rcases outcome_cases hj with ⟨hji,_⟩ | hj
      · exact absurd (hji ▸ hmem) hopen
      · obtain ⟨m,hm,_⟩ := hk.handler j k hj
        exact hs.terminal_mono hr (hk.attended k m hm).1 (hk.answered j hmem k hj)

/-- What a step of the whole does. -/
inductive Acts (args : LoadArgs) (encode : Text → List Token) (settings : Settings) (mode : ServeEngine)
    (eng : CachedEngine P L) (may : Site → Bool) (b : Bench P L) : Bench P L → Prop
  | take {w : ℕ} {load : Load} : Crew.Step args.n (.take w) b.load load →
      Acts args encode settings mode eng may b { b with load := load }
  | invalid {idx : ℕ} (h : idx < args.n) : idx ∈ b.load.tasks → b.outcome idx = none →
      (args.body idx h).incoming encode = none →
      Acts args encode settings mode eng may b (b.setOutcome b.server idx (.error 422))
  | arrive {idx : ℕ} {i : SeqId} {n : ℕ} {allowed : Bool} {up : Bool × Bool} {req : Incoming} {server : Server P L}
      (h : idx < args.n) :
      idx ∈ b.load.tasks → b.outcome idx = none → (args.body idx h).incoming encode = some req →
      Server.Step settings mode eng may (.receive i n req allowed up) b.server server →
      Acts args encode settings mode eng may b (b.setOutcome server idx (b.server.verdict settings i req allowed))
  | server {ev : ServerEvent} {server : Server P L} : ev.inner = true →
      Server.Step settings mode eng may ev b.server server →
      Acts args encode settings mode eng may b { b with server := server }
  | answer {w idx : ℕ} {rec : RequestRecord} {load : Load} : b.load.workers[w]? = some (.busy idx) →
      b.response idx = some rec.httpStatus → Crew.Step args.n (.finish w rec) b.load load →
      Acts args encode settings mode eng may b { b with load := load }

theorem acts_of_step {ev : BenchEvent} (hst : Step args encode settings mode eng may ev b c) :
    Acts args encode settings mode eng may b c := by
  unfold Step at hst
  cases ev with
  | take w =>
    obtain ⟨load,hload,rfl⟩ := Option.map_eq_some_iff.mp hst
    exact .take hload
  | arrive idx i n allowed up =>
    simp only [exec,arrive] at hst
    split at hst
    · rename_i hlt
      simp only [Option.ite_none_right_eq_some] at hst
      obtain ⟨⟨hidx,hnone⟩,hst⟩ := hst
      split at hst
      · rename_i hinvalid
        cases hst
        exact .invalid hlt hidx hnone hinvalid
      · rename_i req hreq
        obtain ⟨server,hserver,rfl⟩ := Option.map_eq_some_iff.mp hst
        exact .arrive hlt hidx hnone hreq hserver
    · cases hst
  | server ev =>
    simp only [exec,Option.ite_none_right_eq_some] at hst
    obtain ⟨hev,hst⟩ := hst
    obtain ⟨server,hserver,rfl⟩ := Option.map_eq_some_iff.mp hst
    exact .server hev hserver
  | answer w rec =>
    simp only [exec] at hst
    split at hst
    · rename_i idx hbusy
      simp only [Option.ite_none_right_eq_some] at hst
      obtain ⟨hres,hst⟩ := hst
      obtain ⟨load,hload,rfl⟩ := Option.map_eq_some_iff.mp hst
      exact .answer hbusy hres hload
    · cases hst

omit [Inhabited P] [Inhabited L] in
theorem streaming_of_incoming {body : CompletionBody} {req : Incoming} (h : body.incoming encode = some req) :
    req.streaming = body.stream := by
  simp only [CompletionBody.incoming,Option.dite_none_right_eq_some,Option.some.injEq] at h
  obtain ⟨_,rfl⟩ := h
  rfl

theorem Kept.acts (hk : Kept args settings mode eng may v b) (ha : Acts args encode settings mode eng may b c) :
    Kept args settings mode eng may v c := by
  cases ha with
  | take hst => exact hk.take hst
  | invalid _ hidx hnone _ => exact hk.refused hidx hnone 422
  | arrive _ hidx hnone hreq hst => exact hk.received hidx hnone (streaming_of_incoming hreq) hst
  | server hev hst => exact hk.inner hev hst
  | answer hbusy hres hst => exact hk.answer hbusy hres hst

theorem Kept.verdict (hk : Kept args settings mode eng may v b) (hv : Reachable eng v.system)
    (hfits : args.Fits encode settings v.system) {h : idx < args.n} {req : Incoming}
    (hreq : (args.body idx h).incoming encode = some req) (i : SeqId) (allowed : Bool) :
    b.server.verdict settings i req allowed =
      if b.server.system.waiting.length < v.system.scheduler.queue.maxWaiting then .ok i else .error 429 := by
  obtain ⟨req',sampling,hreq',hsampling,hpool⟩ := hfits idx h
  obtain rfl : req' = req := Option.some.inj (hreq'.symm.trans hreq)
  rw [← hv.maxWaiting_eq hk.reaches]
  refine Server.verdict_ok hk.unlimited allowed hsampling ?_
  intro p hp
  obtain ⟨q,hq,hshape⟩ := hv.pool_of_reaches hk.reaches hp
  have hblocks : q.numBlocks = p.numBlocks := congrArg Prod.fst hshape
  rw [← BlockPool.blocksNeeded_congr hshape,← hblocks]
  exact hpool q hq

theorem Kept.accepts (hk : Kept args settings mode eng may v b) (hv : Reachable eng v.system)
    (hfits : args.Fits encode settings v.system)
    (hroom : min args.workers args.n ≤ v.system.scheduler.queue.maxWaiting)
    (hb : ∀ idx status, b.outcome idx ≠ some (.error status)) (ha : Acts args encode settings mode eng may b c) :
    ∀ idx status, c.outcome idx ≠ some (.error status) := by
  intro j status hj
  cases ha with
  | take _ => exact hb j status hj
  | invalid h _ _ hinvalid =>
    obtain ⟨req,_,hreq,_⟩ := hfits _ h
    rw [hinvalid] at hreq
    cases hreq
  | @arrive idx i n allowed up req server h hidx hnone hreq hst =>
    have hplace := (hk.waiting_lt hidx hnone).trans_le hroom
    rw [hk.verdict hv hfits hreq,if_pos hplace] at hj
    rcases outcome_cases hj with ⟨_,heq⟩ | hj
    · cases heq
    · exact hb j status hj
  | server _ _ => exact hb j status hj
  | answer _ _ _ => exact hb j status hj

theorem kept_reaches (hv : v.Boot mode eng) (hoff : v.Unlimited)
    (hr : Reaches (Step args encode settings mode eng may) (start args v) b) : Kept args settings mode eng may v b :=
  hr.invariant (kept_start args hv hoff) (fun _ _ _ hk hst => hk.acts (acts_of_step hst))

theorem accepts_reaches (hv : v.Boot mode eng) (hoff : v.Unlimited) (hfits : args.Fits encode settings v.system)
    (hroom : min args.workers args.n ≤ v.system.scheduler.queue.maxWaiting)
    (hr : Reaches (Step args encode settings mode eng may) (start args v) b) :
    Kept args settings mode eng may v b ∧ ∀ idx status, b.outcome idx ≠ some (.error status) := by
  have hreach : Reachable eng v.system := ⟨v.system,hv.system.initial,.refl _⟩
  refine hr.invariant (P := fun b => Kept args settings mode eng may v b ∧
    ∀ idx status, b.outcome idx ≠ some (.error status)) ⟨kept_start args hv hoff,by simp [start]⟩ ?_
  rintro ev b c ⟨hk,hb⟩ hst
  have ha := acts_of_step hst
  exact ⟨hk.acts ha,hk.accepts hreach hfits hroom hb ha⟩

/-- The first workers have sent their requests, and all of them wait. -/
structure Filled (args : LoadArgs) (k : ℕ) (b : Bench P L) : Prop where
  waiting : b.server.system.waiting.length = k
  next : b.load.next = k
  idle : ∀ w, k ≤ w → w < args.workers → b.load.workers[w]? = some .idle
  later : ∀ idx, k ≤ idx → b.outcome idx = none

theorem filled_start (args : LoadArgs) (hv : v.Boot mode eng) : (start args v).Filled args 0 := by
  refine ⟨?_,rfl,?_,fun _ _ => rfl⟩
  · rw [start,hv.system.initial.waiting]
    rfl
  · intro w _ hw
    simp [start,LoadArgs.start,Crew.start,hw]

/-- The next worker sends its request, which arrives before anybody has been served. -/
theorem Filled.arrives {k : ℕ} (hb : b.Filled args k) (hk : Kept args settings mode eng may v b)
    (hv : Reachable eng v.system) (hfits : args.Fits encode settings v.system) (hw : k < args.workers) (hn : k < args.n) :
    ∃ c i, Reaches (Step args encode settings mode eng may) b c ∧
      c.outcome k = some (if k < v.system.scheduler.queue.maxWaiting then .ok i else .error 429) ∧
      (k < v.system.scheduler.queue.maxWaiting → c.Filled args (k + 1)) := by
  obtain ⟨req,_,hreq,_⟩ := hfits k hn
  -- a sequence id and a response number that nobody has had
  obtain ⟨i,hi⟩ := Infinite.exists_notMem_finset b.server.system.accepted.toFinset
  obtain ⟨n,hnew⟩ := Infinite.exists_notMem_finset b.server.issued.toFinset
  rw [List.mem_toFinset] at hi hnew
  have hhandler : b.server.handlers i = none := by
    cases hh : b.server.handlers i with
    | none => rfl
    | some h => exact absurd (hk.attended i h hh).1 hi
  let load : Load := { b.load with next := k + 1, workers := b.load.workers.set k (.busy k) }
  let server := b.server.receive settings i n req true (true,true)
  have htake : Step args encode settings mode eng may (.take k) b { b with load := load } := by
    have hexec : Crew.exec args.n b.load (.take k) = some load := by
      simp only [Crew.exec,hb.idle k le_rfl hw,if_true,hb.next,if_pos hn,load]
    simp only [Step,exec,hexec,Option.map_some]
  have htask : k ∈ Crew.tasks load := by
    have hlt : k < b.load.workers.length := hk.shared.size.symm ▸ hw
    exact List.mem_filterMap.mpr ⟨.busy k,List.mem_of_getElem? (List.getElem?_set_self hlt),rfl⟩
  have hreceive : b.server.exec settings mode eng may (.receive i n req true (true,true)) = some server :=
    if_pos ⟨hi,hhandler,hnew⟩
  have harrive : Step args encode settings mode eng may (.arrive k i n true (true,true)) { b with load := load }
      (({ b with load := load } : Bench P L).setOutcome server k (b.server.verdict settings i req true)) := by
    simp only [Step,exec,arrive,dif_pos hn,if_pos (And.intro htask (hb.later k le_rfl)),hreq,hreceive,Option.map_some]
  have hverdict := hk.verdict hv hfits hreq i true
  rw [hb.waiting] at hverdict
  refine ⟨_,i,((Reaches.refl _).tail htake).tail harrive,?_,?_⟩
  · rw [← hverdict]
    exact update_self _ _ _
  · intro hplace
    rw [if_pos hplace] at hverdict
    rcases b.server.receive_cases settings i n req true (true,true) with ⟨status,herr,_⟩ | ⟨_,hrec⟩
    · rw [herr] at hverdict
      cases hverdict
    · refine ⟨?_,rfl,?_,?_⟩
      · change server.system.waiting.length = k + 1
        rw [hrec.waiting,List.length_append,hb.waiting]
        rfl
      · intro w hkw hw
        have hold := hb.idle w (Nat.le_of_succ_le hkw) hw
        exact (List.getElem?_set_ne (Nat.ne_of_lt hkw)).trans hold
      · intro idx hidx
        exact (update_of_ne (Nat.ne_of_gt hidx) _ _).trans (hb.later idx (Nat.le_of_succ_le hidx))

theorem exists_filled (hv : v.Boot mode eng) (hoff : v.Unlimited) (hfits : args.Fits encode settings v.system) {k : ℕ}
    (hk : k ≤ min args.workers args.n) (hplaces : k ≤ v.system.scheduler.queue.maxWaiting) :
    ∃ b, Reaches (Step args encode settings mode eng may) (start args v) b ∧ b.Filled args k := by
  have hreach : Reachable eng v.system := ⟨v.system,hv.system.initial,.refl _⟩
  induction k with
  | zero => exact ⟨_,.refl _,filled_start args hv⟩
  | succ k ih =>
    obtain ⟨b,hr,hb⟩ := ih (Nat.le_of_succ_le hk) (Nat.le_of_succ_le hplaces)
    obtain ⟨c,_,hc,_,hfilled⟩ := hb.arrives (kept_reaches hv hoff hr) hreach hfits (by omega) (by omega)
    exact ⟨c,hr.trans hc,hfilled hplaces⟩

end Bench

/-- Nothing that `run_load` sends to a server of its own that does not limit rates is ever
refused, in any interleaving, if and only if the waiting queue has room for all workers
or for all prompts.  Then no record has the status 429; those of streams have 200, and at
the end all prompts behind the warm-up are measured. -/
theorem load_accepted_iff {v : Server P L} (hv : v.Boot mode eng) (hoff : v.Unlimited)
    (hfits : args.Fits encode settings v.system) :
    ((∀ b, Reaches (Bench.Step args encode settings mode eng may) (Bench.start args v) b →
      ∀ idx status, b.outcome idx ≠ some (.error status)) ↔
        min args.workers args.n ≤ v.system.scheduler.queue.maxWaiting) ∧
    (min args.workers args.n ≤ v.system.scheduler.queue.maxWaiting →
      ∀ b, Reaches (Bench.Step args encode settings mode eng may) (Bench.start args v) b →
        (∀ rec ∈ b.load.records, rec.httpStatus ≠ 429) ∧
        (args.stream = true → (∀ rec ∈ b.load.records, rec.httpStatus = 200) ∧
          (b.load.Over → ∀ wall, ((args.result b.load wall).statuses.get? "200").getD 0 = args.n ∧
            (args.result b.load wall).measured.length = args.n - args.warmup))) := by
  have hreach : Reachable eng v.system := ⟨v.system,hv.system.initial,.refl _⟩
  constructor
  · constructor
    · intro hnone
      by_contra hfull
      have hlt : v.system.scheduler.queue.maxWaiting < min args.workers args.n := Nat.not_le.mp hfull
      obtain ⟨b,hr,hb⟩ := Bench.exists_filled hv hoff hfits hlt.le le_rfl
      obtain ⟨c,_,hc,hout,_⟩ := hb.arrives (Bench.kept_reaches hv hoff hr) hreach hfits (by omega) (by omega)
      rw [if_neg (Nat.lt_irrefl _)] at hout
      exact hnone c (hr.trans hc) _ _ hout
    · intro hroom b hr
      exact (Bench.accepts_reaches hv hoff hfits hroom hr).2
  · intro hroom b hr
    obtain ⟨hk,hnone⟩ := Bench.accepts_reaches hv hoff hfits hroom hr
    have hstatus : ∀ rec ∈ b.load.records, rec.httpStatus = 200 ∨ args.stream = false ∧ rec.httpStatus ∈ [499,500] := by
      intro rec hrec
      rcases hk.status rec hrec with ⟨idx,herr⟩ | hrest
      · exact absurd herr (hnone idx _)
      · exact hrest
    refine ⟨?_,?_⟩
    · intro rec hrec h429
      rcases hstatus rec hrec with h200 | ⟨_,hother⟩
      · omega
      · simp [h429] at hother
    · intro hstream
      have hall : ∀ rec ∈ b.load.records, rec.httpStatus = 200 := by
        intro rec hrec
        rcases hstatus rec hrec with h200 | ⟨hnot,_⟩
        · exact h200
        · rw [hstream] at hnot
          cases hnot
      refine ⟨hall,?_⟩
      intro hover wall
      have hlength : b.load.records.length = args.n := by
        rw [LoadArgs.length_records,(hk.shared.finished_perm args.workers_pos hover).length_eq,List.length_range]
      constructor
      · have hcount := args.result_status b.load wall 200
        rw [List.countP_eq_length.mpr (by simpa using hall),hlength] at hcount
        exact hcount
      · have hmeasured : (args.result b.load wall).measured = b.load.records.drop (min args.warmup b.load.records.length) := by
          refine List.filter_eq_self.mpr ?_
          intro rec hrec
          exact decide_eq_true (hall rec (List.mem_of_mem_drop hrec))
        rw [hmeasured,List.length_drop,hlength]
        omega

def twoPrompts : LoadArgs := ⟨[['a'],['b']],[1,1],rfl,2,true,1,"continuous","adhoc"⟩

/-- Its two requests arrive, a worker serves both, the handlers stream the tokens, and
the second is answered first. -/
def twoAnswered : List BenchEvent :=
  let handler (i : SeqId) (token : Token) : List BenchEvent :=
    [.enter,.update (.append token),.update .put,.update .putEnd,.update .setFinished,.iterate .check,.iterate .decode,
      .connected,.resume,.leave,.resume,.resume].map (fun ev => .server (.handler i ev true))
  [.take 0,.take 1,.arrive 0 0 0 true (true,true),.arrive 1 1 1 true (true,true)] ++ List.replicate 33 (.server (.worker {})) ++
    handler 0 9 ++ handler 1 10 ++ [.answer 1 okRecord,.take 1,.answer 0 okRecord,.take 0]

theorem freshServer_unlimited : freshServer.Unlimited := by
  rintro plane ⟨⟩
  rfl

theorem twoPrompts_fits : twoPrompts.Fits FakeTokenizer.encode {} freshServer.system := by
  have hpool : ∀ p, freshServer.system.scheduler.pool = some p → p.blocksNeeded 3 ≤ p.numBlocks := by
    rintro p ⟨⟩
    decide
  intro idx hidx
  have hcases : idx = 0 ∨ idx = 1 := by
    have htwo : twoPrompts.n = 2 := rfl
    omega
  rcases hcases with rfl | rfl
  · exact ⟨_,_,rfl,rfl,hpool⟩
  · exact ⟨_,_,rfl,rfl,hpool⟩

theorem load_accepted_iff_two : ∃ b : Bench ℕ Token,
    Reaches (Bench.Step twoPrompts FakeTokenizer.encode {} .continuous (FakeLm.engine {}) Site.isModel)
      (Bench.start twoPrompts freshServer) b ∧ b.load.finished = [1,0] ∧
        ((twoPrompts.result b.load 1).statuses.get? "200").getD 0 = 2 ∧ (twoPrompts.result b.load 1).measured.length = 1 := by
  have hobs : (playAll (fun ev b => Bench.exec twoPrompts FakeTokenizer.encode {} .continuous (FakeLm.engine {})
      Site.isModel b ev) twoAnswered (Bench.start twoPrompts freshServer)).map
        (fun b => (b.load.finished,decide b.load.Over)) = some ([1,0],true) := by decide
  obtain ⟨b,hb,hobs⟩ := Option.map_eq_some_iff.mp hobs
  simp only [Prod.mk.injEq,decide_eq_true_eq] at hobs
  have hr : Reaches (Bench.Step twoPrompts FakeTokenizer.encode {} .continuous (FakeLm.engine {}) Site.isModel)
      (Bench.start twoPrompts freshServer) b := ⟨_,playAll_run (fun _ _ _ _ hst => hst) hb⟩
  have hend := (((load_accepted_iff freshServer_boot freshServer_unlimited twoPrompts_fits).2 (by decide) b hr).2 rfl).2 hobs.2 1
  exact ⟨b,hr,hobs.1,hend.1,hend.2⟩

end FluxEngine
