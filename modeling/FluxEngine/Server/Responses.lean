import FluxEngine.Serving.Containment
import FluxEngine.Server.Routes
import FluxEngine.Server.Streaming

/-! # Streaming a sequence that a worker serves

The updates of a sequence reach the event loop one by one and in order, after
any delay; the handler closes the stream once its iterator is at its end.  The
streamed text is that of the whole output, and the final chunk is the one that
`_wait_result` calls for, but for a sequence that ended in ERROR.
-/
namespace FluxEngine
open Transition
variable {P L : Type} {eng : CachedEngine P L} {may : Site → Bool} {i : SeqId}

namespace Sequence
variable {x y : Sequence P L}

/-- What the worker leaves behind. -/
structure Settled (eng : CachedEngine P L) (x : Sequence P L) : Prop where
  signalled : x.Signalled
  concluded : x.Concluded eng
  ended : x.status.terminal = true

theorem Settled.event (h : x.Settled eng) : x.finishedEvent = true := h.signalled.event.trans h.ended

theorem Settled.no_error (h : x.Settled eng) (hst : x.status ≠ .error) : x.error = none := by
  rw [← Option.not_isSome_iff_eq_none,h.concluded.error]
  exact hst

theorem waitResult_of_outcome (h : x.outcome = y.outcome) : waitResult x = waitResult y := by
  simp only [outcome,Prod.mk.injEq] at h
  obtain ⟨⟨hst,_,_⟩,⟨hev,_,_⟩,hres,herr⟩ := h
  simp only [waitResult,hst,hev,hres,herr]

theorem Settled.finished (h : x.Settled eng) (hst : x.status = .finished) :
    ∃ r, x.result = some r ∧ x.finishReason = some r.finishReason ∧ waitResult x = some (.ok r) := by
  obtain ⟨reason,engineName,hreason,hres⟩ := h.concluded.finished hst
  have herr : x.error = none := h.no_error (by simp [hst])
  refine ⟨_,hres,hreason,?_⟩
  simp only [waitResult,h.event,herr,hst,hres]
  rfl

theorem Settled.aborted (h : x.Settled eng) (hst : x.status = .aborted) :
    waitResult x = some (.error ⟨499,"request aborted"⟩) := by
  have herr : x.error = none := h.no_error (by simp [hst])
  simp only [waitResult,h.event,herr,hst]
  rfl

theorem Settled.failed (h : x.Settled eng) (hst : x.status = .error) :
    ∃ e, x.error = some e ∧ waitResult x = some (.error ⟨500,e⟩) := by
  obtain ⟨e,he⟩ := Option.isSome_iff_exists.mp (h.concluded.error.mpr hst)
  refine ⟨e,he,?_⟩
  simp only [waitResult,h.event,he]
  rfl

theorem Settled.status (h : x.Settled eng) : x.status = .finished ∨ x.status = .aborted ∨ x.status = .error := by
  have hend := h.ended
  cases hst : x.status with
  | finished => exact Or.inl rfl
  | aborted => exact Or.inr (Or.inl rfl)
  | error => exact Or.inr (Or.inr rfl)
  | _ =>
    rw [hst] at hend
    cases hend

theorem Settled.waitResult_ok (h : x.Settled eng) (r : GenerateResult) :
    waitResult x = some (.ok r) ↔ x.status = .finished ∧ x.result = some r := by
  rcases h.status with hst | hst | hst
  · obtain ⟨r',hres,_,hwait⟩ := h.finished hst
    simp [hwait,hres,hst]
  · simp [h.aborted hst,hst]
  · obtain ⟨e,_,hwait⟩ := h.failed hst
    simp [hwait,hst]

theorem Settled.waitResult_isSome (h : x.Settled eng) : (waitResult x).isSome := by
  rcases h.status with hst | hst | hst
  · obtain ⟨r,_,_,hwait⟩ := h.finished hst
    rw [hwait]
    rfl
  · rw [h.aborted hst]
    rfl
  · obtain ⟨e,_,hwait⟩ := h.failed hst
    rw [hwait]
    rfl

theorem Settled.finals_iff (h : x.Settled eng) (handler : StreamHandler) :
    finals (handler.closing x) = due (waitResult x) ↔ x.status ≠ .error := by
  rw [handler.finals_closing]
  rcases h.status with hst | hst | hst
  · obtain ⟨r,hres,hreason,hwait⟩ := h.finished hst
    simp [hwait,hst,hres,hreason,due]
  · simp [h.aborted hst,hst,due]
  · obtain ⟨e,_,hwait⟩ := h.failed hst
    simp [hwait,hst,due]

end Sequence

/-- A worker, the stream of one of its sequences, and what the handler closed it with. -/
structure Response (P L : Type) where
  worker : WorkerControl P L × System P L
  stream : Stream := {}
  closing : Option (List SseEvent) := none

inductive ResponseEvent
  | worker (l : Option (Label × Answer))
  | stream (ev : StreamEvent)
  | close

namespace Response

def seq (i : SeqId) (w : Response P L) : Sequence P L := w.worker.2.heap i

def sent (handler : StreamHandler) (w : Response P L) : List SseEvent :=
  handler.sent w.stream.client.yielded w.closing

/-- The worker has made the update that is to reach the event loop. -/
def shows (x : Sequence P L) (s : Stream) : StreamEvent → Bool
  | .append token => decide (s.outputIds ++ [token] <+: x.outputIds)
  | .putEnd => x.status.terminal && decide (s.outputIds = x.outputIds)
  | _ => true

variable [Inhabited P] [Inhabited L]

inductive Step (mode : ServeEngine) (eng : CachedEngine P L) (may : Site → Bool) (handler : StreamHandler) (i : SeqId) :
    ResponseEvent → Response P L → Response P L → Prop
  | worker {w : Response P L} {l : Option (Label × Answer)} {d : WorkerControl P L × System P L} :
      mode.Next eng may l w.worker d → Step mode eng may handler i (.worker l) w { w with worker := d }
  | stream {w : Response P L} {ev : StreamEvent} {t : Stream} : shows (w.seq i) w.stream ev = true →
      Stream.Step eng.tokenizer.decode ev w.stream t → Step mode eng may handler i (.stream ev) w { w with stream := t }
  | close {w : Response P L} : w.stream.client.pc = .done → w.closing = none →
      Step mode eng may handler i .close w { w with closing := some (handler.closing (w.seq i)) }

/-- Reached from the submission of the sequence in a run of the worker. -/
def Streams (mode : ServeEngine) (eng : CachedEngine P L) (may : Site → Bool) (handler : StreamHandler) (i : SeqId)
    (w : Response P L) : Prop :=
  ∃ c, mode.Runs eng may c ∧ i ∈ c.2.accepted ∧ Reaches (Step mode eng may handler i) { worker := c } w

/-- The stream lags behind the sequence, and ends with it. -/
structure Follows (mode : ServeEngine) (eng : CachedEngine P L) (may : Site → Bool) (handler : StreamHandler) (i : SeqId)
    (w : Response P L) : Prop where
  runs : mode.Runs eng may w.worker
  accepted : i ∈ w.worker.2.accepted
  stream : Reaches (Stream.Step eng.tokenizer.decode) {} w.stream
  output : w.stream.outputIds <+: (w.seq i).outputIds
  ended : w.stream.Over → (w.seq i).status.terminal = true ∧ w.stream.outputIds = (w.seq i).outputIds
  closing : ∀ events, w.closing = some events → w.stream.client.pc = .done ∧
    ∃ x : Sequence P L, x.Settled eng ∧ x.outcome = (w.seq i).outcome ∧ events = handler.closing x

variable {mode : ServeEngine} {handler : StreamHandler} {w v : Response P L}

namespace Follows

theorem settled (h : Follows mode eng may handler i w) (hend : (w.seq i).status.terminal = true) :
    (w.seq i).Settled eng :=
  ⟨h.runs.reachable.signalled h.accepted,h.runs.reachable.concluded h.accepted,hend⟩

theorem over_of_done (h : Follows mode eng may handler i w) (hdone : w.stream.client.pc = .done) :
    (w.seq i).status.terminal = true ∧ w.stream.outputIds = (w.seq i).outputIds :=
  h.ended ((Stream.timely_reaches h.stream).past (Or.inr hdone))

theorem worker (h : Follows mode eng may handler i w) {l : Option (Label × Answer)}
    {d : WorkerControl P L × System P L} (hst : mode.Next eng may l w.worker d) :
    Follows mode eng may handler i { w with worker := d } := by
  have hr : Reaches (FluxEngine.Step eng) w.worker.2 d.2 := h.runs.reaches_step hst
  have hkeep : (w.seq i).status.terminal = true → (d.2.heap i).outcome = (w.seq i).outcome :=
    h.runs.reachable.outcome_eq hr h.accepted
  refine ⟨h.runs.tail hst,h.runs.reachable.accepted_run hr h.accepted,h.stream,?_,?_,?_⟩
  · exact h.output.trans (h.runs.reachable.output_prefix hr h.accepted)
  · intro hover
    obtain ⟨hend,hout⟩ := h.ended hover
    have hsame := hkeep hend
    simp only [Sequence.outcome,Prod.mk.injEq] at hsame
    exact ⟨(congrArg SequenceStatus.terminal hsame.1.1).trans hend,hout.trans hsame.1.2.1.symm⟩
  · intro events hevents
    obtain ⟨hdone,x,hx,hout,heq⟩ := h.closing events hevents
    exact ⟨hdone,x,hx,hout.trans (hkeep (h.over_of_done hdone).1).symm,heq⟩

theorem streamed (h : Follows mode eng may handler i w) {ev : StreamEvent} {t : Stream}
    (hshows : shows (w.seq i) w.stream ev = true) (hst : Stream.Step eng.tokenizer.decode ev w.stream t) :
    Follows mode eng may handler i { w with stream := t } := by
  have hstream := h.stream.tail hst
  cases Stream.acts_of_step hst with
  | append hready =>
    refine ⟨h.runs,h.accepted,hstream,of_decide_eq_true hshows,?_,?_⟩
    · exact fun hover => absurd hover (Stream.not_over_of_appended rfl)
    · intro events hevents
      have hpast : w.stream.client.Past := Or.inr (h.closing events hevents).1
      exact absurd ((Stream.timely_reaches h.stream).past hpast) (Stream.not_over hready)
  | put _ =>
    refine ⟨h.runs,h.accepted,hstream,h.output,?_,h.closing⟩
    exact fun hover => absurd hover (Stream.not_over rfl)
  | putEnd _ =>
    obtain ⟨hend,hout⟩ := Bool.and_eq_true_iff.mp hshows
    exact ⟨h.runs,h.accepted,hstream,h.output,fun _ => ⟨hend,of_decide_eq_true hout⟩,h.closing⟩
  | setFinished hended => exact ⟨h.runs,h.accepted,hstream,h.output,fun _ => h.ended (Or.inl hended),h.closing⟩
  | runPut _ => exact ⟨h.runs,h.accepted,hstream,h.output,h.ended,h.closing⟩
  | client hc =>
    refine ⟨h.runs,h.accepted,hstream,h.output,h.ended,?_⟩
    intro events hevents
    rw [Client.exec_done (h.closing events hevents).1] at hc
    cases hc

theorem close (h : Follows mode eng may handler i w) (hdone : w.stream.client.pc = .done) :
    Follows mode eng may handler i { w with closing := some (handler.closing (w.seq i)) } := by
  refine ⟨h.runs,h.accepted,h.stream,h.output,h.ended,?_⟩
  rintro events ⟨⟩
  exact ⟨hdone,w.seq i,h.settled (h.over_of_done hdone).1,rfl,rfl⟩

theorem step (h : Follows mode eng may handler i w) {ev : ResponseEvent} (hst : Step mode eng may handler i ev w v) :
    Follows mode eng may handler i v := by
  cases hst with
  | worker hnext => exact h.worker hnext
  | stream hshows hst => exact h.streamed hshows hst
  | close hdone _ => exact h.close hdone

theorem reaches (h : Follows mode eng may handler i w) (hr : Reaches (Step mode eng may handler i) w v) :
    Follows mode eng may handler i v :=
  hr.invariant h (fun _ _ _ hw hst => hw.step hst)

end Follows

theorem Streams.follows (h : Streams mode eng may handler i w) : Follows mode eng may handler i w := by
  obtain ⟨c,hruns,hacc,hr⟩ := h
  have hstart : Follows mode eng may handler i { worker := c } := by
    refine ⟨hruns,hacc,.refl _,List.nil_prefix,?_,by simp⟩
    exact fun hover => absurd hover (Stream.not_over rfl)
  exact hstart.reaches hr

abbrev Shown (decode : List Token → Text) (x : Sequence P L) : StreamEvent → Stream → Stream → Prop :=
  guarded (fun ev s => shows x s ev = true) (Stream.Step decode)

variable {decode : List Token → Text} {x : Sequence P L} {s t : Stream}

theorem reaches_shown (mode : ServeEngine) (may : Site → Bool) (handler : StreamHandler)
    (hr : Reaches (Shown eng.tokenizer.decode (w.seq i)) w.stream t) :
    Reaches (Step mode eng may handler i) w { w with stream := t } := by
  refine hr.invariant (P := fun t => Reaches (Step mode eng may handler i) w { w with stream := t }) (.refl w) ?_
  rintro ev t u ht ⟨hshows,hst⟩
  exact ht.tail (.stream hshows hst)

omit [Inhabited P] [Inhabited L] in
theorem shown_of_over (hover : s.Over) (hr : Reaches (Stream.Step decode) s t) : Reaches (Shown decode x) s t := by
  have hinv : t.Over ∧ Reaches (Shown decode x) s t := by
    refine hr.invariant (P := fun t => t.Over ∧ Reaches (Shown decode x) s t) ⟨hover,.refl s⟩ ?_
    rintro ev t u ⟨ht,hreach⟩ hst
    have hshows : shows x t ev = true := by
      cases Stream.acts_of_step hst with
      | append hready => exact absurd ht (Stream.not_over hready)
      | putEnd hready => exact absurd ht (Stream.not_over hready)
      | _ => rfl
    exact ⟨(ht.step hst).1,hreach.tail ⟨hshows,hst⟩⟩
  exact hinv.2

omit [Inhabited P] [Inhabited L] in
theorem shown_ended (hended : s.producer = .ended) : ∃ t, Reaches (Shown decode x) s t ∧ t.finishedEvent = true := by
  have hset : Shown decode x .setFinished s { s with producer := .closed, finishedEvent := true } :=
    ⟨rfl,by simp [Stream.Step,Stream.exec,hended]⟩
  exact ⟨_,(Reaches.refl s).tail hset,rfl⟩

omit [Inhabited P] [Inhabited L] in
theorem shown_ready {rest : List Token} (hend : x.status.terminal = true) (hrest : x.outputIds = s.outputIds ++ rest)
    (hready : s.producer = .ready) : ∃ t, Reaches (Shown decode x) s t ∧ t.finishedEvent = true := by
  induction rest generalizing s with
  | nil =>
    have hput : Shown decode x .putEnd s { s with producer := .ended, pending := s.pending ++ [none] } :=
      ⟨by simp [shows,hend,hrest],by simp [Stream.Step,Stream.exec,hready]⟩
    obtain ⟨t,ht,hevent⟩ : ∃ t, Reaches (Shown decode x) { s with producer := .ended, pending := s.pending ++ [none] } t ∧
        t.finishedEvent = true := shown_ended rfl
    exact ⟨t,((Reaches.refl s).tail hput).trans ht,hevent⟩
  | cons token rest ih =>
    have happend : Shown decode x (.append token) s
        { s with producer := .appended token, outputIds := s.outputIds ++ [token] } :=
      ⟨by simp [shows,hrest],by simp [Stream.Step,Stream.exec,hready]⟩
    have hput : Shown decode x .put { s with producer := .appended token, outputIds := s.outputIds ++ [token] }
        { s with producer := .ready, outputIds := s.outputIds ++ [token], pending := s.pending ++ [some token] } :=
      ⟨rfl,rfl⟩
    obtain ⟨t,ht,hevent⟩ := ih (s := { s with
      producer := .ready, outputIds := s.outputIds ++ [token], pending := s.pending ++ [some token] })
      (by simp [hrest]) rfl
    exact ⟨t,(((Reaches.refl s).tail happend).tail hput).trans ht,hevent⟩

theorem Follows.shown_event (h : Follows mode eng may handler i w) (hend : (w.seq i).status.terminal = true) :
    ∃ t, Reaches (Shown eng.tokenizer.decode (w.seq i)) w.stream t ∧ t.finishedEvent = true := by
  obtain ⟨rest,hrest⟩ := h.output
  cases hproducer : w.stream.producer with
  | ready => exact shown_ready hend hrest.symm hproducer
  | appended token =>
    have hput : Shown eng.tokenizer.decode (w.seq i) .put w.stream
        { w.stream with producer := .ready, pending := w.stream.pending ++ [some token] } :=
      ⟨rfl,by simp [Stream.Step,Stream.exec,hproducer]⟩
    obtain ⟨t,ht,hevent⟩ : ∃ t, Reaches (Shown eng.tokenizer.decode (w.seq i))
        { w.stream with producer := .ready, pending := w.stream.pending ++ [some token] } t ∧ t.finishedEvent = true :=
      shown_ready hend hrest.symm rfl
    exact ⟨t,((Reaches.refl _).tail hput).trans ht,hevent⟩
  | ended => exact shown_ended hproducer
  | closed => exact ⟨w.stream,.refl _,(Stream.timely_reaches h.stream).closed hproducer⟩

theorem Follows.closes (h : Follows mode eng may handler i w) (hend : (w.seq i).status.terminal = true) :
    ∃ v, Reaches (Step mode eng may handler i) w v ∧ v.worker = w.worker ∧ v.closing.isSome := by
  cases hclosing : w.closing with
  | some events => exact ⟨w,.refl w,rfl,by rw [hclosing]; rfl⟩
  | none =>
    obtain ⟨t,ht,hevent⟩ := h.shown_event hend
    have hreach : Reaches (Step mode eng may handler i) w { w with stream := t } := reaches_shown mode may handler ht
    have hover : t.Over := (Stream.timely_reaches (h.reaches hreach).stream).event hevent
    obtain ⟨c,hdone,hc⟩ : t.Ends eng.tokenizer.decode := Stream.ends_of_finished hevent
    have hiter : Reaches (Step mode eng may handler i) { w with stream := t }
        { w with stream := { t with client := c } } := by
      exact reaches_shown (w := { w with stream := t }) mode may handler (shown_of_over hover hc)
    have hclose : Step mode eng may handler i .close { w with stream := { t with client := c } } _ :=
      .close hdone hclosing
    exact ⟨_,(hreach.trans hiter).tail hclose,rfl,rfl⟩

end Response

variable [Inhabited P] [Inhabited L] {mode : ServeEngine} {w : Response P L}

theorem streamed_response {handler : StreamHandler} (hdecode : PrefixMonotone eng.tokenizer.decode)
    (h : Response.Streams mode eng may handler i w) (hclosed : w.closing.isSome) :
    w.stream.client.yielded.flatten = eng.tokenizer.decode (w.seq i).outputIds := by
  obtain ⟨events,hevents⟩ := Option.isSome_iff_exists.mp hclosed
  have hdone := (h.follows.closing events hevents).1
  have hc := Stream.faithful_reaches hdecode h.follows.stream
  rw [hc.text,hc.done hdone,(h.follows.over_of_done hdone).2]

def Response.follow (decode : List Token → Text) (x : Sequence P L) (ev : StreamEvent) (t : Stream) : Option Stream :=
  if shows x t ev then Stream.exec decode ev t else none

theorem streams_of_play (handler : StreamHandler) {s : System P L} (hs : s.Boot) {moves : List ServeEngine.Move}
    {c : WorkerControl P L × System P L} (hc : mode.play eng may moves ((mode.service eng).start,s) = some c)
    (hi : i ∈ c.2.accepted) {evs : List StreamEvent} {t : Stream}
    (ht : playAll (Response.follow eng.tokenizer.decode (c.2.heap i)) evs {} = some t) (hdone : t.client.pc = .done) :
    Response.Streams mode eng may handler i
      { worker := c, stream := t, closing := some (handler.closing (c.2.heap i)) } := by
  have hshown : Reaches (Response.Shown eng.tokenizer.decode (c.2.heap i)) {} t := by
    refine ⟨_,playAll_run ?_ ht⟩
    intro ev _ t u hst
    simp only [Response.follow,Option.ite_none_right_eq_some] at hst
    exact hst
  have hstream : Reaches (Response.Step mode eng may handler i) { worker := c } { worker := c, stream := t } :=
    Response.reaches_shown (w := { worker := c }) mode may handler hshown
  exact ⟨c,mode.runs_of_play hs hc,hi,hstream.tail (.close hdone rfl)⟩

/-- The tokens one after the other, then the end, with the iterator at work. -/
def inOrder (tokens : List Token) : List StreamEvent :=
  tokens.flatMap (fun token => [.append token,.put,.runPut,.client .check,.client .get,.client .decode]) ++
    [.putEnd,.setFinished,.client .check,.client .decode]

/-- No chunk before the end has a finish reason; after the end of its sequence a
stream can close; and a closed stream has sent the final chunk that is due to the
result that `_wait_result` returns, exactly if the sequence did not end in ERROR. -/
theorem reports_result_iff (endpoint : Endpoint) (requestId : String) (created : ℕ)
    (h : Response.Streams mode eng may (endpoint.handler requestId created) i w) :
    (w.closing = none → finals (w.sent (endpoint.handler requestId created)) = []) ∧
    ((w.seq i).status.terminal = true →
      ∃ v, Reaches (Response.Step mode eng may (endpoint.handler requestId created) i) w v ∧ v.worker = w.worker ∧
        v.closing.isSome) ∧
    (w.closing.isSome → (w.seq i).status.terminal = true ∧
      (∀ r, waitResult (w.seq i) = some (.ok r) ↔ (w.seq i).status = .finished ∧ (w.seq i).result = some r) ∧
      (waitResult (w.seq i)).isSome ∧
      (finals (w.sent (endpoint.handler requestId created)) = due (waitResult (w.seq i)) ↔
        (w.seq i).status ≠ .error)) := by
  have hw := h.follows
  refine ⟨?_,hw.closes,?_⟩
  · intro hopen
    rw [Response.sent,StreamHandler.finals_sent,hopen]
    rfl
  · intro hclosed
    obtain ⟨events,hevents⟩ := Option.isSome_iff_exists.mp hclosed
    obtain ⟨hdone,x,hx,hout,heq⟩ := hw.closing events hevents
    have hend := (hw.over_of_done hdone).1
    have hseq := hw.settled hend
    refine ⟨hend,hseq.waitResult_ok,hseq.waitResult_isSome,?_⟩
    have hst : x.status = (w.seq i).status := congrArg (fun o => o.1.1) hout
    rw [Response.sent,StreamHandler.finals_sent,hevents,Option.getD_some,heq,
      ← Sequence.waitResult_of_outcome hout,← hst]
    exact hx.finals_iff _

theorem reports_result_served : ∃ w : Response ℕ Token,
    Response.Streams .continuous (FakeLm.engine {}) Site.isModel (streamChat "chatcmpl-0" 0) 0 w ∧
      waitResult (w.seq 0) = some (.ok (packResult FakeTokenizer [5,6] [7,8] .length "continuous")) ∧
      finals (w.sent (streamChat "chatcmpl-0" 0)) = [(.length,some ⟨2,2,4⟩)] := by
  have hobs : ((ServeEngine.continuous.play (FakeLm.engine {}) Site.isModel bothServed
      ((ServeEngine.continuous.service (FakeLm.engine {})).start,roomySystem)).bind (fun c =>
        (playAll (Response.follow FakeTokenizer.decode (c.2.heap 0)) (inOrder [7,8]) {}).map (fun t =>
          ((c.2.accepted,(c.2.heap 0).status),t.client.pc,waitResult (c.2.heap 0))))) =
      some (([0,1],.finished),.done,some (.ok (packResult FakeTokenizer [5,6] [7,8] .length "continuous"))) := by decide
  obtain ⟨c,hc,hobs⟩ := Option.bind_eq_some_iff.mp hobs
  obtain ⟨t,ht,hobs⟩ := Option.map_eq_some_iff.mp hobs
  simp only [Prod.mk.injEq] at hobs
  obtain ⟨⟨hacc,hst⟩,hdone,hwait⟩ := hobs
  have hw := streams_of_play (streamChat "chatcmpl-0" 0) roomySystem_boot hc (by simp [hacc]) ht hdone
  refine ⟨_,hw,hwait,?_⟩
  obtain ⟨_,_,_,hiff⟩ := (reports_result_iff .chat "chatcmpl-0" 0 hw).2.2 rfl
  exact (hiff.mpr (by simp [Response.seq,hst])).trans (congrArg due hwait)

/-- The decode step fails for a sequence with one token: the stream reports the
end of a normal run of full length, and `_wait_result` raises. -/
theorem not_reports_result : ∃ w : Response ℕ Token,
    Response.Streams .continuous (FakeLm.engine {}) Site.isModel (streamCompletion "cmpl-0" 0) 0 w ∧
      w.closing.isSome ∧ (w.seq 0).status = .error ∧ waitResult (w.seq 0) = some (.error ⟨500,"boom"⟩) ∧
      finals (w.sent (streamCompletion "cmpl-0" 0)) = [(.length,none)] := by
  have hobs : ((ServeEngine.continuous.play (FakeLm.engine {}) Site.isModel (twoRequests 42 ⟨some "boom",0,id⟩ ++ [.act {}])
      ((ServeEngine.continuous.service (FakeLm.engine {})).start,roomySystem)).bind (fun c =>
        (playAll (Response.follow FakeTokenizer.decode (c.2.heap 0)) (inOrder [7]) {}).map (fun t =>
          ((c.2.accepted,t.client.pc,(c.2.heap 0).status),waitResult (c.2.heap 0),
            decide (finals ((streamCompletion "cmpl-0" 0).sent t.client.yielded
              (some ((streamCompletion "cmpl-0" 0).closing (c.2.heap 0)))) = [(.length,none)]))))) =
      some (([0,1],.done,.error),some (.error ⟨500,"boom"⟩),true) := by decide
  obtain ⟨c,hc,hobs⟩ := Option.bind_eq_some_iff.mp hobs
  obtain ⟨t,ht,hobs⟩ := Option.map_eq_some_iff.mp hobs
  simp only [Prod.mk.injEq,decide_eq_true_eq] at hobs
  obtain ⟨⟨hacc,hdone,hst⟩,hwait,hfinals⟩ := hobs
  exact ⟨_,streams_of_play _ roomySystem_boot hc (by simp [hacc]) ht hdone,rfl,hst,hwait,hfinals⟩

end FluxEngine
