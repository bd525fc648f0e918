import FluxEngine.Lib.Tickets
import FluxEngine.Serving.Workers

/-! # The serving machine refines a naive service

The naive service keeps a ticket for each request and nothing else: no queue, no
batch, no block, no cached prefix.  Every token is sampled from the logits of the
prompt and the output so far, and a ticket is completed by the verdict on its
output.
-/
namespace FluxEngine
open Transition
variable {P L : Type}

/-- How a sequence ended. -/
inductive Closing
  | completed (result : GenerateResult)
  | aborted
  | failed (e : Exc)

namespace Sequence

def closing (x : Sequence P L) : Option Closing :=
  match x.status with
  | .finished => x.result.map .completed
  | .aborted => some .aborted
  | .error => x.error.map .failed
  | _ => none

/-- What a client sees of a sequence. -/
def ticket (x : Sequence P L) : Tickets.Ticket (List Token × SamplingParams) Token Closing where
  request := x.request
  output := x.outputIds
  outcome := x.closing

theorem closing_of_open {x : Sequence P L} (h : x.status.terminal = false) : x.closing = none := by
  unfold closing
  cases hst : x.status with
  | finished => rw [hst] at h; cases h
  | aborted => rw [hst] at h; cases h
  | error => rw [hst] at h; cases h
  | _ => rfl

theorem ticket_of_life {x y : Sequence P L} (h : y.life = x.life) : y.ticket = x.ticket := by
  have hlife : ∀ z : Sequence P L, z.life.ticket = z.ticket := fun _ => rfl
  rw [← hlife,h,hlife]

end Sequence

def System.tickets (s : System P L) (i : SeqId) : Option (Tickets.Ticket (List Token × SamplingParams) Token Closing) :=
  if i ∈ s.accepted then some (s.heap i).ticket else none

def pronounce (eng : CachedEngine P L) (r : List Token × SamplingParams) (outs : List Token) : Option FinishReason :=
  verdict (combinedStopIds eng.tokenizer r.2.stopTokenIds r.2.ignoreEos) r.2.maxTokens outs

namespace StepwiseModel
variable [Inhabited L] {eng : CachedEngine P L}

/-- The rules of the naive service. -/
def naive (M : StepwiseModel eng.model) : Tickets.Rules (List Token × SamplingParams) Token Closing where
  may r outs t := pronounce eng r outs = none ∧ ∃ rnd, t = sampleLogits eng (M.solo r.1 outs).1 r.2 rnd
  ends r outs o := ∀ result, o = .completed result → ∃ reason engineName,
    pronounce eng r outs = some reason ∧ result = packResult eng.tokenizer r.1 outs reason engineName

variable {M : StepwiseModel eng.model} {a b : Own P L}

/-- A step of one life is a step of its ticket, or leaves it. -/
theorem Follows.ticket (h : M.Follows a.1 a.2) (hs : LifeStep eng a b) :
    b.1.ticket = a.1.ticket ∨ Tickets.Move M.naive a.1.ticket b.1.ticket := by
  -- a ticket that is closed by the end of its sequence
  have hclose : ∀ {x y mark : Sequence P L}, x.status.terminal = false → y.life = mark.closed.life →
      mark.request = x.request → mark.outputIds = x.outputIds → ∀ o, mark.closing = some o →
      M.naive.ends x.request x.outputIds o → Tickets.Move M.naive x.ticket y.ticket := by
    intro x y mark hx hy hr ho o hend hrule
    have hclosed : y.ticket = { x.ticket with outcome := some o } := by
      rw [Sequence.ticket_of_life hy]
      unfold Sequence.ticket
      rw [← hend]
      exact congrArg₂ (fun r out => (⟨r,out,mark.closing⟩ : Tickets.Ticket _ _ _)) hr ho
    rw [hclosed]
    exact .close (Sequence.closing_of_open hx) hrule
  cases hs with
  | same hl => exact Or.inl (Sequence.ticket_of_life hl)
  | requestAbort => exact Or.inl rfl
  | setStatus hx hst =>
    refine Or.inl ?_
    unfold Sequence.ticket
    rw [Sequence.closing_of_open hx,Sequence.closing_of_open hst]
    rfl
  | @note x logits kv rnd hx hf =>
    right
    have hlogits := (h.box _ rfl).1
    simp only at hlogits
    have hmay : M.naive.may x.request x.outputIds (sampleLogits eng logits x.sampling rnd) := by
      refine ⟨h.reason.symm.trans hf,rnd,?_⟩
      rw [hlogits]
      rfl
    have hmove := Tickets.Move.emit (R := M.naive) (x := x.ticket) (Sequence.closing_of_open hx) hmay
    rw [Sequence.noteToken_eq]
    exact hmove
  | abort hx hy => exact Or.inr (hclose hx hy rfl rfl .aborted rfl (fun _ => by rintro ⟨⟩))
  | fail hx hy => exact Or.inr (hclose hx hy rfl rfl (.failed _) rfl (fun _ => by rintro ⟨⟩))
  | finish hx hr hy =>
    refine Or.inr (hclose hx hy rfl rfl (.completed _) rfl ?_)
    rintro _ ⟨⟩
    exact ⟨_,_,h.reason.symm.trans hr,rfl⟩

end StepwiseModel

variable {s t : System P L} {i : SeqId}

namespace System

theorem tickets_of_accepted (hi : i ∈ s.accepted) : s.tickets i = some (s.heap i).ticket := if_pos hi

theorem tickets_update (hacc : t.accepted = s.accepted) (hoff : ∀ j, j ≠ i → t.heap j = s.heap j) (hi : i ∈ s.accepted) :
    t.tickets = Function.update s.tickets i (some (t.heap i).ticket) := by
  funext j
  by_cases hj : j = i
  · subst hj
    rw [Function.update_self]
    exact tickets_of_accepted (hacc ▸ hi)
  · rw [Function.update_of_ne hj]
    simp only [tickets,hacc,hoff j hj]

theorem tickets_submit {prompt : List Token} {sampling : SamplingParams} (hi : i ∉ s.accepted) :
    (s.submit i prompt sampling).tickets = s.tickets ∨
    (s.submit i prompt sampling).tickets = Function.update s.tickets i (some { request := (prompt,sampling) }) := by
  rcases s.submit_cases i prompt sampling with heq | ⟨queue,_,heq⟩
  · exact Or.inl (by rw [heq])
  · right
    funext j
    rw [heq]
    by_cases hj : j = i
    · subst hj
      simp only [tickets,List.mem_append,List.mem_singleton,or_true,if_true,Function.update_self]
      rfl
    · simp only [tickets,List.mem_append,List.mem_singleton,hj,or_false,Function.update_of_ne hj]

end System

variable [Inhabited P] [Inhabited L] {eng : CachedEngine P L}

/-- A step writes to one sequence at most. -/
theorem Step.off (hb : s.Books False) {ev : Event} (h : Step eng ev s t) :
    ∃ i, ∀ j, j ≠ i → t.heap j = s.heap j := by
  cases h with
  | @submit _ i prompt sampling _ =>
    refine ⟨i,?_⟩
    intro j hj
    rcases s.submit_cases i prompt sampling with heq | ⟨queue,_,heq⟩
    · rw [heq]
    · rw [heq]
      exact Function.update_of_ne hj _ _
  | requestAbort i => exact ⟨i,fun j hj => Function.update_of_ne hj _ _⟩
  | adminAbort i =>
    refine ⟨i,?_⟩
    intro j hj
    unfold System.adminAbort
    split
    · exact System.terminate_heap_of_ne hj
    · split
      · exact Function.update_of_ne hj _ _
      · rfl
  | admission now =>
    rcases s.admitRound_cases now with ⟨_,heq⟩ | ⟨i,queue,ok,sch,seq,_,_,_,heq⟩
    · rw [heq]
      exact ⟨0,fun _ _ => rfl⟩
    · rw [heq]
      refine ⟨i,?_⟩
      intro j hj
      cases ok with
      | true => exact Function.update_of_ne hj _ _
      | false => exact Function.update_of_ne hj _ _
  | @setStatus _ i _ _ _ => exact ⟨i,fun j hj => Function.update_of_ne hj _ _⟩
  | @bind _ i now hi => exact ⟨i,(hb.bind hi now False.elim).1.off⟩
  | @store _ i now hi _ => exact ⟨i,(hb.store hi now).1.off⟩
  | @note _ i _ _ rnd _ _ _ => exact ⟨i,fun j hj => Function.update_of_ne hj _ _⟩
  | @abort _ i _ => exact ⟨i,fun j hj => System.terminate_heap_of_ne hj⟩
  | @fail _ i e _ => exact ⟨i,fun j hj => System.terminate_heap_of_ne hj⟩
  | @finish _ i _ _ _ _ => exact ⟨i,fun j hj => System.terminate_heap_of_ne hj⟩
  | drain =>
    rcases s.drainOne_cases with ⟨_,heq⟩ | ⟨i,queue,_,_,heq⟩
    · rw [heq]
      exact ⟨0,fun _ _ => rfl⟩
    · rw [heq]
      exact ⟨i,fun j hj => System.terminate_heap_of_ne hj⟩
  | _ => exact ⟨0,fun _ _ => rfl⟩

namespace StepwiseModel
variable {M : StepwiseModel eng.model}

/-- A step of the serving machine is a step of the naive service, or none. -/
theorem naive_step (h : Reachable eng s) {ev : Event} (hst : Step eng ev s t) :
    t.tickets = s.tickets ∨ ∃ i, Tickets.Step M.naive i s.tickets t.tickets := by
  by_cases hacc : t.accepted = s.accepted
  · obtain ⟨i,hoff⟩ := hst.off h.books
    cases hev : ev.isCall with
    | true =>
      left
      funext j
      simp only [System.tickets,(hst.heap_of_isCall hev).1,hacc]
    | false =>
      by_cases hi : i ∈ s.accepted
      · have hupdate := System.tickets_update hacc hoff hi
        have hold := System.tickets_of_accepted hi
        rcases (M.follows_of_reachable h i hi).ticket (hst.life h.books hev hi) with heq | hmove
        · left
          have heq : (t.heap i).ticket = (s.heap i).ticket := heq
          rw [hupdate,heq,← hold,Function.update_eq_self]
        · exact Or.inr ⟨i,hupdate ▸ .move hold hmove⟩
      · left
        funext j
        by_cases hj : j = i
        · subst hj
          simp only [System.tickets,hacc,if_neg hi]
        · simp only [System.tickets,hacc,hoff j hj]
  · rcases hst.accepted with heq | ⟨i,_,_,hi,heq,_⟩
    · exact absurd heq hacc
    · obtain ⟨prompt,sampling,rfl⟩ := hst.accepts (List.mem_of_mem_getLast? (by rw [heq,List.getLast?_concat]; rfl) : i ∈ t.accepted) hi
      rcases System.tickets_submit hi with heq | heq
      · exact Or.inl heq
      · exact Or.inr ⟨i,heq ▸ .accept _ (if_neg hi)⟩

variable (M) in
theorem refines_naive : Refines (Step eng) System.Initial (Reachable eng) (Tickets.Step M.naive) (fun book => ∀ i, book i = none)
    System.tickets := by
  constructor
  · intro s h0
    refine ⟨⟨s,h0,.refl s⟩,?_⟩
    intro i
    refine if_neg ?_
    rw [h0.accepted]
    exact List.not_mem_nil
  · rintro ev s t ⟨s₀,h0,hr⟩ hst
    exact ⟨⟨s₀,h0,hr.tail hst⟩,naive_step ⟨s₀,h0,hr⟩ hst⟩

theorem lawful_tickets (h : Reachable eng s) (hi : i ∈ s.accepted) : Tickets.Lawful M.naive (s.heap i).ticket := by
  obtain ⟨s₀,h0,hr⟩ := h
  have hlawful : ∀ i x, s.tickets i = some x → Tickets.Lawful M.naive x := by
    refine M.refines_naive.invariant (I := fun book => ∀ i x, book i = some x → Tickets.Lawful M.naive x) ?_
      (fun _ _ _ hbook hst => hst.lawful hbook) h0 hr
    intro book hnone i x hx
    rw [hnone i] at hx
    cases hx
  exact hlawful i _ (System.tickets_of_accepted hi)

end StepwiseModel

variable {may : Site → Bool}

/-- A run of a worker is a run of the naive service: what the clients see comes about,
and goes on, as if every prompt were answered alone. -/
theorem refines_naive_service (M : StepwiseModel eng.model) {mode : ServeEngine} {c d : WorkerControl P L × System P L}
    (h : mode.Runs eng may c) (hr : Reaches (mode.Next eng may) c d) :
    Reaches (Tickets.Step M.naive) (fun _ => none) c.2.tickets ∧
      Reaches (Tickets.Step M.naive) c.2.tickets d.2.tickets := by
  obtain ⟨s₀,h0,hs⟩ := h.reachable
  have hstart : s₀.tickets = fun _ => none := funext (M.refines_naive.start s₀ h0).2
  constructor
  · rw [← hstart]
    exact (M.refines_naive.reaches ⟨s₀,h0,.refl s₀⟩ hs).2
  · exact (M.refines_naive.reaches h.reachable (h.reaches hr).2).2

theorem refines_naive_service_served : ∃ c : WorkerControl ℕ Token × System ℕ Token, (c.2.heap 0).status = .finished ∧
    Reaches (Tickets.Step fakeModel.naive) (fun _ => none) c.2.tickets := by
  have hobs : (ServeEngine.continuous.play (FakeLm.engine {}) Site.isModel bothServed
      ((ServeEngine.continuous.service (FakeLm.engine {})).start,roomySystem)).map
      (fun c => (c.2.heap 0).status) = some .finished := by decide
  obtain ⟨c,hc,hobs⟩ := Option.map_eq_some_iff.mp hobs
  have hrun := ServeEngine.continuous.runs_of_play roomySystem_boot hc
  exact ⟨c,hobs,(refines_naive_service fakeModel hrun (.refl c)).1⟩

/-- Every token was sampled from the logits of the prompt and the output before it, with
no verdict on that output, and a finished sequence has the verdict on all of it. -/
theorem sampled_alone (M : StepwiseModel eng.model) {mode : ServeEngine} {c : WorkerControl P L × System P L}
    (h : mode.Runs eng may c) (hi : i ∈ c.2.accepted) :
    (∀ n t, (c.2.heap i).outputIds[n]? = some t →
      pronounce eng (c.2.heap i).request ((c.2.heap i).outputIds.take n) = none ∧
      ∃ rnd, t = sampleLogits eng (M.solo (c.2.heap i).promptTokenIds ((c.2.heap i).outputIds.take n)).1
        (c.2.heap i).sampling rnd) ∧
    ((c.2.heap i).status = .finished → ∃ reason engineName,
      pronounce eng (c.2.heap i).request (c.2.heap i).outputIds = some reason ∧
      (c.2.heap i).result = some (packResult eng.tokenizer (c.2.heap i).promptTokenIds (c.2.heap i).outputIds reason
        engineName)) := by
  have hlawful : Tickets.Lawful M.naive (c.2.heap i).ticket := StepwiseModel.lawful_tickets h.reachable hi
  refine ⟨fun n t hn => hlawful.pieces n t hn,?_⟩
  intro hfin
  obtain ⟨reason,engineName,_,hresult⟩ := (h.reachable.concluded hi).finished hfin
  have hclosed : (c.2.heap i).ticket.outcome = some (.completed (packResult eng.tokenizer (c.2.heap i).promptTokenIds
      (c.2.heap i).outputIds reason engineName)) := by
    simp only [Sequence.ticket,Sequence.closing,hfin,hresult,Option.map_some]
  obtain ⟨reason',engineName',hverdict,hpack⟩ := hlawful.outcome _ hclosed _ rfl
  exact ⟨reason',engineName',hverdict,hresult.trans (congrArg some hpack)⟩

/-- A request at temperature 1, and the worker until it has served it. -/
def warmServed : List ServeEngine.Move :=
  .request (.submit 0 [5,6] { temperature := 1, maxTokens := 2, ignoreEos := true }) ::
    List.replicate 33 (.act { rnd := 3 })

theorem sampled_alone_warm : ∃ c : WorkerControl ℕ Token × System ℕ Token,
    ServeEngine.continuous.Runs (FakeLm.engine {}) Site.isModel c ∧ (c.2.heap 0).sampling.temperature = 1 ∧
      ∃ reason engineName, pronounce (FakeLm.engine {}) (c.2.heap 0).request (c.2.heap 0).outputIds = some reason ∧
        (c.2.heap 0).result = some (packResult (FakeLm.engine {}).tokenizer (c.2.heap 0).promptTokenIds
          (c.2.heap 0).outputIds reason engineName) := by
  have hobs : (ServeEngine.continuous.play (FakeLm.engine {}) Site.isModel warmServed
      ((ServeEngine.continuous.service (FakeLm.engine {})).start,roomySystem)).map
      (fun c => (c.2.accepted,(c.2.heap 0).status,(c.2.heap 0).sampling.temperature)) = some ([0],.finished,1) := by
    decide
  obtain ⟨c,hc,hobs⟩ := Option.map_eq_some_iff.mp hobs
  simp only [Prod.mk.injEq] at hobs
  have hrun := ServeEngine.continuous.runs_of_play roomySystem_boot hc
  exact ⟨c,hrun,hobs.2.2,(sampled_alone fakeModel hrun (by simp [hobs.1])).2 hobs.2.1⟩

end FluxEngine
