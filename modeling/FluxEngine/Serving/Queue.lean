import FluxEngine.Serving.WaitingQueue
import FluxEngine.Serving.Life

/-! # The waiting queue over a step

Sequences enter the queue when they are accepted and leave it for good; only a
refused allocation puts one back, in front.  Nobody has logits before it has
left the queue.
-/
namespace FluxEngine
open Transition
variable {P L : Type} {eng : CachedEngine P L} {s t : System P L} {i : SeqId}

/-- What one step does to the queue. -/
inductive QueueMove (s t : System P L) : Prop
  | stay : t.accepted = s.accepted → t.waiting = s.waiting → QueueMove s t
  | enter (j : SeqId) : j ∉ s.accepted → t.accepted = s.accepted ++ [j] → t.waiting = s.waiting ++ [j] → QueueMove s t
  | leave (j : SeqId) : j ∈ s.waiting → t.accepted = s.accepted → t.waiting = s.waiting.erase j → QueueMove s t
  | putBack (j : SeqId) : j ∈ s.waiting → t.accepted = s.accepted → t.waiting = j :: s.waiting.erase j → QueueMove s t

namespace System

def Admitted (s : System P L) (i : SeqId) : Prop := i ∈ s.accepted ∧ i ∉ s.waiting

theorem Live.admitted (h : s.Live i) : s.Admitted i := ⟨h.1,h.2.1⟩

end System

theorem QueueMove.admitted (h : QueueMove s t) (hi : s.Admitted i) : t.Admitted i := by
  obtain ⟨hacc,hwait⟩ := hi
  cases h with
  | stay ha hw =>
    rw [System.Admitted,ha,hw]
    exact ⟨hacc,hwait⟩
  | enter j hj ha hw =>
    rw [System.Admitted,ha,hw]
    refine ⟨List.mem_append_left _ hacc,?_⟩
    intro hmem
    rcases List.mem_append.mp hmem with hmem | hmem
    · exact hwait hmem
    · rw [List.mem_singleton] at hmem
      exact hj (hmem ▸ hacc)
  | leave j hj ha hw =>
    rw [System.Admitted,ha,hw]
    exact ⟨hacc,fun hmem => hwait (List.mem_of_mem_erase hmem)⟩
  | putBack j hj ha hw =>
    rw [System.Admitted,ha,hw]
    refine ⟨hacc,?_⟩
    intro hmem
    rcases List.mem_cons.mp hmem with rfl | hmem
    · exact hwait hj
    · exact hwait (List.mem_of_mem_erase hmem)

variable [Inhabited P] [Inhabited L]

/-- What a step does to the queue and its event, as long as nobody wakes it. -/
theorem Step.queueMove (hb : s.Books False) {ev : Event} (h : Step eng ev s t) (hev : ev ≠ .requestStop) :
    ∃ came went, t.accepted = s.accepted ++ came ∧ (∀ j ∈ came, j ∉ s.accepted) ∧
      s.scheduler.queue.Move came went t.scheduler.queue := by
  have hmove : ∀ (went : List SeqId) (u : System P L), u.accepted = s.accepted →
      s.scheduler.queue.Move [] went u.scheduler.queue →
      ∃ came went, u.accepted = s.accepted ++ came ∧ (∀ j ∈ came, j ∉ s.accepted) ∧
        s.scheduler.queue.Move came went u.scheduler.queue := by
    intro went u hacc hq
    exact ⟨[],went,by rw [hacc,List.append_nil],by simp,hq⟩
  have hstay : ∀ u : System P L, u.accepted = s.accepted → u.scheduler.queue = s.scheduler.queue →
      ∃ came went, u.accepted = s.accepted ++ came ∧ (∀ j ∈ came, j ∉ s.accepted) ∧
        s.scheduler.queue.Move came went u.scheduler.queue := by
    intro u hacc hq
    exact hmove [] u hacc (hq ▸ .stay)
  cases h with
  | @submit _ j prompt sampling hj =>
    unfold System.submit
    rcases s.scheduler.submit_cases j { promptTokenIds := prompt, sampling := sampling } with
      ⟨e,heq⟩ | ⟨queue,hq,heq⟩
    · rw [heq]
      exact hstay s rfl rfl
    · rw [heq]
      exact ⟨[j],[],rfl,by simpa using hj,.enter hq⟩
  | requestStop => exact absurd rfl hev
  | adminAbort j =>
    unfold System.adminAbort
    by_cases hw : j ∈ s.waiting
    · rw [if_pos hw]
      refine hmove [j] _ rfl ?_
      rw [System.abortOne,System.terminate_queue]
      exact .leave hw
    · rw [if_neg hw]
      split
      · exact hstay _ rfl rfl
      · exact hstay _ rfl rfl
  | admission now => exact hmove _ _ rfl (s.scheduler.admitRound_move s.heap now)
  | bind now hj =>
    obtain ⟨hre,_⟩ := hb.bind hj now False.elim
    exact hstay _ hre.accepted hre.queue
  | store now hj _ =>
    obtain ⟨hre,_⟩ := hb.store hj now
    exact hstay _ hre.accepted hre.queue
  | abort hj => exact hstay _ rfl System.terminate_queue
  | fail e hj => exact hstay _ rfl System.terminate_queue
  | finish engineName hj hf => exact hstay _ rfl System.terminate_queue
  | drain =>
    unfold System.drainOne
    rcases s.scheduler.queue.popOne_cases with ⟨_,hpop⟩ | ⟨j,hj,hpop⟩
    · rw [hpop]
      exact hstay s rfl rfl
    · rw [hpop]
      refine hmove [j] _ rfl ?_
      simp only [System.abortOne,System.terminate_queue]
      exact .leave hj
  | _ => exact hstay _ rfl rfl

theorem Step.queue (hb : s.Books False) {ev : Event} (h : Step eng ev s t) : QueueMove s t := by
  by_cases hev : ev = .requestStop
  · subst hev
    cases h with
    | requestStop => exact .stay rfl rfl
  obtain ⟨came,went,hacc,hnew,hmove⟩ := h.queueMove hb hev
  generalize ht : t.scheduler.queue = queue at hmove
  cases hmove with
  | stay => exact .stay (by rw [hacc,List.append_nil]) (congrArg RequestQueue.waiting ht)
  | @enter j _ hq =>
    refine .enter j (hnew j List.mem_cons_self) hacc ?_
    exact (congrArg RequestQueue.waiting ht).trans (RequestQueue.tryEnqueue_waiting hq)
  | @leave j hj => exact .leave j hj (by rw [hacc,List.append_nil]) (congrArg RequestQueue.waiting ht)
  | @putBack j hj => exact .putBack j hj (by rw [hacc,List.append_nil]) (congrArg RequestQueue.waiting ht)

theorem RequestQueue.Move.maxWaiting {q q' : RequestQueue} {came went : List SeqId} (h : q.Move came went q') :
    q'.maxWaiting = q.maxWaiting := by
  cases h with
  | stay => rfl
  | enter hq =>
    unfold RequestQueue.tryEnqueue at hq
    split at hq
    · cases hq
    · cases hq
      rfl
  | leave _ => rfl
  | putBack _ => rfl

theorem Step.maxWaiting (hb : s.Books False) {ev : Event} (h : Step eng ev s t) :
    t.scheduler.queue.maxWaiting = s.scheduler.queue.maxWaiting := by
  by_cases hev : ev = .requestStop
  · subst hev
    cases h with
    | requestStop => rfl
  · obtain ⟨_,_,_,_,hmove⟩ := h.queueMove hb hev
    exact hmove.maxWaiting

theorem Reachable.maxWaiting_eq (h : Reachable eng s) (hr : Reaches (Step eng) s t) :
    t.scheduler.queue.maxWaiting = s.scheduler.queue.maxWaiting := by
  have hinv : Reachable eng t ∧ t.scheduler.queue.maxWaiting = s.scheduler.queue.maxWaiting := by
    refine hr.invariant (P := fun t => Reachable eng t ∧ t.scheduler.queue.maxWaiting = s.scheduler.queue.maxWaiting)
      ⟨h,rfl⟩ ?_
    rintro ev t u ⟨⟨s₀,h0,hst⟩,hsize⟩ hstep
    exact ⟨⟨s₀,h0,hst.tail hstep⟩,(hstep.maxWaiting (books_of_reachable ⟨s₀,h0,hst⟩)).trans hsize⟩
  exact hinv.2

omit [Inhabited P] [Inhabited L] in
theorem System.terminate_maxBatch {mark : Sequence P L → Sequence P L} :
    (s.terminate i mark).scheduler.maxBatch = s.scheduler.maxBatch :=
  congrArg (fun d => d.2.1) (Scheduler.desk_releasePrefix _)

omit [Inhabited P] [Inhabited L] in
theorem System.bindPrefixAtPrefill_maxBatch (now : ℕ) :
    (s.bindPrefixAtPrefill i now).scheduler.maxBatch = s.scheduler.maxBatch := by
  have hlookup : (s.scheduler.lookupPrefix (s.heap i).promptTokenIds now).2.maxBatch = s.scheduler.maxBatch :=
    congrArg (fun d => d.2.1) (Scheduler.desk_lookupPrefix _ now)
  unfold System.bindPrefixAtPrefill
  split
  · rfl
  · rcases hl : s.scheduler.lookupPrefix (s.heap i).promptTokenIds now with ⟨hit,sch⟩
    rw [hl] at hlookup
    cases hit with
    | none => exact hlookup
    | some hit =>
      simp only [System.bindHit]
      split
      · exact hlookup
      · exact hlookup

/-- Nobody changes the batch size. -/
theorem Step.maxBatch {ev : Event} (h : Step eng ev s t) : t.scheduler.maxBatch = s.scheduler.maxBatch := by
  cases h with
  | @submit _ j prompt sampling _ =>
    rcases s.submit_cases j prompt sampling with heq | ⟨queue,_,heq⟩
    · rw [heq]
    · rw [heq]
  | adminAbort j =>
    unfold System.adminAbort
    split
    · exact System.terminate_maxBatch
    · split
      · rfl
      · rfl
  | admission now => exact (Scheduler.admitRound_terms s.scheduler s.heap now).1
  | bind now _ => exact System.bindPrefixAtPrefill_maxBatch now
  | store now _ _ =>
    unfold System.storePrefix
    split
    · rfl
    · rfl
  | abort _ => exact System.terminate_maxBatch
  | fail e _ => exact System.terminate_maxBatch
  | finish engineName _ _ => exact System.terminate_maxBatch
  | drain =>
    rcases s.drainOne_cases with ⟨_,heq⟩ | ⟨j,queue,_,_,heq⟩
    · rw [heq]
    · rw [heq]
      exact System.terminate_maxBatch
  | _ => rfl

theorem maxBatch_of_reaches (h : Reaches (Step eng) s t) : t.scheduler.maxBatch = s.scheduler.maxBatch :=
  h.relation (P := fun s t => t.scheduler.maxBatch = s.scheduler.maxBatch) rfl (fun _ _ _ ht hst => hst.maxBatch.trans ht)

/-- A step gives logits to live sequences only. -/
theorem Step.outbox_cases {ev : Event} (h : Step eng ev s t) (i : SeqId) :
    t.outbox i = none ∨ t.outbox i = s.outbox i ∨ s.Live i := by
  cases h with
  | @submit _ j prompt sampling _ =>
    rcases s.submit_cases j prompt sampling with heq | ⟨queue,_,heq⟩
    · rw [heq]
      exact Or.inr (Or.inl rfl)
    · rw [heq]
      exact Or.inr (Or.inl rfl)
  | adminAbort j =>
    refine Or.inr (Or.inl ?_)
    unfold System.adminAbort
    split
    · rfl
    · split <;> rfl
  | bind now hj => exact Or.inr (Or.inl (by rw [System.bindPrefixAtPrefill_outbox]))
  | store now hj _ => exact Or.inr (Or.inl (by rw [System.storePrefix_outbox]))
  | @prefill _ j r hj _ _ =>
    by_cases hij : i = j
    · exact Or.inr (Or.inr (hij ▸ hj))
    · exact Or.inr (Or.inl (Function.update_of_ne hij _ _))
  | @decode _ j token kv r hj _ _ _ =>
    by_cases hij : i = j
    · exact Or.inr (Or.inr (hij ▸ hj))
    · exact Or.inr (Or.inl (Function.update_of_ne hij _ _))
  | @decodeBatch _ live r hl _ =>
    by_cases hi : i ∈ live
    · exact Or.inr (Or.inr (hl i hi).1)
    · exact Or.inr (Or.inl (if_neg hi))
  | @note _ j logits kv rnd _ _ _ =>
    by_cases hij : i = j
    · subst hij
      exact Or.inl (Function.update_self _ _ _)
    · exact Or.inr (Or.inl (Function.update_of_ne hij _ _))
  | drain =>
    rcases s.drainOne_cases with ⟨_,heq⟩ | ⟨_,_,_,_,heq⟩
    · rw [heq]
      exact Or.inr (Or.inl rfl)
    · rw [heq]
      exact Or.inr (Or.inl rfl)
  | _ => exact Or.inr (Or.inl rfl)

theorem Reachable.admitted_of_outbox (h : Reachable eng s) (hi : s.outbox i ≠ none) : s.Admitted i := by
  have hinv : s.Books False ∧ ∀ i, s.outbox i ≠ none → s.Admitted i := by
    refine h.invariant (I := fun s => s.Books False ∧ ∀ i, s.outbox i ≠ none → s.Admitted i) ?_ ?_
    · intro s h0
      exact ⟨h0.books,fun i hi => absurd (h0.outbox i) hi⟩
    · rintro ev s t ⟨hb,hbox⟩ hst
      refine ⟨hb.step hst False.elim,?_⟩
      intro i hi
      refine (hst.queue hb).admitted ?_
      rcases hst.outbox_cases i with hnone | hsame | hlive
      · exact absurd hnone hi
      · exact hbox i (hsame ▸ hi)
      · exact hlive.admitted
  exact hinv.2 i hi

theorem Reachable.outbox_of_waiting (h : Reachable eng s) (hi : i ∈ s.waiting) : s.outbox i = none := by
  by_contra hne
  exact (h.admitted_of_outbox hne).2 hi

end FluxEngine
