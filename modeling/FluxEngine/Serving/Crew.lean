import FluxEngine.Engine.Worker
import FluxEngine.Serving.Life

/-! # What a worker knows about its sequences

The protocol between a worker and the request handlers, and the assertion that
every thread of a worker keeps: which sequences it holds, that these are all the
live ones, and what is known of each.
-/
namespace FluxEngine
open Transition Interleaving
variable {P L : Type} {eng : CachedEngine P L} {s t : System P L} {i j : SeqId}

/-- Steps of the request handlers. -/
def Event.isRequest : Event → Bool
  | .submit _ _ _ => true
  | .requestAbort _ => true
  | .adminAbort _ => true
  | .requestStop => true
  | _ => false

/-- What a worker action does with an exception that propagates. -/
structure Handles (l : Label) (s t : System P L) : Prop where
  raised : s.inFlight = none → ∀ ids e, t.inFlight = some (ids,e) →
    (∃ site, l = .call site ids) ∧ ids.Nodup ∧ (∀ i ∈ ids, s.Live i) ∧ t = { s with inFlight := some (ids,e) }
  contained : ∀ ids e, s.inFlight = some (ids,e) → l = .contain ids ∧ ids.Nodup ∧ (∀ i ∈ ids, s.Live i) ∧
    t = { ids.foldl (fun s i => s.failOne e i) s with inFlight := none }

/-- What an action with the label `l` keeps to: only `decode_batch` decodes a batch,
and a sequence is bound and prefilled before it has logits or output. -/
def Event.InOrder (l : Label) (s : System P L) : Event → Prop
  | .bind i _ => (s.heap i).outputIds = [] ∧ s.outbox i = none
  | .prefill i => s.outbox i = none
  | .decodeBatch live => l = .call .batchModel live
  | _ => True

def Orderly [Inhabited P] [Inhabited L] (eng : CachedEngine P L) (l : Label) (ev : Event) (s t : System P L) : Prop :=
  Step eng ev s t ∧ ev.InOrder l s

theorem Orderly.reaches [Inhabited P] [Inhabited L] {l : Label} (h : Reaches (Orderly eng l) s t) :
    Reaches (Step eng) s t :=
  h.mono (fun _ _ _ hst => hst.1)

def Site.decodes : Site → Bool
  | .batchModel => true
  | .queuedDecode => true
  | _ => false

theorem Site.decodes_of_not_isModel (site : Site) (h : site.isModel = false) : site.decodes = false := by
  cases site <;> first | rfl | cases h

/-- Calls are made for live sequences, and a decode for sequences with a token and
a cache. -/
def Label.Proper (s : System P L) : Label → Prop
  | .call site ids => ∀ i ∈ ids, s.Live i ∧
      (site.decodes = true → (s.heap i).lastToken.isSome ∧ (s.heap i).kvCache.isSome)
  | _ => True

/-- The worker moves by steps of the serving machine, the handlers by requests;
calls raise at the sites that `may`, and a worker waits when all is done. -/
def serving [Inhabited P] [Inhabited L] (eng : CachedEngine P L) (may : Site → Bool) :
    Protocol (System P L) Answer Label where
  inv := Reachable eng
  rely s t := ∃ ev : Event, ev.isRequest = true ∧ Step eng ev s t
  answers l w := ∀ site ids, l = .call site ids → w.raises.isSome = true → may site = true
  effect l _ s t := Reaches (Orderly eng l) s t ∧ Handles l s t ∧ l.Proper s
  idle s := ∀ i ∈ s.accepted, (s.heap i).status.terminal = true

theorem serving_sound [Inhabited P] [Inhabited L] (may : Site → Bool) : (serving eng may).Sound := by
  constructor
  · rintro s t ⟨⟨s₀,h0,hr⟩,ev,_,hst⟩
    exact ⟨s₀,h0,hr.tail hst⟩
  · rintro l w s t ⟨s₀,h0,hr⟩ _ ⟨hst,_⟩
    exact ⟨s₀,h0,hr.trans (Orderly.reaches hst)⟩

structure Requested (s t : System P L) : Prop where
  inFlight : t.inFlight = s.inFlight
  stats : t.stats = s.stats
  stop : s.stop = true → t.stop = true
  admitted : ∀ i, i ∈ s.accepted → i ∉ s.waiting → (i ∈ t.accepted ∧ i ∉ t.waiting) ∧
    (t.own i = s.own i ∨ t.own i = ((s.heap i).requestAbort,s.outbox i))
  live : ∀ i, t.Live i → s.Live i

theorem Requested.refl (s : System P L) : Requested s s :=
  ⟨rfl,rfl,id,fun _ ha hw => ⟨⟨ha,hw⟩,Or.inl rfl⟩,fun _ => id⟩

theorem requested_requestAbort (s : System P L) (i : SeqId) : Requested s (s.requestAbort i) := by
  refine ⟨rfl,rfl,id,?_,?_⟩
  · intro j ha hw
    refine ⟨⟨ha,hw⟩,?_⟩
    by_cases hj : j = i
    · subst hj
      exact Or.inr (System.own_modify _)
    · exact Or.inl (System.own_of_ne hj)
  · rintro j ⟨ha,hw,hst⟩
    refine ⟨ha,hw,?_⟩
    by_cases hj : j = i
    · subst hj
      simpa [System.requestAbort,System.modify,Sequence.requestAbort] using hst
    · simpa [System.requestAbort,System.modify,hj] using hst

theorem requested_dequeue (s : System P L) {queue : RequestQueue} (hi : i ∈ s.waiting)
    (hq : queue.waiting = s.waiting.erase i) : Requested s ((s.setQueue queue).abortOne i) := by
  have hwait : ((s.setQueue queue).abortOne i).waiting = s.waiting.erase i := by
    rw [System.abortOne,System.terminate_waiting]
    exact hq
  refine ⟨rfl,rfl,id,?_,?_⟩
  · intro j ha hw
    have hj : j ≠ i := fun hj => hw (hj ▸ hi)
    refine ⟨⟨ha,?_⟩,Or.inl (System.own_terminate_of_ne hj)⟩
    rw [hwait]
    exact fun h => hw (List.mem_of_mem_erase h)
  · rintro j ⟨ha,hw,hst⟩
    by_cases hj : j = i
    · subst hj
      rw [System.abortOne,System.ends_abort.terminated] at hst
      cases hst
    · rw [System.abortOne,System.terminate_heap_of_ne hj] at hst
      rw [hwait,List.mem_erase_of_ne hj] at hw
      exact ⟨ha,hw,hst⟩

theorem Step.requested [Inhabited P] [Inhabited L] {ev : Event} (h : Step eng ev s t) (hev : ev.isRequest = true) :
    Requested s t := by
  cases h with
  | @submit _ j prompt sampling hj =>
    rcases s.submit_cases j prompt sampling with heq | ⟨queue,hq,heq⟩
    · rw [heq]
      exact .refl s
    · rw [heq]
      refine ⟨rfl,rfl,id,?_,?_⟩
      · intro i ha hw
        have hij : i ≠ j := fun hij => hj (hij ▸ ha)
        refine ⟨⟨List.mem_append_left _ ha,?_⟩,Or.inl ?_⟩
        · simp only [System.waiting,hq,List.mem_append,List.mem_singleton,not_or]
          exact ⟨hw,hij⟩
        · simp only [System.own,Function.update_of_ne hij]
      · rintro i ⟨ha,hw,hst⟩
        simp only [System.waiting,hq,List.mem_append,List.mem_singleton,not_or] at hw
        simp only [List.mem_append,List.mem_singleton,hw.2,or_false] at ha
        simp only [Function.update_of_ne hw.2] at hst
        exact ⟨ha,hw.1,hst⟩
  | requestAbort i => exact requested_requestAbort s i
  | adminAbort i =>
    unfold System.adminAbort
    by_cases hw : i ∈ s.waiting
    · rw [if_pos hw]
      exact requested_dequeue s hw rfl
    · rw [if_neg hw]
      by_cases hr : i ∈ s.stats.running
      · rw [if_pos hr]
        exact requested_requestAbort s i
      · rw [if_neg hr]
        exact .refl s
  | requestStop => exact ⟨rfl,rfl,fun _ => rfl,fun _ ha hw => ⟨⟨ha,hw⟩,Or.inl rfl⟩,fun _ => id⟩
  | _ => cases hev

/-- Knowledge about a sequence that a request to abort does not destroy. -/
def Patient (φ : Own P L → Prop) : Prop := ∀ x box, φ (x,box) → φ (x.requestAbort,box)

/-- The worker holds exactly the sequences `ids`, its running list is `run`, and
it knows `Φ` of each of them. -/
structure Crew (flight : Option (List SeqId × Exc)) (ids run : List SeqId) (Φ : SeqId → Own P L → Prop)
    (s : System P L) : Prop where
  flight : s.inFlight = flight
  running : s.stats.running = run
  nodup : ids.Nodup
  admitted : ∀ i ∈ ids, i ∈ s.accepted ∧ i ∉ s.waiting
  complete : ∀ i, s.Live i → i ∈ ids
  own : ∀ i ∈ ids, Φ i (s.own i)

def Open (own : Own P L) : Prop := own.1.status.terminal = false

def Ended (own : Own P L) : Prop := own.1.status.terminal = true

theorem patient_open : Patient (Open (P := P) (L := L)) := fun _ _ h => h
theorem patient_ended : Patient (Ended (P := P) (L := L)) := fun _ _ h => h

namespace Crew
variable {flight : Option (List SeqId × Exc)} {ids run : List SeqId} {Φ Ψ : SeqId → Own P L → Prop}

theorem live (h : Crew flight ids run Φ s) (hi : i ∈ ids) (hopen : Open (s.own i)) : s.Live i :=
  ⟨(h.admitted i hi).1,(h.admitted i hi).2,hopen⟩

theorem mono (h : Crew flight ids run Φ s) (hle : ∀ i ∈ ids, Φ i (s.own i) → Ψ i (s.own i)) :
    Crew flight ids run Ψ s :=
  ⟨h.flight,h.running,h.nodup,h.admitted,h.complete,fun i hi => hle i hi (h.own i hi)⟩

theorem requested (h : Crew flight ids run Φ s) (hΦ : ∀ i, Patient (Φ i)) (hst : Requested s t) :
    Crew flight ids run Φ t := by
  refine ⟨hst.inFlight.trans h.flight,?_,h.nodup,?_,fun i hi => h.complete i (hst.live i hi),?_⟩
  · rw [hst.stats]
    exact h.running
  · intro i hi
    exact (hst.admitted i (h.admitted i hi).1 (h.admitted i hi).2).1
  · intro i hi
    rcases (hst.admitted i (h.admitted i hi).1 (h.admitted i hi).2).2 with heq | heq
    · rw [heq]
      exact h.own i hi
    · rw [heq]
      exact hΦ i _ _ (h.own i hi)

theorem stable [Inhabited P] [Inhabited L] {may : Site → Bool} (hΦ : ∀ i, Patient (Φ i)) :
    (serving eng may).Stable (Crew flight ids run Φ) := by
  rintro s t ⟨_,ev,hev,hst⟩ h
  exact h.requested hΦ (hst.requested hev)

end Crew

/-- An update of the worker that concerns one sequence. -/
structure Touches (i : SeqId) (s t : System P L) : Prop where
  accepted : t.accepted = s.accepted
  waiting : t.waiting = s.waiting
  running : t.stats.running = s.stats.running
  inFlight : t.inFlight = s.inFlight
  off : ∀ j, j ≠ i → t.own j = s.own j

theorem touches_modify (f : Sequence P L → Sequence P L) : Touches i s (s.modify i f) :=
  ⟨rfl,rfl,rfl,rfl,fun _ hj => System.own_of_ne hj⟩

theorem touches_terminate (mark : Sequence P L → Sequence P L) : Touches i s (s.terminate i mark) :=
  ⟨rfl,System.terminate_waiting,rfl,rfl,fun _ hj => System.own_terminate_of_ne hj⟩

theorem touches_finishSequence (result : GenerateResult) : Touches i s (s.finishSequence i result) := by
  have hend : Touches i (s.observeFinished result) (s.finishSequence i result) := touches_terminate _
  exact ⟨hend.accepted,hend.waiting,hend.running,hend.inFlight,hend.off⟩

theorem touches_putOutbox (r : L × KvCache P) : Touches i s (s.putOutbox i r) := by
  refine ⟨rfl,rfl,rfl,rfl,?_⟩
  intro j hj
  simp only [System.own,System.putOutbox,Function.update_of_ne hj]

theorem touches_recordToken (token : Token) (stop : List Token) : Touches i s (s.recordToken i token stop) := by
  refine ⟨rfl,rfl,rfl,rfl,?_⟩
  intro j hj
  simp only [System.own,System.recordToken,System.modify,Function.update_of_ne hj]

theorem touches_rebound {full : Prop} (h : System.Rebound full i s t) (hout : t.outbox = s.outbox)
    (hrun : t.stats = s.stats) (hfl : t.inFlight = s.inFlight) : Touches i s t := by
  refine ⟨h.accepted,congrArg RequestQueue.waiting h.queue,congrArg WorkerStats.running hrun,hfl,?_⟩
  intro j hj
  simp only [System.own,h.off j hj,hout]

theorem touches_bind (hb : s.Books False) (hi : s.Live i) (now : ℕ) : Touches i s (s.bindPrefixAtPrefill i now) := by
  refine touches_rebound (hb.bind hi now False.elim).1 (s.bindPrefixAtPrefill_outbox i now) ?_ ?_
  · unfold System.bindPrefixAtPrefill System.bindHit
    split
    · rfl
    · split
      · rfl
      · split <;> rfl
  · unfold System.bindPrefixAtPrefill System.bindHit
    split
    · rfl
    · split
      · rfl
      · split <;> rfl

theorem touches_store (hb : s.Books False) (hi : s.Live i) (now : ℕ → ℕ) : Touches i s (s.storePrefix i now) := by
  refine touches_rebound (hb.store hi now).1 (s.storePrefix_outbox i now) ?_ ?_
  · unfold System.storePrefix
    split <;> rfl
  · unfold System.storePrefix
    split <;> rfl

theorem patient_update {Φ : SeqId → Own P L → Prop} {φ : Own P L → Prop} (hΦ : ∀ i, Patient (Φ i)) (hφ : Patient φ)
    (i : SeqId) : ∀ j, Patient (Function.update Φ i φ j) := by
  intro j
  by_cases hj : j = i
  · subst hj
    rwa [Function.update_self]
  · rw [Function.update_of_ne hj]
    exact hΦ j

theorem Crew.touch {flight : Option (List SeqId × Exc)} {ids run : List SeqId} {Φ : SeqId → Own P L → Prop}
    {φ : Own P L → Prop} (h : Crew flight ids run Φ s) (hi : i ∈ ids) (ht : Touches i s t) (hφ : φ (t.own i)) :
    Crew flight ids run (Function.update Φ i φ) t := by
  refine ⟨ht.inFlight.trans h.flight,ht.running.trans h.running,h.nodup,?_,?_,?_⟩
  · rw [ht.accepted,ht.waiting]
    exact h.admitted
  · intro j hj
    by_cases hji : j = i
    · rwa [hji]
    · apply h.complete
      rw [System.Live,ht.accepted,ht.waiting] at hj
      have hheap : t.heap j = s.heap j := congrArg Prod.fst (ht.off j hji)
      rwa [hheap] at hj
  · intro j hj
    by_cases hji : j = i
    · subst hji
      rwa [Function.update_self]
    · rw [Function.update_of_ne hji,ht.off j hji]
      exact h.own j hj

end FluxEngine
