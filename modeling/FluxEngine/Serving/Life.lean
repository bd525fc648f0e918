import FluxEngine.Serving.Ownership

/-! # The life of one sequence

The serving machine seen from one sequence: what any step may do to it.  A
sequence that has ended does not change any more, and what it has signalled is
its output followed by one end marker.
-/
namespace FluxEngine
open OrderedDict Transition
variable {P L : Type} {eng : CachedEngine P L} {s t : System P L} {i : SeqId}

abbrev Own (P L : Type) := Sequence P L × Option (L × KvCache P)

/-- One sequence during a step that is no model call. -/
inductive LifeStep (eng : CachedEngine P L) : Own P L → Own P L → Prop
  | same {x y : Sequence P L} {box : Option (L × KvCache P)} : y.life = x.life → LifeStep eng (x,box) (y,box)
  | requestAbort {x : Sequence P L} {box : Option (L × KvCache P)} : LifeStep eng (x,box) (x.requestAbort,box)
  | setStatus {x : Sequence P L} {box : Option (L × KvCache P)} {status : SequenceStatus} :
      x.status.terminal = false → status.terminal = false → LifeStep eng (x,box) ({ x with status := status },box)
  | note {x : Sequence P L} {logits : L} {kv : KvCache P} {rnd : ℕ} :
      x.status.terminal = false → x.finishReason = none →
      LifeStep eng (x,some (logits,kv))
        ({ x.noteToken (sampleLogits eng logits x.sampling rnd)
            (combinedStopIds eng.tokenizer x.sampling.stopTokenIds x.sampling.ignoreEos) with kvCache := some kv },none)
  | abort {x y : Sequence P L} {box : Option (L × KvCache P)} : x.status.terminal = false →
      y.life = ({ x with status := .aborted } : Sequence P L).closed.life → LifeStep eng (x,box) (y,box)
  | fail {x y : Sequence P L} {box : Option (L × KvCache P)} {e : Exc} : x.status.terminal = false →
      y.life = ({ x with error := some e, status := .error } : Sequence P L).closed.life →
      LifeStep eng (x,box) (y,box)
  | finish {x y : Sequence P L} {box : Option (L × KvCache P)} {reason : FinishReason} {engineName : String} :
      x.status.terminal = false → x.finishReason = some reason →
      y.life = ({ x with
        result := some (packResult eng.tokenizer x.promptTokenIds x.outputIds reason engineName)
        status := .finished } : Sequence P L).closed.life → LifeStep eng (x,box) (y,box)

namespace Sequence

/-- What a sequence has signalled: its output, and one end marker once it has ended. -/
structure Signalled (x : Sequence P L) : Prop where
  queue : x.tokenQueue = x.outputIds.map some ++ if x.status.terminal then [none] else []
  event : x.finishedEvent = x.status.terminal
  releases : x.releases = if x.status.terminal then 1 else 0

/-- A result stands for FINISHED and an exception for ERROR. -/
structure Concluded (eng : CachedEngine P L) (x : Sequence P L) : Prop where
  error : x.error.isSome ↔ x.status = .error
  finished : x.status = .finished → ∃ reason engineName, x.finishReason = some reason ∧
    x.result = some (packResult eng.tokenizer x.promptTokenIds x.outputIds reason engineName)
  unfinished : x.status ≠ .finished → x.result = none

def request (x : Sequence P L) : List Token × SamplingParams := (x.promptTokenIds,x.sampling)

/-- What is left of a sequence that has ended. -/
def outcome (x : Sequence P L) : (SequenceStatus × List Token × List (Option Token)) ×
    (Bool × ℕ × Option FinishReason) × Option GenerateResult × Option Exc :=
  ((x.status,x.outputIds,x.tokenQueue),(x.finishedEvent,x.releases,x.finishReason),x.result,x.error)

variable {x y : Sequence P L}

theorem signalled_life : x.life.Signalled ↔ x.Signalled :=
  ⟨fun h => ⟨h.queue,h.event,h.releases⟩,fun h => ⟨h.queue,h.event,h.releases⟩⟩

theorem concluded_life : x.life.Concluded eng ↔ x.Concluded eng :=
  ⟨fun h => ⟨h.error,h.finished,h.unfinished⟩,fun h => ⟨h.error,h.finished,h.unfinished⟩⟩

theorem outcome_of_life (h : x.life = y.life) : x.outcome = y.outcome :=
  eq_of_life Sequence.outcome (fun _ => rfl) h

theorem Signalled.closed (h : x.Signalled) (hx : x.status.terminal = false) {mark : Sequence P L}
    (hm : mark.status.terminal = true) (hqueue : mark.tokenQueue = x.tokenQueue)
    (hout : mark.outputIds = x.outputIds) (hrel : mark.releases = x.releases) : mark.closed.Signalled := by
  obtain ⟨hq,_,hr⟩ := h
  rw [hx] at hq hr
  constructor
  · simp only [Sequence.closed,hm,hqueue,hout,hq]
    simp
  · simp only [Sequence.closed,hm]
  · simp only [Sequence.closed,hm,hrel,hr]
    simp

end Sequence

namespace LifeStep
variable {a b : Own P L}

theorem signalled (h : LifeStep eng a b) (ha : a.1.Signalled) : b.1.Signalled := by
  cases h with
  | same hl =>
    rw [← Sequence.signalled_life,hl,Sequence.signalled_life]
    exact ha
  | requestAbort => exact ⟨ha.queue,ha.event,ha.releases⟩
  | @setStatus x _ _ hx hst =>
    obtain ⟨hq,he,hr⟩ : x.Signalled := ha
    rw [hx] at hq he hr
    constructor
    · simp only [hst,hq]
    · simp only [hst,he]
    · simp only [hst,hr]
  | @note x _ _ _ hx _ =>
    obtain ⟨hq,he,hr⟩ : x.Signalled := ha
    rw [Sequence.noteToken_eq]
    constructor
    · simp only [hq,hx]
      simp
    · exact he
    · exact hr
  | abort hx hy =>
    rw [← Sequence.signalled_life,hy,Sequence.signalled_life]
    exact ha.closed hx rfl rfl rfl rfl
  | fail hx hy =>
    rw [← Sequence.signalled_life,hy,Sequence.signalled_life]
    exact ha.closed hx rfl rfl rfl rfl
  | finish hx _ hy =>
    rw [← Sequence.signalled_life,hy,Sequence.signalled_life]
    exact ha.closed hx rfl rfl rfl rfl

theorem concluded (h : LifeStep eng a b) (ha : a.1.Concluded eng) : b.1.Concluded eng := by
  have hopen : ∀ {x : Sequence P L}, x.Concluded eng → x.status.terminal = false →
      x.error = none ∧ x.result = none := by
    intro x hx hlive
    constructor
    · rw [← Option.not_isSome_iff_eq_none,hx.error]
      intro he
      rw [he] at hlive
      cases hlive
    · apply hx.unfinished
      intro he
      rw [he] at hlive
      cases hlive
  cases h with
  | same hl =>
    rw [← Sequence.concluded_life,hl,Sequence.concluded_life]
    exact ha
  | requestAbort => exact ⟨ha.error,ha.finished,ha.unfinished⟩
  | @setStatus x _ status hx hst =>
    obtain ⟨he,hr⟩ : x.error = none ∧ x.result = none := hopen ha hx
    refine ⟨?_,?_,fun _ => hr⟩
    · simp only [he,Option.isSome_none,Bool.false_eq_true,false_iff]
      intro h
      rw [h] at hst
      cases hst
    · rintro rfl
      cases hst
  | @note x _ _ _ hx _ =>
    obtain ⟨_,hr⟩ : x.error = none ∧ x.result = none := hopen ha hx
    rw [Sequence.noteToken_eq]
    refine ⟨ha.error,?_,fun _ => hr⟩
    intro hfin
    simp only at hfin
    rw [hfin] at hx
    cases hx
  | @abort x _ _ hx hy =>
    obtain ⟨he,hr⟩ : x.error = none ∧ x.result = none := hopen ha hx
    rw [← Sequence.concluded_life,hy,Sequence.concluded_life]
    refine ⟨by simp [Sequence.closed,he],?_,fun _ => hr⟩
    rintro ⟨⟩
  | @fail x _ _ _ hx hy =>
    obtain ⟨_,hr⟩ : x.error = none ∧ x.result = none := hopen ha hx
    rw [← Sequence.concluded_life,hy,Sequence.concluded_life]
    refine ⟨by simp [Sequence.closed],?_,fun _ => hr⟩
    rintro ⟨⟩
  | @finish x _ _ _ _ hx hf hy =>
    obtain ⟨he,_⟩ : x.error = none ∧ x.result = none := hopen ha hx
    rw [← Sequence.concluded_life,hy,Sequence.concluded_life]
    refine ⟨by simp [Sequence.closed,he],fun _ => ⟨_,_,hf,rfl⟩,?_⟩
    intro hne
    exact absurd rfl hne

theorem outcome_eq (h : LifeStep eng a b) (ha : a.1.status.terminal = true) : b.1.outcome = a.1.outcome := by
  cases h with
  | same hl => exact Sequence.outcome_of_life hl
  | requestAbort => rfl
  | setStatus hx _ => exact absurd ha (by simp [hx])
  | note hx _ => exact absurd ha (by simp [hx])
  | abort hx _ => exact absurd ha (by simp [hx])
  | fail hx _ => exact absurd ha (by simp [hx])
  | finish hx _ _ => exact absurd ha (by simp [hx])

theorem request_eq (h : LifeStep eng a b) : b.1.request = a.1.request := by
  have hclosed : ∀ {x y mark : Sequence P L}, y.life = mark.closed.life → mark.request = x.request →
      y.request = x.request :=
    fun hl hm => (Sequence.eq_of_life Sequence.request (fun _ => rfl) hl).trans hm
  cases h with
  | same hl => exact Sequence.eq_of_life Sequence.request (fun _ => rfl) hl
  | requestAbort => rfl
  | setStatus _ _ => rfl
  | note _ _ =>
    rw [Sequence.noteToken_eq]
    rfl
  | abort _ hy => exact hclosed hy rfl
  | fail _ hy => exact hclosed hy rfl
  | finish _ _ hy => exact hclosed hy rfl

theorem output_prefix (h : LifeStep eng a b) : a.1.outputIds <+: b.1.outputIds := by
  have hclosed : ∀ {x y mark : Sequence P L}, y.life = mark.closed.life → mark.outputIds = x.outputIds →
      x.outputIds <+: y.outputIds := by
    intro x y mark hl hm
    have hy : y.outputIds = mark.closed.outputIds := Sequence.eq_of_life Sequence.outputIds (fun _ => rfl) hl
    have hmark : mark.closed.outputIds = mark.outputIds := rfl
    rw [hy,hmark,hm]
  cases h with
  | same hl =>
    rw [Sequence.eq_of_life Sequence.outputIds (fun _ => rfl) hl]
  | requestAbort => exact List.prefix_rfl
  | setStatus _ _ => exact List.prefix_rfl
  | note _ _ =>
    rw [Sequence.noteToken_eq]
    exact List.prefix_append _ _
  | abort _ hy => exact hclosed hy rfl
  | fail _ hy => exact hclosed hy rfl
  | finish _ _ hy => exact hclosed hy rfl

end LifeStep

/-- The worker calls the model. -/
def Event.isCall : Event → Bool
  | .prefill _ => true
  | .decode _ => true
  | .decodeBatch _ => true
  | _ => false

namespace System

def own (s : System P L) (i : SeqId) : Own P L := (s.heap i,s.outbox i)

theorem own_of_ne {f : Sequence P L → Sequence P L} {j : SeqId} (h : i ≠ j) : (s.modify j f).own i = s.own i := by
  simp only [own,modify,Function.update_of_ne h]

theorem own_modify (f : Sequence P L → Sequence P L) : (s.modify i f).own i = (f (s.heap i),s.outbox i) := by
  simp only [own,modify,Function.update_self]

theorem own_terminate_of_ne {mark : Sequence P L → Sequence P L} {j : SeqId} (h : i ≠ j) :
    (s.terminate j mark).own i = s.own i := by
  simp only [own,terminate_heap_of_ne h,terminate_outbox]

theorem abortOne_life {j : SeqId} (h : (s.heap j).status.terminal = false) (i : SeqId) :
    LifeStep eng (s.own i) ((s.abortOne j).own i) := by
  by_cases hij : i = j
  · subst hij
    exact .abort h terminate_heap_self.1
  · rw [abortOne,own_terminate_of_ne hij]
    exact .same rfl

theorem Books.waiting_live {full : Prop} (h : s.Books full) {j : SeqId} (hj : j ∈ s.waiting) :
    (s.heap j).status.terminal = false := by
  rw [(h.waiting j hj).2.status]
  rfl

theorem Rebound.life_step {full : Prop} {j : SeqId} (h : Rebound full j s t) (hout : t.outbox = s.outbox) (i : SeqId) :
    LifeStep eng (s.own i) (t.own i) := by
  have hlife : (t.heap i).life = (s.heap i).life := by
    by_cases hij : i = j
    · rw [hij]
      exact h.life
    · rw [h.off i hij]
  unfold own
  rw [hout]
  exact .same hlife

theorem Books.admitRound_life (h : s.Books False) (now : ℕ) (i : SeqId) :
    LifeStep eng (s.own i) ((s.admitRound now).own i) := by
  rcases h.admitRound_cases now False.elim with ⟨_,heq⟩ | ⟨j,queue,_,_,_,⟨sch,seq,heq,hg⟩ | ⟨sch,heq,_⟩⟩
  · rw [heq]
    exact .same rfl
  · rw [heq]
    refine .same ?_
    by_cases hij : i = j
    · subst hij
      simp only [Function.update_self]
      exact hg.life
    · simp only [Function.update_of_ne hij]
  · rw [heq]
    exact .same rfl

end System

variable [Inhabited P] [Inhabited L]

/-- A step other than a model call is a step in the life of every accepted sequence. -/
theorem Step.life (hb : s.Books False) {ev : Event} (h : Step eng ev s t) (hev : ev.isCall = false)
    (hi : i ∈ s.accepted) : LifeStep eng (s.own i) (t.own i) := by
  cases h with
  | @submit _ j prompt sampling hj =>
    have hij : i ≠ j := fun hij => hj (hij ▸ hi)
    rcases s.submit_cases j prompt sampling with heq | ⟨queue,_,heq⟩
    · rw [heq]
      exact .same rfl
    · rw [heq]
      refine .same ?_
      simp only [Function.update_of_ne hij]
  | requestAbort j =>
    by_cases hij : i = j
    · subst hij
      rw [System.requestAbort,System.own_modify]
      exact .requestAbort
    · rw [System.requestAbort,System.own_of_ne hij]
      exact .same rfl
  | adminAbort j =>
    unfold System.adminAbort
    by_cases hw : j ∈ s.waiting
    · rw [if_pos hw]
      exact System.abortOne_life (s := s.setQueue (s.scheduler.queue.remove j).2) (hb.waiting_live hw) i
    · rw [if_neg hw]
      by_cases hr : j ∈ s.stats.running
      · rw [if_pos hr]
        by_cases hij : i = j
        · subst hij
          rw [System.requestAbort,System.own_modify]
          exact .requestAbort
        · rw [System.requestAbort,System.own_of_ne hij]
          exact .same rfl
      · rw [if_neg hr]
        exact .same rfl
  | requestStop => exact .same rfl
  | admission now => exact hb.admitRound_life now i
  | bookkeeping stats inFlight total => exact .same rfl
  | @setStatus _ j status hj hst =>
    by_cases hij : i = j
    · subst hij
      rw [System.own_modify]
      exact .setStatus hj.2.2 hst
    · rw [System.own_of_ne hij]
      exact .same rfl
  | bind now hj => exact (hb.bind hj now False.elim).1.life_step (s.bindPrefixAtPrefill_outbox _ now) i
  | prefill hj ho hr => cases hev
  | store now hj ho => exact (hb.store hj now).1.life_step (s.storePrefix_outbox _ now) i
  | decode hj ht hkv => cases hev
  | decodeBatch hl hr => cases hev
  | @note _ j logits kv rnd hj hf ho =>
    by_cases hij : i = j
    · subst hij
      have hown : (s.recordToken i (sampleLogits eng logits (s.heap i).sampling rnd)
          (combinedStopIds eng.tokenizer (s.heap i).sampling.stopTokenIds (s.heap i).sampling.ignoreEos)).own i =
          ({ (s.heap i).noteToken (sampleLogits eng logits (s.heap i).sampling rnd)
              (combinedStopIds eng.tokenizer (s.heap i).sampling.stopTokenIds (s.heap i).sampling.ignoreEos) with
              kvCache := some kv },none) := by
        simp only [System.own,System.recordToken,System.modify,Function.update_self,ho,Option.map_some]
      rw [hown,System.own,ho]
      exact .note hj.2.2 hf
    · have hown : ∀ (token : Token) (stop : List Token), (s.recordToken j token stop).own i = s.own i := by
        intro token stop
        simp only [System.own,System.recordToken,System.modify,Function.update_of_ne hij]
      rw [hown]
      exact .same rfl
  | abort hj => exact System.abortOne_life hj.2.2 i
  | @fail _ j e hj =>
    by_cases hij : i = j
    · subst hij
      exact .fail hj.2.2 System.terminate_heap_self.1
    · rw [System.failOne,System.own_terminate_of_ne hij]
      exact .same rfl
  | @finish _ j reason engineName hj hf =>
    by_cases hij : i = j
    · subst hij
      exact .finish hj.2.2 hf System.terminate_heap_self.1
    · rw [System.conclude,System.own_terminate_of_ne hij]
      exact .same rfl
  | drain =>
    rcases s.drainOne_cases with ⟨_,heq⟩ | ⟨j,queue,hw,_,heq⟩
    · rw [heq]
      exact .same rfl
    · rw [heq]
      exact System.abortOne_life (s := s.setQueue queue) (hb.waiting_live hw) i

theorem Step.heap_of_isCall {ev : Event} (h : Step eng ev s t) (hev : ev.isCall = true) :
    t.heap = s.heap ∧ t.accepted = s.accepted := by
  cases h with
  | prefill hj ho hr => exact ⟨rfl,rfl⟩
  | decode hj ht hkv => exact ⟨rfl,rfl⟩
  | decodeBatch hl hr => exact ⟨rfl,rfl⟩
  | _ => cases hev

/-- A step accepts at most one sequence, and it is new. -/
theorem Step.accepted {ev : Event} (h : Step eng ev s t) :
    t.accepted = s.accepted ∨
    ∃ j prompt sampling, j ∉ s.accepted ∧ t.accepted = s.accepted ++ [j] ∧
      t.heap j = { promptTokenIds := prompt, sampling := sampling } ∧ t.outbox = s.outbox := by
  cases h with
  | @submit _ j prompt sampling hj =>
    rcases s.submit_cases j prompt sampling with heq | ⟨queue,_,heq⟩
    · rw [heq]
      exact Or.inl rfl
    · rw [heq]
      exact Or.inr ⟨j,prompt,sampling,hj,rfl,Function.update_self _ _ _,rfl⟩
  | adminAbort j =>
    refine Or.inl ?_
    unfold System.adminAbort
    split
    · rfl
    · split <;> rfl
  | bind now hj =>
    refine Or.inl ?_
    unfold System.bindPrefixAtPrefill System.bindHit
    split
    · rfl
    · split
      · rfl
      · split <;> rfl
  | store now hj ho =>
    refine Or.inl ?_
    unfold System.storePrefix
    split <;> rfl
  | drain =>
    refine Or.inl ?_
    rcases s.drainOne_cases with ⟨_,heq⟩ | ⟨_,_,_,_,heq⟩
    · rw [heq]
    · rw [heq]
      rfl
  | _ => exact Or.inl rfl

theorem Step.fresh {ev : Event} (h : Step eng ev s t) (hi : i ∈ t.accepted) (hn : i ∉ s.accepted) :
    ∃ prompt sampling, t.heap i = { promptTokenIds := prompt, sampling := sampling } := by
  rcases h.accepted with heq | ⟨j,prompt,sampling,_,heq,hheap,_⟩
  · rw [heq] at hi
    exact absurd hi hn
  · rw [heq] at hi
    rcases List.mem_append.mp hi with hi | hi
    · exact absurd hi hn
    · rw [List.mem_singleton.mp hi]
      exact ⟨prompt,sampling,hheap⟩

/-- Only a submission accepts anyone. -/
theorem Step.accepts {ev : Event} (h : Step eng ev s t) {j : SeqId} (hj : j ∈ t.accepted)
    (hn : j ∉ s.accepted) : ∃ prompt sampling, t = s.submit j prompt sampling := by
  cases h with
  | @submit _ i prompt sampling hi =>
    refine ⟨prompt,sampling,?_⟩
    rcases s.submit_cases i prompt sampling with heq | ⟨queue,_,heq⟩
    · rw [heq] at hj
      exact absurd hj hn
    · rw [heq] at hj
      rcases List.mem_append.mp hj with hj | hj
      · exact absurd hj hn
      · rw [List.mem_singleton.mp hj]
  | adminAbort i =>
    unfold System.adminAbort at hj
    split at hj
    · exact absurd hj hn
    · split at hj <;> exact absurd hj hn
  | bind now hi =>
    unfold System.bindPrefixAtPrefill System.bindHit at hj
    split at hj
    · exact absurd hj hn
    · split at hj
      · exact absurd hj hn
      · split at hj <;> exact absurd hj hn
  | store now hi _ =>
    unfold System.storePrefix at hj
    split at hj <;> exact absurd hj hn
  | drain =>
    rcases s.drainOne_cases with ⟨_,heq⟩ | ⟨_,_,_,_,heq⟩
    · rw [heq] at hj
      exact absurd hj hn
    · rw [heq] at hj
      exact absurd hj hn
  | _ => exact absurd hj hn

theorem Step.accepted_subset {ev : Event} (h : Step eng ev s t) (hi : i ∈ s.accepted) : i ∈ t.accepted := by
  rcases h.accepted with heq | ⟨_,_,_,_,heq,_⟩
  · rw [heq]
    exact hi
  · rw [heq]
    exact List.mem_append_left _ hi

theorem Reachable.tail (h : Reachable eng s) (hr : Reaches (Step eng) s t) : Reachable eng t := by
  obtain ⟨s₀,h0,hr₀⟩ := h
  exact ⟨s₀,h0,hr₀.trans hr⟩

theorem Reachable.life_invariant {Q : Sequence P L → Prop} (h : Reachable eng s)
    (hfresh : ∀ prompt sampling, Q { promptTokenIds := prompt, sampling := sampling })
    (hstep : ∀ a b : Own P L, LifeStep eng a b → Q a.1 → Q b.1) : ∀ i ∈ s.accepted, Q (s.heap i) := by
  have hinv : s.Books False ∧ ∀ i ∈ s.accepted, Q (s.heap i) := by
    refine h.invariant (I := fun s => s.Books False ∧ ∀ i ∈ s.accepted, Q (s.heap i)) ?_ ?_
    · intro s h0
      refine ⟨h0.books,?_⟩
      rw [h0.accepted]
      simp
    · rintro ev s t ⟨hb,hq⟩ hs
      refine ⟨hb.step hs False.elim,?_⟩
      intro i hi
      by_cases hold : i ∈ s.accepted
      · cases hev : ev.isCall with
        | true =>
          rw [(hs.heap_of_isCall hev).1]
          exact hq i hold
        | false => exact hstep _ _ (hs.life hb hev hold) (hq i hold)
      · obtain ⟨prompt,sampling,heq⟩ := hs.fresh hi hold
        rw [heq]
        exact hfresh prompt sampling
  exact hinv.2

theorem Reachable.signalled (h : Reachable eng s) (hi : i ∈ s.accepted) : (s.heap i).Signalled :=
  h.life_invariant (fun _ _ => ⟨rfl,rfl,rfl⟩) (fun _ _ hab ha => hab.signalled ha) i hi

theorem Reachable.concluded (h : Reachable eng s) (hi : i ∈ s.accepted) : (s.heap i).Concluded eng := by
  refine h.life_invariant ?_ (fun _ _ hab ha => hab.concluded ha) i hi
  intro prompt sampling
  refine ⟨by simp,?_,fun _ => rfl⟩
  rintro ⟨⟩

theorem Reachable.life_run {Q : Sequence P L → Prop} (h : Reachable eng s) (hr : Reaches (Step eng) s t)
    (hi : i ∈ s.accepted) (hstep : ∀ a b : Own P L, LifeStep eng a b → Q a.1 → Q b.1) (hQ : Q (s.heap i)) :
    i ∈ t.accepted ∧ Q (t.heap i) := by
  have hinv : t.Books False ∧ i ∈ t.accepted ∧ Q (t.heap i) := by
    refine hr.invariant (P := fun t => t.Books False ∧ i ∈ t.accepted ∧ Q (t.heap i))
      ⟨books_of_reachable h,hi,hQ⟩ ?_
    rintro ev t u ⟨hb,hit,hQ⟩ hs
    refine ⟨hb.step hs False.elim,hs.accepted_subset hit,?_⟩
    cases hev : ev.isCall with
    | true =>
      rw [(hs.heap_of_isCall hev).1]
      exact hQ
    | false => exact hstep _ _ (hs.life hb hev hit) hQ
  exact hinv.2

theorem Reachable.accepted_run (h : Reachable eng s) (hr : Reaches (Step eng) s t) (hi : i ∈ s.accepted) :
    i ∈ t.accepted :=
  (h.life_run (Q := fun _ => True) hr hi (fun _ _ _ _ => trivial) trivial).1

theorem Reachable.outcome_eq (h : Reachable eng s) (hr : Reaches (Step eng) s t) (hi : i ∈ s.accepted)
    (hend : (s.heap i).status.terminal = true) : (t.heap i).outcome = (s.heap i).outcome := by
  refine (h.life_run (Q := fun x => x.outcome = (s.heap i).outcome) hr hi ?_ rfl).2
  intro a b hab ha
  have hst : a.1.status = (s.heap i).status := congrArg (fun o => o.1.1) ha
  exact (hab.outcome_eq (by rw [hst]; exact hend)).trans ha

theorem Reachable.output_prefix (h : Reachable eng s) (hr : Reaches (Step eng) s t) (hi : i ∈ s.accepted) :
    (s.heap i).outputIds <+: (t.heap i).outputIds :=
  (h.life_run (Q := fun x => (s.heap i).outputIds <+: x.outputIds) hr hi
    (fun _ _ hab ha => ha.trans hab.output_prefix) List.prefix_rfl).2

theorem Reachable.request_eq (h : Reachable eng s) (hr : Reaches (Step eng) s t) (hi : i ∈ s.accepted) :
    (t.heap i).request = (s.heap i).request :=
  (h.life_run (Q := fun x => x.request = (s.heap i).request) hr hi (fun _ _ hab ha => hab.request_eq.trans ha) rfl).2

end FluxEngine
