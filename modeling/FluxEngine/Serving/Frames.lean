import FluxEngine.Engine.SchedulerLedger
import FluxEngine.Serving.Step

/-! # What single updates leave alone

Frame and inversion lemmas for the updates of the serving machine: which
sequence an update touches, and how the queue and the scheduler come out of it.
-/
namespace FluxEngine
open OrderedDict
variable {P L : Type}

namespace Sequence
variable {x y : Sequence P L}

/-- The end of a sequence: its caches dropped, its end signalled. -/
def closed (seq : Sequence P L) : Sequence P L :=
  { seq with kvCache := none, releases := seq.releases + 1, tokenQueue := seq.tokenQueue ++ [none],
             finishedEvent := true }

def Pristine (seq : Sequence P L) : Prop :=
  seq = { promptTokenIds := seq.promptTokenIds, sampling := seq.sampling, abortRequested := seq.abortRequested }

theorem Pristine.status (h : x.Pristine) : x.status = .waiting := by rw [h]
theorem Pristine.prefixKey (h : x.Pristine) : x.prefixKey = none := by rw [h]
theorem Pristine.outputIds (h : x.Pristine) : x.outputIds = [] := by rw [h]
theorem Pristine.fallbackIds (h : x.Pristine) : BlockPool.fallbackIds x = [] := by rw [h]; rfl

theorem Pristine.requestAbort (h : x.Pristine) : x.requestAbort.Pristine := by
  unfold Pristine Sequence.requestAbort
  rw [h]

theorem eq_of_life {α : Type} (f : Sequence P L → α) (hf : ∀ z : Sequence P L, f z.life = f z)
    (h : x.life = y.life) : f x = f y := by
  rw [← hf x,h,hf y]

theorem status_of_life (h : x.life = y.life) : x.status = y.status :=
  eq_of_life Sequence.status (fun _ => rfl) h

theorem promptTokenIds_of_life (h : x.life = y.life) : x.promptTokenIds = y.promptTokenIds :=
  eq_of_life Sequence.promptTokenIds (fun _ => rfl) h

theorem outputIds_of_life (h : x.life = y.life) : x.outputIds = y.outputIds :=
  eq_of_life Sequence.outputIds (fun _ => rfl) h

theorem generated_of_life (h : x.life = y.life) : x.generated = y.generated :=
  eq_of_life Sequence.generated (fun _ => rfl) h

theorem reservationTokens_of_life (h : x.life = y.life) : x.reservationTokens = y.reservationTokens :=
  eq_of_life Sequence.reservationTokens (fun _ => rfl) h

theorem prefixKey_of_prefixPart (h : x.prefixPart = y.prefixPart) : x.prefixKey = y.prefixKey :=
  congrArg Prod.fst h

end Sequence

namespace RequestQueue
variable {q q' : RequestQueue} {i : SeqId}

theorem tryEnqueue_waiting (h : q.tryEnqueue i = some q') : q'.waiting = q.waiting ++ [i] := by
  unfold tryEnqueue at h
  split at h
  · cases h
  · cases h
    rfl

theorem popOne_of_head (h : q.peekOne = some i) : q.popOne = (some i,(q.remove i).2) := by
  unfold peekOne at h
  unfold popOne remove
  cases hw : q.waiting with
  | nil => simp [hw] at h
  | cons j rest =>
    rw [hw] at h
    cases h
    simp only [List.erase_cons_head]

theorem popOne_cases (q : RequestQueue) :
    q.waiting = [] ∧ q.popOne = (none,q) ∨ ∃ i, i ∈ q.waiting ∧ q.popOne = (some i,(q.remove i).2) := by
  cases hw : q.waiting with
  | nil => exact Or.inl ⟨rfl,by simp [popOne,hw]⟩
  | cons i rest => exact Or.inr ⟨i,List.mem_cons_self,popOne_of_head (by simp [peekOne,hw])⟩

end RequestQueue

namespace Scheduler
variable {s : Scheduler P L} {heap : Heap P L}

theorem submit_cases (s : Scheduler P L) (i : SeqId) (seq : Sequence P L) :
    (∃ e, s.submit i seq = .error e) ∨
    ∃ queue, s.queue.tryEnqueue i = some queue ∧
      s.submit i seq = .ok ({ s with queue := queue },{ seq with status := .waiting }) := by
  unfold submit
  cases s.tooLarge seq with
  | some e => exact Or.inl ⟨e,rfl⟩
  | none =>
    cases s.queue.tryEnqueue i with
    | none => exact Or.inl ⟨_,rfl⟩
    | some queue => exact Or.inr ⟨queue,rfl,rfl⟩

/-- The waiter that the next round of admission takes out of the queue. -/
def candidate (s : Scheduler P L) (heap : Heap P L) : Option SeqId :=
  match s.policy with
  | .memoryFit => s.queue.waiting.find? (fun i => s.fits (heap i))
  | .fcfs => s.queue.peekOne.filter (fun i => s.fits (heap i))

theorem candidate_mem {i : SeqId} (h : s.candidate heap = some i) : i ∈ s.queue.waiting := by
  unfold candidate at h
  cases hp : s.policy with
  | memoryFit =>
    rw [hp] at h
    exact List.mem_of_find?_eq_some h
  | fcfs =>
    rw [hp] at h
    exact List.mem_of_head? (Option.filter_eq_some_iff.mp h).1

theorem candidate_fits {i : SeqId} (h : s.candidate heap = some i) : s.fits (heap i) = true := by
  unfold candidate at h
  cases hp : s.policy with
  | memoryFit =>
    rw [hp] at h
    exact List.find?_some (p := fun i => s.fits (heap i)) h
  | fcfs =>
    rw [hp] at h
    exact (Option.filter_eq_some_iff.mp h).2

theorem admitRound_eq (s : Scheduler P L) (heap : Heap P L) (now : ℕ) :
    s.candidate heap = none ∧ s.admitRound heap now = (none,s,heap) ∨
    ∃ i, s.candidate heap = some i ∧
      s.admitRound heap now = tryTaken { s with queue := (s.queue.remove i).2 } heap i now := by
  unfold admitRound candidate memoryFitRound fcfsRound
  cases s.policy with
  | memoryFit =>
    cases hf : s.queue.waiting.find? (fun i => s.fits (heap i)) with
    | none => exact Or.inl ⟨rfl,rfl⟩
    | some i => exact Or.inr ⟨i,rfl,rfl⟩
  | fcfs =>
    cases hq : s.queue.peekOne with
    | none => exact Or.inl ⟨rfl,rfl⟩
    | some i =>
      have hpop := RequestQueue.popOne_of_head hq
      cases hfit : s.fits (heap i) with
      | false => exact Or.inl ⟨by simp [hfit],by simp [hfit]⟩
      | true => exact Or.inr ⟨i,by simp [hfit],by simp [hfit,hpop]⟩

theorem tryAllocate_life (s : Scheduler P L) (id : SeqId) (seq : Sequence P L) (now : ℕ) :
    (s.tryAllocate id seq now).2.2.life = seq.life := by
  unfold tryAllocate
  rcases s.lookupPrefix seq.promptTokenIds now with ⟨hit,t⟩
  simp only
  cases t.pool with
  | none => cases hit <;> rfl
  | some pool =>
    simp only [BlockPool.allocate_eq]
    generalize pool.canAllocate _ = ok
    cases ok with
    | true => cases hit <;> rfl
    | false => rfl

theorem tryTaken_life (s : Scheduler P L) (heap : Heap P L) (id : SeqId) (now : ℕ) (j : SeqId) :
    ((s.tryTaken heap id now).2.2 j).life = (heap j).life := by
  have hlife := s.tryAllocate_life id (heap id) now
  unfold tryTaken
  rcases htry : s.tryAllocate id (heap id) now with ⟨ok,t,seq⟩
  rw [htry] at hlife
  have hupdate : (Function.update heap id seq j).life = (heap j).life := by
    by_cases hj : j = id
    · rw [hj,Function.update_self]
      exact hlife
    · rw [Function.update_of_ne hj]
  cases ok with
  | true => exact hupdate
  | false => exact hupdate

theorem admitRound_life (s : Scheduler P L) (heap : Heap P L) (now : ℕ) (j : SeqId) :
    ((s.admitRound heap now).2.2 j).life = (heap j).life := by
  rcases s.admitRound_eq heap now with ⟨_,heq⟩ | ⟨i,_,heq⟩
  · rw [heq]
  · rw [heq]
    exact tryTaken_life _ heap i now j

theorem admitLoop_life (now : ℕ → ℕ) (room : ℕ) (s : Scheduler P L) (heap : Heap P L) (j : SeqId) :
    ((admitLoop now room s heap).2.2 j).life = (heap j).life := by
  induction room generalizing s heap with
  | zero => rfl
  | succ room ih =>
    have hlife := s.admitRound_life heap (now room) j
    unfold admitLoop
    rcases hround : s.admitRound heap (now room) with ⟨_ | i,t,heap'⟩
    · rw [hround] at hlife
      exact hlife
    · rw [hround] at hlife
      exact (ih t heap').trans hlife

end Scheduler

namespace System
variable {s : System P L} {i j : SeqId} {mark : Sequence P L → Sequence P L}

@[simp] theorem modify_scheduler (f : Sequence P L → Sequence P L) : (s.modify i f).scheduler = s.scheduler := rfl
@[simp] theorem modify_accepted (f : Sequence P L → Sequence P L) : (s.modify i f).accepted = s.accepted := rfl
@[simp] theorem modify_outbox (f : Sequence P L → Sequence P L) : (s.modify i f).outbox = s.outbox := rfl
@[simp] theorem modify_waiting (f : Sequence P L → Sequence P L) : (s.modify i f).waiting = s.waiting := rfl

theorem modify_heap (f : Sequence P L → Sequence P L) :
    (s.modify i f).heap = Function.update s.heap i (f (s.heap i)) := rfl

theorem releasePrefix_queue (sch : Scheduler P L) (key : Option (List Token)) :
    (sch.releasePrefix key).queue = sch.queue := by
  unfold Scheduler.releasePrefix
  cases sch.prefixCache with
  | none => rfl
  | some c => rfl

theorem terminate_queue : (s.terminate i mark).scheduler.queue = s.scheduler.queue := releasePrefix_queue _ _

@[simp] theorem terminate_waiting : (s.terminate i mark).waiting = s.waiting :=
  congrArg RequestQueue.waiting terminate_queue

@[simp] theorem terminate_accepted : (s.terminate i mark).accepted = s.accepted := rfl
@[simp] theorem terminate_outbox : (s.terminate i mark).outbox = s.outbox := rfl
@[simp] theorem terminate_stats : (s.terminate i mark).stats = s.stats := rfl
@[simp] theorem terminate_stop : (s.terminate i mark).stop = s.stop := rfl
@[simp] theorem terminate_inFlight : (s.terminate i mark).inFlight = s.inFlight := rfl

theorem terminate_heap_of_ne (h : j ≠ i) : (s.terminate i mark).heap j = s.heap j := by
  simp only [terminate,release,modify,Function.update_of_ne h]

theorem terminate_heap_self :
    ((s.terminate i mark).heap i).life = (mark (s.heap i)).closed.life ∧
    ((s.terminate i mark).heap i).prefixKey = (mark (s.heap i)).prefixKey ∧
    ((s.terminate i mark).heap i).prefixKv = none := by
  simp only [terminate,release,modify,Function.update_self]
  cases (s.scheduler.releasePrefix (mark (s.heap i)).prefixKey).pool with
  | none => exact ⟨rfl,rfl,rfl⟩
  | some p => exact ⟨rfl,rfl,rfl⟩

theorem terminate_prefixCache :
    (s.terminate i mark).scheduler.prefixCache =
      (s.scheduler.releasePrefix (mark (s.heap i)).prefixKey).prefixCache := by
  simp only [terminate,release,modify,Function.update_self]

theorem terminate_pool :
    (s.terminate i mark).scheduler.pool =
      (s.scheduler.releasePrefix (mark (s.heap i)).prefixKey).pool.map
        (fun pool => (pool.freeSeq i (mark (s.heap i))).1) := by
  simp only [terminate,release,modify,Function.update_self]
  cases (s.scheduler.releasePrefix (mark (s.heap i)).prefixKey).pool with
  | none => rfl
  | some p => rfl

theorem terminate_contentAt (k : List Token) :
    (s.terminate i mark).scheduler.contentAt k = s.scheduler.contentAt k := by
  refine Eq.trans ?_ (Scheduler.contentAt_releasePrefix (mark (s.heap i)).prefixKey k)
  simp only [Scheduler.contentAt,terminate_prefixCache]

theorem admitRound_cases (s : System P L) (now : ℕ) :
    s.scheduler.candidate s.heap = none ∧ s.admitRound now = s ∨
    ∃ i queue ok sch seq, s.scheduler.candidate s.heap = some i ∧ queue.waiting = s.waiting.erase i ∧
      ({ s.scheduler with queue := queue }).tryAllocate i (s.heap i) now = (ok,sch,seq) ∧
      s.admitRound now = { s with
        scheduler := if ok then sch else { sch with queue := sch.queue.pushFront i }
        heap := Function.update s.heap i seq } := by
  unfold admitRound
  rcases s.scheduler.admitRound_eq s.heap now with ⟨hnone,heq⟩ | ⟨i,hc,heq⟩
  · exact Or.inl ⟨hnone,by rw [heq]⟩
  · rcases ht : ({ s.scheduler with queue := (s.scheduler.queue.remove i).2 }).tryAllocate i (s.heap i) now with
      ⟨ok,sch,seq⟩
    refine Or.inr ⟨i,_,ok,sch,seq,hc,rfl,ht,?_⟩
    rw [heq,Scheduler.tryTaken,ht]
    cases ok <;> rfl

theorem admitRound_contentAt (s : System P L) (now : ℕ) (k : List Token) :
    (s.admitRound now).scheduler.contentAt k = s.scheduler.contentAt k := by
  rcases s.admitRound_cases now with ⟨_,heq⟩ | ⟨i,queue,ok,sch,seq,_,_,htry,heq⟩
  · rw [heq]
  · have hk := Scheduler.contentAt_tryAllocate (s := { s.scheduler with queue := queue }) i (s.heap i) now k
    rw [htry] at hk
    rw [heq]
    cases ok <;> exact hk

theorem bindPrefixAtPrefill_contentAt (s : System P L) (i : SeqId) (now : ℕ) (k : List Token) :
    (s.bindPrefixAtPrefill i now).scheduler.contentAt k = s.scheduler.contentAt k := by
  have hl := Scheduler.contentAt_lookupPrefix (s := s.scheduler) (s.heap i).promptTokenIds now k
  unfold bindPrefixAtPrefill
  split
  · rfl
  · rcases hlk : s.scheduler.lookupPrefix (s.heap i).promptTokenIds now with ⟨hit,sch⟩
    rw [hlk] at hl
    cases hit with
    | none => exact hl
    | some hit =>
      simp only [bindHit]
      cases sch.pool with
      | none => exact hl
      | some p => exact hl

theorem bindPrefixAtPrefill_outbox (s : System P L) (i : SeqId) (now : ℕ) :
    (s.bindPrefixAtPrefill i now).outbox = s.outbox := by
  unfold bindPrefixAtPrefill
  split
  · rfl
  · rcases s.scheduler.lookupPrefix (s.heap i).promptTokenIds now with ⟨hit,sch⟩
    cases hit with
    | none => rfl
    | some hit =>
      simp only [bindHit]
      cases sch.pool with
      | none => rfl
      | some p => rfl

theorem storePrefix_outbox (s : System P L) (i : SeqId) (now : ℕ → ℕ) :
    (s.storePrefix i now).outbox = s.outbox := by
  unfold storePrefix
  split <;> rfl

theorem storePrefix_contentAt {s : System P L} {i : SeqId} {now : ℕ → ℕ} {k : List Token}
    {x : List Token × KvCache P × Option L} (h : (s.storePrefix i now).scheduler.contentAt k = some x) :
    s.scheduler.contentAt k = some x ∨
    ∃ logits kv n, s.outbox i = some (logits,kv) ∧ n ≤ (s.heap i).promptTokenIds.length ∧
      k = (s.heap i).promptTokenIds.take n ∧
      x = (k,sliceCache kv n,if n = (s.heap i).promptTokenIds.length then some logits else none) := by
  unfold storePrefix at h
  cases hc : s.scheduler.prefixCache with
  | none =>
    rw [hc] at h
    exact Or.inl h
  | some c =>
    cases ho : s.outbox i with
    | none =>
      rw [hc,ho] at h
      exact Or.inl h
    | some r =>
      rcases r with ⟨logits,kv⟩
      simp only [hc,ho,Scheduler.contentAt,Option.bind_some] at h ⊢
      rw [PrefixCache.sameContents_adopt i (s.heap i) (now 1) k,Option.map_eq_some_iff] at h
      obtain ⟨e,he,rfl⟩ := h
      rcases PrefixCache.get?_insert he with he | ⟨n,_,hn,_,hk,rfl⟩
      · exact Or.inl (by rw [he]; rfl)
      · subst hk
        exact Or.inr ⟨logits,kv,n,rfl,hn,rfl,rfl⟩

theorem drainOne_cases (s : System P L) :
    s.waiting = [] ∧ s.drainOne = s ∨
    ∃ i queue, i ∈ s.waiting ∧ queue.waiting = s.waiting.erase i ∧ s.drainOne = (s.setQueue queue).abortOne i := by
  unfold drainOne
  rcases s.scheduler.queue.popOne_cases with ⟨hnil,hpop⟩ | ⟨i,hi,hpop⟩
  · exact Or.inl ⟨hnil,by rw [hpop]⟩
  · exact Or.inr ⟨i,_,hi,rfl,by rw [hpop]⟩

theorem submit_cases (s : System P L) (i : SeqId) (prompt : List Token) (sampling : SamplingParams) :
    s.submit i prompt sampling = s ∨
    ∃ queue, queue.waiting = s.waiting ++ [i] ∧
      s.submit i prompt sampling =
        { s with
          scheduler := { s.scheduler with queue := queue }
          heap := Function.update s.heap i { promptTokenIds := prompt, sampling := sampling }
          accepted := s.accepted ++ [i] } := by
  unfold submit
  rcases s.scheduler.submit_cases i { promptTokenIds := prompt, sampling := sampling } with
    ⟨e,heq⟩ | ⟨queue,hqueue,heq⟩
  · exact Or.inl (by rw [heq])
  · exact Or.inr ⟨queue,RequestQueue.tryEnqueue_waiting hqueue,by rw [heq]⟩

end System
end FluxEngine
