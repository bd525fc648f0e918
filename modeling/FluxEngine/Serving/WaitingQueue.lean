import FluxEngine.Serving.AdmissionOrder

/-! # The waiting queue and its event

Every operation of the queue keeps the event set exactly while somebody waits,
and loses nobody.  A round of admission takes one out and may put it back in
front; in between the queue has room for it.
-/
namespace FluxEngine
open Transition
open scoped List
variable {P L : Type}

namespace RequestQueue
variable {q q' : RequestQueue} {maxWaiting : ℕ} {accepted returned came went : List SeqId} {i : SeqId}

/-- One change of the queue: who came in with it and who went out. -/
inductive Move (q : RequestQueue) : List SeqId → List SeqId → RequestQueue → Prop
  | stay : Move q [] [] q
  | enter {i : SeqId} {q' : RequestQueue} : q.tryEnqueue i = some q' → Move q [i] [] q'
  | leave {i : SeqId} : i ∈ q.waiting → Move q [] [i] (q.remove i).2
  | putBack {i : SeqId} : i ∈ q.waiting → Move q [] [] ((q.remove i).2.pushFront i)

/-- The queue among all that has been accepted and all that it has returned. -/
structure Kept (maxWaiting : ℕ) (accepted returned : List SeqId) (q : RequestQueue) : Prop where
  size : q.maxWaiting = maxWaiting
  bounded : q.waiting.length ≤ maxWaiting
  event : q.event = true ↔ q.waiting ≠ []
  nodup : accepted.Nodup
  accounted : q.waiting ++ returned ~ accepted

theorem Kept.waiting_nodup (h : q.Kept maxWaiting accepted returned) : q.waiting.Nodup :=
  (h.accounted.nodup_iff.mpr h.nodup).of_append_left

theorem Kept.count (h : q.Kept maxWaiting accepted returned) (hi : i ∈ accepted) :
    q.waiting.count i + returned.count i = 1 := by
  rw [← List.count_append,h.accounted.count_eq]
  exact List.count_eq_one_of_mem h.nodup hi

theorem Kept.enter (h : q.Kept maxWaiting accepted returned) (hi : i ∉ accepted) (hq : q.tryEnqueue i = some q') :
    q'.Kept maxWaiting (accepted ++ [i]) returned := by
  unfold tryEnqueue at hq
  split at hq
  · cases hq
  rename_i hroom
  cases hq
  refine ⟨h.size,?_,by simp,?_,?_⟩
  · have hsize := h.size
    simp only [List.length_append,List.length_singleton]
    omega
  · refine List.nodup_append.mpr ⟨h.nodup,List.nodup_singleton i,?_⟩
    intro a ha b hb hab
    rw [List.mem_singleton] at hb
    exact hi (hb ▸ hab ▸ ha)
  · calc q.waiting ++ [i] ++ returned
        ~ q.waiting ++ returned ++ [i] := by
          rw [List.append_assoc,List.append_assoc]
          exact List.perm_append_comm.append_left q.waiting
      _ ~ accepted ++ [i] := h.accounted.append_right [i]

theorem Kept.leave (h : q.Kept maxWaiting accepted returned) (hi : i ∈ q.waiting) :
    (q.remove i).2.Kept maxWaiting accepted (returned ++ [i]) := by
  refine ⟨h.size,List.length_erase_le.trans h.bounded,?_,h.nodup,?_⟩
  · -- somebody waited before, so that the event was set
    have hset : q.event = true := h.event.mpr (List.ne_nil_of_mem hi)
    simp only [remove]
    split
    · rename_i hnil
      simp [hnil]
    · rename_i hne
      simp [hset,hne]
  · calc q.waiting.erase i ++ (returned ++ [i])
        ~ [i] ++ (q.waiting.erase i ++ returned) := by
          rw [← List.append_assoc]
          exact List.perm_append_comm
      _ ~ q.waiting ++ returned := (List.perm_cons_erase hi).symm.append_right returned
      _ ~ accepted := h.accounted

theorem Kept.putBack (h : q.Kept maxWaiting accepted returned) (hi : i ∈ q.waiting) :
    ((q.remove i).2.pushFront i).Kept maxWaiting accepted returned := by
  have hperm : i :: q.waiting.erase i ~ q.waiting := (List.perm_cons_erase hi).symm
  exact ⟨h.size,hperm.length_eq.trans_le h.bounded,by simp [pushFront],h.nodup,
    (hperm.append_right returned).trans h.accounted⟩

theorem Kept.move (h : q.Kept maxWaiting accepted returned) (hmove : q.Move came went q')
    (hnew : ∀ i ∈ came, i ∉ accepted) : q'.Kept maxWaiting (accepted ++ came) (returned ++ went) := by
  cases hmove with
  | stay =>
    rw [List.append_nil,List.append_nil]
    exact h
  | enter hq =>
    rw [List.append_nil]
    exact h.enter (hnew _ List.mem_cons_self) hq
  | leave hi =>
    rw [List.append_nil]
    exact h.leave hi
  | putBack hi =>
    rw [List.append_nil,List.append_nil]
    exact h.putBack hi

theorem Kept.remove_of_notMem (h : q.Kept maxWaiting accepted returned) (hi : i ∉ q.waiting) :
    q.remove i = (false,q) := by
  have hevent : (if q.waiting = [] then false else q.event) = q.event := by
    split
    · rename_i hnil
      cases he : q.event with
      | false => rfl
      | true => exact absurd hnil (h.event.mp he)
    · rfl
  simp only [remove,List.erase_of_not_mem hi,hevent,hi,decide_false]

end RequestQueue

namespace Scheduler
variable {s : Scheduler P L} {maxWaiting : ℕ} {accepted returned : List SeqId}

theorem admitRound_move (s : Scheduler P L) (heap : Heap P L) (now : ℕ) :
    s.queue.Move [] (s.admitRound heap now).1.toList (s.admitRound heap now).2.1.queue := by
  rcases s.admitRound_eq heap now with ⟨_,heq⟩ | ⟨i,hc,heq⟩
  · rw [heq]
    exact .stay
  have hi : i ∈ s.queue.waiting := candidate_mem hc
  have hqueue := tryAllocate_queue { s with queue := (s.queue.remove i).2 } i (heap i) now
  rw [heq,tryTaken]
  rcases htry : tryAllocate { s with queue := (s.queue.remove i).2 } i (heap i) now with ⟨ok,t,seq⟩
  rw [htry] at hqueue
  simp only at hqueue
  cases ok with
  | true =>
    simp only [hqueue]
    exact .leave hi
  | false =>
    simp only [hqueue]
    exact .putBack hi

theorem admitLoop_kept (now : ℕ → ℕ) (room : ℕ) (heap : Heap P L) (h : s.queue.Kept maxWaiting accepted returned) :
    (admitLoop now room s heap).2.1.queue.Kept maxWaiting accepted
      (returned ++ (admitLoop now room s heap).1) := by
  induction room generalizing s heap returned with
  | zero =>
    rw [admitLoop,List.append_nil]
    exact h
  | succ room ih =>
    have hround := h.move (s.admitRound_move heap (now room)) (by simp)
    unfold admitLoop
    rcases heq : s.admitRound heap (now room) with ⟨_ | i,t,heap'⟩
    · simpa [heq] using hround
    · rw [heq,List.append_nil] at hround
      simpa using ih heap' hround

end Scheduler

/-- How a sequence came out of the queue. -/
inductive QueueExit
  | admitted
  | removed
  | popped
  deriving DecidableEq, Repr

/-- A scheduler with what its queue has accepted and returned. -/
structure QueueLog (P L : Type) where
  scheduler : Scheduler P L
  heap : Heap P L
  accepted : List SeqId := []
  returned : List (QueueExit × SeqId) := []

namespace QueueLog

abbrev Raising (P L : Type) := EStateM SubmitError (QueueLog P L)

def setQueue (s : QueueLog P L) (queue : RequestQueue) : QueueLog P L :=
  { s with scheduler := { s.scheduler with queue := queue } }

def setSequence (s : QueueLog P L) (i : SeqId) (seq : Sequence P L) : QueueLog P L :=
  { s with heap := Function.update s.heap i seq }

/-- `try_enqueue`, one statement after the other. -/
def tryEnqueue (i : SeqId) : Raising P L Bool := do
  let s ← get
  if s.scheduler.queue.maxWaiting ≤ s.scheduler.queue.waiting.length then
    return false
  modify (fun s => s.setSequence i { s.heap i with status := .waiting })
  modify (fun s => s.setQueue { s.scheduler.queue with waiting := s.scheduler.queue.waiting ++ [i] })
  modify (fun s => s.setQueue { s.scheduler.queue with event := true })
  return true

/-- `Scheduler.submit`, one statement after the other. -/
def submitting (i : SeqId) : Raising P L Unit := do
  let s ← get
  if let some pool := s.scheduler.pool then
    let needed := pool.blocksNeeded (s.scheduler.needTokens (s.heap i))
    if needed > pool.numBlocks then
      throw (.requestTooLarge s!"request needs {needed} KV blocks but pool has {pool.numBlocks}")
  let enqueued ← tryEnqueue i
  if !enqueued then
    throw (.queueFull s!"waiting queue is full ({s.scheduler.queue.maxWaiting})")

theorem run_tryEnqueue (s : QueueLog P L) (i : SeqId) :
    (tryEnqueue i).run s = match s.scheduler.queue.tryEnqueue i with
      | none => .ok false s
      | some queue => .ok true ((s.setSequence i { s.heap i with status := .waiting }).setQueue queue) := by
  unfold tryEnqueue RequestQueue.tryEnqueue
  simp only [EStateM.run_bind,EStateM.run_get]
  by_cases hfull : s.scheduler.queue.maxWaiting ≤ s.scheduler.queue.waiting.length
  · simp only [if_pos hfull,EStateM.run_pure]
  · simp only [if_neg hfull,EStateM.run_bind,EStateM.run_modify,EStateM.run_pure]
    rfl

/-- The statements do what `Scheduler.submit` says, and raise before they have
written anything. -/
theorem run_submitting (s : QueueLog P L) (i : SeqId) :
    (∃ e, s.scheduler.submit i (s.heap i) = .error e ∧ (submitting i).run s = .error e s) ∨
    ∃ scheduler seq, s.scheduler.submit i (s.heap i) = .ok (scheduler,seq) ∧
      (submitting i).run s = .ok () { s.setSequence i seq with scheduler := scheduler } := by
  have henqueue := run_tryEnqueue s i
  have hrun : (submitting i).run s = (s.scheduler.tooLarge (s.heap i)).elim
      (match s.scheduler.queue.tryEnqueue i with
        | none => .error (.queueFull s!"waiting queue is full ({s.scheduler.queue.maxWaiting})") s
        | some queue => .ok () ((s.setSequence i { s.heap i with status := .waiting }).setQueue queue))
      (fun e => .error e s) := by
    unfold submitting Scheduler.tooLarge
    simp only [EStateM.run_bind,EStateM.run_get]
    cases s.scheduler.pool with
    | none =>
      simp only [EStateM.run_bind,henqueue]
      cases s.scheduler.queue.tryEnqueue i with
      | none => rfl
      | some queue => rfl
    | some pool =>
      simp only
      split
      · rfl
      · simp only [EStateM.run_bind,henqueue]
        cases s.scheduler.queue.tryEnqueue i with
        | none => rfl
        | some queue => rfl
  rw [hrun,Scheduler.submit]
  cases s.scheduler.tooLarge (s.heap i) with
  | some e => exact Or.inl ⟨e,rfl,rfl⟩
  | none =>
    cases s.scheduler.queue.tryEnqueue i with
    | none => exact Or.inl ⟨_,rfl,rfl⟩
    | some queue => exact Or.inr ⟨_,_,rfl,rfl⟩

def submit (s : QueueLog P L) (i : SeqId) (seq : Sequence P L) : EStateM.Result SubmitError (QueueLog P L) Unit :=
  (submitting i).run (s.setSequence i seq)

/-- Nothing has been accepted, and nothing has set the event. -/
structure Start (s : QueueLog P L) : Prop where
  waiting : s.scheduler.queue.waiting = []
  event : s.scheduler.queue.event = false
  accepted : s.accepted = []
  returned : s.returned = []

def Kept (maxWaiting : ℕ) (s : QueueLog P L) : Prop :=
  s.scheduler.queue.Kept maxWaiting s.accepted (s.returned.map Prod.snd)

theorem submit_cases (s : QueueLog P L) (i : SeqId) (seq : Sequence P L) :
    (∃ e t, s.submit i seq = .error e t ∧ t.scheduler = s.scheduler ∧ t.accepted = s.accepted ∧
      t.returned = s.returned) ∨
    ∃ queue t, s.scheduler.queue.tryEnqueue i = some queue ∧ s.submit i seq = .ok () t ∧
      t.scheduler.queue = queue ∧ t.accepted = s.accepted ∧ t.returned = s.returned := by
  rcases run_submitting (s.setSequence i seq) i with ⟨e,_,hrun⟩ | ⟨scheduler,seq',hok,hrun⟩
  · exact Or.inl ⟨e,_,hrun,rfl,rfl,rfl⟩
  · rcases (s.setSequence i seq).scheduler.submit_cases i ((s.setSequence i seq).heap i) with
      ⟨e,heq⟩ | ⟨queue,hq,heq⟩
    · rw [hok] at heq
      cases heq
    · rw [hok] at heq
      cases heq
      exact Or.inr ⟨queue,_,hq,hrun,rfl,rfl,rfl⟩

end QueueLog

/-- The operations of the queue, as the code composes them. -/
inductive QueueCall (P L : Type)
  | submit (i : SeqId) (seq : Sequence P L)
  | admitRequests (runningCount : ℕ) (now : ℕ → ℕ)
  | remove (i : SeqId)
  | popOne
  /-- Whatever else happens to the pool, the prefix cache and the sequences. -/
  | elsewhere (scheduler : Scheduler P L) (heap : Heap P L)

namespace QueueCall

def apply : QueueCall P L → QueueLog P L → QueueLog P L
  | .submit i seq, s =>
    match s.submit i seq with
    | .error _ s => s
    | .ok _ s => { s with accepted := s.accepted ++ [i] }
  | .admitRequests runningCount now, s =>
    let (ids,scheduler,heap) := s.scheduler.admitRequests s.heap runningCount now
    { s with scheduler := scheduler, heap := heap, returned := s.returned ++ ids.map (Prod.mk .admitted) }
  | .remove i, s =>
    let (found,queue) := s.scheduler.queue.remove i
    { s.setQueue queue with returned := s.returned ++ if found then [(.removed,i)] else [] }
  | .popOne, s =>
    match s.scheduler.queue.popOne with
    | (none,queue) => s.setQueue queue
    | (some i,queue) => { s.setQueue queue with returned := s.returned ++ [(.popped,i)] }
  | .elsewhere scheduler heap, s => { s with scheduler := scheduler, heap := heap }

/-- Every sequence is accepted once, and what happens elsewhere leaves the queue alone. -/
def Allowed : QueueCall P L → QueueLog P L → Prop
  | .submit i _, s => i ∉ s.accepted
  | .elsewhere scheduler _, s => scheduler.queue = s.scheduler.queue
  | _, _ => True

def Step (call : QueueCall P L) (s t : QueueLog P L) : Prop := call.Allowed s ∧ t = call.apply s

variable {call : QueueCall P L} {s t : QueueLog P L} {maxWaiting : ℕ}

theorem Step.kept (h : call.Step s t) (hs : s.Kept maxWaiting) : t.Kept maxWaiting := by
  obtain ⟨hallowed,rfl⟩ := h
  cases call with
  | submit i seq =>
    rcases s.submit_cases i seq with ⟨e,t,heq,hsch,hacc,hret⟩ | ⟨queue,t,hq,heq,hsch,hacc,hret⟩
    · simp only [apply,heq,QueueLog.Kept,hsch,hacc,hret]
      exact hs
    · simp only [apply,heq,QueueLog.Kept,hsch,hacc,hret]
      exact RequestQueue.Kept.enter hs hallowed hq
  | admitRequests runningCount now =>
    have hloop := Scheduler.admitLoop_kept now (s.scheduler.maxBatch - runningCount) s.heap hs
    simpa [apply,QueueLog.Kept,Scheduler.admitRequests,Function.comp_def] using hloop
  | remove i =>
    by_cases hi : i ∈ s.scheduler.queue.waiting
    · have hleave := RequestQueue.Kept.leave hs hi
      simpa [apply,QueueLog.Kept,QueueLog.setQueue,RequestQueue.remove,hi] using hleave
    · have habsent := RequestQueue.Kept.remove_of_notMem hs hi
      simpa [apply,QueueLog.Kept,QueueLog.setQueue,habsent] using hs
  | popOne =>
    rcases s.scheduler.queue.popOne_cases with ⟨_,hpop⟩ | ⟨i,hi,hpop⟩
    · simpa [apply,hpop,QueueLog.Kept,QueueLog.setQueue] using hs
    · have hleave := RequestQueue.Kept.leave hs hi
      simpa [apply,hpop,QueueLog.Kept,QueueLog.setQueue] using hleave
  | elsewhere scheduler heap =>
    have hqueue : scheduler.queue = s.scheduler.queue := hallowed
    simpa [apply,QueueLog.Kept,hqueue] using hs

end QueueCall

theorem QueueLog.Start.kept {s : QueueLog P L} (h : s.Start) : s.Kept s.scheduler.queue.maxWaiting := by
  unfold QueueLog.Kept
  rw [h.accepted,h.returned]
  exact ⟨rfl,by simp [h.waiting],by simp [h.waiting,h.event],List.nodup_nil,by simp [h.waiting]⟩

theorem QueueLog.kept_of_reaches {s t : QueueLog P L} (h0 : s.Start) (h : Reaches QueueCall.Step s t) :
    t.Kept s.scheduler.queue.maxWaiting :=
  h.invariant h0.kept (fun _ _ _ ht hstep => hstep.kept ht)

/-- In every order of the operations the event is set exactly while somebody
waits, the queue keeps to its bound and holds nobody twice, whoever has been
accepted waits or has come out once, and a submission that raises leaves the
queue, the pool and the prefix cache as they were. -/
theorem queue_loses_nobody {s t : QueueLog P L} (h0 : s.Start) (h : Reaches QueueCall.Step s t) :
    (t.scheduler.queue.event = true ↔ t.scheduler.queue.waiting ≠ []) ∧
    t.scheduler.queue.maxWaiting = s.scheduler.queue.maxWaiting ∧
    t.scheduler.queue.waiting.length ≤ t.scheduler.queue.maxWaiting ∧
    t.scheduler.queue.waiting.Nodup ∧
    (∀ i ∈ t.accepted, t.scheduler.queue.waiting.count i + (t.returned.map Prod.snd).count i = 1) ∧
    ∀ i seq e u, t.submit i seq = .error e u → u.scheduler = t.scheduler := by
  have hk := QueueLog.kept_of_reaches h0 h
  refine ⟨hk.event,hk.size,hk.size ▸ hk.bounded,hk.waiting_nodup,fun i hi => hk.count hi,?_⟩
  intro i seq e u hraise
  rcases t.submit_cases i seq with ⟨e',u',heq,hsch,_,_⟩ | ⟨_,u',_,heq,_,_,_⟩
  · rw [hraise] at heq
    cases heq
    exact hsch
  · rw [hraise] at heq
    cases heq

/-- Two places and no pool. -/
def twoPlaces : QueueLog ℕ Token where
  scheduler := { queue := { maxWaiting := 2 }, maxBatch := 4, pool := none, policy := .memoryFit, prefixCache := none }
  heap := fun _ => { promptTokenIds := [5,6], sampling := {} }

theorem twoPlaces_start : twoPlaces.Start := ⟨rfl,rfl,rfl,rfl⟩

/-- The third submission is turned away the first time. -/
def placeCalls : List (QueueCall ℕ Token) :=
  [.submit 0 (twoPlaces.heap 0),.submit 1 (twoPlaces.heap 1),.submit 2 (twoPlaces.heap 2),.admitRequests 3 id,
    .submit 2 (twoPlaces.heap 2),.remove 1,.submit 3 (twoPlaces.heap 3),.popOne]

deriving instance DecidableEq for RequestQueue

instance (call : QueueCall P L) (s : QueueLog P L) : Decidable (call.Allowed s) := by
  cases call <;> unfold QueueCall.Allowed <;> infer_instance

theorem queue_loses_nobody_twoPlaces : ∃ t : QueueLog ℕ Token, Reaches QueueCall.Step twoPlaces t ∧
    t.returned = [(.admitted,0),(.removed,1),(.popped,2)] ∧ t.scheduler.queue.waiting = [3] ∧
    t.scheduler.queue.event = true := by
  have hobs : (playAll (fun call s => if call.Allowed s then some (call.apply s) else none) placeCalls
      twoPlaces).map (fun t => (t.returned,t.scheduler.queue.waiting)) =
      some ([(.admitted,0),(.removed,1),(.popped,2)],[3]) := by decide
  obtain ⟨t,ht,hobs⟩ := Option.map_eq_some_iff.mp hobs
  simp only [Prod.mk.injEq] at hobs
  have hrun : Reaches QueueCall.Step twoPlaces t := ⟨placeCalls,playAll_allowed ht⟩
  exact ⟨t,hrun,hobs.1,hobs.2,(queue_loses_nobody twoPlaces_start hrun).1.mpr (by simp [hobs.2])⟩

end FluxEngine
