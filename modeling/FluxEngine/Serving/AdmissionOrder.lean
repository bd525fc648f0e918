import FluxEngine.Lib.Fifo
import FluxEngine.Serving.Frames

/-! # First come, first served

The calls on a scheduler in any order, with the history of its queue.  An
`admit` takes the head of the queue while it fits, and a failed allocation puts
back what it took.
-/
namespace FluxEngine
open OrderedDict Transition
variable {P L : Type}

namespace Scheduler
variable {s t : Scheduler P L} {heap heap' : Heap P L} {id : SeqId} {seq : Sequence P L}

/-- The parts of a scheduler apart from the pool and the prefix cache. -/
def desk (s : Scheduler P L) : RequestQueue × ℕ × Policy := (s.queue,s.maxBatch,s.policy)

theorem desk_lookupPrefix (tokenIds : List Token) (now : ℕ) : (s.lookupPrefix tokenIds now).2.desk = s.desk := by
  unfold lookupPrefix
  cases s.prefixCache with
  | none => rfl
  | some c => rfl

theorem desk_releasePrefix (key : Option (List Token)) : (s.releasePrefix key).desk = s.desk := by
  unfold releasePrefix
  cases s.prefixCache with
  | none => rfl
  | some c => rfl

theorem desk_tryAllocate (id : SeqId) (seq : Sequence P L) (now : ℕ) :
    (s.tryAllocate id seq now).2.1.desk = s.desk := by
  have hl := desk_lookupPrefix (s := s) seq.promptTokenIds now
  unfold tryAllocate
  rcases hlk : s.lookupPrefix seq.promptTokenIds now with ⟨hit,s₁⟩
  rw [hlk] at hl
  simp only
  cases s₁.pool with
  | none => exact hl
  | some pool =>
    simp only [BlockPool.allocate_eq]
    split
    · cases hit with
      | none => exact hl
      | some hit => exact (desk_releasePrefix (some hit.tokenIds)).trans hl
    · exact hl

theorem tryAllocate_queue (s : Scheduler P L) (id : SeqId) (seq : Sequence P L) (now : ℕ) :
    (s.tryAllocate id seq now).2.1.queue = s.queue :=
  congrArg Prod.fst (desk_tryAllocate id seq now)

def Keyed (s : Scheduler P L) : Prop := ∀ k x, s.contentAt k = some x → x.1 = k

theorem Keyed.congr (h : s.Keyed) (heq : ∀ k, t.contentAt k = s.contentAt k) : t.Keyed :=
  fun k x hx => h k x (heq k ▸ hx)

theorem allocate_of_not_fits {pool pool' : BlockPool} (hshape : pool'.shape = pool.shape)
    (hfree : pool'.free.length ≤ pool.free.length) {n : ℕ} (h : pool.canAllocate n = false) :
    pool'.allocate id seq n = none := by
  have hfull : pool'.canAllocate n = false := by
    rw [← Bool.not_eq_true,BlockPool.canAllocate_iff,not_le] at h ⊢
    rw [BlockPool.blocksNeeded_congr hshape]
    omega
  rw [BlockPool.allocate_eq,if_neg (Bool.not_eq_true _ ▸ hfull)]

theorem lookupPrefix_cases (hk : s.Keyed) (tokenIds : List Token) (now : ℕ) :
    ((s.lookupPrefix tokenIds now).1.map PrefixHit.nTokens = (s.peekPrefix tokenIds).map PrefixHit.nTokens) ∧
      ∀ pool, s.pool = some pool → ∃ pool', (s.lookupPrefix tokenIds now).2.pool = some pool' ∧
        pool'.shape = pool.shape ∧ pool'.free.length ≤ pool.free.length := by
  unfold lookupPrefix peekPrefix
  cases hc : s.prefixCache with
  | none => exact ⟨rfl,fun pool hp => ⟨pool,hp,rfl,le_rfl⟩⟩
  | some c =>
    simp only [Option.bind_some,PrefixCache.lookup]
    cases hpeek : c.peek tokenIds with
    | none => exact ⟨rfl,fun pool hp => ⟨pool,hp,rfl,le_rfl⟩⟩
    | some hit =>
      obtain ⟨e,hhit,_⟩ := PrefixCache.peek_eq_some hpeek
      have hkey : e.tokenIds = hit.tokenIds := by
        refine hk hit.tokenIds e.content ?_
        simp only [contentAt,hc,Option.bind_some,hhit.stored,Option.map_some]
      obtain ⟨ids,pins,pool',hacq,hacquires⟩ := PrefixCache.acquireBlocks_eq c s.pool e
      simp only [hhit.stored,hacq,Option.map_some,hkey,hhit.length_key,true_and]
      intro pool hp
      rw [hp] at hacquires
      cases hacquires with
      | again _ => exact ⟨pool,rfl,rfl,le_rfl⟩
      | share _ _ _ _ => exact ⟨pool,rfl,rfl,le_rfl⟩
      | short _ _ _ => exact ⟨pool,rfl,rfl,le_rfl⟩
      | reserve _ _ => exact ⟨_,rfl,rfl,by simp⟩

/-- What does not fit cannot be allocated. -/
theorem tryAllocate_of_not_fits (hk : s.Keyed) (h : s.fits seq = false) (id : SeqId) (now : ℕ) :
    (s.tryAllocate id seq now).1 = false := by
  unfold fits at h
  cases hp : s.pool with
  | none =>
    rw [hp] at h
    cases h
  | some pool =>
    simp only [hp] at h
    obtain ⟨htok,hpool⟩ := lookupPrefix_cases hk seq.promptTokenIds now
    obtain ⟨pool',hp',hshape,hfree⟩ := hpool pool hp
    unfold tryAllocate
    rcases hlk : s.lookupPrefix seq.promptTokenIds now with ⟨hit,s₁⟩
    rw [hlk] at htok hp'
    simp only at htok hp'
    cases hit with
    | none =>
      rw [Option.map_none,eq_comm,Option.map_eq_none_iff] at htok
      have hneed : s.needTokens seq = seq.reservationTokens := by
        unfold needTokens
        rw [htok]
      simp only [hp',← hneed,allocate_of_not_fits hshape hfree h]
    | some found =>
      rw [Option.map_some,eq_comm] at htok
      obtain ⟨peeked,hpeek,hn⟩ := Option.map_eq_some_iff.mp htok
      have hneed : s.needTokens seq = seq.reservationTokens - found.nTokens := by
        unfold needTokens
        rw [hpeek,← hn]
      simp only [hp',← hneed,allocate_of_not_fits hshape hfree h]

/-- The head of the queue cannot be allocated in this state. -/
def HeadBlocked (s : Scheduler P L) (heap : Heap P L) : Prop :=
  ∃ i now, s.queue.peekOne = some i ∧
    (tryAllocate { s with queue := s.queue.popOne.2 } i (heap i) now).1 = false

/-- A round finds no one, or takes the head, or stops at a head that cannot be allocated. -/
theorem fcfsRound_cases (hk : s.Keyed) (heap : Heap P L) (now : ℕ) :
    s.queue.waiting = [] ∧ s.fcfsRound heap now = (none,s,heap) ∨
    (∃ t heap', s.fcfsRound heap now = (none,t,heap') ∧ t.queue.waiting = s.queue.waiting ∧ s.HeadBlocked heap) ∨
    ∃ i t heap', s.fcfsRound heap now = (some i,t,heap') ∧ s.queue.waiting = i :: t.queue.waiting := by
  unfold fcfsRound
  cases hw : s.queue.waiting with
  | nil =>
    refine Or.inl ⟨rfl,?_⟩
    simp [RequestQueue.peekOne,hw]
  | cons i rest =>
    have hpeek : s.queue.peekOne = some i := by simp [RequestQueue.peekOne,hw]
    have hpop : s.queue.popOne.2.waiting = rest := by simp [RequestQueue.popOne,hw]
    simp only [hpeek,reduceCtorEq,false_and,false_or]
    cases hfit : s.fits (heap i) with
    | false =>
      refine Or.inl ⟨s,heap,rfl,hw,i,now,hpeek,?_⟩
      exact tryAllocate_of_not_fits (s := { s with queue := s.queue.popOne.2 }) hk hfit i now
    | true =>
      have hqueue := tryAllocate_queue { s with queue := s.queue.popOne.2 } i (heap i) now
      rcases htry : tryAllocate { s with queue := s.queue.popOne.2 } i (heap i) now with ⟨ok,t,seq⟩
      rw [htry] at hqueue
      simp only at hqueue
      simp only [if_true,tryTaken,htry]
      cases ok with
      | true => exact Or.inr ⟨i,t,_,rfl,by rw [hqueue,hpop]⟩
      | false =>
        refine Or.inl ⟨_,_,rfl,?_,i,now,hpeek,by rw [htry]⟩
        simp only [RequestQueue.pushFront,hqueue,hpop]

theorem admitRound_terms (s : Scheduler P L) (heap : Heap P L) (now : ℕ) :
    (s.admitRound heap now).2.1.maxBatch = s.maxBatch ∧ (s.admitRound heap now).2.1.policy = s.policy ∧
      ∀ k, (s.admitRound heap now).2.1.contentAt k = s.contentAt k := by
  rcases s.admitRound_eq heap now with ⟨_,heq⟩ | ⟨i,_,heq⟩
  · rw [heq]
    exact ⟨rfl,rfl,fun _ => rfl⟩
  · generalize (s.queue.remove i).2 = queue at heq
    have hdesk := desk_tryAllocate (s := { s with queue := queue }) i (heap i) now
    have hcont := contentAt_tryAllocate (s := { s with queue := queue }) i (heap i) now
    rw [heq,tryTaken]
    rcases htry : tryAllocate { s with queue := queue } i (heap i) now with ⟨ok,t,seq⟩
    rw [htry] at hdesk hcont
    have hmax : t.maxBatch = s.maxBatch := congrArg (fun d => d.2.1) hdesk
    have hpol : t.policy = s.policy := congrArg (fun d => d.2.2) hdesk
    cases ok with
    | true => exact ⟨hmax,hpol,hcont⟩
    | false => exact ⟨hmax,hpol,hcont⟩

/-- Rounds of a call that admit `ids`, one after the other. -/
inductive Rounds : Scheduler P L → Heap P L → List SeqId → Scheduler P L → Heap P L → Prop
  | nil {s : Scheduler P L} {heap : Heap P L} : Rounds s heap [] s heap
  | cons {s t u : Scheduler P L} {heap heap' heap'' : Heap P L} {now : ℕ} {i : SeqId} {ids : List SeqId} :
      s.admitRound heap now = (some i,t,heap') → Rounds t heap' ids u heap'' → Rounds s heap (i :: ids) u heap''

/-- A call with room for `room` sequences admits `ids` from the front, and stops
early only at the end of the queue or at a head that cannot be allocated. -/
structure FcfsCall (room : ℕ) (s : Scheduler P L) (heap : Heap P L) (ids : List SeqId) (t : Scheduler P L) : Prop where
  order : ids ++ t.queue.waiting = s.queue.waiting
  bounded : ids.length ≤ room
  stops : ids.length < room → t.queue.waiting = [] ∨
    ∃ s' heap', Rounds s heap ids s' heap' ∧ s'.queue.waiting = t.queue.waiting ∧ s'.HeadBlocked heap'

theorem admitLoop_terms (now : ℕ → ℕ) (room : ℕ) (s : Scheduler P L) (heap : Heap P L) :
    (admitLoop now room s heap).2.1.maxBatch = s.maxBatch ∧ (admitLoop now room s heap).2.1.policy = s.policy ∧
      ∀ k, (admitLoop now room s heap).2.1.contentAt k = s.contentAt k := by
  induction room generalizing s heap with
  | zero => exact ⟨rfl,rfl,fun _ => rfl⟩
  | succ room ih =>
    obtain ⟨hmax,hpol,hcont⟩ := s.admitRound_terms heap (now room)
    unfold admitLoop
    rcases hround : s.admitRound heap (now room) with ⟨_ | i,t,heap'⟩
    · rw [hround] at hmax hpol hcont
      exact ⟨hmax,hpol,hcont⟩
    · rw [hround] at hmax hpol hcont
      obtain ⟨hmax',hpol',hcont'⟩ := ih t heap'
      exact ⟨hmax'.trans hmax,hpol'.trans hpol,fun k => (hcont' k).trans (hcont k)⟩

theorem admitLoop_fcfs (hp : s.policy = .fcfs) (hk : s.Keyed) (now : ℕ → ℕ) (room : ℕ) (heap : Heap P L) :
    FcfsCall room s heap (admitLoop now room s heap).1 (admitLoop now room s heap).2.1 := by
  induction room generalizing s heap with
  | zero => exact ⟨rfl,le_rfl,fun h => absurd h (lt_irrefl _)⟩
  | succ room ih =>
    have hround : s.admitRound heap (now room) = s.fcfsRound heap (now room) := by
      unfold admitRound
      rw [hp]
    obtain ⟨_,hpol,hcont⟩ := s.admitRound_terms heap (now room)
    unfold admitLoop
    rcases fcfsRound_cases hk heap (now room) with
      ⟨hw,heq⟩ | ⟨t,heap',heq,hw,hblocked⟩ | ⟨i,t,heap',heq,hw⟩
    · rw [hround,heq]
      exact ⟨rfl,Nat.zero_le _,fun _ => Or.inl hw⟩
    · rw [hround,heq]
      exact ⟨hw,Nat.zero_le _,fun _ => Or.inr ⟨s,heap,.nil,hw.symm,hblocked⟩⟩
    · rw [← hround] at heq
      rw [heq] at hpol hcont ⊢
      obtain ⟨horder,hbounded,hstops⟩ := ih (hpol.trans hp) (hk.congr hcont) heap'
      refine ⟨?_,Nat.succ_le_succ hbounded,?_⟩
      · rw [hw,List.cons_append,horder]
      · intro hlt
        rcases hstops (Nat.lt_of_succ_lt_succ hlt) with hnil | ⟨s',heap'',hrounds,hw',hblocked⟩
        · exact Or.inl hnil
        · exact Or.inr ⟨s',heap'',.cons heq hrounds,hw',hblocked⟩

/-- Apply an operation of the prefix cache, if there is a cache. -/
def onCache (s : Scheduler P L)
    (f : PrefixCache P L → Option BlockPool → PrefixCache P L × Option BlockPool) : Scheduler P L :=
  match s.prefixCache with
  | none => s
  | some c => { s with prefixCache := some (f c s.pool).1, pool := (f c s.pool).2 }

theorem desk_onCache (f : PrefixCache P L → Option BlockPool → PrefixCache P L × Option BlockPool) :
    (s.onCache f).desk = s.desk := by
  unfold onCache
  cases s.prefixCache with
  | none => rfl
  | some c => rfl

theorem Keyed.onCache (h : s.Keyed) {f : PrefixCache P L → Option BlockPool → PrefixCache P L × Option BlockPool}
    (hf : ∀ c pool k e, (f c pool).1.entries.get? k = some e →
      (∃ e', c.entries.get? k = some e' ∧ e'.content = e.content) ∨ e.tokenIds = k) : (s.onCache f).Keyed := by
  unfold Scheduler.onCache
  cases hc : s.prefixCache with
  | none => exact h
  | some c =>
    intro k x hx
    obtain ⟨e,he,rfl⟩ := Option.map_eq_some_iff.mp (show ((f c s.pool).1.entries.get? k).map _ = some x from hx)
    rcases hf c s.pool k e he with ⟨e',he',hcont⟩ | hkey
    · refine h k e.content ?_
      simp only [contentAt,hc,Option.bind_some,he',Option.map_some,hcont]
    · exact hkey

end Scheduler

/-- A scheduler, the sequences, and the history of the queue. -/
structure Admissions (P L : Type) where
  scheduler : Scheduler P L
  heap : Heap P L := fun _ => {}
  accepted : List SeqId := []
  removed : List SeqId := []
  admitted : List SeqId := []

inductive SchedulerCall (P L : Type)
  | submit (i : SeqId) (prompt : List Token) (sampling : SamplingParams)
  | admitRequests (runningCount : ℕ) (now : ℕ → ℕ)
  | remove (i : SeqId)
  | free (i : SeqId)
  | insert (tokenIds : List Token) (kvCache : Option (KvCache P)) (lastLogits : Option L) (now : ℕ)
  | adopt (i : SeqId) (now : ℕ)
  | lookup (tokenIds : List Token) (now : ℕ)
  | release (key : Option (List Token))
  | evict

namespace Admissions

def history (s : Admissions P L) : Fifo.History SeqId where
  arrived := s.accepted
  removed := s.removed
  served := s.admitted
  waiting := s.scheduler.queue.waiting

/-- Nobody has been accepted, and nothing is stored. -/
structure Start (s : Admissions P L) : Prop where
  policy : s.scheduler.policy = .fcfs
  history : s.history = {}
  cache : ∀ c, s.scheduler.prefixCache = some c → c.entries = .empty

end Admissions

namespace SchedulerCall

def apply : SchedulerCall P L → Admissions P L → Admissions P L
  | .submit i prompt sampling, s =>
    match s.scheduler.submit i { promptTokenIds := prompt, sampling := sampling } with
    | .error _ => s
    | .ok (scheduler,seq) =>
      { s with scheduler := scheduler, heap := Function.update s.heap i seq, accepted := s.accepted ++ [i] }
  | .admitRequests runningCount now, s =>
    let (ids,scheduler,heap) := s.scheduler.admitRequests s.heap runningCount now
    { s with scheduler := scheduler, heap := heap, admitted := s.admitted ++ ids }
  | .remove i, s =>
    { s with
      scheduler := { s.scheduler with queue := (s.scheduler.queue.remove i).2 }
      removed := i :: s.removed }
  | .free i, s =>
    match s.scheduler.pool with
    | none => s
    | some pool =>
      { s with
        scheduler := { s.scheduler with pool := some (pool.freeSeq i (s.heap i)).1 }
        heap := Function.update s.heap i (pool.freeSeq i (s.heap i)).2 }
  | .insert tokenIds kvCache lastLogits now, s =>
    { s with scheduler := s.scheduler.onCache (fun c pool => c.insert pool tokenIds kvCache lastLogits now) }
  | .adopt i now, s =>
    match s.scheduler.prefixCache with
    | none => s
    | some c =>
      let (c,pool,seq) := c.adopt s.scheduler.pool i (s.heap i) now
      { s with
        scheduler := { s.scheduler with prefixCache := some c, pool := pool }
        heap := Function.update s.heap i seq }
  | .lookup tokenIds now, s => { s with scheduler := (s.scheduler.lookupPrefix tokenIds now).2 }
  | .release key, s => { s with scheduler := s.scheduler.releasePrefix key }
  | .evict, s => { s with scheduler := s.scheduler.onCache PrefixCache.evict }

/-- Every sequence is submitted once, and only waiting ones are removed. -/
def Allowed : SchedulerCall P L → Admissions P L → Prop
  | .submit i _ _, s => i ∉ s.accepted
  | .remove i, s => i ∈ s.scheduler.queue.waiting
  | _, _ => True

def Step (call : SchedulerCall P L) (s t : Admissions P L) : Prop := call.Allowed s ∧ t = call.apply s

variable {call : SchedulerCall P L} {s t : Admissions P L}

theorem history_eq {scheduler : Scheduler P L} {heap : Heap P L} (h : scheduler.desk = s.scheduler.desk) :
    ({ s with scheduler := scheduler, heap := heap } : Admissions P L).history = s.history := by
  have hqueue : scheduler.queue = s.scheduler.queue := congrArg Prod.fst h
  unfold Admissions.history
  rw [hqueue]

/-- The policy stays, and the store keeps to its keys. -/
structure Sane (s : Admissions P L) : Prop where
  policy : s.scheduler.policy = .fcfs
  keyed : s.scheduler.Keyed

theorem Step.sane (h : call.Step s t) (hs : Sane s) : Sane t := by
  obtain ⟨hallowed,rfl⟩ := h
  cases call with
  | submit i prompt sampling =>
    rcases s.scheduler.submit_cases i { promptTokenIds := prompt, sampling := sampling } with
      ⟨e,heq⟩ | ⟨queue,_,heq⟩
    · simp only [apply,heq]
      exact hs
    · simp only [apply,heq]
      exact ⟨hs.policy,hs.keyed⟩
  | admitRequests runningCount now =>
    obtain ⟨_,hpol,hcont⟩ :=
      Scheduler.admitLoop_terms now (s.scheduler.maxBatch - runningCount) s.scheduler s.heap
    exact ⟨hpol.trans hs.policy,hs.keyed.congr hcont⟩
  | remove i => exact ⟨hs.policy,hs.keyed⟩
  | free i =>
    cases hp : s.scheduler.pool with
    | none =>
      simp only [apply,hp]
      exact hs
    | some pool =>
      simp only [apply,hp]
      exact ⟨hs.policy,hs.keyed⟩
  | insert tokenIds kvCache lastLogits now =>
    refine ⟨(congrArg (fun d => d.2.2) (Scheduler.desk_onCache _)).trans hs.policy,hs.keyed.onCache ?_⟩
    intro c pool k e he
    cases kvCache with
    | none => exact Or.inl ⟨e,he,rfl⟩
    | some kv =>
      rcases PrefixCache.get?_insert he with hold | ⟨n,_,_,_,hk,hfresh⟩
      · exact Or.inl ⟨e,hold,rfl⟩
      · rw [hk,hfresh]
        exact Or.inr rfl
  | adopt i now =>
    cases hc : s.scheduler.prefixCache with
    | none =>
      simp only [apply,hc]
      exact hs
    | some c =>
      simp only [apply,hc]
      refine ⟨hs.policy,hs.keyed.congr ?_⟩
      intro k
      simp only [Scheduler.contentAt,hc,Option.bind_some]
      exact PrefixCache.sameContents_adopt i (s.heap i) now k
  | lookup tokenIds now =>
    exact ⟨(congrArg (fun d => d.2.2) (Scheduler.desk_lookupPrefix tokenIds now)).trans hs.policy,
      hs.keyed.congr (Scheduler.contentAt_lookupPrefix tokenIds now)⟩
  | release key =>
    exact ⟨(congrArg (fun d => d.2.2) (Scheduler.desk_releasePrefix key)).trans hs.policy,
      hs.keyed.congr (Scheduler.contentAt_releasePrefix key)⟩
  | evict =>
    refine ⟨(congrArg (fun d => d.2.2) (Scheduler.desk_onCache _)).trans hs.policy,hs.keyed.onCache ?_⟩
    exact fun c pool k e he => Or.inl ⟨e,PrefixCache.get?_evict he,rfl⟩

/-- The history of the queue changes by moves of a fair queue. -/
theorem Step.history (h : call.Step s t) (hs : Sane s) :
    t.history = s.history ∨ Fifo.Move s.history t.history := by
  obtain ⟨hallowed,rfl⟩ := h
  cases call with
  | submit i prompt sampling =>
    rcases s.scheduler.submit_cases i { promptTokenIds := prompt, sampling := sampling } with
      ⟨e,heq⟩ | ⟨queue,hqueue,heq⟩
    · refine Or.inl ?_
      simp only [apply,heq]
    · refine Or.inr (.arrive i hallowed ?_)
      simp only [apply,heq,Admissions.history,RequestQueue.tryEnqueue_waiting hqueue]
  | admitRequests runningCount now =>
    have hcall := Scheduler.admitLoop_fcfs hs.policy hs.keyed now (s.scheduler.maxBatch - runningCount) s.heap
    exact Or.inr (.serve _ _ hcall.order.symm rfl)
  | remove i => exact Or.inr (.remove i hallowed rfl)
  | free i =>
    refine Or.inl ?_
    cases hp : s.scheduler.pool with
    | none => simp only [apply,hp]
    | some pool =>
      simp only [apply,hp]
      rfl
  | insert tokenIds kvCache lastLogits now => exact Or.inl (history_eq (Scheduler.desk_onCache _))
  | adopt i now =>
    refine Or.inl ?_
    cases hc : s.scheduler.prefixCache with
    | none => simp only [apply,hc]
    | some c =>
      simp only [apply,hc]
      rfl
  | lookup tokenIds now => exact Or.inl (history_eq (Scheduler.desk_lookupPrefix tokenIds now))
  | release key => exact Or.inl (history_eq (Scheduler.desk_releasePrefix key))
  | evict => exact Or.inl (history_eq (Scheduler.desk_onCache _))

end SchedulerCall

theorem Admissions.Start.sane {s : Admissions P L} (h : s.Start) : SchedulerCall.Sane s := by
  refine ⟨h.policy,?_⟩
  intro k x hx
  obtain ⟨c,hc,hx⟩ := Option.bind_eq_some_iff.mp hx
  rw [h.cache c hc] at hx
  cases hx

/-- Over any run of calls the admitted are the accepted in order, the removed left
out, followed by the waiting; and every further `admit` takes a front of the queue. -/
theorem fcfs_in_order {s₀ s : Admissions P L} (h0 : s₀.Start) (hr : Reaches SchedulerCall.Step s₀ s) :
    s.admitted ++ s.scheduler.queue.waiting = s.accepted.filter (fun i => i ∉ s.removed) ∧
    ∀ runningCount now ids t heap, s.scheduler.admitRequests s.heap runningCount now = (ids,t,heap) →
      Scheduler.FcfsCall (s.scheduler.maxBatch - runningCount) s.scheduler s.heap ids t := by
  have hboth : SchedulerCall.Sane s ∧ Fifo.Fair s.history := by
    refine hr.invariant (P := fun s => SchedulerCall.Sane s ∧ Fifo.Fair s.history) ⟨h0.sane,?_⟩ ?_
    · rw [h0.history]
      exact Fifo.fair_empty
    · rintro call t u ⟨hsane,hfair⟩ hst
      refine ⟨hst.sane hsane,?_⟩
      rcases hst.history hsane with heq | hmove
      · rw [heq]
        exact hfair
      · exact hmove.fair hfair
  refine ⟨hboth.2.order,?_⟩
  rintro runningCount now ids t heap hcall
  have h := Scheduler.admitLoop_fcfs hboth.1.policy hboth.1.keyed now (s.scheduler.maxBatch - runningCount) s.heap
  unfold Scheduler.admitRequests at hcall
  rw [hcall] at h
  exact h

/-- Six blocks of one token, so that two requests of four tokens do not fit together. -/
def tightDesk : Admissions ℕ Token where
  scheduler :=
    { queue := { maxWaiting := 4 }, maxBatch := 4, policy := .fcfs
      pool := some ⟨6,1,List.range 6,.empty,.empty,by decide,Nat.one_pos⟩
      prefixCache := some (.init 8 2 1 Nat.one_pos) }

theorem tightDesk_start : tightDesk.Start := by
  refine ⟨rfl,rfl,?_⟩
  rintro _ ⟨⟩
  rfl

def fourTokens (i : SeqId) : SchedulerCall ℕ Token := .submit i [5,6] { maxTokens := 2 }

/-- Three requests, of which the second is withdrawn, and an `admit`. -/
def deskCalls : List (SchedulerCall ℕ Token) :=
  [fourTokens 0,fourTokens 1,fourTokens 2,.remove 1,.admitRequests 0 id]

instance (call : SchedulerCall P L) (s : Admissions P L) : Decidable (call.Allowed s) := by
  cases call <;> unfold SchedulerCall.Allowed <;> infer_instance

theorem fcfs_in_order_tight : ∃ s : Admissions ℕ Token, Reaches SchedulerCall.Step tightDesk s ∧
    s.admitted = [0] ∧ s.scheduler.queue.waiting = [2] ∧
    s.admitted ++ s.scheduler.queue.waiting = s.accepted.filter (fun i => i ∉ s.removed) := by
  have hobs : (playAll (fun call s => if call.Allowed s then some (call.apply s) else none) deskCalls
      tightDesk).map (fun s => (s.admitted,s.scheduler.queue.waiting)) = some ([0],[2]) := by decide
  obtain ⟨s,hs,hobs⟩ := Option.map_eq_some_iff.mp hobs
  simp only [Prod.mk.injEq] at hobs
  have hrun : Reaches SchedulerCall.Step tightDesk s := ⟨deskCalls,playAll_allowed hs⟩
  exact ⟨s,hrun,hobs.1,hobs.2,(fcfs_in_order tightDesk_start hrun).1⟩

end FluxEngine
