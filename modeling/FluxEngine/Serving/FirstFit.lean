import FluxEngine.Serving.AdmissionOrder
import FluxEngine.Serving.LookupCounters
import FluxEngine.Serving.Progress

/-! # First fit

The reference admits the first waiter that can be allocated.  `_admit_memory_fit`
chooses with `_fits`, which does not count the blocks that a lookup reserves for
a stored prefix before the allocation.
-/
namespace FluxEngine
open OrderedDict Transition
variable {P L : Type}

namespace Scheduler
variable {s t : Scheduler P L} {heap heap' : Heap P L} {seq : Sequence P L} {i : SeqId}

/-- The blocks that a lookup takes out of the pool: those of the stored prefix, when
it is not in use, no live entry shares it, and the pool has them. -/
def prefixCharge (s : Scheduler P L) (tokenIds : List Token) : ℕ :=
  match s.prefixCache, s.pool with
  | some c, some p =>
    match c.peek tokenIds with
    | none => 0
    | some hit =>
      match c.entries.get? hit.tokenIds with
      | none => 0
      | some e =>
        if 0 < e.refs ∨ (c.shareFromLive (some p) hit.tokenIds).isSome ∨ p.canAllocate hit.nTokens = false then 0
        else p.blocksNeeded hit.nTokens
  | _, _ => 0

/-- The pool holds the rest of the request beside what the lookup takes. -/
def Allocatable (s : Scheduler P L) (seq : Sequence P L) : Prop :=
  ∀ p, s.pool = some p → s.prefixCharge seq.promptTokenIds + p.blocksNeeded (s.needTokens seq) ≤ p.freeBlocks

theorem prefixCharge_eq {c : PrefixCache P L} {p : BlockPool} {hit : PrefixHit P L} {e : PrefixEntry P L}
    {tokenIds : List Token} (hc : s.prefixCache = some c) (hp : s.pool = some p) (hpeek : c.peek tokenIds = some hit)
    (hstored : c.entries.get? hit.tokenIds = some e) (hkey : e.tokenIds = hit.tokenIds)
    (hlen : hit.tokenIds.length = hit.nTokens) : s.prefixCharge tokenIds = c.acquisitionCost p e := by
  simp only [prefixCharge,PrefixCache.acquisitionCost,hc,hp,hpeek,hstored,hkey,hlen,Bool.not_eq_true]

theorem lookupPrefix_charge (hk : s.Keyed) {p : BlockPool} (hp : s.pool = some p) (tokenIds : List Token) (now : ℕ) :
    ∃ p', (s.lookupPrefix tokenIds now).2.pool = some p' ∧ p'.shape = p.shape ∧
      p'.freeBlocks + s.prefixCharge tokenIds = p.freeBlocks := by
  cases hc : s.prefixCache with
  | none =>
    refine ⟨p,?_,rfl,?_⟩
    · simp only [lookupPrefix,hc,hp]
    · simp only [prefixCharge,hc,Nat.add_zero]
  | some c =>
    cases hpeek : c.peek tokenIds with
    | none =>
      refine ⟨p,?_,rfl,?_⟩
      · simp only [lookupPrefix,hc,PrefixCache.lookup,hpeek,hp]
      · simp only [prefixCharge,hc,hp,hpeek,Nat.add_zero]
    | some hit =>
      obtain ⟨e,hhit,_⟩ := PrefixCache.peek_eq_some hpeek
      have hkey : e.tokenIds = hit.tokenIds := by
        refine hk hit.tokenIds e.content ?_
        simp only [contentAt,hc,Option.bind_some,hhit.stored,Option.map_some]
      have hle := c.acquisitionCost_le (p := p) e
      refine ⟨{ p with free := p.free.drop (c.acquisitionCost p e) },?_,rfl,?_⟩
      · simp only [lookupPrefix,hc,PrefixCache.lookup,hpeek,hhit.stored,hp]
        exact PrefixCache.acquireBlocks_pool e
      · rw [prefixCharge_eq hc hp hpeek hhit.stored hkey hhit.length_key]
        simp only [BlockPool.freeBlocks,List.length_drop]
        omega

theorem lookupPrefix_unpooled (hp : s.pool = none) (tokenIds : List Token) (now : ℕ) :
    (s.lookupPrefix tokenIds now).2.pool = none := by
  unfold lookupPrefix
  cases hc : s.prefixCache with
  | none => exact hp
  | some c =>
    simp only [PrefixCache.lookup,hp]
    cases c.peek tokenIds with
    | none => rfl
    | some hit =>
      simp only
      cases c.entries.get? hit.tokenIds with
      | none => rfl
      | some e => rfl

/-- An allocation succeeds exactly when the pool holds both parts. -/
theorem tryAllocate_iff (hk : s.Keyed) (id : SeqId) (seq : Sequence P L) (now : ℕ) :
    (s.tryAllocate id seq now).1 = true ↔ s.Allocatable seq := by
  rw [tryAllocate_fst]
  unfold Allocatable
  cases hp : s.pool with
  | none => simp [lookupPrefix_unpooled hp]
  | some p =>
    obtain ⟨p',hp',hshape,hfree⟩ := lookupPrefix_charge hk hp seq.promptTokenIds now
    have htokens := (lookupPrefix_cases hk seq.promptTokenIds now).1
    have hfreeIff : ∀ n, p'.canAllocate n = true ↔
        s.prefixCharge seq.promptTokenIds + p.blocksNeeded n ≤ p.freeBlocks := by
      intro n
      rw [BlockPool.canAllocate_iff,BlockPool.blocksNeeded_congr hshape]
      unfold BlockPool.freeBlocks at hfree ⊢
      omega
    simp only [hp',Option.some.injEq,forall_eq']
    cases hfound : (s.lookupPrefix seq.promptTokenIds now).1 with
    | none =>
      rw [hfound,Option.map_none,eq_comm,Option.map_eq_none_iff] at htokens
      have hneed : s.needTokens seq = seq.reservationTokens := by
        unfold needTokens
        rw [htokens]
      rw [hneed]
      exact hfreeIff _
    | some found =>
      rw [hfound,Option.map_some,eq_comm] at htokens
      obtain ⟨hit,hpeek,hn⟩ := Option.map_eq_some_iff.mp htokens
      have hneed : s.needTokens seq = seq.reservationTokens - found.nTokens := by
        unfold needTokens
        rw [hpeek,← hn]
      rw [hneed]
      exact hfreeIff _

theorem Allocatable.fits (h : s.Allocatable seq) : s.fits seq = true := by
  unfold Scheduler.fits
  cases hp : s.pool with
  | none => rfl
  | some p =>
    have hle := h p hp
    refine BlockPool.canAllocate_iff.mpr ?_
    unfold BlockPool.freeBlocks at hle
    omega

/-- One round of the reference; no id means that it stops. -/
def firstFitRound (s : Scheduler P L) (heap : Heap P L) (now : ℕ) : Option SeqId × Scheduler P L × Heap P L :=
  match s.queue.waiting.find? (fun i => (s.tryAllocate i (heap i) now).1) with
  | none => (none,s,heap)
  | some i =>
    let (_,t,seq) := tryAllocate { s with queue := (s.queue.remove i).2 } i (heap i) now
    (some i,t,Function.update heap i seq)

def firstFitLoop (now : ℕ → ℕ) : ℕ → Scheduler P L → Heap P L → List SeqId × Scheduler P L × Heap P L
  | 0, s, heap => ([],s,heap)
  | room+1, s, heap =>
    match s.firstFitRound heap (now room) with
    | (none,s,heap) => ([],s,heap)
    | (some id,s,heap) =>
      let (admitted,s,heap) := firstFitLoop now room s heap
      (id :: admitted,s,heap)

theorem firstFitRound_cases (hk : s.Keyed) (heap : Heap P L) (now : ℕ) :
    (s.firstFitRound heap now = (none,s,heap) ∧ ∀ j ∈ s.queue.waiting, ¬ s.Allocatable (heap j)) ∨
    ∃ front i rest t heap', s.firstFitRound heap now = (some i,t,heap') ∧ s.queue.waiting = front ++ i :: rest ∧
      (∀ j ∈ front, ¬ s.Allocatable (heap j)) ∧ s.Allocatable (heap i) ∧
      t.queue.waiting = s.queue.waiting.erase i ∧ t.policy = s.policy ∧ t.Keyed := by
  unfold firstFitRound
  cases hfind : s.queue.waiting.find? (fun i => (s.tryAllocate i (heap i) now).1) with
  | none =>
    refine Or.inl ⟨rfl,?_⟩
    intro j hj
    rw [← tryAllocate_iff hk j (heap j) now]
    exact List.find?_eq_none.mp hfind j hj
  | some i =>
    obtain ⟨hi,front,rest,hw,hfront⟩ := List.find?_eq_some_iff_append.mp hfind
    have hdesk := desk_tryAllocate (s := { s with queue := (s.queue.remove i).2 }) i (heap i) now
    have hcont := contentAt_tryAllocate (s := { s with queue := (s.queue.remove i).2 }) i (heap i) now
    refine Or.inr ⟨front,i,rest,_,_,rfl,hw,?_,(tryAllocate_iff hk i (heap i) now).mp hi,?_,?_,hk.congr hcont⟩
    · intro j hj
      rw [← tryAllocate_iff hk j (heap j) now]
      simpa using hfront j hj
    · exact congrArg (fun desk => RequestQueue.waiting desk.1) hdesk
    · exact congrArg (fun desk => desk.2.2) hdesk

theorem firstFitLoop_exhausts (hk : s.Keyed) (now : ℕ → ℕ) (room : ℕ) (heap : Heap P L)
    (h : (firstFitLoop now room s heap).1.length < room) :
    ∀ j ∈ (firstFitLoop now room s heap).2.1.queue.waiting,
      ¬ (firstFitLoop now room s heap).2.1.Allocatable ((firstFitLoop now room s heap).2.2 j) := by
  induction room generalizing s heap with
  | zero => exact absurd h (Nat.not_lt_zero _)
  | succ room ih =>
    unfold firstFitLoop at h ⊢
    rcases firstFitRound_cases hk heap (now room) with ⟨heq,hnone⟩ | ⟨_,i,_,t,heap',heq,_,_,_,_,_,hkt⟩
    · rw [heq]
      exact hnone
    · rw [heq] at h ⊢
      exact ih hkt heap' (Nat.lt_of_succ_lt_succ h)

theorem firstFitLoop_sublist (hk : s.Keyed) (now : ℕ → ℕ) (room : ℕ) (heap : Heap P L) :
    (firstFitLoop now room s heap).2.1.queue.waiting.Sublist s.queue.waiting := by
  induction room generalizing s heap with
  | zero => exact List.Sublist.refl _
  | succ room ih =>
    unfold firstFitLoop
    rcases firstFitRound_cases hk heap (now room) with ⟨heq,_⟩ | ⟨_,i,_,t,heap',heq,_,_,_,hw,_,hkt⟩
    · rw [heq]
    · rw [heq]
      have hrest := ih hkt heap'
      rw [hw] at hrest
      exact hrest.trans List.erase_sublist

theorem tryAllocate_taken (hk : s.Keyed) (queue : RequestQueue) (i : SeqId) (heap : Heap P L) (now : ℕ) :
    (tryAllocate { s with queue := queue } i (heap i) now).1 = true ↔ s.Allocatable (heap i) :=
  tryAllocate_iff (s := { s with queue := queue }) hk i (heap i) now

/-- A round of `_admit_memory_fit` is one of the reference, or its choice cannot be
allocated, goes to the front of the queue and ends the call. -/
theorem memoryFitRound_cases (hk : s.Keyed) (heap : Heap P L) (now : ℕ) :
    (s.memoryFitRound heap now = s.firstFitRound heap now ∧
      ∀ i, s.queue.waiting.find? (fun i => s.fits (heap i)) = some i → s.Allocatable (heap i)) ∨
    ∃ i t heap', s.queue.waiting.find? (fun i => s.fits (heap i)) = some i ∧ ¬ s.Allocatable (heap i) ∧
      s.memoryFitRound heap now = (none,t,heap') ∧ t.queue.waiting = i :: s.queue.waiting.erase i := by
  have hnot : ∀ j, s.fits (heap j) = false → (s.tryAllocate j (heap j) now).1 = false := by
    intro j hj
    exact tryAllocate_of_not_fits hk hj j now
  unfold memoryFitRound
  cases hfind : s.queue.waiting.find? (fun i => s.fits (heap i)) with
  | none =>
    refine Or.inl ⟨?_,by simp⟩
    have hnone : s.queue.waiting.find? (fun i => (s.tryAllocate i (heap i) now).1) = none := by
      rw [List.find?_eq_none] at hfind ⊢
      intro j hj
      rw [hnot j (by simpa using hfind j hj)]
      exact Bool.false_ne_true
    simp only [firstFitRound,hnone]
  | some i =>
    obtain ⟨_,front,rest,hw,hfront⟩ := List.find?_eq_some_iff_append.mp hfind
    by_cases halloc : s.Allocatable (heap i)
    · refine Or.inl ⟨?_,?_⟩
      · have hfirst : s.queue.waiting.find? (fun i => (s.tryAllocate i (heap i) now).1) = some i := by
          rw [List.find?_eq_some_iff_append]
          refine ⟨(tryAllocate_iff hk i (heap i) now).mpr halloc,front,rest,hw,?_⟩
          intro j hj
          rw [hnot j (by simpa using hfront j hj)]
          rfl
        have htaken := (tryAllocate_taken hk (s.queue.remove i).2 i heap now).mpr halloc
        simp only [firstFitRound,hfirst,tryTaken]
        rcases htry : tryAllocate { s with queue := (s.queue.remove i).2 } i (heap i) now with ⟨ok,t,seq⟩
        rw [htry] at htaken
        cases htaken
        rfl
      · intro j hj
        cases hj
        exact halloc
    · have htaken := mt (tryAllocate_taken hk (s.queue.remove i).2 i heap now).mp halloc
      have hdesk := desk_tryAllocate (s := { s with queue := (s.queue.remove i).2 }) i (heap i) now
      simp only [tryTaken]
      rcases htry : tryAllocate { s with queue := (s.queue.remove i).2 } i (heap i) now with ⟨ok,t,seq⟩
      rw [htry] at htaken hdesk
      have hqueue : t.queue = (s.queue.remove i).2 := congrArg Prod.fst hdesk
      cases ok with
      | true => exact absurd rfl htaken
      | false =>
        refine Or.inr ⟨i,_,_,rfl,halloc,rfl,?_⟩
        simp only [RequestQueue.pushFront,hqueue,RequestQueue.remove]

theorem memoryFitRound_some {now : ℕ} (h : s.memoryFitRound heap now = (some i,t,heap')) :
    s.queue.waiting.find? (fun i => s.fits (heap i)) = some i := by
  unfold memoryFitRound at h
  cases hfind : s.queue.waiting.find? (fun i => s.fits (heap i)) with
  | none =>
    rw [hfind] at h
    cases h
  | some j =>
    simp only [hfind,tryTaken] at h
    rcases htry : tryAllocate { s with queue := (s.queue.remove j).2 } j (heap j) now with ⟨ok,u,seq⟩
    rw [htry] at h
    cases ok with
    | true =>
      cases h
      rfl
    | false => cases h

/-- In every round the first waiter that `_fits` can be allocated; or it is the head
of the queue, and nobody can. -/
def Foresees (now : ℕ → ℕ) : ℕ → Scheduler P L → Heap P L → Prop
  | 0, _, _ => True
  | room+1, s, heap => ∀ i, s.queue.waiting.find? (fun i => s.fits (heap i)) = some i →
      (s.Allocatable (heap i) →
        Foresees now room (s.firstFitRound heap (now room)).2.1 (s.firstFitRound heap (now room)).2.2) ∧
      (¬ s.Allocatable (heap i) → s.queue.peekOne = some i ∧ ∀ j ∈ s.queue.waiting, ¬ s.Allocatable (heap j))

theorem erase_front_eq_iff {w : List SeqId} (hi : i ∈ w) : i :: w.erase i = w ↔ w.head? = some i := by
  cases w with
  | nil => cases hi
  | cons x rest =>
    by_cases hx : x = i
    · subst hx
      simp
    · simp [hx,Ne.symm hx]

/-- The same sequences are admitted, and the same wait, in the same order. -/
def SameAdmissions (r r' : List SeqId × Scheduler P L × Heap P L) : Prop :=
  r.1 = r'.1 ∧ r.2.1.queue.waiting = r'.2.1.queue.waiting

/-- By induction on the rounds that are left; a round of the code that is none of the
reference is the last. -/
theorem admitLoop_firstFit_iff (hk : s.Keyed) (hp : s.policy = .memoryFit) (now : ℕ → ℕ) (room : ℕ) (heap : Heap P L) :
    SameAdmissions (admitLoop now room s heap) (firstFitLoop now room s heap) ↔ Foresees now room s heap := by
  induction room generalizing s heap with
  | zero => simp [admitLoop,firstFitLoop,Foresees,SameAdmissions]
  | succ room ih =>
    have hround : s.admitRound heap (now room) = s.memoryFitRound heap (now room) := by
      unfold admitRound
      rw [hp]
    unfold Foresees admitLoop firstFitLoop
    rw [hround]
    rcases memoryFitRound_cases hk heap (now room) with ⟨hsame,halloc⟩ | ⟨i,t,heap',hfind,hnot,heq,hwait⟩
    · rcases firstFitRound_cases hk heap (now room) with ⟨hfirst,hnone⟩ | ⟨_,i,_,t,heap',hfirst,_,_,_,_,hpt,hkt⟩
      · rw [hsame,hfirst]
        refine iff_of_true ⟨rfl,rfl⟩ ?_
        intro i hi
        exact absurd (halloc i hi) (hnone i (List.mem_of_find?_eq_some hi))
      · have hfind := memoryFitRound_some (hsame.trans hfirst)
        rw [hsame,hfirst]
        simp only [hfind,Option.some.injEq,forall_eq']
        have hrest := ih hkt (hpt.trans hp) heap'
        unfold SameAdmissions at hrest ⊢
        simp only [List.cons.injEq,true_and]
        rw [hrest]
        have hi := halloc i hfind
        exact ⟨fun h => ⟨fun _ => h,fun hnot => absurd hi hnot⟩,fun h => h.1 hi⟩
    · have hmem : i ∈ s.queue.waiting := List.mem_of_find?_eq_some hfind
      rw [heq]
      simp only [hfind,Option.some.injEq,forall_eq']
      rcases firstFitRound_cases hk heap (now room) with
        ⟨hfirst,hnone⟩ | ⟨front,j,rest,t',heap'',hfirst,hw,_,hj,_,_,_⟩
      · rw [hfirst]
        unfold SameAdmissions
        simp only [true_and,hwait,erase_front_eq_iff hmem]
        exact ⟨fun hhead => ⟨fun h => absurd h hnot,fun _ => ⟨hhead,hnone⟩⟩,fun h => (h.2 hnot).1⟩
      · rw [hfirst]
        refine iff_of_false ?_ ?_
        · intro h
          exact absurd h.1 (by simp)
        · intro h
          have hjmem : j ∈ s.queue.waiting := by
            rw [hw]
            exact List.mem_append_right _ List.mem_cons_self
          exact (h.2 hnot).2 j hjmem hj

end Scheduler

variable [Inhabited P] [Inhabited L] {eng : CachedEngine P L}

theorem Scheduler.keyed_of_reachable {s : System P L} (h : Reachable eng s) : s.scheduler.Keyed := by
  have hb := (books_of_reachable h).books
  intro k x hx
  obtain ⟨c,hc,hx⟩ := Option.bind_eq_some_iff.mp hx
  obtain ⟨e,he,rfl⟩ := Option.map_eq_some_iff.mp hx
  unfold Scheduler.Books at hb
  rw [hc] at hb
  exact (hb.keyed k e he).1

/-- `admit` under `memory_fit` is first-fit exactly where it foresees every
allocation that it tries. -/
theorem memory_fit_first_fit_iff {s : System P L} (h : Reachable eng s) (hp : s.scheduler.policy = .memoryFit)
    (runningCount : ℕ) (now : ℕ → ℕ) :
    Scheduler.SameAdmissions (s.scheduler.admitRequests s.heap runningCount now)
        (Scheduler.firstFitLoop now (s.scheduler.maxBatch - runningCount) s.scheduler s.heap) ↔
      Scheduler.Foresees now (s.scheduler.maxBatch - runningCount) s.scheduler s.heap :=
  Scheduler.admitLoop_firstFit_iff (Scheduler.keyed_of_reachable h) hp now _ s.heap

def memorySystem : System ℕ Token :=
  { smallSystem with scheduler := { smallSystem.scheduler with policy := .memoryFit } }

theorem memorySystem_initial : memorySystem.Initial :=
  .of_some rfl rfl rfl rfl rfl rfl rfl rfl (fun _ => rfl)

/-- A request that does not fit behind one that does: the first is admitted, the
second left. -/
theorem memory_fit_first_fit_iff_two :
    Scheduler.Foresees (fun _ => 0) 4
      (((memorySystem.submit 0 [5,6] oneToken).submit 1 [5,6] oneToken)).scheduler
      (((memorySystem.submit 0 [5,6] oneToken).submit 1 [5,6] oneToken)).heap := by
  have hreach : Reachable (FakeLm.engine {}) ((memorySystem.submit 0 [5,6] oneToken).submit 1 [5,6] oneToken) :=
    ⟨memorySystem,memorySystem_initial,
      ((Reaches.refl _).tail (.submit [5,6] oneToken (by decide))).tail (.submit [5,6] oneToken (by decide))⟩
  exact (memory_fit_first_fit_iff hreach rfl 0 (fun _ => 0)).mp ⟨by decide,by decide⟩

/-- One request on the stored prefix of another, which takes the blocks that are left
for it, and a small one behind. -/
def shadowedRun : List Event := stalledRun ++ [.submit 2 [7] oneToken]

theorem shadowedRun_admits :
    (execAll (FakeLm.engine {}) shadowedRun memorySystem).map (fun s =>
      (s.scheduler.policy,(s.scheduler.admitRequests s.heap 0 (fun _ => 0)).1,
        (Scheduler.firstFitLoop (fun _ => 0) (s.scheduler.maxBatch - 0) s.scheduler s.heap).1)) =
      some (.memoryFit,[],[2]) := by decide

/-- The small request fits, and is not admitted. -/
theorem not_memory_fit_first_fit : ¬ ∀ s, Reachable (FakeLm.engine {}) s → s.scheduler.policy = .memoryFit →
    ∀ (runningCount : ℕ) (now : ℕ → ℕ), Scheduler.SameAdmissions (s.scheduler.admitRequests s.heap runningCount now)
      (Scheduler.firstFitLoop now (s.scheduler.maxBatch - runningCount) s.scheduler s.heap) := by
  intro h
  obtain ⟨s,hs,hobs⟩ := Option.map_eq_some_iff.mp shadowedRun_admits
  simp only [Prod.mk.injEq] at hobs
  obtain ⟨hp,hcode,hfirst⟩ := hobs
  have hsame := (h s ⟨_,memorySystem_initial,_,execAll_run hs⟩ hp 0 (fun _ => 0)).1
  rw [hcode,hfirst] at hsame
  cases hsame

end FluxEngine
