import FluxEngine.Serving.Charging

/-! # Admission from an idle pool

With every block free and no reference taken, whether a round of admission
succeeds is decided by two round-ups: the blocks of the stored prefix, reserved
first, and the blocks of the rest.
-/
namespace FluxEngine
open OrderedDict Transition
variable {P L : Type}

namespace Scheduler
variable {s : Scheduler P L} {held : List Token → ℕ} {seq : Sequence P L}
variable {heap : Heap P L}

/-- The request, less the prefix it would hit, is no larger than the pool. -/
def Affordable (s : Scheduler P L) (seq : Sequence P L) : Prop :=
  ∀ p, s.pool = some p → p.blocksNeeded (s.needTokens seq) ≤ p.numBlocks

/-- An affordable request whose prefix leaves enough of the pool for the rest,
or is too large to be reserved at all. -/
def Seats (s : Scheduler P L) (seq : Sequence P L) : Prop :=
  s.Affordable seq ∧ ∀ p hit, s.pool = some p → s.peekPrefix seq.promptTokenIds = some hit →
    p.numBlocks < p.blocksNeeded hit.nTokens ∨
    p.blocksNeeded hit.nTokens + p.blocksNeeded (s.needTokens seq) ≤ p.numBlocks

/-- No block in use, no reference taken. -/
structure Idle (s : Scheduler P L) : Prop where
  blocks : ∀ p, s.pool = some p → p.usedBlocks = 0
  refs : ∀ c k e, s.prefixCache = some c → c.entries.get? k = some e → e.refs = 0

theorem Idle.free_length (h : s.Idle) (hb : s.Books False held) {p : BlockPool} (hp : s.pool = some p) :
    p.free.length = p.numBlocks := by
  have hbal := hb.balanced hp
  have hidle := hbal.idle (h.blocks p hp)
  have hperm : p.free.Perm (List.range p.numBlocks) := by
    apply List.perm_iff_count.mpr
    intro b
    have htotal := hbal.total b
    have hz := hidle b
    omega
  simpa using hperm.length_eq

theorem Idle.fits_iff (h : s.Idle) (hb : s.Books False held) : s.fits seq = true ↔ s.Affordable seq := by
  unfold fits Affordable
  cases hp : s.pool with
  | none => simp
  | some p =>
    have hlen := h.free_length hb hp
    constructor
    · rintro hc q ⟨⟩
      have hle := BlockPool.canAllocate_iff.mp hc
      omega
    · intro hle
      apply BlockPool.canAllocate_iff.mpr
      have := hle p rfl
      omega

theorem tryAllocate_fst (s : Scheduler P L) (id : SeqId) (seq : Sequence P L) (now : ℕ) :
    (s.tryAllocate id seq now).1 =
      match (s.lookupPrefix seq.promptTokenIds now).2.pool with
      | none => true
      | some p => p.canAllocate (match (s.lookupPrefix seq.promptTokenIds now).1 with
        | none => seq.reservationTokens
        | some hit => seq.reservationTokens - hit.nTokens) := by
  unfold tryAllocate
  rcases s.lookupPrefix seq.promptTokenIds now with ⟨hit,t⟩
  simp only
  cases t.pool with
  | none => rfl
  | some p =>
    simp only [BlockPool.allocate_eq]
    cases hit with
    | none =>
      simp only
      cases hc : p.canAllocate seq.reservationTokens <;> rfl
    | some hit =>
      simp only
      cases hc : p.canAllocate (seq.reservationTokens - hit.nTokens) <;> rfl

/-- What a lookup leaves of an idle pool. -/
theorem Idle.lookupPrefix (h : s.Idle) (hb : s.Books False held) {p : BlockPool} (hp : s.pool = some p)
    (tokenIds : List Token) (now : ℕ) :
    (s.peekPrefix tokenIds = none ∧ (s.lookupPrefix tokenIds now).1 = none ∧
      (s.lookupPrefix tokenIds now).2.pool = some p) ∨
    ∃ hit hit', s.peekPrefix tokenIds = some hit ∧ (s.lookupPrefix tokenIds now).1 = some hit' ∧
      hit'.nTokens = hit.nTokens ∧
      ((p.canAllocate hit.nTokens = false ∧ (s.lookupPrefix tokenIds now).2.pool = some p) ∨
        p.canAllocate hit.nTokens = true ∧ (s.lookupPrefix tokenIds now).2.pool =
          some { p with free := p.free.drop (p.blocksNeeded hit.nTokens) }) := by
  unfold Scheduler.lookupPrefix peekPrefix
  cases hc : s.prefixCache with
  | none => exact Or.inl ⟨rfl,rfl,hp⟩
  | some c =>
    have hcb : c.Books False s.pool held := by
      unfold Books at hb
      rwa [hc] at hb
    rcases hcb.lookup tokenIds now False.elim with
      ⟨hnone,h1,h2,_⟩ | ⟨hit,e,ids,pins,pool',r,hpeek,hhit,hacq,hr,h1,h2,_⟩
    · exact Or.inl ⟨hnone,h1,h2.trans hp⟩
    · have hrefs := h.refs c _ e hc hhit.stored
      have hlen : e.tokenIds.length = hit.nTokens := by
        rw [(hcb.keyed _ e hhit.stored).1]
        exact hhit.length_key
      refine Or.inr ⟨hit,{ hit with blockIds := ids },hpeek,by simp only [hr,h1],rfl,?_⟩
      simp only [hr,h2]
      rw [hp] at hacq
      cases hacq with
      | again hpos => omega
      | share h0 hj hpos hpre =>
        have := h.refs c _ _ hc hj
        omega
      | short h0 hs hcan =>
        rw [hlen] at hcan
        exact Or.inl ⟨hcan,rfl⟩
      | reserve h0 hcan =>
        rw [hlen] at hcan ⊢
        exact Or.inr ⟨hcan,rfl⟩

/-- In an idle state an allocation of an affordable request succeeds exactly if it seats. -/
theorem Idle.tryAllocate_iff (h : s.Idle) (id : SeqId) (hb : s.Books False held) (now : ℕ) (hfit : s.Affordable seq) :
    (s.tryAllocate id seq now).1 = true ↔ s.Seats seq := by
  rw [tryAllocate_fst]
  cases hp : s.pool with
  | none =>
    have hpool : (s.lookupPrefix seq.promptTokenIds now).2.pool = none := by
      have hlookup := hb.lookupPrefix seq.promptTokenIds now False.elim
      rcases hlookup with ⟨_,cache,heq,_⟩ | ⟨hit,ids,cache,pool,_,heq,hshape,_,_⟩
      · rw [heq]
        exact hp
      · rw [heq]
        simpa [hp] using hshape
    simp only [hpool,true_iff]
    exact ⟨hfit,fun p hit hp' => by rw [hp] at hp'; cases hp'⟩
  | some p =>
    have hlen := h.free_length hb hp
    have haff := hfit p hp
    unfold needTokens at haff
    rcases h.lookupPrefix hb hp seq.promptTokenIds now with
      ⟨hnone,h1,h2⟩ | ⟨hit,hit',hpeek,h1,hn,⟨hcan,h2⟩ | ⟨hcan,h2⟩⟩
    · simp only [h1,h2]
      rw [hnone] at haff
      constructor
      · intro _
        refine ⟨hfit,?_⟩
        intro q hit _ hsome
        rw [hnone] at hsome
        cases hsome
      · intro _
        apply BlockPool.canAllocate_iff.mpr
        simp only at haff
        omega
    · simp only [h1,h2,hn]
      rw [hpeek] at haff
      have hlarge : ¬p.blocksNeeded hit.nTokens ≤ p.free.length := by
        rw [← BlockPool.canAllocate_iff,hcan]
        exact Bool.false_ne_true
      constructor
      · intro _
        refine ⟨hfit,?_⟩
        intro q hit₂ hq hsome
        rw [hp] at hq
        rw [hpeek] at hsome
        cases hq
        cases hsome
        exact Or.inl (by omega)
      · intro _
        apply BlockPool.canAllocate_iff.mpr
        simp only at haff
        omega
    · simp only [h1,h2,hn]
      rw [hpeek] at haff
      have hneed : s.needTokens seq = seq.reservationTokens - hit.nTokens := by
        simp only [needTokens,hpeek]
      have hsmall := BlockPool.canAllocate_iff.mp hcan
      rw [BlockPool.canAllocate_iff,List.length_drop]
      have hbn : ∀ n, BlockPool.blocksNeeded { p with free := p.free.drop (p.blocksNeeded hit.nTokens) } n =
          p.blocksNeeded n := BlockPool.blocksNeeded_congr rfl
      rw [hbn]
      constructor
      · intro hle
        refine ⟨hfit,?_⟩
        intro q hit₂ hq hsome
        rw [hp] at hq
        rw [hpeek] at hsome
        cases hq
        cases hsome
        rw [hneed]
        exact Or.inr (by omega)
      · rintro ⟨_,hseat⟩
        have hs := hseat p hit hp hpeek
        rw [hneed] at hs
        omega

end Scheduler

namespace System
variable {s : System P L}

/-- The waiter the policy turns to, in a state where every block is free: the
head of the queue, or the first request that the pool can hold. -/
def NextSeats (s : System P L) : Prop :=
  match s.scheduler.policy with
  | .fcfs => ∃ i rest, s.waiting = i :: rest ∧ s.scheduler.Seats (s.heap i)
  | .memoryFit => ∃ front i rest, s.waiting = front ++ i :: rest ∧
      (∀ j ∈ front, ¬s.scheduler.Affordable (s.heap j)) ∧ s.scheduler.Seats (s.heap i)

theorem Books.nextSeats_iff (h : s.Books False) (hidle : s.scheduler.Idle) :
    s.NextSeats ↔ ∃ i, s.scheduler.candidate s.heap = some i ∧ s.scheduler.Seats (s.heap i) := by
  have hfits : ∀ i, s.scheduler.fits (s.heap i) = true ↔ s.scheduler.Affordable (s.heap i) :=
    fun i => hidle.fits_iff h.books
  unfold NextSeats Scheduler.candidate
  cases s.scheduler.policy with
  | fcfs =>
    simp only [RequestQueue.peekOne,Option.filter_eq_some_iff,List.head?_eq_some_iff]
    constructor
    · rintro ⟨i,rest,hw,hs⟩
      exact ⟨i,⟨⟨rest,hw⟩,(hfits i).mpr hs.1⟩,hs⟩
    · rintro ⟨i,⟨⟨rest,hw⟩,_⟩,hs⟩
      exact ⟨i,rest,hw,hs⟩
  | memoryFit =>
    simp only [List.find?_eq_some_iff_append]
    constructor
    · rintro ⟨front,i,rest,hw,hfront,hs⟩
      refine ⟨i,⟨(hfits i).mpr hs.1,front,rest,hw,?_⟩,hs⟩
      intro j hj
      have hnot := hfront j hj
      rw [← hfits j] at hnot
      simpa using hnot
    · rintro ⟨i,⟨_,front,rest,hw,hfront⟩,hs⟩
      refine ⟨front,i,rest,hw,?_,hs⟩
      intro j hj haff
      have hnot := hfront j hj
      rw [(hfits j).mpr haff] at hnot
      cases hnot

end System

variable [Inhabited P] [Inhabited L] {eng : CachedEngine P L}

/-- In a reachable idle state `admit(0)` admits someone
exactly when the waiter it turns to seats. -/
theorem admits_when_idle_iff {s : System P L} (h : Reachable eng s) (hidle : s.scheduler.Idle)
    (hbatch : 1 ≤ s.scheduler.maxBatch) (now : ℕ → ℕ) :
    (s.scheduler.admitRequests s.heap 0 now).1 ≠ [] ↔ s.NextSeats := by
  have hb := books_of_reachable h
  rw [hb.nextSeats_iff hidle]
  obtain ⟨room,hroom⟩ : ∃ room, s.scheduler.maxBatch - 0 = room + 1 :=
    ⟨s.scheduler.maxBatch - 1,by omega⟩
  unfold Scheduler.admitRequests
  rw [hroom,Scheduler.admitLoop]
  rcases s.scheduler.admitRound_eq s.heap (now room) with ⟨hnone,heq⟩ | ⟨i,hc,heq⟩
  · simp [heq,hnone]
  · generalize (s.scheduler.queue.remove i).2 = queue at heq
    have hbq : Scheduler.Books False { s.scheduler with queue := queue } s.held :=
      hb.books.setPool rfl rfl (fun p hp => hb.books.balanced hp)
    have hiq : Scheduler.Idle { s.scheduler with queue := queue } := ⟨hidle.blocks,hidle.refs⟩
    have haff := (hidle.fits_iff hb.books).mp (Scheduler.candidate_fits hc)
    have hiff := hiq.tryAllocate_iff i hbq (now room) haff
    simp only [heq,Scheduler.tryTaken,hc,Option.some.injEq,exists_eq_left']
    rcases htry : Scheduler.tryAllocate { s.scheduler with queue := queue } i (s.heap i) (now room) with
      ⟨ok,sch,seq⟩
    rw [htry] at hiff
    cases ok with
    | true =>
      simp only [ne_eq,reduceCtorEq,not_false_eq_true,true_iff]
      exact hiff.mp rfl
    | false =>
      simp only [ne_eq,not_true_eq_false,false_iff]
      intro hs
      have := hiff.mpr hs
      cases this

/-- One prompt served and stored, then a longer one submitted: reserving the
stored prefix and the rest takes one block more than there is. -/
def stalledRun : List Event := crowdedRun.take 6 ++ [.submit 1 [5,6,7] oneToken]

theorem stalledRun_admits :
    (execAll (FakeLm.engine {}) stalledRun smallSystem).map (fun s =>
      ((s.waiting,s.scheduler.maxBatch),((s.scheduler.admitRequests s.heap 0 (fun _ => 0)).1,
        (s.scheduler.pool.map BlockPool.usedBlocks,
          s.scheduler.prefixCache.map (fun c => c.entries.values.map PrefixEntry.refs))))) =
      some (([1],4),([],(some 0,some [0]))) := by decide

/-- An accepted request blocks an idle pool. -/
theorem not_admits_when_idle :
    ¬ ∀ s, Reachable (FakeLm.engine {}) s → s.scheduler.Idle → s.waiting ≠ [] →
      1 ≤ s.scheduler.maxBatch → ∀ now, (s.scheduler.admitRequests s.heap 0 now).1 ≠ [] := by
  intro h
  obtain ⟨s,hs,hobs⟩ := Option.map_eq_some_iff.mp stalledRun_admits
  simp only [Prod.mk.injEq] at hobs
  obtain ⟨⟨hw,hbatch⟩,hnil,hused,hrefs⟩ := hobs
  obtain ⟨p,hp,hu⟩ := Option.map_eq_some_iff.mp hused
  obtain ⟨c,hc,hr⟩ := Option.map_eq_some_iff.mp hrefs
  refine h s ⟨_,smallSystem_initial,_,execAll_run hs⟩ ⟨?_,?_⟩ (by simp [hw]) (by omega) _ hnil
  · intro q hq
    rw [hp] at hq
    cases hq
    exact hu
  · intro c' k e hc' he
    rw [hc] at hc'
    cases hc'
    have hmem : e.refs ∈ c.entries.values.map PrefixEntry.refs :=
      List.mem_map_of_mem (c.entries.mem_values_iff.mpr ⟨k,he⟩)
    rw [hr] at hmem
    simpa using hmem

theorem admits_when_idle_submitted :
    (((smallSystem.submit 0 [5,6] oneToken).scheduler.admitRequests
      (smallSystem.submit 0 [5,6] oneToken).heap 0 id).1 ≠ []) ↔
      (smallSystem.submit 0 [5,6] oneToken).NextSeats := by
  have hreach : Reachable (FakeLm.engine {}) (smallSystem.submit 0 [5,6] oneToken) :=
    ⟨smallSystem,smallSystem_initial,(Reaches.refl _).tail (.submit [5,6] oneToken (by decide))⟩
  refine admits_when_idle_iff hreach ⟨?_,?_⟩ (by decide) id
  · rintro _ ⟨⟩
    rfl
  · rintro c k e ⟨⟩ he
    cases he

end FluxEngine
