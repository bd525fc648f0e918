import FluxEngine.Engine.FakeLm
import FluxEngine.Serving.BookSteps

/-! # Who owns which block, over whole runs -/
namespace FluxEngine
open OrderedDict Transition
namespace System
variable {P L : Type} {full : Prop} {s t : System P L} {i : SeqId}

theorem Initial.books (h : s.Initial) : s.Books full := by
  have hheld : ∀ k, s.held k = 0 := by
    intro k
    unfold held
    rw [h.accepted]
    rfl
  have hempty : ∀ p, s.scheduler.pool = some p → p.Balanced (fun _ => 0) := by
    intro p hp
    obtain ⟨hfree,halloc⟩ := h.free p hp
    refine ⟨List.nodup_range,?_⟩
    intro b
    rw [hfree,BlockPool.owned,halloc]
    rfl
  refine ⟨by rw [h.accepted]; exact List.nodup_nil,by rw [h.waiting]; exact List.nodup_nil,?_,?_,?_,?_⟩
  · rw [h.waiting]
    simp
  · unfold Scheduler.Books
    cases hc : s.scheduler.prefixCache with
    | none => exact ⟨hheld,hempty⟩
    | some c =>
      obtain ⟨he,hp⟩ := h.cache c hc
      have hget : ∀ k, c.entries.get? k = none := by
        intro k
        rw [he]
        rfl
      constructor
      · intro k e hk
        rw [hget k] at hk
        cases hk
      · intro k
        rw [PrefixCache.refsAt_of_none (hget k),hheld k]
      · intro k e hk
        rw [hget k] at hk
        cases hk
      · intro k e hk
        rw [hget k] at hk
        cases hk
      · intro b
        rw [hp,PrefixCache.pinning,he]
        rfl
      · rw [hp]
        exact pinsPositive_empty
      · intro p hpool
        refine (hempty p hpool).congr ?_
        intro b
        rw [hp]
        rfl
      · intro _ p _ k e hk
        rw [hget k] at hk
        cases hk
  · intro p hp j
    rw [(h.free p hp).2,Live,h.accepted]
    simp
  · intro p hp j ids hids
    rw [(h.free p hp).2] at hids
    cases hids

theorem Books.noteToken (h : s.Books full) (hi : s.Live i) (token : Token) (stopIds : List Token) :
    (s.recordToken i token stopIds).Books full := by
  have hm : (s.modify i (fun seq => { seq.noteToken token stopIds with
      kvCache := (s.outbox i).map Prod.snd })).Books full := by
    refine h.modify ?_ ?_ ?_ (fun hw => absurd hw hi.2.1)
    · rw [Sequence.noteToken_eq]
    · rw [Sequence.noteToken_eq]
    · rw [Sequence.noteToken_eq]
      rfl
  exact hm.of_frame rfl rfl rfl rfl (fun _ _ => ⟨rfl,rfl,rfl⟩) (fun i hw => (hm.waiting i hw).2)

end System

/-- The step acquires no prefix whose blocks are neither there nor to be had. -/
def Event.Payable {P L : Type} (s : System P L) : Event → Prop
  | .admission _ => s.CandidatePayable
  | .bind i _ => s.BindPayable i
  | _ => True

variable {P L : Type} [Inhabited P] [Inhabited L] {eng : CachedEngine P L} {full : Prop}
variable {s t : System P L} {ev : Event}

theorem System.Books.step (h : s.Books full) (hs : Step eng ev s t) (hpay : full → ev.Payable s) :
    t.Books full := by
  cases hs with
  | submit prompt sampling hi => exact h.submit hi prompt sampling
  | requestAbort i =>
    exact h.modify rfl rfl rfl (fun hi => (h.waiting i hi).2.requestAbort)
  | adminAbort i => exact h.adminAbort i
  | requestStop => exact h.of_frame rfl rfl rfl rfl (fun _ _ => ⟨rfl,rfl,rfl⟩) (fun i hi => (h.waiting i hi).2)
  | admission now => exact h.admitRound now hpay
  | bookkeeping stats inFlight total =>
    exact h.of_frame rfl rfl rfl rfl (fun _ _ => ⟨rfl,rfl,rfl⟩) (fun i hi => (h.waiting i hi).2)
  | setStatus hi hst =>
    exact h.modify (hst.trans hi.2.2.symm) rfl rfl (fun hw => absurd hw hi.2.1)
  | bind now hi => exact (h.bind hi now hpay).1.keeps h hi
  | prefill hi ho hr =>
    exact h.of_frame rfl rfl rfl rfl (fun _ _ => ⟨rfl,rfl,rfl⟩) (fun i hi => (h.waiting i hi).2)
  | store now hi ho => exact (h.store hi now).1.keeps h hi
  | decode hi ht hkv =>
    exact h.of_frame rfl rfl rfl rfl (fun _ _ => ⟨rfl,rfl,rfl⟩) (fun i hi => (h.waiting i hi).2)
  | decodeBatch hl hr =>
    exact h.of_frame rfl rfl rfl rfl (fun _ _ => ⟨rfl,rfl,rfl⟩) (fun i hi => (h.waiting i hi).2)
  | note rnd hi hf ho => exact h.noteToken hi _ _
  | abort hi => exact h.terminate_live hi System.ends_abort
  | fail e hi => exact h.terminate_live hi (System.ends_fail e)
  | finish engineName hi hf => exact h.terminate_live hi (System.ends_finish _)
  | drain => exact h.drainOne

theorem books_of_reachable (h : Reachable eng s) : s.Books False :=
  h.invariant (fun _ h0 => h0.books) (fun _ _ _ hb hs => hb.step hs False.elim)

namespace System

/-- The ids with a positive pin count. -/
def pinnedIds (s : System P L) : List ℕ :=
  match s.scheduler.prefixCache with
  | none => []
  | some c => c.blockPins.keys.filter (fun b => 0 < pinCount c.blockPins b)

omit [Inhabited P] [Inhabited L] in
theorem count_pinnedIds (s : System P L) (b : ℕ) : s.pinnedIds.count b = min 1 (s.scheduler.pins b) := by
  unfold pinnedIds Scheduler.pins
  cases s.scheduler.prefixCache with
  | none => rfl
  | some c =>
    simp only
    by_cases hb : 0 < pinCount c.blockPins b
    · have hmem : b ∈ c.blockPins.keys := by
        cases hg : c.blockPins.get? b with
        | none => simp [pinCount,hg] at hb
        | some n => exact c.blockPins.mem_keys_iff.mpr ⟨n,hg⟩
      rw [List.count_filter (by simpa using hb),List.count_eq_one_of_mem c.blockPins.keys_nodup hmem]
      omega
    · have hnot : b ∉ c.blockPins.keys.filter (fun b => 0 < pinCount c.blockPins b) := by simp [hb]
      rw [List.count_eq_zero_of_not_mem hnot]
      omega

omit [Inhabited P] [Inhabited L] in
theorem Books.partition (h : s.Books full) {p : BlockPool} (hp : s.scheduler.pool = some p) :
    (p.free ++ p.alloc.values.flatten ++ s.pinnedIds).Perm (List.range p.numBlocks) := by
  rw [List.perm_iff_count]
  intro b
  rw [List.count_append,List.count_append,count_pinnedIds,← BlockPool.owned_eq_count]
  exact (h.books.balanced hp).total b

omit [Inhabited P] [Inhabited L] in
theorem Books.held_eq_zero (h : s.Books full) (hnone : ∀ i, ¬s.Live i) (k : List Token) : s.held k = 0 := by
  unfold held
  rw [List.countP_eq_zero]
  intro i hi
  by_cases hw : i ∈ s.waiting
  · simp [holds,(h.waiting i hw).2.prefixKey]
  · have hend : (s.heap i).status.terminal = true := by
      cases ht : (s.heap i).status.terminal with
      | true => rfl
      | false => exact absurd ⟨hi,hw,ht⟩ (hnone i)
    simp [holds,hend]

omit [Inhabited P] [Inhabited L] in
theorem Books.pins_eq_zero (h : s.Books full) (hnone : ∀ i, ¬s.Live i) (b : ℕ) : s.scheduler.pins b = 0 := by
  have hb := h.books
  unfold Scheduler.Books at hb
  unfold Scheduler.pins
  cases hc : s.scheduler.prefixCache with
  | none => rfl
  | some c =>
    rw [hc] at hb
    simp only
    rw [hb.pins b,PrefixCache.pinning,weight_eq_zero_iff]
    intro k e he
    rw [hb.refs_eq he,h.held_eq_zero hnone k,ite_self]

omit [Inhabited P] [Inhabited L] in
theorem Books.owned_eq_zero (h : s.Books full) (hnone : ∀ i, ¬s.Live i) {p : BlockPool}
    (hp : s.scheduler.pool = some p) (b : ℕ) : p.owned b = 0 := by
  rw [BlockPool.owned,weight_eq_zero_iff]
  intro i ids hids
  exact absurd ((h.owners p hp i).mp ⟨ids,hids⟩) (hnone i)

end System

/-- In every reachable state the block ids are partitioned into the free list,
the lists of the live sequences and the pinned ids; the pins are the references
of the entries; and without a live sequence nothing is in use. -/
theorem blocks_partitioned (h : Reachable eng s) {p : BlockPool} (hp : s.scheduler.pool = some p) :
    (p.free ++ p.alloc.values.flatten ++ s.pinnedIds).Perm (List.range p.numBlocks) ∧
    (∀ i, (∃ ids, p.alloc.get? i = some ids) ↔ s.Live i) ∧
    (∀ c, s.scheduler.prefixCache = some c → ∀ b, pinCount c.blockPins b =
      weight (fun _ e => if b ∈ e.blockIds then e.refs else 0) c.entries) ∧
    ((∀ i, ¬s.Live i) → p.usedBlocks = 0 ∧ s.pinnedIds = [] ∧
      ∀ c, s.scheduler.prefixCache = some c → c.blockPins.keys = []) := by
  have hb := books_of_reachable h
  have hcache : ∀ c, s.scheduler.prefixCache = some c → c.Books False s.scheduler.pool s.held := by
    intro c hc
    have := hb.books
    unfold Scheduler.Books at this
    rwa [hc] at this
  refine ⟨hb.partition hp,hb.owners p hp,fun c hc => (hcache c hc).pins,?_⟩
  intro hnone
  have hpins := hb.pins_eq_zero hnone
  refine ⟨(hb.books.balanced hp).usedBlocks_eq_zero (hb.owned_eq_zero hnone hp) hpins,?_,?_⟩
  · rw [List.eq_nil_iff_forall_not_mem]
    intro b hmem
    have hcount := List.count_pos_iff.mpr hmem
    rw [System.count_pinnedIds,hpins b] at hcount
    simp at hcount
  · intro c hc
    rw [List.eq_nil_iff_forall_not_mem]
    intro b hmem
    have hpos := (hcache c hc).positive.mem_keys_iff.mp hmem
    have hz := hpins b
    rw [Scheduler.pins,hc] at hz
    simp only at hz
    omega

/-- A system with three blocks of one token that stores prefixes of two tokens and more. -/
def smallSystem : System ℕ Token where
  scheduler :=
    { queue := { maxWaiting := 8 }, maxBatch := 4, policy := .fcfs
      pool := some ⟨3,1,[0,1,2],.empty,.empty,by decide,by decide⟩
      prefixCache := some (.init 8 2 1 (by decide)) }

theorem smallSystem_initial : smallSystem.Initial :=
  .of_some rfl rfl rfl rfl rfl rfl rfl rfl (fun _ => rfl)

def oneToken : SamplingParams := { maxTokens := 1, ignoreEos := true }

/-- The second request reuses the prefix that the first has left. -/
def prefixReused : List Event :=
  [.submit 0 [5,6] oneToken,.admission 0,.prefill 0,.store 0 (fun _ => 0),.note 0 0,.finish 0 "continuous",
    .submit 1 [5,6] oneToken,.admission 1]

theorem blocks_partitioned_admitted : ∃ (s : System ℕ Token) (p : BlockPool),
    execAll (FakeLm.engine {}) prefixReused smallSystem = some s ∧ s.scheduler.pool = some p ∧
    p.alloc.values = [[2]] ∧ s.pinnedIds = [0,1] ∧
    (p.free ++ p.alloc.values.flatten ++ s.pinnedIds).Perm (List.range p.numBlocks) := by
  have hobs : (execAll (FakeLm.engine {}) prefixReused smallSystem).map
      (fun s => (s.scheduler.pool.map (fun p => p.alloc.values),s.pinnedIds)) = some (some [[2]],[0,1]) := by decide
  obtain ⟨s,hs,hobs⟩ := Option.map_eq_some_iff.mp hobs
  rw [Prod.mk.injEq] at hobs
  obtain ⟨p,hp,hvalues⟩ := Option.map_eq_some_iff.mp hobs.1
  have hreach : Reachable (FakeLm.engine {}) s := ⟨smallSystem,smallSystem_initial,_,execAll_run hs⟩
  exact ⟨s,p,hs,hp,hvalues,hobs.2,(blocks_partitioned hreach hp).1⟩

end FluxEngine
