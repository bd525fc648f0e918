import Mathlib.Algebra.Order.BigOperators.Group.List
import FluxEngine.Serving.FirstFit
import FluxEngine.Serving.Crew
import FluxEngine.Serving.Leftovers
import FluxEngine.Serving.Pace

/-! # Seniority

First come, first served over the steps of the serving machine: whoever is
served was accepted before everyone who waits.  The tokens that a sequence and
its seniors have yet to get never become more.
-/
namespace FluxEngine
open OrderedDict Transition
variable {P L : Type} {s t : System P L} {i j k : SeqId}

theorem BlockPool.shape_of_allocate {pool pool' : BlockPool} {id : SeqId} {seq seq' : Sequence P L} {n : ℕ}
    {ids : List ℕ} (h : pool.allocate id seq n = some (ids,pool',seq')) : pool'.shape = pool.shape := by
  rw [BlockPool.allocate_eq] at h
  cases hcan : pool.canAllocate n with
  | false => simp [hcan] at h
  | true =>
    simp only [hcan,if_true,Option.some.injEq,Prod.mk.injEq] at h
    rw [← h.2.1]
    rfl

namespace Scheduler
variable {sch : Scheduler P L}

/-- The policy, the shape of the pool, and whether there is a prefix cache. -/
def setup (sch : Scheduler P L) : Policy × Option (ℕ × ℕ) × Bool :=
  (sch.policy,sch.pool.map BlockPool.shape,sch.prefixCache.isSome)

theorem setup_lookupPrefix (sch : Scheduler P L) (tokenIds : List Token) (now : ℕ) : (sch.lookupPrefix tokenIds now).2.setup = sch.setup := by
  unfold lookupPrefix
  cases hc : sch.prefixCache with
  | none => rfl
  | some c =>
    simp only [PrefixCache.lookup]
    cases c.peek tokenIds with
    | none => simp only [setup,hc,Option.isSome_some]
    | some hit =>
      simp only
      cases c.entries.get? hit.tokenIds with
      | none => simp only [setup,hc,Option.isSome_some]
      | some entry =>
        obtain ⟨ids,pins,pool,hacq,hacquires⟩ := PrefixCache.acquireBlocks_eq c sch.pool entry
        simp only [hacq,setup,hc,hacquires.shape_eq,Option.isSome_some]

theorem setup_releasePrefix (sch : Scheduler P L) (key : Option (List Token)) : (sch.releasePrefix key).setup = sch.setup := by
  have hunpin : ∀ (pins : OrderedDict ℕ ℕ) (pool : Option BlockPool) (ids : List ℕ),
      (PrefixCache.unpin pins pool ids).2.map BlockPool.shape = pool.map BlockPool.shape := by
    intro pins pool ids
    cases pool with
    | none => rfl
    | some p =>
      simp only [PrefixCache.unpin,Option.map_some]
      split <;> rfl
  unfold releasePrefix
  cases hc : sch.prefixCache with
  | none => rfl
  | some c =>
    simp only [PrefixCache.release]
    cases key with
    | none => simp only [setup,hc,Option.isSome_some]
    | some key =>
      simp only
      split
      · simp only [setup,hc,Option.isSome_some]
      · cases c.entries.get? key with
        | none => simp only [setup,hc,Option.isSome_some]
        | some entry =>
          simp only
          split
          · simp only [setup,hc,Option.isSome_some]
          · simp only [setup,hc,hunpin,Option.isSome_some]

theorem setup_tryAllocate (sch : Scheduler P L) (id : SeqId) (seq : Sequence P L) (now : ℕ) :
    (sch.tryAllocate id seq now).2.1.setup = sch.setup := by
  have hl := setup_lookupPrefix sch seq.promptTokenIds now
  unfold tryAllocate
  rcases hlk : sch.lookupPrefix seq.promptTokenIds now with ⟨hit,sch₁⟩
  rw [hlk] at hl
  simp only
  cases hp : sch₁.pool with
  | none => exact hl
  | some pool =>
    simp only
    split
    · cases hit with
      | none => exact hl
      | some hit => exact (setup_releasePrefix _ (some hit.tokenIds)).trans hl
    · rename_i hgot
      rw [← hl]
      simp only [setup,hp,Option.map_some,BlockPool.shape_of_allocate hgot]

end Scheduler

theorem System.setup_terminate (mark : Sequence P L → Sequence P L) :
    (s.terminate i mark).scheduler.setup = s.scheduler.setup := by
  have hrel := Scheduler.setup_releasePrefix s.scheduler (mark (s.heap i)).prefixKey
  have hpolicy : (s.terminate i mark).scheduler.policy = (s.scheduler.releasePrefix (mark (s.heap i)).prefixKey).policy := by
    simp only [System.terminate,System.release,System.modify,Function.update_self]
  rw [← hrel]
  simp only [Scheduler.setup,System.terminate_prefixCache,System.terminate_pool,hpolicy,Option.map_map]
  rfl

/-- The history of the queue: who has arrived, who left it unserved, who was served. -/
def System.line (s : System P L) (removed served : List SeqId) : Fifo.History SeqId where
  arrived := s.accepted
  removed := removed
  served := served
  waiting := s.waiting

def System.InLine (s : System P L) : Prop :=
  ∃ removed served, Fifo.Fair (s.line removed served) ∧ ∀ j, s.Live j → j ∈ served

theorem System.inLine_of_initial (h0 : s.Initial) : s.InLine := by
  refine ⟨[],[],?_,?_⟩
  · have hnil : s.line [] [] = {} := by
      unfold System.line
      rw [h0.accepted,h0.waiting]
    rw [hnil]
    exact Fifo.fair_empty
  · rintro j ⟨hj,_⟩
    rw [h0.accepted] at hj
    cases hj

/-- The sequences accepted up to `i`. -/
def System.upTo (s : System P L) (i : SeqId) : List SeqId := s.accepted.take (s.accepted.idxOf i + 1)

theorem System.mem_upTo (hj : j ∈ s.accepted) : j ∈ s.upTo i ↔ s.accepted.idxOf j ≤ s.accepted.idxOf i := by
  unfold System.upTo
  rw [List.mem_take_iff_idxOf_lt hj,Nat.lt_succ_iff]

theorem System.self_mem_upTo (hi : i ∈ s.accepted) : i ∈ s.upTo i := (System.mem_upTo hi).mpr le_rfl

theorem System.accepted_of_upTo (hj : j ∈ s.upTo i) : j ∈ s.accepted := List.mem_of_mem_take hj

theorem System.InLine.live_upTo (h : s.InLine) (hi : i ∈ s.waiting) (hj : s.Live j) : j ∈ s.upTo i := by
  obtain ⟨removed,served,hfair,hlive⟩ := h
  obtain ⟨front,back,hsplit⟩ := List.append_of_mem hi
  have heq : served ++ s.waiting = (served ++ front) ++ i :: back := by rw [hsplit,List.append_assoc]
  exact (System.mem_upTo hj.1).mpr (hfair.idxOf_lt heq (List.mem_append_left _ (hlive j hj))).le

theorem System.InLine.head_upTo (h : s.InLine) {rest : List SeqId} (hw : s.waiting = k :: rest) (hi : i ∈ s.waiting) :
    k ∈ s.upTo i := by
  obtain ⟨removed,served,hfair,_⟩ := h
  have hmem : ∀ j ∈ s.waiting, j ∈ s.accepted := by
    intro j hj
    have hall : j ∈ served ++ s.waiting := List.mem_append_right _ hj
    have horder : served ++ s.waiting = s.accepted.filter (fun a => a ∉ removed) := hfair.order
    rw [horder] at hall
    exact List.mem_of_mem_filter hall
  refine (System.mem_upTo (hmem k (by simp [hw]))).mpr ?_
  rw [hw] at hi
  rcases List.mem_cons.mp hi with rfl | hi
  · exact le_rfl
  · obtain ⟨front,back,hsplit⟩ := List.append_of_mem hi
    have heq : served ++ s.waiting = (served ++ k :: front) ++ i :: back := by
      rw [hw,hsplit,List.append_assoc,List.cons_append]
    exact (hfair.idxOf_lt heq (by simp)).le

/-- A bound on the tokens that a sequence has yet to get, its end counted as one. -/
def System.credit (s : System P L) (j : SeqId) : ℕ :=
  if (s.heap j).status.terminal then 0 else max 1 (s.heap j).sampling.maxTokens - (s.heap j).outputIds.length + 1

def System.due (s : System P L) (ids : List SeqId) : ℕ := (ids.map s.credit).sum

variable [Inhabited P] [Inhabited L] {eng : CachedEngine P L}

/-- No step changes the policy, the shape of the pool or whether there is a cache. -/
theorem Step.setup (hb : s.Books False) {ev : Event} (h : Step eng ev s t) : t.scheduler.setup = s.scheduler.setup := by
  cases h with
  | @submit _ j prompt sampling _ =>
    rcases s.submit_cases j prompt sampling with heq | ⟨queue,_,heq⟩
    · rw [heq]
    · rw [heq]
      rfl
  | adminAbort j =>
    unfold System.adminAbort
    split
    · exact System.setup_terminate _
    · split
      · rfl
      · rfl
  | admission now =>
    rcases s.admitRound_cases now with ⟨_,heq⟩ | ⟨i,queue,ok,sch,seq,_,_,htry,heq⟩
    · rw [heq]
    · have hset := Scheduler.setup_tryAllocate { s.scheduler with queue := queue } i (s.heap i) now
      rw [htry] at hset
      rw [heq]
      cases ok with
      | true => exact hset
      | false => exact hset
  | @bind _ j now hj =>
    have hshape := (hb.bind hj now False.elim).1.shape
    have hl := Scheduler.setup_lookupPrefix s.scheduler (s.heap j).promptTokenIds now
    have hsame : (s.bindPrefixAtPrefill j now).scheduler.policy = s.scheduler.policy ∧
        (s.bindPrefixAtPrefill j now).scheduler.prefixCache.isSome = s.scheduler.prefixCache.isSome := by
      simp only [Scheduler.setup,Prod.mk.injEq] at hl
      unfold System.bindPrefixAtPrefill
      split
      · exact ⟨rfl,rfl⟩
      · rcases hlk : s.scheduler.lookupPrefix (s.heap j).promptTokenIds now with ⟨hit,sch⟩
        rw [hlk] at hl
        cases hit with
        | none => exact ⟨hl.1,hl.2.2⟩
        | some hit =>
          simp only [System.bindHit]
          split
          · exact ⟨hl.1,hl.2.2⟩
          · exact ⟨hl.1,hl.2.2⟩
    simp only [Scheduler.setup,hshape,hsame]
  | @store _ j now hj _ =>
    have hshape := (hb.store hj now).1.shape
    have hsame : (s.storePrefix j now).scheduler.policy = s.scheduler.policy ∧
        (s.storePrefix j now).scheduler.prefixCache.isSome = s.scheduler.prefixCache.isSome := by
      unfold System.storePrefix
      split
      · rename_i hc _
        rw [hc]
        exact ⟨rfl,rfl⟩
      · exact ⟨rfl,rfl⟩
    simp only [Scheduler.setup,hshape,hsame]
  | abort _ => exact System.setup_terminate _
  | fail e _ => exact System.setup_terminate _
  | finish engineName _ _ => exact System.setup_terminate _
  | drain =>
    rcases s.drainOne_cases with ⟨_,heq⟩ | ⟨j,queue,_,_,heq⟩
    · rw [heq]
    · rw [heq]
      exact System.setup_terminate _
  | _ => rfl

/-- What a step other than an admission does to the queue. -/
inductive LineMove (s t : System P L) : Prop
  | stay : t.accepted = s.accepted → t.waiting = s.waiting → LineMove s t
  | enter (j : SeqId) : j ∉ s.accepted → t.accepted = s.accepted ++ [j] → t.waiting = s.waiting ++ [j] → LineMove s t
  | leave (j : SeqId) : j ∈ s.waiting → t.accepted = s.accepted → t.waiting = s.waiting.erase j → LineMove s t

theorem Step.lineMove (hb : s.Books False) {ev : Event} (h : Step eng ev s t) (hev : ∀ now, ev ≠ .admission now) :
    LineMove s t := by
  cases h with
  | @submit _ j prompt sampling hj =>
    rcases s.submit_cases j prompt sampling with heq | ⟨queue,hq,heq⟩
    · rw [heq]
      exact .stay rfl rfl
    · rw [heq]
      exact .enter j hj rfl hq
  | adminAbort j =>
    unfold System.adminAbort
    split
    · rename_i hw
      exact .leave j hw rfl System.terminate_waiting
    · split
      · exact .stay rfl rfl
      · exact .stay rfl rfl
  | admission now => exact absurd rfl (hev now)
  | bind now hj =>
    have hre := (hb.bind hj now False.elim).1
    exact .stay hre.accepted (congrArg RequestQueue.waiting hre.queue)
  | store now hj _ =>
    have hre := (hb.store hj now).1
    exact .stay hre.accepted (congrArg RequestQueue.waiting hre.queue)
  | abort _ => exact .stay rfl System.terminate_waiting
  | fail e _ => exact .stay rfl System.terminate_waiting
  | finish engineName _ _ => exact .stay rfl System.terminate_waiting
  | drain =>
    rcases s.drainOne_cases with ⟨_,heq⟩ | ⟨j,queue,hj,hq,heq⟩
    · rw [heq]
      exact .stay rfl rfl
    · rw [heq]
      exact .leave j hj rfl (System.terminate_waiting.trans hq)
  | _ => exact .stay rfl rfl

/-- Only an admission makes a sequence live. -/
theorem Step.live_of (hb : s.Books False) {ev : Event} (h : Step eng ev s t) (hev : ∀ now, ev ≠ .admission now)
    (hj : t.Live j) : s.Live j := by
  -- an update of one live sequence
  have hone : ∀ {i : SeqId} {u : System P L}, u.Live j → s.Live i → u.accepted = s.accepted →
      u.waiting = s.waiting → (∀ k, k ≠ i → u.heap k = s.heap k) → s.Live j := by
    intro i u hlive hi hacc hwait hoff
    by_cases hji : j = i
    · rwa [hji]
    · unfold System.Live at hlive ⊢
      rwa [hacc,hwait,hoff j hji] at hlive
  cases hreq : ev.isRequest with
  | true => exact (h.requested hreq).live j hj
  | false =>
    cases h with
    | admission now => exact absurd rfl (hev now)
    | setStatus hi _ => exact hone hj hi rfl rfl (fun k hk => Function.update_of_ne hk _ _)
    | bind now hi =>
      have hre := (hb.bind hi now False.elim).1
      exact hone hj hi hre.accepted (congrArg RequestQueue.waiting hre.queue) hre.off
    | store now hi _ =>
      have hre := (hb.store hi now).1
      exact hone hj hi hre.accepted (congrArg RequestQueue.waiting hre.queue) hre.off
    | note rnd hi _ _ => exact hone hj hi rfl rfl (fun k hk => Function.update_of_ne hk _ _)
    | abort hi => exact hone hj hi rfl System.terminate_waiting (fun k hk => System.terminate_heap_of_ne hk)
    | fail e hi => exact hone hj hi rfl System.terminate_waiting (fun k hk => System.terminate_heap_of_ne hk)
    | finish engineName hi _ =>
      exact hone hj hi rfl System.terminate_waiting (fun k hk => System.terminate_heap_of_ne hk)
    | drain => exact (requested_drainOne s).live j hj
    | bookkeeping stats inFlight total => exact hj
    | prefill _ _ _ => exact hj
    | decode _ _ _ => exact hj
    | decodeBatch _ _ => exact hj
    | _ => cases hreq

theorem System.InLine.step (hinv : Reachable eng s) (hp : s.scheduler.policy = .fcfs) (h : s.InLine) {ev : Event}
    (hst : Step eng ev s t) : t.InLine := by
  obtain ⟨removed,served,hfair,hlive⟩ := h
  by_cases hev : ∀ now, ev ≠ .admission now
  · have hback : ∀ j, t.Live j → j ∈ served := fun j hj => hlive j (hst.live_of hinv.books hev hj)
    cases hst.lineMove hinv.books hev with
    | stay hacc hwait =>
      refine ⟨removed,served,?_,hback⟩
      unfold System.line
      rwa [hacc,hwait]
    | enter j hj hacc hwait =>
      refine ⟨removed,served,?_,hback⟩
      refine (Fifo.Move.arrive j hj ?_ : Fifo.Move (s.line removed served) (t.line removed served)).fair hfair
      simp only [System.line,hacc,hwait]
    | leave j hj hacc hwait =>
      refine ⟨j :: removed,served,?_,hback⟩
      refine (Fifo.Move.remove j hj ?_ : Fifo.Move (s.line removed served) (t.line (j :: removed) served)).fair hfair
      simp only [System.line,hacc,hwait]
  · push Not at hev
    obtain ⟨now,rfl⟩ := hev
    cases hst with
    | admission now =>
      have hlife := s.scheduler.admitRound_life s.heap now
      have hround : s.scheduler.admitRound s.heap now = s.scheduler.fcfsRound s.heap now := by
        unfold Scheduler.admitRound
        rw [hp]
      unfold System.admitRound
      rcases Scheduler.fcfsRound_cases (Scheduler.keyed_of_reachable hinv) s.heap now with
        ⟨_,heq⟩ | ⟨sch,heap,heq,hw,_⟩ | ⟨i,sch,heap,heq,hw⟩
      · rw [hround,heq]
        exact ⟨removed,served,hfair,hlive⟩
      · rw [hround,heq] at hlife ⊢
        refine ⟨removed,served,?_,?_⟩
        · simp only [System.line,System.waiting,hw]
          exact hfair
        · rintro j ⟨hacc,hwait,hst⟩
          simp only [System.waiting,hw] at hwait
          exact hlive j ⟨hacc,hwait,by rw [← Sequence.status_of_life (hlife j)]; exact hst⟩
      · rw [hround,heq] at hlife ⊢
        refine ⟨removed,served ++ [i],?_,?_⟩
        · refine (Fifo.Move.serve [i] sch.queue.waiting hw rfl : Fifo.Move (s.line removed served) _).fair hfair
        · rintro j ⟨hacc,hwait,hst⟩
          rw [List.mem_append,List.mem_singleton]
          by_cases hji : j = i
          · exact Or.inr hji
          · refine Or.inl (hlive j ⟨hacc,?_,by rw [← Sequence.status_of_life (hlife j)]; exact hst⟩)
            simp only [System.waiting,hw,List.mem_cons,not_or]
            exact ⟨hji,hwait⟩

theorem Reachable.setup_eq (h : Reachable eng s) (hr : Reaches (Step eng) s t) :
    t.scheduler.setup = s.scheduler.setup := by
  have hinv : Reachable eng t ∧ t.scheduler.setup = s.scheduler.setup := by
    refine hr.invariant (P := fun t => Reachable eng t ∧ t.scheduler.setup = s.scheduler.setup) ⟨h,rfl⟩ ?_
    rintro ev t u ⟨⟨s₀,h0,hst⟩,hset⟩ hstep
    exact ⟨⟨s₀,h0,hst.tail hstep⟩,(hstep.setup (books_of_reachable ⟨s₀,h0,hst⟩)).trans hset⟩
  exact hinv.2

theorem Reachable.inLine (h : Reachable eng s) (hp : s.scheduler.policy = .fcfs) : s.InLine := by
  obtain ⟨s₀,h0,hr⟩ := h
  have hp₀ : s₀.scheduler.policy = .fcfs := by
    have hset := Reachable.setup_eq ⟨s₀,h0,.refl s₀⟩ hr
    exact (congrArg Prod.fst hset).symm.trans hp
  have hinv : Reachable eng s ∧ s.scheduler.policy = .fcfs ∧ s.InLine := by
    refine hr.invariant (P := fun s => Reachable eng s ∧ s.scheduler.policy = .fcfs ∧ s.InLine)
      ⟨⟨s₀,h0,.refl s₀⟩,hp₀,System.inLine_of_initial h0⟩ ?_
    rintro ev t u ⟨⟨s₁,h1,hst⟩,hpol,hline⟩ hstep
    have ht : Reachable eng t := ⟨s₁,h1,hst⟩
    refine ⟨⟨s₁,h1,hst.tail hstep⟩,?_,hline.step ht hpol hstep⟩
    exact (congrArg Prod.fst (hstep.setup ht.books)).trans hpol
  exact hinv.2.2

theorem Step.accepted_prefix {ev : Event} (h : Step eng ev s t) : s.accepted <+: t.accepted := by
  rcases h.accepted with heq | ⟨_,_,_,_,heq,_⟩
  · rw [heq]
  · rw [heq]
    exact List.prefix_append _ _

theorem upTo_of_reaches (hr : Reaches (Step eng) s t) (hi : i ∈ s.accepted) : t.upTo i = s.upTo i := by
  have hpre : s.accepted <+: t.accepted := by
    refine hr.invariant (P := fun t => s.accepted <+: t.accepted) List.prefix_rfl ?_
    intro ev t u h hst
    exact h.trans hst.accepted_prefix
  obtain ⟨more,hmore⟩ := hpre
  unfold System.upTo
  rw [← hmore,List.idxOf_append_of_mem hi,List.take_append_of_le_length]
  exact List.idxOf_lt_length_of_mem hi

theorem Reachable.terminal_mono (h : Reachable eng s) (hr : Reaches (Step eng) s t) (hj : j ∈ s.accepted)
    (hend : (s.heap j).status.terminal = true) : (t.heap j).status.terminal = true := by
  have hout := h.outcome_eq hr hj hend
  have hst : (t.heap j).status = (s.heap j).status := congrArg (fun o => o.1.1) hout
  rw [hst]
  exact hend

theorem Reachable.credit_le (h : Reachable eng s) (hr : Reaches (Step eng) s t) (hj : j ∈ s.accepted) :
    t.credit j ≤ s.credit j := by
  have hlen := (h.output_prefix hr hj).length_le
  have hmax : (t.heap j).sampling.maxTokens = (s.heap j).sampling.maxTokens :=
    congrArg (fun r => r.2.maxTokens) (h.request_eq hr hj)
  unfold System.credit
  cases hs : (s.heap j).status.terminal with
  | true =>
    rw [if_pos (h.terminal_mono hr hj hs)]
    exact Nat.zero_le _
  | false =>
    split
    · exact Nat.zero_le _
    · simp only [Bool.false_eq_true,if_false,hmax]
      omega

theorem Reachable.credit_lt (h : Reachable eng s) (hr : Reaches (Step eng) s t) (hj : j ∈ s.accepted)
    (hopen : (s.heap j).status.terminal = false)
    (hmoved : (t.heap j).status.terminal = true ∨ (s.heap j).outputIds.length < (t.heap j).outputIds.length) :
    t.credit j < s.credit j := by
  have ht : Reachable eng t := by
    obtain ⟨s₀,h0,hr₀⟩ := h
    exact ⟨s₀,h0,hr₀.trans hr⟩
  have hmax : (t.heap j).sampling.maxTokens = (s.heap j).sampling.maxTokens :=
    congrArg (fun r => r.2.maxTokens) (h.request_eq hr hj)
  have hpaced := (ht.paced (h.accepted_run hr hj)).length
  unfold System.credit
  simp only [hopen,Bool.false_eq_true,if_false]
  rcases hmoved with hend | hlt
  · simp only [hend,if_true]
    omega
  · split
    · omega
    · omega

theorem Reachable.due_lt (h : Reachable eng s) (hr : Reaches (Step eng) s t) {ids : List SeqId}
    (hids : ∀ k ∈ ids, k ∈ s.accepted) (hj : j ∈ ids) (hopen : (s.heap j).status.terminal = false)
    (hmoved : (t.heap j).status.terminal = true ∨ (s.heap j).outputIds.length < (t.heap j).outputIds.length) :
    t.due ids < s.due ids :=
  List.sum_lt_sum t.credit s.credit (fun k hk => h.credit_le hr (hids k hk))
    ⟨j,hj,h.credit_lt hr (hids j hj) hopen hmoved⟩

end FluxEngine
