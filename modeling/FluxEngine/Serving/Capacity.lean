import FluxEngine.Serving.FirstFit
import FluxEngine.Serving.Seniority

/-! # Admission under memory pressure

Without a prefix cache the live sequences and the free list share out the pool.
The admission of the continuous worker then runs down the queue while there is a
seat in the batch exactly when the pool holds a full batch of the largest requests.
-/
namespace FluxEngine
open Transition Function OrderedDict
variable {P L : Type} {s t : System P L} {i j k : SeqId} {rest : List SeqId}

theorem Scheduler.needTokens_uncached (sch : Scheduler P L) (hc : sch.prefixCache = none) (seq : Sequence P L) :
    sch.needTokens seq = seq.reservationTokens := by
  unfold needTokens peekPrefix
  rw [hc]
  rfl

namespace System

def live (s : System P L) : List SeqId := s.accepted.filter (fun i => s.Live i)

theorem mem_live : i ∈ s.live ↔ s.Live i := by
  unfold live
  rw [List.mem_filter,decide_eq_true_iff]
  exact ⟨fun h => h.2,fun h => ⟨h.1,h⟩⟩

def demand (s : System P L) (p : BlockPool) (i : SeqId) : ℕ := p.blocksNeeded (s.heap i).reservationTokens

/-- Nobody waits for memory: when all who are live are in the running list, the
admission of the continuous worker runs down the queue while there is a seat. -/
def Unhindered (s : System P L) : Prop :=
  (∀ i, s.Live i → i ∈ s.stats.running) → ∀ now,
    (s.scheduler.admitRequests s.heap s.stats.running.length now).1 =
      s.waiting.take (s.scheduler.maxBatch - s.stats.running.length)

theorem Books.unbound_uncached (h : s.Books False) (hc : s.scheduler.prefixCache = none) (hi : s.Live i) :
    (s.heap i).prefixKey = none := by
  have hb := h.books
  unfold Scheduler.Books at hb
  rw [hc] at hb
  cases hk : (s.heap i).prefixKey with
  | none => rfl
  | some key =>
    have hnone := List.countP_eq_zero.mp (hb.1 key) i hi.1
    simp [holds,hk,hi.2.2] at hnone

theorem Books.free_uncached (h : s.Books False) (hc : s.scheduler.prefixCache = none) {p : BlockPool}
    (hp : s.scheduler.pool = some p) : p.freeBlocks + (s.live.map (s.demand p)).sum = p.numBlocks := by
  have hlength := (h.partition hp).length_eq
  have hpins : s.pinnedIds = [] := by
    unfold pinnedIds
    rw [hc]
  have howners : p.alloc.keys.Perm s.live := by
    apply (List.perm_ext_iff_of_nodup p.alloc.keys_nodup (h.nodup.filter _)).mpr
    intro i
    rw [mem_keys_iff,h.owners p hp i]
    exact mem_live.symm
  have hsizes : p.alloc.values.map List.length = p.alloc.keys.map (s.demand p) := by
    unfold values keys
    rw [List.map_map,List.map_map]
    apply List.map_congr_left
    rintro ⟨i,ids⟩ hmem
    have hids := (get?_eq_some_iff p.alloc).mpr hmem
    exact h.unbound p hp i ids hids (h.unbound_uncached hc ((h.owners p hp i).mp ⟨ids,hids⟩))
  rw [hpins,List.append_nil,List.length_append,List.length_flatten,List.length_range,hsizes,
    (howners.map _).sum_eq] at hlength
  exact hlength

/-- Every request takes at most `need` blocks, and the pool holds a full batch of these. -/
structure Roomy (s : System P L) (need : ℕ) : Prop where
  uncached : s.scheduler.prefixCache = none
  demand : ∀ p, s.scheduler.pool = some p → ∀ i ∈ s.accepted, s.demand p i ≤ need
  batch : ∀ p, s.scheduler.pool = some p → s.scheduler.maxBatch * need ≤ p.numBlocks

theorem Roomy.free {need : ℕ} (h : s.Roomy need) (hb : s.Books False) {p : BlockPool}
    (hp : s.scheduler.pool = some p) (hseat : s.live.length < s.scheduler.maxBatch) : need ≤ p.freeBlocks := by
  have hfree := hb.free_uncached h.uncached hp
  have hused : (s.live.map (s.demand p)).sum ≤ s.live.length * need := by
    have hle := List.sum_le_card_nsmul (s.live.map (s.demand p)) need (by
      intro n hn
      obtain ⟨i,hi,rfl⟩ := List.mem_map.mp hn
      exact h.demand p hp i (mem_live.mp hi).1)
    rwa [List.length_map,smul_eq_mul] at hle
  have hbatch := h.batch p hp
  have hone : s.live.length * need + need ≤ s.scheduler.maxBatch * need := by
    calc s.live.length * need + need = (s.live.length + 1) * need := (Nat.succ_mul _ _).symm
      _ ≤ s.scheduler.maxBatch * need := Nat.mul_le_mul_right need hseat
  omega

theorem candidate_front (hw : s.waiting = k :: rest) (hfits : s.scheduler.fits (s.heap k) = true) :
    s.scheduler.candidate s.heap = some k := by
  have hwaiting : s.scheduler.queue.waiting = k :: rest := hw
  unfold Scheduler.candidate
  cases s.scheduler.policy with
  | memoryFit =>
    simp only [hwaiting]
    exact List.find?_cons_of_pos hfits
  | fcfs =>
    simp only [RequestQueue.peekOne,hwaiting,List.head?_cons,Option.filter_some,hfits,if_true]

/-- What a round of admission does that takes `k`, the head of the queue. -/
structure Seated (s : System P L) (k : SeqId) (rest : List SeqId) (t : System P L) : Prop where
  waiting : t.waiting = rest
  accepted : t.accepted = s.accepted
  size : t.scheduler.queue.maxWaiting = s.scheduler.queue.maxWaiting
  life : ∀ j, (t.heap j).life = (s.heap j).life

theorem Seated.live_iff (h : s.Seated k rest t) (hb : s.Books False) (hw : s.waiting = k :: rest) (j : SeqId) :
    t.Live j ↔ s.Live j ∨ j = k := by
  have hstatus : (t.heap j).status = (s.heap j).status := Sequence.status_of_life (h.life j)
  obtain ⟨hacc,hpristine⟩ := hb.waiting k (by rw [hw]; exact List.mem_cons_self)
  have hnd := hb.waiting_nodup
  rw [hw,List.nodup_cons] at hnd
  unfold Live
  rw [h.accepted,h.waiting,hw,hstatus,List.mem_cons,not_or]
  constructor
  · rintro ⟨hj,hrest,hopen⟩
    by_cases hjk : j = k
    · exact Or.inr hjk
    · exact Or.inl ⟨hj,⟨hjk,hrest⟩,hopen⟩
  · rintro (⟨hj,⟨_,hrest⟩,hopen⟩ | rfl)
    · exact ⟨hj,hrest,hopen⟩
    · refine ⟨hacc,hnd.1,?_⟩
      rw [hpristine.status]
      rfl

theorem Seated.live_length (h : s.Seated k rest t) (hb : s.Books False) (hw : s.waiting = k :: rest) :
    t.live.length = s.live.length + 1 := by
  have hk : k ∉ s.live := by
    intro hk
    apply (mem_live.mp hk).2.1
    rw [hw]
    exact List.mem_cons_self
  have hnd : t.live.Nodup := by
    unfold live
    rw [h.accepted]
    exact hb.nodup.filter _
  have hperm : t.live.Perm (k :: s.live) := by
    apply (List.perm_ext_iff_of_nodup hnd (List.nodup_cons.mpr ⟨hk,hb.nodup.filter _⟩)).mpr
    intro j
    rw [mem_live,h.live_iff hb hw,List.mem_cons,mem_live]
    exact Or.comm
  exact hperm.length_eq

theorem Seated.request_eq (h : s.Seated k rest t) (j : SeqId) : (t.heap j).request = (s.heap j).request :=
  Sequence.eq_of_life Sequence.request (fun _ => rfl) (h.life j)

theorem seated_of_admitRound {now : ℕ} (hid : (s.scheduler.admitRound s.heap now).1 = some k)
    (hw : s.waiting = k :: rest) : s.Seated k rest (s.admitRound now) := by
  have hlife := fun j => s.scheduler.admitRound_life s.heap now j
  unfold admitRound
  rcases s.scheduler.admitRound_eq s.heap now with ⟨_,heq⟩ | ⟨i,_,heq⟩
  · rw [heq] at hid
    cases hid
  · have hqueue := Scheduler.tryAllocate_queue { s.scheduler with queue := (s.scheduler.queue.remove i).2 } i (s.heap i) now
    rw [heq] at hid hlife ⊢
    unfold Scheduler.tryTaken at hid hlife ⊢
    rcases htry : Scheduler.tryAllocate { s.scheduler with queue := (s.scheduler.queue.remove i).2 } i (s.heap i) now with
      ⟨ok,sch,seq⟩
    rw [htry] at hid hqueue hlife
    cases ok with
    | false => cases hid
    | true =>
      cases hid
      have hq : sch.queue = (s.scheduler.queue.remove k).2 := hqueue
      have hrest : sch.queue.waiting = rest := by
        have hwaiting : s.scheduler.queue.waiting = k :: rest := hw
        rw [hq]
        simp only [RequestQueue.remove,hwaiting,List.erase_cons_head]
      have hsize : sch.queue.maxWaiting = s.scheduler.queue.maxWaiting := by rw [hq]; rfl
      exact ⟨hrest,rfl,hsize,hlife⟩

theorem admitRound_front (hk : s.scheduler.Keyed) (hc : s.scheduler.prefixCache = none) (hw : s.waiting = k :: rest)
    (hroom : ∀ p, s.scheduler.pool = some p → s.demand p k ≤ p.freeBlocks) (now : ℕ) :
    (s.scheduler.admitRound s.heap now).1 = some k := by
  have halloc : s.scheduler.Allocatable (s.heap k) := by
    intro p hp
    have hle := hroom p hp
    have hcharge : s.scheduler.prefixCharge (s.heap k).promptTokenIds = 0 := by
      unfold Scheduler.prefixCharge
      rw [hc]
    rw [hcharge,s.scheduler.needTokens_uncached hc,Nat.zero_add]
    exact hle
  have hcand := candidate_front hw halloc.fits
  have hok := (Scheduler.tryAllocate_taken hk (s.scheduler.queue.remove k).2 k s.heap now).mpr halloc
  rcases s.scheduler.admitRound_eq s.heap now with ⟨hnone,_⟩ | ⟨i,hi,heq⟩
  · rw [hcand] at hnone
    cases hnone
  · rw [hcand,Option.some.injEq] at hi
    subst hi
    rw [heq]
    unfold Scheduler.tryTaken
    rcases htry : Scheduler.tryAllocate { s.scheduler with queue := (s.scheduler.queue.remove k).2 } k (s.heap k) now with
      ⟨ok,sch,seq⟩
    rw [htry] at hok
    cases hok
    rfl

theorem submit_uncached (hc : s.scheduler.prefixCache = none) {prompt : List Token} {sampling : SamplingParams}
    (hplace : s.waiting.length < s.scheduler.queue.maxWaiting)
    (hpool : ∀ p, s.scheduler.pool = some p → p.blocksNeeded (prompt.length + sampling.maxTokens) ≤ p.numBlocks) :
    s.submit i prompt sampling = { s with
      scheduler := { s.scheduler with queue := { s.scheduler.queue with waiting := s.waiting ++ [i], event := true } }
      heap := update s.heap i { promptTokenIds := prompt, sampling := sampling, status := .waiting }
      accepted := s.accepted ++ [i] } := by
  have hsmall : s.scheduler.tooLarge ({ promptTokenIds := prompt, sampling := sampling } : Sequence P L) = none := by
    unfold Scheduler.tooLarge
    cases hp : s.scheduler.pool with
    | none => rfl
    | some p =>
      simp only [s.scheduler.needTokens_uncached hc]
      exact if_neg (Nat.not_lt.mpr (hpool p hp))
  have hplace : ¬s.scheduler.queue.maxWaiting ≤ s.scheduler.queue.waiting.length := Nat.not_le.mpr hplace
  unfold submit Scheduler.submit RequestQueue.tryEnqueue
  rw [hsmall]
  simp only [if_neg hplace]
  rfl

theorem live_submit (hi : i ∉ s.accepted) {sch : Scheduler P L} {seq : Sequence P L}
    (hw : sch.queue.waiting = s.waiting ++ [i]) :
    live { s with scheduler := sch, heap := update s.heap i seq, accepted := s.accepted ++ [i] } = s.live := by
  unfold live
  simp only
  rw [List.filter_append]
  have hself : List.filter (fun j => decide (Live { s with
      scheduler := sch, heap := update s.heap i seq, accepted := s.accepted ++ [i] } j)) [i] = [] := by
    apply List.filter_eq_nil_iff.mpr
    intro j hj
    rw [List.mem_singleton] at hj
    subst hj
    simp [Live,waiting,hw]
  rw [hself,List.append_nil]
  apply List.filter_congr
  intro j hj
  have hji : j ≠ i := fun heq => hi (heq ▸ hj)
  apply decide_eq_decide.mpr
  simp only [Live,waiting,hw,update_of_ne hji,List.mem_append,List.mem_singleton,hji,or_false]

end System

variable [Inhabited P] [Inhabited L] {eng : CachedEngine P L} {need : ℕ}

theorem Reachable.pool_of_reaches (h : Reachable eng s) (hr : Reaches (Step eng) s t) {p : BlockPool}
    (hp : t.scheduler.pool = some p) : ∃ q, s.scheduler.pool = some q ∧ q.shape = p.shape := by
  have hshape : t.scheduler.pool.map BlockPool.shape = s.scheduler.pool.map BlockPool.shape :=
    congrArg (fun x => x.2.1) (h.setup_eq hr)
  rw [hp,Option.map_some,eq_comm] at hshape
  exact Option.map_eq_some_iff.mp hshape

theorem Reachable.uncached_of_reaches (h : Reachable eng s) (hr : Reaches (Step eng) s t)
    (hc : s.scheduler.prefixCache = none) : t.scheduler.prefixCache = none := by
  have hsome : t.scheduler.prefixCache.isSome = s.scheduler.prefixCache.isSome :=
    congrArg (fun x => x.2.2) (h.setup_eq hr)
  rw [hc] at hsome
  simpa using hsome

theorem Reachable.roomy_reaches (h : Reachable eng s) (hroomy : s.Roomy need) (hr : Reaches (Step eng) s t)
    (hacc : t.accepted = s.accepted) : t.Roomy need := by
  refine ⟨h.uncached_of_reaches hr hroomy.uncached,?_,?_⟩
  · intro p hp i hi
    obtain ⟨q,hq,hshape⟩ := h.pool_of_reaches hr hp
    have htokens : (t.heap i).reservationTokens = (s.heap i).reservationTokens :=
      congrArg (fun r => r.1.length + r.2.maxTokens) (h.request_eq hr (hacc ▸ hi))
    have hle := hroomy.demand q hq i (hacc ▸ hi)
    unfold System.demand at hle ⊢
    rwa [htokens,BlockPool.blocksNeeded_congr hshape.symm]
  · intro p hp
    obtain ⟨q,hq,hshape⟩ := h.pool_of_reaches hr hp
    have hblocks : q.numBlocks = p.numBlocks := congrArg Prod.fst hshape
    rw [maxBatch_of_reaches hr,← hblocks]
    exact hroomy.batch q hq

/-- With seats left, the loop of `admit` takes as many from the front as it may. -/
theorem Reachable.admitLoop_front (h : Reachable eng s) (hroomy : s.Roomy need) (now : ℕ → ℕ) (room : ℕ)
    (hseats : s.live.length + room ≤ max s.live.length s.scheduler.maxBatch) :
    (Scheduler.admitLoop now room s.scheduler s.heap).1 = s.waiting.take room := by
  induction room generalizing s with
  | zero => rfl
  | succ room ih =>
    cases hw : s.waiting with
    | nil =>
      have hcand : s.scheduler.candidate s.heap = none := by
        cases hc : s.scheduler.candidate s.heap with
        | none => rfl
        | some i =>
          have hi : i ∈ s.waiting := Scheduler.candidate_mem hc
          rw [hw] at hi
          cases hi
      rcases s.scheduler.admitRound_eq s.heap (now room) with ⟨_,heq⟩ | ⟨i,hi,_⟩
      · rw [Scheduler.admitLoop,heq]
        rfl
      · rw [hcand] at hi
        cases hi
    | cons k rest =>
      have hb := h.books
      have hroom : ∀ p, s.scheduler.pool = some p → s.demand p k ≤ p.freeBlocks := by
        intro p hp
        have hk : k ∈ s.accepted := (hb.waiting k (by rw [hw]; exact List.mem_cons_self)).1
        exact (hroomy.demand p hp k hk).trans (hroomy.free hb hp (by omega))
      have hid := System.admitRound_front (Scheduler.keyed_of_reachable h) hroomy.uncached hw hroom (now room)
      have hseated := System.seated_of_admitRound hid hw
      have hr : Reaches (Step eng) s (s.admitRound (now room)) := (Reaches.refl s).tail (.admission (now room))
      have hlive := hseated.live_length hb hw
      have hnext := ih (h.tail hr) (h.roomy_reaches hroomy hr rfl) (by
        rw [hlive,maxBatch_of_reaches hr]
        omega)
      rw [hseated.waiting] at hnext
      rw [Scheduler.admitLoop,List.take_succ_cons]
      unfold System.admitRound at hnext
      rcases hround : s.scheduler.admitRound s.heap (now room) with ⟨o,sch,heap⟩
      rw [hround] at hid hnext
      cases hid
      simp only
      rw [← hnext]

theorem Reachable.unhindered (h : Reachable eng s) (hroomy : s.Roomy need) : s.Unhindered := by
  intro hrunning now
  have hnd : s.live.Nodup := h.books.nodup.filter _
  have hlive : s.live.length ≤ s.stats.running.length :=
    (hnd.subperm (fun i hi => hrunning i (System.mem_live.mp hi))).length_le
  exact h.admitLoop_front hroomy now (s.scheduler.maxBatch - s.stats.running.length) (by omega)

/-- Requests of one kind wait for a worker that has not started. -/
structure System.Lined (s₀ : System P L) (prompt : List Token) (sampling : SamplingParams) (m : ℕ) (t : System P L) :
    Prop where
  pool : t.scheduler.pool = s₀.scheduler.pool
  uncached : t.scheduler.prefixCache = none
  places : t.scheduler.queue.maxWaiting = s₀.scheduler.queue.maxWaiting
  request : ∀ i ∈ t.accepted, (t.heap i).request = (prompt,sampling)
  waiting : t.waiting.length = m
  live : t.live = []
  stats : t.stats = s₀.stats
  inFlight : t.inFlight = s₀.inFlight

/-- The queue can be filled with copies of one request. -/
theorem System.Initial.exists_lined {s₀ : System P L} (h0 : s₀.Initial) (hc : s₀.scheduler.prefixCache = none)
    {prompt : List Token} {sampling : SamplingParams}
    (hpool : ∀ p, s₀.scheduler.pool = some p → p.blocksNeeded (prompt.length + sampling.maxTokens) ≤ p.numBlocks)
    (m : ℕ) (hm : m ≤ s₀.scheduler.queue.maxWaiting) :
    ∃ t, Reaches (guarded (fun ev _ => ev.isRequest = true) (Step eng)) s₀ t ∧ s₀.Lined prompt sampling m t := by
  induction m with
  | zero =>
    refine ⟨s₀,.refl s₀,rfl,hc,rfl,?_,?_,?_,rfl,rfl⟩
    · rw [h0.accepted]
      simp
    · rw [h0.waiting]
      rfl
    · unfold System.live
      rw [h0.accepted]
      rfl
  | succ m ih =>
    obtain ⟨t,hr,ht⟩ := ih (Nat.le_of_succ_le hm)
    obtain ⟨i,hi⟩ := Infinite.exists_notMem_finset t.accepted.toFinset
    rw [List.mem_toFinset] at hi
    refine ⟨t.submit i prompt sampling,hr.tail ⟨rfl,.submit prompt sampling hi⟩,?_⟩
    have hplace : t.waiting.length < t.scheduler.queue.maxWaiting := by
      rw [ht.waiting,ht.places]
      exact hm
    rw [System.submit_uncached ht.uncached hplace (by rw [ht.pool]; exact hpool)]
    refine ⟨ht.pool,ht.uncached,ht.places,?_,?_,(System.live_submit hi rfl).trans ht.live,ht.stats,ht.inFlight⟩
    · intro j hj
      by_cases hji : j = i
      · simp only [hji,update_self]
        rfl
      · simp only [update_of_ne hji]
        exact ht.request j (by simpa [hji] using hj)
    · simp only [System.waiting]
      rw [List.length_append,List.length_singleton]
      exact congrArg (· + 1) ht.waiting

end FluxEngine
