import FluxEngine.Lib.Liveness
import FluxEngine.Serving.LateBinding
import FluxEngine.Serving.Seniority
import FluxEngine.Serving.Workers

/-! # No starvation

Under first come, first served a request that the pool can hold is served in
every fair run.  A round gives a token to somebody senior to it: while anyone
runs, to all of these, and with nobody running the pool is idle, so that the
head of the queue gets in.
-/
namespace FluxEngine
open Transition Interleaving Function
variable {P L : Type} {s t : System P L} {i j k : SeqId}

namespace Scheduler
variable {sch : Scheduler P L} {seq : Sequence P L}

/-- The pool holds the request and `n` blocks besides. -/
def Spares (sch : Scheduler P L) (n : ℕ) (seq : Sequence P L) : Prop :=
  ∀ p, sch.pool = some p → p.blocksNeeded seq.reservationTokens + n ≤ p.numBlocks

theorem needTokens_le (seq : Sequence P L) : sch.needTokens seq ≤ seq.reservationTokens := by
  unfold needTokens
  split
  · exact le_rfl
  · exact Nat.sub_le _ _

theorem Spares.affordable {n : ℕ} (h : sch.Spares n seq) : sch.Affordable seq := by
  intro p hp
  have hle := h p hp
  have hneed := p.blocksNeeded_mono (sch.needTokens_le seq)
  omega

theorem Spares.seats (h : sch.Spares (if sch.prefixCache.isSome then 1 else 0) seq) : sch.Seats seq := by
  refine ⟨h.affordable,?_⟩
  intro p hit hp hpeek
  have hle := h p hp
  obtain ⟨c,e,hc,_,hhit⟩ := peekPrefix_eq_some hpeek
  have hneed : sch.needTokens seq = seq.reservationTokens - hit.nTokens := by
    unfold needTokens
    rw [hpeek]
  have hfits : hit.nTokens ≤ seq.reservationTokens := Nat.le_add_right_of_le hhit.atMost
  have hgap := p.blocksNeeded_add hit.nTokens (seq.reservationTokens - hit.nTokens)
  rw [Nat.add_sub_cancel' hfits] at hgap
  simp only [hc,Option.isSome_some,if_true] at hle
  right
  rw [hneed]
  split at hgap
  · omega
  · omega

theorem Spares.congr {sch' : Scheduler P L} {seq' : Sequence P L} {n : ℕ} (h : sch.Spares n seq)
    (hset : sch'.setup = sch.setup) (hseq : seq'.request = seq.request) : sch'.Spares n seq' := by
  intro p' hp'
  have hshape : sch'.pool.map BlockPool.shape = sch.pool.map BlockPool.shape := congrArg (fun x => x.2.1) hset
  rw [hp',Option.map_some,eq_comm] at hshape
  obtain ⟨p,hp,hshape⟩ := Option.map_eq_some_iff.mp hshape
  have hle := h p hp
  have htokens : seq'.reservationTokens = seq.reservationTokens :=
    congrArg (fun r => r.1.length + r.2.maxTokens) hseq
  have hblocks : p.numBlocks = p'.numBlocks := congrArg Prod.fst hshape
  rw [htokens,BlockPool.blocksNeeded_congr hshape.symm,← hblocks]
  exact hle

theorem admits_head (hk : sch.Keyed) (hp : sch.policy = .fcfs) {held : List Token → ℕ} (hb : sch.Books False held)
    (hidle : sch.Idle) {heap : Heap P L} {rest : List SeqId} (hw : sch.queue.waiting = k :: rest)
    (hseats : sch.Seats (heap k)) {n : ℕ} (hroom : n < sch.maxBatch) (now : ℕ → ℕ) :
    k ∈ (sch.admitRequests heap n now).1 := by
  obtain ⟨room,hroom⟩ : ∃ room, sch.maxBatch - n = room + 1 := ⟨sch.maxBatch - n - 1,by omega⟩
  have hround : sch.admitRound heap (now room) = sch.fcfsRound heap (now room) := by
    unfold admitRound
    rw [hp]
  unfold admitRequests
  rw [hroom,admitLoop,hround]
  rcases fcfsRound_cases hk heap (now room) with ⟨hnil,_⟩ | ⟨_,_,_,_,i,time,hpeek,hblocked⟩ | ⟨i,sch',heap',heq,hhead⟩
  · rw [hw] at hnil
    cases hnil
  · have hik : i = k := by
      simp only [RequestQueue.peekOne,hw,List.head?_cons,Option.some.injEq] at hpeek
      exact hpeek.symm
    subst hik
    have hbq : Books False { sch with queue := sch.queue.popOne.2 } held :=
      hb.setPool rfl rfl (fun p hp => hb.balanced hp)
    have hiq : Idle { sch with queue := sch.queue.popOne.2 } := ⟨hidle.blocks,hidle.refs⟩
    rw [(hiq.tryAllocate_iff i hbq time hseats.1).mpr hseats] at hblocked
    cases hblocked
  · rw [hw] at hhead
    rw [heq]
    exact List.mem_cons.mpr (Or.inl (List.cons.inj hhead).1)

end Scheduler

namespace System

theorem Books.idle (h : s.Books False) (hnone : ∀ i, ¬s.Live i) : s.scheduler.Idle := by
  constructor
  · intro p hp
    exact (h.books.balanced hp).usedBlocks_eq_zero (h.owned_eq_zero hnone hp) (h.pins_eq_zero hnone)
  · intro c k e hc he
    have hb := h.books
    unfold Scheduler.Books at hb
    rw [hc] at hb
    rw [hb.refs_eq he,h.held_eq_zero hnone k]

theorem submit_spares {prompt : List Token} {sampling : SamplingParams} (hc : s.scheduler.prefixCache = none)
    (hi : i ∉ s.accepted) (hacc : i ∈ (s.submit i prompt sampling).accepted) :
    s.scheduler.Spares 0 ((s.submit i prompt sampling).heap i) := by
  rcases s.submit_cases i prompt sampling with heq | ⟨queue,_,heq⟩
  · rw [heq] at hacc
    exact absurd hacc hi
  · intro p hp
    by_contra hlarge
    have hsame : s.submit i prompt sampling = s := by
      rw [heq] at hlarge
      simp only [update_self,Nat.add_zero,not_le] at hlarge
      unfold submit Scheduler.submit Scheduler.tooLarge Scheduler.needTokens Scheduler.peekPrefix
      simp only [hp,hc,Option.bind_none,if_pos hlarge]
    rw [hsame] at hacc
    exact hi hacc

/-- First come, first served, and with a prefix cache a block to spare for everybody
up to `i`. -/
structure Accommodates (s : System P L) (i : SeqId) : Prop where
  policy : s.scheduler.policy = .fcfs
  batch : 1 ≤ s.scheduler.maxBatch
  accepted : i ∈ s.accepted
  spares : s.scheduler.prefixCache.isSome = true → ∀ j ∈ s.upTo i, s.scheduler.Spares 1 (s.heap j)

end System

variable [Inhabited P] [Inhabited L] {eng : CachedEngine P L} {may : Site → Bool}

theorem Reachable.spares_uncached (h : Reachable eng s) (hc : s.scheduler.prefixCache = none) (hj : j ∈ s.accepted) :
    s.scheduler.Spares 0 (s.heap j) := by
  have hinv : Reachable eng s ∧ (s.scheduler.prefixCache = none → ∀ j ∈ s.accepted, s.scheduler.Spares 0 (s.heap j)) := by
    obtain ⟨s₀,h0,hr⟩ := h
    refine hr.invariant (P := fun s => Reachable eng s ∧
      (s.scheduler.prefixCache = none → ∀ j ∈ s.accepted, s.scheduler.Spares 0 (s.heap j))) ⟨⟨s₀,h0,.refl s₀⟩,?_⟩ ?_
    · intro _ j hj
      rw [h0.accepted] at hj
      cases hj
    · rintro ev t u ⟨ht,hspares⟩ hst
      have hone := (Reaches.refl t).tail hst
      refine ⟨ht.tail hone,?_⟩
      intro hcu j hj
      have hset := hst.setup ht.books
      have hct : t.scheduler.prefixCache = none := by
        have hsome : u.scheduler.prefixCache.isSome = t.scheduler.prefixCache.isSome := congrArg (fun x => x.2.2) hset
        rw [hcu] at hsome
        simpa using hsome.symm
      by_cases hjt : j ∈ t.accepted
      · exact (hspares hct j hjt).congr hset (ht.request_eq hone hjt)
      · obtain ⟨prompt,sampling,rfl⟩ := hst.accepts hj hjt
        exact (System.submit_spares hct hjt hj).congr hset rfl
  exact hinv.2 hc j hj

namespace System.Accommodates

theorem seats (h : s.Accommodates i) (hinv : Reachable eng s) (hj : j ∈ s.upTo i) : s.scheduler.Seats (s.heap j) := by
  refine Scheduler.Spares.seats ?_
  cases hc : s.scheduler.prefixCache with
  | none => exact hinv.spares_uncached hc (System.accepted_of_upTo hj)
  | some c => exact h.spares (by rw [hc]; rfl) j hj

theorem reaches (h : s.Accommodates i) (hinv : Reachable eng s) (hr : Reaches (Step eng) s t) : t.Accommodates i := by
  have hset := hinv.setup_eq hr
  have hup := upTo_of_reaches hr h.accepted
  constructor
  · exact (congrArg Prod.fst hset).trans h.policy
  · rw [maxBatch_of_reaches hr]
    exact h.batch
  · exact hinv.accepted_run hr h.accepted
  · intro hc j hj
    rw [hup] at hj
    have hcache : t.scheduler.prefixCache.isSome = s.scheduler.prefixCache.isSome := congrArg (fun x => x.2.2) hset
    exact (h.spares (hcache ▸ hc) j hj).congr hset (hinv.request_eq hr (System.accepted_of_upTo hj))

end System.Accommodates

theorem Reachable.admits_senior (h : Reachable eng s) (hacc : s.Accommodates i) (hnone : ∀ j, ¬s.Live j)
    (hopen : (s.heap i).status.terminal = false) {n : ℕ} (hroom : n < s.scheduler.maxBatch) (now : ℕ → ℕ) :
    ∃ k ∈ (s.scheduler.admitRequests s.heap n now).1, k ∈ s.upTo i := by
  have hwait : i ∈ s.waiting := by
    by_contra hw
    exact hnone i ⟨hacc.accepted,hw,hopen⟩
  cases hw : s.waiting with
  | nil =>
    rw [hw] at hwait
    cases hwait
  | cons k rest =>
    have hsenior := (h.inLine hacc.policy).head_upTo hw hwait
    exact ⟨k,Scheduler.admits_head (Scheduler.keyed_of_reachable h) hacc.policy h.books.books (h.books.idle hnone) hw
      (hacc.seats h hsenior) hroom now,hsenior⟩

/-- Since `s` the sequence has ended, or somebody up to it has come further. -/
def Advanced (s : System P L) (i : SeqId) (t : System P L) : Prop :=
  (t.heap i).status.terminal = true ∨ ∃ j ∈ s.upTo i, (s.heap j).status.terminal = false ∧
    ((t.heap j).status.terminal = true ∨ (s.heap j).outputIds.length < (t.heap j).outputIds.length)

theorem Advanced.due_lt (h : Advanced s i t) (hinv : Reachable eng s) (hr : Reaches (Step eng) s t) :
    (t.heap i).status.terminal = true ∨ t.due (s.upTo i) < s.due (s.upTo i) := by
  refine h.imp_right ?_
  rintro ⟨j,hj,hopen,hmoved⟩
  exact hinv.due_lt hr (fun k hk => System.accepted_of_upTo hk) hj hopen hmoved

theorem Reachable.fresh_before (h : Reachable eng s) (hr : Reaches (Step eng) s t) (hk : k ∈ s.accepted)
    (hfresh : Fresh (t.own k)) : (s.heap k).status.terminal = false ∧ (s.heap k).outputIds.length = 0 := by
  have hopen : (t.heap k).status.terminal = false := hfresh.isOpen
  have hempty : (t.heap k).outputIds = [] := hfresh.outputIds
  constructor
  · by_contra hend
    rw [h.terminal_mono hr hk (by simpa using hend)] at hopen
    cases hopen
  · have hle := (h.output_prefix hr hk).length_le
    rw [hempty] at hle
    exact Nat.le_zero.mp hle

namespace Worker
variable {s₁ : System P L} {E : Exc → System P L → Prop} {Φ : SeqId → Own P L → Prop} {run : List SeqId} {n : SeqId → ℕ}

/-- What the admission of a worker that runs nobody brings: somebody up to `i`, who had
got nothing in `s₁`, unless `i` has ended. -/
structure Received (eng : CachedEngine P L) (count : System P L → ℕ) (s₁ : System P L) (i : SeqId)
    (admitted : List SeqId) (t : System P L) : Prop where
  crew : Crew none admitted [] (fun _ => Fresh) t
  reaches : Reaches (Step eng) s₁ t
  room : ∃ u : System P L, admitted.length ≤ u.scheduler.maxBatch - count u
  senior : (t.heap i).status.terminal = true ∨ ∃ k ∈ admitted, k ∈ s₁.upTo i ∧
    (s₁.heap k).status.terminal = false ∧ (s₁.heap k).outputIds.length = 0

theorem safe_admitSenior {count : System P L → ℕ} (hcount : ∀ t : System P L, t.stats.running = [] →
      1 ≤ t.scheduler.maxBatch → count t < t.scheduler.maxBatch) (hΦ : ∀ i, Patient (Φ i)) (hinv₁ : Reachable eng s₁)
    (hacc₁ : s₁.Accommodates i) (hs : Reaches (Step eng) s₁ s) (h : Crew none [] [] Φ s) :
    (admitRequests count : Thread P L (List SeqId)).Safe (serving eng may) (Received eng count s₁ i) E s := by
  have hstable : (serving eng may).Stable (fun t => Crew none [] [] Φ t ∧ Reaches (Step eng) s₁ t) :=
    (Crew.stable hΦ).and (fun _ _ ⟨_,_,_,hst⟩ ht => ht.tail hst)
  refine Prog.safe_act hstable ⟨h,hs⟩ (by simp) ?_
  rintro t ⟨ht,hst⟩ hinv _ w _
  have hacc := hacc₁.reaches hinv₁ hst
  obtain ⟨admitted,sch,heap,hloop,hlen,hreach,hnext⟩ := admitLoop_crew w.now (t.scheduler.maxBatch - count t) hinv ht
  have hsch : t.scheduler.admitRequests t.heap (count t) w.now = (admitted,sch,heap) := hloop
  rw [hsch]
  have hend := hst.trans (Orderly.reaches hreach)
  refine ⟨effect_of_reaches hreach ht.flight hnext.flight trivial,hnext.mono (fun j hj hown => hown.2 hj),hend,⟨t,hlen⟩,?_⟩
  cases hopen : (t.heap i).status.terminal with
  | true => exact Or.inl (hinv.terminal_mono (Orderly.reaches hreach) hacc.accepted hopen)
  | false =>
    have hnone : ∀ j, ¬t.Live j := fun j hj => List.not_mem_nil (ht.complete j hj)
    obtain ⟨k,hk,hsenior⟩ := hinv.admits_senior hacc hnone hopen (hcount t ht.running hacc.batch) w.now
    rw [hsch] at hk
    rw [upTo_of_reaches hst hacc₁.accepted] at hsenior
    have hfresh := hinv₁.fresh_before hend (System.accepted_of_upTo hsenior) ((hnext.own k hk).2 hk)
    exact Or.inr ⟨k,hk,hsenior,hfresh⟩

theorem Received.advanced {count : System P L → ℕ} {admitted : List SeqId} (h : Received eng count s i admitted t) (hinv : Reachable eng s)
    (hi : i ∈ s.accepted) {u : System P L} (htu : Reaches (Step eng) t u)
    (hserved : ∀ k ∈ admitted, Ended (u.own k) ∨ 1 ≤ (u.heap k).outputIds.length) : Advanced s i u := by
  obtain ⟨_,hst,_,hend | ⟨k,hk,hsenior,hopen,hnone⟩⟩ := h
  · exact Or.inl ((hinv.tail hst).terminal_mono htu (hinv.accepted_run hst hi) hend)
  · refine Or.inr ⟨k,hsenior,hopen,(hserved k hk).imp_right ?_⟩
    intro hlength
    omega

theorem safe_serveReceived {count : System P L → ℕ} {admitted : List SeqId} (hinv : Reachable eng s)
    (hi : i ∈ s.accepted) (h : Received eng count s i admitted t) :
    (do startAll eng admitted; decodePhase eng : Thread P L Unit).Safe (serving eng may) (fun _ u => Advanced s i u)
      (Uncovered may) t := by
  have hstart : Crew none admitted [] (Staged [] (admitted ++ []) (fun _ => Ready 0) (fun _ => Fresh) (fun _ => Ended)) t := by
    rw [List.append_nil]
    exact h.crew.mono (fun j hj hown => ⟨by simp,fun _ => hown,fun _ hn => absurd hj hn⟩)
  have hnd : ([] ++ (admitted ++ [])).Nodup := by
    rw [List.nil_append,List.append_nil]
    exact h.crew.nodup
  have hsub : admitted ++ [] ⊆ admitted := by
    rw [List.append_nil]
    exact List.Subset.refl _
  refine (safe_since (safe_startAll hnd hsub (fun _ _ => rfl) hstart) (.refl t)).bind ?_
  rintro _ u ⟨⟨run,hnd,hsub,hcrew⟩,htu⟩
  rw [List.append_nil] at hnd
  have hdecode : (decodePhase eng).Safe (serving eng may)
      (fun _ v => ∃ run', run' ⊆ run ∧ Served (fun _ => 0) admitted run' v) (Uncovered may) u :=
    (safe_decodePhase hnd hsub le_rfl hcrew).of_within
  refine (safe_since hdecode htu).mono ?_ (fun _ _ => id)
  rintro _ v ⟨⟨run',_,_,_,hserved⟩,htv⟩
  refine h.advanced hinv hi htv ?_
  intro k hk
  by_cases hkr : k ∈ run'
  · exact Or.inr ((hserved.own k hk).1 hkr).length
  · exact Or.inl ((hserved.own k hk).2.2 hkr (by simp))

/-- A round of the continuous worker with nobody running. -/
theorem safe_continuousRound_vacant (hinv : Reachable eng s) (hacc : s.Accommodates i) (h : AtTop (fun _ => 0) [] s) :
    (continuousRound eng).Safe (serving eng may) (fun more t => more = true → Advanced s i t) (Uncovered may) s := by
  have hready : ∀ i, Patient ((fun _ => Ready 0 : SeqId → Own P L → Prop) i) := fun _ => patient_ready
  have hcount : ∀ t : System P L, t.stats.running = [] → 1 ≤ t.scheduler.maxBatch →
      runningCount t < t.scheduler.maxBatch := by
    intro t ht hmax
    unfold runningCount
    rwa [ht]
  unfold continuousRound
  refine (safe_since (safe_look _ hready h) (.refl s)).bind ?_
  rintro stopped t ⟨⟨h,_⟩,hst⟩
  split
  · exact fun hf => absurd hf Bool.false_ne_true
  · refine (safe_since (safe_waitIfIdle hready h (fun _ _ _ => rfl)) hst).bind ?_
    rintro _ t ⟨h,hst⟩
    refine (safe_since (safe_look _ hready h) hst).bind ?_
    rintro stopped t ⟨⟨h,_⟩,hst⟩
    split
    · exact fun hf => absurd hf Bool.false_ne_true
    · unfold iterate
      refine Prog.Safe.bind (Q := fun _ u => Advanced s i u) ?_ (fun _ _ hu _ => hu)
      refine (safe_since (safe_dropAborted h) hst).bind ?_
      rintro _ u ⟨⟨kept,_,hkept,h⟩,hsu⟩
      rw [List.subset_nil] at hkept
      subst hkept
      refine (safe_admitSenior hcount ?_ hinv hacc hsu h).bind ?_
      · exact patient_staged (fun _ => patient_ready) (fun _ => patient_ready) (fun _ => patient_ended)
      · exact fun admitted v hv => safe_serveReceived hinv hacc.accepted hv

theorem safe_continuousRound_busy (h : Rested s) (hlive : s.Live j) (hsenior : j ∈ s.upTo i) :
    (continuousRound eng).Safe (serving eng may) (fun more t => more = true → Advanced s i t) (Uncovered may) s := by
  classical
  obtain ⟨run,h⟩ := h
  have htop : AtTop (fun k => if k ∈ run then (s.heap k).outputIds.length else 0) run s := by
    apply h.mono
    intro k hk hown
    refine ⟨hown.status,hown.lastToken,hown.kvCache,hown.reason,?_⟩
    exact (if_pos hk).le
  refine (safe_continuousRound (fun k hk => if_neg hk) htop).mono ?_ (fun _ _ => id)
  intro more t ht hmore
  subst hmore
  obtain ⟨ids,run',_,hsub,_,_,_,_,hserved⟩ := ht
  have hjr := h.complete j hlive
  refine Or.inr ⟨j,hsenior,hlive.2.2,?_⟩
  by_cases hj : j ∈ run'
  · have hlength : (if j ∈ run then (s.heap j).outputIds.length else 0) + 1 ≤ (t.heap j).outputIds.length :=
      ((hserved.own j (hsub hjr)).1 hj).length
    rw [if_pos hjr] at hlength
    exact Or.inr hlength
  · exact Or.inl ((hserved.own j (hsub hjr)).2.2 hj (by simp))

theorem safe_queuedRound_vacant (hinv : Reachable eng s) (hacc : s.Accommodates i) (h : Vacant s) :
    (queuedRound eng).Safe (serving eng may) (fun more t => more = true → Advanced s i t) (Uncovered may) s := by
  have hend : ∀ j, Patient ((fun _ => Ended : SeqId → Own P L → Prop) j) := fun _ => patient_ended
  unfold queuedRound
  refine (safe_since (safe_look _ hend h) (.refl s)).bind ?_
  rintro stopped t ⟨⟨h,_⟩,hst⟩
  split
  · exact fun hf => absurd hf Bool.false_ne_true
  · refine (safe_since (safe_waitIfIdle hend h (fun _ _ _ => rfl)) hst).bind ?_
    rintro _ t ⟨h,hst⟩
    refine (safe_since (safe_look _ hend h) hst).bind ?_
    rintro stopped t ⟨⟨h,_⟩,hst⟩
    split
    · exact fun hf => absurd hf Bool.false_ne_true
    · have hcount : ∀ t : System P L, t.stats.running = [] → 1 ≤ t.scheduler.maxBatch →
          heldBack t < t.scheduler.maxBatch := by
        intro t _ hmax
        unfold heldBack
        omega
      refine (safe_admitSenior hcount hend hinv hacc hst h).bind ?_
      intro admitted v hv
      cases admitted with
      | nil => exact fun _ => hv.advanced hinv hacc.accepted (.refl v) (fun k hk => absurd hk List.not_mem_nil)
      | cons k rest =>
        have hnil : rest = [] := by
          obtain ⟨u,hroom⟩ := hv.room
          unfold heldBack at hroom
          rw [List.length_cons] at hroom
          exact List.eq_nil_of_length_eq_zero (by omega)
        subst hnil
        refine Prog.Safe.bind (Q := fun _ u => Advanced s i u) ?_ (fun _ _ hu _ => hu)
        refine (safe_since (safe_serveOne hv.crew) (.refl v)).mono ?_ (fun _ _ => id)
        rintro _ u ⟨hcrew,hvu⟩
        exact hv.advanced hinv hacc.accepted hvu (fun k hk => Or.inl (hcrew.own k hk))

end Worker

theorem ServeEngine.safe_round (mode : ServeEngine) (hinv : Reachable eng s) (hacc : s.Accommodates i)
    (hrest : mode.Rest s) (hopen : (s.heap i).status.terminal = false) :
    (mode.service eng).body.Safe (serving eng may) (fun more t => more = true → Advanced s i t)
      (Worker.Uncovered may) s := by
  cases mode with
  | queued => exact Worker.safe_queuedRound_vacant hinv hacc hrest
  | continuous =>
    by_cases hlive : ∃ j, s.Live j
    · have hsenior : ∃ j ∈ s.upTo i, s.Live j := by
        by_cases hw : i ∈ s.waiting
        · obtain ⟨j,hj⟩ := hlive
          exact ⟨j,(hinv.inLine hacc.policy).live_upTo hw hj,hj⟩
        · exact ⟨i,System.self_mem_upTo hacc.accepted,hacc.accepted,hw,hopen⟩
      obtain ⟨j,hj,hlive⟩ := hsenior
      exact Worker.safe_continuousRound_busy hrest hlive hj
    · obtain ⟨run,h⟩ := hrest
      have hnil : run = [] := by
        rw [List.eq_nil_iff_forall_not_mem]
        exact fun j hj => hlive ⟨j,h.live hj (h.own j hj).isOpen⟩
      subst hnil
      exact Worker.safe_continuousRound_vacant hinv hacc h

theorem goal_terminal (i : SeqId) :
    Service.Goal (serving eng may) (fun s => s.Accommodates i) (fun s => (s.heap i).status.terminal = true) := by
  constructor
  · rintro s t hs hI ⟨ev,_,hst⟩
    exact hI.reaches hs ((Reaches.refl s).tail hst)
  · rintro l w s t hs hI _ ⟨hr,_⟩
    exact hI.reaches hs (Orderly.reaches hr)
  · rintro s t hs hI ⟨ev,_,hst⟩ hend
    exact hs.terminal_mono ((Reaches.refl s).tail hst) hI.accepted hend
  · exact fun s _ hI hidle => hidle i hI.accepted
  · intro l
    refine ⟨{},?_⟩
    intro _ _ _ hraises
    cases hraises

theorem ServeEngine.inevitable_terminal {mode : ServeEngine} {c : WorkerControl P L × System P L}
    (hruns : mode.Runs eng may c) (hcov : ∀ site, may site = true → site.covered = true) (hret : c.1 ≠ .returned)
    (hacc : c.2.Accommodates i) :
    (mode.service eng).Inevitable (serving eng may) (fun s => (s.heap i).status.terminal = true) c := by
  refine mode.verified.inevitable (goal_terminal i) ?_ ?_ (fun s => s.due (s.upTo i)) ?_ hruns.good hacc hret
  · rintro e t ⟨site,hmay,hun⟩
    rw [hcov site hmay] at hun
    cases hun
  · exact fun s hdone hI => hdone.1.2 i hI.accepted
  · intro s hs hI hrest hopen
    refine (Worker.safe_since (mode.safe_round hs hI hrest (by simpa using hopen)) (.refl s)).mono ?_
      (fun _ _ _ => trivial)
    rintro more t ⟨hadv,hst⟩ hmore
    rw [upTo_of_reaches hst hI.accepted]
    exact (hadv hmore).due_lt hs hst

theorem ServeEngine.runs_of_behaviour {mode : ServeEngine} (b : (mode.service eng).Behaviour (serving eng may))
    (hboot : ∃ s, s.Boot ∧ b.config 0 = ((mode.service eng).start,s)) (m : ℕ) : mode.Runs eng may (b.config m) := by
  obtain ⟨s,hs,h0⟩ := hboot
  exact ⟨s,hs,h0 ▸ b.reaches (Nat.zero_le m)⟩

/-- Where only covered calls raise, an accommodated sequence ends in every fair run,
unless it was accepted after the worker had returned. -/
theorem ends_in_fair_run {mode : ServeEngine} (b : (mode.service eng).Behaviour (serving eng may)) (hfair : b.Fair)
    (hboot : ∃ s, s.Boot ∧ b.config 0 = ((mode.service eng).start,s))
    (hcov : ∀ site, may site = true → site.covered = true) {n : ℕ} (hret : (b.config n).1 ≠ .returned)
    (hacc : (b.config n).2.Accommodates i) :
    ∃ m, n ≤ m ∧ ((b.config m).2.heap i).status.terminal = true ∧ ((b.config m).2.heap i).Signalled := by
  have hruns := ServeEngine.runs_of_behaviour b hboot
  obtain ⟨m,hm,hend⟩ := (ServeEngine.inevitable_terminal (hruns n) hcov hret hacc).happens b hfair rfl
  have hi : i ∈ (b.config m).2.accepted :=
    (hruns n).reachable.accepted_run ((hruns n).reaches (b.reaches hm)).2 hacc.accepted
  exact ⟨m,hm,hend,(hruns m).reachable.signalled hi⟩

theorem Site.covered_of_isModel {site : Site} (h : site.isModel = true) : site.covered = true := by
  cases site <;> first | rfl | cases h

def twoWaiting : System ℕ Token := (roomySystem.submit 0 [5,6] twoTokens).submit 1 [7] twoTokens

def servedAndStopped : List ServeEngine.Move :=
  List.replicate 60 (.act {}) ++ .request .requestStop :: List.replicate 3 (.act {}) ++ [.request .requestStop]

theorem twoWaiting_accommodates : twoWaiting.Accommodates 1 := by
  refine ⟨rfl,by decide,by decide,?_⟩
  intro _ j hj p hp
  cases hp
  have hall : ∀ j ∈ twoWaiting.upTo 1, BlockPool.blocksNeeded ⟨8,1,List.range 8,.empty,.empty,by decide,Nat.one_pos⟩
      (twoWaiting.heap j).reservationTokens + 1 ≤ 8 := by decide
  exact hall j hj

theorem ends_in_fair_run_two : ∃ (b : (ServeEngine.continuous.service (FakeLm.engine {})).Behaviour
    (serving (FakeLm.engine {}) Site.isModel)) (n m : ℕ), b.Fair ∧ (b.config n).2 = twoWaiting ∧ n ≤ m ∧
      ((b.config m).2.heap 1).status.terminal = true := by
  have hsubmit : Reaches (ServeEngine.continuous.Next (FakeLm.engine {}) Site.isModel)
      ((ServeEngine.continuous.service (FakeLm.engine {})).start,roomySystem)
      ((ServeEngine.continuous.service (FakeLm.engine {})).start,twoWaiting) :=
    ((Reaches.refl _).tail (.env ⟨_,rfl,.submit [5,6] twoTokens (by decide)⟩)).tail
      (.env ⟨_,rfl,.submit [7] twoTokens (by decide)⟩)
  have hplay : ∃ s : System ℕ Token, ServeEngine.continuous.play (FakeLm.engine {}) Site.isModel servedAndStopped
      ((ServeEngine.continuous.service (FakeLm.engine {})).start,twoWaiting) = some (.returned,s.requestStop) :=
    ⟨_,rfl⟩
  obtain ⟨s,hs⟩ := hplay
  obtain ⟨b,n,hfair,h0,hn⟩ := Service.exists_fair hsubmit (ServeEngine.continuous.play_sound hs)
    (fun _ => rfl) ⟨.requestStop,rfl,.requestStop⟩
  have hret : (b.config n).1 ≠ .returned := by
    rw [hn]
    exact fun h => by cases h
  have hacc : (b.config n).2.Accommodates 1 := by
    rw [hn]
    exact twoWaiting_accommodates
  obtain ⟨m,hm,hend,_⟩ := ends_in_fair_run b hfair ⟨roomySystem,roomySystem_boot,h0⟩
    (fun _ => Site.covered_of_isModel) hret hacc
  exact ⟨b,n,m,hfair,by rw [hn],hm,hend⟩

end FluxEngine
