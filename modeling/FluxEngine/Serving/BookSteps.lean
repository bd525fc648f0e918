import FluxEngine.Serving.Books

/-! # Every step keeps the books -/
namespace FluxEngine
open OrderedDict
namespace System
variable {P L : Type} {full : Prop} {s t : System P L} {i j : SeqId}
variable {mark : Sequence P L → Sequence P L}

/-- A mark sets an ending and touches neither the prefix nor the blocks. -/
structure Ends (mark : Sequence P L → Sequence P L) : Prop where
  terminal : ∀ x, (mark x).status.terminal = true
  prefixKey : ∀ x, (mark x).prefixKey = x.prefixKey
  fallbackIds : ∀ x, BlockPool.fallbackIds (mark x) = BlockPool.fallbackIds x
  generated : ∀ x, (mark x).generated = x.generated

theorem ends_abort : Ends (fun x : Sequence P L => { x with status := .aborted }) :=
  ⟨fun _ => rfl,fun _ => rfl,fun _ => rfl,fun _ => rfl⟩

theorem ends_fail (e : Exc) : Ends (fun x : Sequence P L => { x with error := some e, status := .error }) :=
  ⟨fun _ => rfl,fun _ => rfl,fun _ => rfl,fun _ => rfl⟩

theorem ends_finish (r : GenerateResult) :
    Ends (fun x : Sequence P L => { x with result := some r, status := .finished }) :=
  ⟨fun _ => rfl,fun _ => rfl,fun _ => rfl,fun _ => rfl⟩

theorem Ends.terminated (hm : Ends mark) : ((s.terminate i mark).heap i).status.terminal = true := by
  rw [Sequence.status_of_life terminate_heap_self.1]
  exact hm.terminal _

theorem Ends.generated_eq (hm : Ends mark) :
    ((s.terminate i mark).heap i).generated = (s.heap i).generated := by
  rw [Sequence.generated_of_life terminate_heap_self.1]
  exact hm.generated _

/-- Books of the scheduler, shape and allocation table after an ending. -/
theorem terminate_scheduler (hnd : s.accepted.Nodup) (hb : s.scheduler.Books full s.held)
    (hi : i ∈ s.accepted) (hlive : (s.heap i).status.terminal = false) (hm : Ends mark)
    (halloc : ∀ p, s.scheduler.pool = some p → (∃ ids, p.alloc.get? i = some ids) ∨
      p.alloc.get? i = none ∧ BlockPool.fallbackIds (s.heap i) = []) :
    (s.terminate i mark).scheduler.Books full (s.terminate i mark).held ∧
    (s.terminate i mark).scheduler.pool.map BlockPool.shape = s.scheduler.pool.map BlockPool.shape ∧
    (s.terminate i mark).scheduler.pool.map BlockPool.alloc =
      s.scheduler.pool.map (fun p => p.alloc.pop i) := by
  obtain ⟨sch,hrel,hsh,hal,hbs⟩ : ∃ sch : Scheduler P L,
      s.scheduler.releasePrefix (mark (s.heap i)).prefixKey = sch ∧
      sch.pool.map BlockPool.shape = s.scheduler.pool.map BlockPool.shape ∧
      sch.pool.map BlockPool.alloc = s.scheduler.pool.map BlockPool.alloc ∧
      sch.Books full (s.terminate i mark).held := by
    rw [hm.prefixKey]
    have hheld := held_ended (s := s) (t := s.terminate i mark) rfl hnd hi (fun j hj => terminate_heap_of_ne hj)
      hlive hm.terminated
    cases hk : (s.heap i).prefixKey with
    | none =>
      rw [hk] at hheld
      refine ⟨s.scheduler,Scheduler.releasePrefix_none,rfl,rfl,?_⟩
      rw [hheld]
      exact hb
    | some k =>
      rw [hk] at hheld
      obtain ⟨cache,pool,heq,h1,h2,h3⟩ := hb.releasePrefix hheld.1
      refine ⟨_,heq,h1,h2,?_⟩
      rw [hheld.2]
      exact h3
  have hcache : (s.terminate i mark).scheduler.prefixCache = sch.prefixCache := by
    rw [terminate_prefixCache,hrel]
  have hpool : (s.terminate i mark).scheduler.pool = _ := terminate_pool
  rw [hrel] at hpool
  cases hp : sch.pool with
  | none =>
    rw [hp] at hpool hsh hal
    have hn : s.scheduler.pool = none := by simpa using hsh.symm
    rw [hpool,hn]
    refine ⟨?_,rfl,rfl⟩
    refine hbs.setPool hcache (by rw [hpool,hp]; rfl) ?_
    rw [hpool]
    intro q hq
    cases hq
  | some p' =>
    rw [hp,Option.map_some] at hpool
    rw [hp] at hsh hal
    obtain ⟨p,hsp,hs⟩ := Option.map_eq_some_iff.mp (hsh.symm.trans (Option.map_some ..))
    rw [hsp,Option.map_some,Option.map_some,Option.some.injEq] at hal
    have hbal := hbs.balanced hp
    have hfree : ∃ q, (s.terminate i mark).scheduler.pool = some q ∧ q.shape = p'.shape ∧
        q.alloc = p'.alloc.pop i ∧ q.Balanced sch.pins := by
      rw [hpool]
      rcases halloc p hsp with ⟨ids,hids⟩ | ⟨hnone,hfb⟩
      · rw [← hal] at hids
        rw [BlockPool.freeSeq_of_some hids]
        exact ⟨_,rfl,rfl,rfl,hbal.freeSeq hids⟩
      · rw [← hal] at hnone
        rw [BlockPool.freeSeq_of_none hnone (by rw [hm.fallbackIds]; exact hfb)]
        exact ⟨_,rfl,rfl,(pop_of_none _ hnone).symm,hbal⟩
    obtain ⟨q,hq,hqs,hqa,hqb⟩ := hfree
    refine ⟨?_,?_,?_⟩
    · refine hbs.setPool hcache (by rw [hq,hp,Option.map_some,Option.map_some,hqs]) ?_
      rw [hq]
      rintro _ ⟨⟩
      exact hqb
    · rw [hq,hsp,Option.map_some,Option.map_some,hqs,hs]
    · rw [hq,hsp,Option.map_some,Option.map_some,hqa,hal]

/-- Ending an accepted sequence that has left the queue keeps the books. -/
theorem Books.terminate (hnd : s.accepted.Nodup) (hwnd : s.waiting.Nodup)
    (hw : ∀ j ∈ s.waiting, j ∈ s.accepted ∧ (s.heap j).Pristine) (hb : s.scheduler.Books full s.held)
    (hi : i ∈ s.accepted) (hnw : i ∉ s.waiting) (hlive : (s.heap i).status.terminal = false) (hm : Ends mark)
    (halloc : ∀ p, s.scheduler.pool = some p → (∃ ids, p.alloc.get? i = some ids) ∨
      p.alloc.get? i = none ∧ BlockPool.fallbackIds (s.heap i) = [])
    (hown : ∀ p, s.scheduler.pool = some p → ∀ j, j ≠ i → ((∃ ids, p.alloc.get? j = some ids) ↔ s.Live j))
    (hunb : ∀ p, s.scheduler.pool = some p → ∀ j ids, p.alloc.get? j = some ids →
      (s.heap j).prefixKey = none → ids.length = p.blocksNeeded (s.heap j).reservationTokens) :
    (s.terminate i mark).Books full := by
  obtain ⟨h1,h2,h3⟩ := terminate_scheduler hnd hb hi hlive hm halloc
  have hpool : ∀ q, (s.terminate i mark).scheduler.pool = some q →
      ∃ p, s.scheduler.pool = some p ∧ q.shape = p.shape ∧ q.alloc = p.alloc.pop i := by
    intro q hq
    rw [hq,Option.map_some] at h2 h3
    obtain ⟨p,hp,hs⟩ := Option.map_eq_some_iff.mp h2.symm
    rw [hp,Option.map_some,Option.some.injEq] at h3
    exact ⟨p,hp,hs.symm,h3⟩
  have hlt : ∀ j, j ≠ i → ((s.terminate i mark).Live j ↔ s.Live j) := by
    intro j hj
    unfold Live
    rw [terminate_accepted,terminate_waiting,terminate_heap_of_ne hj]
  refine ⟨hnd,by rw [terminate_waiting]; exact hwnd,?_,h1,?_,?_⟩
  · rw [terminate_waiting]
    intro j hj
    have hji : j ≠ i := fun h => hnw (h ▸ hj)
    rw [terminate_heap_of_ne hji]
    exact hw j hj
  · intro q hq j
    obtain ⟨p,hp,_,ha⟩ := hpool q hq
    rw [ha,get?_pop]
    by_cases hj : j = i
    · subst hj
      simp only [if_true,reduceCtorEq,exists_false,false_iff]
      rintro ⟨_,_,hf⟩
      rw [hm.terminated] at hf
      cases hf
    · rw [if_neg hj,hlt j hj]
      exact hown p hp j hj
  · intro q hq j ids hids hk
    obtain ⟨p,hp,hs,ha⟩ := hpool q hq
    rw [ha,get?_pop] at hids
    by_cases hj : j = i
    · rw [if_pos hj] at hids
      cases hids
    · rw [if_neg hj] at hids
      rw [terminate_heap_of_ne hj] at hk ⊢
      rw [BlockPool.blocksNeeded_congr hs]
      exact hunb p hp j ids hids hk

theorem Books.terminate_live (h : s.Books full) (hi : s.Live i) (hm : Ends mark) :
    (s.terminate i mark).Books full :=
  Books.terminate h.nodup h.waiting_nodup h.waiting h.books hi.1 hi.2.1 hi.2.2 hm
    (fun p hp => Or.inl ((h.owners p hp i).mpr hi)) (fun p hp j _ => h.owners p hp j) h.unbound

/-- A waiting sequence is taken out of the queue and ended. -/
theorem Books.terminate_waiting (h : s.Books full) (hi : i ∈ s.waiting) {queue : RequestQueue}
    (hq : queue.waiting = s.waiting.erase i) (hm : Ends mark) :
    ((s.setQueue queue).terminate i mark).Books full := by
  obtain ⟨hacc,hpr⟩ := h.waiting i hi
  have hlive : (s.heap i).status.terminal = false := by
    rw [hpr.status]
    rfl
  have hwq : (s.setQueue queue).waiting = s.waiting.erase i := hq
  have hmem : ∀ j, j ∈ (s.setQueue queue).waiting ↔ j ≠ i ∧ j ∈ s.waiting := by
    intro j
    rw [hwq]
    exact h.waiting_nodup.mem_erase_iff
  have hnlive : ¬s.Live i := fun hl => hl.2.1 hi
  refine Books.terminate (s := s.setQueue queue) h.nodup ?_ ?_ ?_ hacc ?_ hlive hm ?_ ?_ h.unbound
  · rw [hwq]
    exact h.waiting_nodup.erase i
  · exact fun j hj => h.waiting j ((hmem j).mp hj).2
  · exact h.books.setPool rfl rfl (fun p hp => h.books.balanced hp)
  · exact fun hx => ((hmem i).mp hx).1 rfl
  · intro p hp
    refine Or.inr ⟨?_,hpr.fallbackIds⟩
    cases hg : p.alloc.get? i with
    | none => rfl
    | some ids => exact absurd ((h.owners p hp i).mp ⟨ids,hg⟩) hnlive
  · intro p hp j hj
    rw [h.owners p hp j]
    unfold Live
    rw [hmem]
    simp only [ne_eq,hj,not_false_eq_true,true_and]
    exact Iff.rfl

theorem Books.adminAbort (h : s.Books full) (i : SeqId) : (s.adminAbort i).Books full := by
  unfold System.adminAbort
  split
  · rename_i hi
    exact h.terminate_waiting hi rfl ends_abort
  · split
    · refine h.modify rfl rfl rfl ?_
      exact fun hi => (h.waiting i hi).2.requestAbort
    · exact h

theorem Books.drainOne (h : s.Books full) : s.drainOne.Books full := by
  rcases s.drainOne_cases with ⟨_,heq⟩ | ⟨i,queue,hi,hq,heq⟩
  · rw [heq]
    exact h
  · rw [heq]
    exact h.terminate_waiting hi hq ends_abort

theorem Books.submit (h : s.Books full) (hi : i ∉ s.accepted) (prompt : List Token)
    (sampling : SamplingParams) : (s.submit i prompt sampling).Books full := by
  rcases s.submit_cases i prompt sampling with heq | ⟨queue,hq,heq⟩
  · rw [heq]
    exact h
  have hiw : i ∉ s.waiting := fun hw => hi (h.waiting i hw).1
  have hoff : ∀ j, j ∈ s.accepted → (s.submit i prompt sampling).heap j = s.heap j := by
    intro j hj
    rw [heq]
    exact Function.update_of_ne (fun hji : j = i => hi (hji ▸ hj)) _ _
  have hself : (s.submit i prompt sampling).heap i = { promptTokenIds := prompt, sampling := sampling } := by
    rw [heq]
    exact Function.update_self _ _ _
  have hacc : (s.submit i prompt sampling).accepted = s.accepted ++ [i] := by rw [heq]
  have hwait : (s.submit i prompt sampling).waiting = s.waiting ++ [i] := by rw [heq]; exact hq
  have hpool : (s.submit i prompt sampling).scheduler.pool = s.scheduler.pool := by rw [heq]
  have hcache : (s.submit i prompt sampling).scheduler.prefixCache = s.scheduler.prefixCache := by rw [heq]
  have hheld : (s.submit i prompt sampling).held = s.held := by
    funext k
    unfold held
    rw [hacc,List.countP_append,List.countP_cons,List.countP_nil]
    have hnot : (s.submit i prompt sampling).holds k i = false := by
      unfold holds
      rw [hself]
      simp
    have hrest : s.accepted.countP ((s.submit i prompt sampling).holds k) = s.accepted.countP (s.holds k) := by
      apply List.countP_congr
      intro j hj
      unfold holds
      rw [hoff j hj]
    simp [hnot,hrest]
  have hlive : ∀ j, (s.submit i prompt sampling).Live j ↔ s.Live j := by
    intro j
    unfold Live
    rw [hacc,hwait]
    by_cases hji : j = i
    · subst hji
      simp [hi]
    · simp only [List.mem_append,List.mem_singleton,hji,or_false]
      constructor
      · rintro ⟨h1,h2,h3⟩
        exact ⟨h1,h2,hoff j h1 ▸ h3⟩
      · rintro ⟨h1,h2,h3⟩
        rw [hoff j h1]
        exact ⟨h1,h2,h3⟩
  constructor
  · rw [hacc,List.nodup_append]
    exact ⟨h.nodup,List.nodup_singleton i,by rintro a ha b hb rfl; exact hi (List.mem_singleton.mp hb ▸ ha)⟩
  · rw [hwait,List.nodup_append]
    exact ⟨h.waiting_nodup,List.nodup_singleton i,by
      rintro a ha b hb rfl
      exact hiw (List.mem_singleton.mp hb ▸ ha)⟩
  · rw [hwait,hacc]
    intro j hj
    rcases List.mem_append.mp hj with hj | hj
    · obtain ⟨h1,h2⟩ := h.waiting j hj
      rw [hoff j h1]
      exact ⟨List.mem_append_left _ h1,h2⟩
    · rw [List.mem_singleton.mp hj,hself]
      exact ⟨List.mem_append_right _ (List.mem_singleton_self i),rfl⟩
  · rw [hheld]
    refine h.books.setPool hcache (by rw [hpool]) ?_
    rw [hpool]
    exact fun p hp => h.books.balanced hp
  · rw [hpool]
    intro p hp j
    rw [hlive]
    exact h.owners p hp j
  · rw [hpool]
    intro p hp j ids hids hk
    have hj := ((h.owners p hp j).mp ⟨ids,hids⟩).1
    rw [hoff j hj] at hk ⊢
    exact h.unbound p hp j ids hids hk

/-- The sequence that admission is about to take can be given its prefix. -/
def CandidatePayable (s : System P L) : Prop :=
  ∀ i, s.scheduler.candidate s.heap = some i → s.scheduler.Payable (s.heap i).promptTokenIds

theorem Books.round_cases (h : s.Books full) (now : ℕ) (hpay : full → s.CandidatePayable) :
    (s.scheduler.candidate s.heap = none ∧ s.scheduler.admitRound s.heap now = (none,s.scheduler,s.heap)) ∨
    ∃ i queue, s.scheduler.candidate s.heap = some i ∧ i ∈ s.waiting ∧ queue.waiting = s.waiting.erase i ∧
      ((∃ sch seq, s.scheduler.admitRound s.heap now = (some i,sch,Function.update s.heap i seq) ∧
          Scheduler.Granted full s.held i { s.scheduler with queue := queue } sch (s.heap i) seq) ∨
        ∃ sch, s.scheduler.admitRound s.heap now =
            (none,{ sch with queue := sch.queue.pushFront i },Function.update s.heap i (s.heap i)) ∧
          Scheduler.Refused full s.held { s.scheduler with queue := queue } sch) := by
  rcases s.scheduler.admitRound_eq s.heap now with ⟨hnone,heq⟩ | ⟨i,hc,heq⟩
  · exact Or.inl ⟨hnone,heq⟩
  have hiw : i ∈ s.waiting := Scheduler.candidate_mem hc
  refine Or.inr ⟨i,(s.scheduler.queue.remove i).2,hc,hiw,rfl,?_⟩
  have hb : Scheduler.Books full { s.scheduler with queue := (s.scheduler.queue.remove i).2 } s.held :=
    h.books.setPool rfl rfl (fun p hp => h.books.balanced hp)
  have hid : ∀ p, s.scheduler.pool = some p → p.alloc.get? i = none := by
    intro p hp
    cases hg : p.alloc.get? i with
    | none => rfl
    | some ids => exact absurd hiw ((h.owners p hp i).mp ⟨ids,hg⟩).2.1
  rcases hb.tryAllocate hid now (fun hfull => hpay hfull i hc) with
    ⟨t,seq',htry,hgr⟩ | ⟨t,htry,hrf⟩
  · refine Or.inl ⟨t,seq',?_,hgr⟩
    rw [heq,Scheduler.tryTaken,htry]
  · refine Or.inr ⟨t,?_,hrf⟩
    rw [heq,Scheduler.tryTaken,htry]

theorem Books.admitRound_cases (h : s.Books full) (now : ℕ) (hpay : full → s.CandidatePayable) :
    (s.scheduler.candidate s.heap = none ∧ s.admitRound now = s) ∨
    ∃ i queue, s.scheduler.candidate s.heap = some i ∧ i ∈ s.waiting ∧ queue.waiting = s.waiting.erase i ∧
      ((∃ sch seq, s.admitRound now = { s with scheduler := sch, heap := Function.update s.heap i seq } ∧
          Scheduler.Granted full s.held i { s.scheduler with queue := queue } sch (s.heap i) seq) ∨
        ∃ sch, s.admitRound now = { s with scheduler := { sch with queue := sch.queue.pushFront i } } ∧
          Scheduler.Refused full s.held { s.scheduler with queue := queue } sch) := by
  unfold System.admitRound
  rcases h.round_cases now hpay with ⟨hnone,heq⟩ | ⟨i,queue,hc,hiw,hq,⟨sch,seq,heq,hg⟩ | ⟨sch,heq,hr⟩⟩
  · exact Or.inl ⟨hnone,by rw [heq]⟩
  · exact Or.inr ⟨i,queue,hc,hiw,hq,Or.inl ⟨sch,seq,by rw [heq],hg⟩⟩
  · exact Or.inr ⟨i,queue,hc,hiw,hq,Or.inr ⟨sch,by rw [heq,Function.update_eq_self],hr⟩⟩

/-- A waiting sequence leaves the queue and becomes `seq`. -/
structure Enters (i : SeqId) (seq : Sequence P L) (s t : System P L) : Prop where
  accepted : t.accepted = s.accepted
  waiting : t.waiting = s.waiting.erase i
  self : t.heap i = seq
  off : ∀ j, j ≠ i → t.heap j = s.heap j

namespace Enters
variable {seq : Sequence P L}

theorem mem_waiting (ht : Enters i seq s t) (h : s.Books full) {j : SeqId} :
    j ∈ t.waiting ↔ j ≠ i ∧ j ∈ s.waiting := by
  rw [ht.waiting]
  exact h.waiting_nodup.mem_erase_iff

theorem live_iff (ht : Enters i seq s t) (h : s.Books full) (hi : i ∈ s.accepted) (hopen : seq.status.terminal = false)
    {j : SeqId} : t.Live j ↔ j = i ∨ s.Live j := by
  unfold Live
  rw [ht.mem_waiting h,ht.accepted]
  by_cases hj : j = i
  · subst hj
    simp [ht.self,hopen,hi]
  · rw [ht.off j hj]
    simp [hj]

theorem books (ht : Enters i seq s t) (h : s.Books full) (hi : i ∈ s.accepted) (hpr : (s.heap i).Pristine)
    {queue : RequestQueue} {sch : Scheduler P L}
    (hg : Scheduler.Granted full s.held i { s.scheduler with queue := queue } sch (s.heap i) seq) :
    sch.Books full t.held := by
  rcases hg.bound with ⟨_,hpart,hb⟩ | ⟨hit,_,hpart,hb⟩
  · have hheld : t.held = s.held := by
      refine held_congr ht.accepted ?_
      intro k j _
      by_cases hj : j = i
      · subst hj
        refine holds_congr ?_ ?_
        · rw [ht.self,Sequence.status_of_life hg.life]
        · rw [ht.self,Sequence.prefixKey_of_prefixPart hpart]
      · rw [holds,ht.off j hj,holds]
    rw [hheld]
    exact hb
  · have hkey : (t.heap i).prefixKey = some hit.tokenIds := by
      rw [ht.self,Sequence.prefixKey_of_prefixPart hpart]
      rfl
    have hopen : (t.heap i).status.terminal = false := by
      rw [ht.self,Sequence.status_of_life hg.life,hpr.status]
      rfl
    rw [held_bound ht.accepted h.nodup hi ht.off hpr.prefixKey hkey hopen]
    exact hb

theorem unbound (ht : Enters i seq s t) (h : s.Books full) {queue : RequestQueue} {sch : Scheduler P L}
    (hg : Scheduler.Granted full s.held i { s.scheduler with queue := queue } sch (s.heap i) seq) {p : BlockPool}
    (hp : sch.pool = some p) {j : SeqId} {ids : List ℕ} (hids : p.alloc.get? j = some ids)
    (hkey : (t.heap j).prefixKey = none) : ids.length = p.blocksNeeded (t.heap j).reservationTokens := by
  obtain ⟨p₀,ids₀,hp₀,ha,hlen⟩ := hg.alloc p hp
  have hp₀ : s.scheduler.pool = some p₀ := hp₀
  have hshape : p.shape = p₀.shape := by
    have := hg.shape
    rw [hp] at this
    simpa [hp₀] using this
  rw [BlockPool.blocksNeeded_congr hshape]
  rw [ha,get?_set] at hids
  by_cases hj : j = i
  · subst hj
    rw [if_pos rfl] at hids
    cases hids
    rw [ht.self] at hkey ⊢
    rw [Sequence.reservationTokens_of_life hg.life]
    rcases hg.bound with ⟨hnone,_,_⟩ | ⟨hit,_,hpart,_⟩
    · exact hlen hnone
    · rw [Sequence.prefixKey_of_prefixPart hpart] at hkey
      cases hkey
  · rw [if_neg hj] at hids
    rw [ht.off j hj] at hkey ⊢
    exact h.unbound p₀ hp₀ j ids hids hkey

end Enters

theorem Books.granted (h : s.Books full) (hiw : i ∈ s.waiting) {queue : RequestQueue}
    (hq : queue.waiting = s.waiting.erase i) {sch : Scheduler P L} {seq : Sequence P L}
    (hg : Scheduler.Granted full s.held i { s.scheduler with queue := queue } sch (s.heap i) seq) :
    Books full { s with scheduler := sch, heap := Function.update s.heap i seq } := by
  obtain ⟨hacc,hpr⟩ := h.waiting i hiw
  have hopen : seq.status.terminal = false := by
    rw [Sequence.status_of_life hg.life,hpr.status]
    rfl
  have ht : Enters i seq s { s with scheduler := sch, heap := Function.update s.heap i seq } :=
    ⟨rfl,(congrArg RequestQueue.waiting hg.queue).trans hq,Function.update_self _ _ _,
      fun j hj => Function.update_of_ne hj _ _⟩
  constructor
  · exact h.nodup
  · rw [ht.waiting]
    exact h.waiting_nodup.erase i
  · intro j hj
    obtain ⟨hji,hj⟩ := (ht.mem_waiting h).mp hj
    rw [ht.off j hji]
    exact h.waiting j hj
  · exact ht.books h hacc hpr hg
  · intro p hp j
    obtain ⟨p₀,ids,hp₀,ha,_⟩ := hg.alloc p hp
    rw [ha,get?_set,ht.live_iff h hacc hopen]
    by_cases hj : j = i
    · simp [hj]
    · simp only [hj,false_or]
      exact h.owners p₀ hp₀ j
  · exact fun p hp j ids hids hkey => ht.unbound h hg hp hids hkey

theorem Books.refused (h : s.Books full) (hiw : i ∈ s.waiting) {queue : RequestQueue}
    (hq : queue.waiting = s.waiting.erase i) {sch : Scheduler P L}
    (hr : Scheduler.Refused full s.held { s.scheduler with queue := queue } sch) :
    Books full { s with scheduler := { sch with queue := sch.queue.pushFront i } } := by
  obtain ⟨t,ht⟩ : ∃ t : System P L, t = { s with scheduler := { sch with queue := sch.queue.pushFront i } } :=
    ⟨_,rfl⟩
  rw [← ht]
  have hwq : t.waiting = i :: s.waiting.erase i := by
    rw [ht]
    exact congrArg (i :: ·) ((congrArg RequestQueue.waiting hr.queue).trans hq)
  have hperm : t.waiting.Perm s.waiting := by
    rw [hwq]
    exact (List.perm_cons_erase hiw).symm
  have hheap : t.heap = s.heap := by rw [ht]
  have hacc : t.accepted = s.accepted := by rw [ht]
  have hpool : t.scheduler.pool = sch.pool := by rw [ht]
  have hlive : ∀ j, t.Live j ↔ s.Live j := by
    intro j
    unfold Live
    rw [hheap,hacc,hperm.mem_iff]
  have hold : ∀ p', t.scheduler.pool = some p' →
      ∃ p, s.scheduler.pool = some p ∧ p'.shape = p.shape ∧ p'.alloc = p.alloc := by
    intro p' hp'
    have hs := hr.shape
    have ha := hr.alloc
    rw [← hpool,hp',Option.map_some] at hs ha
    obtain ⟨p,hp,hsp⟩ := Option.map_eq_some_iff.mp hs.symm
    rw [hp,Option.map_some,Option.some.injEq] at ha
    exact ⟨p,hp,hsp.symm,ha⟩
  constructor
  · rw [hacc]
    exact h.nodup
  · exact hperm.nodup_iff.mpr h.waiting_nodup
  · intro j hj
    rw [hacc,hheap]
    exact h.waiting j (hperm.mem_iff.mp hj)
  · rw [held_congr (s := s) hacc (fun k j _ => by rw [holds,hheap,holds]),ht]
    exact hr.books.setPool rfl rfl (fun p hp => hr.books.balanced hp)
  · intro p' hp' j
    obtain ⟨p,hp,_,ha⟩ := hold p' hp'
    rw [ha,hlive]
    exact h.owners p hp j
  · intro p' hp' j ids hids hk
    obtain ⟨p,hp,hs,ha⟩ := hold p' hp'
    rw [ha] at hids
    rw [hheap] at hk ⊢
    rw [BlockPool.blocksNeeded_congr hs]
    exact h.unbound p hp j ids hids hk

theorem Books.admitRound (h : s.Books full) (now : ℕ) (hpay : full → s.CandidatePayable) :
    (s.admitRound now).Books full := by
  rcases h.admitRound_cases now hpay with ⟨_,heq⟩ | ⟨i,queue,_,hiw,hq,⟨sch,seq,heq,hg⟩ | ⟨sch,heq,hr⟩⟩
  · rw [heq]
    exact h
  · rw [heq]
    exact h.granted hiw hq hg
  · rw [heq]
    exact h.refused hiw hq hr

/-- What a late binding does, seen from the books. -/
structure Rebound (full : Prop) (i : SeqId) (s t : System P L) : Prop where
  accepted : t.accepted = s.accepted
  queue : t.scheduler.queue = s.scheduler.queue
  off : ∀ j, j ≠ i → t.heap j = s.heap j
  life : (t.heap i).life = (s.heap i).life
  shape : t.scheduler.pool.map BlockPool.shape = s.scheduler.pool.map BlockPool.shape
  books : t.scheduler.Books full t.held
  alloc : ∀ p', t.scheduler.pool = some p' → ∃ p, s.scheduler.pool = some p ∧
    (∀ j, j ≠ i → p'.alloc.get? j = p.alloc.get? j) ∧
    ∃ ids, p'.alloc.get? i = some ids ∧
      ((t.heap i).prefixKey = none → (s.heap i).prefixKey = none ∧ p.alloc.get? i = some ids)

theorem Rebound.keeps (hr : Rebound full i s t) (h : s.Books full) (hi : s.Live i) : t.Books full := by
  have hwq : t.waiting = s.waiting := congrArg RequestQueue.waiting hr.queue
  have hst : (t.heap i).status = (s.heap i).status := Sequence.status_of_life hr.life
  have hlive : ∀ j, t.Live j ↔ s.Live j := by
    intro j
    unfold Live
    rw [hr.accepted,hwq]
    by_cases hj : j = i
    · rw [hj,hst]
    · rw [hr.off j hj]
  constructor
  · rw [hr.accepted]
    exact h.nodup
  · rw [hwq]
    exact h.waiting_nodup
  · intro j hj
    rw [hwq] at hj
    rw [hr.accepted,hr.off j (fun hji => hi.2.1 (hji ▸ hj))]
    exact h.waiting j hj
  · exact hr.books
  · intro p' hp' j
    obtain ⟨p,hp,hoff,ids,hids,_⟩ := hr.alloc p' hp'
    rw [hlive]
    by_cases hj : j = i
    · subst hj
      exact ⟨fun _ => hi,fun _ => ⟨ids,hids⟩⟩
    · rw [hoff j hj]
      exact h.owners p hp j
  · intro p' hp' j ids' hids' hk
    obtain ⟨p,hp,hoff,ids,hids,hown⟩ := hr.alloc p' hp'
    have hs : p'.shape = p.shape := by
      have := hr.shape
      rw [hp',hp] at this
      simpa using this
    rw [BlockPool.blocksNeeded_congr hs]
    by_cases hj : j = i
    · subst hj
      obtain ⟨hk',hids₀⟩ := hown hk
      rw [hids'] at hids
      cases hids
      rw [Sequence.reservationTokens_of_life hr.life]
      exact h.unbound p hp j ids' hids₀ hk'
    · rw [hoff j hj] at hids'
      rw [hr.off j hj] at hk ⊢
      exact h.unbound p hp j ids' hids' hk

def BindPayable (s : System P L) (i : SeqId) : Prop :=
  (s.heap i).prefixKey = none → s.scheduler.Payable (s.heap i).promptTokenIds

theorem Rebound.refl (h : s.Books full) (hi : s.Live i) : Rebound full i s s := by
  refine ⟨rfl,rfl,fun _ _ => rfl,rfl,rfl,h.books,?_⟩
  intro p hp
  obtain ⟨ids,hids⟩ := (h.owners p hp i).mpr hi
  exact ⟨p,hp,fun _ _ => rfl,ids,hids,fun hk => ⟨hk,hids⟩⟩

theorem bind_of_hit {scheduler : Scheduler P L} {hit : PrefixHit P L} (hp : scheduler.pool = none) :
    s.bindHit i hit scheduler =
      { s with
        scheduler := scheduler
        heap := Function.update s.heap i (Scheduler.applyHit (s.heap i) hit) } := by
  unfold bindHit
  rw [hp]

theorem bindHit_pooled {scheduler : Scheduler P L} {hit : PrefixHit P L} {p : BlockPool} {ids : List ℕ}
    (hp : scheduler.pool = some p) (hids : p.alloc.get? i = some ids) :
    let n := p.blocksNeeded hit.nTokens
    s.bindHit i hit scheduler =
      { s with
        scheduler := { scheduler with
          pool := some { p with alloc := p.alloc.set i (ids.drop n), free := p.free ++ ids.take n } }
        heap := Function.update s.heap i { Scheduler.applyHit (s.heap i) hit with
          ownedBlockIds := ids.drop n
          blockIds := hit.blockIds ++ ids.drop n } } := by
  unfold bindHit
  rw [hp]
  simp only [BlockPool.detach_eq hids]
  by_cases hnil : ids.take (p.blocksNeeded hit.nTokens) = []
  · simp [hnil]
  · simp [hnil,BlockPool.release]

theorem Rebound.of_update {sch : Scheduler P L} {seq : Sequence P L} {held' : List Token → ℕ}
    (hqueue : sch.queue = s.scheduler.queue) (hlife : seq.life = (s.heap i).life)
    (hshape : sch.pool.map BlockPool.shape = s.scheduler.pool.map BlockPool.shape)
    (hheld : held { s with scheduler := sch, heap := Function.update s.heap i seq } = held')
    (hb : sch.Books full held')
    (halloc : ∀ p', sch.pool = some p' → ∃ p, s.scheduler.pool = some p ∧
      (∀ j, j ≠ i → p'.alloc.get? j = p.alloc.get? j) ∧
      ∃ ids, p'.alloc.get? i = some ids ∧
        (seq.prefixKey = none → (s.heap i).prefixKey = none ∧ p.alloc.get? i = some ids)) :
    Rebound full i s { s with scheduler := sch, heap := Function.update s.heap i seq } := by
  have hself : Function.update s.heap i seq i = seq := Function.update_self _ _ _
  refine ⟨rfl,hqueue,fun j hj => Function.update_of_ne hj _ _,?_,hshape,hheld ▸ hb,?_⟩
  · simp only [hself]
    exact hlife
  · simp only [hself]
    exact halloc

theorem Books.held_update (h : s.Books full) (hi : s.Live i) (hkey : (s.heap i).prefixKey = none)
    {sch : Scheduler P L} {seq : Sequence P L} {k : List Token} (hlife : seq.life = (s.heap i).life)
    (hk : seq.prefixKey = some k) :
    held { s with scheduler := sch, heap := Function.update s.heap i seq } =
      Function.update s.held k (s.held k + 1) := by
  have hself : Function.update s.heap i seq i = seq := Function.update_self _ _ _
  refine held_bound (s := s) (i := i) rfl h.nodup hi.1 (fun j hj => Function.update_of_ne hj _ _) hkey ?_ ?_
  · simp only [hself]
    exact hk
  · simp only [hself]
    rw [Sequence.status_of_life hlife]
    exact hi.2.2

theorem Books.bindHit (h : s.Books full) (hi : s.Live i) (hit : PrefixHit P L) (scheduler : Scheduler P L)
    (hqueue : scheduler.queue = s.scheduler.queue) (hkey : (s.heap i).prefixKey = none)
    (hshape : scheduler.pool.map BlockPool.shape = s.scheduler.pool.map BlockPool.shape)
    (halloc : scheduler.pool.map BlockPool.alloc = s.scheduler.pool.map BlockPool.alloc)
    (hb : scheduler.Books full (Function.update s.held hit.tokenIds (s.held hit.tokenIds + 1))) :
    Rebound full i s (s.bindHit i hit scheduler) ∧
    ((s.bindHit i hit scheduler).heap i).prefixPart = (Scheduler.applyHit (s.heap i) hit).prefixPart := by
  cases hp' : scheduler.pool with
  | none =>
    rw [bind_of_hit hp']
    simp only [Function.update_self]
    exact ⟨Rebound.of_update hqueue rfl hshape (h.held_update hi hkey rfl rfl) hb (by simp [hp']),trivial⟩
  | some p' =>
    rw [hp'] at hshape halloc
    obtain ⟨p,hp,hs⟩ := Option.map_eq_some_iff.mp (hshape.symm.trans (Option.map_some ..))
    rw [hp,Option.map_some,Option.map_some,Option.some.injEq] at halloc
    obtain ⟨ids,hids⟩ := (h.owners p hp i).mpr hi
    have hids' : p'.alloc.get? i = some ids := by
      rw [halloc]
      exact hids
    rw [bindHit_pooled hp' hids']
    simp only [Function.update_self]
    refine ⟨Rebound.of_update hqueue rfl (by rw [hp]; exact congrArg some hs.symm)
      (h.held_update hi hkey rfl rfl) ?_ ?_,rfl⟩
    · refine hb.setPool rfl (by rw [hp']; rfl) ?_
      rintro _ ⟨⟩
      exact (hb.balanced hp').freeDetached hids' _
    · rintro _ ⟨⟩
      refine ⟨p,hp,?_,_,get?_set_self _ _ _,by rintro ⟨⟩⟩
      intro j hj
      rw [← halloc]
      exact get?_set_ne _ _ hj

theorem Books.bind (h : s.Books full) (hi : s.Live i) (now : ℕ) (hpay : full → s.BindPayable i) :
    Rebound full i s (s.bindPrefixAtPrefill i now) ∧
    (((s.bindPrefixAtPrefill i now).heap i).prefixPart = (s.heap i).prefixPart ∨
      ∃ hit, s.scheduler.peekPrefix (s.heap i).promptTokenIds = some hit ∧
        ((s.bindPrefixAtPrefill i now).heap i).prefixPart = (Scheduler.applyHit (s.heap i) hit).prefixPart) := by
  unfold bindPrefixAtPrefill
  by_cases hcond : ((s.heap i).prefixKey.isSome ||
      (s.scheduler.peekPrefix (s.heap i).promptTokenIds).isNone) = true
  · rw [if_pos hcond]
    exact ⟨Rebound.refl h hi,Or.inl rfl⟩
  · rw [if_neg hcond]
    simp only [Bool.or_eq_true,not_or,Bool.not_eq_true,Option.isSome_eq_false_iff,
      Option.isNone_iff_eq_none] at hcond
    obtain ⟨hkey,hsome⟩ := hcond
    rcases h.books.lookupPrefix _ now (fun hfull => hpay hfull hkey) with
      ⟨hnone,_,_,_⟩ | ⟨hit,ids,cache,pool,hpeek,heq,hshape,halloc,hb⟩
    · exact absurd hnone hsome
    · rw [heq]
      simp only
      obtain ⟨h1,h2⟩ := h.bindHit hi { hit with blockIds := ids }
        { s.scheduler with prefixCache := cache, pool := pool } rfl hkey hshape halloc hb
      exact ⟨h1,Or.inr ⟨hit,hpeek,h2⟩⟩

/-- Storing a prefill keeps the books, and changes at most the key the sequence holds. -/
theorem Books.store (h : s.Books full) (hi : s.Live i) (now : ℕ → ℕ) :
    Rebound full i s (s.storePrefix i now) ∧
    ((s.storePrefix i now).heap i = s.heap i ∨
      ((s.storePrefix i now).heap i).prefixTokens = (s.heap i).prefixTokens ∧
      ((s.storePrefix i now).heap i).prefixKv = (s.heap i).prefixKv ∧
      ((s.storePrefix i now).heap i).prefixLogits = (s.heap i).prefixLogits) := by
  unfold storePrefix
  cases hc : s.scheduler.prefixCache with
  | none => exact ⟨Rebound.refl h hi,Or.inl rfl⟩
  | some c =>
    cases ho : s.outbox i with
    | none => exact ⟨Rebound.refl h hi,Or.inl rfl⟩
    | some r =>
      obtain ⟨logits,kv⟩ := r
      have hb : c.Books full s.scheduler.pool s.held := by
        have := h.books
        unfold Scheduler.Books at this
        rwa [hc] at this
      obtain ⟨hpool,hins⟩ := hb.insert (s.heap i).promptTokenIds (some kv) (some logits) (now 0)
      obtain ⟨c₁,hc₁⟩ : ∃ c₁, (c.insert s.scheduler.pool (s.heap i).promptTokenIds (some kv) (some logits)
        (now 0)).1 = c₁ := ⟨_,rfl⟩
      have hinsert : c.insert s.scheduler.pool (s.heap i).promptTokenIds (some kv) (some logits) (now 0) =
          (c₁,s.scheduler.pool) := Prod.ext hc₁ hpool
      rw [hc₁] at hins
      have had := PrefixCache.adopts (c := c₁) (s.heap i)
        (fun p hp => (h.owners p hp i).mpr hi) (now 1)
      have hown : (s.heap i).prefixKey = none → ∀ p ids, s.scheduler.pool = some p →
          p.alloc.get? i = some ids → p.blocksNeeded (s.heap i).promptTokenIds.length ≤ ids.length := by
        intro hk p ids hp hids
        rw [h.unbound p hp i ids hids hk]
        exact BlockPool.blocksNeeded_mono (Nat.le_add_right _ _)
      simp only [hinsert]
      rcases hr : c₁.adopt s.scheduler.pool i (s.heap i) (now 1) with ⟨c₂,pool,seq⟩
      rw [hr] at had
      obtain ⟨hlife,htok,hkv,hlog,halloc⟩ := had.keeps
      simp only [Function.update_self]
      refine ⟨?_,Or.inr ⟨htok,hkv,hlog⟩⟩
      rcases hins.adopt had hown with heq | ⟨k,hk,hk',hshape,hbooks⟩
      · cases heq
        refine Rebound.of_update rfl rfl rfl ?_ hins ?_
        · rw [Function.update_eq_self]
          rfl
        · intro p hp
          obtain ⟨ids,hids⟩ := (h.owners p hp i).mpr hi
          exact ⟨p,hp,fun _ _ => rfl,ids,hids,fun hk => ⟨hk,hids⟩⟩
      · refine Rebound.of_update rfl hlife hshape (h.held_update hi hk hlife hk') hbooks ?_
        intro p' hp'
        obtain ⟨p,hp,hoff,ids,hids⟩ := halloc (fun p hp => (h.owners p hp i).mpr hi) p' hp'
        refine ⟨p,hp,hoff,ids,hids,?_⟩
        intro hnone
        rw [hk'] at hnone
        cases hnone

end System
end FluxEngine
