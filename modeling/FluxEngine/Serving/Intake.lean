import FluxEngine.Serving.Queue
import FluxEngine.Serving.WorkerRules

/-! # Admission by a worker

A round of admission hands the worker at most one sequence, fresh from the
queue; the loop hands it a list of them.
-/
namespace FluxEngine
open Transition Interleaving Function
variable {P L : Type} [Inhabited P] [Inhabited L] {eng : CachedEngine P L} {may : Site → Bool}
variable {s t : System P L} {i : SeqId} {ids run : List SeqId} {Φ : SeqId → Own P L → Prop}

/-- Just admitted. -/
structure Fresh (own : Own P L) : Prop where
  isOpen : Open own
  outputIds : own.1.outputIds = []
  reason : own.1.finishReason = none
  box : own.2 = none

omit [Inhabited P] [Inhabited L] in
theorem patient_fresh : Patient (Fresh (P := P) (L := L)) := fun _ _ h => ⟨h.isOpen,h.outputIds,h.reason,h.box⟩

omit [Inhabited P] [Inhabited L] in
theorem fresh_of_pristine {x y : Sequence P L} {box : Option (L × KvCache P)} (hx : x.Pristine)
    (hl : y.life = x.life) (hbox : box = none) : Fresh (y,box) := by
  have hg := Sequence.generated_of_life hl
  simp only [Sequence.generated,Prod.mk.injEq] at hg
  refine ⟨?_,?_,?_,hbox⟩
  · simp only [Open,Sequence.status_of_life hl,hx.status]
    rfl
  · exact hg.2.2.1.trans hx.outputIds
  · rw [hg.2.2.2.2,hx]

omit [Inhabited P] [Inhabited L] in
/-- A grant adds its sequence to the worker's. -/
theorem Crew.granted (hb : s.Books False) (h : Crew none ids run Φ s) (hi : i ∈ s.waiting)
    (hbox : s.outbox i = none) {queue : RequestQueue}
    (hq : queue.waiting = s.waiting.erase i) {sch : Scheduler P L} {seq : Sequence P L}
    (hg : Scheduler.Granted False s.held i { s.scheduler with queue := queue } sch (s.heap i) seq) :
    Crew none (ids ++ [i]) run (fun j own => (j ∈ ids → Φ j own) ∧ (j = i → Fresh own))
      { s with scheduler := sch, heap := update s.heap i seq } := by
  have hnot : ∀ j ∈ ids, j ≠ i := fun j hj hji => (h.admitted j hj).2 (hji ▸ hi)
  have hwait : sch.queue.waiting = s.waiting.erase i := (congrArg RequestQueue.waiting hg.queue).trans hq
  have hoff : ∀ j, j ≠ i → update s.heap i seq j = s.heap j := fun j hj => update_of_ne hj _ _
  constructor
  · exact h.flight
  · exact h.running
  · rw [List.nodup_append]
    refine ⟨h.nodup,List.nodup_singleton i,?_⟩
    intro j hj k hk
    rw [List.mem_singleton.mp hk]
    exact hnot j hj
  · intro j hj
    simp only [System.waiting,hwait]
    have hmem : j ∈ s.waiting.erase i ↔ j ≠ i ∧ j ∈ s.waiting := hb.waiting_nodup.mem_erase_iff
    rcases List.mem_append.mp hj with hj | hj
    · exact ⟨(h.admitted j hj).1,fun hw => (h.admitted j hj).2 (hmem.mp hw).2⟩
    · rw [List.mem_singleton] at hj
      subst hj
      exact ⟨(hb.waiting j hi).1,fun hw => (hmem.mp hw).1 rfl⟩
  · rintro j ⟨ha,hw,hst⟩
    by_cases hji : j = i
    · exact List.mem_append_right _ (List.mem_singleton.mpr hji)
    · simp only [System.waiting,hwait,List.mem_erase_of_ne hji] at hw
      simp only [hoff j hji] at hst
      exact List.mem_append_left _ (h.complete j ⟨ha,hw,hst⟩)
  · intro j hj
    by_cases hji : j = i
    · subst hji
      refine ⟨fun hj => absurd rfl (hnot j hj),?_⟩
      intro _
      simp only [System.own,update_self]
      exact fresh_of_pristine (hb.waiting j hi).2 hg.life hbox
    · simp only [System.own,hoff j hji]
      refine ⟨h.own j,fun hji' => absurd hji' hji⟩

omit [Inhabited P] [Inhabited L] in
theorem Crew.refused (h : Crew none ids run Φ s) (hi : i ∈ s.waiting) {queue : RequestQueue}
    (hq : queue.waiting = s.waiting.erase i) {sch : Scheduler P L}
    (hr : Scheduler.Refused False s.held { s.scheduler with queue := queue } sch) :
    Crew none ids run Φ { s with scheduler := { sch with queue := sch.queue.pushFront i } } := by
  have hwait : ∀ j, j ∈ (sch.queue.pushFront i).waiting ↔ j ∈ s.waiting := by
    intro j
    have hqw : sch.queue.waiting = s.waiting.erase i := (congrArg RequestQueue.waiting hr.queue).trans hq
    simp only [RequestQueue.pushFront,hqw]
    exact (List.perm_cons_erase hi).symm.mem_iff
  refine ⟨h.flight,h.running,h.nodup,?_,?_,h.own⟩
  · intro j hj
    simp only [System.waiting,hwait]
    exact h.admitted j hj
  · rintro j ⟨ha,hw,hst⟩
    simp only [System.waiting,hwait] at hw
    exact h.complete j ⟨ha,hw,hst⟩

/-- The admission loop, seen from the worker. -/
theorem admitLoop_crew (now : ℕ → ℕ) (room : ℕ) (hinv : Reachable eng s) (h : Crew none ids run Φ s) :
    ∃ admitted sch heap, Scheduler.admitLoop now room s.scheduler s.heap = (admitted,sch,heap) ∧
      admitted.length ≤ room ∧ Reaches (Orderly eng .tau) s { s with scheduler := sch, heap := heap } ∧
      Crew none (ids ++ admitted) run (fun j own => (j ∈ ids → Φ j own) ∧ (j ∈ admitted → Fresh own))
        { s with scheduler := sch, heap := heap } := by
  induction room generalizing s ids Φ with
  | zero =>
    refine ⟨[],_,_,rfl,le_rfl,.refl s,?_⟩
    rw [List.append_nil]
    exact h.mono (fun j _ hj => ⟨fun _ => hj,by simp⟩)
  | succ room ih =>
    have hround : Orderly eng .tau (.admission (now room)) s (s.admitRound (now room)) :=
      ⟨.admission (now room),trivial⟩
    unfold System.admitRound at hround
    rcases hinv.books.round_cases (now room) False.elim with
      ⟨_,heq⟩ | ⟨i,queue,_,hi,hq,⟨sch,seq,heq,hg⟩ | ⟨sch,heq,hr⟩⟩
    · rw [heq] at hround
      refine ⟨[],s.scheduler,s.heap,by simp only [Scheduler.admitLoop,heq],Nat.zero_le _,.refl s,?_⟩
      rw [List.append_nil]
      exact h.mono (fun j _ hj => ⟨fun _ => hj,by simp⟩)
    · rw [heq] at hround
      have hcrew := h.granted hinv.books hi (hinv.outbox_of_waiting hi) hq hg
      have hinv' : Reachable eng { s with scheduler := sch, heap := update s.heap i seq } :=
        (serving_sound (fun _ => true)).effect .tau {} s _ hinv (by rintro _ _ ⟨⟩)
          (effect_of_reaches ((Reaches.refl s).tail hround) h.flight hcrew.flight trivial)
      obtain ⟨admitted,sch',heap',hloop,hlen,hreach,hnext⟩ := ih hinv' hcrew
      refine ⟨i :: admitted,sch',heap',?_,by simpa using hlen,((Reaches.refl s).tail hround).trans hreach,?_⟩
      · simp only [Scheduler.admitLoop,heq]
        rw [show Scheduler.admitLoop now room sch (update s.heap i seq) = (admitted,sch',heap') from hloop]
      · rw [List.append_cons]
        apply hnext.mono
        intro j _ hj
        simp only [List.mem_append,List.mem_singleton] at hj
        refine ⟨fun hjd => (hj.1 (Or.inl hjd)).1 hjd,?_⟩
        intro hja
        rcases List.mem_cons.mp hja with hji | hja
        · exact (hj.1 (Or.inr hji)).2 hji
        · exact hj.2 hja
    · rw [heq] at hround
      rw [update_eq_self] at heq hround
      have hcrew := h.refused hi hq hr
      refine ⟨[],_,s.heap,by simp only [Scheduler.admitLoop,heq],Nat.zero_le _,(Reaches.refl s).tail hround,?_⟩
      rw [List.append_nil]
      exact hcrew.mono (fun j _ hj => ⟨fun _ => hj,by simp⟩)

/-- On the way from `s` to `t` the scheduler admitted these. -/
def Admits (eng : CachedEngine P L) (count : System P L → ℕ) (s t : System P L) (admitted : List SeqId) : Prop :=
  ∃ u now, Reaches (Step eng) s u ∧ Reaches (Step eng) u t ∧ admitted.length ≤ u.scheduler.maxBatch - count u ∧
    admitted = (u.scheduler.admitRequests u.heap (count u) now).1

theorem Admits.trans {count : System P L → ℕ} {admitted : List SeqId} {u : System P L}
    (h : Admits eng count s t admitted) (htu : Reaches (Step eng) t u) : Admits eng count s u admitted := by
  obtain ⟨v,now,hsv,hvt,hlen,heq⟩ := h
  exact ⟨v,now,hsv,hvt.trans htu,hlen,heq⟩

namespace Worker
variable {E : Exc → System P L → Prop}

theorem safe_admitRequests {s₁ : System P L} (count : System P L → ℕ) (hΦ : ∀ i, Patient (Φ i))
    (hs : Reaches (Step eng) s₁ s) (h : Crew none ids run Φ s) :
    (admitRequests count : Thread P L (List SeqId)).Safe (serving eng may)
      (fun admitted t => Admits eng count s₁ t admitted ∧
        (∃ u, u.stats.running = run ∧ Reaches (Step eng) s₁ u ∧ admitted.length ≤ u.scheduler.maxBatch - count u) ∧
        Crew none (ids ++ admitted) run (fun j own => (j ∈ ids → Φ j own) ∧ (j ∈ admitted → Fresh own)) t) E s := by
  have hstable : (serving eng may).Stable (fun t => Crew none ids run Φ t ∧ Reaches (Step eng) s₁ t) :=
    (Crew.stable hΦ).and (fun _ _ ⟨_,_,_,hst⟩ ht => ht.tail hst)
  refine Prog.safe_act hstable ⟨h,hs⟩ (by simp) ?_
  rintro t ⟨ht,hst⟩ hinv _ w _
  obtain ⟨admitted,sch,heap,hloop,hlen,hreach,hnext⟩ :=
    admitLoop_crew w.now (t.scheduler.maxBatch - count t) hinv ht
  have hsch : t.scheduler.admitRequests t.heap (count t) w.now = (admitted,sch,heap) := hloop
  rw [hsch]
  refine ⟨effect_of_reaches hreach ht.flight hnext.flight trivial,⟨t,w.now,hst,Orderly.reaches hreach,hlen,?_⟩,
    ⟨t,ht.running,hst,hlen⟩,hnext⟩
  rw [hsch]

end Worker
end FluxEngine
