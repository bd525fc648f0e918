import FluxEngine.Serving.Crew

/-! # Rules for the actions of a worker

One rule for each kind of action: looking at the shared state, updating one
sequence, making a call that may raise, and containing an exception.
-/
namespace FluxEngine
open Transition Interleaving
variable {P L : Type} [Inhabited P] [Inhabited L] {eng : CachedEngine P L} {may : Site → Bool}
variable {s t : System P L} {i : SeqId} {ids run who : List SeqId} {Φ : SeqId → Own P L → Prop} {e : Exc}

theorem effect_of_reaches {l : Label} {w : Answer} (hr : Reaches (Orderly eng l) s t) (hs : s.inFlight = none)
    (ht : t.inFlight = none) (hl : l.Proper s) : (serving eng may).effect l w s t := by
  refine ⟨hr,⟨?_,?_⟩,hl⟩
  · intro _ ids e h
    rw [ht] at h
    cases h
  · intro ids e h
    rw [hs] at h
    cases h

theorem Reachable.books (h : Reachable eng s) : s.Books False := books_of_reachable h

namespace Worker
variable {E : Exc → System P L → Prop}

theorem safe_since_within {α : Type} {A : Label → Prop} {p : Thread P L α} {Q : α → System P L → Prop}
    {s₁ : System P L} (h : p.Safe ((serving eng may).within A) Q E s) (hs : Reaches (Step eng) s₁ s) :
    p.Safe ((serving eng may).within A) (fun a t => Q a t ∧ Reaches (Step eng) s₁ t) E s := by
  refine (h.frame (I := fun t => Reaches (Step eng) s₁ t) hs ?_ ?_).mono (fun _ _ => id) (fun _ _ ht => ht.1)
  · rintro t u ⟨_,ev,_,hst⟩ ht
    exact ht.tail hst
  · rintro l w t u _ ht ⟨_,hr,_⟩
    exact ht.trans (Orderly.reaches hr)

theorem safe_since {α : Type} {p : Thread P L α} {Q : α → System P L → Prop} {s₁ : System P L}
    (h : p.Safe (serving eng may) Q E s) (hs : Reaches (Step eng) s₁ s) :
    p.Safe (serving eng may) (fun a t => Q a t ∧ Reaches (Step eng) s₁ t) E s :=
  (safe_since_within (h.within p.emits_any) hs).of_within

theorem safe_look {α : Type} (f : System P L → α) (hΦ : ∀ i, Patient (Φ i)) (h : Crew none ids run Φ s) :
    (Prog.read .tau f : Thread P L α).Safe (serving eng may) (fun a t => Crew none ids run Φ t ∧ a = f t) E s := by
  refine Prog.safe_read (Crew.stable hΦ) h ?_
  intro t ht _ w _
  exact ⟨effect_of_reaches (.refl t) ht.flight ht.flight trivial,ht,rfl⟩

theorem safe_update {f : Answer → System P L → System P L} {φ : Own P L → Prop} (hΦ : ∀ i, Patient (Φ i))
    (h : Crew none ids run Φ s) (hi : i ∈ ids) (hopen : ∀ own, Φ i own → Open own)
    (hstep : ∀ t w, Reachable eng t → t.Live i → Φ i (t.own i) →
      ∃ ev, Orderly eng .tau ev t (f w t) ∧ Touches i t (f w t) ∧ φ ((f w t).own i)) :
    (Prog.write .tau f : Thread P L Unit).Safe (serving eng may)
      (fun _ t => Crew none ids run (Function.update Φ i φ) t) E s := by
  refine Prog.safe_write (Crew.stable hΦ) h ?_
  intro t ht hinv w _
  obtain ⟨ev,hst,htouch,hφ⟩ := hstep t w hinv (ht.live hi (hopen _ (ht.own i hi))) (ht.own i hi)
  have hnext := ht.touch hi htouch hφ
  exact ⟨effect_of_reaches ((Reaches.refl t).tail hst) ht.flight hnext.flight trivial,hnext⟩

/-- A call on behalf of `who`: it returns a value, or raises where it may; a call of the
model may also raise by itself. -/
theorem safe_call {α : Type} {site : Site} {value : Answer → System P L → Except Exc α}
    {save : α → System P L → System P L} {Q : α → System P L → Prop} (hΦ : ∀ i, Patient (Φ i))
    (h : Crew none ids run Φ s) (hnd : who.Nodup) (hwho : ∀ i ∈ who, i ∈ ids ∧ ∀ own, Φ i own → Open own)
    (hkv : site.decodes = true → ∀ i ∈ who, ∀ own, Φ i own → own.1.lastToken.isSome ∧ own.1.kvCache.isSome)
    (hvalue : site.isModel = true ∨ ∀ t w, Crew none ids run Φ t → ∃ a, value w t = .ok a)
    (hok : ∀ t w a, Reachable eng t → Crew none ids run Φ t → value w t = .ok a →
      Reaches (Orderly eng (.call site who)) t (save a t) ∧ (save a t).inFlight = none ∧ Q a (save a t))
    (hraise : ∀ t e, site.isModel = true ∨ may site = true → Crew (some (who,e)) ids run Φ t → E e t) :
    (call site who value save).Safe (serving eng may) Q E s := by
  refine Prog.safe_act (Crew.stable hΦ) h (by simp) ?_
  intro t ht hinv _ w hw
  have hlive : ∀ i ∈ who, t.Live i :=
    fun i hi => ht.live (hwho i hi).1 ((hwho i hi).2 _ (ht.own i (hwho i hi).1))
  have hproper : (Label.call site who).Proper t :=
    fun i hi => ⟨hlive i hi,fun hsite => hkv hsite i hi _ (ht.own i (hwho i hi).1)⟩
  cases hr : w.outcome (value w t) with
  | ok a =>
    have hval : value w t = .ok a := by
      unfold Answer.outcome at hr
      split at hr
      · cases hr
      · exact hr
    obtain ⟨hreach,hcalm,hQ⟩ := hok t w a hinv ht hval
    exact ⟨effect_of_reaches hreach ht.flight hcalm hproper,hQ⟩
  | error e =>
    have hmay : site.isModel = true ∨ may site = true := by
      rcases hvalue with hmodel | hvalue
      · exact Or.inl hmodel
      · right
        obtain ⟨a,ha⟩ := hvalue t w ht
        apply hw site who rfl
        by_contra hnone
        rw [Bool.not_eq_true,Option.isSome_eq_false_iff,Option.isNone_iff_eq_none] at hnone
        simp only [Answer.outcome,hnone,ha] at hr
        cases hr
    refine ⟨⟨(Reaches.refl t).tail ⟨.bookkeeping t.stats (some (who,e)) t.outputTokensTotal,trivial⟩,⟨?_,?_⟩,hproper⟩,?_⟩
    · rintro _ _ _ ⟨⟩
      exact ⟨⟨site,rfl⟩,hnd,hlive,rfl⟩
    · intro ids' e' h'
      rw [ht.flight] at h'
      cases h'
    · exact hraise _ e hmay ⟨rfl,ht.running,ht.nodup,ht.admitted,ht.complete,ht.own⟩

/-- An exception leaves the worker only where a call is not covered. -/
def Uncovered (may : Site → Bool) : Exc → System P L → Prop :=
  fun _ _ => ∃ site, may site = true ∧ site.covered = false

/-- A sequence whose call raised, after the handler. -/
structure Failed (e : Exc) (x : Sequence P L) : Prop where
  status : x.status = .error
  error : x.error = some e

/-- Ending a list of live sequences ends these and no other. -/
theorem endAll {l : Label} {mark : Sequence P L → Sequence P L}
    (hstep : ∀ s i, s.Live i → ∃ ev, Orderly eng l ev s (s.terminate i mark)) (hnd : who.Nodup)
    (hlive : ∀ i ∈ who, s.Live i) :
    let t := who.foldl (fun s i => s.terminate i mark) s
    Reaches (Orderly eng l) s t ∧ t.accepted = s.accepted ∧ t.waiting = s.waiting ∧ t.stats = s.stats ∧
      t.inFlight = s.inFlight ∧ (∀ i ∈ who, (t.heap i).life = (mark (s.heap i)).closed.life) ∧
      ∀ i, i ∉ who → t.own i = s.own i := by
  induction who generalizing s with
  | nil => exact ⟨.refl s,rfl,rfl,rfl,rfl,by simp,fun _ _ => rfl⟩
  | cons i who ih =>
    obtain ⟨hiw,hnd⟩ := List.nodup_cons.mp hnd
    have hi := hlive i List.mem_cons_self
    have htouch : Touches i s (s.terminate i mark) := touches_terminate _
    have hsame : ∀ j, j ≠ i → (s.terminate i mark).heap j = s.heap j :=
      fun j hj => congrArg Prod.fst (htouch.off j hj)
    have hrest : ∀ j ∈ who, (s.terminate i mark).Live j := by
      intro j hj
      rw [System.Live,htouch.accepted,htouch.waiting,hsame j (fun hji => hiw (hji ▸ hj))]
      exact hlive j (List.mem_cons_of_mem _ hj)
    obtain ⟨hreach,hacc,hwait,hstats,hfl,hend,hoff⟩ := ih hnd hrest
    obtain ⟨ev,hev⟩ := hstep s i hi
    refine ⟨((Reaches.refl s).tail hev).trans hreach,hacc,hwait.trans htouch.waiting,hstats,hfl,?_,?_⟩
    · intro j hj
      rcases List.mem_cons.mp hj with rfl | hj
      · have hheap := congrArg Prod.fst (hoff j hiw)
        simp only [System.own] at hheap
        simp only [List.foldl_cons,hheap]
        exact System.terminate_heap_self.1
      · have hlife := hend j hj
        rwa [hsame j (fun hji => hiw (hji ▸ hj))] at hlife
    · intro j hj
      obtain ⟨hji,hjw⟩ := List.ne_and_not_mem_of_not_mem_cons hj
      exact (hoff j hjw).trans (htouch.off j hji)

theorem failAll (eng : CachedEngine P L) (l : Label) (hnd : who.Nodup) (hlive : ∀ i ∈ who, s.Live i) (e : Exc) :
    let t := who.foldl (fun s i => s.failOne e i) s
    Reaches (Orderly eng l) s t ∧ t.accepted = s.accepted ∧ t.waiting = s.waiting ∧ t.stats = s.stats ∧
      t.inFlight = s.inFlight ∧ (∀ i ∈ who, Failed e (t.heap i)) ∧ ∀ i, i ∉ who → t.own i = s.own i := by
  obtain ⟨h1,h2,h3,h4,h5,hend,h7⟩ :=
    endAll (fun s i hi => ⟨Event.fail i e,(⟨.fail e hi,trivial⟩ : Orderly eng l (.fail i e) s (s.failOne e i))⟩) hnd hlive
  refine ⟨h1,h2,h3,h4,h5,?_,h7⟩
  intro i hi
  exact ⟨Sequence.status_of_life (hend i hi),Sequence.eq_of_life Sequence.error (fun _ => rfl) (hend i hi)⟩

omit [Inhabited P] [Inhabited L] in
theorem Failed.ended {x : Sequence P L} (h : Failed e x) : x.status.terminal = true := by
  rw [h.status]
  rfl

/-- The handler of an exception ends the sequences of the call. -/
theorem safe_contain (hΦ : ∀ i, Patient (Φ i)) (h : Crew (some (who,e)) ids run Φ s) (hnd : who.Nodup)
    (hwho : ∀ i ∈ who, i ∈ ids ∧ ∀ own, Φ i own → Open own) :
    (contain who e : Thread P L Unit).Safe (serving eng may)
      (fun _ t => Crew none ids run (fun i own => if i ∈ who then Ended own else Φ i own) t) E s := by
  refine Prog.safe_write (Crew.stable hΦ) h ?_
  intro t ht _ w _
  have hlive : ∀ i ∈ who, t.Live i :=
    fun i hi => ht.live (hwho i hi).1 ((hwho i hi).2 _ (ht.own i (hwho i hi).1))
  obtain ⟨hreach,hacc,hwait,hstats,_,hfail,hoff⟩ := failAll eng (.contain who) hnd hlive e
  refine ⟨⟨hreach.tail ⟨.bookkeeping _ none _,trivial⟩,⟨?_,?_⟩,trivial⟩,?_⟩
  · intro hnone
    rw [ht.flight] at hnone
    cases hnone
  · intro ids' e' h'
    rw [ht.flight] at h'
    cases h'
    exact ⟨rfl,hnd,hlive,rfl⟩
  · refine ⟨rfl,(congrArg WorkerStats.running hstats).trans ht.running,ht.nodup,?_,?_,?_⟩
    · intro i hi
      have hadm := ht.admitted i hi
      rwa [← hacc,← hwait] at hadm
    · rintro i ⟨hia,hiw,hst⟩
      by_cases hi : i ∈ who
      · exact (hwho i hi).1
      · apply ht.complete
        have hheap := congrArg Prod.fst (hoff i hi)
        simp only [System.own] at hheap
        refine ⟨hacc ▸ hia,?_,?_⟩
        · rw [← hwait]
          exact hiw
        · rw [← hheap]
          exact hst
    · intro i hi
      by_cases hiw : i ∈ who
      · rw [if_pos hiw]
        exact (hfail i hiw).ended
      · rw [if_neg hiw]
        have hown := ht.own i hi
        rw [← hoff i hiw] at hown
        exact hown

end Worker
end FluxEngine
