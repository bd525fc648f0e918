import FluxEngine.Serving.PrefixSavings

/-! # Whether the reported savings are true

Runs of the serving machine with a tally of what the prefills have saved, beside
the counters of the prefix cache.
-/
namespace FluxEngine
open Transition
variable {P L : Type} [Inhabited P] [Inhabited L] {eng : CachedEngine P L} {s s₀ t : System P L}

/-- A step of the serving machine that prefills no sequence twice, and its entry in
the tally. -/
def Counted (eng : CachedEngine P L) (ev : Event) (c d : System P L × (ℕ × ℕ)) : Prop :=
  Step eng ev c.1 d.1 ∧ ev.Once c.1 ∧ d.2 = c.2 + ev.saves eng c.1

/-- The counters are ahead of the tally by what is outstanding and what is lost. -/
def Balance (lost : ℕ × ℕ) (c : System P L × (ℕ × ℕ)) : Prop :=
  c.1.scheduler.savings = c.2 + c.1.outstanding + lost

variable {c d : System P L × (ℕ × ℕ)} {lost : ℕ × ℕ}

theorem reachable_of_counted (hs : Reachable eng c.1) (h : Reaches (Counted eng) c d) : Reachable eng d.1 := by
  refine h.invariant (P := fun d => Reachable eng d.1) hs ?_
  rintro ev u v ⟨s₀,h0,hr⟩ ⟨hst,_⟩
  exact ⟨s₀,h0,hr.tail hst⟩

theorem Counted.balance {ev : Event} (h : Counted eng ev c d) (hs : Reachable eng c.1) (hb : Balance lost c) :
    ∃ loss, Balance (lost + loss) d ∧ (ev.Honest c.1 → loss = 0) ∧ (¬ ev.Honest c.1 → 0 < loss.1) := by
  obtain ⟨hst,honce,htally⟩ := h
  obtain ⟨loss,heq,h1,h2⟩ := hst.settles hs honce
  refine ⟨loss,?_,h1,h2⟩
  unfold Balance at hb ⊢
  rw [htally]
  simp only [Prod.ext_iff,Prod.fst_add,Prod.snd_add] at hb heq ⊢
  omega

theorem balance_of_honest (hs : Reachable eng c.1) (hb : Balance 0 c)
    (h : Reaches (guarded (fun ev c => ev.Honest c.1) (Counted eng)) c d) : Balance 0 d := by
  have hinv : Reachable eng d.1 ∧ Balance 0 d := by
    refine h.invariant (P := fun d => Reachable eng d.1 ∧ Balance 0 d) ⟨hs,hb⟩ ?_
    rintro ev u v ⟨hu,hb⟩ ⟨hhonest,hst⟩
    obtain ⟨loss,hv,h1,_⟩ := hst.balance hu hb
    rw [h1 hhonest,add_zero] at hv
    exact ⟨reachable_of_counted hu ((Reaches.refl u).tail hst),hv⟩
  exact hinv.2

theorem balance_of_counted (hs : Reachable eng c.1) (hb : Balance lost c) (h : Reaches (Counted eng) c d) :
    ∃ loss, Balance (lost + loss) d := by
  have hinv : Reachable eng d.1 ∧ ∃ loss, Balance (lost + loss) d := by
    refine h.invariant (P := fun d => Reachable eng d.1 ∧ ∃ loss, Balance (lost + loss) d) ⟨hs,0,?_⟩ ?_
    · rw [add_zero]
      exact hb
    · rintro ev u v ⟨hu,loss,hb⟩ hst
      obtain ⟨more,hv,_⟩ := hst.balance hu hb
      refine ⟨reachable_of_counted hu ((Reaches.refl u).tail hst),loss + more,?_⟩
      rw [← add_assoc]
      exact hv
  exact hinv.2

omit [Inhabited P] [Inhabited L] in
theorem System.outstanding_of_calm (h : ∀ i, ¬ s.Prefilling i) : s.outstanding = 0 := by
  have hzero : s.accepted.map s.unspent = s.accepted.map (fun _ => 0) :=
    List.map_congr_left (fun i _ => if_neg (h i))
  rw [System.outstanding,hzero]
  simp

omit [Inhabited P] [Inhabited L] in
theorem System.Initial.balance (h : s.Initial) (hzero : s.scheduler.savings = 0) : Balance 0 (s,0) := by
  unfold Balance System.outstanding
  simp [hzero,h.accepted]

theorem ServeEngine.Runs.counted {mode : ServeEngine} {may : Site → Bool} {c : WorkerControl P L × System P L}
    (h : mode.Runs eng may c) : ∃ (s : System P L) (tally : ℕ × ℕ), s.Boot ∧ Reaches (Counted eng) (s,0) (c.2,tally) := by
  refine h.invariant (I := fun t => ∃ (s : System P L) (tally : ℕ × ℕ), s.Boot ∧
    Reaches (Counted eng) (s,0) (t,tally)) ?_ ?_
  · exact fun s hs => ⟨s,0,hs,.refl _⟩
  · rintro l ev t u _ _ ⟨hst,hord⟩ ⟨s,tally,hs,hr⟩
    exact ⟨s,tally + ev.saves eng t,hs,hr.tail ⟨hst,Event.once_of_inOrder hord,rfl⟩⟩

def Event.count (eng : CachedEngine P L) (ev : Event) (c : System P L × (ℕ × ℕ)) : Option (System P L × (ℕ × ℕ)) :=
  if ev.Once c.1 then (ev.exec eng c.1).map (fun t => (t,c.2 + ev.saves eng c.1)) else none

theorem Event.count_sound {ev : Event} (h : ev.count eng c = some d) : Counted eng ev c d := by
  simp only [count,Option.ite_none_right_eq_some] at h
  obtain ⟨honce,h⟩ := h
  obtain ⟨t,ht,rfl⟩ := Option.map_eq_some_iff.mp h
  exact ⟨ev.exec_sound ht,honce,rfl⟩

omit [Inhabited P] [Inhabited L] in
theorem System.calm_of_all (h : s.accepted.all (fun i => !decide (s.Prefilling i)) = true) (i : SeqId) :
    ¬ s.Prefilling i := by
  intro hi
  have hnot := List.all_eq_true.mp h i hi.1.1
  simp [hi] at hnot

/-- While every step is honest, the counters tell at every calm moment what the
prefills have saved; after a step that is not, `hits` is too high at all of them. -/
theorem savings_reported (h0 : s₀.Initial) (hzero : s₀.scheduler.savings = 0) :
    (∀ t tally, Reaches (guarded (fun ev c => ev.Honest c.1) (Counted eng)) (s₀,0) (t,tally) →
      (∀ i, ¬ t.Prefilling i) → ∀ c, t.scheduler.prefixCache = some c → c.hits = tally.1 ∧ c.tokensSaved = tally.2) ∧
    ∀ ev u v t tally, Reaches (Counted eng) (s₀,0) u → Counted eng ev u v → ¬ ev.Honest u.1 →
      Reaches (Counted eng) v (t,tally) → (∀ i, ¬ t.Prefilling i) →
        ∀ c, t.scheduler.prefixCache = some c → tally.1 < c.hits := by
  have hstart : Reachable eng s₀ := ⟨s₀,h0,.refl s₀⟩
  have hsavings : ∀ {t : System P L} {c : PrefixCache P L}, t.scheduler.prefixCache = some c →
      t.scheduler.savings = (c.hits,c.tokensSaved) := by
    intro t c hc
    rw [Scheduler.savings,hc,Option.elim_some]
    rfl
  constructor
  · intro t tally hr hcalm c hc
    have hb : Balance 0 (t,tally) := balance_of_honest hstart (h0.balance hzero) hr
    unfold Balance at hb
    rw [hsavings hc,System.outstanding_of_calm hcalm,add_zero,add_zero] at hb
    exact Prod.ext_iff.mp hb
  · intro ev u v t tally hu hst hlost hr hcalm c hc
    obtain ⟨before,hbu⟩ := balance_of_counted hstart (h0.balance hzero) hu
    have hru := reachable_of_counted hstart hu
    obtain ⟨loss,hbv,_,hpos⟩ := hst.balance hru hbu
    obtain ⟨after,hbt⟩ := balance_of_counted (reachable_of_counted hru ((Reaches.refl u).tail hst)) hbv hr
    have hloss := hpos hlost
    unfold Balance at hbt
    rw [hsavings hc,System.outstanding_of_calm hcalm] at hbt
    simp only [Prod.ext_iff,Prod.fst_add,Prod.fst_zero] at hbt
    omega

/-- Serve a request and store its prefix, and prefill one that continues its prompt. -/
def continuedRun : List Event :=
  [.submit 0 [5,6] oneToken,.admission 0,.bind 0 0,.prefill 0,.store 0 id,.note 0 0,.finish 0 "continuous",
    .submit 1 [5,6,7] oneToken,.admission 1,.bind 1 1,.prefill 1]

theorem savings_reported_continued : ∃ (t : System ℕ Token) (c : PrefixCache ℕ Token) (tally : ℕ × ℕ),
    Reaches (Counted (FakeLm.engine {})) (roomySystem,0) (t,tally) ∧ t.scheduler.prefixCache = some c ∧
      tally = (1,2) ∧ c.hits = 1 ∧ c.tokensSaved = 2 := by
  have hobs : (playAll (fun ev c => if ev.Honest c.1 then ev.count (FakeLm.engine {}) c else none) continuedRun
      (roomySystem,0)).map (fun d => (d.2,d.1.accepted.all (fun i => !decide (d.1.Prefilling i)),
        d.1.scheduler.prefixCache.isSome)) = some ((1,2),true,true) := by decide
  obtain ⟨⟨t,tally⟩,ht,hobs⟩ := Option.map_eq_some_iff.mp hobs
  simp only [Prod.mk.injEq] at hobs
  obtain ⟨htally,hcalm,hc⟩ := hobs
  obtain ⟨c,hc⟩ := Option.isSome_iff_exists.mp hc
  have hrun : Run (guarded (fun ev c => ev.Honest c.1) (Counted (FakeLm.engine {}))) (roomySystem,0) continuedRun
      (t,tally) := by
    refine playAll_run ?_ ht
    intro ev _ u v huv
    simp only [Option.ite_none_right_eq_some] at huv
    exact ⟨huv.1,Event.count_sound huv.2⟩
  obtain ⟨h1,h2⟩ := (savings_reported roomySystem_initial rfl).1 t tally ⟨_,hrun⟩ (System.calm_of_all hcalm) c hc
  rw [htally] at h1 h2
  exact ⟨t,c,tally,Reaches.mono ⟨_,hrun⟩ (fun _ _ _ hst => hst.2),hc,htally,h1,h2⟩

/-- Serve a request and store its prefixes, and prefill one for a prefix of its
prompt, whose logits are not stored. -/
def shortenedRun : List Event :=
  [.submit 0 [5,6,7] oneToken,.admission 0,.bind 0 0,.prefill 0,.store 0 id,.note 0 0,.finish 0 "continuous",
    .submit 1 [5,6] oneToken,.admission 1,.bind 1 1,.prefill 1]

/-- The second request is counted as a hit, and all its tokens go to the model. -/
theorem not_savings_reported :
    ¬ ∀ (s₀ : System ℕ Token), s₀.Initial → s₀.scheduler.savings = 0 →
      ∀ t tally, Reaches (Counted (FakeLm.engine {})) (s₀,0) (t,tally) → (∀ i, ¬ t.Prefilling i) →
        ∀ c, t.scheduler.prefixCache = some c → c.hits = tally.1 ∧ c.tokensSaved = tally.2 := by
  intro h
  have hobs : (playAll (fun ev c => ev.count (FakeLm.engine {}) c) shortenedRun (roomySystem,0)).map
      (fun d => (d.2,d.1.accepted.all (fun i => !decide (d.1.Prefilling i)),
        d.1.scheduler.prefixCache.map PrefixCache.savings)) = some ((0,0),true,some (1,2)) := by decide
  obtain ⟨⟨t,tally⟩,ht,hobs⟩ := Option.map_eq_some_iff.mp hobs
  simp only [Prod.mk.injEq] at hobs
  obtain ⟨htally,hcalm,hsav⟩ := hobs
  obtain ⟨c,hc,hsav⟩ := Option.map_eq_some_iff.mp hsav
  have hrun : Run (Counted (FakeLm.engine {})) (roomySystem,0) shortenedRun (t,tally) :=
    playAll_run (fun ev _ u v huv => Event.count_sound huv) ht
  obtain ⟨h1,_⟩ := h roomySystem roomySystem_initial rfl t tally ⟨_,hrun⟩ (System.calm_of_all hcalm) c hc
  rw [htally] at h1
  have hhits : c.hits = 1 := congrArg Prod.fst hsav
  rw [hhits] at h1
  cases h1

end FluxEngine
