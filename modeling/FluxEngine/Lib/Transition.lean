import Mathlib.Data.List.Induction
import Mathlib.Logic.Relation

/-! # Labelled runs of a transition relation

A run records the labels of its steps in order.  Invariants are lifted from one
step to a whole run once, also for runs all of whose steps meet a condition on
the state they start from, and from a specification to what refines it.
-/
namespace Transition
variable {σ ℓ : Type*}

/-- Finite runs from `s`, extended at their end. -/
inductive Run (step : ℓ → σ → σ → Prop) (s : σ) : List ℓ → σ → Prop
  | nil : Run step s [] s
  | snoc {ls : List ℓ} {l : ℓ} {t u : σ} :
      Run step s ls t → step l t u → Run step s (ls ++ [l]) u

/-- Some run leads from `s` to `t`. -/
def Reaches (step : ℓ → σ → σ → Prop) (s t : σ) : Prop := ∃ ls, Run step s ls t

/-- The steps of a relation that start in a state meeting a condition. -/
def guarded (cond : ℓ → σ → Prop) (step : ℓ → σ → σ → Prop) (l : ℓ) (s t : σ) : Prop :=
  cond l s ∧ step l s t

variable {step step' : ℓ → σ → σ → Prop} {s t u : σ} {ls ks : List ℓ}

theorem Run.invariant {P : σ → Prop} (h : Run step s ls t) (hs : P s)
    (hstep : ∀ l t u, P t → step l t u → P u) : P t := by
  induction h with
  | nil => exact hs
  | snoc _ hl ih => exact hstep _ _ _ ih hl

theorem Run.append (h : Run step s ls t) (k : Run step t ks u) : Run step s (ls ++ ks) u := by
  induction k with
  | nil => simpa using h
  | snoc _ hl ih =>
    rw [← List.append_assoc]
    exact ih.snoc hl

theorem Run.single {l : ℓ} (h : step l s t) : Run step s [l] t := Run.snoc .nil h

theorem Run.last {l : ℓ} (h : Run step s (ls ++ [l]) u) : ∃ t, Run step s ls t ∧ step l t u := by
  generalize hks : ls ++ [l] = ks at h
  cases h with
  | nil => simp at hks
  | snoc hrun hl =>
    obtain ⟨rfl,hlast⟩ := List.append_inj' hks rfl
    cases hlast
    exact ⟨_,hrun,hl⟩

theorem Run.of_append (h : Run step s (ls ++ ks) u) : ∃ t, Run step s ls t ∧ Run step t ks u := by
  induction ks using List.reverseRecOn generalizing u with
  | nil => exact ⟨u,by simpa using h,.nil⟩
  | append_singleton ks l ih =>
    rw [← List.append_assoc] at h
    obtain ⟨v,hv,hl⟩ := h.last
    obtain ⟨t,ht,hks⟩ := ih hv
    exact ⟨t,ht,hks.snoc hl⟩

theorem Reaches.refl (s : σ) : Reaches step s s := ⟨[],.nil⟩

theorem Reaches.trans (h : Reaches step s t) (k : Reaches step t u) : Reaches step s u := by
  obtain ⟨ls,h⟩ := h
  obtain ⟨ks,k⟩ := k
  exact ⟨ls ++ ks,h.append k⟩

theorem Reaches.tail {l : ℓ} (h : Reaches step s t) (k : step l t u) : Reaches step s u :=
  h.trans ⟨[l],.single k⟩

theorem Reaches.invariant {P : σ → Prop} (h : Reaches step s t) (hs : P s)
    (hstep : ∀ l t u, P t → step l t u → P u) : P t := by
  obtain ⟨ls,h⟩ := h
  exact h.invariant hs hstep

theorem Reaches.mono (h : Reaches step s t) (hle : ∀ l s t, step l s t → step' l s t) :
    Reaches step' s t := by
  refine h.invariant (P := fun t => Reaches step' s t) (.refl s) ?_
  intro l t u ht hl
  exact ht.tail (hle l t u hl)

theorem Reaches.relation {P : σ → σ → Prop} (h : Reaches step s t) (hrefl : P s s)
    (hstep : ∀ l t u, P s t → step l t u → P s u) : P s t :=
  h.invariant (P := P s) hrefl hstep

/-- `f` maps the states of a system to those of a specification; `inv` is what is
known of the system's states. -/
structure Refines {τ κ : Type*} (step : ℓ → σ → σ → Prop) (start inv : σ → Prop) (spec : κ → τ → τ → Prop) (origin : τ → Prop)
    (f : σ → τ) : Prop where
  start : ∀ s, start s → inv s ∧ origin (f s)
  step : ∀ l s t, inv s → step l s t → inv t ∧ (f t = f s ∨ ∃ k, spec k (f s) (f t))

section Refinement
variable {τ κ : Type*} {start inv : σ → Prop} {spec : κ → τ → τ → Prop} {origin : τ → Prop} {f : σ → τ}

theorem Refines.reaches (h : Refines step start inv spec origin f) (hs : inv s) (hr : Reaches step s t) :
    inv t ∧ Reaches spec (f s) (f t) := by
  refine hr.invariant (P := fun t => inv t ∧ Reaches spec (f s) (f t)) ⟨hs,.refl _⟩ ?_
  rintro l t u ⟨ht,hst⟩ hl
  obtain ⟨hu,heq | ⟨k,hk⟩⟩ := h.step l t u ht hl
  · rw [heq]
    exact ⟨hu,hst⟩
  · exact ⟨hu,hst.tail hk⟩

theorem Refines.invariant (h : Refines step start inv spec origin f) {I : τ → Prop} (horigin : ∀ x, origin x → I x)
    (hspec : ∀ k x y, I x → spec k x y → I y) (hs : start s) (hr : Reaches step s t) : I (f t) :=
  (h.reaches (h.start s hs).1 hr).2.invariant (horigin _ (h.start s hs).2) hspec

end Refinement

/-- Take the steps of a list of labels, where they can be taken. -/
def playAll (exec : ℓ → σ → Option σ) : List ℓ → σ → Option σ
  | [], s => some s
  | l :: ls, s => (exec l s).bind (playAll exec ls)

theorem playAll_run {exec : ℓ → σ → Option σ} (hexec : ∀ l ∈ ls, ∀ s t, exec l s = some t → step l s t)
    (h : playAll exec ls s = some t) : Run step s ls t := by
  induction ls generalizing s with
  | nil =>
    cases h
    exact .nil
  | cons l ls ih =>
    obtain ⟨u,hu,h⟩ := Option.bind_eq_some_iff.mp h
    have hl : step l s u := hexec l List.mem_cons_self s u hu
    exact (Run.single hl).append (ih (fun k hk => hexec k (List.mem_cons_of_mem l hk)) h)

theorem playAll_allowed {allowed : ℓ → σ → Prop} [∀ l s, Decidable (allowed l s)] {apply : ℓ → σ → σ}
    (h : playAll (fun l s => if allowed l s then some (apply l s) else none) ls s = some t) :
    Run (fun l s t => allowed l s ∧ t = apply l s) s ls t := by
  refine playAll_run ?_ h
  intro l _ s t hst
  simp only [Option.ite_none_right_eq_some,Option.some.injEq] at hst
  exact ⟨hst.1,hst.2.symm⟩

end Transition
