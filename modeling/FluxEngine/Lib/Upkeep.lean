import FluxEngine.Lib.Liveness

/-! # Invariants that a thread keeps by itself

A thread upholds an invariant when each of its actions does, whatever it is
answered and whatever came in between.  Unlike `Safe` this says nothing of what
a thread knows of the state, only of what it returns, so it takes no proof
outline.
-/
namespace Interleaving
open Transition
variable {σ ω ℓ ε α β : Type}

namespace Prog

/-- Every action keeps `I`, and the result meets `R`. -/
def Upholds (I : σ → Prop) (R : α → Prop) : Prog σ ω ℓ ε α → Prop
  | ret a => R a
  | raise _ => True
  | act _ _ n k => ∀ w s, I s → I (n w s) ∧ Upholds I R (k w s)

variable {I : σ → Prop} {R R' : α → Prop} {S : β → Prop} {p : Prog σ ω ℓ ε α}

@[simp] theorem upholds_pure {a : α} : (pure a : Prog σ ω ℓ ε α).Upholds I R ↔ R a := Iff.rfl
@[simp] theorem upholds_raise (e : ε) : (Prog.raise e : Prog σ ω ℓ ε α).Upholds I R := trivial

theorem upholds_read {l : ℓ} {f : σ → α} (h : ∀ s, I s → R (f s)) : (Prog.read l f : Prog σ ω ℓ ε α).Upholds I R :=
  fun _ s hs => ⟨hs,h s hs⟩

theorem upholds_write {l : ℓ} {f : ω → σ → σ} (h : ∀ w s, I s → I (f w s)) :
    (Prog.write l f : Prog σ ω ℓ ε Unit).Upholds I (fun _ => True) :=
  fun w s hs => ⟨h w s hs,trivial⟩

theorem upholds_await {l : ℓ} {g : σ → Bool} : (Prog.await l g : Prog σ ω ℓ ε Unit).Upholds I (fun _ => True) :=
  fun _ _ hs => ⟨hs,trivial⟩

theorem Upholds.mono (h : p.Upholds I R) (hR : ∀ a, R a → R' a) : p.Upholds I R' := by
  induction p with
  | ret a => exact hR a h
  | raise e => trivial
  | act l g n k ih =>
    intro w s hs
    obtain ⟨hn,hk⟩ := h w s hs
    exact ⟨hn,ih w s hk⟩

theorem Upholds.bind {f : α → Prog σ ω ℓ ε β} (h : p.Upholds I R) (hf : ∀ a, R a → (f a).Upholds I S) :
    (p >>= f).Upholds I S := by
  induction p with
  | ret a => exact hf a h
  | raise e => trivial
  | act l g n k ih =>
    intro w s hs
    obtain ⟨hn,hk⟩ := h w s hs
    exact ⟨hn,ih w s hk⟩

theorem Upholds.bind_of_returns {f : α → Prog σ ω ℓ ε β} (h : p.Upholds I R) (hr : p.Returns R')
    (hf : ∀ a, R' a → (f a).Upholds I S) : (p >>= f).Upholds I S := by
  induction p with
  | ret a => exact hf a hr
  | raise e => trivial
  | act l g n k ih =>
    intro w s hs
    obtain ⟨hn,hk⟩ := h w s hs
    exact ⟨hn,ih w s hk (hr w s)⟩

theorem Upholds.tryCatch {handler : ε → Prog σ ω ℓ ε α} (h : p.Upholds I R) (hh : ∀ e, (handler e).Upholds I R) :
    (p.tryCatch handler).Upholds I R := by
  induction p with
  | ret a => exact h
  | raise e => exact hh e
  | act l g n k ih =>
    intro w s hs
    obtain ⟨hn,hk⟩ := h w s hs
    exact ⟨hn,ih w s hk⟩

end Prog

/-- A protocol with a tamer environment. -/
structure Protocol.Tamer (P P' : Protocol σ ω ℓ) : Prop where
  rely : ∀ s t, P.rely s t → P'.rely s t
  answers : ∀ l w, P.answers l w ↔ P'.answers l w

namespace Service
variable {S : Service σ ω ℓ ε} {P P' : Protocol σ ω ℓ} {I : σ → Prop} {c d : Config σ ω ℓ ε} {s : σ}

/-- The service is in its loop or has crashed there, and what is left of the round
upholds the invariant. -/
def Upholding (I : σ → Prop) : Control σ ω ℓ ε → Prop
  | .looping p => p.Upholds I (fun more => more = true)
  | .closing _ => False
  | .returned => False
  | .crashed _ => True

theorem upholds_reaches (hbody : S.body.Upholds I (fun more => more = true)) (hrely : ∀ s t, I s → P.rely s t → I t)
    (hs : I s) (hr : Reaches (S.Step P) (S.start,s) c) : I c.2 ∧ Upholding I c.1 := by
  have hstart : I s ∧ Upholding I S.start := ⟨hs,hbody⟩
  refine hr.invariant (P := fun c => I c.2 ∧ Upholding I c.1) hstart ?_
  rintro l c d ⟨hI,hc⟩ hst
  cases hst with
  | env hstep => exact ⟨hrely _ _ hI hstep,hc⟩
  | @act c d s t l w ha _ =>
    rcases advance_cases ha with ⟨g,n,k,rfl,_,rfl,rfl⟩ | ⟨g,n,k,rfl,_,rfl,rfl⟩
    · obtain ⟨hn,hk⟩ := hc w s hI
      refine ⟨hn,?_⟩
      cases hp : k w s with
      | ret more =>
        rw [hp] at hk
        cases hk
        exact hbody
      | raise e => trivial
      | act l g n k =>
        rw [hp] at hk
        exact hk
    · exact hc.elim

/-- What control has ahead of it before the next round is in `M`. -/
def Keeping (M : σ → σ → Prop) : Control σ ω ℓ ε → Prop
  | .looping p => p.Keeps M
  | .closing p => p.Keeps M
  | .returned => True
  | .crashed _ => True

theorem keeping_advance {M : σ → σ → Prop} (hbody : S.body.Keeps M) (hepi : S.epilogue.Keeps M)
    {c d : Control σ ω ℓ ε} {s t : σ} {l : ℓ} {w : ω} (hc : Keeping M c) (ha : S.advance w s c = some (l,d,t)) :
    M s t ∧ Keeping M d := by
  rcases advance_cases ha with ⟨g,n,k,rfl,_,rfl,rfl⟩ | ⟨g,n,k,rfl,_,rfl,rfl⟩
  · obtain ⟨hn,hk⟩ := hc
    refine ⟨hn w s,?_⟩
    have hnext := hk w s
    cases hp : k w s with
    | ret more =>
      cases more with
      | true => exact hbody
      | false => exact hepi
    | raise e => trivial
    | act l g n k =>
      rw [hp] at hnext
      exact hnext
  · obtain ⟨hn,hk⟩ := hc
    refine ⟨hn w s,?_⟩
    have hnext := hk w s
    cases hp : k w s with
    | ret a => trivial
    | raise e => trivial
    | act l g n k =>
      rw [hp] at hnext
      exact hnext

theorem keeps_reaches {M : σ → σ → Prop} (hbody : S.body.Keeps M) (hepi : S.epilogue.Keeps M)
    (hr : Reaches (S.Step P) (S.start,s) c) : Keeping M c.1 := by
  have hstart : Keeping M S.start := hbody
  refine hr.invariant (P := fun c => Keeping M c.1) hstart ?_
  intro l c d hc hst
  cases hst with
  | env _ => exact hc
  | act ha _ => exact (keeping_advance hbody hepi hc ha).2

theorem Step.keeps {M : σ → σ → Prop} (hbody : S.body.Keeps M) (hepi : S.epilogue.Keeps M)
    (hr : Reaches (S.Step P) (S.start,s) c) {r : ℓ × ω} (hst : S.Step P (some r) c d) : M c.2 d.2 := by
  have hc := keeps_reaches hbody hepi hr
  cases hst with
  | act ha _ => exact (keeping_advance hbody hepi hc ha).1

theorem Step.widen (h : P.Tamer P') {l : Option (ℓ × ω)} (hst : S.Step P l c d) : S.Step P' l c d := by
  cases hst with
  | env hr => exact .env (h.rely _ _ hr)
  | act ha hw => exact .act ha ((h.answers _ _).mp hw)

/-- A run under the tamer environment is one under the other. -/
def Behaviour.widen (b : S.Behaviour P) (h : P.Tamer P') : S.Behaviour P' where
  config := b.config
  label := b.label
  next n := (b.next n).widen h

theorem Step.tame (h : P.Tamer P') {r : ℓ × ω} (hst : S.Step P' (some r) c d) : S.Step P (some r) c d := by
  cases hst with
  | act ha hw => exact .act ha ((h.answers _ _).mpr hw)

theorem CanAct.tame (h : P.Tamer P') (hc : S.CanAct P' c) : S.CanAct P c := by
  obtain ⟨r,d,hst⟩ := hc
  exact ⟨r,d,hst.tame h⟩

theorem Behaviour.Fair.widen {b : S.Behaviour P} (hb : b.Fair) (h : P.Tamer P') : (b.widen h).Fair := by
  intro n hcan
  exact hb n (fun m hm => (hcan m hm).tame h)

end Service
end Interleaving
