import Mathlib.Logic.Relation
import FluxEngine.Lib.Transition

/-! # Threads of atomic actions and their rely/guarantee logic

A thread is a tree of atomic actions on a shared state.  Between two actions
the rest of the system may take any number of rely steps.  `Safe` is the
weakest precondition of a thread under that interference: it charges every
action with an effect and its results with a postcondition, and lets it block
in idle states only.
-/
namespace Interleaving
open Relation (ReflTransGen)

/-- A thread over states `σ`: an action waits for its guard, updates the state
with the answer `ω` the outside world gives, and goes on with the rest. -/
inductive Prog (σ ω ℓ ε α : Type) : Type
  | ret (a : α)
  | raise (e : ε)
  | act (label : ℓ) (enabled : σ → Bool) (next : ω → σ → σ) (rest : ω → σ → Prog σ ω ℓ ε α)

variable {σ ω ℓ ε α β : Type}

namespace Prog

protected def bind : Prog σ ω ℓ ε α → (α → Prog σ ω ℓ ε β) → Prog σ ω ℓ ε β
  | ret a, f => f a
  | raise e, _ => raise e
  | act l g n k, f => act l g n (fun w s => (k w s).bind f)

/-- Run a thread and hand an escaping exception to the handler. -/
def tryCatch : Prog σ ω ℓ ε α → (ε → Prog σ ω ℓ ε α) → Prog σ ω ℓ ε α
  | ret a, _ => ret a
  | raise e, h => h e
  | act l g n k, h => act l g n (fun w s => (k w s).tryCatch h)

instance : Monad (Prog σ ω ℓ ε) where
  pure := ret
  bind := Prog.bind

def read (l : ℓ) (f : σ → α) : Prog σ ω ℓ ε α :=
  act l (fun _ => true) (fun _ s => s) (fun _ s => ret (f s))

def write (l : ℓ) (f : ω → σ → σ) : Prog σ ω ℓ ε Unit :=
  act l (fun _ => true) f (fun _ _ => ret ())

def await (l : ℓ) (guard : σ → Bool) : Prog σ ω ℓ ε Unit :=
  act l guard (fun _ s => s) (fun _ _ => ret ())

/-- The thread has an action to take. -/
def IsAct : Prog σ ω ℓ ε α → Prop
  | act _ _ _ _ => True
  | _ => False

end Prog

/-- What a thread may assume and what it owes. -/
structure Protocol (σ ω ℓ : Type) where
  /-- holds in every state, by `Protocol.Sound` -/
  inv : σ → Prop
  /-- the steps of the rest of the system -/
  rely : σ → σ → Prop
  /-- the answers an action may get -/
  answers : ℓ → ω → Prop
  /-- what an action does to the state -/
  effect : ℓ → ω → σ → σ → Prop
  /-- where an action may block -/
  idle : σ → Prop

namespace Protocol
variable (P : Protocol σ ω ℓ)

def Interferes (s t : σ) : Prop := P.inv s ∧ P.rely s t

def Stable (A : σ → Prop) : Prop := ∀ s t, P.Interferes s t → A s → A t

/-- The invariant survives the rest of the system and every effect. -/
structure Sound : Prop where
  rely : ∀ s t, P.Interferes s t → P.inv t
  effect : ∀ l w s t, P.inv s → P.answers l w → P.effect l w s t → P.inv t

/-- The same protocol for actions with labels in `A`. -/
def within (A : ℓ → Prop) : Protocol σ ω ℓ := { P with effect := fun l w s t => A l ∧ P.effect l w s t }

variable {P}

theorem Sound.within (h : P.Sound) (A : ℓ → Prop) : (P.within A).Sound :=
  ⟨h.rely,fun l w s t hs hw heff => h.effect l w s t hs hw heff.2⟩

theorem Stable.and {A B : σ → Prop} (hA : P.Stable A) (hB : P.Stable B) :
    P.Stable (fun s => A s ∧ B s) :=
  fun s t hst h => ⟨hA s t hst h.1,hB s t hst h.2⟩

theorem Stable.star {A : σ → Prop} (hA : P.Stable A) {s t : σ}
    (h : ReflTransGen P.Interferes s t) (hs : A s) : A t := by
  induction h with
  | refl => exact hs
  | tail _ hst ih => exact hA _ _ hst ih

end Protocol

namespace Prog
variable (P : Protocol σ ω ℓ)

/-- Under interference, every action has its effect and blocks in idle states
only, results meet `Q` and escaping exceptions meet `E`. -/
def Safe (Q : α → σ → Prop) (E : ε → σ → Prop) : Prog σ ω ℓ ε α → σ → Prop
  | ret a, s => Q a s
  | raise e, s => E e s
  | act l g n k, s => ∀ t, ReflTransGen P.Interferes s t → P.inv t → (g t = false → P.idle t) ∧
      (g t = true → ∀ w, P.answers l w → P.effect l w t (n w t) ∧ Safe Q E (k w t) (n w t))

/-- What a thread has left after some of its actions, with interference before each. -/
inductive Passes (p : Prog σ ω ℓ ε α) (s : σ) : Prog σ ω ℓ ε α → σ → Prop
  | refl : Passes p s p s
  | env {q : Prog σ ω ℓ ε α} {t u : σ} : Passes p s q t → q.IsAct → P.Interferes t u → Passes p s q u
  | act {l : ℓ} {g : σ → Bool} {n : ω → σ → σ} {k : ω → σ → Prog σ ω ℓ ε α} {w : ω} {t : σ} :
      Passes p s (.act l g n k) t → P.inv t → g t = true → P.answers l w → Passes p s (k w t) (n w t)

variable {P} {Q Q' : α → σ → Prop} {E E' : ε → σ → Prop} {p : Prog σ ω ℓ ε α} {s t : σ}

@[simp] theorem safe_ret {a : α} : (Prog.ret a).Safe P Q E s ↔ Q a s := Iff.rfl
@[simp] theorem safe_pure {a : α} : (pure a : Prog σ ω ℓ ε α).Safe P Q E s ↔ Q a s := Iff.rfl
@[simp] theorem safe_raise {e : ε} : (Prog.raise e : Prog σ ω ℓ ε α).Safe P Q E s ↔ E e s := Iff.rfl

theorem Safe.mono (h : p.Safe P Q E s) (hQ : ∀ a t, Q a t → Q' a t) (hE : ∀ e t, E e t → E' e t) :
    p.Safe P Q' E' s := by
  induction p generalizing s with
  | ret a => exact hQ a s h
  | raise e => exact hE e s h
  | act l g n k ih =>
    intro t hst hinv
    obtain ⟨hidle,hact⟩ := h t hst hinv
    refine ⟨hidle,?_⟩
    intro hg w hw
    obtain ⟨heff,hk⟩ := hact hg w hw
    exact ⟨heff,ih w t hk⟩

theorem Safe.bind {f : α → Prog σ ω ℓ ε β} {R : β → σ → Prop} (h : p.Safe P Q E s)
    (hf : ∀ a t, Q a t → (f a).Safe P R E t) : (p >>= f).Safe P R E s := by
  induction p generalizing s with
  | ret a => exact hf a s h
  | raise e => exact h
  | act l g n k ih =>
    intro t hst hinv
    obtain ⟨hidle,hact⟩ := h t hst hinv
    refine ⟨hidle,?_⟩
    intro hg w hw
    obtain ⟨heff,hk⟩ := hact hg w hw
    exact ⟨heff,ih w t hk⟩

theorem Safe.tryCatch {handler : ε → Prog σ ω ℓ ε α} (h : p.Safe P Q E' s)
    (hh : ∀ e t, E' e t → (handler e).Safe P Q E t) : (p.tryCatch handler).Safe P Q E s := by
  induction p generalizing s with
  | ret a => exact h
  | raise e => exact hh e s h
  | act l g n k ih =>
    intro t hst hinv
    obtain ⟨hidle,hact⟩ := h t hst hinv
    refine ⟨hidle,?_⟩
    intro hg w hw
    obtain ⟨heff,hk⟩ := hact hg w hw
    exact ⟨heff,ih w t hk⟩

theorem Safe.frame {I : σ → Prop} (h : p.Safe P Q E s) (hs : I s) (hI : P.Stable I)
    (heff : ∀ l w s t, P.inv s → I s → P.effect l w s t → I t) :
    p.Safe P (fun a t => Q a t ∧ I t) (fun e t => E e t ∧ I t) s := by
  induction p generalizing s with
  | ret a => exact ⟨h,hs⟩
  | raise e => exact ⟨h,hs⟩
  | act l g n k ih =>
    intro t hst hinv
    have ht := hI.star hst hs
    obtain ⟨hidle,hact⟩ := h t hst hinv
    refine ⟨hidle,?_⟩
    intro hg w hw
    obtain ⟨hstep,hk⟩ := hact hg w hw
    exact ⟨hstep,ih w t hk (heff l w t _ hinv ht hstep)⟩

theorem Safe.rely (h : p.Safe P Q E s) (ha : p.IsAct) (hst : ReflTransGen P.Interferes s t) :
    p.Safe P Q E t := by
  cases p with
  | ret a => exact ha.elim
  | raise e => exact ha.elim
  | act l g n k => exact fun u htu => h u (hst.trans htu)

theorem Passes.trans {q r : Prog σ ω ℓ ε α} {u : σ} (h : Passes P p s q t) (k : Passes P q t r u) :
    Passes P p s r u := by
  induction k with
  | refl => exact h
  | env _ ha hst ih => exact ih.env ha hst
  | act _ hinv hg hw ih => exact ih.act hinv hg hw

theorem bind_assoc {γ : Type} (f : α → Prog σ ω ℓ ε β) (g : β → Prog σ ω ℓ ε γ) :
    p >>= f >>= g = p >>= fun a => f a >>= g := by
  induction p with
  | ret a => rfl
  | raise e => rfl
  | act l guard n k ih =>
    have hk : (fun w s => k w s >>= f >>= g) = fun w s => k w s >>= fun a => f a >>= g := by
      funext w s
      exact ih w s
    exact congrArg (act l guard n) hk

theorem Passes.bind {f : α → Prog σ ω ℓ ε β} {q : Prog σ ω ℓ ε α} (h : Passes P p s q t) :
    Passes P (p >>= f) s (q >>= f) t := by
  induction h with
  | refl => exact .refl
  | @env q t u _ ha hst ih =>
    cases q with
    | ret a => exact ha.elim
    | raise e => exact ha.elim
    | act l g n k => exact ih.env trivial hst
  | act _ hinv hg hw ih => exact ih.act hinv hg hw

theorem Passes.seq {f : α → Prog σ ω ℓ ε β} {a : α} {q : Prog σ ω ℓ ε β} {u : σ} (h : Passes P p s (ret a) t)
    (k : Passes P (f a) t q u) : Passes P (p >>= f) s q u :=
  h.bind.trans k

theorem Safe.passes (h : p.Safe P Q E s) {q : Prog σ ω ℓ ε α} (hq : Passes P p s q t) : q.Safe P Q E t := by
  induction hq with
  | refl => exact h
  | env _ ha hst ih => exact ih.rely ha (.single hst)
  | act _ hinv hg hw ih => exact ((ih _ .refl hinv).2 hg _ hw).2

theorem safe_act {l : ℓ} {g : σ → Bool} {n : ω → σ → σ} {k : ω → σ → Prog σ ω ℓ ε α}
    {A : σ → Prop} (hA : P.Stable A) (hs : A s) (hidle : ∀ t, A t → P.inv t → g t = false → P.idle t)
    (h : ∀ t, A t → P.inv t → g t = true → ∀ w, P.answers l w →
      P.effect l w t (n w t) ∧ (k w t).Safe P Q E (n w t)) :
    (Prog.act l g n k).Safe P Q E s := by
  intro t hst hinv
  have ht := hA.star hst hs
  exact ⟨hidle t ht hinv,fun hg w hw => h t ht hinv hg w hw⟩

theorem safe_read {l : ℓ} {f : σ → α} {A : σ → Prop} (hA : P.Stable A) (hs : A s)
    (h : ∀ t, A t → P.inv t → ∀ w, P.answers l w → P.effect l w t t ∧ Q (f t) t) :
    (Prog.read l f : Prog σ ω ℓ ε α).Safe P Q E s :=
  safe_act hA hs (by simp) (fun t ht hinv _ w hw => h t ht hinv w hw)

theorem safe_write {l : ℓ} {f : ω → σ → σ} {Q : Unit → σ → Prop} {A : σ → Prop}
    (hA : P.Stable A) (hs : A s)
    (h : ∀ t, A t → P.inv t → ∀ w, P.answers l w → P.effect l w t (f w t) ∧ Q () (f w t)) :
    (Prog.write l f : Prog σ ω ℓ ε Unit).Safe P Q E s :=
  safe_act hA hs (by simp) (fun t ht hinv _ w hw => h t ht hinv w hw)

theorem safe_await {l : ℓ} {g : σ → Bool} {Q : Unit → σ → Prop} {A : σ → Prop}
    (hA : P.Stable A) (hs : A s) (hidle : ∀ t, A t → P.inv t → g t = false → P.idle t)
    (h : ∀ t, A t → P.inv t → g t = true → ∀ w, P.answers l w → P.effect l w t t ∧ Q () t) :
    (Prog.await l g : Prog σ ω ℓ ε Unit).Safe P Q E s :=
  safe_act hA hs hidle (fun t ht hinv hg w hw => h t ht hinv hg w hw)

end Prog

namespace Prog
variable {A : ℓ → Prop}

/-- Whatever a thread still does has a label in `A`. -/
def Emits (A : ℓ → Prop) : Prog σ ω ℓ ε α → Prop
  | ret _ => True
  | raise _ => True
  | act l _ _ k => A l ∧ ∀ w s, Emits A (k w s)

@[simp] theorem emits_pure (a : α) : (pure a : Prog σ ω ℓ ε α).Emits A := trivial
@[simp] theorem emits_raise (e : ε) : (Prog.raise e : Prog σ ω ℓ ε α).Emits A := trivial

@[simp] theorem emits_read {l : ℓ} {f : σ → α} : (Prog.read l f : Prog σ ω ℓ ε α).Emits A ↔ A l :=
  ⟨And.left,fun h => ⟨h,fun _ _ => trivial⟩⟩

@[simp] theorem emits_write {l : ℓ} {f : ω → σ → σ} : (Prog.write l f : Prog σ ω ℓ ε Unit).Emits A ↔ A l :=
  ⟨And.left,fun h => ⟨h,fun _ _ => trivial⟩⟩

@[simp] theorem emits_await {l : ℓ} {g : σ → Bool} : (Prog.await l g : Prog σ ω ℓ ε Unit).Emits A ↔ A l :=
  ⟨And.left,fun h => ⟨h,fun _ _ => trivial⟩⟩

theorem Emits.bind {p : Prog σ ω ℓ ε α} {f : α → Prog σ ω ℓ ε β} (hp : p.Emits A) (hf : ∀ a, (f a).Emits A) :
    (p >>= f).Emits A := by
  induction p with
  | ret a => exact hf a
  | raise e => trivial
  | act l g n k ih => exact ⟨hp.1,fun w s => ih w s (hp.2 w s)⟩

theorem Emits.tryCatch {p : Prog σ ω ℓ ε α} {handler : ε → Prog σ ω ℓ ε α} (hp : p.Emits A)
    (hh : ∀ e, (handler e).Emits A) : (p.tryCatch handler).Emits A := by
  induction p with
  | ret a => trivial
  | raise e => exact hh e
  | act l g n k ih => exact ⟨hp.1,fun w s => ih w s (hp.2 w s)⟩

theorem Emits.mono {B : ℓ → Prop} {p : Prog σ ω ℓ ε α} (h : p.Emits A) (hle : ∀ l, A l → B l) : p.Emits B := by
  induction p with
  | ret a => trivial
  | raise e => trivial
  | act l g n k ih => exact ⟨hle l h.1,fun w s => ih w s (h.2 w s)⟩

theorem emits_any (p : Prog σ ω ℓ ε α) : p.Emits (fun _ => True) := by
  induction p with
  | ret a => trivial
  | raise e => trivial
  | act l g n k ih => exact ⟨trivial,ih⟩

/-- Whatever a thread returns meets `R`. -/
def Returns (R : α → Prop) : Prog σ ω ℓ ε α → Prop
  | ret a => R a
  | raise _ => True
  | act _ _ _ k => ∀ w s, Returns R (k w s)

theorem Returns.mono {R S : α → Prop} {p : Prog σ ω ℓ ε α} (h : p.Returns R) (hle : ∀ a, R a → S a) : p.Returns S := by
  induction p with
  | ret a => exact hle a h
  | raise e => trivial
  | act l g n k ih => exact fun w s => ih w s (h w s)

theorem returns_any (p : Prog σ ω ℓ ε α) : p.Returns (fun _ => True) := by
  induction p with
  | ret a => trivial
  | raise e => trivial
  | act l g n k ih => exact ih

theorem Returns.bind {R : α → Prop} {S : β → Prop} {p : Prog σ ω ℓ ε α} {f : α → Prog σ ω ℓ ε β} (hp : p.Returns R)
    (hf : ∀ a, R a → (f a).Returns S) : (p >>= f).Returns S := by
  induction p with
  | ret a => exact hf a hp
  | raise e => trivial
  | act l g n k ih => exact fun w s => ih w s (hp w s)

theorem Emits.bind_of_returns {R : α → Prop} {p : Prog σ ω ℓ ε α} {f : α → Prog σ ω ℓ ε β} (hp : p.Emits A)
    (hr : p.Returns R) (hf : ∀ a, R a → (f a).Emits A) : (p >>= f).Emits A := by
  induction p with
  | ret a => exact hf a hr
  | raise e => trivial
  | act l g n k ih => exact ⟨hp.1,fun w s => ih w s (hp.2 w s) (hr w s)⟩

section Within
variable {P : Protocol σ ω ℓ} {Q : α → σ → Prop} {E : ε → σ → Prop} {p q : Prog σ ω ℓ ε α} {s t : σ}

theorem Safe.within (h : p.Safe P Q E s) (he : p.Emits A) : p.Safe (P.within A) Q E s := by
  induction p generalizing s with
  | ret a => exact h
  | raise e => exact h
  | act l g n k ih =>
    intro t hst hinv
    obtain ⟨hidle,hact⟩ := h t hst hinv
    refine ⟨hidle,?_⟩
    intro hg w hw
    obtain ⟨heff,hk⟩ := hact hg w hw
    exact ⟨⟨he.1,heff⟩,ih w t hk (he.2 w t)⟩

theorem Safe.of_within (h : p.Safe (P.within A) Q E s) : p.Safe P Q E s := by
  induction p generalizing s with
  | ret a => exact h
  | raise e => exact h
  | act l g n k ih =>
    intro t hst hinv
    obtain ⟨hidle,hact⟩ := h t hst hinv
    refine ⟨hidle,?_⟩
    intro hg w hw
    obtain ⟨heff,hk⟩ := hact hg w hw
    exact ⟨heff.2,ih w t hk⟩

theorem Passes.within (h : Passes P p s q t) : Passes (P.within A) p s q t := by
  induction h with
  | refl => exact .refl
  | env _ ha hst ih => exact ih.env ha hst
  | act _ hinv hg hw ih => exact ih.act hinv hg hw

end Within

/-- Whatever a thread does to the state is in `M`. -/
def Keeps (M : σ → σ → Prop) : Prog σ ω ℓ ε α → Prop
  | ret _ => True
  | raise _ => True
  | act _ _ n k => (∀ w s, M s (n w s)) ∧ ∀ w s, Keeps M (k w s)

variable {M : σ → σ → Prop}

@[simp] theorem keeps_pure (a : α) : (pure a : Prog σ ω ℓ ε α).Keeps M := trivial
@[simp] theorem keeps_raise (e : ε) : (Prog.raise e : Prog σ ω ℓ ε α).Keeps M := trivial

theorem keeps_read {l : ℓ} {f : σ → α} (h : ∀ s, M s s) : (Prog.read l f : Prog σ ω ℓ ε α).Keeps M :=
  ⟨fun _ s => h s,fun _ _ => trivial⟩

theorem keeps_write {l : ℓ} {f : ω → σ → σ} (h : ∀ w s, M s (f w s)) : (Prog.write l f : Prog σ ω ℓ ε Unit).Keeps M :=
  ⟨h,fun _ _ => trivial⟩

theorem Keeps.bind {p : Prog σ ω ℓ ε α} {f : α → Prog σ ω ℓ ε β} (hp : p.Keeps M) (hf : ∀ a, (f a).Keeps M) :
    (p >>= f).Keeps M := by
  induction p with
  | ret a => exact hf a
  | raise e => trivial
  | act l g n k ih => exact ⟨hp.1,fun w s => ih w s (hp.2 w s)⟩

theorem Keeps.bind_of_returns {R : α → Prop} {p : Prog σ ω ℓ ε α} {f : α → Prog σ ω ℓ ε β} (hp : p.Keeps M)
    (hr : p.Returns R) (hf : ∀ a, R a → (f a).Keeps M) : (p >>= f).Keeps M := by
  induction p with
  | ret a => exact hf a hr
  | raise e => trivial
  | act l g n k ih => exact ⟨hp.1,fun w s => ih w s (hp.2 w s) (hr w s)⟩

theorem Keeps.tryCatch {p : Prog σ ω ℓ ε α} {handler : ε → Prog σ ω ℓ ε α} (hp : p.Keeps M)
    (hh : ∀ e, (handler e).Keeps M) : (p.tryCatch handler).Keeps M := by
  induction p with
  | ret a => trivial
  | raise e => exact hh e
  | act l g n k ih => exact ⟨hp.1,fun w s => ih w s (hp.2 w s)⟩

variable {P : Protocol σ ω ℓ} {Q : α → σ → Prop} {E : ε → σ → Prop} {p q : Prog σ ω ℓ ε α} {s t : σ}

theorem Passes.invariant {I : σ → Prop} (h : Passes P p s q t) (hsafe : p.Safe P Q E s) (hm : p.Keeps M)
    (hs : I s) (hI : P.Stable I) (hact : ∀ l w t u, P.inv t → P.effect l w t u → M t u → I t → I u) : I t := by
  have hboth : I t ∧ q.Keeps M := by
    induction h with
    | refl => exact ⟨hs,hm⟩
    | env _ _ hst ih => exact ⟨hI _ _ hst ih.1,ih.2⟩
    | @act l g n k w t hpass hinv hg hw ih =>
      have heff := ((hsafe.passes hpass t .refl hinv).2 hg w hw).1
      exact ⟨hact l w t _ hinv heff (ih.2.1 w t) ih.1,ih.2.2 w t⟩
  exact hboth.1

/-- Take the actions of a thread one after the other, without interference. -/
def drive : List ω → Prog σ ω ℓ ε α → σ → Option (Prog σ ω ℓ ε α × σ)
  | [], p, s => some (p,s)
  | w :: ws, act _ g n k, s => if g s then drive ws (k w s) (n w s) else none
  | _, _, _ => none

/-- The value of a thread that has returned. -/
def value : Prog σ ω ℓ ε α → Option α
  | ret a => some a
  | _ => none

theorem eq_ret_of_value {a : α} (h : p.value = some a) : p = ret a := by
  cases p with
  | ret b =>
    cases h
    rfl
  | raise e => cases h
  | act l g n k => cases h

theorem passes_of_drive {ws : List ω} (hP : P.Sound) (h : p.Safe P Q E s) (hinv : P.inv s)
    (hans : ∀ l, ∀ w ∈ ws, P.answers l w) (hd : p.drive ws s = some (q,t)) : Passes P p s q t ∧ P.inv t := by
  induction ws generalizing p s with
  | nil =>
    cases hd
    exact ⟨.refl,hinv⟩
  | cons w ws ih =>
    cases p with
    | ret a => cases hd
    | raise e => cases hd
    | act l g n k =>
      simp only [drive,Option.ite_none_right_eq_some] at hd
      obtain ⟨hg,hd⟩ := hd
      have hw := hans l w List.mem_cons_self
      obtain ⟨heff,hk⟩ := (h s .refl hinv).2 hg w hw
      obtain ⟨hpass,ht⟩ := ih hk (hP.effect l w s _ hinv hw heff) (fun l w hw => hans l w (List.mem_cons_of_mem _ hw)) hd
      exact ⟨Passes.trans (.act .refl hinv hg hw) hpass,ht⟩

end Prog

/-- `while body(): pass`, then the epilogue. -/
structure Service (σ ω ℓ ε : Type) where
  /-- one round; `false` leaves the loop -/
  body : Prog σ ω ℓ ε Bool
  epilogue : Prog σ ω ℓ ε Unit
  body_acts : body.IsAct
  epilogue_acts : epilogue.IsAct

/-- Where a service stands: what is left of its current round or epilogue. -/
inductive Control (σ ω ℓ ε : Type)
  | looping (p : Prog σ ω ℓ ε Bool)
  | closing (p : Prog σ ω ℓ ε Unit)
  | returned
  | crashed (e : ε)

/-- The service is in its loop. -/
def Control.isLooping : Control σ ω ℓ ε → Bool
  | .looping _ => true
  | _ => false

/-- The exception that ended the service. -/
def Control.crash : Control σ ω ℓ ε → Option ε
  | .crashed e => some e
  | _ => none

namespace Service
variable (S : Service σ ω ℓ ε)

def start : Control σ ω ℓ ε := .looping S.body

/-- Control after an action of a round. -/
def settle : Prog σ ω ℓ ε Bool → Control σ ω ℓ ε
  | .ret true => S.start
  | .ret false => .closing S.epilogue
  | .raise e => .crashed e
  | .act l g n k => .looping (.act l g n k)

/-- Control after an action of the epilogue. -/
def finish : Prog σ ω ℓ ε Unit → Control σ ω ℓ ε
  | .ret _ => .returned
  | .raise e => .crashed e
  | .act l g n k => .closing (.act l g n k)

/-- The next action of the service, if it is enabled. -/
def advance (w : ω) (s : σ) : Control σ ω ℓ ε → Option (ℓ × Control σ ω ℓ ε × σ)
  | .looping (.act l g n k) => if g s then some (l,S.settle (k w s),n w s) else none
  | .closing (.act l g n k) => if g s then some (l,finish (k w s),n w s) else none
  | _ => none

abbrev Config (σ ω ℓ ε : Type) := Control σ ω ℓ ε × σ

/-- One step of the whole system: an action of the service, labelled with its
answer, or a step of its environment. -/
inductive Step (P : Protocol σ ω ℓ) : Option (ℓ × ω) → Config σ ω ℓ ε → Config σ ω ℓ ε → Prop
  | env {c : Control σ ω ℓ ε} {s t : σ} : P.rely s t → Step P none (c,s) (c,t)
  | act {c d : Control σ ω ℓ ε} {s t : σ} {l : ℓ} {w : ω} :
      S.advance w s c = some (l,d,t) → P.answers l w → Step P (some (l,w)) (c,s) (d,t)

/-- What has been proved about a service: its rounds keep `Top`, leave with
`Exit`, and the epilogue ends with `Done`. -/
structure Verified (P : Protocol σ ω ℓ) (Top Exit Done : σ → Prop) (E : ε → σ → Prop) : Prop where
  sound : P.Sound
  body : ∀ s, Top s → S.body.Safe P (fun b t => if b then Top t else Exit t) E s
  epilogue : ∀ s, Exit s → S.epilogue.Safe P (fun _ t => Done t) E s

/-- The control part of a configuration agrees with what has been proved. -/
def Standing (P : Protocol σ ω ℓ) (Top Exit Done : σ → Prop) (E : ε → σ → Prop) :
    Config σ ω ℓ ε → Prop
  | (.looping p,s) => p.IsAct ∧ p.Safe P (fun b t => if b then Top t else Exit t) E s
  | (.closing p,s) => p.IsAct ∧ p.Safe P (fun _ t => Done t) E s
  | (.returned,_) => True
  | (.crashed e,_) => ∃ t, E e t

variable {S} {P : Protocol σ ω ℓ} {Top Exit Done : σ → Prop} {E : ε → σ → Prop}

theorem advance_cases {c d : Control σ ω ℓ ε} {s t : σ} {l : ℓ} {w : ω} (h : S.advance w s c = some (l,d,t)) :
    (∃ g n k, c = .looping (.act l g n k) ∧ g s = true ∧ d = S.settle (k w s) ∧ t = n w s) ∨
    ∃ g n k, c = .closing (.act l g n k) ∧ g s = true ∧ d = finish (k w s) ∧ t = n w s := by
  cases c with
  | looping p =>
    cases p with
    | act l' g n k =>
      simp only [advance,Option.ite_none_right_eq_some,Option.some.injEq,Prod.mk.injEq] at h
      obtain ⟨hg,rfl,rfl,rfl⟩ := h
      exact Or.inl ⟨g,n,k,rfl,hg,rfl,rfl⟩
    | _ => simp [advance] at h
  | closing p =>
    cases p with
    | act l' g n k =>
      simp only [advance,Option.ite_none_right_eq_some,Option.some.injEq,Prod.mk.injEq] at h
      obtain ⟨hg,rfl,rfl,rfl⟩ := h
      exact Or.inr ⟨g,n,k,rfl,hg,rfl,rfl⟩
    | _ => simp [advance] at h
  | _ => simp [advance] at h

theorem standing_settle (h : S.Verified P Top Exit Done E) {p : Prog σ ω ℓ ε Bool} {s : σ}
    (hp : p.Safe P (fun b t => if b then Top t else Exit t) E s) :
    Standing P Top Exit Done E (S.settle p,s) := by
  cases p with
  | ret b =>
    cases b with
    | true => exact ⟨S.body_acts,h.body s (by simpa using hp)⟩
    | false => exact ⟨S.epilogue_acts,h.epilogue s (by simpa using hp)⟩
  | raise e => exact ⟨s,hp⟩
  | act l g n k => exact ⟨trivial,hp⟩

theorem standing_finish {p : Prog σ ω ℓ ε Unit} {s : σ} (hp : p.Safe P (fun _ t => Done t) E s) :
    Standing P Top Exit Done E (finish p,s) := by
  cases p with
  | ret b => trivial
  | raise e => exact ⟨s,hp⟩
  | act l g n k => exact ⟨trivial,hp⟩

/-- The invariant together with the agreement of control and proof. -/
def Good (P : Protocol σ ω ℓ) (Top Exit Done : σ → Prop) (E : ε → σ → Prop)
    (c : Config σ ω ℓ ε) : Prop :=
  P.inv c.2 ∧ Standing P Top Exit Done E c

theorem good_start (h : S.Verified P Top Exit Done E) {s : σ} (hinv : P.inv s) (htop : Top s) :
    Good P Top Exit Done E (S.start,s) :=
  ⟨hinv,S.body_acts,h.body s htop⟩

/-- What one action of a service in good standing does. -/
theorem good_act (h : S.Verified P Top Exit Done E) {c d : Control σ ω ℓ ε} {s t : σ} {l : ℓ} {w : ω}
    (hc : Good P Top Exit Done E (c,s)) (ha : S.advance w s c = some (l,d,t)) (hw : P.answers l w) :
    P.effect l w s t ∧ Standing P Top Exit Done E (d,t) ∧ (d = .returned → Done t) ∧
      (∀ p q, c = .looping p → d = .closing q → Exit t) := by
  obtain ⟨hinv,hstand⟩ := hc
  rcases advance_cases ha with ⟨g,n,k,rfl,hg,rfl,rfl⟩ | ⟨g,n,k,rfl,hg,rfl,rfl⟩
  · obtain ⟨heff,hk⟩ := (hstand.2 s .refl hinv).2 hg w hw
    refine ⟨heff,standing_settle h hk,?_,?_⟩
    · intro hd
      cases hp : k w s with
      | ret b => cases b <;> simp [hp,settle,start] at hd
      | raise e => simp [hp,settle] at hd
      | act l g n k => simp [hp,settle] at hd
    · intro p q _ hd
      cases hp : k w s with
      | ret b =>
        rw [hp] at hk hd
        cases b with
        | true => simp [settle,start] at hd
        | false => simpa using hk
      | raise e => simp [hp,settle] at hd
      | act l g n k => simp [hp,settle] at hd
  · obtain ⟨heff,hk⟩ := (hstand.2 s .refl hinv).2 hg w hw
    refine ⟨heff,standing_finish hk,?_,?_⟩
    · intro hd
      cases hp : k w s with
      | ret b => rwa [hp] at hk
      | raise e => simp [hp,finish] at hd
      | act l g n k => simp [hp,finish] at hd
    · rintro p q ⟨⟩

/-- A service in good standing is stuck in idle states only. -/
theorem good_enabled {c : Control σ ω ℓ ε} {s : σ} (hc : Good P Top Exit Done E (c,s)) (w : ω) :
    match c with
    | .looping _ => (S.advance w s c).isSome ∨ P.idle s
    | .closing _ => (S.advance w s c).isSome ∨ P.idle s
    | _ => True := by
  obtain ⟨hinv,hstand⟩ := hc
  have hact : ∀ {α : Type} {l : ℓ} {g : σ → Bool} {n : ω → σ → σ} {k : ω → σ → Prog σ ω ℓ ε α}
      {Q : α → σ → Prop}, (Prog.act l g n k).Safe P Q E s → g s = true ∨ P.idle s := by
    intro α l g n k Q h
    cases hg : g s with
    | true => exact Or.inl rfl
    | false => exact Or.inr ((h s .refl hinv).1 hg)
  cases c with
  | looping p =>
    cases p with
    | ret b => exact hstand.1.elim
    | raise e => exact hstand.1.elim
    | act l g n k =>
      refine (hact hstand.2).imp_left ?_
      intro hg
      simp [advance,hg]
  | closing p =>
    cases p with
    | ret b => exact hstand.1.elim
    | raise e => exact hstand.1.elim
    | act l g n k =>
      refine (hact hstand.2).imp_left ?_
      intro hg
      simp [advance,hg]
  | returned => trivial
  | crashed e => trivial

theorem good_env (h : S.Verified P Top Exit Done E) {c : Control σ ω ℓ ε} {s t : σ}
    (hc : Good P Top Exit Done E (c,s)) (hst : P.rely s t) : Good P Top Exit Done E (c,t) := by
  obtain ⟨hinv,hstand⟩ := hc
  have hi : P.Interferes s t := ⟨hinv,hst⟩
  refine ⟨h.sound.rely s t hi,?_⟩
  cases c with
  | looping p => exact ⟨hstand.1,hstand.2.rely hstand.1 (.single hi)⟩
  | closing p => exact ⟨hstand.1,hstand.2.rely hstand.1 (.single hi)⟩
  | returned => trivial
  | crashed e => exact hstand

theorem good_step (h : S.Verified P Top Exit Done E) {l : Option (ℓ × ω)} {c d : Config σ ω ℓ ε}
    (hc : Good P Top Exit Done E c) (hs : S.Step P l c d) : Good P Top Exit Done E d := by
  cases hs with
  | env hr => exact good_env h hc hr
  | act ha hw =>
    obtain ⟨heff,hstand,_,_⟩ := good_act h hc ha hw
    exact ⟨h.sound.effect _ _ _ _ hc.1 hw heff,hstand⟩

theorem good_reaches (h : S.Verified P Top Exit Done E) {c d : Config σ ω ℓ ε}
    (hc : Good P Top Exit Done E c) (hr : Transition.Reaches (S.Step P) c d) :
    Good P Top Exit Done E d :=
  hr.invariant hc (fun _ _ _ ht hs => good_step h ht hs)

/-- A looping service is in a round that began at its top. -/
def InRound (S : Service σ ω ℓ ε) (P : Protocol σ ω ℓ) (Top : σ → Prop) (c₀ : Config σ ω ℓ ε) :
    Config σ ω ℓ ε → Prop
  | (.looping q,t) => ∃ s, P.inv s ∧ Top s ∧ Transition.Reaches (S.Step P) c₀ (S.start,s) ∧
      Prog.Passes P S.body s q t
  | _ => True

theorem inRound_act (h : S.Verified P Top Exit Done E) {c₀ : Config σ ω ℓ ε} {c d : Control σ ω ℓ ε} {s t : σ}
    {l : ℓ} {w : ω} (hc : Good P Top Exit Done E (c,s)) (hd : Good P Top Exit Done E (d,t))
    (hr : Transition.Reaches (S.Step P) c₀ (d,t)) (hi : S.InRound P Top c₀ (c,s))
    (ha : S.advance w s c = some (l,d,t)) (hw : P.answers l w) : S.InRound P Top c₀ (d,t) := by
  rcases advance_cases ha with ⟨g,n,k,rfl,hg,rfl,rfl⟩ | ⟨g,n,k,rfl,_,rfl,rfl⟩
  · obtain ⟨s₁,hinv,htop,hrun,hpass⟩ := hi
    have hnext := hpass.act hc.1 hg hw
    cases hp : k w s with
    | act l g n k' =>
      rw [hp] at hnext
      exact ⟨s₁,hinv,htop,hrun,hnext⟩
    | raise e => trivial
    | ret b =>
      rw [hp] at hnext hr
      cases b with
      | false => trivial
      | true =>
        -- the round is over, and the next one begins here
        have hpost := (h.body s₁ htop).passes hnext
        exact ⟨_,hd.1,by simpa using hpost,hr,.refl⟩
  · cases hp : k w s with
    | ret b => trivial
    | raise e => trivial
    | act l g n k' => trivial

theorem inRound_reaches (h : S.Verified P Top Exit Done E) {s : σ} (hinv : P.inv s) (htop : Top s)
    {c : Config σ ω ℓ ε} (hr : Transition.Reaches (S.Step P) (S.start,s) c) :
    S.InRound P Top (S.start,s) c := by
  have hall : Transition.Reaches (S.Step P) (S.start,s) c ∧ Good P Top Exit Done E c ∧
      S.InRound P Top (S.start,s) c := by
    refine hr.invariant (P := fun c => Transition.Reaches (S.Step P) (S.start,s) c ∧
      Good P Top Exit Done E c ∧ S.InRound P Top (S.start,s) c) ?_ ?_
    · exact ⟨.refl _,good_start h hinv htop,s,hinv,htop,.refl _,.refl⟩
    · rintro l c d ⟨hrc,hgood,hround⟩ hst
      have hrd := hrc.tail hst
      have hgood' := good_step h hgood hst
      refine ⟨hrd,hgood',?_⟩
      cases hst with
      | @env c s' t' hrely =>
        cases c with
        | looping q =>
          obtain ⟨s₁,hinv₁,htop₁,hrun,hpass⟩ := hround
          exact ⟨s₁,hinv₁,htop₁,hrun,hpass.env hgood.2.1 ⟨hgood.1,hrely⟩⟩
        | closing q => trivial
        | returned => trivial
        | crashed e => trivial
      | act ha hw => exact inRound_act h hgood hgood' hrd hround ha hw
  exact hall.2.2

theorem reaches_of_passes {p : Prog σ ω ℓ ε Bool} {s t : σ} (h : Prog.Passes P S.body s p t) :
    Transition.Reaches (S.Step P) (S.start,s) (S.settle p,t) := by
  have hsettle : ∀ {q : Prog σ ω ℓ ε Bool}, q.IsAct → S.settle q = .looping q := by
    intro q ha
    cases q with
    | ret b => exact ha.elim
    | raise e => exact ha.elim
    | act l g n k => rfl
  induction h with
  | refl =>
    rw [hsettle S.body_acts]
    exact .refl _
  | env _ ha hst ih =>
    rw [hsettle ha] at ih ⊢
    exact ih.tail (.env hst.2)
  | act _ _ hg hw ih => exact ih.tail (.act (by simp [settle,advance,hg]) hw)

/-- After some rounds from `s` the service is at the top of its loop. -/
inductive Rounds (S : Service σ ω ℓ ε) (P : Protocol σ ω ℓ) (s : σ) : σ → Prop
  | refl : Rounds S P s s
  | round {t u : σ} : Rounds S P s t → Prog.Passes P S.body t (.ret true) u → Rounds S P s u

theorem Rounds.reaches {s t : σ} (h : S.Rounds P s t) : Transition.Reaches (S.Step P) (S.start,s) (S.start,t) := by
  induction h with
  | refl => exact .refl _
  | round _ hp ih => exact ih.trans (reaches_of_passes hp)

theorem Rounds.top (hS : S.Verified P Top Exit Done E) {s t : σ} (h : S.Rounds P s t) (hs : Top s) : Top t := by
  induction h with
  | refl => exact hs
  | @round t u _ hp ih =>
    have hpost := (hS.body t ih).passes hp
    simpa using hpost

theorem Rounds.within {s t : σ} (h : S.Rounds P s t) (A : ℓ → Prop) : S.Rounds (P.within A) s t := by
  induction h with
  | refl => exact .refl
  | round _ hp ih => exact ih.round hp.within

theorem Step.within {l : Option (ℓ × ω)} {c d : Config σ ω ℓ ε} (h : S.Step P l c d) (A : ℓ → Prop) :
    S.Step (P.within A) l c d := by
  cases h with
  | env hr => exact .env hr
  | act ha hw => exact .act ha hw

/-- The labels that control has ahead of it before the next round. -/
def Emits (A : ℓ → Prop) : Control σ ω ℓ ε → Prop
  | .looping p => p.Emits A
  | .closing p => p.Emits A
  | _ => True

theorem emits_settle {A : ℓ → Prop} (hbody : S.body.Emits A) (hepi : S.epilogue.Emits A) {p : Prog σ ω ℓ ε Bool}
    (hp : p.Emits A) : Emits A (S.settle p) := by
  cases p with
  | ret b =>
    cases b with
    | true => exact hbody
    | false => exact hepi
  | raise e => trivial
  | act l g n k => exact hp

theorem emits_finish {A : ℓ → Prop} {p : Prog σ ω ℓ ε Unit} (hp : p.Emits A) : Emits A (finish p) := by
  cases p with
  | ret _ => trivial
  | raise e => trivial
  | act l g n k => exact hp

theorem emits_advance {A : ℓ → Prop} (hbody : S.body.Emits A) (hepi : S.epilogue.Emits A) {c d : Control σ ω ℓ ε}
    {s t : σ} {l : ℓ} {w : ω} (hc : Emits A c) (ha : S.advance w s c = some (l,d,t)) : A l ∧ Emits A d := by
  rcases advance_cases ha with ⟨g,n,k,rfl,_,rfl,_⟩ | ⟨g,n,k,rfl,_,rfl,_⟩
  · exact ⟨hc.1,emits_settle hbody hepi (hc.2 w s)⟩
  · exact ⟨hc.1,emits_finish (hc.2 w s)⟩

theorem emits_reaches {A : ℓ → Prop} (hbody : S.body.Emits A) (hepi : S.epilogue.Emits A) {s : σ}
    {c : Config σ ω ℓ ε} (hr : Transition.Reaches (S.Step P) (S.start,s) c) : Emits A c.1 := by
  have hstart : Emits A S.start := hbody
  refine hr.invariant (P := fun c => Emits A c.1) hstart ?_
  intro l c d hc hst
  cases hst with
  | env _ => exact hc
  | act ha _ => exact (emits_advance hbody hepi hc ha).2

end Service
end Interleaving
