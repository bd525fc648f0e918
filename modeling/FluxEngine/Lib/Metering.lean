import Mathlib.Algebra.Order.Monoid.Canonical.Defs
import FluxEngine.Lib.Interleaving

/-! # What a thread still spends

A meter bills the actions that are taken while a lasting fact is known.  The
rules bound what a thread spends from its start, and what it spends from
wherever it stands when the fact becomes known.
-/
namespace Interleaving
open Transition
variable {σ ω ℓ ε α β C : Type}

structure Meter (σ ℓ C : Type) where
  /-- what is known -/
  known : σ → Prop
  /-- what an action with the label costs when it takes one state to the other -/
  bills : ℓ → σ → σ → C → Prop

variable [AddCommMonoid C] [PartialOrder C]

namespace Prog
variable (M : Meter σ ℓ C)

/-- Started where the fact is known, a thread spends at most `n`, and its result meets `Q`. -/
def Within (Q : α → Prop) : Prog σ ω ℓ ε α → C → Prop
  | ret a, _ => Q a
  | raise _, _ => True
  | act l _ next k, n => ∀ w s, M.known s →
      ∃ c r, c + r ≤ n ∧ M.bills l s (next w s) c ∧ M.known (next w s) ∧ Within Q (k w s) r

/-- Wherever a thread stands, it spends at most `n` from there. -/
def Capped : Prog σ ω ℓ ε α → C → Prop
  | ret _, _ => True
  | raise _, _ => True
  | act l g next k, n => (act l g next k).Within M (fun _ => True) n ∧ ∀ w s, Capped (k w s) n

/-- A thread spends at most `m` from its start, and at most `n` from wherever it stands. -/
structure Bounded (p : Prog σ ω ℓ ε α) (m n : C) : Prop where
  start : p.Within M (fun _ => True) m
  capped : p.Capped M n

variable {M} {Q : α → Prop} {R : β → Prop} {p : Prog σ ω ℓ ε α} {f : α → Prog σ ω ℓ ε β} {m m' n n' k : C}

theorem Within.mono (h : p.Within M Q n) (hle : n ≤ n') : p.Within M Q n' := by
  cases p with
  | ret a => exact h
  | raise e => trivial
  | act l g next rest =>
    intro w s hs
    obtain ⟨c,r,hcr,hrest⟩ := h w s hs
    exact ⟨c,r,hcr.trans hle,hrest⟩

theorem Capped.within (h : p.Capped M n) : p.Within M (fun _ => True) n := by
  cases p with
  | ret a => trivial
  | raise e => trivial
  | act l g next rest => exact h.1

theorem Capped.bounded (h : p.Capped M n) : p.Bounded M n n := ⟨h.within,h⟩

theorem Capped.mono (h : p.Capped M n) (hle : n ≤ n') : p.Capped M n' := by
  induction p with
  | ret a => trivial
  | raise e => trivial
  | act l g next rest ih => exact ⟨h.1.mono hle,fun w s => ih w s (h.2 w s)⟩

theorem Bounded.mono (h : p.Bounded M m n) (hm : m ≤ m') (hn : n ≤ n') : p.Bounded M m' n' :=
  ⟨h.start.mono hm,h.capped.mono hn⟩

theorem bounded_pure (a : α) : (pure a : Prog σ ω ℓ ε α).Bounded M m n := ⟨trivial,trivial⟩

theorem bounded_raise (e : ε) : (Prog.raise e : Prog σ ω ℓ ε α).Bounded M m n := ⟨trivial,trivial⟩

theorem within_read {l : ℓ} {look : σ → α} (h : ∀ s, M.known s → M.bills l s s 0)
    (hQ : ∀ s, M.known s → Q (look s)) : (Prog.read l look : Prog σ ω ℓ ε α).Within M Q 0 :=
  fun _ s hs => ⟨0,0,(add_zero 0).le,h s hs,hs,hQ s hs⟩

section Canonical
variable [CanonicallyOrderedAdd C]

theorem bounded_act {l : ℓ} {g : σ → Bool} {next : ω → σ → σ} {rest : ω → σ → Prog σ ω ℓ ε α} {c : C}
    (hbill : ∀ w s, M.known s → ∃ d ≤ c, M.bills l s (next w s) d ∧ M.known (next w s))
    (hrest : ∀ w s, (rest w s).Bounded M 0 0) : (Prog.act l g next rest).Bounded M c c := by
  have hstart : (Prog.act l g next rest).Within M (fun _ => True) c := by
    intro w s hs
    obtain ⟨d,hd,hb,hk⟩ := hbill w s hs
    exact ⟨d,0,by rwa [add_zero],hb,hk,(hrest w s).start⟩
  exact ⟨hstart,hstart,fun w s => (hrest w s).capped.mono zero_le⟩

theorem bounded_write {l : ℓ} {u : ω → σ → σ} {c : C}
    (h : ∀ w s, M.known s → ∃ d ≤ c, M.bills l s (u w s) d ∧ M.known (u w s)) :
    (Prog.write l u : Prog σ ω ℓ ε Unit).Bounded M c c :=
  bounded_act h (fun _ _ => bounded_pure ())

theorem bounded_read {l : ℓ} {look : σ → α} (h : ∀ s, M.known s → M.bills l s s 0) :
    (Prog.read l look : Prog σ ω ℓ ε α).Bounded M 0 0 :=
  bounded_act (fun _ s hs => ⟨0,le_rfl,h s hs,hs⟩) (fun _ _ => bounded_pure _)

theorem bounded_await {l : ℓ} {g : σ → Bool} (h : ∀ s, M.known s → M.bills l s s 0) :
    (Prog.await l g : Prog σ ω ℓ ε Unit).Bounded M 0 0 :=
  bounded_act (fun _ s hs => ⟨0,le_rfl,h s hs,hs⟩) (fun _ _ => bounded_pure ())

variable [IsOrderedAddMonoid C]

theorem Within.bind (hp : p.Within M Q m) (hf : ∀ a, Q a → (f a).Within M R n) : (p >>= f).Within M R (m + n) := by
  induction p generalizing m with
  | ret a => exact (hf a hp).mono le_add_self
  | raise e => trivial
  | act l g next rest ih =>
    intro w s hs
    obtain ⟨c,r,hcr,hbill,hknown,hrest⟩ := hp w s hs
    refine ⟨c,r + n,?_,hbill,hknown,ih w s hrest⟩
    rw [← add_assoc]
    exact add_le_add_left hcr n

theorem Within.bind_of_returns {Q' : α → Prop} (hp : p.Within M Q m) (hr : p.Returns Q')
    (hf : ∀ a, Q' a → (f a).Within M R n) : (p >>= f).Within M R (m + n) := by
  induction p generalizing m with
  | ret a => exact (hf a hr).mono le_add_self
  | raise e => trivial
  | act l g next rest ih =>
    intro w s hs
    obtain ⟨c,r,hcr,hbill,hknown,hrest⟩ := hp w s hs
    refine ⟨c,r + n,?_,hbill,hknown,ih w s hrest (hr w s)⟩
    rw [← add_assoc]
    exact add_le_add_left hcr n

theorem Within.tryCatch {handler : ε → Prog σ ω ℓ ε α} (hp : p.Within M Q m) (hh : ∀ e, (handler e).Within M Q n) :
    (p.tryCatch handler).Within M Q (m + n) := by
  induction p generalizing m with
  | ret a => exact hp
  | raise e => exact (hh e).mono le_add_self
  | act l g next rest ih =>
    intro w s hs
    obtain ⟨c,r,hcr,hbill,hknown,hrest⟩ := hp w s hs
    refine ⟨c,r + n,?_,hbill,hknown,ih w s hrest⟩
    rw [← add_assoc]
    exact add_le_add_left hcr n

theorem Capped.bind_of_returns (hp : p.Capped M m) (hr : p.Returns Q) (hf : ∀ a, Q a → (f a).Bounded M n k)
    (hle : m + n ≤ k) : (p >>= f).Capped M k := by
  induction p with
  | ret a => exact (hf a hr).capped
  | raise e => trivial
  | act l g next rest ih =>
    refine ⟨?_,fun w s => ih w s (hp.2 w s) (hr w s)⟩
    exact (hp.1.bind_of_returns hr (fun a ha => (hf a ha).start)).mono hle

theorem Capped.bind (hp : p.Capped M m) (hf : ∀ a, (f a).Bounded M n k) (hle : m + n ≤ k) : (p >>= f).Capped M k :=
  hp.bind_of_returns (returns_any p) (fun a _ => hf a) hle

theorem Capped.tryCatch {handler : ε → Prog σ ω ℓ ε α} (hp : p.Capped M m) (hh : ∀ e, (handler e).Bounded M n k)
    (hle : m + n ≤ k) : (p.tryCatch handler).Capped M k := by
  induction p with
  | ret a => trivial
  | raise e => exact (hh e).capped
  | act l g next rest ih =>
    exact ⟨(Within.tryCatch hp.1 (fun e => (hh e).start)).mono hle,fun w s => ih w s (hp.2 w s)⟩

theorem Bounded.bind (hp : p.Bounded M m m') (hf : ∀ a, (f a).Bounded M n k) (hle : m' + n ≤ k) :
    (p >>= f).Bounded M (m + n) k :=
  ⟨hp.start.bind (fun a _ => (hf a).start),hp.capped.bind hf hle⟩

theorem Bounded.free_seq (hp : p.Bounded M 0 0) (hr : p.Returns Q) (hf : ∀ a, Q a → (f a).Bounded M 0 0) :
    (p >>= f).Bounded M 0 0 := by
  refine ⟨?_,hp.capped.bind_of_returns hr hf (add_zero 0).le⟩
  exact (hp.start.bind_of_returns hr (fun a ha => (hf a ha).start)).mono (add_zero 0).le

theorem Bounded.tryCatch {handler : ε → Prog σ ω ℓ ε α} (hp : p.Bounded M m m')
    (hh : ∀ e, (handler e).Bounded M n k) (hle : m' + n ≤ k) : (p.tryCatch handler).Bounded M (m + n) k :=
  ⟨hp.start.tryCatch (fun e => (hh e).start),hp.capped.tryCatch hh hle⟩

theorem Bounded.seq (hp : p.Bounded M m k) (hf : ∀ a, (f a).Bounded M 0 k) : (p >>= f).Bounded M m k := by
  have h := hp.bind hf (add_zero k).le
  rwa [add_zero] at h

theorem Bounded.catch {handler : ε → Prog σ ω ℓ ε α} (hp : p.Bounded M m k) (hh : ∀ e, (handler e).Bounded M 0 k) :
    (p.tryCatch handler).Bounded M m k := by
  have h := hp.tryCatch hh (add_zero k).le
  rwa [add_zero] at h

theorem Bounded.free_bind (hp : p.Bounded M 0 0) (hf : ∀ a, (f a).Bounded M m n) (hle : m ≤ n) :
    (p >>= f).Bounded M m n := by
  have h := hp.bind hf ((zero_add m).trans_le hle)
  rwa [zero_add] at h

theorem Bounded.read_bind {l : ℓ} {look : σ → α} (h : ∀ s, M.known s → M.bills l s s 0)
    (hQ : ∀ s, M.known s → Q (look s)) (hm : ∀ a, Q a → (f a).Within M (fun _ => True) m)
    (hn : ∀ a, (f a).Capped M n) (hle : m ≤ n) : (Prog.read l look >>= f).Bounded M m n := by
  have hstart : (Prog.read l look >>= f).Within M (fun _ => True) m :=
    ((within_read h hQ).bind hm).mono (zero_add m).le
  exact ⟨hstart,hstart.mono hle,fun _ s => hn (look s)⟩

end Canonical

end Prog

namespace Service
variable {S : Service σ ω ℓ ε} {P : Protocol σ ω ℓ} {M : Meter σ ℓ C} {n : C}

/-- Control spends at most `n` before its next round. -/
def Within (M : Meter σ ℓ C) (n : C) : Control σ ω ℓ ε → Prop
  | .looping p => p.Within M (fun _ => True) n
  | .closing p => p.Within M (fun _ => True) n
  | _ => True

def Capped (M : Meter σ ℓ C) (n : C) : Control σ ω ℓ ε → Prop
  | .looping p => p.Capped M n
  | .closing p => p.Capped M n
  | _ => True

theorem Capped.within {c : Control σ ω ℓ ε} (h : Capped M n c) : Within M n c := by
  cases c with
  | looping p => exact Prog.Capped.within h
  | closing p => exact Prog.Capped.within h
  | returned => trivial
  | crashed e => trivial

theorem capped_settle (hbody : S.body.Capped M n) (hepi : S.epilogue.Capped M n) {p : Prog σ ω ℓ ε Bool}
    (h : p.Capped M n) : Capped M n (S.settle p) := by
  cases p with
  | ret b =>
    cases b with
    | true => exact hbody
    | false => exact hepi
  | raise e => trivial
  | act l g next k => exact h

theorem capped_finish {p : Prog σ ω ℓ ε Unit} (h : p.Capped M n) : Capped M n (finish p) := by
  cases p with
  | ret b => trivial
  | raise e => trivial
  | act l g next k => exact h

theorem capped_reaches (hbody : S.body.Capped M n) (hepi : S.epilogue.Capped M n) {s : σ} {c : Config σ ω ℓ ε}
    (hr : Reaches (S.Step P) (S.start,s) c) : Capped M n c.1 := by
  have hstart : Capped M n S.start := hbody
  refine hr.invariant (P := fun c => Capped M n c.1) hstart ?_
  intro l c d hc hst
  cases hst with
  | env _ => exact hc
  | @act c d s t l w ha _ =>
    rcases advance_cases ha with ⟨g,next,k,rfl,_,rfl,_⟩ | ⟨g,next,k,rfl,_,rfl,_⟩
    · exact capped_settle hbody hepi (hc.2 w s)
    · exact capped_finish (hc.2 w s)

section Canonical
variable [CanonicallyOrderedAdd C]

theorem within_settle (hbody : S.body.Within M (fun _ => True) 0) (hepi : S.epilogue.Within M (fun _ => True) 0)
    {p : Prog σ ω ℓ ε Bool} (h : p.Within M (fun _ => True) n) : Within M n (S.settle p) := by
  cases p with
  | ret b =>
    cases b with
    | true => exact Prog.Within.mono hbody zero_le
    | false => exact Prog.Within.mono hepi zero_le
  | raise e => trivial
  | act l g next k => exact h

omit [CanonicallyOrderedAdd C] in
theorem within_finish {p : Prog σ ω ℓ ε Unit} (h : p.Within M (fun _ => True) n) : Within M n (finish p) := by
  cases p with
  | ret _ => trivial
  | raise e => trivial
  | act l g next k => exact h

theorem within_advance (hbody : S.body.Within M (fun _ => True) 0) (hepi : S.epilogue.Within M (fun _ => True) 0)
    {c d : Control σ ω ℓ ε} {s t : σ} {l : ℓ} {w : ω} (hc : Within M n c) (hs : M.known s)
    (ha : S.advance w s c = some (l,d,t)) :
    ∃ b r, b + r ≤ n ∧ M.bills l s t b ∧ M.known t ∧ Within M r d := by
  rcases advance_cases ha with ⟨g,next,k,rfl,_,rfl,rfl⟩ | ⟨g,next,k,rfl,_,rfl,rfl⟩
  · obtain ⟨b,r,hbr,hbill,hknown,hrest⟩ := hc w s hs
    exact ⟨b,r,hbr,hbill,hknown,within_settle hbody hepi hrest⟩
  · obtain ⟨b,r,hbr,hbill,hknown,hrest⟩ := hc w s hs
    exact ⟨b,r,hbr,hbill,hknown,within_finish hrest⟩

variable [IsOrderedAddMonoid C]

theorem within_run (Spent : List (Option (ℓ × ω)) → σ → C → Prop) (hbody : S.body.Within M (fun _ => True) 0)
    (hepi : S.epilogue.Within M (fun _ => True) 0) {c d : Config σ ω ℓ ε} {ls : List (Option (ℓ × ω))}
    (hzero : Spent [] c.2 0) (hknown : M.known c.2) (hc : Within M n c.1)
    (hact : ∀ ls l w s t b m, Spent ls s m → M.bills l s t b → Spent (ls ++ [some (l,w)]) t (m + b))
    (henv : ∀ ls s t m, Spent ls s m → M.known s → P.rely s t → Spent (ls ++ [none]) t m ∧ M.known t)
    (hr : Run (S.Step P) c ls d) : ∃ m ≤ n, Spent ls d.2 m := by
  have hall : ∃ m r, m + r ≤ n ∧ Spent ls d.2 m ∧ M.known d.2 ∧ Within M r d.1 := by
    induction hr with
    | nil => exact ⟨0,n,(zero_add n).le,hzero,hknown,hc⟩
    | snoc _ hst ih =>
      obtain ⟨m,r,hmr,hspent,hk,hw⟩ := ih
      cases hst with
      | env hrely =>
        obtain ⟨hspent',hk'⟩ := henv _ _ _ _ hspent hk hrely
        exact ⟨m,r,hmr,hspent',hk',hw⟩
      | act ha _ =>
        obtain ⟨b,r',hbr,hbill,hk',hw'⟩ := within_advance hbody hepi hw hk ha
        refine ⟨m + b,r',?_,hact _ _ _ _ _ _ _ hspent hbill,hk',hw'⟩
        rw [add_assoc]
        exact (add_le_add_right hbr m).trans hmr
  obtain ⟨m,r,hmr,hspent,_,_⟩ := hall
  exact ⟨m,le_self_add.trans hmr,hspent⟩

end Canonical

end Service
end Interleaving
