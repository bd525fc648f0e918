import Mathlib.Data.Nat.Find
import Mathlib.Order.Nat
import FluxEngine.Lib.Interleaving

/-! # Liveness of a service

A run without end is fair when a service that can act from some time on acts
again.  A goal that every round of a service comes closer to is reached in every
fair run: the rounds are counted down by a variant, and the actions of a round
by its tree.
-/
namespace Interleaving
open Relation (ReflTransGen)
variable {σ ω ℓ ε α : Type}

namespace Prog
variable {P : Protocol σ ω ℓ} {Q Q' : α → σ → Prop} {E E' : ε → σ → Prop}
variable {p : Prog σ ω ℓ ε α} {s : σ}

theorem Safe.and (h : p.Safe P Q E s) (h' : p.Safe P Q' E' s) :
    p.Safe P (fun a t => Q a t ∧ Q' a t) (fun e t => E e t ∧ E' e t) s := by
  induction p generalizing s with
  | ret a => exact ⟨h,h'⟩
  | raise e => exact ⟨h,h'⟩
  | act l g n k ih =>
    intro t hst hinv
    obtain ⟨hidle,hact⟩ := h t hst hinv
    refine ⟨hidle,?_⟩
    intro hg w hw
    obtain ⟨heff,hk⟩ := hact hg w hw
    exact ⟨heff,ih w t hk ((h' t hst hinv).2 hg w hw).2⟩

end Prog

namespace Service
variable (S : Service σ ω ℓ ε) (P : Protocol σ ω ℓ)

def CanAct (c : Config σ ω ℓ ε) : Prop := ∃ r d, S.Step P (some r) c d

def Waits (c d : Config σ ω ℓ ε) : Prop := d.1 = c.1 ∧ ReflTransGen P.rely c.2 d.2

/-- The service comes to `Q` if only it acts again and again, whatever the
environment does before each of its actions. -/
inductive Inevitable (Q : σ → Prop) : Config σ ω ℓ ε → Prop
  | intro {c : Config σ ω ℓ ε} : (∀ d, Waits P c d → ¬Q d.2 → S.CanAct P d) →
      (∀ d r e, Waits P c d → ¬Q d.2 → S.Step P (some r) d e → Inevitable Q e) → Inevitable Q c

/-- A run without end, with its labels. -/
structure Behaviour where
  config : ℕ → Config σ ω ℓ ε
  label : ℕ → Option (ℓ × ω)
  next : ∀ n, S.Step P (label n) (config n) (config (n + 1))

/-- Weak fairness: a service that can act from some time on acts after it. -/
def Behaviour.Fair {S : Service σ ω ℓ ε} {P : Protocol σ ω ℓ} (b : S.Behaviour P) : Prop :=
  ∀ n, (∀ m, n ≤ m → S.CanAct P (b.config m)) → ∃ m, n ≤ m ∧ (b.label m).isSome

variable {S P} {Q : σ → Prop} {c d : Config σ ω ℓ ε} {s t : σ}

theorem Behaviour.reaches (b : S.Behaviour P) {n m : ℕ} (hnm : n ≤ m) :
    Transition.Reaches (S.Step P) (b.config n) (b.config m) := by
  induction m, hnm using Nat.le_induction with
  | base => exact .refl _
  | succ m _ ih => exact ih.tail (b.next m)

theorem Waits.refl (c : Config σ ω ℓ ε) : Waits P c c := ⟨rfl,.refl⟩

theorem Waits.tail {e : Config σ ω ℓ ε} (h : Waits P c d) (hst : S.Step P none d e) : Waits P c e := by
  cases hst with
  | env hr => exact ⟨h.1,h.2.tail hr⟩

theorem Behaviour.waits (b : S.Behaviour P) {n m : ℕ} (hnm : n ≤ m) (hnone : ∀ k, n ≤ k → k < m → b.label k = none) :
    Waits P (b.config n) (b.config m) := by
  induction m, hnm using Nat.le_induction with
  | base => exact .refl _
  | succ m hm ih =>
    have hst := b.next m
    rw [hnone m hm (Nat.lt_succ_self m)] at hst
    exact (ih (fun k hk hlt => hnone k hk (hlt.trans (Nat.lt_succ_self m)))).tail hst

/-- What is inevitable happens in every fair run. -/
theorem Inevitable.happens (h : S.Inevitable P Q c) (b : S.Behaviour P) (hb : b.Fair) {n : ℕ} (hn : b.config n = c) :
    ∃ m, n ≤ m ∧ Q (b.config m).2 := by
  induction h generalizing n with
  | @intro c hcan _ ih =>
    subst hn
    by_contra hnever
    push Not at hnever
    have hquiet : ∃ m, n ≤ m ∧ (b.label m).isSome := by
      by_contra hnone
      push Not at hnone
      have hwaits : ∀ m, n ≤ m → Waits P (b.config n) (b.config m) := by
        intro m hm
        refine b.waits hm ?_
        intro k hk _
        simpa using hnone k hk
      obtain ⟨m,hm,hsome⟩ := hb n (fun m hm => hcan _ (hwaits m hm) (hnever m hm))
      exact hnone m hm hsome
    -- the first action after `n`
    classical
    have hfind := Nat.find_spec hquiet
    have hwait : Waits P (b.config n) (b.config (Nat.find hquiet)) := by
      refine b.waits hfind.1 ?_
      intro k hk hlt
      have hnot := Nat.find_min hquiet hlt
      rw [not_and] at hnot
      simpa using hnot hk
    obtain ⟨r,hr⟩ := Option.isSome_iff_exists.mp hfind.2
    have hst := b.next (Nat.find hquiet)
    rw [hr] at hst
    obtain ⟨m,hm,hq⟩ := ih _ r _ hwait (hnever _ hfind.1) hst rfl
    exact hnever m (hfind.1.trans ((Nat.le_succ _).trans hm)) hq

/-- One step more at the beginning. -/
def Behaviour.cons (b : S.Behaviour P) {l : Option (ℓ × ω)} (h : S.Step P l c (b.config 0)) : S.Behaviour P where
  config
    | 0 => c
    | n+1 => b.config n
  label
    | 0 => l
    | n+1 => b.label n
  next
    | 0 => h
    | n+1 => b.next n

theorem Behaviour.Fair.cons {b : S.Behaviour P} (hb : b.Fair) {l : Option (ℓ × ω)} (h : S.Step P l c (b.config 0)) :
    (b.cons h).Fair := by
  intro n hcan
  obtain ⟨m,hm,hsome⟩ := hb n (fun m hm => hcan (m + 1) (Nat.le_succ_of_le hm))
  exact ⟨m + 1,Nat.le_succ_of_le hm,hsome⟩

theorem Behaviour.Fair.prepend {b : S.Behaviour P} (hb : b.Fair) (h : Transition.Reaches (S.Step P) c (b.config 0)) :
    ∃ (b' : S.Behaviour P) (n : ℕ), b'.Fair ∧ b'.config 0 = c ∧ ∀ m, b'.config (n + m) = b.config m := by
  obtain ⟨ls,h⟩ := h
  generalize hd : b.config 0 = d at h
  induction h generalizing b with
  | nil => exact ⟨b,0,hb,hd,fun m => by rw [Nat.zero_add]⟩
  | snoc _ hst ih =>
    subst hd
    obtain ⟨b',n,hb',h0,hshift⟩ := ih (hb.cons hst) rfl
    refine ⟨b',n + 1,hb',h0,?_⟩
    intro m
    rw [Nat.add_assoc,Nat.add_comm 1 m]
    exact hshift (m + 1)

/-- A service that is stuck leaves its environment to idle. -/
def Behaviour.rest (c : Config σ ω ℓ ε) (h : P.rely c.2 c.2) : S.Behaviour P where
  config _ := c
  label _ := none
  next _ := .env h

theorem not_canAct (h : ∀ w, S.advance w c.2 c.1 = none) : ¬S.CanAct P c := by
  rintro ⟨r,d,hst⟩
  cases hst with
  | @act c d s t l w ha _ =>
    rw [h w] at ha
    cases ha

theorem Behaviour.fair_rest (hidle : P.rely c.2 c.2) (h : ∀ w, S.advance w c.2 c.1 = none) :
    (Behaviour.rest c hidle : S.Behaviour P).Fair :=
  fun n hcan => absurd (hcan n le_rfl) (not_canAct h)

theorem exists_fair {e : Config σ ω ℓ ε} (hcd : Transition.Reaches (S.Step P) c d)
    (hde : Transition.Reaches (S.Step P) d e) (hstuck : ∀ w, S.advance w e.2 e.1 = none) (hidle : P.rely e.2 e.2) :
    ∃ (b : S.Behaviour P) (n : ℕ), b.Fair ∧ b.config 0 = c ∧ b.config n = d := by
  have hrest : (Behaviour.rest e hidle : S.Behaviour P).Fair := Behaviour.fair_rest hidle hstuck
  obtain ⟨b₁,_,hb₁,h₁,_⟩ := hrest.prepend hde
  subst h₁
  obtain ⟨b,n,hb,h0,hshift⟩ := hb₁.prepend hcd
  exact ⟨b,n,hb,h0,hshift 0⟩

/-- A goal of a service, where an assertion holds throughout: nobody takes the goal
back, it holds when the service may wait, and every action can be answered. -/
structure Goal (P : Protocol σ ω ℓ) (I Q : σ → Prop) : Prop where
  rely : ∀ s t, P.inv s → I s → P.rely s t → I t
  effect : ∀ l w s t, P.inv s → I s → P.answers l w → P.effect l w s t → I t
  stable : ∀ s t, P.inv s → I s → P.rely s t → Q s → Q t
  idle : ∀ s, P.inv s → I s → P.idle s → Q s
  answer : ∀ l, ∃ w, P.answers l w

variable {I : σ → Prop}

/-- What the environment leaves. -/
structure Kept (P : Protocol σ ω ℓ) (I Q : σ → Prop) (s t : σ) : Prop where
  interferes : ReflTransGen P.Interferes s t
  inv : P.inv t
  holds : I t
  goal : Q s → Q t

theorem Goal.kept (hQ : Goal P I Q) (hP : P.Sound) (hs : P.inv s) (hI : I s) (h : ReflTransGen P.rely s t) :
    Kept P I Q s t := by
  induction h with
  | refl => exact ⟨.refl,hs,hI,id⟩
  | tail _ hr ih =>
    exact ⟨ih.interferes.tail ⟨ih.inv,hr⟩,hP.rely _ _ ⟨ih.inv,hr⟩,hQ.rely _ _ ih.inv ih.holds hr,
      fun hq => hQ.stable _ _ ih.inv ih.holds hr (ih.goal hq)⟩

theorem Inevitable.now (hQ : Goal P I Q) (hP : P.Sound) (hs : P.inv c.2) (hI : I c.2) (hq : Q c.2) :
    S.Inevitable P Q c :=
  .intro (fun _ hd hn => absurd ((hQ.kept hP hs hI hd.2).goal hq) hn)
    (fun _ _ _ hd hn _ => absurd ((hQ.kept hP hs hI hd.2).goal hq) hn)

theorem canAct_looping (hQ : Goal P I Q) {l : ℓ} {g : σ → Bool} {n : ω → σ → σ} {k : ω → σ → Prog σ ω ℓ ε Bool}
    (hg : g s = true) : S.CanAct P (.looping (.act l g n k),s) := by
  obtain ⟨w,hw⟩ := hQ.answer l
  exact ⟨(l,w),(S.settle (k w s),n w s),.act (by simp [advance,hg]) hw⟩

theorem canAct_closing (hQ : Goal P I Q) {l : ℓ} {g : σ → Bool} {n : ω → σ → σ} {k : ω → σ → Prog σ ω ℓ ε Unit}
    (hg : g s = true) : S.CanAct P (.closing (.act l g n k),s) := by
  obtain ⟨w,hw⟩ := hQ.answer l
  exact ⟨(l,w),(finish (k w s),n w s),.act (by simp [advance,hg]) hw⟩

theorem inevitable_settle (hQ : Goal P I Q) (hP : P.Sound) {p : Prog σ ω ℓ ε Bool} (hs : P.inv s) (hI : I s)
    (h : p.Safe P (fun more t => P.inv t → I t → S.Inevitable P Q (S.settle (.ret more),t))
      (fun e t => P.inv t → I t → S.Inevitable P Q (.crashed e,t)) s) :
    S.Inevitable P Q (S.settle p,s) := by
  induction p generalizing s with
  | ret more => exact h hs hI
  | raise e => exact h hs hI
  | act l g n k ih =>
    have hrely : ∀ d, Waits P (S.settle (.act l g n k),s) d → d.1 = .looping (.act l g n k) ∧ Kept P I Q s d.2 :=
      fun d hd => ⟨hd.1,hQ.kept hP hs hI hd.2⟩
    refine .intro ?_ ?_
    · rintro ⟨c,t⟩ hd hn
      obtain ⟨rfl,hkept⟩ := hrely _ hd
      refine canAct_looping hQ ?_
      by_contra hg
      exact hn (hQ.idle t hkept.inv hkept.holds ((h t hkept.interferes hkept.inv).1 (by simpa using hg)))
    · rintro ⟨c,t⟩ r e hd _ hact
      obtain ⟨rfl,hkept⟩ := hrely _ hd
      cases hact with
      | act ha hw =>
        rcases advance_cases ha with ⟨g',n',k',heq,hg,rfl,rfl⟩ | ⟨_,_,_,heq,_⟩
        · cases heq
          obtain ⟨heff,hk⟩ := (h t hkept.interferes hkept.inv).2 hg _ hw
          exact ih _ t (hP.effect _ _ _ _ hkept.inv hw heff) (hQ.effect _ _ _ _ hkept.inv hkept.holds hw heff) hk
        · cases heq

theorem inevitable_finish (hQ : Goal P I Q) (hP : P.Sound) {p : Prog σ ω ℓ ε Unit} (hs : P.inv s) (hI : I s)
    (h : p.Safe P (fun _ t => I t → Q t) (fun e t => P.inv t → I t → S.Inevitable P Q (.crashed e,t)) s) :
    S.Inevitable P Q (finish p,s) := by
  induction p generalizing s with
  | ret a => exact .now hQ hP hs hI (h hI)
  | raise e => exact h hs hI
  | act l g n k ih =>
    have hrely : ∀ d, Waits P (finish (.act l g n k),s) d → d.1 = .closing (.act l g n k) ∧ Kept P I Q s d.2 :=
      fun d hd => ⟨hd.1,hQ.kept hP hs hI hd.2⟩
    refine .intro ?_ ?_
    · rintro ⟨c,t⟩ hd hn
      obtain ⟨rfl,hkept⟩ := hrely _ hd
      refine canAct_closing hQ ?_
      by_contra hg
      exact hn (hQ.idle t hkept.inv hkept.holds ((h t hkept.interferes hkept.inv).1 (by simpa using hg)))
    · rintro ⟨c,t⟩ r e hd _ hact
      obtain ⟨rfl,hkept⟩ := hrely _ hd
      cases hact with
      | act ha hw =>
        rcases advance_cases ha with ⟨_,_,_,heq,_⟩ | ⟨g',n',k',heq,hg,rfl,rfl⟩
        · cases heq
        · cases heq
          obtain ⟨heff,hk⟩ := (h t hkept.interferes hkept.inv).2 hg _ hw
          exact ih _ t (hP.effect _ _ _ _ hkept.inv hw heff) (hQ.effect _ _ _ _ hkept.inv hkept.holds hw heff) hk

variable {Top Exit Done : σ → Prop} {E : ε → σ → Prop}

theorem Verified.closes (h : S.Verified P Top Exit Done E) (hQ : Goal P I Q) (hE : ∀ e t, ¬E e t)
    (hdone : ∀ s, Done s → I s → Q s) (hs : P.inv s) (hI : I s) {p : Prog σ ω ℓ ε Unit}
    (hp : p.Safe P (fun _ t => Done t) E s) : S.Inevitable P Q (finish p,s) :=
  inevitable_finish hQ h.sound hs hI (hp.mono (fun _ t => hdone t) (fun e t he => absurd he (hE e t)))

theorem settle_of_acts {p : Prog σ ω ℓ ε Bool} (h : p.IsAct) : S.settle p = .looping p := by
  cases p with
  | act l g n k => rfl
  | ret b => exact h.elim
  | raise e => exact h.elim

theorem finish_of_acts {p : Prog σ ω ℓ ε Unit} (h : p.IsAct) : (finish p : Control σ ω ℓ ε) = .closing p := by
  cases p with
  | act l g n k => rfl
  | ret b => exact h.elim
  | raise e => exact h.elim

theorem Verified.finishes (h : S.Verified P Top Exit Done E) (hQ : Goal P I Q) (hE : ∀ e t, ¬E e t)
    (hdone : ∀ s, Done s → I s → Q s) (hs : P.inv s) (hI : I s) {p : Prog σ ω ℓ ε Bool}
    (hp : p.Safe P (fun more t => (if more then Top t else Exit t) ∧
      (more = true → P.inv t → I t → S.Inevitable P Q (S.start,t))) E s) : S.Inevitable P Q (S.settle p,s) := by
  refine inevitable_settle hQ h.sound hs hI (hp.mono ?_ (fun e t he => absurd he (hE e t)))
  rintro more t ⟨hpost,hnext⟩ ht hIt
  cases more with
  | true => exact hnext rfl ht hIt
  | false =>
    have hclose := h.closes hQ hE hdone ht hIt (h.epilogue t (by simpa using hpost))
    rwa [finish_of_acts S.epilogue_acts] at hclose

/-- A goal is inevitable when every round reaches it or brings the variant down. -/
theorem Verified.inevitable (h : S.Verified P Top Exit Done E) (hQ : Goal P I Q) (hE : ∀ e t, ¬E e t)
    (hdone : ∀ s, Done s → I s → Q s) (variant : σ → ℕ)
    (hround : ∀ s, P.inv s → I s → Top s → ¬Q s →
      S.body.Safe P (fun more t => more = true → Q t ∨ variant t < variant s) (fun _ _ => True) s)
    (hc : Good P Top Exit Done E c) (hI : I c.2) (hret : c.1 ≠ .returned) : S.Inevitable P Q c := by
  -- the rounds are counted by a bound of the variant
  have hbody : ∀ k s, variant s < k → P.inv s → I s → Top s → S.Inevitable P Q (S.start,s) := by
    intro k
    induction k with
    | zero => exact fun s hk => absurd hk (Nat.not_lt_zero _)
    | succ k ih =>
      intro s hk hs hI htop
      by_cases hq : Q s
      · exact .now hQ h.sound hs hI hq
      · have hboth := (h.body s htop).and (hround s hs hI htop hq)
        rw [start,← settle_of_acts S.body_acts]
        refine h.finishes hQ hE hdone hs hI (hboth.mono ?_ (fun _ _ he => he.1))
        rintro more t ⟨hpost,hvar⟩
        refine ⟨hpost,?_⟩
        intro hmore ht hIt
        subst hmore
        rcases hvar rfl with hq | hlt
        · exact .now hQ h.sound ht hIt hq
        · exact ih t (hlt.trans_le (Nat.le_of_lt_succ hk)) ht hIt hpost
  obtain ⟨c,s⟩ := c
  obtain ⟨hs,hstand⟩ := hc
  cases c with
  | looping p =>
    rw [← settle_of_acts hstand.1]
    refine h.finishes hQ hE hdone hs hI (hstand.2.mono ?_ (fun _ _ => id))
    intro more t hpost
    refine ⟨hpost,?_⟩
    intro hmore ht hIt
    subst hmore
    exact hbody _ t (Nat.lt_succ_self _) ht hIt hpost
  | closing p =>
    rw [← finish_of_acts hstand.1]
    exact h.closes hQ hE hdone hs hI hstand.2
  | returned => exact absurd rfl hret
  | crashed e =>
    obtain ⟨t,ht⟩ := hstand
    exact absurd ht (hE e t)

end Service
end Interleaving
