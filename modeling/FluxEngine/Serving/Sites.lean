import FluxEngine.Serving.Workers

/-! # Which worker makes which call

A worker acts by the labels of its own code, in orderly steps of the serving
machine; what these keep holds in every run.
-/
namespace FluxEngine
open Transition Interleaving
variable {P L : Type}
variable [Inhabited P] [Inhabited L] {eng : CachedEngine P L} {may : Site → Bool}
variable {mode : ServeEngine} {c d : WorkerControl P L × System P L} {l : Label} {w : Answer}

theorem ServeEngine.Runs.label_of (h : mode.Runs eng may c) (hst : mode.Next eng may (some (l,w)) c d) :
    l.Of mode := by
  have hbody : (mode.service eng).body.Emits (Label.Of mode) := by
    cases mode with
    | queued => exact (permits_of .queued).walk.queuedRound eng (fun _ => trivial) (fun _ _ hmode => hmode)
    | continuous => exact (permits_of .continuous).walk.continuousRound eng (fun _ => trivial) (fun _ _ hmode => hmode)
  have hepi : (mode.service eng).epilogue.Emits (Label.Of mode) := by
    cases mode with
    | queued => exact ⟨trivial,fun _ _ => trivial⟩
    | continuous => exact ⟨trivial,fun _ _ => trivial⟩
  obtain ⟨s,_,hr⟩ := h
  cases hst with
  | act ha _ => exact (Service.emits_advance hbody hepi (Service.emits_reaches hbody hepi hr) ha).1

theorem ServeEngine.Runs.effect (h : mode.Runs eng may c) (hst : mode.Next eng may (some (l,w)) c d) :
    Reaches (Orderly eng l) c.2 d.2 ∧ Handles l c.2 d.2 ∧ l.Proper c.2 := by
  cases hst with
  | act ha hw => exact (Service.good_act mode.verified h.good ha hw).1

omit [Inhabited P] [Inhabited L] in
theorem Event.inOrder_of_isRequest {ev : Event} (h : ev.isRequest = true) (l : Label) (s : System P L) :
    ev.InOrder l s := by
  cases ev with
  | submit i prompt sampling => trivial
  | requestAbort i => trivial
  | adminAbort i => trivial
  | requestStop => trivial
  | _ => cases h

theorem ServeEngine.Runs.invariant {I : System P L → Prop} (h : mode.Runs eng may c)
    (hboot : ∀ s : System P L, s.Boot → I s)
    (hstep : ∀ l ev s t, l.Of mode → Reachable eng s → Orderly eng l ev s t → I s → I t) : I c.2 := by
  obtain ⟨s,hs,hr⟩ := h
  have hinv : mode.Runs eng may c ∧ I c.2 := by
    refine hr.invariant (P := fun c => mode.Runs eng may c ∧ I c.2) ⟨⟨s,hs,.refl _⟩,hboot s hs⟩ ?_
    rintro l c d ⟨hc,hI⟩ hst
    refine ⟨hc.tail hst,?_⟩
    cases l with
    | none =>
      cases hst with
      | env hrely =>
        obtain ⟨ev,hev,hst⟩ := hrely
        exact hstep .tau ev _ _ trivial hc.reachable ⟨hst,ev.inOrder_of_isRequest hev _ _⟩ hI
    | some lw =>
      have hof := hc.label_of hst
      obtain ⟨hreaches,_,_⟩ := hc.effect hst
      have hboth : Reachable eng d.2 ∧ I d.2 := by
        refine hreaches.invariant (P := fun t => Reachable eng t ∧ I t) ⟨hc.reachable,hI⟩ ?_
        rintro ev t u ⟨ht,hI⟩ hst
        obtain ⟨s₀,h0,hr⟩ := ht
        exact ⟨⟨s₀,h0,hr.tail hst.1⟩,hstep lw.1 ev t u hof ⟨s₀,h0,hr⟩ hst hI⟩
      exact hboth.2
  exact hinv.2

end FluxEngine
