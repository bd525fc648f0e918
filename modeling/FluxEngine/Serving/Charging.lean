import FluxEngine.Serving.Ownership

/-! # Which prefixes have their blocks

A prefix in use has all its blocks as long as no step acquires one whose blocks
are neither there nor to be had.  `_acquire_blocks` does not insist on this, so
a step of the other kind leaves a prefix in use without any block.
-/
namespace FluxEngine
open OrderedDict Transition
variable {P L : Type} [Inhabited P] [Inhabited L] {eng : CachedEngine P L} {s₀ s : System P L}

theorem books_of_payable (h0 : s₀.Initial)
    (hr : Reaches (guarded (fun ev s => ev.Payable s) (Step eng)) s₀ s) : s.Books True :=
  hr.invariant h0.books (fun _ _ _ hb hs => hb.step hs.2 (fun _ => hs.1))

theorem execAll_payable {evs : List Event} {s t : System P L} (h : execAll eng evs s = some t)
    (hpay : ∀ ev ∈ evs, ∀ s : System P L, ev.Payable s) :
    Run (guarded (fun ev s => ev.Payable s) (Step eng)) s evs t :=
  playAll_run (fun ev hev s _ hst => ⟨hpay ev hev s,ev.exec_sound hst⟩) h

/-- In a run all of whose steps can pay for the prefixes they acquire, every
referenced entry has its blocks, pinned, and every live sequence that is bound
to a prefix is bound to such an entry. -/
theorem prefixes_charged (h0 : s₀.Initial)
    (hr : Reaches (guarded (fun ev s => ev.Payable s) (Step eng)) s₀ s) {p : BlockPool}
    (hp : s.scheduler.pool = some p) {c : PrefixCache P L} (hc : s.scheduler.prefixCache = some c) :
    (∀ k e, c.entries.get? k = some e → 0 < e.refs →
      e.blockIds.length = p.blocksNeeded e.tokenIds.length ∧ e.blockIds.Nodup ∧
      ∀ b ∈ e.blockIds, 0 < pinCount c.blockPins b) ∧
    ∀ i k, s.Live i → (s.heap i).prefixKey = some k → ∃ e, c.entries.get? k = some e ∧ 0 < e.refs := by
  have hbooks := books_of_payable h0 hr
  have hb : c.Books True s.scheduler.pool s.held := by
    have := hbooks.books
    unfold Scheduler.Books at this
    rwa [hc] at this
  constructor
  · intro k e he hpos
    rw [(hb.keyed k e he).1]
    exact ⟨hb.charged trivial p hp k e he hpos,hb.distinct k e he,fun b hmem => hb.pinned he hpos hmem⟩
  · intro i k hi hk
    have hheld : 0 < s.held k := by
      unfold System.held
      rw [List.countP_pos_iff]
      exact ⟨i,hi.1,by simp [System.holds,hi.2.2,hk]⟩
    obtain ⟨e,he⟩ := hb.stored_of_held hheld
    exact ⟨e,he,by rw [hb.refs_eq he]; exact hheld⟩

/-- One request, up to the storing of its prefix. -/
theorem prefixes_charged_stored :
    ∃ (s : System ℕ Token) (c : PrefixCache ℕ Token) (p : BlockPool) (e : PrefixEntry ℕ Token),
      s.scheduler.prefixCache = some c ∧ s.scheduler.pool = some p ∧ c.entries.get? [5,6] = some e ∧
      e.refs = 1 ∧ e.blockIds.length = p.blocksNeeded e.tokenIds.length := by
  have hpay : Event.Payable (smallSystem.submit 0 [5,6] oneToken) (.admission 0) := by
    rintro i hi c hit e ⟨⟩ hpeek _
    cases hi
    cases hpeek
  have hobs : (execAll (FakeLm.engine {}) [.prefill 0,.store 0 id]
      ((smallSystem.submit 0 [5,6] oneToken).admitRound 0)).bind (fun s => s.scheduler.prefixCache.bind
        (fun c => (c.entries.get? [5,6]).bind (fun e => s.scheduler.pool.map (fun _ => e.refs)))) = some 1 := by
    decide
  obtain ⟨s,hs,hobs⟩ := Option.bind_eq_some_iff.mp hobs
  obtain ⟨c,hc,hobs⟩ := Option.bind_eq_some_iff.mp hobs
  obtain ⟨e,he,hobs⟩ := Option.bind_eq_some_iff.mp hobs
  obtain ⟨p,hp,hrefs⟩ := Option.map_eq_some_iff.mp hobs
  have h1 : Run (guarded (fun ev s => ev.Payable s) (Step (FakeLm.engine {}))) smallSystem
      [.submit 0 [5,6] oneToken] (smallSystem.submit 0 [5,6] oneToken) :=
    .single ⟨trivial,.submit [5,6] oneToken (by decide)⟩
  have hr := (h1.snoc ⟨hpay,.admission 0⟩).append (execAll_payable hs (by simp [Event.Payable]))
  exact ⟨s,c,p,e,hc,hp,he,hrefs,
    ((prefixes_charged smallSystem_initial ⟨_,hr⟩ hp hc).1 [5,6] e he (by omega)).1⟩

/-- Serve one request and store its prefix, fill the pool up to one block, and
admit a second request for the stored prompt. -/
def crowdedRun : List Event :=
  [.submit 0 [5,6] oneToken,.admission 0,.prefill 0,.store 0 id,.note 0 0,.finish 0 "continuous",
    .submit 1 [7] oneToken,.submit 2 [5,6] oneToken,.admission 1,.admission 2]

theorem crowdedRun_entry :
    (execAll (FakeLm.engine {}) crowdedRun smallSystem).bind
      (fun s => s.scheduler.prefixCache.bind (fun c => (c.entries.get? [5,6]).bind
        (fun e => s.scheduler.pool.map (fun p => (e.refs,e.blockIds,p.blocksNeeded e.tokenIds.length))))) =
      some (1,[],2) := by decide

/-- The second request runs on a prefix of two tokens that holds no block. -/
theorem not_prefixes_charged :
    ¬ ∀ s, Reachable (FakeLm.engine {}) s → ∀ p c, s.scheduler.pool = some p →
      s.scheduler.prefixCache = some c → ∀ k e, c.entries.get? k = some e → 0 < e.refs →
      e.blockIds.length = p.blocksNeeded e.tokenIds.length := by
  intro h
  obtain ⟨s,hs,hobs⟩ := Option.bind_eq_some_iff.mp crowdedRun_entry
  obtain ⟨c,hc,hobs⟩ := Option.bind_eq_some_iff.mp hobs
  obtain ⟨e,he,hobs⟩ := Option.bind_eq_some_iff.mp hobs
  obtain ⟨p,hp,hobs⟩ := Option.map_eq_some_iff.mp hobs
  simp only [Prod.mk.injEq] at hobs
  have hlen := h s ⟨_,smallSystem_initial,_,execAll_run hs⟩ p c hp hc _ e he (by omega)
  rw [hobs.2.1,hobs.2.2] at hlen
  cases hlen

end FluxEngine
