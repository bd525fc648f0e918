import FluxEngine.Serving.Workers

/-! # Containment of errors

Where only covered calls raise, an exception ends the sequences of its call and
touches nothing else, and the rounds of the worker go on.  The calls of
`_decode_one_step` for a single row are not covered, nor is `combined_stop_ids`
in `_prefill_one`: an exception there ends the worker.
-/
namespace FluxEngine
open Transition Interleaving
variable {P L : Type} {eng : CachedEngine P L} {may : Site → Bool} {s t : System P L} {i : SeqId}

/-- The pool holds no block for the sequence, and the prefix references are
those of the open ones. -/
structure System.LetGo (s : System P L) (i : SeqId) : Prop where
  blocks : ∀ p, s.scheduler.pool = some p → p.alloc.get? i = none
  refs : ∀ c, s.scheduler.prefixCache = some c → ∀ k, c.refsAt k = s.held k
  reference : ∀ k, s.holds k i = false

variable [Inhabited P] [Inhabited L]

theorem Reachable.letGo (h : Reachable eng s) (hend : (s.heap i).status.terminal = true) : s.LetGo i := by
  have hb := h.books
  refine ⟨?_,?_,?_⟩
  · intro p hp
    cases hg : p.alloc.get? i with
    | none => rfl
    | some ids =>
      have hlive := ((hb.owners p hp i).mp ⟨ids,hg⟩).2.2
      rw [hend] at hlive
      cases hlive
  · intro c hc k
    have hbooks := hb.books
    unfold Scheduler.Books at hbooks
    rw [hc] at hbooks
    exact hbooks.refs k
  · intro k
    simp [System.holds,hend]

/-- What the handler of an exception does: the sequences of the call end in
ERROR and give back what they held, the others keep their state. -/
structure System.Contains (s : System P L) (ids : List SeqId) (e : Exc) (t : System P L) : Prop where
  inFlight : t.inFlight = none
  failed : ∀ i ∈ ids, Worker.Failed e (t.heap i) ∧ (t.heap i).Signalled ∧ t.LetGo i
  others : ∀ i, i ∉ ids → t.own i = s.own i
  waiting : t.waiting = s.waiting
  running : t.stats.running = s.stats.running
  stop : t.stop = s.stop

omit [Inhabited P] [Inhabited L] in
theorem stop_failAll (e : Exc) (ids : List SeqId) : (ids.foldl (fun s i => s.failOne e i) s).stop = s.stop := by
  induction ids generalizing s with
  | nil => rfl
  | cons i ids ih => exact ih

theorem Handles.contains {l : Label} {ids : List SeqId} {e : Exc} (h : Handles l s t) (ht : Reachable eng t)
    (hs : s.inFlight = some (ids,e)) (hacc : ∀ i ∈ ids, i ∈ t.accepted) : s.Contains ids e t := by
  obtain ⟨_,hnd,hlive,heq⟩ := h.contained ids e hs
  obtain ⟨_,_,hwait,hstats,_,hfail,hoff⟩ := Worker.failAll eng l hnd hlive e
  subst heq
  refine ⟨rfl,?_,hoff,hwait,congrArg WorkerStats.running hstats,stop_failAll e ids⟩
  intro i hi
  have hend : Worker.Failed e ((ids.foldl (fun s i => s.failOne e i) s).heap i) := hfail i hi
  exact ⟨hend,ht.signalled (hacc i hi),ht.letGo hend.ended⟩

namespace ServeEngine

/-- How many sequences an iteration counts when it admits. -/
def count : ServeEngine → System P L → ℕ
  | .queued => Worker.heldBack
  | .continuous => Worker.runningCount

/-- A round from `s` to `t` serves who is being served and who is admitted. -/
structure Serves (mode : ServeEngine) (eng : CachedEngine P L) (s t : System P L) : Prop where
  live : ∀ i, s.Live i → Ended (t.own i) ∨ (s.heap i).outputIds.length < (t.heap i).outputIds.length
  admitted : ∃ admitted, Admits eng mode.count s t admitted ∧
    ∀ i ∈ admitted, Ended (t.own i) ∨ 0 < (t.heap i).outputIds.length

theorem serves_of_passes {mode : ServeEngine} (h : mode.Rest s)
    (hp : Prog.Passes (serving eng may) (mode.service eng).body s (.ret true) t) : mode.Serves eng s t := by
  cases mode with
  | queued =>
    obtain ⟨_,admitted,hadmits,hend⟩ : Vacant t ∧ ∃ admitted, Admits eng Worker.heldBack s t admitted ∧
        ∀ i ∈ admitted, Ended (t.own i) := (Worker.safe_queuedRound h (E := fun _ _ => True)).passes hp
    refine ⟨?_,admitted,hadmits,fun i hi => Or.inl (hend i hi)⟩
    intro i hi
    exact absurd (h.complete i hi) (by simp)
  | continuous =>
    obtain ⟨run,h⟩ := h
    obtain ⟨n,hn⟩ : ∃ n : SeqId → ℕ, n = fun i => if i ∈ run then (s.heap i).outputIds.length else 0 := ⟨_,rfl⟩
    have htop : Worker.AtTop n run s := by
      apply h.mono
      intro i hi hown
      refine ⟨hown.status,hown.lastToken,hown.kvCache,hown.reason,?_⟩
      simp only [hn,if_pos hi]
      exact le_rfl
    have hout : ∀ i, i ∉ run → n i = 0 := by
      intro i hi
      simp only [hn,if_neg hi]
    obtain ⟨ids,run',admitted,hrun,hadm,hadmits,_,_,hcrew⟩ : Worker.RoundEnd eng s n run t :=
      (Worker.safe_continuousRound hout htop).passes hp
    have hstep : ∀ i ∈ ids, Ended (t.own i) ∨ n i < (t.heap i).outputIds.length := by
      intro i hi
      by_cases hir : i ∈ run'
      · exact Or.inr ((hcrew.own i hi).1 hir).length
      · exact Or.inl ((hcrew.own i hi).2.2 hir (by simp))
    refine ⟨?_,admitted,hadmits,?_⟩
    · intro i hi
      have hir : i ∈ run := h.complete i hi
      have hnext := hstep i (hrun hir)
      simp only [hn,if_pos hir] at hnext
      exact hnext
    · intro i hi
      exact (hstep i (hadm hi)).imp_right (fun hlt => by omega)

variable {mode : ServeEngine} {c d : WorkerControl P L × System P L}

theorem Runs.isLooping (h : mode.Runs eng may c) (hcov : ∀ site, may site = true → site.covered = true)
    {l : Option (Label × Answer)} (hst : mode.Next eng may l c d) (hc : c.1.isLooping = true) :
    d.1.isLooping = true ∨ d.2.stop = true := by
  have hd := h.tail hst
  cases hst with
  | env hr => exact Or.inl hc
  | @act c d s t l w ha hw =>
    obtain ⟨_,_,hret,hclose⟩ := Service.good_act mode.verified h.good ha hw
    cases c with
    | looping p =>
      cases d with
      | looping q => exact Or.inl rfl
      | closing q => exact Or.inr (hclose p q rfl rfl).1
      | returned => exact Or.inr (hret rfl).2
      | crashed e => exact absurd rfl (hd.not_crashed hcov e)
    | closing p => cases hc
    | returned => cases hc
    | crashed e => cases hc

theorem Runs.serves (h : mode.Runs eng may c) {q : Thread P L Bool} (hc : c.1 = .looping q) :
    ∃ s, mode.Runs eng may ((mode.service eng).start,s) ∧
      Prog.Passes (serving eng may) (mode.service eng).body s q c.2 ∧
      ∀ t, Prog.Passes (serving eng may) (mode.service eng).body s (.ret true) t → mode.Serves eng s t := by
  obtain ⟨s₀,hboot,hr⟩ := h
  obtain ⟨c,u⟩ := c
  subst hc
  obtain ⟨s,_,hrest,hrun,hpass⟩ := Service.inRound_reaches mode.verified ⟨s₀,hboot.initial,.refl s₀⟩
    (mode.rest_of_boot hboot) hr
  exact ⟨s,⟨s₀,hboot,hrun⟩,hpass,fun t ht => serves_of_passes hrest ht⟩

end ServeEngine

/-- In a run where only covered calls raise: the worker stays in its loop until
it is told to stop; an exception changes nothing but itself, and the next action
contains it; every round serves all there is; and the worker waits only when
everybody has ended. -/
theorem contains_errors {mode : ServeEngine} {c : WorkerControl P L × System P L}
    (h : mode.Runs eng Site.covered c) :
    (∀ e, c.1 ≠ .crashed e) ∧
    (∀ l d, mode.Next eng Site.covered l c d → c.1.isLooping = true → d.1.isLooping = true ∨ d.2.stop = true) ∧
    (∀ l w d ids e, mode.Next eng Site.covered (some (l,w)) c d → c.2.inFlight = none →
      d.2.inFlight = some (ids,e) → (∃ site, l = .call site ids) ∧ (∀ i ∈ ids, c.2.Live i) ∧
        d.2 = { c.2 with inFlight := some (ids,e) }) ∧
    (∀ l w d ids e, mode.Next eng Site.covered (some (l,w)) c d → c.2.inFlight = some (ids,e) →
      c.2.Contains ids e d.2) ∧
    (∀ q, c.1 = .looping q → ∃ s, mode.Runs eng Site.covered ((mode.service eng).start,s) ∧
      Prog.Passes (serving eng Site.covered) (mode.service eng).body s q c.2 ∧
      ∀ t, Prog.Passes (serving eng Site.covered) (mode.service eng).body s (.ret true) t → mode.Serves eng s t) ∧
    (c.1.isLooping = true → ∀ w, ((mode.service eng).advance w c.2 c.1).isSome ∨
      ∀ i ∈ c.2.accepted, (c.2.heap i).status.terminal = true) := by
  have heff : ∀ {l w d}, mode.Next eng Site.covered (some (l,w)) c d → Handles l c.2 d.2 := by
    intro l w d hst
    cases hst with
    | act ha hw => exact (Service.good_act mode.verified h.good ha hw).1.2.1
  refine ⟨h.not_crashed (fun _ => id),fun l d hst => h.isLooping (fun _ => id) hst,?_,?_,fun q => h.serves,?_⟩
  · intro l w d ids e hst hnone hsome
    obtain ⟨hsite,_,hlive,heq⟩ := (heff hst).raised hnone ids e hsome
    exact ⟨hsite,hlive,heq⟩
  · intro l w d ids e hst hsome
    refine (heff hst).contains (h.tail hst).reachable hsome ?_
    intro i hi
    have hlive := ((heff hst).contained ids e hsome).2.2.1 i hi
    exact h.reachable.accepted_run (h.reaches_step hst) hlive.1
  · intro hc w
    have hen := Service.good_enabled (S := mode.service eng) h.good w
    obtain ⟨c,s⟩ := c
    cases c with
    | looping p => exact hen
    | closing p => cases hc
    | returned => cases hc
    | crashed e => cases hc

/-- The given answers to the worker with two requests, after `k` others. -/
def twoRequests (k : ℕ) (w : Answer) : List ServeEngine.Move :=
  [.request (.submit 0 [5,6] twoTokens),.request (.submit 1 [7] twoTokens)] ++ List.replicate k (.act {}) ++ [.act w]

/-- The first prefill raises. -/
theorem contains_errors_prefill : ∃ c : WorkerControl ℕ Token × System ℕ Token,
    ServeEngine.continuous.Runs (FakeLm.engine {}) Site.covered c ∧ c.2.inFlight = some ([0],"boom") ∧
      ∀ l w d, ServeEngine.continuous.Next (FakeLm.engine {}) Site.covered (some (l,w)) c d →
        c.2.Contains [0] "boom" d.2 := by
  have hobs : (ServeEngine.continuous.play (FakeLm.engine {}) Site.covered (twoRequests 11 ⟨some "boom",0,id⟩)
      ((ServeEngine.continuous.service (FakeLm.engine {})).start,roomySystem)).map (fun c => c.2.inFlight) =
      some (some ([0],"boom")) := by decide
  obtain ⟨c,hc,hobs⟩ := Option.map_eq_some_iff.mp hobs
  have hrun := ServeEngine.continuous.runs_of_play roomySystem_boot hc
  exact ⟨c,hrun,hobs,fun l w d hst => (contains_errors hrun).2.2.2.1 l w d [0] "boom" hst hobs⟩

/-- The first row of the first common decode step cannot be sampled, and the
worker is gone with both sequences open. -/
theorem not_contains_errors : ∃ c : WorkerControl ℕ Token × System ℕ Token,
    ServeEngine.continuous.Runs (FakeLm.engine {}) (fun _ => true) c ∧ c.1.crash = some "boom" ∧
      c.2.stop = false ∧ (c.2.heap 0).status = .decoding ∧ (c.2.heap 1).status = .decoding := by
  have hobs : (ServeEngine.continuous.play (FakeLm.engine {}) (fun _ => true) (twoRequests 45 ⟨some "boom",0,id⟩)
      ((ServeEngine.continuous.service (FakeLm.engine {})).start,roomySystem)).map
      (fun c => (c.1.crash,c.2.stop,(c.2.heap 0).status,(c.2.heap 1).status)) =
      some (some "boom",false,.decoding,.decoding) := by decide
  obtain ⟨c,hc,hobs⟩ := Option.map_eq_some_iff.mp hobs
  simp only [Prod.mk.injEq] at hobs
  exact ⟨c,ServeEngine.continuous.runs_of_play roomySystem_boot hc,hobs⟩

end FluxEngine
