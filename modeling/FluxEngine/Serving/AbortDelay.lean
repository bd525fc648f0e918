import Mathlib.Algebra.Order.Monoid.Prod
import FluxEngine.Lib.Metering
import FluxEngine.Serving.Actions

/-! # How soon an abort takes effect

A meter for one sequence counts the model calls that include it and the tokens
it gets once its abort flag is up.  Between two looks of a worker at the flag
lies at most one of each, and a round that begins with the flag up costs nothing.
-/
namespace FluxEngine
open Transition Interleaving
variable {P L : Type} {s t : System P L} {i j : SeqId}

/-- The model calls that include `i` among the actions with a label. -/
def Label.callsFor (i : SeqId) : Label → ℕ
  | .call site ids => if site.isModel = true ∧ i ∈ ids then 1 else 0
  | _ => 0

/-- Calls and tokens of `i` while its abort flag is up. -/
def abortMeter (i : SeqId) : Meter (System P L) Label (ℕ × ℕ) where
  known s := i ∈ s.accepted ∧ (s.heap i).abortRequested = true
  bills l s t c := c.1 = l.callsFor i ∧
    ∃ more, (t.heap i).outputIds = (s.heap i).outputIds ++ more ∧ more.length = c.2

def share (i j : SeqId) (n : ℕ × ℕ) : ℕ × ℕ := if j = i then n else 0

@[simp] theorem share_zero : share i j 0 = 0 := ite_self 0

theorem share_self (n : ℕ × ℕ) : share i i n = n := if_pos rfl

theorem share_of_ne (h : j ≠ i) (n : ℕ × ℕ) : share i j n = 0 := if_neg h

theorem share_add (m n : ℕ × ℕ) : share i j m + share i j n = share i j (m + n) := by
  by_cases h : j = i
  · subst h
    simp only [share_self]
  · simp only [share_of_ne h,add_zero]

theorem share_le (n : ℕ × ℕ) : share i j n ≤ n := by
  by_cases h : j = i
  · subst h
    exact (share_self n).le
  · rw [share_of_ne h]
    exact zero_le

theorem share_mono {m n : ℕ × ℕ} (h : m ≤ n) : share i j m ≤ share i j n := by
  by_cases hij : j = i
  · subst hij
    simpa only [share_self] using h
  · simp only [share_of_ne hij,le_refl]

theorem Spares.bills (h : Spares i s t) (l : Label) : (abortMeter i).bills l s t (l.callsFor i,0) :=
  ⟨rfl,[],by rw [h.output,List.append_nil],rfl⟩

theorem Spares.known (h : Spares i s t) (hs : (abortMeter i).known s) : (abortMeter i).known t :=
  ⟨h.accepted ▸ hs.1,h.flag.trans hs.2⟩

namespace Worker
variable {α : Type} {site : Site} {ids : List SeqId} {n : ℕ × ℕ}

theorem bounded_call {value : Answer → System P L → Except Exc α} {save : α → System P L → System P L}
    (h : ∀ a s, Spares i s (save a s)) : (call site ids value save).Bounded (abortMeter i)
      ((Label.call site ids).callsFor i,0) ((Label.call site ids).callsFor i,0) := by
  refine Prog.bounded_act ?_ ?_
  · intro w s hs
    refine ⟨_,le_rfl,?_⟩
    cases w.outcome (value w s) with
    | error e =>
      have hraise : Rests i s { s with inFlight := some (ids,e) } := .of_heap rfl rfl rfl rfl
      exact ⟨hraise.bills _,hraise.known hs⟩
    | ok a => exact ⟨(h a s).bills _,(h a s).known hs⟩
  · intro w s
    cases w.outcome (value w s) with
    | error e => exact Prog.bounded_raise e
    | ok a => exact Prog.bounded_pure a

theorem free_write {l : Label} {u : Answer → System P L → System P L} (hl : l.callsFor i = 0)
    (h : ∀ w s, Spares i s (u w s)) : (Prog.write l u : Thread P L Unit).Bounded (abortMeter i) 0 0 := by
  refine Prog.bounded_write ?_
  intro w s hs
  have hbill := (h w s).bills l
  rw [hl] at hbill
  exact ⟨0,le_rfl,hbill,(h w s).known hs⟩

theorem callsFor_singleton (hsite : site.isModel = true) :
    ((Label.call site [j]).callsFor i,0) = share i j (1,0) := by
  by_cases h : j = i
  · subst h
    simp [Label.callsFor,hsite,share_self]
  · rw [share_of_ne h]
    simp [Label.callsFor,Ne.symm h]

theorem bounded_recordToken (j : SeqId) (token : Token) (stop : List Token) :
    (recordToken j token stop : Thread P L Unit).Bounded (abortMeter i) (share i j (0,1)) (share i j (0,1)) := by
  refine Prog.bounded_write ?_
  intro _ s hs
  by_cases h : j = i
  · subst h
    rw [share_self]
    refine ⟨_,le_rfl,⟨rfl,[token],?_,rfl⟩,hs.1,?_⟩
    · simp only [System.recordToken,System.modify,Function.update_self,Sequence.noteToken_eq]
    · simp only [System.recordToken,System.modify,Function.update_self,Sequence.noteToken_eq]
      exact hs.2
  · rw [share_of_ne h]
    have hheap : (s.recordToken j token stop).heap i = s.heap i := Function.update_of_ne (Ne.symm h) _ _
    have hother : Spares i s (s.recordToken j token stop) := ⟨rfl,by rw [hheap],by rw [hheap]⟩
    exact ⟨0,le_rfl,hother.bills .tau,hother.known hs⟩

theorem free_abortOne (j : SeqId) : (abortOne j : Thread P L Unit).Bounded (abortMeter i) 0 0 :=
  free_write rfl (fun _ s => (Rests.abortOne s j).toSpares)

/-- What costs nothing: no call of the model for `i`, and no token of it. -/
theorem free_walk : WholeWalk (P := P) (L := L) (fun site ids => site.isModel = true → i ∉ ids) (· ≠ i)
    (fun p => p.Bounded (abortMeter i) 0 0) where
  pure := Prog.bounded_pure
  raise := Prog.bounded_raise
  bind hp hr hf := hp.free_seq hr hf
  tryCatch hp hh := hp.catch hh
  look _ := Prog.bounded_read (fun s _ => (Rests.refl s).bills .tau)
  call {_ site ids} value save hok hsave := by
    have hfee : ((Label.call site ids).callsFor i,0) = (0 : ℕ × ℕ) := by
      rw [Label.callsFor,if_neg (fun h => hok h.1 h.2)]
      rfl
    rw [← hfee]
    refine bounded_call ?_
    intro a s
    obtain ⟨outbox,heq⟩ := hsave a s
    rw [heq]
    exact ⟨rfl,rfl,rfl⟩
  guard _ hp hq := by
    refine Prog.Bounded.seq (Prog.bounded_read (fun s _ => (Rests.refl s).bills .tau)) ?_
    intro aborting
    split
    · exact (free_abortOne _).seq (fun _ => hp)
    · exact hq
  setStatus _ _ := free_write rfl (fun _ s => (Rests.setStatus s _ _).toSpares)
  contain e _ := free_write rfl (fun _ s => (Rests.contain e _ s).toSpares)
  recordToken {j} token stop _ hne := by
    have h := bounded_recordToken (P := P) (L := L) (i := i) j token stop
    rwa [share_of_ne hne] at h
  bindPrefix _ := free_write rfl (fun w s => (Rests.bindPrefixAtPrefill s _ (w.now 0)).toSpares)
  storePrefix _ := free_write rfl (fun w s => (Rests.storePrefix s _ w.now).toSpares)
  finish result _ := free_write rfl (fun _ s => Spares.finishSequence s _ result)
  batchSize _ := free_write rfl (fun _ _ => ⟨rfl,rfl,rfl⟩)
  await _ := Prog.bounded_await (fun s _ => (Rests.refl s).bills .tau)
  setRunning _ := free_write rfl (fun _ _ => ⟨rfl,rfl,rfl⟩)
  admitRequests count := by
    refine Prog.bounded_act ?_ (fun _ _ => Prog.bounded_pure _)
    intro w s hs
    have hround := Rests.admitRequests (i := i) s (count s) w.now
    exact ⟨0,le_rfl,hround.bills .tau,hround.known hs⟩
  turn j := free_write rfl (fun _ s => (Rests.turn s j).toSpares)

theorem bounded_guard {p : Thread P L Unit} {m : ℕ × ℕ}
    (h : p.Bounded (abortMeter i) (share i j m) (share i j n)) :
    (do
      let aborting ← wantsAbort j
      if aborting then abortOne j else p : Thread P L Unit).Bounded (abortMeter i) 0 (share i j n) := by
  refine Prog.Bounded.read_bind (Q := fun aborting => j = i → aborting = true) ?_ ?_ ?_ ?_ zero_le
  · exact fun s _ => (Rests.refl s).bills .tau
  · rintro s hs rfl
    simp only [Sequence.wantsAbort,hs.2,Bool.true_or]
  · intro aborting haborting
    split
    · exact (free_abortOne j).start
    · rename_i hnot
      have hne : j ≠ i := fun hj => hnot (haborting hj)
      have hstart := h.start
      rwa [share_of_ne hne] at hstart
  · intro aborting
    split
    · exact (free_abortOne j).capped.mono zero_le
    · exact h.capped

theorem liveRows_passes_over (ids live : List SeqId) (hlive : i ∉ live) :
    (liveRows ids live : Thread P L (List SeqId)).Within (abortMeter i) (fun rows => i ∉ rows) 0 := by
  have hlook : ∀ s : System P L, (abortMeter i).known s → (abortMeter i).bills .tau s s 0 :=
    fun s _ => (Rests.refl s).bills .tau
  induction ids generalizing live with
  | nil => exact hlive
  | cons j rest ih =>
    unfold liveRows
    refine ((Prog.within_read (Q := fun _ => True) hlook (fun _ _ => trivial)).bind ?_).mono (add_zero 0).le
    intro ready _
    split
    · have hflag : ∀ s : System P L, (abortMeter i).known s → j = i → (s.heap j).wantsAbort = true := by
        rintro s hs rfl
        simp only [Sequence.wantsAbort,hs.2,Bool.true_or]
      have hread : (wantsAbort j : Thread P L Bool).Within (abortMeter i) (fun aborting => j = i → aborting = true) 0 :=
        Prog.within_read hlook hflag
      refine (hread.bind ?_).mono (add_zero 0).le
      intro aborting haborting
      split
      · exact ih live hlive
      · rename_i hnot
        refine ih (live ++ [j]) ?_
        simp only [List.mem_append,List.mem_singleton,not_or]
        exact ⟨hlive,fun hij => hnot (haborting hij.symm)⟩
    · exact ih live hlive

theorem callsFor_le (ids : List SeqId) : ((Label.call site ids).callsFor i,0) ≤ ((1,0) : ℕ × ℕ) := by
  refine ⟨?_,le_rfl⟩
  simp only [Label.callsFor]
  split
  · exact le_rfl
  · exact Nat.zero_le 1

theorem bounded_liveRows {f : List SeqId → Thread P L Unit} (ids : List SeqId)
    (hf : ∀ live, (f live).Bounded (abortMeter i) ((Label.call .batchModel live).callsFor i,0) (1,1)) :
    (liveRows ids [] >>= f).Bounded (abortMeter i) 0 (1,1) := by
  refine ⟨?_,(free_walk.liveRows ids []).capped.bind (fun live => (hf live).mono (callsFor_le live) le_rfl) (by decide)⟩
  refine ((liveRows_passes_over ids [] List.not_mem_nil).bind ?_).mono (add_zero 0).le
  intro live hlive
  have hstart := (hf live).start
  rwa [Label.callsFor,if_neg (fun h => hlive h.2)] at hstart

variable (eng : CachedEngine P L)

theorem free_ask (hsite : site.isModel = false) (value : Answer → System P L → Except Exc α) :
    (call site ids value (fun _ s => s)).Bounded (abortMeter i) 0 0 :=
  free_walk.ask (fun hmodel => absurd (hsite.symm.trans hmodel) Bool.false_ne_true) value

theorem bounded_verdict {rest : Thread P L Unit} (hsite : site.isModel = false) (engineName : String)
    (hrest : rest.Bounded (abortMeter i) 0 n) :
    (do
      let done ← hasFinishReason j
      if done then finishSequence eng site engineName j else rest).Bounded (abortMeter i) 0 n := by
  refine Prog.Bounded.seq ((free_walk.look _).mono le_rfl zero_le) ?_
  intro done
  split
  · refine (free_walk.finishSequence eng trivial ?_ engineName).mono le_rfl zero_le
    exact fun hmodel => absurd (hsite.symm.trans hmodel) Bool.false_ne_true
  · exact hrest

theorem bounded_token {rest : Thread P L Unit} (hsite : site.isModel = false) (j : SeqId) (stop : List Token)
    (hrest : rest.Bounded (abortMeter i) 0 (share i j n)) (hn : (0,1) ≤ n) :
    (do
      let token ← sample eng site j
      recordToken j token stop
      rest).Bounded (abortMeter i) (share i j (0,1)) (share i j n) := by
  refine (free_ask hsite _).free_bind ?_ (share_mono hn)
  intro token
  exact ((bounded_recordToken j token stop).mono le_rfl (share_mono hn)).seq (fun _ => hrest)

theorem bounded_round {p : Thread P L Unit} {rest : Thread P L Unit}
    (hp : p.Bounded (abortMeter i) (share i j (1,0)) (share i j (1,0)))
    (hrest : rest.Bounded (abortMeter i) (share i j (0,1)) (share i j (1,1))) :
    (p >>= fun _ => rest).Bounded (abortMeter i) (share i j (1,1)) (share i j (1,1)) := by
  have hsum : share i j (1,0) + share i j (0,1) = share i j (1,1) := share_add (1,0) (0,1)
  have h := hp.bind (fun _ => hrest) hsum.le
  rwa [hsum] at h

theorem bounded_decodeRows (ids : List SeqId) : (decodeRows eng ids).Bounded (abortMeter i) 0 (0,1) := by
  induction ids with
  | nil => exact Prog.bounded_pure ()
  | cons j rest ih =>
    refine Prog.Bounded.seq ?_ (fun _ => ih)
    refine (bounded_guard (m := (0,1)) ?_).mono le_rfl (share_le (j := j) (0,1))
    refine (free_ask rfl _).free_bind ?_ le_rfl
    intro stop
    exact bounded_token eng rfl j stop (bounded_verdict eng rfl "continuous" (Prog.bounded_pure ())) le_rfl

variable [Inhabited L]

theorem bounded_prefill (hsite : site.isModel = true) (j : SeqId) :
    (prefill eng site j).Bounded (abortMeter i) (share i j (1,0)) (share i j (1,0)) := by
  unfold prefill
  refine (free_walk.bindPrefix trivial).free_bind ?_ le_rfl
  intro _
  refine Prog.Bounded.seq ?_
    (fun _ => (free_walk.storePrefix trivial).mono le_rfl zero_le)
  rw [← callsFor_singleton hsite]
  exact bounded_call (fun _ _ => ⟨rfl,rfl,rfl⟩)

theorem bounded_prefillBody (j : SeqId) (stop : List Token) :
    (prefillBody eng j stop).Bounded (abortMeter i) (share i j (1,1)) (share i j (1,1)) := by
  refine bounded_round (bounded_prefill eng rfl j) ?_
  refine (bounded_token (n := (0,1)) eng rfl j stop ?_ le_rfl).mono le_rfl (share_mono (by decide))
  refine (free_walk.unlessAborted trivial ?_).mono le_rfl zero_le
  exact bounded_verdict eng rfl "continuous" (free_walk.setStatus trivial (by decide))

theorem bounded_prefillOne (j : SeqId) : (prefillOne eng j).Bounded (abortMeter i) 0 (share i j (1,1)) := by
  refine bounded_guard (m := (1,1)) ?_
  refine (free_walk.setStatus trivial (by decide)).free_bind ?_ le_rfl
  intro _
  refine (free_ask rfl _).free_bind ?_ le_rfl
  intro stop
  exact (bounded_prefillBody eng j stop).catch (fun e => (free_walk.contain e (fun _ _ => trivial)).mono le_rfl zero_le)

theorem bounded_startAll (ids : List SeqId) : (startAll eng ids).Bounded (abortMeter i) 0 (1,1) := by
  induction ids with
  | nil => exact Prog.bounded_pure ()
  | cons j rest ih =>
    refine Prog.Bounded.seq ?_ (fun _ => ih)
    refine (bounded_guard (m := 0) ?_).mono le_rfl (share_le (j := j) (1,1))
    rw [share_zero]
    refine (bounded_prefillOne eng j).seq ?_
    intro _
    refine ((free_walk.look _).seq ?_).mono le_rfl zero_le
    intro status
    split
    · exact Prog.bounded_pure ()
    · exact free_walk.setRunning _

theorem bounded_batchCall [Inhabited P] (live : List SeqId) : (batchCall eng live).Bounded (abortMeter i)
    ((Label.call .batchModel live).callsFor i,0) ((Label.call .batchModel live).callsFor i,0) := by
  refine Prog.Bounded.seq (bounded_call ?_) (fun _ => Prog.bounded_pure ())
  exact fun _ _ => ⟨rfl,rfl,rfl⟩

theorem bounded_decodeOneStep [Inhabited P] (ids : List SeqId) :
    (decodeOneStep eng ids).Bounded (abortMeter i) 0 (1,1) := by
  refine Prog.Bounded.seq ((free_walk.abortWanting (fun _ _ => trivial)).mono le_rfl zero_le) ?_
  intro _
  refine bounded_liveRows ids ?_
  intro live
  have hfee : ((Label.call .batchModel live).callsFor i,0) ≤ ((1,1) : ℕ × ℕ) :=
    (callsFor_le live).trans (by decide)
  split
  · exact Prog.bounded_pure ()
  · refine Prog.Bounded.free_bind (free_walk.batchSize live.length) ?_ hfee
    intro _
    refine Prog.Bounded.seq ?_ ?_
    · refine Prog.Bounded.catch ?_ ?_
      · exact ((bounded_batchCall eng live).mono le_rfl hfee).seq (fun _ => Prog.bounded_pure true)
      · intro e
        exact ((free_walk.contain e (fun _ _ => trivial)).seq (fun _ => Prog.bounded_pure false)).mono le_rfl zero_le
    · intro ok
      split
      · exact (bounded_decodeRows eng live).mono le_rfl (by decide)
      · exact Prog.bounded_pure ()

theorem bounded_continuousRound [Inhabited P] : (continuousRound eng).Bounded (abortMeter i) 0 (1,1) := by
  unfold continuousRound
  refine Prog.Bounded.seq ((free_walk.look _).mono le_rfl zero_le) ?_
  intro stopped
  split
  · exact Prog.bounded_pure false
  · refine Prog.Bounded.seq ((free_walk.waitIfIdle _).mono le_rfl zero_le) ?_
    intro _
    refine Prog.Bounded.seq ((free_walk.look _).mono le_rfl zero_le) ?_
    intro stopped
    split
    · exact Prog.bounded_pure false
    · refine Prog.Bounded.seq ?_ (fun _ => Prog.bounded_pure true)
      refine Prog.Bounded.seq (free_walk.dropAborted.mono le_rfl zero_le) ?_
      intro _
      refine Prog.Bounded.seq ((free_walk.admitRequests _).mono le_rfl zero_le) ?_
      intro admitted
      refine Prog.Bounded.seq (bounded_startAll eng admitted) ?_
      intro _
      refine Prog.Bounded.seq ((free_walk.look _).mono le_rfl zero_le) ?_
      intro ids
      split
      · exact Prog.bounded_pure ()
      · exact (bounded_decodeOneStep eng ids).seq (fun _ => free_walk.sweep.mono le_rfl zero_le)

theorem bounded_decodeWhile [Inhabited P] (j : SeqId) (stop : List Token) (k : ℕ) :
    (decodeWhile eng j stop k).Bounded (abortMeter i) 0 (share i j (1,1)) := by
  induction k with
  | zero => exact Prog.bounded_raise _
  | succ k ih =>
    unfold decodeWhile
    refine bounded_verdict eng rfl "queued" ?_
    refine bounded_guard (m := (1,1)) (bounded_round ?_ (bounded_token eng rfl j stop ih (by decide)))
    refine Prog.Bounded.seq ?_ (fun _ => Prog.bounded_pure ())
    have hfee : ((Label.call .queuedDecode [j]).callsFor i,0) = share i j (1,0) := callsFor_singleton rfl
    rw [← hfee]
    refine bounded_call ?_
    exact fun _ _ => ⟨rfl,rfl,rfl⟩

theorem bounded_runOne [Inhabited P] (j : SeqId) :
    (runOne eng j).Bounded (abortMeter i) (share i j (1,1)) (share i j (1,1)) := by
  unfold runOne
  refine (free_ask rfl _).free_bind ?_ le_rfl
  intro stop
  refine bounded_round (bounded_prefill eng rfl j) (bounded_token eng rfl j stop ?_ (by decide))
  refine bounded_guard (m := 0) ?_
  rw [share_zero]
  refine bounded_verdict eng rfl "queued" ?_
  exact ((free_walk.look _).mono le_rfl zero_le).seq (fun k => bounded_decodeWhile eng j stop k)

theorem bounded_queuedRound [Inhabited P] : (queuedRound eng).Bounded (abortMeter i) 0 (1,1) := by
  unfold queuedRound
  refine Prog.Bounded.seq ((free_walk.look _).mono le_rfl zero_le) ?_
  intro stopped
  split
  · exact Prog.bounded_pure false
  · refine Prog.Bounded.seq ((free_walk.waitIfIdle _).mono le_rfl zero_le) ?_
    intro _
    refine Prog.Bounded.seq ((free_walk.look _).mono le_rfl zero_le) ?_
    intro stopped
    split
    · exact Prog.bounded_pure false
    · refine Prog.Bounded.seq ((free_walk.admitRequests _).mono le_rfl zero_le) ?_
      intro admitted
      cases admitted with
      | nil => exact Prog.bounded_pure true
      | cons j rest =>
        refine Prog.Bounded.seq ?_ (fun _ => Prog.bounded_pure true)
        refine (bounded_guard (m := (1,1)) ?_).mono le_rfl (share_le (j := j) (1,1))
        refine Prog.Bounded.free_bind (free_walk.turn j) ?_ le_rfl
        intro _
        refine Prog.Bounded.seq ?_ (fun _ => (free_walk.setRunning (fun _ => [])).mono le_rfl zero_le)
        exact (bounded_runOne eng j).catch (fun e => (free_walk.contain e (fun _ _ => trivial)).mono le_rfl zero_le)

end Worker

section Runs
variable [Inhabited P] [Inhabited L] {eng : CachedEngine P L} {may : Site → Bool}

/-- The model calls of a run that include `i`. -/
def callsOf (i : SeqId) (ls : List (Option (Label × Answer))) : ℕ :=
  (ls.map (fun l => l.elim 0 (fun a => a.1.callsFor i))).sum

/-- A request takes no flag back and generates nothing. -/
theorem Step.request_known {ev : Event} (h : Step eng ev s t) (hev : ev.isRequest = true)
    (hs : (abortMeter i).known s) : (abortMeter i).known t ∧ (t.heap i).outputIds = (s.heap i).outputIds := by
  have hspared : ∀ {u : System P L}, Rests i s u →
      (abortMeter i).known u ∧ (u.heap i).outputIds = (s.heap i).outputIds :=
    fun hu => ⟨hu.known hs,hu.output⟩
  have hrequest : ∀ j, (abortMeter i).known (s.requestAbort j) ∧
      ((s.requestAbort j).heap i).outputIds = (s.heap i).outputIds := by
    intro j
    by_cases hij : i = j
    · subst hij
      simp only [abortMeter,System.requestAbort,System.modify,Function.update_self]
      exact ⟨⟨hs.1,rfl⟩,rfl⟩
    · exact hspared (.of_heap rfl rfl rfl (Function.update_of_ne hij _ _))
  cases h with
  | @submit _ j prompt sampling hj =>
    rcases s.submit_cases j prompt sampling with heq | ⟨queue,_,heq⟩
    · rw [heq]
      exact hspared (.refl s)
    · have hij : i ≠ j := fun hij => hj (hij ▸ hs.1)
      rw [heq]
      simp only [abortMeter,Function.update_of_ne hij]
      exact ⟨⟨List.mem_append_left _ hs.1,hs.2⟩,trivial⟩
  | requestAbort j => exact hrequest j
  | adminAbort j =>
    unfold System.adminAbort
    split
    · have hqueue : Rests i s (s.setQueue (s.scheduler.queue.remove j).2) := .of_heap rfl rfl rfl rfl
      exact hspared (hqueue.trans (Rests.abortOne _ j))
    · split
      · exact hrequest j
      · exact hspared (.refl s)
  | requestStop => exact hspared (.of_heap rfl rfl rfl rfl)
  | _ => cases hev

theorem ServeEngine.bounded_service (mode : ServeEngine) :
    (mode.service eng).body.Bounded (abortMeter i) 0 (1,1) ∧
      (mode.service eng).epilogue.Bounded (abortMeter i) 0 (1,1) := by
  have hepi : (Worker.abortLeftovers : Thread P L Unit).Bounded (abortMeter i) 0 (1,1) :=
    (Worker.free_write rfl (fun _ s => (Rests.abortLeftovers s).toSpares)).mono le_rfl zero_le
  cases mode with
  | queued => exact ⟨Worker.bounded_queuedRound eng,hepi⟩
  | continuous => exact ⟨Worker.bounded_continuousRound eng,hepi⟩

/-- Once the abort flag of a sequence is up, a worker makes at most one model call
that includes it and gives it at most one token, wherever it stands. -/
theorem abort_within_one_token {mode : ServeEngine} {c d : WorkerControl P L × System P L}
    {ls : List (Option (Label × Answer))} (h : mode.Runs eng may c) (hi : i ∈ c.2.accepted)
    (hflag : (c.2.heap i).abortRequested = true) (hr : Run (mode.Next eng may) c ls d) :
    (∃ more, (d.2.heap i).outputIds = (c.2.heap i).outputIds ++ more ∧ more.length ≤ 1) ∧ callsOf i ls ≤ 1 := by
  obtain ⟨s₀,_,hrun⟩ := h
  obtain ⟨hbody,hepi⟩ : (mode.service eng).body.Bounded (abortMeter i) 0 (1,1) ∧
      (mode.service eng).epilogue.Bounded (abortMeter i) 0 (1,1) := mode.bounded_service
  let spent := fun (ls : List (Option (Label × Answer))) (t : System P L) (m : ℕ × ℕ) => m.1 = callsOf i ls ∧
    ∃ more, (t.heap i).outputIds = (c.2.heap i).outputIds ++ more ∧ more.length = m.2
  have hact : ∀ ls l w s t b m, spent ls s m → (abortMeter i).bills l s t b →
      spent (ls ++ [some (l,w)]) t (m + b) := by
    rintro ls l w s t b m ⟨hm,more,hmore,hlen⟩ ⟨hb,new,hnew,hlen'⟩
    refine ⟨?_,more ++ new,?_,?_⟩
    · simp only [Prod.fst_add,hm,hb,callsOf,List.map_append,List.sum_append,List.map_cons,List.map_nil,
        List.sum_cons,List.sum_nil,Option.elim_some,add_zero]
    · rw [hnew,hmore,List.append_assoc]
    · simp only [List.length_append,Prod.snd_add,hlen,hlen']
  have henv : ∀ ls s t m, spent ls s m → (abortMeter i).known s → (serving eng may).rely s t →
      spent (ls ++ [none]) t m ∧ (abortMeter i).known t := by
    rintro ls s t m ⟨hm,hout⟩ hs ⟨ev,hev,hst⟩
    obtain ⟨hknown,hsame⟩ := hst.request_known hev hs
    refine ⟨⟨?_,hsame ▸ hout⟩,hknown⟩
    simp only [hm,callsOf,List.map_append,List.sum_append,List.map_cons,List.map_nil,List.sum_cons,List.sum_nil,
      Option.elim_none,add_zero]
  obtain ⟨m,hm,hcalls,more,hmore,hlen⟩ := Service.within_run spent hbody.start hepi.start
    ⟨rfl,[],(List.append_nil _).symm,rfl⟩ ⟨hi,hflag⟩ (Service.capped_reaches hbody.capped hepi.capped hrun).within
    hact henv hr
  exact ⟨⟨more,hmore,hlen.trans_le hm.2⟩,hcalls ▸ hm.1⟩

end Runs

/-- The flag goes up between the last look at it and the prefill. -/
theorem abort_within_one_token_prefill : ∃ (c d : WorkerControl ℕ Token × System ℕ Token)
    (ls : List (Option (Label × Answer))), ServeEngine.continuous.Runs (FakeLm.engine {}) Site.isModel c ∧ (c.2.heap 0).outputIds = [] ∧
      Run (ServeEngine.continuous.Next (FakeLm.engine {}) Site.isModel) c ls d ∧ (d.2.heap 0).outputIds = [7] ∧
      callsOf 0 ls ≤ 1 := by
  have hobs : (ServeEngine.continuous.play (FakeLm.engine {}) Site.isModel
      ([.request (.submit 0 [5,6] twoTokens)] ++ List.replicate 8 (.act {}) ++ [.request (.requestAbort 0)])
      ((ServeEngine.continuous.service (FakeLm.engine {})).start,roomySystem)).bind
      (fun c => (ServeEngine.continuous.play (FakeLm.engine {}) Site.isModel (List.replicate 8 (.act {})) c).map
        (fun d => (c.2.accepted,(c.2.heap 0).abortRequested,(c.2.heap 0).outputIds,(d.2.heap 0).outputIds))) =
      some ([0],true,[],[7]) := by decide
  obtain ⟨c,hc,hobs⟩ := Option.bind_eq_some_iff.mp hobs
  obtain ⟨d,hd,hobs⟩ := Option.map_eq_some_iff.mp hobs
  simp only [Prod.mk.injEq] at hobs
  obtain ⟨hacc,hflag,hbefore,hafter⟩ := hobs
  have hruns := ServeEngine.continuous.runs_of_play roomySystem_boot hc
  obtain ⟨ls,hls⟩ := ServeEngine.continuous.play_sound hd
  exact ⟨c,d,ls,hruns,hbefore,hls,hafter,(abort_within_one_token hruns (i := 0) (by simp [hacc]) hflag hls).2⟩

end FluxEngine
