import FluxEngine.Engine.Worker

/-! # A walk through the code of both workers

A property of threads that sequencing and `try` preserve, and that the single
actions of a worker have, is one of all its functions.
-/
namespace FluxEngine
open Interleaving
variable {P L : Type}

/-- The two modes of `serve_engine` with a worker. -/
inductive ServeEngine
  | queued
  | continuous
  deriving DecidableEq, Repr

/-- The worker that has the call in its code. -/
def Site.mode : Site → ServeEngine
  | .queuedStopIds => .queued
  | .queuedPrefill => .queued
  | .queuedDecode => .queued
  | .queuedSample => .queued
  | .queuedPack => .queued
  | _ => .continuous

namespace Worker

theorem returns_liveRows (ids live : List SeqId) : (liveRows ids live : Thread P L (List SeqId)).Returns
    (fun rows => rows.length ≤ live.length + ids.length) := by
  induction ids generalizing live with
  | nil => exact le_rfl
  | cons i rest ih =>
    have hskip := (ih live).mono (fun rows (hrows : rows.length ≤ live.length + rest.length) =>
      hrows.trans (Nat.add_le_add_left (Nat.le_succ rest.length) live.length))
    unfold liveRows
    refine Prog.Returns.bind (Prog.returns_any _) ?_
    intro ready _
    split
    · refine Prog.Returns.bind (Prog.returns_any _) ?_
      intro aborting _
      split
      · exact hskip
      · refine (ih (live ++ [i])).mono ?_
        intro rows hrows
        simp only [List.length_append,List.length_cons,List.length_nil] at hrows ⊢
        omega
    · exact hskip

/-- What the actions of a worker have: the calls that are `ok`, the updates of the
sequences in `who`, the tokens for those in `takes`. -/
structure Walk (ok : Site → List SeqId → Prop) (who takes : SeqId → Prop)
    (T : ∀ {α : Type}, Thread P L α → Prop) : Prop where
  pure : ∀ {α : Type} (a : α), T (pure a)
  raise : ∀ {α : Type} (e : Exc), T (.raise e : Thread P L α)
  bind : ∀ {α β : Type} {p : Thread P L α} {f : α → Thread P L β} {R : α → Prop}, T p → p.Returns R →
    (∀ a, R a → T (f a)) → T (p >>= f)
  tryCatch : ∀ {α : Type} {p : Thread P L α} {handler : Exc → Thread P L α}, T p → (∀ e, T (handler e)) →
    T (p.tryCatch handler)
  look : ∀ {α : Type} (f : System P L → α), T (Prog.read .tau f)
  call : ∀ {α : Type} {site : Site} {ids : List SeqId} (value : Answer → System P L → Except Exc α)
    {save : α → System P L → System P L}, ok site ids →
    (∀ a s, ∃ outbox, save a s = { s with outbox := outbox }) → T (call site ids value save)
  /-- who is aborted has been looked at -/
  guard : ∀ {α : Type} {i : SeqId} {p q : Thread P L α}, who i → T p → T q →
    T (do
      let aborting ← wantsAbort i
      if aborting then do
        abortOne i
        p
      else q)
  setStatus : ∀ {i : SeqId} {status : SequenceStatus}, who i → status ≠ .aborted → T (setStatus i status)
  contain : ∀ {ids : List SeqId} (e : Exc), (∀ i ∈ ids, who i) → T (contain ids e)
  recordToken : ∀ {i : SeqId} (token : Token) (stop : List Token), who i → takes i → T (recordToken i token stop)
  bindPrefix : ∀ {i : SeqId}, who i → T (.write .tau (fun w s => s.bindPrefixAtPrefill i (w.now 0)))
  storePrefix : ∀ {i : SeqId}, who i → T (.write .tau (fun w s => s.storePrefix i w.now))
  finish : ∀ {i : SeqId} (result : GenerateResult), who i → T (.write .tau (fun _ s => s.finishSequence i result))
  batchSize : ∀ n : ℕ, T (.write .tau (fun _ s => { s with stats := { s.stats with lastBatchSize := n } }))

namespace Walk
variable {ok : Site → List SeqId → Prop} {who takes : SeqId → Prop} {T : ∀ {α : Type}, Thread P L α → Prop}
variable {α β : Type} {i : SeqId} {site : Site}

theorem seq (h : Walk ok who takes @T) {p : Thread P L α} {f : α → Thread P L β} (hp : T p) (hf : ∀ a, T (f a)) :
    T (p >>= f) :=
  h.bind hp (Prog.returns_any p) (fun a _ => hf a)

theorem unlessAborted (h : Walk ok who takes @T) (hi : who i) {p : Thread P L Unit} (hp : T p) :
    T (do
      let aborting ← wantsAbort i
      if aborting then abortOne i else p) :=
  h.guard hi (h.pure ()) hp

theorem abortWanting (h : Walk ok who takes @T) {ids : List SeqId} (hids : ∀ i ∈ ids, who i) :
    T (abortWanting ids : Thread P L Unit) := by
  induction ids with
  | nil => exact h.pure ()
  | cons i rest ih =>
    have hrest := ih (fun j hj => hids j (List.mem_cons_of_mem i hj))
    exact h.guard (hids i List.mem_cons_self) hrest hrest

theorem liveRows (h : Walk ok who takes @T) (ids live : List SeqId) :
    T (liveRows ids live : Thread P L (List SeqId)) := by
  induction ids generalizing live with
  | nil => exact h.pure live
  | cons i rest ih =>
    refine h.seq (h.look _) ?_
    intro ready
    split
    · refine h.seq (h.look _) ?_
      intro aborting
      split
      · exact ih live
      · exact ih (live ++ [i])
    · exact ih live

theorem keepLive (h : Walk ok who takes @T) (ended : Sequence P L → Bool) {ids : List SeqId} (hids : ∀ i ∈ ids, who i)
    (kept : List SeqId) : T (keepLive ended ids kept) := by
  induction ids generalizing kept with
  | nil => exact h.pure kept
  | cons i rest ih =>
    have hrest := ih (fun j hj => hids j (List.mem_cons_of_mem i hj))
    refine h.seq (h.look _) ?_
    intro gone
    split
    · exact hrest kept
    · exact h.guard (hids i List.mem_cons_self) (hrest kept) (hrest (kept ++ [i]))

variable (eng : CachedEngine P L)

theorem ask (h : Walk ok who takes @T) {ids : List SeqId} (hok : ok site ids)
    (value : Answer → System P L → Except Exc α) : T (Worker.call site ids value (fun _ s => s)) :=
  h.call value hok (fun _ s => ⟨s.outbox,rfl⟩)

theorem finishSequence (h : Walk ok who takes @T) (hi : who i) (hok : ok site [i]) (engineName : String) :
    T (finishSequence eng site engineName i) :=
  h.seq (h.ask hok _) (fun result => h.finish result hi)

theorem verdict (h : Walk ok who takes @T) (hi : who i) (hok : ok site [i]) (engineName : String)
    {rest : Thread P L Unit} (hrest : T rest) :
    T (do
      let done ← hasFinishReason i
      if done then Worker.finishSequence eng site engineName i else rest) := by
  refine h.seq (h.look _) ?_
  intro done
  split
  · exact h.finishSequence eng hi hok engineName
  · exact hrest

theorem token (h : Walk ok who takes @T) (hi : who i) (ht : takes i) (hok : ok site [i]) (stop : List Token)
    {rest : Thread P L Unit} (hrest : T rest) :
    T (do
      let token ← sample eng site i
      Worker.recordToken i token stop
      rest) :=
  h.seq (h.ask hok _) (fun token => h.seq (h.recordToken token stop hi ht) (fun _ => hrest))

theorem decodeRow (h : Walk ok who takes @T) (hi : who i) (ht : takes i)
    (hok : ∀ site ids, site.mode = .continuous → site ≠ .batchModel → ok site ids) : T (decodeRow eng i) := by
  refine h.unlessAborted hi (h.seq (h.ask (hok _ _ rfl (by decide)) _) ?_)
  exact fun stop => h.token eng hi ht (hok _ _ rfl (by decide)) stop
    (h.verdict eng hi (hok _ _ rfl (by decide)) "continuous" (h.pure ()))

theorem decodeRows (h : Walk ok who takes @T) {ids : List SeqId} (hids : ∀ i, who i) (ht : ∀ i, takes i)
    (hok : ∀ site ids, site.mode = .continuous → site ≠ .batchModel → ok site ids) : T (decodeRows eng ids) := by
  induction ids with
  | nil => exact h.pure ()
  | cons i rest ih => exact h.seq (h.decodeRow eng (hids i) (ht i) hok) (fun _ => ih)

theorem decodeOneStep [Inhabited P] [Inhabited L] (h : Walk ok who takes @T) {ids : List SeqId} (hids : ∀ i, who i)
    (ht : ∀ i, takes i) (hok : ∀ site ids, site.mode = .continuous → site ≠ .batchModel → ok site ids)
    (hrows : ∀ live, live.length ≤ ids.length → ok .batchModel live) : T (decodeOneStep eng ids) := by
  refine h.seq (h.abortWanting (fun i _ => hids i)) (fun _ => ?_)
  refine h.bind (h.liveRows ids []) (returns_liveRows ids []) ?_
  intro live hlive
  rw [List.length_nil,Nat.zero_add] at hlive
  split
  · exact h.pure ()
  · have hbatch : T (batchCall eng live) :=
      h.seq (h.call _ (hrows live hlive) (fun _ _ => ⟨_,rfl⟩)) (fun _ => h.pure ())
    refine h.seq (h.batchSize live.length) (fun _ => h.seq (h.tryCatch ?_ ?_) ?_)
    · exact h.seq hbatch (fun _ => h.pure true)
    · exact fun e => h.seq (h.contain e (fun i _ => hids i)) (fun _ => h.pure false)
    · intro ok
      split
      · exact h.decodeRows eng hids ht hok
      · exact h.pure ()

variable [Inhabited L]

theorem prefill (h : Walk ok who takes @T) (hi : who i) (hok : ok site [i]) : T (prefill eng site i) :=
  h.seq (h.bindPrefix hi)
    (fun _ => h.seq (h.call _ hok (fun _ _ => ⟨_,rfl⟩)) (fun _ => h.storePrefix hi))

theorem prefillOne (h : Walk ok who takes @T) (hi : who i) (ht : takes i)
    (hok : ∀ site ids, site.mode = .continuous → site ≠ .batchModel → ok site ids) : T (prefillOne eng i) := by
  have hbody : ∀ stop, T (prefillBody eng i stop) := by
    intro stop
    refine h.seq (h.prefill eng hi (hok _ _ rfl (by decide)))
      (fun _ => h.token eng hi ht (hok _ _ rfl (by decide)) stop (h.unlessAborted hi ?_))
    exact h.verdict eng hi (hok _ _ rfl (by decide)) "continuous" (h.setStatus hi (by decide))
  refine h.unlessAborted hi (h.seq (h.setStatus hi (by decide)) (fun _ => ?_))
  refine h.seq (h.ask (hok _ _ rfl (by decide)) _) (fun stop => h.tryCatch (hbody stop) ?_)
  exact fun e => h.contain e (by simpa using hi)

theorem decodeWhile (h : Walk ok who takes @T) (hi : who i) (ht : takes i)
    (hok : ∀ site ids, site.mode = .queued → ok site ids) (stop : List Token) (k : ℕ) :
    T (decodeWhile eng i stop k) := by
  induction k with
  | zero => exact h.raise _
  | succ k ih =>
    have hcall : T (decodeCall eng i) :=
      h.seq (h.call _ (hok _ _ rfl) (fun _ _ => ⟨_,rfl⟩)) (fun _ => h.pure ())
    exact h.verdict eng hi (hok _ _ rfl) "queued" (h.unlessAborted hi
      (h.seq hcall (fun _ => h.token eng hi ht (hok _ _ rfl) stop ih)))

theorem runOne (h : Walk ok who takes @T) (hi : who i) (ht : takes i)
    (hok : ∀ site ids, site.mode = .queued → ok site ids) : T (runOne eng i) := by
  refine h.seq (h.ask (hok _ _ rfl) _) (fun stop => h.seq (h.prefill eng hi (hok _ _ rfl)) (fun _ => ?_))
  refine h.token eng hi ht (hok _ _ rfl) stop (h.unlessAborted hi (h.verdict eng hi (hok _ _ rfl) "queued" ?_))
  exact h.seq (h.look _) (fun k => h.decodeWhile eng hi ht hok stop k)

end Walk

/-- The actions on the worker as a whole, besides those on any sequence. -/
structure WholeWalk (ok : Site → List SeqId → Prop) (takes : SeqId → Prop) (T : ∀ {α : Type}, Thread P L α → Prop) : Prop
    extends Walk ok (fun _ => True) takes @T where
  await : ∀ guard, T (Prog.await .tau guard)
  setRunning : ∀ f : System P L → List SeqId, T (.write .tau (fun _ s => s.setRunning (f s)))
  admitRequests : ∀ count, T (admitRequests count)
  turn : ∀ i, T (.write .tau (fun _ s =>
    let s := s.modify i (fun seq => { seq with status := .decoding })
    { s with stats := { s.stats with running := [i], lastBatchSize := 1 } }))

namespace WholeWalk
variable {ok : Site → List SeqId → Prop} {takes : SeqId → Prop} {T : ∀ {α : Type}, Thread P L α → Prop}

theorem dropAborted (h : WholeWalk ok takes @T) : T (dropAborted : Thread P L Unit) :=
  h.seq (h.look _) (fun _ => h.seq (h.keepLive _ (fun _ _ => trivial) []) (fun kept => h.setRunning (fun _ => kept)))

theorem sweep (h : WholeWalk ok takes @T) : T (sweep : Thread P L Unit) :=
  h.seq (h.look _) (fun _ => h.seq (h.keepLive _ (fun _ _ => trivial) []) (fun still => h.setRunning (fun _ => still)))

theorem waitIfIdle (h : WholeWalk ok takes @T) (idle : System P L → Bool) : T (waitIfIdle idle) := by
  refine h.seq (h.look idle) ?_
  intro isIdle
  split
  · exact h.await _
  · exact h.pure ()

theorem unlessStopped (h : WholeWalk ok takes @T) {p : Thread P L Bool} (hp : T p) :
    T (do
      let stopped ← isStopped
      if stopped then pure false else p) := by
  refine h.seq (h.look _) ?_
  intro stopped
  split
  · exact h.pure false
  · exact hp

variable (eng : CachedEngine P L) [Inhabited L]

theorem startAll (h : WholeWalk ok takes @T) (ht : ∀ i, takes i)
    (hok : ∀ site ids, site.mode = .continuous → site ≠ .batchModel → ok site ids) (ids : List SeqId) :
    T (startAll eng ids) := by
  induction ids with
  | nil => exact h.pure ()
  | cons i rest ih =>
    refine h.seq (h.unlessAborted trivial (h.seq (h.prefillOne eng trivial (ht i) hok) ?_)) (fun _ => ih)
    refine fun _ => h.seq (h.look _) ?_
    intro status
    split
    · exact h.pure ()
    · exact h.setRunning (fun s => s.stats.running ++ [i])

theorem serveOne (h : WholeWalk ok takes @T) (ht : ∀ i, takes i) (hok : ∀ site ids, site.mode = .queued → ok site ids)
    (i : SeqId) : T (serveOne eng i) := by
  refine h.unlessAborted trivial (h.seq (h.turn i) (fun _ => h.seq (h.tryCatch ?_ ?_) ?_))
  · exact h.runOne eng trivial (ht i) hok
  · exact fun e => h.contain e (fun _ _ => trivial)
  · exact fun _ => h.setRunning (fun _ => [])

theorem queuedRound (h : WholeWalk ok takes @T) (ht : ∀ i, takes i)
    (hok : ∀ site ids, site.mode = .queued → ok site ids) : T (queuedRound eng) := by
  refine h.unlessStopped (h.seq (h.waitIfIdle _) (fun _ => h.unlessStopped ?_))
  refine h.seq (h.admitRequests _) ?_
  intro admitted
  cases admitted with
  | nil => exact h.pure true
  | cons i rest => exact h.seq (h.serveOne eng ht hok i) (fun _ => h.pure true)

variable [Inhabited P]

theorem iterate (h : WholeWalk ok takes @T) (ht : ∀ i, takes i)
    (hok : ∀ site ids, site.mode = .continuous → ok site ids) : T (iterate eng) := by
  refine h.seq h.dropAborted (fun _ => h.seq (h.admitRequests _) (fun admitted => ?_))
  refine h.seq (h.startAll eng ht (fun site ids hmode _ => hok site ids hmode) admitted) (fun _ => h.seq (h.look _) ?_)
  intro ids
  split
  · exact h.pure ()
  · refine h.seq (h.decodeOneStep eng (fun _ => trivial) ht (fun site ids hmode _ => hok site ids hmode) ?_)
      (fun _ => h.sweep)
    exact fun live _ => hok .batchModel live rfl

theorem continuousRound (h : WholeWalk ok takes @T) (ht : ∀ i, takes i)
    (hok : ∀ site ids, site.mode = .continuous → ok site ids) : T (continuousRound eng) :=
  h.unlessStopped (h.seq (h.waitIfIdle _)
    (fun _ => h.unlessStopped (h.seq (h.iterate eng ht hok) (fun _ => h.pure true))))

end WholeWalk
end Worker
end FluxEngine
