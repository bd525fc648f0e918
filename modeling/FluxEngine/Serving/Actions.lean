import FluxEngine.Lib.Upkeep
import FluxEngine.Serving.Walk
import FluxEngine.Serving.Workers

/-! # What the actions of a worker do

An inventory of the updates of the shared state in the code of both workers, and
what they leave alone: only a sampled token changes an output, and only the end of
`_finish_sequence` a result.
-/
namespace FluxEngine
open Transition Interleaving
variable {P L : Type} {s t : System P L} {i j : SeqId}

/-- The update that an action of a worker makes. -/
inductive Act : System P L → System P L → Prop
  | look (s : System P L) : Act s s
  | raise (s : System P L) (ids : List SeqId) (e : Exc) : Act s { s with inFlight := some (ids,e) }
  | contain (s : System P L) (ids : List SeqId) (e : Exc) :
      Act s { ids.foldl (fun s i => s.failOne e i) s with inFlight := none }
  | model (s : System P L) (outbox : SeqId → Option (L × KvCache P)) : Act s { s with outbox := outbox }
  | status (s : System P L) (i : SeqId) (status : SequenceStatus) :
      Act s (s.modify i (fun seq => { seq with status := status }))
  | running (s : System P L) (running : List SeqId) (size : ℕ) :
      Act s { s with stats := { s.stats with running := running, lastBatchSize := size } }
  | admission (s : System P L) (count : ℕ) (now : ℕ → ℕ) : Act s { s with
      scheduler := (s.scheduler.admitRequests s.heap count now).2.1
      heap := (s.scheduler.admitRequests s.heap count now).2.2 }
  | bind (s : System P L) (i : SeqId) (now : ℕ) : Act s (s.bindPrefixAtPrefill i now)
  | store (s : System P L) (i : SeqId) (now : ℕ → ℕ) : Act s (s.storePrefix i now)
  | record (s : System P L) (i : SeqId) (token : Token) (stop : List Token) : Act s (s.recordToken i token stop)
  | finish (s : System P L) (i : SeqId) (result : GenerateResult) : Act s (s.finishSequence i result)
  | abort (s : System P L) (i : SeqId) : Act s (s.abortOne i)
  | leftovers (s : System P L) : Act s s.abortLeftovers
  /-- `QueuedWorker` sets the status and its running list in one go. -/
  | turn (s : System P L) (i : SeqId) :
      Act s { s.modify i (fun seq => { seq with status := .decoding }) with
        stats := { s.stats with running := [i], lastBatchSize := 1 } }

namespace Worker
variable {α : Type} {site : Site} {ids : List SeqId}

theorem keeps_call {M : System P L → System P L → Prop} {value : Answer → System P L → Except Exc α}
    {save : α → System P L → System P L} (hraise : ∀ s e, M s { s with inFlight := some (ids,e) })
    (hsave : ∀ a s, M s (save a s)) : (call site ids value save).Keeps M := by
  refine ⟨?_,?_⟩
  · intro w s
    beta_reduce
    cases w.outcome (value w s) with
    | error e => exact hraise s e
    | ok a => exact hsave a s
  · intro w s
    beta_reduce
    cases w.outcome (value w s) with
    | error e => exact Prog.keeps_raise e
    | ok a => exact Prog.keeps_pure a

/-- Every action of a worker is in the inventory. -/
theorem acts_walk : WholeWalk (P := P) (L := L) (fun _ _ => True) (fun _ => True) (fun p => p.Keeps Act) where
  pure := Prog.keeps_pure
  raise := Prog.keeps_raise
  bind hp hr hf := hp.bind_of_returns hr hf
  tryCatch hp hh := hp.tryCatch hh
  look _ := Prog.keeps_read .look
  call _ _ _ hsave := by
    refine keeps_call (fun s e => .raise s _ e) ?_
    intro a s
    obtain ⟨outbox,heq⟩ := hsave a s
    rw [heq]
    exact .model s outbox
  guard _ hp hq := by
    refine Prog.Keeps.bind (Prog.keeps_read .look) ?_
    intro aborting
    split
    · exact Prog.Keeps.bind (Prog.keeps_write (fun _ s => .abort s _)) (fun _ => hp)
    · exact hq
  setStatus _ _ := Prog.keeps_write (fun _ s => .status s _ _)
  contain e _ := Prog.keeps_write (fun _ s => .contain s _ e)
  recordToken token stop _ _ := Prog.keeps_write (fun _ s => .record s _ token stop)
  bindPrefix _ := Prog.keeps_write (fun w s => .bind s _ (w.now 0))
  storePrefix _ := Prog.keeps_write (fun w s => .store s _ w.now)
  finish result _ := Prog.keeps_write (fun _ s => .finish s _ result)
  batchSize n := Prog.keeps_write (fun _ s => .running s s.stats.running n)
  await _ := ⟨fun _ => .look,fun _ _ => trivial⟩
  setRunning f := Prog.keeps_write (fun _ s => .running s (f s) s.stats.lastBatchSize)
  admitRequests count := ⟨fun w s => .admission s (count s) w.now,fun _ _ => trivial⟩
  turn i := Prog.keeps_write (fun _ s => .turn s i)

end Worker

variable [Inhabited P] [Inhabited L] {eng : CachedEngine P L} {may : Site → Bool} {mode : ServeEngine}
  {c d : WorkerControl P L × System P L}

theorem ServeEngine.Runs.act (h : mode.Runs eng may c) {r : Label × Answer} (hst : mode.Next eng may (some r) c d) :
    Act c.2 d.2 := by
  obtain ⟨s,_,hr⟩ := h
  have hepi : (mode.service eng).epilogue.Keeps Act := by
    cases mode with
    | queued => exact Prog.keeps_write (fun _ => .leftovers)
    | continuous => exact Prog.keeps_write (fun _ => .leftovers)
  have hbody : (mode.service eng).body.Keeps Act := by
    cases mode with
    | queued => exact Worker.acts_walk.queuedRound eng (fun _ => trivial) (fun _ _ _ => trivial)
    | continuous => exact Worker.acts_walk.continuousRound eng (fun _ => trivial) (fun _ _ _ => trivial)
  exact hst.keeps hbody hepi hr

omit [Inhabited P] [Inhabited L]

/-- The output and the abort flag of `i` stay as they are. -/
structure Spares (i : SeqId) (s t : System P L) : Prop where
  accepted : t.accepted = s.accepted
  output : (t.heap i).outputIds = (s.heap i).outputIds
  flag : (t.heap i).abortRequested = (s.heap i).abortRequested

/-- Nor does `i` get a result, and no token is counted or exported. -/
structure Rests (i : SeqId) (s t : System P L) : Prop extends Spares i s t where
  counted : t.stats.tokensGenerated = s.stats.tokensGenerated
  result : (t.heap i).result = (s.heap i).result
  exported : t.outputTokensTotal = s.outputTokensTotal

theorem PrefixCache.adopt_life (c : PrefixCache P L) (pool : Option BlockPool) (id : SeqId) (seq : Sequence P L)
    (now : ℕ) : (c.adopt pool id seq now).2.2.life = seq.life := by
  unfold PrefixCache.adopt
  cases seq.prefixKey with
  | some k => rfl
  | none =>
    cases c.candidateLengths seq.promptTokenIds with
    | nil => rfl
    | cons n rest =>
      simp only
      cases c.entries.get? (seq.promptTokenIds.take n) with
      | none => rfl
      | some entry =>
        by_cases hrefs : 0 < entry.refs
        · simp only [if_pos hrefs]
          rfl
        · simp only [if_neg hrefs]
          cases pool <;> rfl

namespace Rests

theorem refl (s : System P L) : Rests i s s := ⟨⟨rfl,rfl,rfl⟩,rfl,rfl,rfl⟩

theorem trans {u : System P L} (h : Rests i s t) (k : Rests i t u) : Rests i s u where
  accepted := k.accepted.trans h.accepted
  output := k.output.trans h.output
  flag := k.flag.trans h.flag
  counted := k.counted.trans h.counted
  result := k.result.trans h.result
  exported := k.exported.trans h.exported

theorem of_heap (hacc : t.accepted = s.accepted) (hcount : t.stats.tokensGenerated = s.stats.tokensGenerated)
    (hexp : t.outputTokensTotal = s.outputTokensTotal) (hheap : t.heap i = s.heap i) : Rests i s t :=
  ⟨⟨hacc,by rw [hheap],by rw [hheap]⟩,hcount,by rw [hheap],hexp⟩

theorem of_life (hacc : t.accepted = s.accepted) (hcount : t.stats.tokensGenerated = s.stats.tokensGenerated)
    (hexp : t.outputTokensTotal = s.outputTokensTotal) (hlife : (t.heap i).life = (s.heap i).life) : Rests i s t where
  accepted := hacc
  output := Sequence.outputIds_of_life hlife
  flag := Sequence.eq_of_life Sequence.abortRequested (fun _ => rfl) hlife
  counted := hcount
  result := Sequence.eq_of_life Sequence.result (fun _ => rfl) hlife
  exported := hexp

theorem of_update {x : Sequence P L} (hacc : t.accepted = s.accepted)
    (hcount : t.stats.tokensGenerated = s.stats.tokensGenerated) (hexp : t.outputTokensTotal = s.outputTokensTotal)
    (hheap : t.heap = Function.update s.heap j x)
    (hx : (x.outputIds,x.abortRequested,x.result) =
      ((s.heap j).outputIds,(s.heap j).abortRequested,(s.heap j).result)) : Rests i s t := by
  by_cases hij : i = j
  · subst hij
    simp only [Prod.mk.injEq] at hx
    have hself : t.heap i = x := by rw [hheap,Function.update_self]
    exact ⟨⟨hacc,by rw [hself,hx.1],by rw [hself,hx.2.1]⟩,hcount,by rw [hself,hx.2.2],hexp⟩
  · exact of_heap hacc hcount hexp (by rw [hheap,Function.update_of_ne hij])

theorem setStatus (s : System P L) (j : SeqId) (status : SequenceStatus) :
    Rests i s (s.modify j (fun seq => { seq with status := status })) :=
  of_update rfl rfl rfl rfl rfl

theorem terminate (s : System P L) (j : SeqId) {mark : Sequence P L → Sequence P L}
    (hmark : ∀ x, ((mark x).outputIds,(mark x).abortRequested,(mark x).result) =
      (x.outputIds,x.abortRequested,x.result)) : Rests i s (s.terminate j mark) := by
  by_cases hij : i = j
  · subst hij
    have hlife : ((s.terminate i mark).heap i).life = (mark (s.heap i)).closed.life := System.terminate_heap_self.1
    have hx := hmark (s.heap i)
    simp only [Prod.mk.injEq] at hx
    refine ⟨⟨rfl,?_,?_⟩,rfl,?_,rfl⟩
    · exact (Sequence.outputIds_of_life hlife).trans hx.1
    · exact (Sequence.eq_of_life Sequence.abortRequested (fun _ => rfl) hlife).trans hx.2.1
    · exact (Sequence.eq_of_life Sequence.result (fun _ => rfl) hlife).trans hx.2.2
  · exact of_heap rfl rfl rfl (System.terminate_heap_of_ne hij)

theorem abortOne (s : System P L) (j : SeqId) : Rests i s (s.abortOne j) := terminate s j (fun _ => rfl)

theorem failAll (e : Exc) (ids : List SeqId) (s : System P L) :
    Rests i s (ids.foldl (fun s j => s.failOne e j) s) := by
  induction ids generalizing s with
  | nil => exact refl s
  | cons j rest ih =>
    have hfail : Rests i s (s.failOne e j) := terminate s j (fun _ => rfl)
    exact hfail.trans (ih (s.failOne e j))

theorem contain (e : Exc) (ids : List SeqId) (s : System P L) :
    Rests i s { ids.foldl (fun s j => s.failOne e j) s with inFlight := none } :=
  (failAll e ids s).trans (of_heap rfl rfl rfl rfl)

theorem bindPrefixAtPrefill (s : System P L) (j : SeqId) (now : ℕ) : Rests i s (s.bindPrefixAtPrefill j now) := by
  unfold System.bindPrefixAtPrefill
  split
  · exact refl s
  · split
    · exact of_heap rfl rfl rfl rfl
    · unfold System.bindHit
      simp only
      split
      · exact of_update rfl rfl rfl rfl rfl
      · exact of_update rfl rfl rfl rfl rfl

theorem storePrefix (s : System P L) (j : SeqId) (now : ℕ → ℕ) : Rests i s (s.storePrefix j now) := by
  unfold System.storePrefix
  split
  · have hlife := fun (c : PrefixCache P L) pool => c.adopt_life pool j (s.heap j) (now 1)
    refine of_update rfl rfl rfl rfl ?_
    exact Sequence.eq_of_life (fun x => (x.outputIds,x.abortRequested,x.result)) (fun _ => rfl) (hlife _ _)
  · exact refl s

theorem admitRequests (s : System P L) (count : ℕ) (now : ℕ → ℕ) :
    Rests i s { s with
      scheduler := (s.scheduler.admitRequests s.heap count now).2.1
      heap := (s.scheduler.admitRequests s.heap count now).2.2 } :=
  of_life rfl rfl rfl (Scheduler.admitLoop_life now (s.scheduler.maxBatch - count) s.scheduler s.heap i)

theorem turn (s : System P L) (j : SeqId) :
    Rests i s { s.modify j (fun seq => { seq with status := .decoding }) with
      stats := { s.stats with running := [j], lastBatchSize := 1 } } :=
  (setStatus s j .decoding).trans (of_heap rfl rfl rfl rfl)

theorem abortLeftovers (s : System P L) : Rests i s s.abortLeftovers := by
  have hdrain : ∀ k (s : System P L), Rests i s (System.drainQueue k s) := by
    intro k
    induction k with
    | zero => exact refl
    | succ k ih =>
      intro s
      rcases s.drainOne_cases with ⟨_,heq⟩ | ⟨j,queue,_,_,heq⟩
      · rw [System.drainQueue,heq]
        exact ih s
      · rw [System.drainQueue,heq]
        have hqueue : Rests i s (s.setQueue queue) := of_heap rfl rfl rfl rfl
        exact (hqueue.trans (abortOne _ j)).trans (ih _)
  have hrunning : ∀ ids (s : System P L), Rests i s (System.abortRunning ids s) := by
    intro ids
    induction ids with
    | nil => exact refl
    | cons j rest ih =>
      intro s
      rw [System.abortRunning]
      split
      · exact ih s
      · exact (abortOne s j).trans (ih _)
  have hboth := (hdrain s.waiting.length s).trans (hrunning (System.drainQueue s.waiting.length s).stats.running _)
  exact hboth.trans (of_heap rfl rfl rfl rfl)

end Rests

theorem Spares.finishSequence (s : System P L) (j : SeqId) (result : GenerateResult) :
    Spares i s (s.finishSequence j result) := by
  by_cases hij : i = j
  · subst hij
    have hlife : ((s.finishSequence i result).heap i).life =
      ({ (s.heap i) with result := some result, status := .finished } : Sequence P L).closed.life :=
      System.terminate_heap_self.1
    refine ⟨rfl,?_,?_⟩
    · exact (Sequence.outputIds_of_life hlife).trans rfl
    · exact (Sequence.eq_of_life Sequence.abortRequested (fun _ => rfl) hlife).trans rfl
  · have hrests : Rests i (s.observeFinished result) (s.finishSequence j result) :=
      .of_heap rfl rfl rfl (System.terminate_heap_of_ne hij)
    exact ⟨rfl,hrests.output,hrests.flag⟩

theorem Act.cases_tokens (h : Act s t) : (∃ i token stop, t = s.recordToken i token stop) ∨
    (∃ i result, t = s.finishSequence i result) ∨ ∀ i, Rests i s t := by
  cases h with
  | record i token stop => exact Or.inl ⟨i,token,stop,rfl⟩
  | finish i result => exact Or.inr (Or.inl ⟨i,result,rfl⟩)
  | look => exact Or.inr (Or.inr (fun _ => .refl s))
  | raise ids e => exact Or.inr (Or.inr (fun _ => .of_heap rfl rfl rfl rfl))
  | contain ids e => exact Or.inr (Or.inr (fun _ => .contain e ids s))
  | model outbox => exact Or.inr (Or.inr (fun _ => .of_heap rfl rfl rfl rfl))
  | status i status => exact Or.inr (Or.inr (fun _ => .setStatus s i status))
  | running ids size => exact Or.inr (Or.inr (fun _ => .of_heap rfl rfl rfl rfl))
  | admission count now => exact Or.inr (Or.inr (fun _ => .admitRequests s count now))
  | bind i now => exact Or.inr (Or.inr (fun _ => .bindPrefixAtPrefill s i now))
  | store i now => exact Or.inr (Or.inr (fun _ => .storePrefix s i now))
  | abort i => exact Or.inr (Or.inr (fun _ => .abortOne s i))
  | leftovers => exact Or.inr (Or.inr (fun _ => .abortLeftovers s))
  | turn i => exact Or.inr (Or.inr (fun _ => .turn s i))

theorem Act.accepted_eq (h : Act s t) : t.accepted = s.accepted := by
  rcases h.cases_tokens with ⟨i,token,stop,heq⟩ | ⟨i,result,heq⟩ | hrests
  · rw [heq]
    rfl
  · rw [heq]
    rfl
  · exact (hrests 0).accepted

end FluxEngine
