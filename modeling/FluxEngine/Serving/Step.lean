import FluxEngine.Lib.Transition
import FluxEngine.Engine.System

/-! # The serving machine

One step is one atomic update of the shared state, by a worker or by a request
handler.  The order of the steps is free: a sequence can be advanced whenever
it is live, which is how both workers, any policy and any batching appear here.
-/
namespace FluxEngine
namespace System
variable {P L : Type} (s : System P L)

def Live (i : SeqId) : Prop :=
  i ∈ s.accepted ∧ i ∉ s.waiting ∧ (s.heap i).status.terminal = false

instance (i : SeqId) : Decidable (s.Live i) := inferInstanceAs (Decidable (_ ∧ _ ∧ _))

/-- Nothing submitted, every block free, no prefix stored. -/
structure Initial : Prop where
  accepted : s.accepted = []
  waiting : s.waiting = []
  free : ∀ p, s.scheduler.pool = some p → p.free = List.range p.numBlocks ∧ p.alloc = .empty
  cache : ∀ c, s.scheduler.prefixCache = some c → c.entries = .empty ∧ c.blockPins = .empty
  outbox : ∀ i, s.outbox i = none

theorem Initial.of_some {s : System P L} {p : BlockPool} {c : PrefixCache P L} (hp : s.scheduler.pool = some p)
    (hc : s.scheduler.prefixCache = some c) (hacc : s.accepted = []) (hwait : s.waiting = [])
    (hfree : p.free = List.range p.numBlocks) (halloc : p.alloc = .empty) (hentries : c.entries = .empty)
    (hpins : c.blockPins = .empty) (hbox : ∀ i, s.outbox i = none) : s.Initial := by
  refine ⟨hacc,hwait,?_,?_,hbox⟩
  · intro q hq
    rw [hp] at hq
    cases hq
    exact ⟨hfree,halloc⟩
  · intro d hd
    rw [hc] at hd
    cases hd
    exact ⟨hentries,hpins⟩

end System

inductive Event
  | submit (i : SeqId) (prompt : List Token) (sampling : SamplingParams)
  | requestAbort (i : SeqId)
  | adminAbort (i : SeqId)
  | requestStop
  | admission (now : ℕ)
  | bookkeeping
  | setStatus (i : SeqId) (status : SequenceStatus)
  | bind (i : SeqId) (now : ℕ)
  | prefill (i : SeqId)
  | store (i : SeqId) (now : ℕ → ℕ)
  | decode (i : SeqId)
  | decodeBatch (live : List SeqId)
  | note (i : SeqId) (rnd : ℕ)
  | abort (i : SeqId)
  | fail (i : SeqId) (e : Exc)
  | finish (i : SeqId) (engineName : String)
  | drain

variable {P L : Type} [Inhabited P] [Inhabited L] (eng : CachedEngine P L)

inductive Step : Event → System P L → System P L → Prop
  | submit {s : System P L} {i : SeqId} (prompt : List Token) (sampling : SamplingParams) :
      i ∉ s.accepted → Step (.submit i prompt sampling) s (s.submit i prompt sampling)
  | requestAbort {s : System P L} (i : SeqId) : Step (.requestAbort i) s (s.requestAbort i)
  | adminAbort {s : System P L} (i : SeqId) : Step (.adminAbort i) s (s.adminAbort i)
  | requestStop {s : System P L} : Step .requestStop s s.requestStop
  | admission {s : System P L} (now : ℕ) : Step (.admission now) s (s.admitRound now)
  | bookkeeping {s : System P L} (stats : WorkerStats) (inFlight : Option (List SeqId × Exc)) (total : ℕ) :
      Step .bookkeeping s { s with stats := stats, inFlight := inFlight, outputTokensTotal := total }
  | setStatus {s : System P L} {i : SeqId} {status : SequenceStatus} : s.Live i → status.terminal = false →
      Step (.setStatus i status) s (s.modify i (fun seq => { seq with status := status }))
  | bind {s : System P L} {i : SeqId} (now : ℕ) : s.Live i → Step (.bind i now) s (s.bindPrefixAtPrefill i now)
  | prefill {s : System P L} {i : SeqId} {r : L × KvCache P} : s.Live i → (s.heap i).outputIds = [] →
      prefillWithReuse eng (s.heap i) = .ok r → Step (.prefill i) s (s.putOutbox i r)
  | store {s : System P L} {i : SeqId} (now : ℕ → ℕ) : s.Live i → (s.heap i).outputIds = [] →
      Step (.store i now) s (s.storePrefix i now)
  | decode {s : System P L} {i : SeqId} {t : Token} {kv : KvCache P} {r : L × KvCache P} : s.Live i →
      (s.heap i).lastToken = some t → (s.heap i).kvCache = some kv → eng.decode t kv = .ok r →
      Step (.decode i) s (s.putOutbox i r)
  | decodeBatch {s : System P L} {live : List SeqId} {r : List L × List (KvCache P)} :
      (∀ i ∈ live, s.Live i ∧ (s.heap i).lastToken.isSome ∧ (s.heap i).kvCache.isSome) →
      eng.decodeBatch (live.map (fun i => (s.heap i).lastToken.getD 0))
        (live.map (fun i => (s.heap i).kvCache.getD (.legacy []))) = .ok r →
      Step (.decodeBatch live) s (s.putBatch live r)
  | note {s : System P L} {i : SeqId} {logits : L} {kv : KvCache P} (rnd : ℕ) : s.Live i →
      (s.heap i).finishReason = none → s.outbox i = some (logits,kv) →
      Step (.note i rnd) s (s.recordToken i (sampleLogits eng logits (s.heap i).sampling rnd)
        (combinedStopIds eng.tokenizer (s.heap i).sampling.stopTokenIds (s.heap i).sampling.ignoreEos))
  | abort {s : System P L} {i : SeqId} : s.Live i → Step (.abort i) s (s.abortOne i)
  | fail {s : System P L} {i : SeqId} (e : Exc) : s.Live i → Step (.fail i e) s (s.failOne e i)
  | finish {s : System P L} {i : SeqId} {reason : FinishReason} (engineName : String) : s.Live i →
      (s.heap i).finishReason = some reason →
      Step (.finish i engineName) s (s.conclude i (packResult eng.tokenizer (s.heap i).promptTokenIds
        (s.heap i).outputIds reason engineName))
  | drain {s : System P L} : Step .drain s s.drainOne

def Reachable (s : System P L) : Prop := ∃ s₀ : System P L, s₀.Initial ∧ Transition.Reaches (Step eng) s₀ s

variable {eng}

theorem Reachable.invariant {I : System P L → Prop} {s : System P L} (h : Reachable eng s)
    (hinit : ∀ s, s.Initial → I s) (hstep : ∀ ev s t, I s → Step eng ev s t → I t) : I s := by
  obtain ⟨s₀,h0,hr⟩ := h
  exact hr.invariant (hinit s₀ h0) hstep

/-- The state after an event, where it can happen; `bookkeeping` changes nothing here. -/
def Event.exec (eng : CachedEngine P L) (s : System P L) : Event → Option (System P L)
  | .submit i prompt sampling => if i ∉ s.accepted then some (s.submit i prompt sampling) else none
  | .requestAbort i => some (s.requestAbort i)
  | .adminAbort i => some (s.adminAbort i)
  | .requestStop => some s.requestStop
  | .admission now => some (s.admitRound now)
  | .bookkeeping => some s
  | .setStatus i status =>
    if s.Live i ∧ status.terminal = false then some (s.modify i (fun seq => { seq with status := status }))
    else none
  | .bind i now => if s.Live i then some (s.bindPrefixAtPrefill i now) else none
  | .prefill i =>
    if s.Live i ∧ (s.heap i).outputIds = [] then
      match prefillWithReuse eng (s.heap i) with
      | .ok r => some (s.putOutbox i r)
      | .error _ => none
    else none
  | .store i now => if s.Live i ∧ (s.heap i).outputIds = [] then some (s.storePrefix i now) else none
  | .decode i =>
    match (s.heap i).lastToken, (s.heap i).kvCache with
    | some t, some kv =>
      if s.Live i then
        match eng.decode t kv with
        | .ok r => some (s.putOutbox i r)
        | .error _ => none
      else none
    | _, _ => none
  | .decodeBatch live =>
    if ∀ i ∈ live, s.Live i ∧ (s.heap i).lastToken.isSome ∧ (s.heap i).kvCache.isSome then
      match eng.decodeBatch (live.map (fun i => (s.heap i).lastToken.getD 0))
          (live.map (fun i => (s.heap i).kvCache.getD (.legacy []))) with
      | .ok r => some (s.putBatch live r)
      | .error _ => none
    else none
  | .note i rnd =>
    match s.outbox i with
    | some (logits,_) =>
      if s.Live i ∧ (s.heap i).finishReason = none then
        some (s.recordToken i (sampleLogits eng logits (s.heap i).sampling rnd)
          (combinedStopIds eng.tokenizer (s.heap i).sampling.stopTokenIds (s.heap i).sampling.ignoreEos))
      else none
    | none => none
  | .abort i => if s.Live i then some (s.abortOne i) else none
  | .fail i e => if s.Live i then some (s.failOne e i) else none
  | .finish i engineName =>
    match (s.heap i).finishReason with
    | some reason =>
      if s.Live i then
        some (s.conclude i (packResult eng.tokenizer (s.heap i).promptTokenIds
          (s.heap i).outputIds reason engineName))
      else none
    | none => none
  | .drain => some s.drainOne

theorem Event.exec_sound {ev : Event} {s t : System P L} (h : ev.exec eng s = some t) : Step eng ev s t := by
  cases ev with
  | submit i prompt sampling =>
    simp only [exec,Option.ite_none_right_eq_some,Option.some.injEq] at h
    rw [← h.2]
    exact .submit prompt sampling h.1
  | requestAbort i => cases h; exact .requestAbort i
  | adminAbort i => cases h; exact .adminAbort i
  | requestStop => cases h; exact .requestStop
  | admission now => cases h; exact .admission now
  | bookkeeping => cases h; exact .bookkeeping s.stats s.inFlight s.outputTokensTotal
  | setStatus i status =>
    simp only [exec,Option.ite_none_right_eq_some,Option.some.injEq] at h
    rw [← h.2]
    exact .setStatus h.1.1 h.1.2
  | bind i now =>
    simp only [exec,Option.ite_none_right_eq_some,Option.some.injEq] at h
    rw [← h.2]
    exact .bind now h.1
  | prefill i =>
    simp only [exec,Option.ite_none_right_eq_some] at h
    obtain ⟨⟨hl,ho⟩,h⟩ := h
    cases hr : prefillWithReuse eng (s.heap i) with
    | error e => simp [hr] at h
    | ok r =>
      rw [hr] at h
      cases h
      exact .prefill hl ho hr
  | store i now =>
    simp only [exec,Option.ite_none_right_eq_some,Option.some.injEq] at h
    rw [← h.2]
    exact .store now h.1.1 h.1.2
  | decode i =>
    cases ht : (s.heap i).lastToken with
    | none => simp [exec,ht] at h
    | some tok =>
      cases hkv : (s.heap i).kvCache with
      | none => simp [exec,ht,hkv] at h
      | some kv =>
        simp only [exec,ht,hkv,Option.ite_none_right_eq_some] at h
        obtain ⟨hl,h⟩ := h
        cases hr : eng.decode tok kv with
        | error e => simp [hr] at h
        | ok r =>
          rw [hr] at h
          cases h
          exact .decode hl ht hkv hr
  | decodeBatch live =>
    simp only [exec,Option.ite_none_right_eq_some] at h
    obtain ⟨hl,h⟩ := h
    cases hr : eng.decodeBatch (live.map (fun i => (s.heap i).lastToken.getD 0))
        (live.map (fun i => (s.heap i).kvCache.getD (.legacy []))) with
    | error e => simp [hr] at h
    | ok r =>
      rw [hr] at h
      cases h
      exact .decodeBatch hl hr
  | note i rnd =>
    cases ho : s.outbox i with
    | none => simp [exec,ho] at h
    | some r =>
      simp only [exec,ho,Option.ite_none_right_eq_some,Option.some.injEq] at h
      rw [← h.2]
      exact .note rnd h.1.1 h.1.2 ho
  | abort i =>
    simp only [exec,Option.ite_none_right_eq_some,Option.some.injEq] at h
    rw [← h.2]
    exact .abort h.1
  | fail i e =>
    simp only [exec,Option.ite_none_right_eq_some,Option.some.injEq] at h
    rw [← h.2]
    exact .fail e h.1
  | finish i engineName =>
    cases hf : (s.heap i).finishReason with
    | none => simp [exec,hf] at h
    | some reason =>
      simp only [exec,hf,Option.ite_none_right_eq_some,Option.some.injEq] at h
      rw [← h.2]
      exact .finish engineName h.1 hf
  | drain => cases h; exact .drain

def execAll (eng : CachedEngine P L) : List Event → System P L → Option (System P L) :=
  Transition.playAll (fun ev s => ev.exec eng s)

theorem execAll_run {evs : List Event} {s t : System P L} (h : execAll eng evs s = some t) :
    Transition.Run (Step eng) s evs t :=
  Transition.playAll_run (fun ev _ _ _ hst => ev.exec_sound hst) h

end FluxEngine
