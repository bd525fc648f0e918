import FluxEngine.Lib.Ledger
import FluxEngine.Serving.Actions

/-! # Counting tokens

The worker counts every token it records, and `_finish_sequence` exports what a
result reports.  Both are sums over the sequences that were accepted: the first
over all of them, the second over the finished ones.
-/
namespace FluxEngine
open Transition Interleaving
variable {P L : Type} {s t : System P L} {i j : SeqId}

def SequenceStatus.isFinished (status : SequenceStatus) : Bool := decide (status = .finished)

namespace System

def outputTokens (s : System P L) : ℕ := (s.accepted.map (fun i => (s.heap i).outputIds.length)).sum

/-- The tokens of the sequences whose status meets `p`. -/
def tokensOf (p : SequenceStatus → Bool) (s : System P L) : ℕ :=
  (s.accepted.map (fun i => if p (s.heap i).status then (s.heap i).outputIds.length else 0)).sum

theorem tokensOf_add (p : SequenceStatus → Bool) (s : System P L) :
    s.tokensOf p + s.tokensOf (fun status => !p status) = s.outputTokens := by
  unfold tokensOf outputTokens
  rw [← List.sum_map_add]
  refine congrArg List.sum (List.map_congr_left ?_)
  intro i _
  by_cases hp : p (s.heap i).status = true
  · simp only [hp,if_true,Bool.not_true,Bool.false_eq_true,if_false,add_zero]
  · simp only [hp,Bool.false_eq_true,if_false,Bool.not_false,if_true,zero_add]

end System

variable [Inhabited P] [Inhabited L] {eng : CachedEngine P L} {may : Site → Bool} {mode : ServeEngine}
  {c d : WorkerControl P L × System P L}

/-- A step leaves who has not been accepted as it was, up to its abort flag. -/
theorem Step.outcome_of_not_accepted {ev : Event} (hb : s.Books False) (h : Step eng ev s t) (hi : i ∉ t.accepted) :
    (t.heap i).outcome = (s.heap i).outcome := by
  have hs : i ∉ s.accepted := fun hi' => hi (h.accepted_subset hi')
  have hoff : ∀ {j}, j ∈ s.accepted → i ≠ j := fun hj hij => hs (hij ▸ hj)
  have hended : ∀ {u : System P L} {j} {mark : Sequence P L → Sequence P L}, u.heap i = s.heap i → j ∈ s.accepted →
      ((u.terminate j mark).heap i).outcome = (s.heap i).outcome := by
    intro u j mark hu hj
    rw [System.terminate_heap_of_ne (hoff hj),hu]
  have hrequest : ∀ j, ((s.requestAbort j).heap i).outcome = (s.heap i).outcome := by
    intro j
    by_cases hij : i = j
    · subst hij
      simp only [System.requestAbort,System.modify,Function.update_self]
      rfl
    · simp only [System.requestAbort,System.modify,Function.update_of_ne hij]
  cases h with
  | @submit _ j prompt sampling hj =>
    rcases s.submit_cases j prompt sampling with heq | ⟨queue,_,heq⟩
    · rw [heq]
    · rw [heq] at hi ⊢
      have hij : i ≠ j := by
        rintro rfl
        exact hi (List.mem_append_right _ List.mem_cons_self)
      simp only [Function.update_of_ne hij]
  | requestAbort j => exact hrequest j
  | adminAbort j =>
    unfold System.adminAbort
    split
    · rename_i hw
      exact hended rfl (hb.waiting j hw).1
    · split
      · exact hrequest j
      · rfl
  | admission now => exact Sequence.outcome_of_life (s.scheduler.admitRound_life s.heap now i)
  | setStatus hj _ => simp only [System.modify,Function.update_of_ne (hoff hj.1)]
  | bind now hj => rw [(hb.bind hj now False.elim).1.off i (hoff hj.1)]
  | store now hj _ => rw [(hb.store hj now).1.off i (hoff hj.1)]
  | note rnd hj _ _ => simp only [System.recordToken,System.modify,Function.update_of_ne (hoff hj.1)]
  | abort hj => exact hended rfl hj.1
  | fail e hj => exact hended rfl hj.1
  | finish engineName hj _ => exact hended rfl hj.1
  | drain =>
    rcases s.drainOne_cases with ⟨_,heq⟩ | ⟨j,queue,hw,_,heq⟩
    · rw [heq]
    · rw [heq]
      exact hended rfl (hb.waiting j hw).1
  | _ => rfl

theorem Reachable.outcome_of_not_accepted (hs : Reachable eng s) (h : Reaches (Step eng) s t) (hi : i ∉ t.accepted) :
    (t.heap i).outcome = (s.heap i).outcome := by
  have hinv : t.Books False ∧ (i ∉ t.accepted → (t.heap i).outcome = (s.heap i).outcome) := by
    refine h.invariant (P := fun t => t.Books False ∧ (i ∉ t.accepted → (t.heap i).outcome = (s.heap i).outcome))
      ⟨books_of_reachable hs,fun _ => rfl⟩ ?_
    rintro ev u v ⟨hb,hout⟩ hst
    refine ⟨hb.step hst False.elim,?_⟩
    intro hv
    exact (hst.outcome_of_not_accepted hb hv).trans (hout (fun hu => hv (hst.accepted_subset hu)))
  exact hinv.2 hi

theorem ServeEngine.Runs.accepted_of_act (h : mode.Runs eng may c) {r : Label × Answer}
    (hst : mode.Next eng may (some r) c d) (hout : (d.2.heap i).outcome ≠ (c.2.heap i).outcome) : i ∈ c.2.accepted := by
  by_contra hi
  exact hout (h.reachable.outcome_of_not_accepted (h.reaches_step hst) ((h.act hst).accepted_eq ▸ hi))

theorem ServeEngine.Runs.open_of_act (h : mode.Runs eng may c) {r : Label × Answer}
    (hst : mode.Next eng may (some r) c d) (hi : i ∈ c.2.accepted)
    (hout : (d.2.heap i).outcome ≠ (c.2.heap i).outcome) : (c.2.heap i).status.isFinished = false := by
  by_contra hfin
  rw [Bool.not_eq_false,SequenceStatus.isFinished,decide_eq_true_eq] at hfin
  refine hout (h.reachable.outcome_eq (h.reaches_step hst) hi ?_)
  rw [hfin]
  rfl

theorem Reachable.isFinished_iff (h : Reachable eng s) (hi : i ∈ s.accepted) :
    (s.heap i).status.isFinished = (s.heap i).result.isSome := by
  by_cases hfin : (s.heap i).status = .finished
  · obtain ⟨reason,engineName,_,hr⟩ := (h.concluded hi).finished hfin
    rw [hr,SequenceStatus.isFinished,decide_eq_true hfin]
    rfl
  · rw [(h.concluded hi).unfinished hfin,SequenceStatus.isFinished,decide_eq_false hfin]
    rfl

theorem Reachable.completionTokens_eq (h : Reachable eng s) (hi : i ∈ s.accepted) {result : GenerateResult}
    (hr : (s.heap i).result = some result) : result.completionTokens = (s.heap i).outputIds.length := by
  have hfin : (s.heap i).status = .finished := by
    by_contra hne
    rw [(h.concluded hi).unfinished hne] at hr
    cases hr
  obtain ⟨reason,engineName,_,hr'⟩ := (h.concluded hi).finished hfin
  rw [hr] at hr'
  cases hr'
  rfl

/-- Requests leave outputs, results and the exporter alone. -/
theorem Step.rests_of_isRequest {ev : Event} (h : Step eng ev s t) (hev : ev.isRequest = true) :
    t.outputTokensTotal = s.outputTokensTotal ∧ ∀ i ∈ s.accepted,
      (t.heap i).outputIds = (s.heap i).outputIds ∧ (t.heap i).result = (s.heap i).result := by
  have hrests : ∀ {u : System P L}, (∀ i, Rests i s u) → u.outputTokensTotal = s.outputTokensTotal ∧
      ∀ i ∈ s.accepted, (u.heap i).outputIds = (s.heap i).outputIds ∧ (u.heap i).result = (s.heap i).result :=
    fun hu => ⟨(hu 0).exported,fun i _ => ⟨(hu i).output,(hu i).result⟩⟩
  have hrequest : ∀ j, (s.requestAbort j).outputTokensTotal = s.outputTokensTotal ∧ ∀ i ∈ s.accepted,
      ((s.requestAbort j).heap i).outputIds = (s.heap i).outputIds ∧
        ((s.requestAbort j).heap i).result = (s.heap i).result := by
    refine fun j => ⟨rfl,?_⟩
    intro i _
    by_cases hij : i = j
    · subst hij
      simp only [System.requestAbort,System.modify,Function.update_self,Sequence.requestAbort,and_self]
    · simp only [System.requestAbort,System.modify,Function.update_of_ne hij,and_self]
  cases h with
  | @submit _ j prompt sampling hj =>
    rcases s.submit_cases j prompt sampling with heq | ⟨queue,_,heq⟩
    · rw [heq]
      exact hrests (fun _ => .refl s)
    · rw [heq]
      refine ⟨rfl,?_⟩
      intro i hi
      have hij : i ≠ j := fun hij => hj (hij ▸ hi)
      simp only [Function.update_of_ne hij,and_self]
  | requestAbort j => exact hrequest j
  | adminAbort j =>
    unfold System.adminAbort
    split
    · have hqueue : ∀ i, Rests i s (s.setQueue (s.scheduler.queue.remove j).2) := fun _ => .of_heap rfl rfl rfl rfl
      exact hrests (fun i => (hqueue i).trans (.abortOne _ j))
    · split
      · exact hrequest j
      · exact hrests (fun _ => .refl s)
  | requestStop => exact hrests (fun _ => .of_heap rfl rfl rfl rfl)
  | _ => cases hev

/-- What the worker and the exporter have counted grows with the tokens of all
sequences and with those of the finished ones. -/
structure Tallied (s t : System P L) (n k : ℕ) : Prop where
  counted : t.stats.tokensGenerated = s.stats.tokensGenerated + n
  tokens : t.outputTokens = s.outputTokens + n
  exported : t.outputTokensTotal = s.outputTokensTotal + k
  finished : t.tokensOf SequenceStatus.isFinished = s.tokensOf SequenceStatus.isFinished + k

theorem Reachable.tallied_same (hs : Reachable eng s) (ht : Reachable eng t) (new : List SeqId)
    (hacc : t.accepted = s.accepted ++ new) (hnew : ∀ i ∈ new, (t.heap i).outputIds = [])
    (hcount : t.stats.tokensGenerated = s.stats.tokensGenerated) (hexp : t.outputTokensTotal = s.outputTokensTotal)
    (hsame : ∀ i ∈ s.accepted, (t.heap i).outputIds = (s.heap i).outputIds ∧ (t.heap i).result = (s.heap i).result) :
    Tallied s t 0 0 := by
  have hzero : ∀ f : SeqId → ℕ, (∀ i ∈ new, f i = 0) → (new.map f).sum = 0 := by
    intro f hf
    rw [List.map_congr_left hf]
    simp
  refine ⟨hcount,?_,hexp,?_⟩
  · unfold System.outputTokens
    rw [hacc,List.map_append,List.sum_append,hzero _ (fun i hi => by rw [hnew i hi]; rfl)]
    exact congrArg List.sum (List.map_congr_left (fun i hi => by rw [(hsame i hi).1]))
  · unfold System.tokensOf
    rw [hacc,List.map_append,List.sum_append,hzero _ (fun i hi => by rw [hnew i hi]; exact ite_self 0)]
    refine congrArg List.sum (List.map_congr_left ?_)
    intro i hi
    have hi' : i ∈ t.accepted := hacc ▸ List.mem_append_left _ hi
    rw [ht.isFinished_iff hi',hs.isFinished_iff hi,(hsame i hi).1,(hsame i hi).2]

theorem ServeEngine.Runs.tallied_record (h : mode.Runs eng may c) {r : Label × Answer}
    (hst : mode.Next eng may (some r) c d) {token : Token} {stop : List Token} (heq : d.2 = c.2.recordToken i token stop) :
    Tallied c.2 d.2 1 0 := by
  have hself : d.2.heap i = { (c.2.heap i).noteToken token stop with kvCache := (c.2.outbox i).map Prod.snd } := by
    rw [heq]
    simp only [System.recordToken,System.modify,Function.update_self]
  have hoff : ∀ j, j ≠ i → d.2.heap j = c.2.heap j := by
    intro j hj
    rw [heq]
    simp only [System.recordToken,System.modify,Function.update_of_ne hj]
  have hacc := (h.act hst).accepted_eq
  have hlength : (d.2.heap i).outputIds.length = (c.2.heap i).outputIds.length + 1 := by
    rw [hself,Sequence.noteToken_eq]
    exact List.length_append
  have hstatus : (d.2.heap i).status = (c.2.heap i).status := by
    rw [hself,Sequence.noteToken_eq]
  have hgrown : (d.2.heap i).outcome ≠ (c.2.heap i).outcome := by
    intro hout
    have hsame : (d.2.heap i).outputIds = (c.2.heap i).outputIds := congrArg (fun o => o.1.2.1) hout
    rw [hsame] at hlength
    omega
  have hi : i ∈ c.2.accepted := h.accepted_of_act hst hgrown
  have hopen : (c.2.heap i).status.isFinished = false := h.open_of_act hst hi hgrown
  refine ⟨by rw [heq]; rfl,?_,by rw [heq]; rfl,?_⟩
  · have hsum := Ledger.sum_change h.reachable.books.nodup hi (f := fun i => (c.2.heap i).outputIds.length)
      (g := fun i => (d.2.heap i).outputIds.length) (fun j _ hj => by rw [hoff j hj])
    simp only [hlength] at hsum
    unfold System.outputTokens
    rw [hacc]
    omega
  · unfold System.tokensOf
    rw [hacc,Nat.add_zero]
    refine congrArg List.sum (List.map_congr_left ?_)
    intro j _
    by_cases hj : j = i
    · rw [hj,hstatus,hopen]
      rfl
    · rw [hoff j hj]

omit [Inhabited P] [Inhabited L] in
theorem System.observeFinished_total (s : System P L) (result : GenerateResult) :
    (s.observeFinished result).outputTokensTotal = s.outputTokensTotal + result.completionTokens := by
  unfold System.observeFinished
  dsimp only
  split <;> omega

/-- The result that is observed counts the tokens of the sequence that finishes. -/
theorem ServeEngine.Runs.tallied_finish (h : mode.Runs eng may c) {r : Label × Answer}
    (hst : mode.Next eng may (some r) c d) {result : GenerateResult} (heq : d.2 = c.2.finishSequence i result) :
    Tallied c.2 d.2 0 result.completionTokens := by
  have hd : Reachable eng d.2 := (h.tail hst).reachable
  have hlife : (d.2.heap i).life =
      ({ (c.2.heap i) with result := some result, status := .finished } : Sequence P L).closed.life := by
    rw [heq]
    exact System.terminate_heap_self.1
  have hacc := (h.act hst).accepted_eq
  have hout : ∀ j, (d.2.heap j).outputIds = (c.2.heap j).outputIds := by
    intro j
    rw [heq]
    exact (Spares.finishSequence c.2 i result).output
  have hreleased : (d.2.heap i).releases = (c.2.heap i).releases + 1 :=
    (Sequence.eq_of_life Sequence.releases (fun _ => rfl) hlife).trans rfl
  have hended : (d.2.heap i).outcome ≠ (c.2.heap i).outcome := by
    intro houtcome
    have hsame : (d.2.heap i).releases = (c.2.heap i).releases := congrArg (fun o => o.2.1.2.1) houtcome
    omega
  have hi : i ∈ c.2.accepted := h.accepted_of_act hst hended
  have hopen : (c.2.heap i).status.isFinished = false := h.open_of_act hst hi hended
  have hfinished : (d.2.heap i).status.isFinished = true := by
    rw [(Sequence.eq_of_life Sequence.status (fun _ => rfl) hlife).trans rfl]
    rfl
  have hresult : (d.2.heap i).result = some result := (Sequence.eq_of_life Sequence.result (fun _ => rfl) hlife).trans rfl
  have hlength : result.completionTokens = (d.2.heap i).outputIds.length := hd.completionTokens_eq (hacc ▸ hi) hresult
  refine ⟨by rw [heq]; rfl,?_,by rw [heq]; exact c.2.observeFinished_total result,?_⟩
  · unfold System.outputTokens
    rw [hacc]
    exact congrArg List.sum (List.map_congr_left (fun j _ => by rw [hout j]))
  · have hsum := Ledger.sum_change h.reachable.books.nodup hi
      (f := fun i => if (c.2.heap i).status.isFinished then (c.2.heap i).outputIds.length else 0)
      (g := fun i => if (d.2.heap i).status.isFinished then (d.2.heap i).outputIds.length else 0) (by
        intro j _ hj
        have hheap : d.2.heap j = c.2.heap j := by
          rw [heq]
          exact System.terminate_heap_of_ne hj
        rw [hheap])
    simp only [hopen,hfinished,Bool.false_eq_true,if_false,if_true,Nat.add_zero] at hsum
    unfold System.tokensOf
    rw [hacc,hlength]
    exact hsum

theorem ServeEngine.Runs.tallied_act (h : mode.Runs eng may c) {r : Label × Answer}
    (hst : mode.Next eng may (some r) c d) : ∃ n k, Tallied c.2 d.2 n k := by
  rcases (h.act hst).cases_tokens with ⟨i,token,stop,heq⟩ | ⟨i,result,heq⟩ | hrests
  · exact ⟨1,0,h.tallied_record hst heq⟩
  · exact ⟨0,result.completionTokens,h.tallied_finish hst heq⟩
  · exact ⟨0,0,h.reachable.tallied_same (h.tail hst).reachable []
      (by rw [(hrests 0).accepted,List.append_nil]) (fun _ hi => absurd hi List.not_mem_nil) (hrests 0).counted
      (hrests 0).exported (fun i _ => ⟨(hrests i).output,(hrests i).result⟩)⟩

theorem ServeEngine.Runs.tallied_step (h : mode.Runs eng may c) {l : Option (Label × Answer)}
    (hst : mode.Next eng may l c d) : ∃ n k, Tallied c.2 d.2 n k := by
  have hd : Reachable eng d.2 := (h.tail hst).reachable
  cases l with
  | some r => exact h.tallied_act hst
  | none =>
    cases hst with
    | env hr =>
      obtain ⟨ev,hev,hst⟩ := hr
      obtain ⟨hexp,hsame⟩ := hst.rests_of_isRequest hev
      have hcount := congrArg WorkerStats.tokensGenerated (hst.requested hev).stats
      rcases hst.accepted with hacc | ⟨j,_,_,_,hacc,hheap,_⟩
      · exact ⟨0,0,h.reachable.tallied_same hd [] (by rw [hacc,List.append_nil])
          (fun _ hi => absurd hi List.not_mem_nil) hcount hexp hsame⟩
      · refine ⟨0,0,h.reachable.tallied_same hd [j] hacc ?_ hcount hexp hsame⟩
        intro i hi
        rw [List.mem_singleton.mp hi,hheap]

/-- In every run the worker has counted the tokens of all sequences, and the exporter
those of the finished ones: they differ by what the others have got. -/
theorem tokens_accounted (hs : s.Boot) (hr : Reaches (mode.Next eng may) ((mode.service eng).start,s) c) :
    c.2.stats.tokensGenerated = s.stats.tokensGenerated + c.2.outputTokens ∧
    c.2.outputTokensTotal = s.outputTokensTotal + c.2.tokensOf SequenceStatus.isFinished ∧
    c.2.stats.tokensGenerated + s.outputTokensTotal =
      c.2.outputTokensTotal + s.stats.tokensGenerated + c.2.tokensOf (fun status => !status.isFinished) := by
  have hstart : mode.Runs eng may ((mode.service eng).start,s) ∧
      s.stats.tokensGenerated = s.stats.tokensGenerated + s.outputTokens ∧
      s.outputTokensTotal = s.outputTokensTotal + s.tokensOf SequenceStatus.isFinished := by
    refine ⟨⟨s,hs,.refl _⟩,?_,?_⟩
    · unfold System.outputTokens
      rw [hs.initial.accepted]
      rfl
    · unfold System.tokensOf
      rw [hs.initial.accepted]
      rfl
  have hinv : mode.Runs eng may c ∧ c.2.stats.tokensGenerated = s.stats.tokensGenerated + c.2.outputTokens ∧
      c.2.outputTokensTotal = s.outputTokensTotal + c.2.tokensOf SequenceStatus.isFinished := by
    refine hr.invariant (P := fun c => mode.Runs eng may c ∧
      c.2.stats.tokensGenerated = s.stats.tokensGenerated + c.2.outputTokens ∧
      c.2.outputTokensTotal = s.outputTokensTotal + c.2.tokensOf SequenceStatus.isFinished) hstart ?_
    rintro l c d ⟨hruns,hcounted,hexported⟩ hst
    obtain ⟨n,k,hnk⟩ := hruns.tallied_step hst
    refine ⟨hruns.tail hst,?_,?_⟩
    · rw [hnk.counted,hnk.tokens,hcounted,Nat.add_assoc]
    · rw [hnk.exported,hnk.finished,hexported,Nat.add_assoc]
  obtain ⟨_,hcounted,hexported⟩ := hinv
  have hsplit := c.2.tokensOf_add SequenceStatus.isFinished
  exact ⟨hcounted,hexported,by omega⟩

/-- The first of two requests is aborted after its first token. -/
def abortedAfterToken : List ServeEngine.Move :=
  [.request (.submit 0 [5,6] twoTokens),.request (.submit 1 [7] twoTokens)] ++ List.replicate 16 (.act {}) ++
    .request (.requestAbort 0) :: List.replicate 35 (.act {})

theorem tokens_accounted_aborted : ∃ c : WorkerControl ℕ Token × System ℕ Token,
    ServeEngine.continuous.Runs (FakeLm.engine {}) Site.isModel c ∧
    c.2.stats.tokensGenerated = 3 ∧ c.2.outputTokensTotal = 2 := by
  have hobs : (ServeEngine.continuous.play (FakeLm.engine {}) Site.isModel abortedAfterToken
      ((ServeEngine.continuous.service (FakeLm.engine {})).start,roomySystem)).map
      (fun c => (c.2.outputTokens,c.2.tokensOf SequenceStatus.isFinished)) = some (3,2) := by decide
  obtain ⟨c,hc,hobs⟩ := Option.map_eq_some_iff.mp hobs
  simp only [Prod.mk.injEq] at hobs
  obtain ⟨hcounted,hexported,_⟩ := tokens_accounted roomySystem_boot (ServeEngine.continuous.play_sound hc)
  rw [hobs.1] at hcounted
  rw [hobs.2] at hexported
  exact ⟨c,ServeEngine.continuous.runs_of_play roomySystem_boot hc,hcounted,hexported⟩

end FluxEngine
