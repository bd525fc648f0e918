import FluxEngine.Engine.Stepwise

/-! # Generation of one prompt alone

The greedy continuation of a prompt, where it ends, and that `generate_ids`
computes exactly that.
-/
namespace FluxEngine

/-- The finish reason after the last of the tokens generated so far. -/
def verdict (stopIds : List Token) (maxTokens : ℕ) (outs : List Token) : Option FinishReason :=
  match outs.getLast? with
  | none => none
  | some t => if t ∈ stopIds then some .stop else if maxTokens ≤ outs.length then some .length else none

theorem verdict_append (stopIds : List Token) (maxTokens : ℕ) (outs : List Token) (t : Token) :
    verdict stopIds maxTokens (outs ++ [t]) =
      if t ∈ stopIds then some .stop else if maxTokens ≤ outs.length + 1 then some .length else none := by
  simp [verdict]

namespace Row
variable {P : Type}

def seqLen (row : Row P) : ℕ :=
  match row with
  | [] => 0
  | kv :: _ => kv.1.length

theorem Fits.seqLen_eq {row : Row P} {nLayers n : ℕ} (h : row.Fits nLayers n) (hpos : 0 < nLayers) :
    row.seqLen = n := by
  cases row with
  | nil =>
    have hd := h.depth
    simp only [List.length_nil] at hd
    omega
  | cons kv row => exact (h.ofLength kv List.mem_cons_self).1

end Row

namespace StepwiseModel
variable {P L : Type} [Inhabited L] {eng : CachedEngine P L} (M : StepwiseModel eng.model)

def kvRow (ids : List Token) : Row P := rowOf (M.kv ids) 0

theorem layers_kvRow (ids : List Token) : (M.kvRow ids).layers = M.kv ids := by
  apply Batched.layers_rowOf
  intro layer hl
  obtain ⟨k,v,rfl,_,_⟩ := M.shape ids layer hl
  exact ⟨rfl,rfl⟩

theorem kvRow_fits (ids : List Token) : (M.kvRow ids).Fits M.nLayers ids.length := by
  constructor
  · rw [kvRow,rowOf,List.length_map]
    exact M.depth ids
  · intro kv hmem
    obtain ⟨layer,hl,rfl⟩ := List.mem_map.mp hmem
    obtain ⟨k,v,rfl,hk,hv⟩ := M.shape ids layer hl
    exact ⟨hk,hv⟩

def solo (prompt outs : List Token) : L × Row P :=
  outs.foldl (fun state t => M.grow state.2.seqLen state.2 t) (M.logits prompt,M.kvRow prompt)

theorem solo_append (prompt outs : List Token) (t : Token) :
    M.solo prompt (outs ++ [t]) = M.grow (M.solo prompt outs).2.seqLen (M.solo prompt outs).2 t := by
  simp [solo]

theorem solo_fits (prompt outs : List Token) :
    (M.solo prompt outs).2.Fits M.nLayers (prompt.length + outs.length) := by
  induction outs using List.reverseRecOn with
  | nil => exact M.kvRow_fits prompt
  | append_singleton outs t ih =>
    rw [solo_append,ih.seqLen_eq M.nLayers_pos,List.length_append]
    exact M.grow_fits ih t

theorem grow_solo (prompt outs : List Token) (t : Token) :
    M.grow (prompt.length + outs.length) (M.solo prompt outs).2 t = M.solo prompt (outs ++ [t]) := by
  rw [solo_append,(M.solo_fits prompt outs).seqLen_eq M.nLayers_pos]

theorem holds_of_computes {r : L × KvCache P} {prompt : List Token} (h : M.Computes r prompt) :
    Holds r (M.solo prompt []) :=
  ⟨h.1,h.2.trans (M.layers_kvRow prompt).symm⟩

theorem decode_solo {prompt outs : List Token} {cache : KvCache P}
    (h : iterKv cache = (M.solo prompt outs).2.layers) (t : Token) :
    ∃ r, eng.decode t cache = .ok r ∧ Holds r (M.solo prompt (outs ++ [t])) := by
  rw [← M.grow_solo]
  exact M.decode_holds h (M.solo_fits prompt outs) t

/-- The first `n` tokens that the argmax picks. -/
def greedy (prompt : List Token) : ℕ → List Token
  | 0 => []
  | n+1 => greedy prompt n ++ [eng.argmax (M.solo prompt (greedy prompt n)).1]

theorem length_greedy (prompt : List Token) (n : ℕ) : (M.greedy prompt n).length = n := by
  induction n with
  | zero => rfl
  | succ n ih => rw [greedy,List.length_append,ih,List.length_singleton]

theorem greedy_prefix (prompt : List Token) {m n : ℕ} (h : m ≤ n) : M.greedy prompt m <+: M.greedy prompt n := by
  induction h with
  | refl => exact List.prefix_refl _
  | step _ ih => exact ih.trans (List.prefix_append _ _)

theorem greedy_eq_take (prompt : List Token) {m n : ℕ} (h : m ≤ n) :
    (M.greedy prompt n).take m = M.greedy prompt m := by
  have hp := List.prefix_iff_eq_take.mp (M.greedy_prefix prompt h)
  rw [length_greedy] at hp
  exact hp.symm

/-- The greedy continuation ends after `n` tokens, and not before. -/
structure EndsAt (prompt stopIds : List Token) (maxTokens n : ℕ) (reason : FinishReason) : Prop where
  pos : 0 < n
  ended : verdict stopIds maxTokens (M.greedy prompt n) = some reason
  first : ∀ k, 0 < k → k < n → verdict stopIds maxTokens (M.greedy prompt k) = none

theorem verdict_greedy (prompt stopIds : List Token) (maxTokens n : ℕ) :
    verdict stopIds maxTokens (M.greedy prompt (n + 1)) =
      if eng.argmax (M.solo prompt (M.greedy prompt n)).1 ∈ stopIds then some .stop
      else if maxTokens ≤ n + 1 then some .length else none := by
  rw [greedy,verdict_append,length_greedy]

variable {M} {prompt stopIds : List Token} {maxTokens n : ℕ} {reason : FinishReason}

theorem EndsAt.of_verdict (h : M.EndsAt prompt stopIds maxTokens n reason) {m : ℕ} {reason' : FinishReason}
    (hm : 0 < m) (hle : m ≤ n) (hv : verdict stopIds maxTokens (M.greedy prompt m) = some reason') :
    m = n ∧ reason' = reason := by
  have hmn : m = n := by
    by_contra hne
    rw [h.first m hm (by omega)] at hv
    cases hv
  subst hmn
  rw [h.ended] at hv
  cases hv
  exact ⟨rfl,rfl⟩

theorem exists_endsAt (h : 1 ≤ maxTokens) : ∃ n reason, M.EndsAt prompt stopIds maxTokens n reason := by
  have hex : ∃ n, (verdict stopIds maxTokens (M.greedy prompt (n + 1))).isSome := by
    refine ⟨maxTokens - 1,?_⟩
    rw [verdict_greedy]
    by_cases hstop : eng.argmax (M.solo prompt (M.greedy prompt (maxTokens - 1))).1 ∈ stopIds
    · rw [if_pos hstop]
      rfl
    · rw [if_neg hstop,if_pos (by omega)]
      rfl
  obtain ⟨reason,hr⟩ := Option.isSome_iff_exists.mp (Nat.find_spec hex)
  refine ⟨Nat.find hex + 1,reason,by omega,hr,?_⟩
  intro k hk hlt
  obtain ⟨m,rfl⟩ := Nat.exists_eq_add_of_lt hk
  have hmin := Nat.find_min hex (m := m) (by omega)
  simpa using hmin

omit [Inhabited L] in
theorem sampleLogits_greedy {sampling : SamplingParams} (h : sampling.temperature ≤ 0) (logits : L) (rnd : ℕ) :
    sampleLogits eng logits sampling rnd = eng.argmax logits := by
  unfold sampleLogits
  exact if_pos h

/-- The decode loop reaches the end of the greedy continuation. -/
theorem generateLoop_eq {sampling : SamplingParams} (htemp : sampling.temperature ≤ 0) (rnd : ℕ → ℕ)
    (h : M.EndsAt prompt stopIds maxTokens n reason) {k m : ℕ} {cache : KvCache P} {t : Token}
    (hk : k + (m + 1) = maxTokens) (hle : m + 1 ≤ n) (ht : t = eng.argmax (M.solo prompt (M.greedy prompt m)).1)
    (hstop : t ∉ stopIds) (hcache : iterKv cache = (M.solo prompt (M.greedy prompt m)).2.layers) :
    eng.generateLoop stopIds sampling rnd k t cache (M.greedy prompt (m + 1)) = .ok (M.greedy prompt n,reason) := by
  induction k generalizing m t cache with
  | zero =>
    have hv : verdict stopIds maxTokens (M.greedy prompt (m + 1)) = some .length := by
      rw [verdict_greedy,← ht,if_neg hstop,if_pos (by omega)]
    obtain ⟨hmn,hreason⟩ := h.of_verdict (by omega) hle hv
    rw [CachedEngine.generateLoop,hmn,hreason]
  | succ k ih =>
    have hv : verdict stopIds maxTokens (M.greedy prompt (m + 1)) = none := by
      rw [verdict_greedy,← ht,if_neg hstop,if_neg (by omega)]
    have hlt : m + 1 < n := by
      by_contra hge
      have hmn : m + 1 = n := by omega
      rw [hmn,h.ended] at hv
      cases hv
    obtain ⟨⟨logits,next⟩,hdecode,hlogits,hnextKv⟩ :
        ∃ r, eng.decode t cache = .ok r ∧ Holds r (M.solo prompt (M.greedy prompt (m + 1))) := by
      rw [greedy,← ht]
      exact M.decode_solo hcache t
    unfold CachedEngine.generateLoop
    simp only at hlogits hnextKv
    simp only [hdecode,sampleLogits_greedy htemp,hlogits]
    by_cases hnext : eng.argmax (M.solo prompt (M.greedy prompt (m + 1))).1 ∈ stopIds
    · have hv' : verdict stopIds maxTokens (M.greedy prompt (m + 1 + 1)) = some .stop := by
        rw [verdict_greedy,if_pos hnext]
      obtain ⟨hmn,hreason⟩ := h.of_verdict (by omega) hlt hv'
      rw [if_pos hnext,← hmn,← hreason]
      rfl
    · rw [if_neg hnext]
      exact ih (by omega) hlt rfl hnext hnextKv

theorem generateIds_eq {sampling : SamplingParams} (htemp : sampling.temperature ≤ 0) (hmax : 1 ≤ sampling.maxTokens)
    (hne : prompt ≠ []) (rnd : ℕ → ℕ)
    (h : M.EndsAt prompt (combinedStopIds eng.tokenizer sampling.stopTokenIds sampling.ignoreEos)
      sampling.maxTokens n reason) :
    eng.generateIds prompt sampling rnd =
      .ok (packResult eng.tokenizer prompt (M.greedy prompt n) reason "cached") := by
  obtain ⟨⟨logits,cache⟩,hprefill,hcomputes⟩ := M.prefill_computes hne
  obtain ⟨hlogits,hcache⟩ : Holds (logits,cache) (M.solo prompt (M.greedy prompt 0)) := M.holds_of_computes hcomputes
  simp only at hlogits hcache
  have htokens : eng.generateTokens prompt sampling rnd = .ok (M.greedy prompt n,reason) := by
    unfold CachedEngine.generateTokens
    simp only [hprefill,sampleLogits_greedy htemp,hlogits]
    by_cases hstop : eng.argmax (M.solo prompt (M.greedy prompt 0)).1 ∈
        combinedStopIds eng.tokenizer sampling.stopTokenIds sampling.ignoreEos
    · have hv := M.verdict_greedy prompt
        (combinedStopIds eng.tokenizer sampling.stopTokenIds sampling.ignoreEos) sampling.maxTokens 0
      rw [if_pos hstop] at hv
      obtain ⟨hn,hreason⟩ := h.of_verdict (by omega) h.pos hv
      rw [if_pos hstop,← hn,← hreason]
      rfl
    · rw [if_neg hstop]
      exact generateLoop_eq htemp rnd h (k := sampling.maxTokens - 1) (by omega) h.pos rfl hstop hcache
  rw [CachedEngine.generateIds,if_neg (Nat.not_lt.mpr hmax),htokens]
  rfl

include M in
theorem generateIds_nil {sampling : SamplingParams} (hmax : 1 ≤ sampling.maxTokens) (rnd : ℕ → ℕ) :
    eng.generateIds [] sampling rnd = .error noPosition := by
  rw [CachedEngine.generateIds,if_neg (Nat.not_lt.mpr hmax),CachedEngine.generateTokens,M.prefill_nil]
  rfl

end StepwiseModel
end FluxEngine
