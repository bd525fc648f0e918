import FluxEngine.Engine.FakeModel

/-! # The engine without a cache

It runs the whole sequence through the model for every token.  With a model
whose decode step on the KV of a list computes the extended list, both engines
generate the same tokens.  It has the fields of `CachedEngine`.
-/
namespace FluxEngine

namespace NaiveEngine
variable {P L : Type} [Inhabited L] (eng : CachedEngine P L)

def forward (inputIds : List Token) : Except Exc L :=
  (CachedEngine.lastLogits (eng.model { inputIds := [inputIds], useCache := false })).map
    (fun logits => logits.headD default)

/-- The loop of `generate_ids`, with the number of tokens still allowed. -/
def generateLoop (stopIds : List Token) (sampling : SamplingParams) (rnd : ℕ → ℕ) :
    ℕ → List Token → List Token → Except Exc (List Token × FinishReason)
  | 0, _, outputIds => .ok (outputIds,.length)
  | k+1, inputIds, outputIds =>
    match forward eng inputIds with
    | .error e => .error e
    | .ok logits =>
      let token := sampleLogits eng logits sampling (rnd outputIds.length)
      let outputIds := outputIds ++ [token]
      if token ∈ stopIds then .ok (outputIds,.stop)
      else generateLoop stopIds sampling rnd k (inputIds ++ [token]) outputIds

def generateIds (inputIds : List Token) (sampling : SamplingParams) (rnd : ℕ → ℕ) :
    Except Exc GenerateResult :=
  if sampling.maxTokens < 1 then .error "max_tokens must be >= 1"
  else
    let stopIds := combinedStopIds eng.tokenizer sampling.stopTokenIds sampling.ignoreEos
    (generateLoop eng stopIds sampling rnd sampling.maxTokens inputIds []).map (fun r =>
      packResult eng.tokenizer inputIds r.1 r.2 "naive")

end NaiveEngine

/-- Exact arithmetic for one sequence: a forward without a cache and a prefill give
the logits of a list, and decoding a token on a cache of the list gives the logits
and a cache of the extended list. -/
structure IncrementalModel {P L : Type} [Inhabited L] (model : Model P L) where
  positional : Positional model
  logits : List Token → L
  IsKv : List Token → KvCache P → Prop
  forward : ∀ ids, ids ≠ [] → CachedEngine.lastLogits (model { inputIds := [ids], useCache := false }) = .ok [logits ids]
  prefill : ∀ ids, ids ≠ [] → ∃ cache, CachedEngine.answer
    (model { inputIds := [ids], cachePosition := some (List.range ids.length) }) = .ok (logits ids,cache) ∧
    IsKv ids cache
  decode : ∀ ids token past, IsKv ids past → ∃ cache, CachedEngine.answer
    (model { inputIds := [[token]], pastKeyValues := some past, cachePosition := some [cacheSeqLen past] }) =
      .ok (logits (ids ++ [token]),cache) ∧ IsKv (ids ++ [token]) cache

namespace IncrementalModel
variable {P L : Type} [Inhabited L] {eng : CachedEngine P L} (M : IncrementalModel eng.model)

def Computes (r : L × KvCache P) (ids : List Token) : Prop := r.1 = M.logits ids ∧ M.IsKv ids r.2

theorem forward_eq {ids : List Token} (hne : ids ≠ []) : NaiveEngine.forward eng ids = .ok (M.logits ids) := by
  rw [NaiveEngine.forward,M.forward ids hne]
  rfl

theorem prefill_computes {ids : List Token} (hne : ids ≠ []) :
    ∃ r, eng.prefill ids = .ok r ∧ M.Computes r ids := by
  obtain ⟨cache,hanswer,hkv⟩ := M.prefill ids hne
  exact ⟨_,hanswer,rfl,hkv⟩

theorem decode_computes {ids : List Token} {cache : KvCache P} (h : M.IsKv ids cache) (token : Token) :
    ∃ r, eng.decode token cache = .ok r ∧ M.Computes r (ids ++ [token]) := by
  obtain ⟨next,hanswer,hkv⟩ := M.decode ids token cache h
  exact ⟨_,hanswer,rfl,hkv⟩

include M in
theorem prefill_nil : eng.prefill [] = .error noPosition := CachedEngine.answer_nil M.positional rfl

include M in
theorem forward_nil : NaiveEngine.forward eng [] = .error noPosition := by
  have hrows := M.positional { inputIds := [[]], useCache := false }
  obtain ⟨row,rest,hlogits,hrow,_⟩ := List.map_eq_cons_iff.mp hrows
  have hnil : row = [] := List.length_eq_zero_iff.mp hrow
  simp [NaiveEngine.forward,CachedEngine.lastLogits,hlogits,hnil,Except.map]

theorem loops_agree (stopIds : List Token) (sampling : SamplingParams) (rnd : ℕ → ℕ) {k : ℕ}
    {ids outputIds : List Token} {cache : KvCache P} (h : M.IsKv ids cache) (token : Token) :
    eng.generateLoop stopIds sampling rnd k token cache outputIds =
      NaiveEngine.generateLoop eng stopIds sampling rnd k (ids ++ [token]) outputIds := by
  induction k generalizing ids outputIds cache token with
  | zero => rfl
  | succ k ih =>
    obtain ⟨next,hdecode,hlogits,hkv⟩ := M.decode_computes h token
    unfold CachedEngine.generateLoop NaiveEngine.generateLoop
    have hne : ids ++ [token] ≠ [] := by simp
    simp only [hdecode,M.forward_eq hne,hlogits]
    split
    · rfl
    · exact ih hkv _

theorem exists_generateLoop (stopIds : List Token) (sampling : SamplingParams) (rnd : ℕ → ℕ) {k : ℕ}
    {ids outputIds : List Token} {cache : KvCache P} (h : M.IsKv ids cache) (token : Token) :
    ∃ r, eng.generateLoop stopIds sampling rnd k token cache outputIds = .ok r := by
  induction k generalizing ids outputIds cache token with
  | zero => exact ⟨_,rfl⟩
  | succ k ih =>
    obtain ⟨next,hdecode,_,hkv⟩ := M.decode_computes h token
    unfold CachedEngine.generateLoop
    simp only [hdecode]
    split
    · exact ⟨_,rfl⟩
    · exact ih hkv _

include M in
theorem tokens_agree (sampling : SamplingParams) (rnd : ℕ → ℕ) (ids : List Token) (hmax : 1 ≤ sampling.maxTokens) :
    NaiveEngine.generateLoop eng (combinedStopIds eng.tokenizer sampling.stopTokenIds sampling.ignoreEos) sampling rnd
      sampling.maxTokens ids [] = eng.generateTokens ids sampling rnd := by
  obtain ⟨k,hk⟩ := Nat.exists_eq_add_of_le' hmax
  unfold CachedEngine.generateTokens
  rw [hk,Nat.add_sub_cancel,NaiveEngine.generateLoop]
  by_cases hnil : ids = []
  · subst hnil
    rw [M.forward_nil,M.prefill_nil]
  · obtain ⟨first,hprefill,hlogits,hkv⟩ := M.prefill_computes hnil
    simp only [M.forward_eq hnil,hprefill,hlogits,List.nil_append,List.length_nil]
    split
    · rfl
    · rw [M.loops_agree _ sampling rnd hkv]

include M in
theorem generateIds_agree (ids : List Token) (sampling : SamplingParams) (rnd : ℕ → ℕ) :
    NaiveEngine.generateIds eng ids sampling rnd =
      (eng.generateIds ids sampling rnd).map (fun r => { r with engine := "naive" }) := by
  unfold NaiveEngine.generateIds CachedEngine.generateIds
  by_cases hmax : sampling.maxTokens < 1
  · rw [if_pos hmax,if_pos hmax]
    rfl
  · simp only [if_neg hmax,M.tokens_agree sampling rnd ids (Nat.not_lt.mp hmax)]
    cases eng.generateTokens ids sampling rnd with
    | error e => rfl
    | ok r => rfl

include M in
theorem generateIds_error_iff (ids : List Token) (sampling : SamplingParams) (rnd : ℕ → ℕ) :
    (∃ e, eng.generateIds ids sampling rnd = .error e) ↔ sampling.maxTokens < 1 ∨ ids = [] := by
  unfold CachedEngine.generateIds
  by_cases hmax : sampling.maxTokens < 1
  · simp [hmax]
  · rw [if_neg hmax]
    by_cases hnil : ids = []
    · subst hnil
      refine iff_of_true ⟨noPosition,?_⟩ (Or.inr rfl)
      rw [CachedEngine.generateTokens,M.prefill_nil]
      rfl
    · have hok : ∃ r, eng.generateTokens ids sampling rnd = .ok r := by
        obtain ⟨first,hprefill,_,hkv⟩ := M.prefill_computes hnil
        unfold CachedEngine.generateTokens
        simp only [hprefill]
        split
        · exact ⟨_,rfl⟩
        · exact M.exists_generateLoop _ sampling rnd hkv _
      obtain ⟨r,hr⟩ := hok
      rw [hr]
      refine iff_of_false ?_ (not_or.mpr ⟨hmax,hnil⟩)
      rintro ⟨e,he⟩
      cases he

end IncrementalModel

/-- Both engines return the same up to the engine's name.  On a prompt with tokens, and
`encode_text` refuses empty ones, both raise exactly when no token is allowed; without
any both raise. -/
theorem naive_and_cached_agree {P L : Type} [Inhabited L] (eng : CachedEngine P L) (M : IncrementalModel eng.model)
    (ids : List Token) (sampling : SamplingParams) (rnd : ℕ → ℕ) :
    NaiveEngine.generateIds eng ids sampling rnd =
        (eng.generateIds ids sampling rnd).map (fun r => { r with engine := "naive" }) ∧
      (ids ≠ [] → ((∃ e, NaiveEngine.generateIds eng ids sampling rnd = .error e) ↔ sampling.maxTokens < 1) ∧
        ((∃ e, eng.generateIds ids sampling rnd = .error e) ↔ sampling.maxTokens < 1)) ∧
      (ids = [] → (∃ e, NaiveEngine.generateIds eng ids sampling rnd = .error e) ∧
        ∃ e, eng.generateIds ids sampling rnd = .error e) := by
  have hboth : (∃ e, NaiveEngine.generateIds eng ids sampling rnd = .error e) ↔
      ∃ e, eng.generateIds ids sampling rnd = .error e := by
    rw [M.generateIds_agree]
    cases eng.generateIds ids sampling rnd with
    | error e => simp [Except.map]
    | ok r => simp [Except.map]
  rw [hboth,M.generateIds_error_iff]
  refine ⟨M.generateIds_agree ids sampling rnd,?_,?_⟩
  · intro hne
    simp only [hne,or_false,and_self]
  · intro hnil
    exact ⟨Or.inr hnil,Or.inr hnil⟩

/-- The stand-in is such a model: its caches hold one zero for each position. -/
def FakeLm.incremental (lm : FakeLm) (h : 0 < lm.nLayers) : IncrementalModel lm.engine.model where
  positional := lm.positional
  logits ids := lm.nextId (ids.getLastD 0)
  IsKv ids cache := iterKv cache = lm.zeros ids.length
  forward ids hne := by
    rw [lm.lastLogits_forward (by simpa using hne)]
    rfl
  prefill := (lm.stepwise h).prefill
  decode ids token past hpast := by
    rw [FakeLm.getLastD_append ids [token] (List.cons_ne_nil token [])]
    refine ⟨_,lm.answer_forward rfl (List.cons_ne_nil token []),?_⟩
    simp only [FakeLm.engine,FakeLm.forward,hpast,List.length_append]
    exact lm.extend_zeros ids.length 1

/-- Four tokens after two, and none to start from. -/
theorem naive_and_cached_agree_counting :
    NaiveEngine.generateIds (FakeLm.engine {}) [5,6] { maxTokens := 4, ignoreEos := true } (fun _ => 0) =
        ((FakeLm.engine {}).generateIds [5,6] { maxTokens := 4, ignoreEos := true } (fun _ => 0)).map
          (fun r => { r with engine := "naive" }) ∧
      ((FakeLm.engine {}).generateIds [5,6] { maxTokens := 4, ignoreEos := true } (fun _ => 0)).map
        (fun r => (r.outputTokenIds,r.finishReason,r.promptTokens,r.completionTokens)) =
          .ok ([7,8,9,10],.length,2,4) ∧
      ∃ e, NaiveEngine.generateIds (FakeLm.engine {}) [] { maxTokens := 4 } (fun _ => 0) = .error e := by
  have M := FakeLm.incremental {} (by decide)
  exact ⟨(naive_and_cached_agree _ M [5,6] _ _).1,by decide,((naive_and_cached_agree _ M [] _ _).2.2 rfl).1⟩

end FluxEngine
