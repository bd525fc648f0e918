import FluxEngine.Server.Responses

/-! # What the HTTP layer asks of the engine

A validated body wants at least one token; the handlers cut what it wants to a
cap and to the room that the prompt leaves.
-/
namespace FluxEngine

structure Settings where
  maxSeqLen : ℕ := 1024
  maxNewTokensCap : ℕ := 64

/-- The sampling fields of a validated body. -/
structure SamplingFields where
  temperature : ℚ
  topP : ℚ
  maxTokens : ℕ
  temperature_nonneg : 0 ≤ temperature
  topP_range : 0 < topP ∧ topP ≤ 1
  maxTokens_pos : 1 ≤ maxTokens

namespace Settings
variable (settings : Settings)

/-- `_sampling`. -/
def sampling (temperature topP : ℚ) (maxTokens : ℕ) : SamplingParams where
  temperature := temperature
  topP := topP
  maxTokens := min maxTokens settings.maxNewTokensCap

/-- `_fit_max_seq`. -/
def fitMaxSeq (inputIds : List Token) (sampling : SamplingParams) : Except HttpException SamplingParams :=
  let promptLen := inputIds.length
  if settings.maxSeqLen < promptLen then
    .error ⟨400,s!"prompt length {promptLen} exceeds max_seq_len {settings.maxSeqLen}"⟩
  else
    let room := settings.maxSeqLen - promptLen
    if room < 1 then .error ⟨400,"prompt already at max_seq_len"⟩
    else if room < sampling.maxTokens then .ok { sampling with maxTokens := room }
    else .ok sampling

/-- Some body with this prompt is passed on with this sampling. -/
def Accepts (promptIds : List Token) (sampling : SamplingParams) : Prop :=
  ∃ body : SamplingFields,
    settings.fitMaxSeq promptIds (settings.sampling body.temperature body.topP body.maxTokens) = .ok sampling

variable {settings} {promptIds : List Token} {wanted sampling : SamplingParams}

theorem fitMaxSeq_ok (h : settings.fitMaxSeq promptIds wanted = .ok sampling) :
    promptIds.length < settings.maxSeqLen ∧
      sampling = { wanted with maxTokens := min wanted.maxTokens (settings.maxSeqLen - promptIds.length) } := by
  unfold fitMaxSeq at h
  simp only at h
  split at h
  · cases h
  · split at h
    · cases h
    · refine ⟨by omega,?_⟩
      split at h
      · rename_i hroom
        cases h
        rw [Nat.min_eq_right hroom.le]
      · rename_i hroom
        cases h
        rw [Nat.min_eq_left (Nat.not_lt.mp hroom)]

theorem Accepts.fits (h : settings.Accepts promptIds sampling) :
    promptIds.length + max 1 sampling.maxTokens ≤ settings.maxSeqLen := by
  obtain ⟨body,h⟩ := h
  obtain ⟨hroom,rfl⟩ := fitMaxSeq_ok h
  simp only
  omega

theorem Accepts.maxTokens_pos (h : settings.Accepts promptIds sampling) (hcap : 1 ≤ settings.maxNewTokensCap) :
    1 ≤ sampling.maxTokens := by
  obtain ⟨body,h⟩ := h
  obtain ⟨hroom,rfl⟩ := fitMaxSeq_ok h
  have hbody := body.maxTokens_pos
  simp only [Settings.sampling]
  omega

end Settings
end FluxEngine
