import FluxEngine.Serving.Life

/-! # How far a sequence has got

What the output of a sequence says about its end, in every reachable state.
-/
namespace FluxEngine
variable {P L : Type} {eng : CachedEngine P L} {s : System P L} {i : SeqId}

def Sequence.stopIds (eng : CachedEngine P L) (x : Sequence P L) : List Token :=
  combinedStopIds eng.tokenizer x.sampling.stopTokenIds x.sampling.ignoreEos

/-- The output of a sequence that goes on has no stop token and less than
`max_tokens` tokens; what has a reason to end has output. -/
structure Paced (eng : CachedEngine P L) (x : Sequence P L) : Prop where
  length : x.outputIds.length ≤ max 1 x.sampling.maxTokens
  below : x.finishReason = none → x.outputIds = [] ∨ x.outputIds.length < x.sampling.maxTokens
  stops : x.finishReason = none → ∀ token ∈ x.outputIds, token ∉ x.stopIds eng
  lastToken : x.lastToken = x.outputIds.getLast?
  reason : x.finishReason ≠ none → x.outputIds ≠ []

namespace Paced
variable {x y : Sequence P L} {a b : Own P L}

theorem life_iff : Paced eng x.life ↔ Paced eng x :=
  ⟨fun h => ⟨h.length,h.below,h.stops,h.lastToken,h.reason⟩,fun h => ⟨h.length,h.below,h.stops,h.lastToken,h.reason⟩⟩

theorem congr (hl : y.life = x.life) (h : Paced eng x) : Paced eng y := by
  rw [← life_iff,hl,life_iff]
  exact h

theorem noteToken {token : Token} (h : Paced eng x) (hf : x.finishReason = none) {cache : Option (KvCache P)} :
    Paced eng { x.noteToken token (x.stopIds eng) with kvCache := cache } := by
  have hlen : x.outputIds.length < max 1 x.sampling.maxTokens := by
    rcases h.below hf with hnil | hlt
    · rw [hnil,List.length_nil]
      exact lt_max_of_lt_left Nat.one_pos
    · exact lt_max_of_lt_right hlt
  rw [Sequence.noteToken_eq]
  refine ⟨?_,?_,?_,?_,?_⟩
  · simp only [List.length_append,List.length_singleton]
    exact hlen
  · simp only [List.length_append,List.length_singleton,hf]
    intro hr
    split at hr
    · cases hr
    · split at hr
      · cases hr
      · rename_i hlt
        exact Or.inr (Nat.not_le.mp hlt)
  · simp only [hf]
    intro hr
    split at hr
    · cases hr
    · rename_i htok
      intro tok hmem
      rcases List.mem_append.mp hmem with hmem | hmem
      · exact h.stops hf tok hmem
      · rw [List.mem_singleton.mp hmem]
        exact htok
  · simp
  · simp

theorem step (h : Paced eng a.1) (hs : LifeStep eng a b) : Paced eng b.1 := by
  cases hs with
  | same hl => exact congr hl h
  | requestAbort => exact ⟨h.length,h.below,h.stops,h.lastToken,h.reason⟩
  | setStatus _ _ => exact ⟨h.length,h.below,h.stops,h.lastToken,h.reason⟩
  | note _ hf => exact h.noteToken hf
  | abort _ hy => exact congr hy ⟨h.length,h.below,h.stops,h.lastToken,h.reason⟩
  | fail _ hy => exact congr hy ⟨h.length,h.below,h.stops,h.lastToken,h.reason⟩
  | finish _ _ hy => exact congr hy ⟨h.length,h.below,h.stops,h.lastToken,h.reason⟩

end Paced

variable [Inhabited P] [Inhabited L]

theorem Reachable.paced (h : Reachable eng s) (hi : i ∈ s.accepted) : Paced eng (s.heap i) := by
  refine h.life_invariant ?_ (fun _ _ hab ha => ha.step hab) i hi
  intro prompt sampling
  exact ⟨Nat.zero_le _,fun _ => Or.inl rfl,by simp,rfl,by simp⟩

end FluxEngine
