import FluxEngine.Engine.Solo
import FluxEngine.Serving.Life
import FluxEngine.Serving.PrefixSoundness

/-! # Serving generates what the prompt alone generates

Every sequence of the serving machine follows its solo run: its caches and
logits are those of its prompt and output, whatever the batches and the prefixes
were, and a greedy sequence has a prefix of the greedy continuation as output.
-/
namespace FluxEngine
open OrderedDict Transition
namespace StepwiseModel
variable {P L : Type} [Inhabited L] {eng : CachedEngine P L} (M : StepwiseModel eng.model)

def judge (eng : CachedEngine P L) (x : Sequence P L) (outs : List Token) : Option FinishReason :=
  verdict (combinedStopIds eng.tokenizer x.sampling.stopTokenIds x.sampling.ignoreEos) x.sampling.maxTokens outs

/-- A sequence and its last model call are at a point of the solo run. -/
structure Follows (x : Sequence P L) (box : Option (L × KvCache P)) : Prop where
  nonempty : box.isSome ∨ x.outputIds ≠ [] → x.promptTokenIds ≠ []
  reason : x.finishReason = judge eng x x.outputIds
  early : ∀ n, 0 < n → n < x.outputIds.length → judge eng x (x.outputIds.take n) = none
  greedy : x.sampling.temperature ≤ 0 → x.outputIds = M.greedy x.promptTokenIds x.outputIds.length
  cache : ∀ kv, x.kvCache = some kv → ∃ outs t, x.outputIds = outs ++ [t] ∧ x.lastToken = some t ∧
    iterKv kv = (M.solo x.promptTokenIds outs).2.layers
  box : ∀ r, box = some r → Holds r (M.solo x.promptTokenIds x.outputIds)

namespace Follows
variable {M} {x y : Sequence P L} {box : Option (L × KvCache P)} {a b : Own P L}

theorem life_iff : M.Follows x.life box ↔ M.Follows x box :=
  ⟨fun h => ⟨h.nonempty,h.reason,h.early,h.greedy,h.cache,h.box⟩,
    fun h => ⟨h.nonempty,h.reason,h.early,h.greedy,h.cache,h.box⟩⟩

theorem congr (hl : y.life = x.life) (h : M.Follows x box) : M.Follows y box := by
  rw [← life_iff,hl,life_iff]
  exact h

theorem closed (h : M.Follows x box) {mark : Sequence P L} (hy : y.life = mark.closed.life)
    (hg : mark.generated = x.generated) : M.Follows y box := by
  refine congr hy ?_
  obtain ⟨hne,hr,he,hgr,_,hb⟩ := h
  simp only [Sequence.generated,Prod.mk.injEq] at hg
  obtain ⟨h1,h2,h3,_,h5⟩ := hg
  constructor
  · simp only [Sequence.closed,h1,h3]
    exact hne
  · simp only [Sequence.closed,judge,h2,h3,h5]
    exact hr
  · simp only [Sequence.closed,judge,h2,h3]
    exact he
  · simp only [Sequence.closed,h1,h2,h3]
    exact hgr
  · rintro _ ⟨⟩
  · simp only [Sequence.closed,h1,h3]
    exact hb

/-- Sampling the logits of the solo run is one step of it. -/
theorem noteToken {logits : L} {kv : KvCache P} (rnd : ℕ) (h : M.Follows x (some (logits,kv)))
    (hf : x.finishReason = none) :
    M.Follows { x.noteToken (sampleLogits eng logits x.sampling rnd)
      (combinedStopIds eng.tokenizer x.sampling.stopTokenIds x.sampling.ignoreEos) with kvCache := some kv } none := by
  obtain ⟨hne,hr,he,hgr,_,hb⟩ := h
  obtain ⟨hlg,hkv⟩ := hb _ rfl
  rw [Sequence.noteToken_eq]
  constructor
  · exact fun _ => hne (Or.inl rfl)
  · simp only [judge,verdict_append,List.length_append,List.length_singleton,hf]
  · intro n hn hlt
    simp only [List.length_append,List.length_singleton] at hlt
    rw [List.take_append_of_le_length (by omega)]
    by_cases hlast : n = x.outputIds.length
    · rw [hlast,List.take_length]
      exact (hf.symm.trans hr).symm
    · exact he n hn (by omega)
  · intro htemp
    have htok : sampleLogits eng logits x.sampling rnd = eng.argmax (M.solo x.promptTokenIds x.outputIds).1 := by
      rw [sampleLogits_greedy htemp,← hlg]
    have hnext : M.greedy x.promptTokenIds (x.outputIds.length + 1) =
        x.outputIds ++ [eng.argmax (M.solo x.promptTokenIds x.outputIds).1] := by
      rw [StepwiseModel.greedy,← hgr htemp]
    simp only [htok,List.length_append,List.length_singleton]
    exact hnext.symm
  · rintro _ ⟨⟩
    exact ⟨_,_,rfl,rfl,hkv⟩
  · rintro _ ⟨⟩

theorem step (h : M.Follows a.1 a.2) (hs : LifeStep eng a b) : M.Follows b.1 b.2 := by
  cases hs with
  | same hl => exact congr hl h
  | requestAbort => exact ⟨h.nonempty,h.reason,h.early,h.greedy,h.cache,h.box⟩
  | setStatus _ _ => exact ⟨h.nonempty,h.reason,h.early,h.greedy,h.cache,h.box⟩
  | note _ hf => exact h.noteToken _ hf
  | abort _ hy => exact h.closed hy rfl
  | fail _ hy => exact h.closed hy rfl
  | finish _ _ hy => exact h.closed hy rfl

theorem fresh (prompt : List Token) (sampling : SamplingParams) :
    M.Follows { promptTokenIds := prompt, sampling := sampling } none := by
  refine ⟨fun h => by simp at h,rfl,?_,fun _ => rfl,?_,?_⟩
  · intro n _ hlt
    exact absurd hlt (by simp)
  · rintro _ ⟨⟩
  · rintro _ ⟨⟩

theorem putBox (h : M.Follows x box) {r : L × KvCache P} (hne : x.promptTokenIds ≠ [])
    (hr : Holds r (M.solo x.promptTokenIds x.outputIds)) : M.Follows x (some r) := by
  refine ⟨fun _ => hne,h.reason,h.early,h.greedy,h.cache,?_⟩
  rintro _ ⟨⟩
  exact hr

end Follows

variable {M} {s t : System P L} {i : SeqId}

theorem rows_of_follows (h : ∀ i ∈ s.accepted, M.Follows (s.heap i) (s.outbox i)) {live : List SeqId}
    (hl : ∀ i ∈ live, s.Live i ∧ (s.heap i).lastToken.isSome ∧ (s.heap i).kvCache.isSome) :
    Rows M.nLayers live (fun i => (s.heap i).kvCache.getD (.legacy []))
      (fun i => (M.solo (s.heap i).promptTokenIds (s.heap i).outputIds.dropLast).2)
      (fun i => (s.heap i).promptTokenIds.length + (s.heap i).outputIds.dropLast.length) := by
  intro i hi
  obtain ⟨hlive,_,hkv⟩ := hl i hi
  obtain ⟨kv,hkv⟩ := Option.isSome_iff_exists.mp hkv
  obtain ⟨outs,t,hout,_,hcache⟩ := (h i hlive.1).cache kv hkv
  simp only [hkv,Option.getD_some,hout,List.dropLast_concat]
  exact ⟨hcache,M.solo_fits _ _⟩

variable [Inhabited P]

theorem follows_putBatch (h : ∀ i ∈ s.accepted, M.Follows (s.heap i) (s.outbox i)) {live : List SeqId}
    {r : List L × List (KvCache P)}
    (hl : ∀ i ∈ live, s.Live i ∧ (s.heap i).lastToken.isSome ∧ (s.heap i).kvCache.isSome)
    (hr : eng.decodeBatch (live.map (fun i => (s.heap i).lastToken.getD 0))
      (live.map (fun i => (s.heap i).kvCache.getD (.legacy []))) = .ok r) :
    ∀ i ∈ s.accepted, M.Follows ((s.putBatch live r).heap i) ((s.putBatch live r).outbox i) := by
  intro i hi
  by_cases hil : i ∈ live
  · have hne : live ≠ [] := List.ne_nil_of_mem hil
    obtain ⟨r',hr',hrow⟩ := M.decodeBatch_holds (fun i => (s.heap i).lastToken.getD 0) (rows_of_follows h hl) hne
    rw [hr] at hr'
    cases hr'
    obtain ⟨logits,kv,hlg,hkv,hholds⟩ := hrow _ i (List.getElem?_idxOf hil)
    obtain ⟨kv₀,hkv₀⟩ := Option.isSome_iff_exists.mp (hl i hil).2.2
    obtain ⟨outs,t,hout,hlast,_⟩ := (h i hi).cache kv₀ hkv₀
    have hbox : (s.putBatch live r).outbox i = some (logits,kv) := by
      simp only [System.putBatch,if_pos hil,List.getD_eq_getElem?_getD,hlg,hkv,Option.getD_some]
    rw [hbox]
    refine (h i hi).putBox ((h i hi).nonempty (Or.inr (by simp [hout]))) ?_
    rw [hout]
    rwa [M.grow_solo,hout,List.dropLast_concat,hlast,Option.getD_some] at hholds
  · simp only [System.putBatch,if_neg hil]
    exact h i hi

omit [Inhabited P] in
theorem follows_putOutbox (h : ∀ i ∈ s.accepted, M.Follows (s.heap i) (s.outbox i)) {j : SeqId} {r : L × KvCache P}
    (hne : (s.heap j).promptTokenIds ≠ []) (hr : Holds r (M.solo (s.heap j).promptTokenIds (s.heap j).outputIds)) :
    ∀ i ∈ s.accepted, M.Follows ((s.putOutbox j r).heap i) ((s.putOutbox j r).outbox i) := by
  intro i hi
  by_cases hij : i = j
  · subst hij
    simp only [System.putOutbox,Function.update_self]
    exact (h i hi).putBox hne hr
  · simp only [System.putOutbox,Function.update_of_ne hij]
    exact h i hi

theorem follows_step (hb : s.Books False) (hs : M.Sound s) (h : ∀ i ∈ s.accepted, M.Follows (s.heap i) (s.outbox i)) {ev : Event}
    (hst : Step eng ev s t) : ∀ i ∈ t.accepted, M.Follows (t.heap i) (t.outbox i) := by
  cases hev : ev.isCall with
  | true =>
    cases hst with
    | @prefill _ j r hj ho hr =>
      obtain ⟨hne,hc⟩ := M.computes_of_prefillWithReuse (hs.bound j hj.1) hr
      refine follows_putOutbox h hne ?_
      rw [ho]
      exact M.holds_of_computes hc
    | @decode _ j tok kv r hj ht hkv hr =>
      obtain ⟨outs,t,hout,hlast,hcache⟩ := (h j hj.1).cache kv hkv
      refine follows_putOutbox h ((h j hj.1).nonempty (Or.inr (by simp [hout]))) ?_
      rw [ht] at hlast
      cases hlast
      obtain ⟨r',hr',hholds⟩ := M.decode_solo hcache tok
      rw [hr] at hr'
      cases hr'
      rw [hout]
      exact hholds
    | decodeBatch hl hr => exact follows_putBatch h hl hr
    | _ => cases hev
  | false =>
    intro i hi
    by_cases hold : i ∈ s.accepted
    · exact (h i hold).step (hst.life hb hev hold)
    · rcases hst.accepted with heq | ⟨j,prompt,sampling,_,heq,hheap,hout⟩
      · rw [heq] at hi
        exact absurd hi hold
      · rw [heq] at hi
        rcases List.mem_append.mp hi with hi | hi
        · exact absurd hi hold
        · rw [List.mem_singleton] at hi
          subst hi
          rw [hheap,hout,hs.unknown i hold]
          exact .fresh prompt sampling

variable (M) in
theorem follows_of_reachable (h : Reachable eng s) : ∀ i ∈ s.accepted, M.Follows (s.heap i) (s.outbox i) := by
  have hinv : (s.Books False ∧ M.Sound s) ∧ ∀ i ∈ s.accepted, M.Follows (s.heap i) (s.outbox i) := by
    refine h.invariant (I := fun s => (s.Books False ∧ M.Sound s) ∧ ∀ i ∈ s.accepted, M.Follows (s.heap i) (s.outbox i)) ?_ ?_
    · intro s h0
      refine ⟨⟨h0.books,M.sound_of_initial h0⟩,?_⟩
      rw [h0.accepted]
      simp
    · rintro ev s t ⟨⟨hb,hs⟩,hf⟩ hst
      exact ⟨⟨hb.step hst False.elim,hs.step hb hst⟩,follows_step hb hs hf hst⟩
  exact hinv.2

include M in
/-- A greedy sequence has a prefix of the solo output, and all of it once it has
finished; where the prompt is empty the solo run raises, and nothing is generated. -/
theorem serves_solo (h : Reachable eng s) (hi : i ∈ s.accepted) (htemp : (s.heap i).sampling.temperature ≤ 0)
    (hmax : 1 ≤ (s.heap i).sampling.maxTokens) (rnd : ℕ → ℕ) :
    ((s.heap i).promptTokenIds ≠ [] →
      ∃ r, eng.generateIds (s.heap i).promptTokenIds (s.heap i).sampling rnd = .ok r ∧
        (s.heap i).outputIds <+: r.outputTokenIds ∧
        ((s.heap i).status = .finished → (s.heap i).outputIds = r.outputTokenIds ∧
          (s.heap i).finishReason = some r.finishReason)) ∧
    ((s.heap i).promptTokenIds = [] →
      eng.generateIds [] (s.heap i).sampling rnd = .error noPosition ∧
        (s.heap i).outputIds = [] ∧ (s.heap i).status ≠ .finished) := by
  obtain ⟨hne,hreason,hearly,hgreedy,_,_⟩ := M.follows_of_reachable h i hi
  have houts := hgreedy htemp
  refine ⟨?_,?_⟩
  rotate_left
  · intro hnil
    have hempty : (s.heap i).outputIds = [] := by
      by_contra hout
      exact hne (Or.inr hout) hnil
    refine ⟨M.generateIds_nil hmax rnd,hempty,?_⟩
    intro hfin
    obtain ⟨reason,_,hr,_⟩ := (h.concluded hi).finished hfin
    rw [hr,hempty] at hreason
    cases hreason
  intro hprompt
  obtain ⟨n,reason,hend⟩ : ∃ n reason, M.EndsAt (s.heap i).promptTokenIds
      (combinedStopIds eng.tokenizer (s.heap i).sampling.stopTokenIds (s.heap i).sampling.ignoreEos)
      (s.heap i).sampling.maxTokens n reason := exists_endsAt hmax
  have hle : (s.heap i).outputIds.length ≤ n := by
    by_contra hlt
    have hnone := hearly n hend.pos (by omega)
    rw [houts,M.greedy_eq_take _ (by omega),judge,hend.ended] at hnone
    cases hnone
  refine ⟨_,generateIds_eq htemp hmax hprompt rnd hend,?_,?_⟩
  · rw [houts]
    exact M.greedy_prefix _ hle
  · intro hfin
    obtain ⟨reason',_,hr',_⟩ := (h.concluded hi).finished hfin
    rw [hr',judge,houts] at hreason
    have hpos : 0 < (s.heap i).outputIds.length := by
      by_contra hz
      rw [Nat.eq_zero_of_not_pos hz] at hreason
      cases hreason
    obtain ⟨hn,heq⟩ := hend.of_verdict hpos hle hreason.symm
    rw [hr',heq,← hn]
    exact ⟨houts,rfl⟩

end StepwiseModel
end FluxEngine
