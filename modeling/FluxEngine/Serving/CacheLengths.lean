import FluxEngine.Engine.Positions
import FluxEngine.Serving.PrefixMoves

/-! # How long the caches of the serving machine are

A stored prefix is as long as its key.  What a model call returned for a
sequence has a position for every token of the prompt and the output, and the
cache of the sequence lacks the one of its last token.
-/
namespace FluxEngine
open Transition
variable {P L : Type} {eng : CachedEngine P L} {s t : System P L} {i : SeqId} {nLayers : ℕ}

def Sequence.tokens (seq : Sequence P L) : ℕ := seq.promptTokenIds.length + seq.outputIds.length

theorem Sequence.tokens_of_life {x y : Sequence P L} (h : x.life = y.life) : x.tokens = y.tokens :=
  eq_of_life Sequence.tokens (fun _ => rfl) h

/-- The caches of a sequence fit its tokens. -/
structure Sized (nLayers : ℕ) (own : Own P L) : Prop where
  bound : AppendingModel.BoundShaped nLayers own.1
  box : ∀ r, own.2 = some r → r.2.Shaped nLayers 1 own.1.tokens
  cache : ∀ kv, own.1.kvCache = some kv → ∃ n, kv.Shaped nLayers 1 n ∧ n + 1 = own.1.tokens

theorem sized_fresh (prompt : List Token) (sampling : SamplingParams) :
    Sized nLayers (({ promptTokenIds := prompt, sampling := sampling } : Sequence P L),none) := by
  refine ⟨?_,?_,?_⟩
  · rintro _ ⟨⟩
  · rintro _ ⟨⟩
  · rintro _ ⟨⟩

theorem LifeStep.sized {a b : Own P L} (h : LifeStep eng a b) (ha : Sized nLayers a)
    (hb : AppendingModel.BoundShaped nLayers b.1) : Sized nLayers b := by
  have hclosed : ∀ {x y mark : Sequence P L} {box : Option (L × KvCache P)}, Sized nLayers (x,box) →
      AppendingModel.BoundShaped nLayers y → y.life = mark.closed.life → mark.tokens = x.tokens →
      Sized nLayers (y,box) := by
    intro x y mark box hx hy hlife hmark
    have htokens : y.tokens = x.tokens := (Sequence.tokens_of_life hlife).trans hmark
    refine ⟨hy,?_,?_⟩
    · intro r hr
      simp only [htokens]
      exact hx.box r hr
    · intro kv hkv
      have hnone : y.kvCache = none := Sequence.eq_of_life Sequence.kvCache (fun _ => rfl) hlife
      simp only [hnone] at hkv
      cases hkv
  cases h with
  | @same x y box hlife =>
    have htokens : y.tokens = x.tokens := Sequence.tokens_of_life hlife
    have hcache : y.kvCache = x.kvCache := Sequence.eq_of_life Sequence.kvCache (fun _ => rfl) hlife
    refine ⟨hb,?_,?_⟩
    · simp only [htokens]
      exact ha.box
    · simp only [htokens,hcache]
      exact ha.cache
  | requestAbort => exact ⟨hb,ha.box,ha.cache⟩
  | setStatus _ _ => exact ⟨hb,ha.box,ha.cache⟩
  | @note x logits kv rnd _ _ =>
    -- the cache of the call whose logits were sampled becomes the cache of the sequence
    refine ⟨hb,?_,?_⟩
    · rintro _ ⟨⟩
    · rintro _ ⟨⟩
      refine ⟨_,ha.box _ rfl,?_⟩
      rw [Sequence.noteToken_eq]
      simp [Sequence.tokens,Nat.add_assoc]
  | abort _ hy => exact hclosed ha hb hy rfl
  | fail _ hy => exact hclosed ha hb hy rfl
  | finish _ _ hy => exact hclosed ha hb hy rfl

theorem Sized.putBox {x : Sequence P L} {box : Option (L × KvCache P)} (h : Sized nLayers (x,box)) {r : L × KvCache P}
    (hr : r.2.Shaped nLayers 1 x.tokens) : Sized nLayers (x,some r) := by
  refine ⟨h.bound,?_,h.cache⟩
  rintro _ ⟨⟩
  exact hr

namespace System

/-- Stored prefixes are as long as their keys, and sequences have caches that fit. -/
structure Lengths (nLayers : ℕ) (s : System P L) : Prop where
  stored : ∀ k x, s.scheduler.contentAt k = some x → x.2.1.Shaped nLayers 1 k.length
  sized : ∀ i ∈ s.accepted, Sized nLayers (s.own i)

theorem Lengths.hit (h : s.Lengths nLayers) {prompt : List Token} {hit : PrefixHit P L}
    (hpeek : s.scheduler.peekPrefix prompt = some hit) :
    hit.kvCache.Shaped nLayers 1 hit.nTokens ∧ hit.nTokens ≤ prompt.length := by
  obtain ⟨c,e,hc,_,hhit⟩ := Scheduler.peekPrefix_eq_some hpeek
  have hcontent : s.scheduler.contentAt hit.tokenIds = some e.content := by
    simp only [Scheduler.contentAt,hc,Option.bind_some,hhit.stored,Option.map_some]
  have hshape := h.stored _ _ hcontent
  rw [hhit.length_key] at hshape
  rw [hhit.kvCache]
  exact ⟨hshape,hhit.atMost⟩

end System

namespace AppendingModel
variable [Inhabited P] [Inhabited L] (M : AppendingModel eng.model)
include M

theorem bound_step (hb : s.Books False) (h : s.Lengths M.nLayers) {ev : Event} (hst : Step eng ev s t)
    (hi : i ∈ s.accepted) (hprompt : (t.heap i).promptTokenIds = (s.heap i).promptTokenIds) :
    BoundShaped M.nLayers (t.heap i) := by
  have hcongr : ∀ {n kv lg}, (t.heap i).prefixUse = (n,kv,lg) →
      (∀ cache, kv = some cache → cache.Shaped M.nLayers 1 n ∧ n ≤ (s.heap i).promptTokenIds.length) →
      BoundShaped M.nLayers (t.heap i) := by
    intro n kv lg huse hkv cache hcache
    simp only [Sequence.prefixUse,Prod.mk.injEq] at huse
    rw [huse.1,hprompt]
    exact hkv cache (huse.2.1.symm.trans hcache)
  cases hst.prefixMove hb hi with
  | keep huse _ => exact hcongr huse (h.sized i hi).bound
  | drop _ hnone =>
    intro cache hcache
    rw [hnone] at hcache
    cases hcache
  | take hit _ hpeek huse _ =>
    refine hcongr huse ?_
    rintro _ ⟨⟩
    exact h.hit hpeek

theorem sized_putBatch (h : s.Lengths M.nLayers) {live : List SeqId} {r : List L × List (KvCache P)}
    (hl : ∀ i ∈ live, s.Live i ∧ (s.heap i).lastToken.isSome ∧ (s.heap i).kvCache.isSome)
    (hr : eng.decodeBatch (live.map (fun i => (s.heap i).lastToken.getD 0))
      (live.map (fun i => (s.heap i).kvCache.getD (.legacy []))) = .ok r) :
    ∀ i ∈ s.accepted, Sized M.nLayers ((s.putBatch live r).own i) := by
  have hrows : ∀ i ∈ live, ((s.heap i).kvCache.getD (.legacy [])).Shaped M.nLayers 1 ((s.heap i).tokens - 1) ∧
      0 < (s.heap i).tokens := by
    intro i hi
    obtain ⟨kv,hkv⟩ := Option.isSome_iff_exists.mp (hl i hi).2.2
    obtain ⟨n,hn,hlen⟩ := (h.sized i (hl i hi).1.1).cache kv hkv
    have htokens : n + 1 = (s.heap i).tokens := hlen
    rw [hkv,Option.getD_some,← htokens,Nat.add_sub_cancel]
    exact ⟨hn,Nat.succ_pos n⟩
  intro i hi
  by_cases hil : i ∈ live
  · obtain ⟨kv,hkv,hshape⟩ := M.decodeBatch_shaped (fun i => (s.heap i).lastToken.getD 0)
      (fun i hi => (hrows i hi).1) hr (List.getElem?_idxOf hil)
    have hown : (s.putBatch live r).own i = (s.heap i,some (r.1.getD (live.idxOf i) default,kv)) := by
      simp only [System.own,System.putBatch,if_pos hil,List.getD_eq_getElem?_getD,hkv,Option.getD_some]
    rw [hown]
    refine Sized.putBox (h.sized i hi) ?_
    rwa [Nat.sub_add_cancel (hrows i hil).2] at hshape
  · have hown : (s.putBatch live r).own i = s.own i := by
      simp only [System.own,System.putBatch,if_neg hil]
    rw [hown]
    exact h.sized i hi

omit [Inhabited P] [Inhabited L] in
theorem sized_putOutbox (h : s.Lengths M.nLayers) {j : SeqId} {r : L × KvCache P}
    (hr : r.2.Shaped M.nLayers 1 (s.heap j).tokens) : ∀ i ∈ s.accepted, Sized M.nLayers ((s.putOutbox j r).own i) := by
  intro i hi
  by_cases hij : i = j
  · subst hij
    simp only [System.own,System.putOutbox,Function.update_self]
    exact Sized.putBox (h.sized i hi) hr
  · have hown : (s.putOutbox j r).own i = s.own i := by
      simp only [System.own,System.putOutbox,Function.update_of_ne hij]
    rw [hown]
    exact h.sized i hi

theorem lengths_step (hs : Reachable eng s) (h : s.Lengths M.nLayers) {ev : Event} (hst : Step eng ev s t) :
    t.Lengths M.nLayers := by
  have hb := books_of_reachable hs
  constructor
  · intro k x hk
    rcases hst.contentAt hk with hold | ⟨j,logits,kv,n,hj,ho,hbox,hn,rfl,rfl⟩
    · exact h.stored k x hold
    · have hshape := (h.sized j hj).box _ hbox
      simp only [System.own,Sequence.tokens,ho,List.length_nil,Nat.add_zero] at hshape
      rw [List.length_take,Nat.min_eq_left hn]
      exact hshape.slice hn
  · cases hev : ev.isCall with
    | true =>
      cases hst with
      | @prefill _ j r hj ho hr =>
        refine M.sized_putOutbox h ?_
        have hshape := M.prefillWithReuse_shaped (h.sized j hj.1).bound hr
        simpa [System.own,Sequence.tokens,ho] using hshape
      | @decode _ j tok kv r hj _ hkv hr =>
        refine M.sized_putOutbox h ?_
        obtain ⟨n,hn,hlen⟩ := (h.sized j hj.1).cache kv hkv
        have htokens : n + 1 = (s.heap j).tokens := hlen
        rw [← htokens]
        exact M.decode_shaped hn hr
      | decodeBatch hl hr => exact M.sized_putBatch h hl hr
      | _ => cases hev
    | false =>
      intro i hi
      by_cases hold : i ∈ s.accepted
      · have hlife := hst.life hb hev hold
        exact hlife.sized (h.sized i hold) (M.bound_step hb h hst hold (congrArg Prod.fst hlife.request_eq))
      · rcases hst.accepted with heq | ⟨j,prompt,sampling,_,heq,hheap,hout⟩
        · exact absurd (heq ▸ hi) hold
        · have hij : i = j := by
            rw [heq] at hi
            exact List.mem_singleton.mp ((List.mem_append.mp hi).resolve_left hold)
          subst hij
          have hnone : s.outbox i = none := by
            by_contra hne
            exact hold (hs.admitted_of_outbox hne).1
          rw [System.own,hheap,hout,hnone]
          exact sized_fresh prompt sampling

theorem lengths_of_reachable (h : Reachable eng s) : s.Lengths M.nLayers := by
  have hinv : Reachable eng s ∧ s.Lengths M.nLayers := by
    refine h.invariant (I := fun s => Reachable eng s ∧ s.Lengths M.nLayers) ?_ ?_
    · intro s h0
      refine ⟨⟨s,h0,.refl s⟩,?_,?_⟩
      · intro k x hk
        obtain ⟨c,hc,hk⟩ := Option.bind_eq_some_iff.mp hk
        rw [(h0.cache c hc).1] at hk
        cases hk
      · rw [h0.accepted]
        simp
    · rintro ev s t ⟨⟨s₀,h0,hr⟩,hl⟩ hst
      exact ⟨⟨s₀,h0,hr.tail hst⟩,M.lengths_step ⟨s₀,h0,hr⟩ hl hst⟩
  exact hinv.2

end AppendingModel
end FluxEngine
