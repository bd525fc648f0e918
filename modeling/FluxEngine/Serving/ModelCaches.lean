import FluxEngine.Engine.ModelCalls
import FluxEngine.Serving.PrefixMoves
import FluxEngine.Serving.Sites

/-! # The representation of the caches that reach the model

A Hugging Face model takes None or a `DynamicCache`.  Every path wraps what it
hands over, except that the first decode of `QueuedWorker` passes on what
`_prefill_with_reuse` returned, a plain list after an exact hit.
-/
namespace FluxEngine
open Transition Interleaving
variable {P L : Type}

theorem Sequence.exactHit_congr {x y : Sequence P L} (huse : x.prefixUse = y.prefixUse)
    (hprompt : x.promptTokenIds = y.promptTokenIds) : x.ExactHit ↔ y.ExactHit := by
  simp only [Sequence.prefixUse,Prod.mk.injEq] at huse
  unfold Sequence.ExactHit
  rw [huse.1,huse.2.1,huse.2.2,hprompt]

theorem Sequence.exactHit_of_life {x y : Sequence P L} (huse : x.prefixUse = y.prefixUse) (h : x.life = y.life) :
    x.ExactHit ↔ y.ExactHit :=
  exactHit_congr huse (promptTokenIds_of_life h)

variable {eng : CachedEngine P L} {s t : System P L} {i : SeqId}

theorem Orderly.prefixUse [Inhabited P] [Inhabited L] {l : Label} {ev : Event} (h : Orderly eng l ev s t)
    (hs : Reachable eng s) (hi : i ∈ s.accepted) (hlive : (t.heap i).status.terminal = false) :
    (t.heap i).prefixUse = (s.heap i).prefixUse ∨ Unstarted (s.own i) := by
  obtain ⟨hst,hord⟩ := h
  cases hst.prefixMove (books_of_reachable hs) hi with
  | keep huse _ => exact Or.inl huse
  | drop hend _ =>
    rw [hlive] at hend
    cases hend
  | take hit hwhen _ _ _ =>
    refine Or.inr ?_
    rcases hwhen with hw | ⟨now,rfl⟩
    · exact ⟨((books_of_reachable hs).waiting i hw).2.outputIds,hs.outbox_of_waiting hw⟩
    · exact hord

/-- Every cache of the sequence is a `DynamicCache`, except what an exact hit has
returned for its first token. -/
structure Kinds (own : Own P L) : Prop where
  box : ∀ r, own.2 = some r → (r.2.IsDynamic ↔ ¬ (own.1.ExactHit ∧ own.1.outputIds = []))
  cache : ∀ kv, own.1.kvCache = some kv → (kv.IsDynamic ↔ ¬ (own.1.ExactHit ∧ own.1.outputIds.length = 1))
  token : own.1.lastToken.isSome → own.1.outputIds ≠ []

theorem kinds_fresh (prompt : List Token) (sampling : SamplingParams) :
    Kinds (({ promptTokenIds := prompt, sampling := sampling } : Sequence P L),none) := by
  refine ⟨?_,?_,?_⟩
  · rintro _ ⟨⟩
  · rintro _ ⟨⟩
  · rintro ⟨⟩

theorem Kinds.congr {x y : Sequence P L} {box : Option (L × KvCache P)} (h : Kinds (x,box))
    (hhit : y.ExactHit ↔ x.ExactHit) (hkv : y.kvCache = x.kvCache) (hout : y.outputIds = x.outputIds)
    (htok : y.lastToken = x.lastToken) : Kinds (y,box) := by
  refine ⟨?_,?_,?_⟩
  · intro r hr
    simp only [hhit,hout]
    exact h.box r hr
  · intro kv hk
    simp only [hhit,hout]
    exact h.cache kv (hkv.symm.trans hk)
  · intro hl
    simp only [hout]
    exact h.token (htok ▸ hl)

theorem Kinds.rebind {x y : Sequence P L} (h : Kinds (x,none)) (hx : x.outputIds = []) (hlife : y.life = x.life) :
    Kinds (y,none) := by
  have hout : y.outputIds = [] := (Sequence.outputIds_of_life hlife).trans hx
  refine ⟨?_,?_,?_⟩
  · rintro _ ⟨⟩
  · intro kv hk
    have hdyn := h.cache kv ((Sequence.eq_of_life Sequence.kvCache (fun _ => rfl) hlife).symm.trans hk)
    simp only [hx] at hdyn
    simp only [hout]
    simpa using hdyn
  · intro hl
    simp only [Sequence.eq_of_life Sequence.lastToken (fun _ => rfl) hlife] at hl
    exact absurd hx (h.token hl)

theorem LifeStep.kinds {a b : Own P L} (h : LifeStep eng a b) (ha : Kinds a) (hopen : Open b)
    (huse : b.1.prefixUse = a.1.prefixUse ∨ Unstarted a) : Kinds b := by
  cases h with
  | @same x y box hlife =>
    rcases huse with huse | ⟨hx,hbox⟩
    · exact ha.congr (Sequence.exactHit_of_life huse hlife) (Sequence.eq_of_life Sequence.kvCache (fun _ => rfl) hlife)
        (Sequence.outputIds_of_life hlife) (Sequence.eq_of_life Sequence.lastToken (fun _ => rfl) hlife)
    · simp only at hbox
      subst hbox
      exact ha.rebind hx hlife
  | requestAbort => exact ha.congr Iff.rfl rfl rfl rfl
  | setStatus _ _ => exact ha.congr Iff.rfl rfl rfl rfl
  | @note x logits kv rnd _ _ =>
    have hbox := ha.box _ rfl
    rw [Sequence.noteToken_eq]
    refine ⟨?_,?_,?_⟩
    · rintro _ ⟨⟩
    · rintro _ ⟨⟩
      simpa [Sequence.ExactHit] using hbox
    · intro _
      simp
  | abort _ hy =>
    rw [Open,Sequence.status_of_life hy] at hopen
    cases hopen
  | fail _ hy =>
    rw [Open,Sequence.status_of_life hy] at hopen
    cases hopen
  | finish _ _ hy =>
    rw [Open,Sequence.status_of_life hy] at hopen
    cases hopen

theorem LifeStep.open_of {a b : Own P L} (h : LifeStep eng a b) (hb : Open b) : Open a := by
  by_contra hend
  have hterm : a.1.status.terminal = true := by simpa [Open] using hend
  have hst : b.1.status = a.1.status := congrArg (fun o => o.1.1) (h.outcome_eq hterm)
  rw [Open,hst,hterm] at hb
  cases hb

variable [Inhabited P] [Inhabited L]

/-- A step of `QueuedWorker` or of a request, for a model that returns a `DynamicCache`. -/
theorem Orderly.kinds (hdyn : ∀ call, (eng.model call).pastKeyValues.IsDynamic) {l : Label} {ev : Event}
    (h : Orderly eng l ev s t) (hl : l.Of .queued) (hs : Reachable eng s)
    (hk : ∀ i ∈ s.accepted, Open (s.own i) → Kinds (s.own i)) :
    ∀ i ∈ t.accepted, Open (t.own i) → Kinds (t.own i) := by
  intro i hi hopen
  have hb := books_of_reachable hs
  by_cases hold : i ∈ s.accepted
  · cases hev : ev.isCall with
    | false =>
      have hlife := h.1.life hb hev hold
      exact hlife.kinds (hk i hold (hlife.open_of hopen)) hopen (h.prefixUse hs hold hopen)
    | true =>
      have hheap := (h.1.heap_of_isCall hev).1
      have hopen' : Open (s.own i) := by
        rw [Open,System.own,hheap] at hopen
        exact hopen
      have hkinds := hk i hold hopen'
      obtain ⟨hst,hord⟩ := h
      have hput : ∀ r, ((s.heap i).ExactHit ∧ (s.heap i).outputIds = [] ↔ ¬ r.2.IsDynamic) →
          Kinds ((s.putOutbox i r).own i) := by
        intro r hr
        refine ⟨?_,hkinds.cache,hkinds.token⟩
        intro r' hr'
        simp only [System.own,System.putOutbox,Function.update_self,Option.some.injEq] at hr'
        subst hr'
        exact (not_iff_comm.mp hr.symm).symm
      have hoff : ∀ j r, i ≠ j → (s.putOutbox j r).own i = s.own i := fun j r hij =>
        congrArg (fun box => (s.heap i,box)) (Function.update_of_ne hij _ _)
      cases hst with
      | @prefill _ j r hj ho hr =>
        by_cases hij : i = j
        · subst hij
          refine hput r ?_
          simp only [ho,and_true]
          by_cases hhit : (s.heap i).ExactHit
          · obtain ⟨logits,kv,heq⟩ := eng.prefillWithReuse_of_exactHit hhit
            rw [hr] at heq
            cases heq
            exact iff_of_true hhit (not_isDynamic_cloneCache kv)
          · obtain ⟨call,hcall⟩ := Option.ne_none_iff_exists'.mp (mt eng.reuseCall_eq_none.mp hhit)
            have hkv := CachedEngine.cache_of_answer ((eng.prefillWithReuse_of_call hcall).symm.trans hr)
            exact iff_of_false hhit (not_not_intro (hkv ▸ hdyn call))
        · rw [hoff j r hij]
          exact hkinds
      | @decode _ j tok kv r hj ht _ hr =>
        by_cases hij : i = j
        · subst hij
          have hkv := CachedEngine.cache_of_answer hr
          refine hput r (iff_of_false ?_ (not_not_intro (hkv ▸ hdyn _)))
          exact fun hnil => hkinds.token (by simp [System.own,ht]) hnil.2
        · rw [hoff j _ hij]
          exact hkinds
      | @decodeBatch _ live r _ _ =>
        simp only [Event.InOrder] at hord
        subst hord
        cases hl
      | _ => cases hev
  · rcases h.1.accepted with heq | ⟨j,prompt,sampling,hj,heq,hheap,hout⟩
    · exact absurd (heq ▸ hi) hold
    · have hij : i = j := by
        rw [heq] at hi
        exact List.mem_singleton.mp ((List.mem_append.mp hi).resolve_left hold)
      subst hij
      have hnone : s.outbox i = none := by
        by_contra hne
        exact hj (hs.admitted_of_outbox hne).1
      rw [System.own,hheap,hout,hnone]
      exact kinds_fresh prompt sampling

/-- The model calls behind an action at `site` for the sequences `ids`. -/
def modelCalls (eng : CachedEngine P L) (site : Site) (ids : List SeqId) (s : System P L) : List (ModelCall P) :=
  match site with
  | .prefillModel => ids.flatMap (fun i => (eng.reuseCall (s.heap i)).toList)
  | .queuedPrefill => ids.flatMap (fun i => (eng.reuseCall (s.heap i)).toList)
  | .batchModel => (eng.decodeBatchCall (ids.map (fun i => (s.heap i).lastToken.getD 0))
      (ids.map (fun i => (s.heap i).kvCache.getD (.legacy [])))).toList
  | .queuedDecode => ids.map (fun i =>
      CachedEngine.decodeCall ((s.heap i).lastToken.getD 0) ((s.heap i).kvCache.getD (.legacy [])))
  | _ => []

variable {may : Site → Bool} {c d : WorkerControl P L × System P L}

theorem ServeEngine.Runs.kinds (hdyn : ∀ call, (eng.model call).pastKeyValues.IsDynamic)
    (h : ServeEngine.queued.Runs eng may c) : ∀ i ∈ c.2.accepted, Open (c.2.own i) → Kinds (c.2.own i) := by
  refine h.invariant (I := fun s => ∀ i ∈ s.accepted, Open (s.own i) → Kinds (s.own i)) ?_ ?_
  · intro s hs
    rw [hs.initial.accepted]
    simp
  · intro l ev s t hl hs hst hk
    exact hst.kinds hdyn hl hs hk

/-- Which calls of a run hand over None or a `DynamicCache`: all but the first
decode of `QueuedWorker` after an exact hit. -/
theorem model_calls_accepted_iff (hhf : eng.huggingface = true)
    (hdyn : ∀ call, (eng.model call).pastKeyValues.IsDynamic) {mode : ServeEngine} (h : mode.Runs eng may c)
    {site : Site} {ids : List SeqId} {w : Answer} (hst : mode.Next eng may (some (.call site ids,w)) c d) :
    (∀ call ∈ modelCalls eng site ids c.2, call.Accepted) ↔
      ¬ (site = .queuedDecode ∧ ∃ i ∈ ids, (c.2.heap i).ExactHit ∧ (c.2.heap i).outputIds.length = 1) := by
  have hreuse : ∀ call ∈ ids.flatMap (fun i => (eng.reuseCall (c.2.heap i)).toList), call.Accepted := by
    intro call hcall
    obtain ⟨i,_,hcall⟩ := List.mem_flatMap.mp hcall
    exact eng.reuseCall_accepted hhf (Option.mem_toList.mp hcall)
  cases site with
  | queuedDecode =>
    have hmode : mode = .queued := (h.label_of hst).symm
    subst hmode
    have hown : ∀ i ∈ ids, (CachedEngine.decodeCall ((c.2.heap i).lastToken.getD 0)
        ((c.2.heap i).kvCache.getD (.legacy []))).Accepted ↔
        ¬ ((c.2.heap i).ExactHit ∧ (c.2.heap i).outputIds.length = 1) := by
      intro i hi
      obtain ⟨hlive,hdec⟩ := (h.effect hst).2.2 i hi
      obtain ⟨kv,hkv⟩ := Option.isSome_iff_exists.mp (hdec rfl).2
      refine Iff.trans ?_ ((h.kinds hdyn i hlive.1 hlive.2.2).cache kv hkv)
      simp [ModelCall.Accepted,CachedEngine.decodeCall,hkv]
    simp only [modelCalls,List.forall_mem_map,true_and,not_exists,not_and]
    exact forall₂_congr (fun i hi => (hown i hi).trans not_and)
  | prefillModel => exact iff_of_true hreuse (fun hq => absurd hq.1 (by decide))
  | queuedPrefill => exact iff_of_true hreuse (fun hq => absurd hq.1 (by decide))
  | batchModel =>
    refine iff_of_true ?_ (fun hq => absurd hq.1 (by decide))
    intro call hcall
    exact eng.decodeBatchCall_accepted hhf (Option.mem_toList.mp hcall)
  | _ => exact iff_of_true (fun call hcall => absurd hcall List.not_mem_nil) (fun hq => absurd hq.1 (by decide))

/-- The stand-in behind the interface of a Hugging Face model. -/
def dynamicEngine : CachedEngine ℕ Token :=
  { FakeLm.engine {} with
    model := fun call =>
      let out := FakeLm.forward {} call
      { out with pastKeyValues := .dynamic (iterKv out.pastKeyValues) }
    huggingface := true }

theorem dynamicEngine_isDynamic (call : ModelCall ℕ) : (dynamicEngine.model call).pastKeyValues.IsDynamic := trivial

def promptTwice (actions : ℕ) : List ServeEngine.Move :=
  [.request (.submit 0 [5,6] twoTokens),.request (.submit 1 [5,6] twoTokens)] ++ List.replicate actions (.act {})

theorem ServeEngine.next_of_advance {mode : ServeEngine} {l : Label}
    (h : ((mode.service eng).advance {} c.2 c.1).map (fun r => r.1) = some l) :
    ∃ d, mode.Next eng may (some (l,{})) c d := by
  obtain ⟨c,s⟩ := c
  obtain ⟨⟨l',c',t⟩,hadv,rfl⟩ := Option.map_eq_some_iff.mp h
  refine ⟨(c',t),.act hadv ?_⟩
  rintro _ _ _ ⟨⟩

/-- The second request is an exact hit, and its first decode hands over a list. -/
theorem plain_list_reaches_decode : ∃ c d : WorkerControl ℕ Token × System ℕ Token,
    dynamicEngine.huggingface = true ∧ (∀ call, (dynamicEngine.model call).pastKeyValues.IsDynamic) ∧
      ServeEngine.queued.Runs dynamicEngine (fun _ => false) c ∧
      ServeEngine.queued.Next dynamicEngine (fun _ => false) (some (.call .queuedDecode [1],{})) c d ∧
      ∃ call ∈ modelCalls dynamicEngine .queuedDecode [1] c.2, ¬ call.Accepted := by
  have hobs : (ServeEngine.queued.play dynamicEngine (fun _ => false) (promptTwice 41)
      ((ServeEngine.queued.service dynamicEngine).start,roomySystem)).map
      (fun c => (((ServeEngine.queued.service dynamicEngine).advance {} c.2 c.1).map (fun r => r.1),
        (c.2.heap 1).kvCache.map (fun kv => decide kv.IsDynamic))) =
      some (some (.call .queuedDecode [1]),some false) := by decide
  obtain ⟨c,hc,hobs⟩ := Option.map_eq_some_iff.mp hobs
  simp only [Prod.mk.injEq] at hobs
  obtain ⟨hlabel,hkind⟩ := hobs
  obtain ⟨d,hd⟩ := ServeEngine.next_of_advance hlabel
  refine ⟨c,d,rfl,dynamicEngine_isDynamic,ServeEngine.queued.runs_of_play roomySystem_boot hc,hd,_,List.mem_cons_self,?_⟩
  obtain ⟨kv,hkv,hkind⟩ := Option.map_eq_some_iff.mp hkind
  intro hacc
  exact of_decide_eq_false hkind (hacc kv (by simp [CachedEngine.decodeCall,hkv]))

theorem model_calls_accepted_iff_miss : ∃ c d : WorkerControl ℕ Token × System ℕ Token,
    ServeEngine.queued.Runs dynamicEngine (fun _ => false) c ∧
      ServeEngine.queued.Next dynamicEngine (fun _ => false) (some (.call .queuedDecode [0],{})) c d ∧
      (c.2.heap 0).outputIds.length = 1 ∧
      ∀ call ∈ modelCalls dynamicEngine .queuedDecode [0] c.2, call.Accepted := by
  have hobs : (ServeEngine.queued.play dynamicEngine (fun _ => false) (promptTwice 17)
      ((ServeEngine.queued.service dynamicEngine).start,roomySystem)).map
      (fun c => (((ServeEngine.queued.service dynamicEngine).advance {} c.2 c.1).map (fun r => r.1),
        (c.2.heap 0).outputIds.length,(c.2.heap 0).prefixTokens)) =
      some (some (.call .queuedDecode [0]),1,0) := by decide
  obtain ⟨c,hc,hobs⟩ := Option.map_eq_some_iff.mp hobs
  simp only [Prod.mk.injEq] at hobs
  obtain ⟨hlabel,hlen,htok⟩ := hobs
  obtain ⟨d,hd⟩ := ServeEngine.next_of_advance hlabel
  have hrun := ServeEngine.queued.runs_of_play roomySystem_boot hc
  refine ⟨c,d,hrun,hd,hlen,(model_calls_accepted_iff rfl dynamicEngine_isDynamic hrun hd).mpr ?_⟩
  rintro ⟨_,i,hi,⟨_,hpos,_⟩,_⟩
  rw [List.mem_singleton] at hi
  subst hi
  omega

end FluxEngine
