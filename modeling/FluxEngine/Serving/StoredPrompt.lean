import FluxEngine.Engine.Insertion
import FluxEngine.Serving.PrefixRefs

/-! # Storing a prompt

An insertion stores the whole prompt first and its aligned prefixes after it,
and each of them may push out the one that has been there longest.
-/
namespace FluxEngine
open OrderedDict Transition Replacement
namespace PrefixCache
variable {P L : Type} {c c' : PrefixCache P L} {pool : Option BlockPool} {now t : ℕ} {tokenIds k : List Token}
variable {kvCache : KvCache P} {lastLogits : Option L}

def UsedBy (t : ℕ) (c : PrefixCache P L) : Prop := ∀ k e, c.entries.get? k = some e → e.lastUsed ≤ t

theorem UsedBy.set (h : c.UsedBy t) {e : PrefixEntry P L} (hset : c'.entries = c.entries.set k e)
    (he : e.lastUsed ≤ t) : c'.UsedBy t := by
  intro j f hj
  rw [hset,get?_set] at hj
  split at hj
  · cases hj
    exact he
  · exact h j f hj

theorem UsedBy.lookup (h : c.UsedBy t) (hnow : now ≤ t) (tokenIds : List Token) :
    (c.lookup pool tokenIds now).2.1.UsedBy t := by
  unfold PrefixCache.lookup
  cases c.peek tokenIds with
  | none => exact h
  | some hit =>
    simp only
    cases c.entries.get? hit.tokenIds with
    | none => exact h
    | some entry => exact h.set rfl hnow

theorem UsedBy.release (h : c.UsedBy t) (key : Option (List Token)) : (c.release pool key).1.UsedBy t := by
  unfold PrefixCache.release
  cases key with
  | none => exact h
  | some key =>
    simp only
    split
    · exact h
    · cases he : c.entries.get? key with
      | none => exact h
      | some entry =>
        simp only
        split
        · exact h
        · exact h.set rfl (h key entry he)

theorem UsedBy.insert (h : c.UsedBy t) (hnow : now ≤ t) (tokenIds : List Token) (kvCache : Option (KvCache P))
    (lastLogits : Option L) : (c.insert pool tokenIds kvCache lastLogits now).1.UsedBy t := by
  intro k e he
  cases kvCache with
  | none => exact h k e he
  | some kv =>
    rcases get?_insert he with hold | ⟨n,_,_,_,_,rfl⟩
    · exact h k e hold
    · exact hnow

theorem UsedBy.adopt (h : c.UsedBy t) (hnow : now ≤ t) (id : SeqId) (seq : Sequence P L) :
    (c.adopt pool id seq now).1.UsedBy t := by
  unfold PrefixCache.adopt
  cases seq.prefixKey with
  | some key => exact h
  | none =>
    simp only
    cases c.candidateLengths seq.promptTokenIds with
    | nil => exact h
    | cons n lengths =>
      simp only
      cases he : c.entries.get? (seq.promptTokenIds.take n) with
      | none => exact h
      | some entry =>
        simp only
        split
        · obtain ⟨ids,pins,pool',hacq,_⟩ := acquireBlocks_eq c pool entry
          simp only [hacq]
          exact h.set rfl (h _ entry he)
        · cases pool with
          | none => exact h.set rfl hnow
          | some p => exact h.set rfl hnow

theorem keptAt_usedBy (t : ℕ) : KeptAt (P := P) (L := L) (fun now => now ≤ t) (UsedBy t) where
  start c hentries _ := by
    intro k e he
    rw [hentries] at he
    cases he
  lookup _ _ tokenIds _ hnow h := h.lookup hnow tokenIds
  release _ _ key h := h.release key
  insert _ _ tokenIds kvCache lastLogits _ hnow h := h.insert hnow tokenIds kvCache lastLogits
  adopt _ _ id seq _ hnow h := h.adopt hnow id seq

theorem prefix_alignedLengths (k : ℕ) (lengths : List ℕ) : lengths <+: c.alignedLengths k lengths := by
  induction k generalizing lengths with
  | zero => exact List.prefix_rfl
  | succ k ih =>
    simp only [alignedLengths]
    split
    · split
      · exact ih lengths
      · exact (List.prefix_append _ _).trans (ih _)
    · exact List.prefix_rfl

theorem alignedLengths_nodup (k : ℕ) {lengths : List ℕ} (h : lengths.Nodup) : (c.alignedLengths k lengths).Nodup := by
  induction k generalizing lengths with
  | zero => exact h
  | succ k ih =>
    simp only [alignedLengths]
    split
    · split
      · exact ih h
      · rename_i hnew
        refine ih (List.nodup_append.mpr ⟨h,List.nodup_singleton _,?_⟩)
        intro a ha b hb
        rw [List.mem_singleton.mp hb]
        exact fun hab => hnew (hab ▸ ha)
    · exact h

theorem candidateLengths_nodup : (c.candidateLengths tokenIds).Nodup := by
  refine alignedLengths_nodup _ ?_
  split
  · exact List.nodup_singleton _
  · exact List.nodup_nil

theorem candidateLengths_cons (h : c.minTokens ≤ tokenIds.length) :
    ∃ rest, c.candidateLengths tokenIds = tokenIds.length :: rest := by
  have hpre := prefix_alignedLengths (c := c) (tokenIds.length / c.blockSize) [tokenIds.length]
  obtain ⟨rest,hrest⟩ := hpre
  refine ⟨rest,?_⟩
  simp only [candidateLengths,if_pos h]
  exact hrest.symm

theorem contenders_nodup {lengths : List ℕ} (hnd : lengths.Nodup) (hlen : ∀ n ∈ lengths, n ≤ tokenIds.length) :
    (c.contenders tokenIds lengths).Nodup := by
  refine List.Nodup.filter _ (hnd.map_on ?_)
  intro m hm n hn heq
  have hl := congrArg List.length heq
  rwa [List.length_take,List.length_take,Nat.min_eq_left (hlen m hm),Nat.min_eq_left (hlen n hn)] at hl

theorem minTokens_evictLoop (fuel : ℕ) (c : PrefixCache P L) (pool : Option BlockPool) :
    (evictLoop fuel c pool).1.minTokens = c.minTokens := by
  induction fuel generalizing c pool with
  | zero => rfl
  | succ fuel ih =>
    unfold evictLoop
    split
    · cases oldest (c.entries.values.filter (fun e => e.refs = 0)) with
      | none => rfl
      | some victim => exact ih _ _
    · rfl

theorem minTokens_insertLoop (lengths : List ℕ) (c : PrefixCache P L) (pool : Option BlockPool) :
    (insertLoop tokenIds kvCache lastLogits now lengths c pool).1.minTokens = c.minTokens := by
  induction lengths generalizing c pool with
  | nil => rfl
  | cons n lengths ih =>
    unfold insertLoop
    split
    · exact ih c pool
    · split
      · exact ih c pool
      · simp only
        split
        · exact (ih _ _).trans (minTokens_evictLoop _ _ _)
        · exact (ih _ _).trans (minTokens_evictLoop _ _ _)

theorem peek_whole_iff (h : c.minTokens ≤ tokenIds.length) :
    (∃ hit, c.peek tokenIds = some hit ∧ hit.nTokens = tokenIds.length) ↔ (c.entries.get? tokenIds).isSome := by
  constructor
  · rintro ⟨hit,hpeek,hn⟩
    obtain ⟨e,hhit,_⟩ := peek_eq_some hpeek
    have hkey := hhit.key
    rw [hn,List.take_length] at hkey
    rw [← hkey,hhit.stored]
    rfl
  · intro hsome
    obtain ⟨e,he⟩ := Option.isSome_iff_exists.mp hsome
    have hwhole : c.entries.get? (tokenIds.take tokenIds.length) = some e := by
      rw [List.take_length]
      exact he
    cases hpeek : c.peek tokenIds with
    | none =>
      rw [peek_eq_none.mp hpeek _ h le_rfl] at hwhole
      cases hwhole
    | some hit =>
      obtain ⟨_,hhit,_⟩ := peek_eq_some hpeek
      refine ⟨hit,rfl,Nat.le_antisymm hhit.atMost (not_lt.mp ?_)⟩
      intro hlt
      rw [hhit.longest _ hlt le_rfl] at hwhole
      cases hwhole

theorem adopt_whole (h : c.minTokens ≤ tokenIds.length) (hstored : (c.entries.get? tokenIds).isSome)
    (pool : Option BlockPool) (id : SeqId) {seq : Sequence P L} (hprompt : seq.promptTokenIds = tokenIds)
    (hkey : seq.prefixKey = none) (now : ℕ) : (c.adopt pool id seq now).2.2.prefixKey = some tokenIds := by
  obtain ⟨rest,hcand⟩ := candidateLengths_cons h
  obtain ⟨e,he⟩ := Option.isSome_iff_exists.mp hstored
  unfold PrefixCache.adopt
  simp only [hkey,hprompt,hcand,List.take_length,he]
  split
  · rfl
  · cases pool with
    | none => rfl
    | some p => rfl

/-- The whole prompt is found right after the insertion, by the adoption and by the
next lookup, which gets its logits with it (so that nothing is left to prefill), and
nothing that the call has stored is evicted by it. -/
structure KeepsPrompt (c : PrefixCache P L) (pool : Option BlockPool) (tokenIds : List Token) (kvCache : KvCache P)
    (lastLogits : Option L) (now : ℕ) : Prop where
  hit : ∃ hit, (c.insert pool tokenIds (some kvCache) lastLogits now).1.peek tokenIds = some hit ∧
    hit.nTokens = tokenIds.length ∧ (lastLogits.isSome → hit.lastLogits.isSome)
  adopted : ∀ (id : SeqId) (seq : Sequence P L) (now' : ℕ), seq.promptTokenIds = tokenIds → seq.prefixKey = none →
    ((c.insert pool tokenIds (some kvCache) lastLogits now).1.adopt
      (c.insert pool tokenIds (some kvCache) lastLogits now).2 id seq now').2.2.prefixKey = some tokenIds
  own : ∀ k, ¬ [Turn.enter k,.leave k].Sublist (c.insertTurns pool tokenIds (some kvCache) lastLogits now)

theorem capacity_slots_pos (h : c.Shelved now)
    (hroom : c.entries.size < c.maxEntries ∨ ∃ k e, c.entries.get? k = some e ∧ e.refs = 0) :
    0 < c.slots.capacity := by
  unfold Slots.capacity slots
  rcases hroom with hlt | ⟨k,e,he,hr⟩
  · have : 0 < c.maxEntries - c.entries.size := Nat.sub_pos_of_lt hlt
    exact Nat.add_pos_left this _
  · have hmem : k ∈ c.slots.order := (h.mem_order_iff he).mpr hr
    exact Nat.add_pos_right _ (List.length_pos_of_mem hmem)

theorem take_ne_whole {rest : List ℕ} (hnd : (tokenIds.length :: rest).Nodup) (hle : ∀ n ∈ rest, n ≤ tokenIds.length) :
    ∀ n ∈ rest, tokenIds.take n ≠ tokenIds := by
  intro n hn heq
  have hlen := congrArg List.length heq
  rw [List.length_take,Nat.min_eq_left (hle n hn)] at hlen
  exact (List.nodup_cons.mp hnd).1 (hlen ▸ hn)

/-- A whole prompt from before goes only when its place is taken. -/
theorem Shelved.stored_whole_iff (h : c.Shelved now) (hpos : 0 < c.slots.capacity) {rest : List ℕ}
    (hnd : (tokenIds.length :: rest).Nodup) (hle : ∀ n ∈ rest, n ≤ tokenIds.length)
    (hkv : ∀ n ∈ rest, n ≤ cacheSeqLen kvCache) (pool : Option BlockPool) {e : PrefixEntry P L}
    (he : c.entries.get? tokenIds = some e) :
    (((insertLoop tokenIds kvCache lastLogits now (tokenIds.length :: rest) c pool).1.entries.get? tokenIds).isSome ∧
      ¬ c.slots.capacity < (missed c.slots.place 0 (c.contenders tokenIds (tokenIds.length :: rest))).length) ↔
      (missed c.slots.place 0 (c.contenders tokenIds (tokenIds.length :: rest))).length ≤ c.slots.delay tokenIds := by
  have hshort := take_ne_whole hnd hle
  have hskip : insertLoop tokenIds kvCache lastLogits now (tokenIds.length :: rest) c pool =
      insertLoop tokenIds kvCache lastLogits now rest c pool := by
    simp [insertLoop,he]
  have hrest := h.insertLoopTurns_eq hpos hkv tokenIds lastLogits pool
  have hstored := h.insertLoop_stored hpos hkv lastLogits pool he hshort
  rw [hskip,hstored,hrest]
  have hnot : tokenIds ∉ c.contenders tokenIds rest := by
    intro hmem
    obtain ⟨n,hn,heq⟩ := List.mem_map.mp (List.mem_of_mem_filter hmem)
    exact hshort n hn heq
  by_cases hr : 0 < e.refs
  · have hmem : tokenIds ∉ c.slots.order := fun hmem => hr.ne' ((h.mem_order_iff he).mp hmem)
    have hleave : Turn.leave tokenIds ∉ c.slots.turns (c.contenders tokenIds rest) := by
      intro hleave
      rcases Slots.mem_of_leave hleave with hm | hm
      · exact hmem hm
      · exact hnot hm
    rw [Slots.delay_of_not_mem hmem]
    simp only [hleave,not_false_eq_true,true_and,not_lt]
  · have hmem : tokenIds ∈ c.slots.order := (h.mem_order_iff he).mpr (Nat.eq_zero_of_not_pos hr)
    have hcont : c.contenders tokenIds (tokenIds.length :: rest) = tokenIds :: c.contenders tokenIds rest := by
      simp [contenders,referenced_of_some he,hr]
    have hleave := Slots.leave_mem_turns_iff hpos (evictionOrder_nodup h.keyed)
      (contenders_nodup (c := c) (List.nodup_cons.mp hnd).2 hle) hmem hnot
    have hlt := Slots.delay_lt hmem
    rw [hcont,Slots.missed_of_mem hmem,hleave]
    omega

/-- The prompt is stored after the loop, and nothing of the call is evicted. -/
theorem Shelved.insertLoop_whole_iff (h : c.Shelved now) (hpos : 0 < c.slots.capacity) {rest : List ℕ}
    (hnd : (tokenIds.length :: rest).Nodup) (hle : ∀ n ∈ rest, n ≤ tokenIds.length)
    (hkv : tokenIds.length ≤ cacheSeqLen kvCache) (pool : Option BlockPool) :
    (((insertLoop tokenIds kvCache lastLogits now (tokenIds.length :: rest) c pool).1.entries.get? tokenIds).isSome ∧
      ¬ ∃ k, [Turn.enter k,.leave k].Sublist
        (insertLoopTurns tokenIds kvCache lastLogits now (tokenIds.length :: rest) c pool)) ↔
      (missed c.slots.place 0 (c.contenders tokenIds (tokenIds.length :: rest))).length ≤
        c.slots.delay tokenIds := by
  have hlens : ∀ n ∈ tokenIds.length :: rest, n ≤ tokenIds.length := by
    intro n hn
    rcases List.mem_cons.mp hn with rfl | hn
    · exact le_rfl
    · exact hle n hn
  have hkvs : ∀ n ∈ tokenIds.length :: rest, n ≤ cacheSeqLen kvCache := fun n hn => (hlens n hn).trans hkv
  have hkvrest : ∀ n ∈ rest, n ≤ cacheSeqLen kvCache := fun n hn => hkvs n (List.mem_cons_of_mem _ hn)
  have hturns := h.insertLoopTurns_eq hpos hkvs tokenIds lastLogits pool
  have hown := Slots.enter_leave_turns_iff hpos (evictionOrder_nodup h.keyed) (contenders_nodup (c := c) hnd hlens)
  rw [hturns,hown]
  cases he : c.entries.get? tokenIds with
  | some e => exact h.stored_whole_iff hpos hnd hle hkvrest pool he
  | none =>
    have hmem : tokenIds ∉ c.slots.order := h.not_mem_order he
    have hnone : c.entries.get? (tokenIds.take tokenIds.length) = none := by
      rw [List.take_length]
      exact he
    obtain ⟨c',pool',hloop,hturns',h',hslots,_,hget⟩ := h.insertLoop_store hpos hkv hnone lastLogits pool rest
    have hpos' : 0 < c'.slots.capacity := by
      rw [hslots,Slots.capacity_take hpos]
      exact hpos
    have hfresh := hget tokenIds
    rw [List.take_length,if_pos rfl] at hfresh
    have hstored := h'.insertLoop_stored hpos' hkvrest lastLogits pool' hfresh (take_ne_whole hnd hle)
    rw [hloop,hstored,Slots.delay_of_not_mem hmem]
    -- the first entry of the call is the first of them to go
    have hfirst : ¬ c.slots.capacity < (missed c.slots.place 0 (c.contenders tokenIds (tokenIds.length :: rest))).length →
        Turn.leave tokenIds ∉ insertLoopTurns tokenIds kvCache lastLogits now rest c' pool' := by
      intro hle hleave
      refine hle (hown.mp ⟨tokenIds,?_⟩)
      rw [← hturns,hturns',List.take_length]
      exact Slots.enter_leave_sublist_iff.mpr (Or.inl ⟨rfl,hleave⟩)
    constructor
    · exact fun hboth => not_lt.mp hboth.2
    · exact fun hle => ⟨hfirst (not_lt.mpr hle),not_lt.mpr hle⟩

/-- The entry of the whole prompt is the one from before, else that of the call. -/
theorem whole_of_insert {e : PrefixEntry P L}
    (h : (c.insert pool tokenIds (some kvCache) lastLogits now).1.entries.get? tokenIds = some e) :
    c.entries.get? tokenIds = some e ∨ (c.entries.get? tokenIds = none ∧ e.lastLogits = lastLogits) := by
  have hfresh : ∀ n ≤ tokenIds.length, tokenIds = tokenIds.take n → n = tokenIds.length := by
    intro n hn htake
    have hlen := congrArg List.length htake
    rw [List.length_take,Nat.min_eq_left hn] at hlen
    exact hlen.symm
  unfold PrefixCache.insert at h
  simp only at h
  split at h
  · exact Or.inl h
  cases hold : c.entries.get? tokenIds with
  | none =>
    rcases get?_insertLoop h with h | ⟨n,hn,_,htake,rfl⟩
    · rw [hold] at h
      cases h
    · exact Or.inr ⟨rfl,if_pos (hfresh n (mem_candidateLengths hn).2 htake)⟩
  | some old =>
    -- the whole prompt is passed over, and no shorter candidate has its key
    refine Or.inl ?_
    by_cases hmin : c.minTokens ≤ tokenIds.length
    · obtain ⟨rest,hcand⟩ := candidateLengths_cons hmin
      have hnd : (tokenIds.length :: rest).Nodup := by
        rw [← hcand]
        exact candidateLengths_nodup
      have hskip : insertLoop tokenIds kvCache lastLogits now (tokenIds.length :: rest) c pool =
          insertLoop tokenIds kvCache lastLogits now rest c pool := by
        simp [insertLoop,hold]
      rw [hcand,hskip] at h
      rcases get?_insertLoop h with h | ⟨n,hn,_,htake,_⟩
      · exact hold.symm.trans h
      · have hle : n ≤ tokenIds.length := by
          refine (mem_candidateLengths (c := c) ?_).2
          rw [hcand]
          exact List.mem_cons_of_mem _ hn
        exact absurd (hfresh n hle htake ▸ hn) (List.nodup_cons.mp hnd).1
    · rcases get?_insertLoop h with h | ⟨n,hn,_,htake,_⟩
      · exact hold.symm.trans h
      · obtain ⟨h1,h2⟩ := mem_candidateLengths hn
        exact absurd (h1.trans h2) hmin

/-- A stored prompt can be reused in full: it is not stored without logits. -/
def Reusable (c : PrefixCache P L) (tokenIds : List Token) (lastLogits : Option L) : Prop :=
  lastLogits.isSome → ∀ e, c.entries.get? tokenIds = some e → e.lastLogits.isSome

theorem reusable_iff_of_insert (hstored : ((c.insert pool tokenIds (some kvCache) lastLogits now).1.entries.get?
      tokenIds).isSome) {hit : PrefixHit P L}
    (hpeek : (c.insert pool tokenIds (some kvCache) lastLogits now).1.peek tokenIds = some hit)
    (hn : hit.nTokens = tokenIds.length) :
    (lastLogits.isSome → hit.lastLogits.isSome) ↔ c.Reusable tokenIds lastLogits := by
  obtain ⟨e,he⟩ := Option.isSome_iff_exists.mp hstored
  obtain ⟨e',hhit,_⟩ := peek_eq_some hpeek
  have hkey := hhit.stored
  rw [hhit.key,hn,List.take_length,he] at hkey
  cases hkey
  have hlogits : hit.lastLogits = e.lastLogits := by
    rw [hhit.lastLogits,if_pos hn]
  rw [hlogits]
  rcases whole_of_insert he with hold | ⟨hnone,hnew⟩
  · simp [Reusable,hold]
  · simp [Reusable,hnone,hnew]

theorem Shelved.keepsPrompt_iff (h : c.Shelved now)
    (hroom : c.entries.size < c.maxEntries ∨ ∃ k e, c.entries.get? k = some e ∧ e.refs = 0)
    (hmin : c.minTokens ≤ tokenIds.length) (hkv : tokenIds.length ≤ cacheSeqLen kvCache) (pool : Option BlockPool) :
    c.KeepsPrompt pool tokenIds kvCache lastLogits now ↔
      (missed c.slots.place 0 (c.contenders tokenIds (c.candidateLengths tokenIds))).length ≤
        c.slots.delay tokenIds ∧ c.Reusable tokenIds lastLogits := by
  obtain ⟨rest,hcand⟩ := candidateLengths_cons hmin
  have hnd : (tokenIds.length :: rest).Nodup := by
    rw [← hcand]
    exact candidateLengths_nodup
  have hle : ∀ n ∈ rest, n ≤ tokenIds.length := by
    intro n hn
    refine (mem_candidateLengths (c := c) ?_).2
    rw [hcand]
    exact List.mem_cons_of_mem _ hn
  have hmin' : ¬ cacheSeqLen kvCache < c.minTokens := not_lt.mpr (hmin.trans hkv)
  have hinsert : c.insert pool tokenIds (some kvCache) lastLogits now =
      insertLoop tokenIds kvCache lastLogits now (tokenIds.length :: rest) c pool := by
    simp only [PrefixCache.insert,if_neg hmin',hcand]
  have hturns : c.insertTurns pool tokenIds (some kvCache) lastLogits now =
      insertLoopTurns tokenIds kvCache lastLogits now (tokenIds.length :: rest) c pool := by
    simp only [insertTurns,if_neg hmin',hcand]
  have hmin₁ : (c.insert pool tokenIds (some kvCache) lastLogits now).1.minTokens ≤ tokenIds.length := by
    rw [hinsert,minTokens_insertLoop]
    exact hmin
  rw [hcand,← h.insertLoop_whole_iff (capacity_slots_pos h hroom) hnd hle hkv pool,← hinsert,← hturns]
  constructor
  · intro hkeeps
    obtain ⟨hit,hpeek,hn,hlogits⟩ := hkeeps.hit
    have hstored := (peek_whole_iff hmin₁).mp ⟨hit,hpeek,hn⟩
    refine ⟨⟨hstored,?_⟩,(reusable_iff_of_insert hstored hpeek hn).mp hlogits⟩
    rintro ⟨k,hk⟩
    exact hkeeps.own k hk
  · rintro ⟨⟨hstored,hown⟩,hreusable⟩
    obtain ⟨hit,hpeek,hn⟩ := (peek_whole_iff hmin₁).mpr hstored
    exact ⟨⟨hit,hpeek,hn,(reusable_iff_of_insert hstored hpeek hn).mpr hreusable⟩,
      fun id seq now' hprompt hkey => adopt_whole hmin₁ hstored _ id hprompt hkey now',fun k hk => hown ⟨k,hk⟩⟩

/-- A prompt of which no prefix is stored is kept exactly when the entries without
references and the free places are as many as its candidates. -/
theorem Shelved.keepsPrompt_iff_of_unstored (h : c.Shelved now)
    (hroom : c.entries.size < c.maxEntries ∨ ∃ k e, c.entries.get? k = some e ∧ e.refs = 0)
    (hmin : c.minTokens ≤ tokenIds.length) (hkv : tokenIds.length ≤ cacheSeqLen kvCache)
    (hnone : ∀ n ∈ c.candidateLengths tokenIds, c.entries.get? (tokenIds.take n) = none) (pool : Option BlockPool) :
    c.KeepsPrompt pool tokenIds kvCache lastLogits now ↔
      (c.candidateLengths tokenIds).length ≤ c.slots.capacity := by
  have hmem : ∀ n ∈ c.candidateLengths tokenIds, tokenIds.take n ∉ c.slots.order :=
    fun n hn => h.not_mem_order (hnone n hn)
  have hcont : c.contenders tokenIds (c.candidateLengths tokenIds) =
      (c.candidateLengths tokenIds).map (fun n => tokenIds.take n) := by
    refine List.filter_eq_self.mpr ?_
    intro k hk
    obtain ⟨n,hn,rfl⟩ := List.mem_map.mp hk
    rw [referenced_of_none (hnone n hn)]
    rfl
  have hplace : ∀ k ∈ (c.candidateLengths tokenIds).map (fun n => tokenIds.take n), c.slots.place k = 0 := by
    intro k hk
    obtain ⟨n,hn,rfl⟩ := List.mem_map.mp hk
    exact Slots.place_of_not_mem (hmem n hn)
  obtain ⟨rest,hcand⟩ := candidateLengths_cons hmin
  have hwhole : tokenIds ∉ c.slots.order := by
    have hfirst := hmem tokenIds.length (by rw [hcand]; exact List.mem_cons_self)
    rwa [List.take_length] at hfirst
  have hreusable : c.Reusable tokenIds lastLogits := by
    intro _ e he
    have hfirst := hnone tokenIds.length (by rw [hcand]; exact List.mem_cons_self)
    rw [List.take_length,he] at hfirst
    cases hfirst
  rw [h.keepsPrompt_iff hroom hmin hkv pool,hcont,missed_of_place_zero hplace,List.length_map,
    Slots.delay_of_not_mem hwhole,and_iff_left hreusable]

end PrefixCache

variable {P L : Type} [Inhabited P] [Inhabited L] {eng : CachedEngine P L} {s₀ s : System P L}

/-- Under a clock that has not passed `now`, storing a prompt keeps it exactly when no
crowd of its candidates is larger than what may enter before the prompt has to go, and
the prompt is not there already as an entry without logits. -/
theorem insert_keeps_prompt_iff (h0 : s₀.Initial) {now : ℕ}
    (hr : Reaches (guarded (fun ev _ => ev.ReadsWithin (fun n => n ≤ now)) (Step eng)) s₀ s) {c : PrefixCache P L}
    (hc : s.scheduler.prefixCache = some c)
    (hroom : c.entries.size < c.maxEntries ∨ ∃ k e, c.entries.get? k = some e ∧ e.refs = 0)
    {prompt : List Token} (hmin : c.minTokens ≤ prompt.length) {kvCache : KvCache P}
    (hkv : prompt.length ≤ cacheSeqLen kvCache) (lastLogits : Option L) :
    c.KeepsPrompt s.scheduler.pool prompt kvCache lastLogits now ↔
      (∀ crowd : List (List Token), crowd.Sublist (c.contenders prompt (c.candidateLengths prompt)) →
        Crowd c.slots.place 0 crowd → crowd.length ≤ c.slots.delay prompt) ∧
      (lastLogits.isSome → ∀ e, c.entries.get? prompt = some e → e.lastLogits.isSome) := by
  have hreach : Reachable eng s := ⟨s₀,h0,hr.mono (fun _ _ _ hst => hst.2)⟩
  have hbooks : c.Books False s.scheduler.pool s.held := by
    have := (books_of_reachable hreach).books
    unfold Scheduler.Books at this
    rwa [hc] at this
  have hshelved : c.Shelved now :=
    ⟨fun k e he => (hbooks.keyed k e he).1,hreach.cacheHas PrefixCache.kept_bounded c hc,
      cacheHas_of_reads h0 (PrefixCache.keptAt_usedBy now) hr c hc⟩
  rw [hshelved.keepsPrompt_iff hroom hmin hkv s.scheduler.pool,length_missed_le_iff]
  rfl

def twoTokenKv : KvCache ℕ := .legacy [([[0,0]],[[0,0]]),([[0,0]],[[0,0]])]

/-- A prompt of two tokens in a cache of eight entries. -/
theorem insert_keeps_prompt_iff_roomy :
    (PrefixCache.init 8 2 1 Nat.one_pos : PrefixCache ℕ Token).KeepsPrompt roomySystem.scheduler.pool [5,6]
      twoTokenKv (some 7) 3 := by
  have hr : Reaches (guarded (fun ev _ => ev.ReadsWithin (fun n => n ≤ 3)) (Step (FakeLm.engine {})))
      roomySystem roomySystem := .refl _
  refine (insert_keeps_prompt_iff roomySystem_initial hr rfl (Or.inl (by decide)) (by decide) (by decide) (some 7)).mpr
    ⟨?_,?_⟩
  · intro crowd hsub _
    exact hsub.length_le.trans (by decide)
  · rintro _ _ ⟨⟩

def tightSystem : System ℕ Token :=
  { roomySystem with scheduler := { roomySystem.scheduler with prefixCache := some (.init 1 1 1 Nat.one_pos) } }

theorem tightSystem_initial : tightSystem.Initial :=
  .of_some rfl rfl rfl rfl rfl rfl rfl rfl (fun _ => rfl)

/-- The entry for the first token takes the place of that for the prompt of two. -/
theorem not_insert_keeps_prompt :
    ¬ ∀ (s₀ s : System ℕ Token) (now : ℕ), s₀.Initial →
      Reaches (guarded (fun ev _ => ev.ReadsWithin (fun n => n ≤ now)) (Step (FakeLm.engine {}))) s₀ s →
      ∀ c, s.scheduler.prefixCache = some c →
      (c.entries.size < c.maxEntries ∨ ∃ k e, c.entries.get? k = some e ∧ e.refs = 0) →
      ∀ (prompt : List Token) (kvCache : KvCache ℕ), c.minTokens ≤ prompt.length →
      prompt.length ≤ cacheSeqLen kvCache → ∀ lastLogits : Option Token,
      c.KeepsPrompt s.scheduler.pool prompt kvCache lastLogits now := by
  intro h
  obtain ⟨hit,hpeek,hn,_⟩ := (h tightSystem tightSystem 3 tightSystem_initial (.refl _) _ rfl (Or.inl (by decide)) [5,6]
    twoTokenKv (by decide) (by decide) (some 7)).hit
  have hone : (((PrefixCache.init 1 1 1 Nat.one_pos : PrefixCache ℕ Token).insert tightSystem.scheduler.pool [5,6]
      (some twoTokenKv) (some 7) 3).1.peek [5,6]).map PrefixHit.nTokens = some 1 := by
    decide
  rw [hpeek,Option.map_some,hn] at hone
  cases hone

end FluxEngine
