import FluxEngine.Engine.FakeModel
import FluxEngine.Serving.Progress

/-! # Soundness of prefix reuse

Every stored entry holds the KV and logits of its key, and every sequence is
bound to a prefix that holds what it says, over all runs of the serving
machine.
-/
namespace FluxEngine
open OrderedDict Transition
variable {P L : Type} [Inhabited L]

namespace CausalModel
variable {eng : CachedEngine P L} (M : CausalModel eng.model) {x y : Sequence P L}

theorem prefixSound_congr (hp : x.prefixPart = y.prefixPart) (ht : x.promptTokenIds = y.promptTokenIds)
    (h : M.PrefixSound y) : M.PrefixSound x := by
  simp only [Sequence.prefixPart,Prod.mk.injEq] at hp
  obtain ⟨_,h1,h2,h3⟩ := hp
  intro cache hc
  rw [h1,ht,h3]
  rw [h2] at hc
  exact h cache hc

theorem prefixSound_of_none (h : x.prefixKv = none) : M.PrefixSound x := by
  intro cache hc
  rw [h] at hc
  cases hc

/-- Stored content that is what its key says. -/
def Stored (s : Scheduler P L) : Prop :=
  ∀ k c, s.contentAt k = some c →
    iterKv c.2.1 = M.kv k ∧ ∀ logits, c.2.2 = some logits → logits = M.logits k

theorem prefixSound_applyHit {s : Scheduler P L} (hs : M.Stored s) {seq : Sequence P L} {hit : PrefixHit P L}
    (hpeek : s.peekPrefix seq.promptTokenIds = some hit) : M.PrefixSound (Scheduler.applyHit seq hit) := by
  obtain ⟨c,e,hc,_,hhit⟩ := Scheduler.peekPrefix_eq_some hpeek
  have hcontent : s.contentAt hit.tokenIds = some e.content := by
    simp only [Scheduler.contentAt,hc,Option.bind_some,hhit.stored,Option.map_some]
  obtain ⟨hkv,hlg⟩ := hs _ _ hcontent
  rintro cache ⟨⟩
  refine ⟨hhit.atMost,?_,?_⟩
  · rw [hhit.kvCache,show iterKv e.kvCache = M.kv hit.tokenIds from hkv,hhit.key]
    rfl
  · intro logits hl
    simp only [Scheduler.applyHit,hhit.lastLogits] at hl
    split at hl
    · rename_i hn
      refine ⟨hn,?_⟩
      rw [hlg logits hl,hhit.key,hn,List.take_length]
      rfl
    · cases hl

/-- Stored prefixes, bound prefixes and finished prefills are right. -/
structure Sound (s : System P L) : Prop where
  stored : M.Stored s.scheduler
  bound : ∀ i ∈ s.accepted, M.PrefixSound (s.heap i)
  unknown : ∀ i, i ∉ s.accepted → s.outbox i = none
  lastToken : ∀ i ∈ s.accepted, (s.heap i).lastToken = (s.heap i).outputIds.getLast?
  outbox : ∀ i ∈ s.accepted, (s.heap i).outputIds = [] → ∀ r, s.outbox i = some r →
    M.Computes r (s.heap i).promptTokenIds

namespace Sound
variable {M} {s t : System P L} {i : SeqId}

theorem of_frame (h : M.Sound s) (hacc : t.accepted = s.accepted)
    (hcontent : ∀ k, t.scheduler.contentAt k = s.scheduler.contentAt k) (hout : t.outbox = s.outbox)
    (hheap : ∀ i ∈ s.accepted, M.PrefixSound (t.heap i) ∧ (t.heap i).generated = (s.heap i).generated) :
    M.Sound t := by
  have hgen : ∀ i ∈ s.accepted, (t.heap i).promptTokenIds = (s.heap i).promptTokenIds ∧
      (t.heap i).outputIds = (s.heap i).outputIds ∧ (t.heap i).lastToken = (s.heap i).lastToken := by
    intro i hi
    have hg := (hheap i hi).2
    simp only [Sequence.generated,Prod.mk.injEq] at hg
    exact ⟨hg.1,hg.2.2.1,hg.2.2.2.1⟩
  constructor
  · intro k c hk
    rw [hcontent k] at hk
    exact h.stored k c hk
  · rw [hacc]
    exact fun i hi => (hheap i hi).1
  · rw [hacc,hout]
    exact h.unknown
  · rw [hacc]
    intro i hi
    obtain ⟨_,h2,h3⟩ := hgen i hi
    rw [h2,h3]
    exact h.lastToken i hi
  · rw [hacc,hout]
    intro i hi ho r hr
    obtain ⟨h1,h2,_⟩ := hgen i hi
    rw [h2] at ho
    rw [h1]
    exact h.outbox i hi ho r hr

theorem of_update (h : M.Sound s) (hacc : t.accepted = s.accepted)
    (hcontent : ∀ k, t.scheduler.contentAt k = s.scheduler.contentAt k) (hout : t.outbox = s.outbox)
    (hoff : ∀ j, j ≠ i → t.heap j = s.heap j)
    (hself : i ∈ s.accepted → M.PrefixSound (t.heap i) ∧ (t.heap i).generated = (s.heap i).generated) :
    M.Sound t := by
  refine h.of_frame hacc hcontent hout ?_
  intro j hj
  by_cases hji : j = i
  · subst hji
    exact hself hj
  · rw [hoff j hji]
    exact ⟨h.bound j hj,rfl⟩

theorem modify (h : M.Sound s) {f : Sequence P L → Sequence P L}
    (hpart : (f (s.heap i)).prefixPart = (s.heap i).prefixPart)
    (hgen : (f (s.heap i)).generated = (s.heap i).generated) : M.Sound (s.modify i f) := by
  refine h.of_update rfl (fun _ => rfl) rfl (fun j hj => Function.update_of_ne hj _ _) ?_
  intro hi
  rw [System.modify_heap,Function.update_self]
  exact ⟨M.prefixSound_congr hpart (congrArg Prod.fst hgen) (h.bound i hi),hgen⟩

theorem terminate (h : M.Sound s) {mark : Sequence P L → Sequence P L} (hm : System.Ends mark) :
    M.Sound (s.terminate i mark) := by
  refine h.of_update rfl System.terminate_contentAt rfl (fun j hj => System.terminate_heap_of_ne hj) ?_
  intro _
  exact ⟨M.prefixSound_of_none System.terminate_heap_self.2.2,hm.generated_eq⟩

theorem setQueue (h : M.Sound s) (queue : RequestQueue) : M.Sound (s.setQueue queue) :=
  h.of_frame rfl (fun _ => rfl) rfl (fun i hi => ⟨h.bound i hi,rfl⟩)

theorem adminAbort (h : M.Sound s) (i : SeqId) : M.Sound (s.adminAbort i) := by
  unfold System.adminAbort
  split
  · exact (h.setQueue _).terminate System.ends_abort
  · split
    · exact h.modify rfl rfl
    · exact h

theorem drainOne (h : M.Sound s) : M.Sound s.drainOne := by
  rcases s.drainOne_cases with ⟨_,heq⟩ | ⟨i,queue,_,_,heq⟩
  · rw [heq]
    exact h
  · rw [heq]
    exact (h.setQueue queue).terminate System.ends_abort

theorem submit (h : M.Sound s) (hi : i ∉ s.accepted) (prompt : List Token) (sampling : SamplingParams) :
    M.Sound (s.submit i prompt sampling) := by
  rcases s.submit_cases i prompt sampling with heq | ⟨queue,_,heq⟩
  · rw [heq]
    exact h
  rw [heq]
  have hcases : ∀ j, j ∈ s.accepted ++ [i] →
      j ∈ s.accepted ∧ Function.update s.heap i { promptTokenIds := prompt, sampling := sampling } j = s.heap j ∨
      j = i ∧ Function.update s.heap i { promptTokenIds := prompt, sampling := sampling } j =
        { promptTokenIds := prompt, sampling := sampling } := by
    intro j hj
    rcases List.mem_append.mp hj with hj | hj
    · exact Or.inl ⟨hj,Function.update_of_ne (fun hji : j = i => hi (hji ▸ hj)) _ _⟩
    · rw [List.mem_singleton.mp hj]
      exact Or.inr ⟨rfl,Function.update_self _ _ _⟩
  constructor
  · exact h.stored
  · intro j hj
    rcases hcases j hj with ⟨hold,heap⟩ | ⟨_,heap⟩
    · simp only [heap]
      exact h.bound j hold
    · simp only [heap]
      exact M.prefixSound_of_none rfl
  · exact fun j hj => h.unknown j (fun hold => hj (List.mem_append_left _ hold))
  · intro j hj
    rcases hcases j hj with ⟨hold,heap⟩ | ⟨_,heap⟩
    · simp only [heap]
      exact h.lastToken j hold
    · simp only [heap]
      rfl
  · intro j hj
    rcases hcases j hj with ⟨hold,heap⟩ | ⟨rfl,heap⟩
    · simp only [heap]
      exact h.outbox j hold
    · intro _ r hr
      simp only [h.unknown j hi] at hr
      cases hr

theorem putOutbox (h : M.Sound s) (hi : i ∈ s.accepted) {r : L × KvCache P}
    (hr : (s.heap i).outputIds = [] → M.Computes r (s.heap i).promptTokenIds) : M.Sound (s.putOutbox i r) := by
  refine ⟨h.stored,h.bound,?_,h.lastToken,?_⟩
  · intro j hj
    have hji : j ≠ i := fun hji => hj (hji ▸ hi)
    simp only [System.putOutbox,Function.update_of_ne hji]
    exact h.unknown j hj
  · intro j hj ho r' hr'
    by_cases hji : j = i
    · subst hji
      simp only [System.putOutbox,Function.update_self,Option.some.injEq] at hr'
      rw [← hr']
      exact hr ho
    · simp only [System.putOutbox,Function.update_of_ne hji] at hr'
      exact h.outbox j hj ho r' hr'

theorem putBatch (h : M.Sound s) {live : List SeqId} {r : List L × List (KvCache P)}
    (hl : ∀ i ∈ live, i ∈ s.accepted ∧ (s.heap i).outputIds ≠ []) : M.Sound (s.putBatch live r) := by
  refine ⟨h.stored,h.bound,?_,h.lastToken,?_⟩
  · intro j hj
    have hjl : j ∉ live := fun hjl => hj (hl j hjl).1
    simp only [System.putBatch,if_neg hjl]
    exact h.unknown j hj
  · intro j hj ho r' hr'
    by_cases hjl : j ∈ live
    · exact absurd ho (hl j hjl).2
    · simp only [System.putBatch,if_neg hjl] at hr'
      exact h.outbox j hj ho r' hr'

theorem noteToken (h : M.Sound s) (hi : i ∈ s.accepted) (token : Token) (stopIds : List Token) :
    M.Sound (s.recordToken i token stopIds) := by
  have hself : (s.recordToken i token stopIds).heap i =
      { (s.heap i).noteToken token stopIds with kvCache := (s.outbox i).map Prod.snd } :=
    Function.update_self _ _ _
  have hoff : ∀ j, j ≠ i → (s.recordToken i token stopIds).heap j = s.heap j :=
    fun j hj => Function.update_of_ne hj _ _
  have hout : ∀ j, j ≠ i → (s.recordToken i token stopIds).outbox j = s.outbox j :=
    fun j hj => Function.update_of_ne hj _ _
  constructor
  · exact h.stored
  · intro j hj
    by_cases hji : j = i
    · subst hji
      refine M.prefixSound_congr ?_ ?_ (h.bound j hj)
      · rw [hself,Sequence.noteToken_eq]
        rfl
      · rw [hself,Sequence.noteToken_eq]
    · rw [hoff j hji]
      exact h.bound j hj
  · intro j hj
    rw [hout j (fun hji => hj (hji ▸ hi))]
    exact h.unknown j hj
  · intro j hj
    by_cases hji : j = i
    · subst hji
      rw [hself,Sequence.noteToken_eq]
      simp
    · rw [hoff j hji]
      exact h.lastToken j hj
  · intro j hj
    by_cases hji : j = i
    · subst hji
      rw [hself,Sequence.noteToken_eq]
      simp
    · rw [hoff j hji,hout j hji]
      exact h.outbox j hj

theorem admitRound (h : M.Sound s) (hb : s.Books False) (now : ℕ) : M.Sound (s.admitRound now) := by
  have hcontent := s.admitRound_contentAt now
  rcases hb.admitRound_cases now False.elim with ⟨_,heq⟩ | ⟨i,queue,_,hiw,_,⟨sch,seq,heq,hg⟩ | ⟨sch,heq,_⟩⟩
  · rw [heq]
    exact h
  · rw [heq] at hcontent ⊢
    refine h.of_update rfl hcontent rfl (fun j hj => Function.update_of_ne hj _ _) ?_
    intro hi
    simp only [Function.update_self]
    refine ⟨?_,Sequence.generated_of_life hg.life⟩
    have hprompt := Sequence.promptTokenIds_of_life hg.life
    rcases hg.bound with ⟨_,hpart,_⟩ | ⟨hit,hpeek,hpart,_⟩
    · exact M.prefixSound_congr hpart hprompt (h.bound i hi)
    · exact M.prefixSound_congr hpart hprompt (M.prefixSound_applyHit h.stored hpeek)
  · rw [heq] at hcontent ⊢
    exact h.of_frame rfl hcontent rfl (fun i hi => ⟨h.bound i hi,rfl⟩)

theorem bind (h : M.Sound s) (hb : s.Books False) (hi : s.Live i) (now : ℕ) :
    M.Sound (s.bindPrefixAtPrefill i now) := by
  obtain ⟨hr,hpart⟩ := hb.bind hi now False.elim
  have hout : (s.bindPrefixAtPrefill i now).outbox = s.outbox := s.bindPrefixAtPrefill_outbox i now
  refine h.of_update hr.accepted (s.bindPrefixAtPrefill_contentAt i now) hout hr.off ?_
  intro hacc
  refine ⟨?_,Sequence.generated_of_life hr.life⟩
  have hprompt := Sequence.promptTokenIds_of_life hr.life
  rcases hpart with hpart | ⟨hit,hpeek,hpart⟩
  · exact M.prefixSound_congr hpart hprompt (h.bound i hacc)
  · exact M.prefixSound_congr hpart hprompt (M.prefixSound_applyHit h.stored hpeek)

theorem store (h : M.Sound s) (hb : s.Books False) (hi : s.Live i) (ho : (s.heap i).outputIds = [])
    (now : ℕ → ℕ) : M.Sound (s.storePrefix i now) := by
  obtain ⟨hr,hpart⟩ := hb.store hi now
  have hout : (s.storePrefix i now).outbox = s.outbox := s.storePrefix_outbox i now
  have hsame : ∀ j ∈ s.accepted, M.PrefixSound ((s.storePrefix i now).heap j) ∧
      ((s.storePrefix i now).heap j).generated = (s.heap j).generated := by
    intro j hj
    by_cases hji : j = i
    · subst hji
      refine ⟨?_,Sequence.generated_of_life hr.life⟩
      rcases hpart with hpart | ⟨h1,h2,h3⟩
      · rw [hpart]
        exact h.bound j hj
      · have hprompt := Sequence.promptTokenIds_of_life hr.life
        intro cache hc
        rw [h2] at hc
        rw [h1,h3,hprompt]
        exact h.bound j hj cache hc
    · rw [hr.off j hji]
      exact ⟨h.bound j hj,rfl⟩
  have hframe : M.Sound { s.storePrefix i now with scheduler := s.scheduler } :=
    h.of_frame hr.accepted (fun _ => rfl) hout hsame
  refine ⟨?_,hframe.bound,hframe.unknown,hframe.lastToken,hframe.outbox⟩
  intro k c hk
  rcases System.storePrefix_contentAt hk with hold | ⟨logits,kv,n,hbox,hn,rfl,rfl⟩
  · exact h.stored k c hold
  · obtain ⟨hlg,hkv⟩ := h.outbox i hi.1 ho _ hbox
    refine ⟨M.sliceCache_kv hkv hn,?_⟩
    intro l hl
    simp only at hl
    split at hl
    · rename_i hlen
      cases hl
      rw [hlen,List.take_length]
      exact hlg
    · cases hl

theorem step [Inhabited P] (h : M.Sound s) (hb : s.Books False) {ev : Event} (hs : Step eng ev s t) :
    M.Sound t := by
  cases hs with
  | submit prompt sampling hi => exact h.submit hi prompt sampling
  | requestAbort i => exact h.modify rfl rfl
  | adminAbort i => exact h.adminAbort i
  | requestStop => exact h.of_frame rfl (fun _ => rfl) rfl (fun i hi => ⟨h.bound i hi,rfl⟩)
  | admission now => exact h.admitRound hb now
  | bookkeeping stats inFlight total => exact h.of_frame rfl (fun _ => rfl) rfl (fun i hi => ⟨h.bound i hi,rfl⟩)
  | setStatus hi hst => exact h.modify rfl rfl
  | bind now hi => exact h.bind hb hi now
  | @prefill s i r hi ho hr =>
    refine h.putOutbox hi.1 ?_
    intro _
    exact (M.computes_of_prefillWithReuse (h.bound i hi.1) hr).2
  | store now hi ho => exact h.store hb hi ho now
  | @decode s i tok kv r hi ht hkv hr =>
    refine h.putOutbox hi.1 ?_
    intro ho
    have hlast := h.lastToken i hi.1
    rw [ht,ho] at hlast
    cases hlast
  | @decodeBatch s live r hl hr =>
    refine h.putBatch ?_
    intro i hi
    obtain ⟨hlive,hlast,_⟩ := hl i hi
    refine ⟨hlive.1,?_⟩
    intro ho
    rw [h.lastToken i hlive.1,ho] at hlast
    cases hlast
  | note rnd hi hf ho => exact h.noteToken hi.1 _ _
  | abort hi => exact h.terminate System.ends_abort
  | fail e hi => exact h.terminate (System.ends_fail e)
  | finish engineName hi hf => exact h.terminate (System.ends_finish _)
  | drain => exact h.drainOne

end Sound

theorem sound_of_initial {s : System P L} (h : s.Initial) : M.Sound s := by
  refine ⟨?_,?_,fun i _ => h.outbox i,?_,?_⟩
  · intro k c hk
    obtain ⟨pc,hpc,hk⟩ := Option.bind_eq_some_iff.mp hk
    rw [(h.cache pc hpc).1] at hk
    cases hk
  · rw [h.accepted]
    simp
  · rw [h.accepted]
    simp
  · rw [h.accepted]
    simp

theorem sound_of_reachable [Inhabited P] {s : System P L} (h : Reachable eng s) : s.Books False ∧ M.Sound s := by
  have hstep : ∀ ev s t, s.Books False ∧ M.Sound s → Step eng ev s t → t.Books False ∧ M.Sound t := by
    intro ev s t hs hst
    exact ⟨hs.1.step hst False.elim,hs.2.step hs.1 hst⟩
  exact h.invariant (fun s h0 => ⟨h0.books,M.sound_of_initial h0⟩) hstep

end CausalModel

namespace PrefixCache
variable {c : PrefixCache P L} {prompt k : List Token}

/-- A stored key of at least `min_tokens` that the prompt starts with. -/
def StoredPrefix (c : PrefixCache P L) (prompt k : List Token) : Prop :=
  (c.entries.get? k).isSome ∧ c.minTokens ≤ k.length ∧ k <+: prompt

omit [Inhabited L] in
theorem storedPrefix_iff_take :
    c.StoredPrefix prompt k ↔ ∃ n, c.minTokens ≤ n ∧ n ≤ prompt.length ∧ k = prompt.take n ∧
      (c.entries.get? (prompt.take n)).isSome := by
  constructor
  · rintro ⟨hsome,hmin,hpre⟩
    have hk : k = prompt.take k.length := (List.prefix_iff_eq_take.mp hpre)
    exact ⟨k.length,hmin,hpre.length_le,hk,hk ▸ hsome⟩
  · rintro ⟨n,hmin,hle,rfl,hsome⟩
    refine ⟨hsome,?_,List.take_prefix n prompt⟩
    rw [List.length_take]
    omega

omit [Inhabited L] in
theorem peek_eq_none_iff : c.peek prompt = none ↔ ∀ k, ¬c.StoredPrefix prompt k := by
  rw [peek_eq_none]
  constructor
  · intro h k hk
    obtain ⟨n,hmin,hle,_,hsome⟩ := storedPrefix_iff_take.mp hk
    rw [h n hmin hle] at hsome
    cases hsome
  · intro h n hmin hle
    cases hg : c.entries.get? (prompt.take n) with
    | none => rfl
    | some e =>
      exact absurd (storedPrefix_iff_take.mpr ⟨n,hmin,hle,rfl,by rw [hg]; rfl⟩) (h _)

/-- The hit is the longest stored prefix, with logits only for the whole prompt. -/
structure LongestHit (c : PrefixCache P L) (prompt : List Token) (hit : PrefixHit P L) : Prop where
  stored : c.StoredPrefix prompt hit.tokenIds
  length : hit.nTokens = hit.tokenIds.length
  longest : ∀ k, c.StoredPrefix prompt k → k.length ≤ hit.tokenIds.length
  whole : hit.lastLogits.isSome → hit.tokenIds = prompt

omit [Inhabited L] in
theorem IsHit.longestHit {e : PrefixEntry P L} {hit : PrefixHit P L} (h : c.IsHit prompt e hit) :
    c.LongestHit prompt hit := by
  have hlen := h.length_key
  refine ⟨storedPrefix_iff_take.mpr ⟨hit.nTokens,h.atLeast,h.atMost,h.key,?_⟩,hlen.symm,?_,?_⟩
  · rw [← h.key,h.stored]
    rfl
  · intro k hk
    obtain ⟨n,_,hle,rfl,hsome⟩ := storedPrefix_iff_take.mp hk
    rw [List.length_take,Nat.min_eq_left hle,hlen]
    by_contra hlt
    rw [h.longest n (by omega) hle] at hsome
    cases hsome
  · intro hl
    rw [h.lastLogits] at hl
    split at hl
    · rename_i hn
      rw [h.key,hn,List.take_length]
    · cases hl

omit [Inhabited L] in
theorem Books.lookup_hit {full : Prop} {pool : Option BlockPool} {held : List Token → ℕ}
    (h : c.Books full pool held) (now : ℕ) (hfull : ¬full) :
    ((c.lookup pool prompt now).1.isSome ↔ (c.peek prompt).isSome) ∧
    ∀ hit, (c.lookup pool prompt now).1 = some hit → c.LongestHit prompt hit := by
  rcases h.lookup prompt now (fun hf => absurd hf hfull) with
    ⟨hpeek,hnone,_⟩ | ⟨hit,e,ids,pins,pool',r,hpeek,hhit,_,hr,hr1,_⟩
  · rw [hnone,hpeek]
    simp
  · rw [hr,hr1,hpeek]
    refine ⟨Iff.rfl,?_⟩
    rintro _ ⟨⟩
    have hl := hhit.longestHit
    exact ⟨hl.stored,hl.length,hl.longest,hl.whole⟩

omit [Inhabited L] in
theorem peek_isSome_iff : (c.peek prompt).isSome ↔ ∃ k, c.StoredPrefix prompt k := by
  rw [← not_iff_not,Bool.not_eq_true,Option.isSome_eq_false_iff,Option.isNone_iff_eq_none,peek_eq_none_iff]
  exact not_exists.symm

end PrefixCache

variable [Inhabited P] {eng : CachedEngine P L} (M : CausalModel eng.model)

def logitsAndKv (r : L × KvCache P) : L × Layers P := (r.1,iterKv r.2)

omit [Inhabited P] in
theorem CausalModel.Computes.logitsAndKv_eq {M : CausalModel eng.model} {ids : List Token} {r r' : L × KvCache P}
    (h : M.Computes r ids) (h' : M.Computes r' ids) : logitsAndKv r = logitsAndKv r' :=
  Prod.ext (h.1.trans h'.1.symm) (h.2.trans h'.2.symm)

/-- In every reachable state each entry holds the KV and logits of its key, a
peek and a lookup find the longest stored prefix of any prompt, and a prefill
with reuse computes what the prefill of the whole prompt computes (both raise on
an empty prompt). -/
theorem prefix_reuse_sound {s : System P L} (h : Reachable eng s) :
    (∀ c k e, s.scheduler.prefixCache = some c → c.entries.get? k = some e →
      iterKv e.kvCache = M.kv k ∧ ∀ logits, e.lastLogits = some logits → logits = M.logits k) ∧
    (∀ c prompt now, s.scheduler.prefixCache = some c →
      ((c.peek prompt).isSome ↔ ∃ k, c.StoredPrefix prompt k) ∧
      (∀ hit, c.peek prompt = some hit → c.LongestHit prompt hit) ∧
      ((c.lookup s.scheduler.pool prompt now).1.isSome ↔ (c.peek prompt).isSome) ∧
      (∀ hit, (c.lookup s.scheduler.pool prompt now).1 = some hit → c.LongestHit prompt hit)) ∧
    (∀ i now, s.Live i →
      (prefillWithReuse eng ((s.bindPrefixAtPrefill i now).heap i)).map logitsAndKv =
        (eng.prefill (s.heap i).promptTokenIds).map logitsAndKv ∧
      ((s.heap i).promptTokenIds ≠ [] →
        ∃ r, prefillWithReuse eng ((s.bindPrefixAtPrefill i now).heap i) = .ok r)) := by
  obtain ⟨hb,hs⟩ := M.sound_of_reachable h
  refine ⟨?_,?_,?_⟩
  · intro c k e hc he
    have hcontent : s.scheduler.contentAt k = some e.content := by
      simp only [Scheduler.contentAt,hc,Option.bind_some,he,Option.map_some]
    exact hs.stored k e.content hcontent
  · intro c prompt now hc
    have hbooks : c.Books False s.scheduler.pool s.held := by
      have hsch := hb.books
      unfold Scheduler.Books at hsch
      rwa [hc] at hsch
    obtain ⟨hsome,hlookup⟩ := hbooks.lookup_hit now not_false
    refine ⟨PrefixCache.peek_isSome_iff,?_,hsome,hlookup⟩
    intro hit hp
    obtain ⟨e,he,_⟩ := PrefixCache.peek_eq_some hp
    exact he.longestHit
  · intro i now hi
    have hr := (hb.bind hi now False.elim).1
    have hprompt := Sequence.promptTokenIds_of_life hr.life
    have hbound := (hs.bind hb hi now).bound i (by rw [hr.accepted]; exact hi.1)
    by_cases hne : (s.heap i).promptTokenIds = []
    · rw [M.prefillWithReuse_nil hbound (hprompt.trans hne),hne,M.prefill_nil]
      exact ⟨rfl,fun h => absurd rfl h⟩
    · obtain ⟨r,hr,hc⟩ := M.prefillWithReuse_computes hbound (by rwa [hprompt])
      obtain ⟨r0,hr0,hc0⟩ := M.prefill_computes hne
      rw [hprompt] at hc
      rw [hr,hr0]
      exact ⟨congrArg Except.ok (hc.logitsAndKv_eq hc0),fun _ => ⟨r,rfl⟩⟩

def fakeModel : StepwiseModel (FakeLm.engine {}).model := FakeLm.stepwise {} (by decide)

/-- Eight blocks of one token. -/
def roomySystem : System ℕ Token where
  scheduler :=
    { queue := { maxWaiting := 8 }, maxBatch := 4, policy := .fcfs
      pool := some ⟨8,1,List.range 8,.empty,.empty,by decide,Nat.one_pos⟩
      prefixCache := some (.init 8 2 1 Nat.one_pos) }

theorem roomySystem_initial : roomySystem.Initial :=
  .of_some rfl rfl rfl rfl rfl rfl rfl rfl (fun _ => rfl)

/-- Serve one request, and admit a second one that continues its prompt. -/
def reusedRun : List Event :=
  [.submit 0 [5,6] oneToken,.admission 0,.prefill 0,.store 0 id,.note 0 0,.finish 0 "continuous",
    .submit 1 [5,6,7] oneToken,.admission 1]

theorem prefix_reuse_sound_reused :
    ∃ s, Reachable (FakeLm.engine {}) s ∧ (s.heap 1).prefixTokens = 2 ∧
      (prefillWithReuse (FakeLm.engine {}) ((s.bindPrefixAtPrefill 1 0).heap 1)).map logitsAndKv =
        ((FakeLm.engine {}).prefill (s.heap 1).promptTokenIds).map logitsAndKv ∧
      ∃ r, prefillWithReuse (FakeLm.engine {}) ((s.bindPrefixAtPrefill 1 0).heap 1) = .ok r := by
  have hobs : (execAll (FakeLm.engine {}) reusedRun roomySystem).map
      (fun s => ((s.heap 1).prefixTokens,(s.heap 1).promptTokenIds,decide (s.Live 1))) = some (2,[5,6,7],true) := by
    decide
  obtain ⟨s,hs,hobs⟩ := Option.map_eq_some_iff.mp hobs
  simp only [Prod.mk.injEq,decide_eq_true_eq] at hobs
  have hreach : Reachable (FakeLm.engine {}) s := ⟨roomySystem,roomySystem_initial,_,execAll_run hs⟩
  obtain ⟨heq,hok⟩ := (prefix_reuse_sound fakeModel.toCausalModel hreach).2.2 1 0 hobs.2.2
  refine ⟨s,hreach,hobs.1,heq,hok ?_⟩
  rw [hobs.2.1]
  exact List.cons_ne_nil _ _

end FluxEngine
