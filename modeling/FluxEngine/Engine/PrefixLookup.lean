import FluxEngine.Engine.Scheduler

/-! # Longest-prefix lookup and what the cache stores

A peek walks down from the whole prompt.  The content of an entry (its key, KV
cache and logits) is written by insertions only; acquiring, releasing and
adopting an entry leave it alone, and an eviction can only remove it.
-/
namespace FluxEngine
open OrderedDict
variable {P L : Type}

def PrefixEntry.content (e : PrefixEntry P L) : List Token × KvCache P × Option L :=
  (e.tokenIds,e.kvCache,e.lastLogits)

namespace PrefixCache
variable {c c' : PrefixCache P L} {pool : Option BlockPool} {tokenIds key : List Token}

/-- What a hit says about the cache and the prompt. -/
structure IsHit (c : PrefixCache P L) (tokenIds : List Token) (entry : PrefixEntry P L)
    (hit : PrefixHit P L) : Prop where
  atLeast : c.minTokens ≤ hit.nTokens
  atMost : hit.nTokens ≤ tokenIds.length
  key : hit.tokenIds = tokenIds.take hit.nTokens
  stored : c.entries.get? hit.tokenIds = some entry
  kvCache : hit.kvCache = entry.kvCache
  lastLogits : hit.lastLogits = if hit.nTokens = tokenIds.length then entry.lastLogits else none
  longest : ∀ m, hit.nTokens < m → m ≤ tokenIds.length → c.entries.get? (tokenIds.take m) = none

theorem peekFrom_eq_some {n : ℕ} (hn : n ≤ tokenIds.length)
    (hnone : ∀ m, n < m → m ≤ tokenIds.length → c.entries.get? (tokenIds.take m) = none)
    {hit : PrefixHit P L} (h : c.peekFrom tokenIds n = some hit) :
    ∃ entry, IsHit c tokenIds entry hit ∧ hit.blockIds = entry.blockIds := by
  induction n with
  | zero => simp [peekFrom] at h
  | succ n ih =>
    unfold peekFrom at h
    by_cases hm : c.minTokens ≤ n + 1
    · rw [if_pos hm] at h
      cases he : c.entries.get? (tokenIds.take (n + 1)) with
      | none =>
        rw [he] at h
        refine ih (by omega) ?_ h
        intro m hlt hle
        by_cases hmn : m = n + 1
        · rw [hmn]
          exact he
        · exact hnone m (by omega) hle
      | some entry =>
        rw [he] at h
        cases h
        exact ⟨entry,⟨hm,hn,rfl,he,rfl,rfl,hnone⟩,rfl⟩
    · rw [if_neg hm] at h
      cases h

theorem peekFrom_eq_none {n : ℕ} :
    c.peekFrom tokenIds n = none ↔
      ∀ m, c.minTokens ≤ m → m ≤ n → c.entries.get? (tokenIds.take m) = none := by
  induction n with
  | zero =>
    have := c.minTokens_pos
    simp only [peekFrom,true_iff]
    intro m hm h0
    omega
  | succ n ih =>
    unfold peekFrom
    by_cases hm : c.minTokens ≤ n + 1
    · rw [if_pos hm]
      cases he : c.entries.get? (tokenIds.take (n + 1)) with
      | none =>
        rw [ih]
        constructor
        · intro h m hmin hle
          by_cases hmn : m = n + 1
          · rw [hmn]
            exact he
          · exact h m hmin (by omega)
        · intro h m hmin hle
          exact h m hmin (by omega)
      | some entry =>
        simp only [reduceCtorEq,false_iff]
        intro h
        rw [h (n + 1) hm le_rfl] at he
        cases he
    · rw [if_neg hm]
      simp only [true_iff]
      intro m hmin hle
      omega

theorem peek_eq_some {hit : PrefixHit P L} (h : c.peek tokenIds = some hit) :
    ∃ entry, IsHit c tokenIds entry hit ∧ hit.blockIds = entry.blockIds :=
  peekFrom_eq_some le_rfl (fun m hlt hle => absurd hlt (by omega)) h

theorem peek_eq_none :
    c.peek tokenIds = none ↔
      ∀ m, c.minTokens ≤ m → m ≤ tokenIds.length → c.entries.get? (tokenIds.take m) = none :=
  peekFrom_eq_none

theorem IsHit.length_key {entry : PrefixEntry P L} {hit : PrefixHit P L} (h : IsHit c tokenIds entry hit) :
    hit.tokenIds.length = hit.nTokens := by
  rw [h.key,List.length_take]
  exact Nat.min_eq_left h.atMost

theorem mem_alignedLengths {k m : ℕ} {lengths : List ℕ} (h : m ∈ c.alignedLengths k lengths) :
    m ∈ lengths ∨ c.minTokens ≤ m ∧ m ≤ k * c.blockSize := by
  induction k generalizing lengths with
  | zero => exact Or.inl h
  | succ k ih =>
    have hle : k * c.blockSize ≤ (k + 1) * c.blockSize := Nat.mul_le_mul_right _ (by omega)
    simp only [alignedLengths] at h
    split at h
    · rename_i hmin
      rcases ih h with hm | ⟨h1,h2⟩
      · split at hm
        · exact Or.inl hm
        · rcases List.mem_append.mp hm with hm | hm
          · exact Or.inl hm
          · rw [List.mem_singleton.mp hm]
            exact Or.inr ⟨hmin,le_rfl⟩
      · exact Or.inr ⟨h1,h2.trans hle⟩
    · exact Or.inl h

theorem mem_candidateLengths {m : ℕ} (h : m ∈ c.candidateLengths tokenIds) :
    c.minTokens ≤ m ∧ m ≤ tokenIds.length := by
  rcases mem_alignedLengths h with hm | ⟨h1,h2⟩
  · split at hm
    · rename_i hmin
      rw [List.mem_singleton.mp hm]
      exact ⟨hmin,le_rfl⟩
    · cases hm
  · exact ⟨h1,h2.trans (Nat.div_mul_le_self _ _)⟩

def SameContents (c c' : PrefixCache P L) : Prop :=
  ∀ k, (c'.entries.get? k).map PrefixEntry.content = (c.entries.get? k).map PrefixEntry.content

theorem SameContents.refl (c : PrefixCache P L) : SameContents c c := fun _ => rfl

theorem SameContents.stored (h : SameContents c c') {k : List Token} {e' : PrefixEntry P L}
    (he : c'.entries.get? k = some e') : ∃ e, c.entries.get? k = some e ∧ e.content = e'.content := by
  have hk := h k
  rw [he] at hk
  cases hc : c.entries.get? k with
  | none => simp [hc] at hk
  | some e => exact ⟨e,rfl,by simpa [hc] using hk.symm⟩

theorem sameContents_set {e : PrefixEntry P L} (e' : PrefixEntry P L) (he : c.entries.get? key = some e)
    (hc : e'.content = e.content) (hset : c'.entries = c.entries.set key e') : SameContents c c' := by
  intro k
  rw [hset,get?_set]
  by_cases hk : k = key
  · subst hk
    simp [he,hc]
  · simp [hk]

theorem content_acquireBlocks (entry : PrefixEntry P L) :
    (c.acquireBlocks pool entry).1.content = entry.content := by
  unfold acquireBlocks
  cases pool with
  | none => rfl
  | some p =>
    simp only
    split
    · rfl
    · cases c.shareFromLive (some p) entry.tokenIds with
      | some shared => rfl
      | none =>
        simp only
        cases p.reserve entry.tokenIds.length none with
        | none => rfl
        | some r => rfl

theorem sameContents_lookup (now : ℕ) : SameContents c (c.lookup pool tokenIds now).2.1 := by
  unfold lookup
  cases hp : c.peek tokenIds with
  | none => exact SameContents.refl c
  | some hit =>
    simp only
    cases he : c.entries.get? hit.tokenIds with
    | none => exact SameContents.refl c
    | some entry =>
      let acquired := (c.acquireBlocks pool entry).1
      exact sameContents_set { acquired with hits := acquired.hits + 1, lastUsed := now } he
        (content_acquireBlocks entry) rfl

theorem sameContents_release (tokenIds : Option (List Token)) :
    SameContents c (c.release pool tokenIds).1 := by
  unfold release
  cases tokenIds with
  | none => exact SameContents.refl c
  | some key =>
    simp only
    split
    · exact SameContents.refl c
    · cases he : c.entries.get? key with
      | none => exact SameContents.refl c
      | some entry =>
        simp only
        split
        · exact SameContents.refl c
        · exact sameContents_set { entry with
            refs := entry.refs - 1
            blockIds := if entry.refs - 1 = 0 then [] else entry.blockIds } he rfl rfl

theorem sameContents_adopt (id : SeqId) (seq : Sequence P L) (now : ℕ) :
    SameContents c (c.adopt pool id seq now).1 := by
  unfold adopt
  cases seq.prefixKey with
  | some key => exact SameContents.refl c
  | none =>
    simp only
    cases c.candidateLengths seq.promptTokenIds with
    | nil => exact SameContents.refl c
    | cons n lengths =>
      simp only
      cases he : c.entries.get? (seq.promptTokenIds.take n) with
      | none => exact SameContents.refl c
      | some entry =>
        simp only
        split
        · exact sameContents_set (c.acquireBlocks pool entry).1 he (content_acquireBlocks entry) rfl
        · cases pool with
          | none => exact sameContents_set { entry with blockIds := [], refs := 1, lastUsed := now } he rfl rfl
          | some p =>
            exact sameContents_set { entry with
              blockIds := (p.detach id seq (p.blocksNeeded entry.tokenIds.length)).1
              refs := 1
              lastUsed := now } he rfl rfl

theorem get?_evictLoop {fuel : ℕ} {k : List Token} {e : PrefixEntry P L}
    (h : (evictLoop fuel c pool).1.entries.get? k = some e) : c.entries.get? k = some e := by
  induction fuel generalizing c pool with
  | zero => exact h
  | succ fuel ih =>
    unfold evictLoop at h
    split at h
    · cases hv : oldest (c.entries.values.filter (fun e => e.refs = 0)) with
      | none => simpa [hv] using h
      | some victim =>
        simp only [hv] at h
        have hs := ih h
        simp only [get?_pop] at hs
        split at hs
        · cases hs
        · exact hs
    · exact h

theorem get?_evict {k : List Token} {e : PrefixEntry P L}
    (h : (c.evict pool).1.entries.get? k = some e) : c.entries.get? k = some e := get?_evictLoop h

/-- An entry as an insertion of the prefix of length `n` makes it. -/
def freshEntry (tokenIds : List Token) (kvCache : KvCache P) (lastLogits : Option L) (now n : ℕ) :
    PrefixEntry P L where
  tokenIds := tokenIds.take n
  kvCache := sliceCache kvCache n
  lastLogits := if n = tokenIds.length then lastLogits else none
  lastUsed := now

/-- An entry found after an insertion was there before or is fresh. -/
theorem get?_insertLoop {kvCache : KvCache P} {lastLogits : Option L} {now : ℕ} {lengths : List ℕ}
    {k : List Token} {e : PrefixEntry P L}
    (h : (insertLoop tokenIds kvCache lastLogits now lengths c pool).1.entries.get? k = some e) :
    c.entries.get? k = some e ∨ ∃ n ∈ lengths, n ≤ cacheSeqLen kvCache ∧ k = tokenIds.take n ∧
      e = freshEntry tokenIds kvCache lastLogits now n := by
  induction lengths generalizing c pool with
  | nil => exact Or.inl h
  | cons n lengths ih =>
    have hskip : ∀ c' : PrefixCache P L, ∀ pool' : Option BlockPool,
        (insertLoop tokenIds kvCache lastLogits now lengths c' pool').1.entries.get? k = some e →
        c'.entries.get? k = some e ∨ ∃ n' ∈ n :: lengths, n' ≤ cacheSeqLen kvCache ∧
          k = tokenIds.take n' ∧ e = freshEntry tokenIds kvCache lastLogits now n' := by
      intro c' pool' h'
      rcases ih h' with h' | ⟨m,hm,hr⟩
      · exact Or.inl h'
      · exact Or.inr ⟨m,List.mem_cons_of_mem _ hm,hr⟩
    unfold insertLoop at h
    split at h
    · exact hskip c pool h
    · rename_i hlen
      split at h
      · exact hskip c pool h
      · simp only at h
        split at h
        · rcases hskip _ _ h with h | h
          · exact Or.inl (get?_evict h)
          · exact Or.inr h
        · rcases hskip _ _ h with h | h
          · simp only [get?_set] at h
            split at h
            · rename_i hk
              cases h
              exact Or.inr ⟨n,List.mem_cons_self,by omega,hk,rfl⟩
            · exact Or.inl (get?_evict h)
          · exact Or.inr h

theorem get?_insert {kvCache : KvCache P} {lastLogits : Option L} {now : ℕ} {k : List Token}
    {e : PrefixEntry P L}
    (h : (c.insert pool tokenIds (some kvCache) lastLogits now).1.entries.get? k = some e) :
    c.entries.get? k = some e ∨ ∃ n, c.minTokens ≤ n ∧ n ≤ tokenIds.length ∧ n ≤ cacheSeqLen kvCache ∧
      k = tokenIds.take n ∧ e = freshEntry tokenIds kvCache lastLogits now n := by
  unfold insert at h
  simp only at h
  split at h
  · exact Or.inl h
  · rcases get?_insertLoop h with h | ⟨n,hn,hle,hk,he⟩
    · exact Or.inl h
    · obtain ⟨h1,h2⟩ := mem_candidateLengths hn
      exact Or.inr ⟨n,h1,h2,hle,hk,he⟩

end PrefixCache
end FluxEngine
