import FluxEngine.Engine.PrefixAccounts

/-! # Admission and the books of the scheduler

The books of a scheduler are those of its prefix cache, or of the bare pool
when there is no cache.  `Granted` collects what a successful allocation does
to the books, the allocation table and the sequence.
-/
namespace FluxEngine
open OrderedDict
variable {P L : Type}

namespace PrefixCache
variable {full : Prop} {c : PrefixCache P L} {pool pool' : Option BlockPool} {held : List Token → ℕ}

theorem Books.setPool (h : Books full pool c held)
    (hshape : pool'.map BlockPool.shape = pool.map BlockPool.shape)
    (hbal : ∀ p, pool' = some p → p.Balanced (pinCount c.blockPins)) : Books full pool' c held := by
  refine ⟨h.keyed,h.refs,?_,h.distinct,h.pins,h.positive,hbal,?_⟩
  · exact fun k e he hu => h.unused k e he (hu.imp_right (Books.pool_eq_none hshape).mp)
  · intro hfull p' hp' k e he hr
    rw [hp',Option.map_some] at hshape
    obtain ⟨p,hp,hs⟩ := Option.map_eq_some_iff.mp hshape.symm
    rw [BlockPool.blocksNeeded_congr hs.symm]
    exact h.charged hfull p hp k e he hr

end PrefixCache

namespace Scheduler
variable {full : Prop} {s t : Scheduler P L} {held : List Token → ℕ} {id : SeqId} {seq seq' : Sequence P L}

def Books (full : Prop) (s : Scheduler P L) (held : List Token → ℕ) : Prop :=
  match s.prefixCache with
  | none => (∀ k, held k = 0) ∧ ∀ p, s.pool = some p → p.Balanced (fun _ => 0)
  | some c => c.Books full s.pool held

def pins (s : Scheduler P L) (b : ℕ) : ℕ :=
  match s.prefixCache with
  | none => 0
  | some c => pinCount c.blockPins b

def contentAt (s : Scheduler P L) (k : List Token) : Option (List Token × KvCache P × Option L) :=
  s.prefixCache.bind (fun c => (c.entries.get? k).map PrefixEntry.content)

/-- The entry a prompt would hit can get all its blocks. -/
def Payable (s : Scheduler P L) (tokenIds : List Token) : Prop :=
  ∀ c hit e, s.prefixCache = some c → c.peek tokenIds = some hit →
    c.entries.get? hit.tokenIds = some e → c.Payable s.pool e

theorem Books.balanced (h : s.Books full held) {p : BlockPool} (hp : s.pool = some p) :
    p.Balanced s.pins := by
  unfold Books at h
  unfold pins
  cases hc : s.prefixCache with
  | none =>
    rw [hc] at h
    exact h.2 p hp
  | some c =>
    rw [hc] at h
    exact h.balanced p hp

theorem Books.setPool (h : s.Books full held) (hcache : t.prefixCache = s.prefixCache)
    (hshape : t.pool.map BlockPool.shape = s.pool.map BlockPool.shape)
    (hbal : ∀ p, t.pool = some p → p.Balanced s.pins) : t.Books full held := by
  unfold Books at h ⊢
  unfold pins at hbal
  rw [hcache]
  cases hc : s.prefixCache with
  | none =>
    rw [hc] at h hbal
    exact ⟨h.1,hbal⟩
  | some c =>
    rw [hc] at h hbal
    exact PrefixCache.Books.setPool h hshape hbal

theorem peekPrefix_eq_some {tokenIds : List Token} {hit : PrefixHit P L}
    (h : s.peekPrefix tokenIds = some hit) :
    ∃ c e, s.prefixCache = some c ∧ c.peek tokenIds = some hit ∧ c.IsHit tokenIds e hit := by
  obtain ⟨c,hc,hp⟩ := Option.bind_eq_some_iff.mp h
  obtain ⟨e,he,_⟩ := PrefixCache.peek_eq_some hp
  exact ⟨c,e,hc,hp,he⟩

theorem contentAt_lookupPrefix (tokenIds : List Token) (now : ℕ) (k : List Token) :
    (s.lookupPrefix tokenIds now).2.contentAt k = s.contentAt k := by
  unfold lookupPrefix contentAt
  cases hc : s.prefixCache with
  | none => simp [hc]
  | some c => exact PrefixCache.sameContents_lookup now k

theorem contentAt_releasePrefix (key : Option (List Token)) (k : List Token) :
    (s.releasePrefix key).contentAt k = s.contentAt k := by
  unfold releasePrefix contentAt
  cases hc : s.prefixCache with
  | none => simp [hc]
  | some c => exact PrefixCache.sameContents_release key k

theorem Books.lookupPrefix (h : s.Books full held) (tokenIds : List Token) (now : ℕ)
    (hpay : full → s.Payable tokenIds) :
    (s.peekPrefix tokenIds = none ∧ ∃ cache, s.lookupPrefix tokenIds now = (none,{ s with prefixCache := cache }) ∧
      Books full { s with prefixCache := cache } held) ∨
    ∃ hit ids cache pool, s.peekPrefix tokenIds = some hit ∧
      s.lookupPrefix tokenIds now =
        (some { hit with blockIds := ids },{ s with prefixCache := cache, pool := pool }) ∧
      pool.map BlockPool.shape = s.pool.map BlockPool.shape ∧
      pool.map BlockPool.alloc = s.pool.map BlockPool.alloc ∧
      Books full { s with prefixCache := cache, pool := pool }
        (Function.update held hit.tokenIds (held hit.tokenIds + 1)) := by
  cases hc : s.prefixCache with
  | none =>
    refine Or.inl ⟨by simp [peekPrefix,hc],s.prefixCache,?_,h⟩
    unfold Scheduler.lookupPrefix
    simp only [hc]
    rw [← hc]
  | some c =>
    have hb : c.Books full s.pool held := by
      unfold Books at h
      rwa [hc] at h
    have hpeek : s.peekPrefix tokenIds = c.peek tokenIds := by simp [peekPrefix,hc]
    rw [hpeek]
    rcases hb.lookup tokenIds now (fun hfull hit e => hpay hfull c hit e hc) with
      ⟨hnone,h1,h2,h3⟩ | ⟨hit,e,ids,pins,pool',r,hp,hhit,hacq,hr,h1,h2,_,_,_,h3⟩
    · refine Or.inl ⟨hnone,some (c.lookup s.pool tokenIds now).2.1,?_,h3⟩
      simp [Scheduler.lookupPrefix,hc,h1,h2]
    · refine Or.inr ⟨hit,ids,some r.2.1,pool',hp,?_,hacq.shape_eq,hacq.alloc_eq,h3⟩
      simp [Scheduler.lookupPrefix,hc,hr,h1,h2]

theorem Books.releasePrefix (h : s.Books full held) {k : List Token} (hk : 0 < held k) :
    ∃ cache pool, s.releasePrefix (some k) = { s with prefixCache := cache, pool := pool } ∧
      pool.map BlockPool.shape = s.pool.map BlockPool.shape ∧
      pool.map BlockPool.alloc = s.pool.map BlockPool.alloc ∧
      Books full { s with prefixCache := cache, pool := pool } (Function.update held k (held k - 1)) := by
  cases hc : s.prefixCache with
  | none =>
    unfold Books at h
    rw [hc] at h
    have := h.1 k
    omega
  | some c =>
    have hb : c.Books full s.pool held := by
      unfold Books at h
      rwa [hc] at h
    obtain ⟨h1,h2,h3⟩ := hb.release hk
    exact ⟨some (c.release s.pool (some k)).1,(c.release s.pool (some k)).2,
      by simp [Scheduler.releasePrefix,hc],h2,h3,h1⟩

theorem releasePrefix_none : s.releasePrefix none = s := by
  unfold releasePrefix
  cases hc : s.prefixCache with
  | none => rfl
  | some c => simp [PrefixCache.release,← hc]

/-- The state and the sequence after a successful allocation. -/
structure Granted (full : Prop) (held : List Token → ℕ) (id : SeqId) (s t : Scheduler P L)
    (seq seq' : Sequence P L) : Prop where
  queue : t.queue = s.queue
  maxBatch : t.maxBatch = s.maxBatch
  policy : t.policy = s.policy
  shape : t.pool.map BlockPool.shape = s.pool.map BlockPool.shape
  life : seq'.life = seq.life
  alloc : ∀ p', t.pool = some p' → ∃ p ids, s.pool = some p ∧ p'.alloc = p.alloc.set id ids ∧
    (s.peekPrefix seq.promptTokenIds = none → ids.length = p.blocksNeeded seq.reservationTokens)
  bound : (s.peekPrefix seq.promptTokenIds = none ∧ seq'.prefixPart = seq.prefixPart ∧ t.Books full held) ∨
    ∃ hit, s.peekPrefix seq.promptTokenIds = some hit ∧ seq'.prefixPart = (applyHit seq hit).prefixPart ∧
      t.Books full (Function.update held hit.tokenIds (held hit.tokenIds + 1))

/-- The state after an allocation that failed. -/
structure Refused (full : Prop) (held : List Token → ℕ) (s t : Scheduler P L) : Prop where
  queue : t.queue = s.queue
  maxBatch : t.maxBatch = s.maxBatch
  policy : t.policy = s.policy
  shape : t.pool.map BlockPool.shape = s.pool.map BlockPool.shape
  alloc : t.pool.map BlockPool.alloc = s.pool.map BlockPool.alloc
  books : t.Books full held

theorem Books.grant (h : s.Books full held) {p : BlockPool} (hp : s.pool = some p)
    (hid : p.alloc.get? id = none) {n : ℕ} :
    Books full { s with pool := some { p with
      free := p.free.drop n
      alloc := p.alloc.set id (p.free.take n) } } held := by
  refine h.setPool rfl (by rw [hp]; rfl) ?_
  rintro q ⟨⟩
  exact (h.balanced hp).allocate hid n

private theorem length_take_of_canAllocate {p : BlockPool} {n : ℕ} (h : p.canAllocate n = true) :
    (p.free.take (p.blocksNeeded n)).length = p.blocksNeeded n := by
  rw [List.length_take]
  exact Nat.min_eq_left (BlockPool.canAllocate_iff.mp h)

theorem Books.tryAllocate (h : s.Books full held) (hid : ∀ p, s.pool = some p → p.alloc.get? id = none)
    (now : ℕ) (hpay : full → s.Payable seq.promptTokenIds) :
    (∃ t seq', s.tryAllocate id seq now = (true,t,seq') ∧ Granted full held id s t seq seq') ∨
    ∃ t, s.tryAllocate id seq now = (false,t,seq) ∧ Refused full held s t := by
  unfold Scheduler.tryAllocate
  rcases h.lookupPrefix seq.promptTokenIds now hpay with
    ⟨hnone,cache,heq,hb⟩ | ⟨hit,ids,cache,pool,hpeek,heq,hshape,halloc,hb⟩
  · rw [heq]
    simp only [Option.elim_none]
    cases hp : s.pool with
    | none =>
      refine Or.inl ⟨_,_,rfl,rfl,rfl,rfl,by simp [hp],rfl,by simp [hp],?_⟩
      rw [← hp]
      exact Or.inl ⟨hnone,rfl,hb⟩
    | some p =>
      simp only [BlockPool.allocate_eq]
      cases hc : p.canAllocate seq.reservationTokens with
      | false =>
        refine Or.inr ⟨_,rfl,rfl,rfl,rfl,by simp [hp],by simp [hp],?_⟩
        rw [← hp]
        exact hb
      | true =>
        refine Or.inl ⟨_,_,rfl,rfl,rfl,rfl,by rw [hp]; rfl,rfl,?_,?_⟩
        · rintro q ⟨⟩
          exact ⟨p,_,hp,rfl,fun _ => length_take_of_canAllocate hc⟩
        · exact Or.inl ⟨hnone,rfl,hb.grant hp (hid p hp)⟩
  · rw [heq]
    simp only [Option.elim_some]
    cases hp' : pool with
    | none =>
      rw [hp'] at hshape hb
      have hp : s.pool = none := by simpa using hshape.symm
      refine Or.inl ⟨_,_,rfl,rfl,rfl,rfl,by simp [hp],rfl,by simp,?_⟩
      exact Or.inr ⟨hit,hpeek,rfl,hb⟩
    | some p' =>
      rw [hp'] at hshape halloc hb
      obtain ⟨p,hp,hsp⟩ := Option.map_eq_some_iff.mp (hshape.symm.trans (Option.map_some ..))
      rw [hp,Option.map_some,Option.map_some,Option.some.injEq] at halloc
      simp only [BlockPool.allocate_eq]
      cases hc : p'.canAllocate (seq.reservationTokens - hit.nTokens) with
      | false =>
        obtain ⟨cache₂,pool₂,hrel,hsh₂,hal₂,hb₂⟩ := hb.releasePrefix (k := hit.tokenIds) (by simp)
        simp only [Function.update_self,Nat.add_sub_cancel,Function.update_idem,Function.update_eq_self] at hb₂
        refine Or.inr ⟨_,rfl,?_⟩
        rw [hrel]
        exact ⟨rfl,rfl,rfl,hsh₂.trans hshape,hal₂.trans (by rw [hp]; exact congrArg some halloc),hb₂⟩
      | true =>
        refine Or.inl ⟨_,_,rfl,rfl,rfl,rfl,hshape,rfl,?_,?_⟩
        · rintro q ⟨⟩
          refine ⟨p,_,hp,by rw [← halloc],?_⟩
          intro hnone
          rw [hpeek] at hnone
          cases hnone
        · exact Or.inr ⟨hit,hpeek,rfl,hb.grant rfl (by rw [halloc]; exact hid p hp)⟩

theorem contentAt_tryAllocate (id : SeqId) (seq : Sequence P L) (now : ℕ) (k : List Token) :
    (s.tryAllocate id seq now).2.1.contentAt k = s.contentAt k := by
  have hl := contentAt_lookupPrefix (s := s) seq.promptTokenIds now k
  unfold tryAllocate
  rcases hlk : s.lookupPrefix seq.promptTokenIds now with ⟨hit,s1⟩
  rw [hlk] at hl
  simp only
  cases s1.pool with
  | none => exact hl
  | some p =>
    simp only [BlockPool.allocate_eq]
    split
    · cases hit with
      | none => exact hl
      | some hit => exact (contentAt_releasePrefix (some hit.tokenIds) k).trans hl
    · exact hl

end Scheduler
end FluxEngine
