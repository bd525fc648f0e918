import FluxEngine.Engine.PoolLedger
import FluxEngine.Engine.PrefixLookup
import FluxEngine.Engine.PrefixPins

/-! # References, pins and blocks of the prefix cache

`Books` ties the cache to the pool it shares: every entry has as many
references as `held` says, the pins are the sum of these references, and the
pool balances with the pins.  Where `full` holds, every referenced entry also
has all the blocks its tokens need; acquiring one then asks for `Payable`.
-/
namespace FluxEngine.PrefixCache
open OrderedDict
variable {P L : Type}

def refsAt (c : PrefixCache P L) (k : List Token) : ℕ := ((c.entries.get? k).map PrefixEntry.refs).getD 0

def pinning (c : PrefixCache P L) (b : ℕ) : ℕ :=
  weight (fun _ e => if b ∈ e.blockIds then e.refs else 0) c.entries

structure Books (full : Prop) (pool : Option BlockPool) (c : PrefixCache P L) (held : List Token → ℕ) : Prop where
  keyed : ∀ k e, c.entries.get? k = some e → e.tokenIds = k ∧ c.minTokens ≤ k.length
  refs : ∀ k, c.refsAt k = held k
  unused : ∀ k e, c.entries.get? k = some e → e.refs = 0 ∨ pool = none → e.blockIds = []
  distinct : ∀ k e, c.entries.get? k = some e → e.blockIds.Nodup
  pins : ∀ b, pinCount c.blockPins b = c.pinning b
  positive : PinsPositive c.blockPins
  balanced : ∀ p, pool = some p → p.Balanced (pinCount c.blockPins)
  charged : full → ∀ p, pool = some p → ∀ k e, c.entries.get? k = some e → 0 < e.refs →
    e.blockIds.length = p.blocksNeeded k.length

variable {full : Prop} {c c' : PrefixCache P L} {pool pool' : Option BlockPool} {held held' : List Token → ℕ}
variable {k : List Token} {e e' : PrefixEntry P L}

theorem refsAt_of_some (he : c.entries.get? k = some e) : c.refsAt k = e.refs := by
  simp [refsAt,he]

theorem refsAt_of_none (he : c.entries.get? k = none) : c.refsAt k = 0 := by
  simp [refsAt,he]

namespace Books

theorem refs_eq (h : Books full pool c held) (he : c.entries.get? k = some e) : e.refs = held k := by
  rw [← h.refs k,refsAt_of_some he]

theorem stored_of_held (h : Books full pool c held) (hk : 0 < held k) : ∃ e, c.entries.get? k = some e := by
  cases he : c.entries.get? k with
  | none =>
    have := h.refs k
    rw [refsAt_of_none he] at this
    omega
  | some e => exact ⟨e,rfl⟩

theorem key_ne_nil (h : Books full pool c held) (he : c.entries.get? k = some e) : k ≠ [] := by
  rintro rfl
  have hlen := (h.keyed _ _ he).2
  have := c.minTokens_pos
  rw [List.length_nil] at hlen
  omega

theorem pinned (h : Books full pool c held) (he : c.entries.get? k = some e) (hr : 0 < e.refs) {b : ℕ}
    (hb : b ∈ e.blockIds) : 0 < pinCount c.blockPins b := by
  have hle := le_weight (fun _ (e : PrefixEntry P L) => if b ∈ e.blockIds then e.refs else 0) c.entries he
  rw [h.pins b]
  unfold pinning
  simp only [if_pos hb] at hle
  omega

theorem congr (h : Books full pool c held) (hm : c'.minTokens = c.minTokens) (he : c'.entries = c.entries)
    (hp : c'.blockPins = c.blockPins) : Books full pool c' held := by
  constructor
  · rw [he,hm]
    exact h.keyed
  · intro k
    unfold refsAt
    rw [he]
    exact h.refs k
  · rw [he]
    exact h.unused
  · rw [he]
    exact h.distinct
  · intro b
    unfold pinning
    rw [he,hp]
    exact h.pins b
  · rw [hp]
    exact h.positive
  · rw [hp]
    exact h.balanced
  · rw [he]
    exact h.charged

theorem pool_eq_none (hs : pool'.map BlockPool.shape = pool.map BlockPool.shape) :
    pool' = none ↔ pool = none := by
  rw [← Option.map_eq_none_iff,hs,Option.map_eq_none_iff]

/-- Overwriting one entry, with the pins and the pool that go with it. -/
theorem set (h : Books full pool c held) (he : c.entries.get? k = some e) (hm : c'.minTokens = c.minTokens)
    (hset : c'.entries = c.entries.set k e') (htok : e'.tokenIds = e.tokenIds)
    (hheld : held' = Function.update held k e'.refs)
    (hshape : pool'.map BlockPool.shape = pool.map BlockPool.shape)
    (hunused : e'.refs = 0 ∨ pool' = none → e'.blockIds = []) (hnd : e'.blockIds.Nodup)
    (hpins : ∀ b, pinCount c'.blockPins b + (if b ∈ e.blockIds then e.refs else 0) =
      pinCount c.blockPins b + (if b ∈ e'.blockIds then e'.refs else 0))
    (hpos : PinsPositive c'.blockPins) (hbal : ∀ p, pool' = some p → p.Balanced (pinCount c'.blockPins))
    (hcharged : full → ∀ p, pool = some p → 0 < e'.refs → e'.blockIds.length = p.blocksNeeded k.length) :
    Books full pool' c' held' := by
  have hget : ∀ j f, c'.entries.get? j = some f → j = k ∧ f = e' ∨ j ≠ k ∧ c.entries.get? j = some f := by
    intro j f hf
    rw [hset,get?_set] at hf
    split at hf
    · cases hf
      exact Or.inl ⟨‹_›,rfl⟩
    · exact Or.inr ⟨‹_›,hf⟩
  constructor
  · intro j f hf
    rw [hm]
    rcases hget j f hf with ⟨rfl,rfl⟩ | ⟨_,hf⟩
    · rw [htok]
      exact h.keyed _ _ he
    · exact h.keyed j f hf
  · intro j
    unfold refsAt
    rw [hset,get?_set,hheld]
    by_cases hj : j = k
    · subst hj
      simp
    · rw [if_neg hj,Function.update_of_ne hj]
      exact h.refs j
  · intro j f hf hu
    rcases hget j f hf with ⟨rfl,rfl⟩ | ⟨_,hf⟩
    · exact hunused hu
    · exact h.unused j f hf (hu.imp_right (pool_eq_none hshape).mp)
  · intro j f hf
    rcases hget j f hf with ⟨rfl,rfl⟩ | ⟨_,hf⟩
    · exact hnd
    · exact h.distinct j f hf
  · intro b
    have hw := weight_set_of_some (fun _ (e : PrefixEntry P L) => if b ∈ e.blockIds then e.refs else 0)
      c.entries e' he
    have h1 := hpins b
    have h2 := h.pins b
    unfold pinning at h2 ⊢
    rw [hset]
    omega
  · exact hpos
  · exact hbal
  · intro hfull p' hp' j f hf hr
    rw [hp',Option.map_some] at hshape
    obtain ⟨p,hp,hs⟩ := Option.map_eq_some_iff.mp hshape.symm
    rw [BlockPool.blocksNeeded_congr hs.symm]
    rcases hget j f hf with ⟨rfl,rfl⟩ | ⟨_,hf⟩
    · exact hcharged hfull p hp hr
    · exact h.charged hfull p hp j f hf hr

end Books

/-- How an entry gets its blocks: the blocks, the pins and the pool afterwards. -/
inductive Acquires (c : PrefixCache P L) (e : PrefixEntry P L) :
    Option BlockPool → List ℕ → OrderedDict ℕ ℕ → Option BlockPool → Prop
  | unpooled : Acquires c e none e.blockIds c.blockPins none
  | again {p : BlockPool} : 0 < e.refs →
      Acquires c e (some p) e.blockIds (pin c.blockPins e.blockIds) (some p)
  | share {p : BlockPool} {j : List Token} {other : PrefixEntry P L} : e.refs = 0 →
      c.entries.get? j = some other → 0 < other.refs → other.tokenIds.take e.tokenIds.length = e.tokenIds →
      Acquires c e (some p) (other.blockIds.take (p.blocksNeeded e.tokenIds.length))
        (pin c.blockPins (other.blockIds.take (p.blocksNeeded e.tokenIds.length))) (some p)
  | short {p : BlockPool} : e.refs = 0 → c.shareFromLive (some p) e.tokenIds = none →
      p.canAllocate e.tokenIds.length = false → Acquires c e (some p) [] c.blockPins (some p)
  | reserve {p : BlockPool} : e.refs = 0 → p.canAllocate e.tokenIds.length = true →
      Acquires c e (some p) (p.free.take (p.blocksNeeded e.tokenIds.length))
        (pin c.blockPins (p.free.take (p.blocksNeeded e.tokenIds.length)))
        (some { p with free := p.free.drop (p.blocksNeeded e.tokenIds.length) })

theorem shareFromLive_eq_some {p : BlockPool} {tokenIds : List Token} {ids : List ℕ}
    (h : c.shareFromLive (some p) tokenIds = some ids) :
    ∃ j other, c.entries.get? j = some other ∧ 0 < other.refs ∧
      other.tokenIds.take tokenIds.length = tokenIds ∧
      ids = other.blockIds.take (p.blocksNeeded tokenIds.length) := by
  simp only [shareFromLive,Option.map_eq_some_iff] at h
  obtain ⟨other,hfind,rfl⟩ := h
  have hmem := List.mem_of_find?_eq_some hfind
  have hp := List.find?_some hfind
  simp only [Bool.and_eq_true,decide_eq_true_eq] at hp
  obtain ⟨j,hj⟩ := c.entries.mem_values_iff.mp hmem
  exact ⟨j,other,hj,hp.1.1,hp.2,rfl⟩

theorem acquireBlocks_eq (c : PrefixCache P L) (pool : Option BlockPool) (e : PrefixEntry P L) :
    ∃ ids pins pool',
      c.acquireBlocks pool e = ({ e with blockIds := ids, refs := e.refs + 1 },pins,pool') ∧
      Acquires c e pool ids pins pool' := by
  unfold acquireBlocks
  cases pool with
  | none => exact ⟨_,_,_,rfl,.unpooled⟩
  | some p =>
    simp only
    by_cases hr : 0 < e.refs
    · rw [if_pos hr]
      exact ⟨_,_,_,rfl,.again hr⟩
    · have h0 : e.refs = 0 := by omega
      rw [if_neg hr]
      cases hs : c.shareFromLive (some p) e.tokenIds with
      | some shared =>
        obtain ⟨j,other,hj,hpos,hpre,rfl⟩ := shareFromLive_eq_some hs
        exact ⟨_,_,_,rfl,.share h0 hj hpos hpre⟩
      | none =>
        simp only
        rw [BlockPool.reserve_none]
        cases hc : p.canAllocate e.tokenIds.length with
        | false => exact ⟨_,_,_,rfl,.short h0 hs hc⟩
        | true => exact ⟨_,_,_,rfl,.reserve h0 hc⟩

theorem Acquires.alloc_eq {ids : List ℕ} {pins : OrderedDict ℕ ℕ} (h : Acquires c e pool ids pins pool') :
    pool'.map BlockPool.alloc = pool.map BlockPool.alloc := by
  cases h <;> rfl

theorem Acquires.shape_eq {ids : List ℕ} {pins : OrderedDict ℕ ℕ} (h : Acquires c e pool ids pins pool') :
    pool'.map BlockPool.shape = pool.map BlockPool.shape := by
  cases h <;> rfl

private theorem count_eq_ite {ids : List ℕ} (hnd : ids.Nodup) (b : ℕ) :
    ids.count b = if b ∈ ids then 1 else 0 := by
  split
  · exact List.count_eq_one_of_mem hnd ‹_›
  · exact List.count_eq_zero_of_not_mem ‹_›

private theorem pin_first {ids : List ℕ} (hnd : ids.Nodup) (h0 : e.refs = 0) (b : ℕ) :
    pinCount (pin c.blockPins ids) b + (if b ∈ e.blockIds then e.refs else 0) =
      pinCount c.blockPins b + (if b ∈ ids then e.refs + 1 else 0) := by
  rw [pinCount_pin,count_eq_ite hnd,h0]
  split <;> split <;> rfl

/-- What an acquisition does to pins and pool. -/
theorem Books.acquires (h : Books full pool c held) (he : c.entries.get? k = some e) {ids : List ℕ}
    {pins : OrderedDict ℕ ℕ} (ha : Acquires c e pool ids pins pool') :
    ids.Nodup ∧ (pool' = none → ids = []) ∧ PinsPositive pins ∧
    (∀ b, pinCount pins b + (if b ∈ e.blockIds then e.refs else 0) =
      pinCount c.blockPins b + (if b ∈ ids then e.refs + 1 else 0)) ∧
    ∀ p, pool' = some p → p.Balanced (pinCount pins) := by
  cases ha with
  | unpooled =>
    have hnil := h.unused k e he (Or.inr rfl)
    refine ⟨h.distinct k e he,fun _ => hnil,h.positive,?_,h.balanced⟩
    intro b
    simp [hnil]
  | @again p hr =>
    have hnd := h.distinct k e he
    refine ⟨hnd,by simp,pinsPositive_pin h.positive _,?_,?_⟩
    · intro b
      rw [pinCount_pin,count_eq_ite hnd]
      split <;> omega
    · rintro q ⟨⟩
      exact Ledger.Balanced.pinAgain (h.balanced p rfl) (fun b hb => h.pinned he hr hb) (pinCount_pin _ _)
  | @share p j other h0 hj hpos hpre =>
    have hnd := (h.distinct j other hj).sublist (List.take_sublist (p.blocksNeeded e.tokenIds.length) _)
    refine ⟨hnd,by simp,pinsPositive_pin h.positive _,pin_first hnd h0,?_⟩
    rintro q ⟨⟩
    exact Ledger.Balanced.pinAgain (h.balanced p rfl)
      (fun b hb => h.pinned hj hpos (List.mem_of_mem_take hb)) (pinCount_pin _ _)
  | short h0 hs hc =>
    refine ⟨List.nodup_nil,by simp,h.positive,?_,h.balanced⟩
    intro b
    simp [h0]
  | @reserve p h0 hc =>
    have hnd := (h.balanced p rfl).free_nodup.sublist
      (List.take_sublist (p.blocksNeeded e.tokenIds.length) _)
    refine ⟨hnd,by simp,pinsPositive_pin h.positive _,pin_first hnd h0,?_⟩
    rintro q ⟨⟩
    exact (h.balanced p rfl).pinFree _ (pinCount_pin _ _)

/-- The entry has its blocks, can share them, or the pool can still reserve them. -/
def Payable (c : PrefixCache P L) (pool : Option BlockPool) (e : PrefixEntry P L) : Prop :=
  0 < e.refs ∨ (c.shareFromLive pool e.tokenIds).isSome ∨
    ∀ p, pool = some p → p.canAllocate e.tokenIds.length = true

theorem Books.acquires_charged (h : Books full pool c held) (he : c.entries.get? k = some e) {ids : List ℕ}
    {pins : OrderedDict ℕ ℕ} (ha : Acquires c e pool ids pins pool') (hpay : full → c.Payable pool e)
    (hfull : full) {p : BlockPool} (hp : pool = some p) : ids.length = p.blocksNeeded k.length := by
  have hk := (h.keyed k e he).1
  cases ha with
  | unpooled => cases hp
  | again hr => exact h.charged hfull p hp k e he hr
  | @share _ j other h0 hj hpos hpre =>
    cases hp
    have hlen := h.charged hfull _ rfl j other hj hpos
    rw [(h.keyed j other hj).1,hk] at hpre
    rw [hk,List.length_take,hlen]
    apply Nat.min_eq_left
    apply BlockPool.blocksNeeded_mono
    rw [← hpre,List.length_take]
    exact Nat.min_le_right _ _
  | short h0 hs hc =>
    cases hp
    rcases hpay hfull with hr | hsome | hcan
    · omega
    · rw [hs] at hsome
      cases hsome
    · rw [hcan p rfl] at hc
      cases hc
  | reserve h0 hc =>
    cases hp
    rw [hk] at hc ⊢
    rw [List.length_take]
    exact Nat.min_eq_left (BlockPool.canAllocate_iff.mp hc)

theorem Books.acquire (h : Books full pool c held) (he : c.entries.get? k = some e) {ids : List ℕ}
    {pins : OrderedDict ℕ ℕ} (ha : Acquires c e pool ids pins pool') (hm : c'.minTokens = c.minTokens)
    (hset : c'.entries = c.entries.set k e') (hpin : c'.blockPins = pins) (htok : e'.tokenIds = e.tokenIds)
    (hids : e'.blockIds = ids) (hrefs : e'.refs = e.refs + 1) (hpay : full → c.Payable pool e) :
    Books full pool' c' (Function.update held k (held k + 1)) := by
  obtain ⟨hnd,hnil,hpos,hpins,hbal⟩ := h.acquires he ha
  refine h.set he hm hset htok ?_ ha.shape_eq ?_ ?_ ?_ ?_ ?_ ?_
  · rw [hrefs,h.refs_eq he]
  · rintro (h0 | h0)
    · omega
    · rw [hids]
      exact hnil h0
  · rw [hids]
    exact hnd
  · rw [hpin,hids,hrefs]
    exact hpins
  · rw [hpin]
    exact hpos
  · rw [hpin]
    exact hbal
  · intro hfull p hp _
    rw [hids]
    exact h.acquires_charged he ha hpay hfull hp

theorem Books.lookup (h : Books full pool c held) (tokenIds : List Token) (now : ℕ)
    (hpay : full → ∀ hit e, c.peek tokenIds = some hit → c.entries.get? hit.tokenIds = some e →
      c.Payable pool e) :
    (c.peek tokenIds = none ∧ (c.lookup pool tokenIds now).1 = none ∧
      (c.lookup pool tokenIds now).2.2 = pool ∧ Books full pool (c.lookup pool tokenIds now).2.1 held) ∨
    ∃ hit e ids pins pool' r, c.peek tokenIds = some hit ∧ IsHit c tokenIds e hit ∧
      Acquires c e pool ids pins pool' ∧ c.lookup pool tokenIds now = r ∧
      r.1 = some { hit with blockIds := ids } ∧ r.2.2 = pool' ∧ r.2.1.minTokens = c.minTokens ∧
      r.2.1.blockPins = pins ∧
      r.2.1.entries = c.entries.set hit.tokenIds
        { e with blockIds := ids, refs := e.refs + 1, hits := e.hits + 1, lastUsed := now } ∧
      Books full pool' r.2.1 (Function.update held hit.tokenIds (held hit.tokenIds + 1)) := by
  unfold PrefixCache.lookup
  cases hp : c.peek tokenIds with
  | none => exact Or.inl ⟨rfl,rfl,rfl,h.congr rfl rfl rfl⟩
  | some hit =>
    obtain ⟨e,hhit,_⟩ := peek_eq_some hp
    obtain ⟨ids,pins,pool',hacq,ha⟩ := acquireBlocks_eq c pool e
    have htok := (h.keyed _ _ hhit.stored).1
    simp only [hhit.stored,hacq]
    refine Or.inr ⟨hit,e,ids,pins,pool',_,rfl,hhit,ha,rfl,?_,rfl,rfl,rfl,rfl,?_⟩
    · simp only [htok,hhit.length_key,← hhit.lastLogits,← hhit.kvCache]
    · exact h.acquire hhit.stored ha rfl rfl rfl rfl rfl rfl (fun hfull => hpay hfull hit e hp hhit.stored)

theorem unpin_some (pins : OrderedDict ℕ ℕ) (p : BlockPool) (ids : List ℕ) :
    unpin pins (some p) ids =
      ((unpinLoop pins [] ids).1,some { p with free := p.free ++ (unpinLoop pins [] ids).2 }) := by
  unfold unpin
  simp only
  split
  · rename_i hnil
    simp [hnil]
  · rfl

/-- Releasing a key gives back one of its references. -/
theorem Books.release (h : Books full pool c held) (hk : 0 < held k) :
    Books full (c.release pool (some k)).2 (c.release pool (some k)).1 (Function.update held k (held k - 1)) ∧
    (c.release pool (some k)).2.map BlockPool.shape = pool.map BlockPool.shape ∧
    (c.release pool (some k)).2.map BlockPool.alloc = pool.map BlockPool.alloc := by
  obtain ⟨e,he⟩ := h.stored_of_held hk
  have hrefs := h.refs_eq he
  have hpos : e.refs ≠ 0 := by omega
  have hnd := h.distinct k e he
  unfold PrefixCache.release
  simp only [if_neg (h.key_ne_nil he),he,if_neg hpos]
  have hheld : Function.update held k (held k - 1) = Function.update held k (e.refs - 1) := by rw [hrefs]
  cases pool with
  | none =>
    have hnil := h.unused k e he (Or.inr rfl)
    refine ⟨?_,rfl,rfl⟩
    refine h.set he rfl rfl rfl hheld rfl ?_ ?_ ?_ h.positive h.balanced (by simp)
    · intro _
      simp [hnil]
    · simp [hnil]
    · intro b
      simp [unpin,hnil]
  | some p =>
    rw [unpin_some]
    refine ⟨?_,rfl,rfl⟩
    have hcount : ∀ b, pinCount (unpinLoop c.blockPins [] e.blockIds).1 b =
        pinCount c.blockPins b - (if b ∈ e.blockIds then 1 else 0) := by
      intro b
      rw [pinCount_unpinLoop,count_eq_ite hnd]
    refine h.set he rfl rfl rfl hheld rfl ?_ ?_ ?_ (pinsPositive_unpinLoop h.positive _ _) ?_ ?_
    · rintro (h0 | h0)
      · simp only at h0
        simp [h0]
      · cases h0
    · simp only
      split
      · exact List.nodup_nil
      · exact hnd
    · intro b
      simp only [hcount b]
      by_cases hb : b ∈ e.blockIds
      · have := h.pinned he (by omega) hb
        have hle := le_weight (fun _ (e : PrefixEntry P L) => if b ∈ e.blockIds then e.refs else 0)
          c.entries he
        rw [h.pins b] at this ⊢
        unfold pinning at this ⊢
        simp only [if_pos hb] at hle ⊢
        by_cases h1 : e.refs - 1 = 0
        · simp only [h1,if_true,List.not_mem_nil,if_false]
          omega
        · simp only [if_neg h1,if_pos hb]
          omega
      · have hb' : b ∉ (if e.refs - 1 = 0 then [] else e.blockIds) := by
          split
          · exact List.not_mem_nil
          · exact hb
        simp [hb,hb']
    · rintro q ⟨⟩
      have hunpin := Ledger.Balanced.unpin (h.balanced p rfl) hnd
        (fun b hb => h.pinned he (by omega) hb) (pinCount_unpinLoop c.blockPins [] e.blockIds)
      rw [unpinLoop_toFree _ _ hnd,List.nil_append]
      exact hunpin
    · intro hfull q hq hr
      simp only at hr
      rw [if_neg (by omega)]
      exact h.charged hfull q hq k e he (by omega)

theorem mem_of_oldest {l : List (PrefixEntry P L)} (h : oldest l = some e) : e ∈ l := by
  induction l generalizing e with
  | nil => cases h
  | cons f rest ih =>
    unfold oldest at h
    cases hr : oldest rest with
    | none =>
      rw [hr] at h
      cases h
      exact List.mem_cons_self
    | some g =>
      rw [hr] at h
      simp only at h
      split at h
      · cases h
        exact List.mem_cons_of_mem _ (ih hr)
      · cases h
        exact List.mem_cons_self

theorem Books.pop (h : Books full pool c held) (he : c.entries.get? k = some e) (hr : e.refs = 0) :
    Books full pool { c with entries := c.entries.pop k } held := by
  have hget : ∀ j f, (c.entries.pop k).get? j = some f → c.entries.get? j = some f := by
    intro j f hf
    rw [get?_pop] at hf
    split at hf
    · cases hf
    · exact hf
  constructor
  · exact fun j f hf => h.keyed j f (hget j f hf)
  · intro j
    unfold refsAt
    simp only [get?_pop]
    by_cases hj : j = k
    · subst hj
      rw [← h.refs_eq he,hr]
      simp
    · rw [if_neg hj]
      exact h.refs j
  · exact fun j f hf => h.unused j f (hget j f hf)
  · exact fun j f hf => h.distinct j f (hget j f hf)
  · intro b
    have hw := weight_pop_of_some (fun _ (e : PrefixEntry P L) => if b ∈ e.blockIds then e.refs else 0)
      c.entries he
    have h2 := h.pins b
    simp only [hr,ite_self] at hw
    unfold pinning at h2 ⊢
    simp only
    omega
  · exact h.positive
  · exact h.balanced
  · exact fun hfull p hp j f hf => h.charged hfull p hp j f (hget j f hf)

theorem Books.victim (h : Books full pool c held) {victim : PrefixEntry P L}
    (hv : oldest (c.entries.values.filter (fun e => e.refs = 0)) = some victim) :
    c.entries.get? victim.tokenIds = some victim ∧ victim.refs = 0 ∧
      unpin c.blockPins pool victim.blockIds = (c.blockPins,pool) := by
  obtain ⟨hmem,hr⟩ := List.mem_filter.mp (mem_of_oldest hv)
  obtain ⟨k,hk⟩ := c.entries.mem_values_iff.mp hmem
  have hr : victim.refs = 0 := by simpa using hr
  rw [(h.keyed k victim hk).1,h.unused k victim hk (Or.inl hr)]
  refine ⟨hk,hr,?_⟩
  cases pool with
  | none => rfl
  | some p => rfl

theorem Books.evictLoop (h : Books full pool c held) (fuel : ℕ) :
    (PrefixCache.evictLoop fuel c pool).2 = pool ∧
    (PrefixCache.evictLoop fuel c pool).1.minTokens = c.minTokens ∧
    Books full pool (PrefixCache.evictLoop fuel c pool).1 held := by
  induction fuel generalizing c with
  | zero => exact ⟨rfl,rfl,h⟩
  | succ fuel ih =>
    unfold PrefixCache.evictLoop
    split
    · cases hv : oldest (c.entries.values.filter (fun e => e.refs = 0)) with
      | none => exact ⟨rfl,rfl,h⟩
      | some victim =>
        obtain ⟨hstored,hr,hunpin⟩ := h.victim hv
        simp only [hunpin]
        exact ih (h.pop hstored hr)
    · exact ⟨rfl,rfl,h⟩

/-- Storing an entry that nobody refers to yet. -/
theorem Books.store (h : Books full pool c held) (hk : c.entries.get? k = none) (hlen : c.minTokens ≤ k.length)
    (htok : e.tokenIds = k) (hr : e.refs = 0) (hb : e.blockIds = []) :
    Books full pool { c with entries := c.entries.set k e } held := by
  have hget : ∀ j f, (c.entries.set k e).get? j = some f →
      j = k ∧ f = e ∨ c.entries.get? j = some f := by
    intro j f hf
    rw [get?_set] at hf
    split at hf
    · cases hf
      exact Or.inl ⟨‹_›,rfl⟩
    · exact Or.inr hf
  constructor
  · intro j f hf
    rcases hget j f hf with ⟨rfl,rfl⟩ | hf
    · exact ⟨htok,hlen⟩
    · exact h.keyed j f hf
  · intro j
    unfold refsAt
    simp only [get?_set]
    by_cases hj : j = k
    · subst hj
      rw [← h.refs j,refsAt_of_none hk]
      simpa using hr
    · rw [if_neg hj]
      exact h.refs j
  · intro j f hf hu
    rcases hget j f hf with ⟨rfl,rfl⟩ | hf
    · exact hb
    · exact h.unused j f hf hu
  · intro j f hf
    rcases hget j f hf with ⟨rfl,rfl⟩ | hf
    · rw [hb]
      exact List.nodup_nil
    · exact h.distinct j f hf
  · intro b
    have hw := weight_set_of_none (fun _ (e : PrefixEntry P L) => if b ∈ e.blockIds then e.refs else 0)
      c.entries e hk
    have h2 := h.pins b
    simp only [hr,ite_self] at hw
    unfold pinning at h2 ⊢
    simp only
    omega
  · exact h.positive
  · exact h.balanced
  · intro hfull p hp j f hf hpos
    rcases hget j f hf with ⟨rfl,rfl⟩ | hf
    · omega
    · exact h.charged hfull p hp j f hf hpos

theorem Books.insertLoop (h : Books full pool c held) {tokenIds : List Token} {kvCache : KvCache P}
    {lastLogits : Option L} {now : ℕ} {lengths : List ℕ}
    (hlen : ∀ n ∈ lengths, c.minTokens ≤ n ∧ n ≤ tokenIds.length) :
    (PrefixCache.insertLoop tokenIds kvCache lastLogits now lengths c pool).2 = pool ∧
    Books full pool (PrefixCache.insertLoop tokenIds kvCache lastLogits now lengths c pool).1 held := by
  induction lengths generalizing c with
  | nil => exact ⟨rfl,h⟩
  | cons n lengths ih =>
    have hrest : ∀ m ∈ lengths, c.minTokens ≤ m ∧ m ≤ tokenIds.length :=
      fun m hm => hlen m (List.mem_cons_of_mem _ hm)
    obtain ⟨hmin,hle⟩ := hlen n List.mem_cons_self
    unfold PrefixCache.insertLoop
    split
    · exact ih h hrest
    · split
      · exact ih h hrest
      · rename_i hnone
        obtain ⟨hpool,hmt,hev⟩ := h.evictLoop c.entries.size
        have hnew : (c.evict pool).1.entries.get? (tokenIds.take n) = none := by
          cases hg : (c.evict pool).1.entries.get? (tokenIds.take n) with
          | none => rfl
          | some f =>
            rw [get?_evict hg] at hnone
            simp at hnone
        have hevict : c.evict pool = ((c.evict pool).1,pool) := Prod.ext rfl hpool
        rw [hevict]
        simp only
        split
        · exact ih hev (by rw [← hmt] at hrest; exact hrest)
        · have hlength : (tokenIds.take n).length = n := by
            rw [List.length_take]
            exact Nat.min_eq_left hle
          have hst := hev.store hnew (by rw [hlength]; exact hmt.le.trans hmin)
            (e := freshEntry tokenIds kvCache lastLogits now n) rfl rfl rfl
          exact ih hst (by rw [← hmt] at hrest; exact hrest)

theorem Books.insert (h : Books full pool c held) (tokenIds : List Token) (kvCache : Option (KvCache P))
    (lastLogits : Option L) (now : ℕ) :
    (c.insert pool tokenIds kvCache lastLogits now).2 = pool ∧
    Books full pool (c.insert pool tokenIds kvCache lastLogits now).1 held := by
  unfold PrefixCache.insert
  cases kvCache with
  | none => exact ⟨rfl,h⟩
  | some kv =>
    simp only
    split
    · exact ⟨rfl,h⟩
    · exact h.insertLoop (fun n hn => mem_candidateLengths hn)

/-- The outcomes of `adopt` for a sequence with an entry in the allocation table. -/
inductive Adopts (c : PrefixCache P L) (pool : Option BlockPool) (id : SeqId) (seq : Sequence P L) (now : ℕ) :
    PrefixCache P L × Option BlockPool × Sequence P L → Prop
  | skip : Adopts c pool id seq now (c,pool,seq)
  | join {m : ℕ} {e : PrefixEntry P L} {ids : List ℕ} {pins : OrderedDict ℕ ℕ} {pool' : Option BlockPool} :
      seq.prefixKey = none → c.entries.get? (seq.promptTokenIds.take m) = some e → 0 < e.refs →
      Acquires c e pool ids pins pool' →
      Adopts c pool id seq now
        ({ c with
            entries := c.entries.set (seq.promptTokenIds.take m) { e with blockIds := ids, refs := e.refs + 1 }
            blockPins := pins },
          pool',{ seq with prefixKey := some (seq.promptTokenIds.take m) })
  | unpooled {m : ℕ} {e : PrefixEntry P L} : seq.prefixKey = none →
      c.entries.get? (seq.promptTokenIds.take m) = some e → e.refs = 0 → pool = none →
      Adopts c pool id seq now
        ({ c with
            entries := c.entries.set (seq.promptTokenIds.take m)
              { e with blockIds := [], refs := 1, lastUsed := now } },
          none,{ seq with prefixKey := some (seq.promptTokenIds.take m), blockIds := seq.ownedBlockIds })
  | detach {m n : ℕ} {e : PrefixEntry P L} {p : BlockPool} {ids : List ℕ} : seq.prefixKey = none →
      c.entries.get? (seq.promptTokenIds.take m) = some e → e.refs = 0 → pool = some p →
      p.alloc.get? id = some ids → n = p.blocksNeeded e.tokenIds.length →
      Adopts c pool id seq now
        ({ c with
            entries := c.entries.set (seq.promptTokenIds.take m)
              { e with blockIds := ids.take n, refs := 1, lastUsed := now }
            blockPins := pin c.blockPins (ids.take n) },
          some { p with alloc := p.alloc.set id (ids.drop n) },
          { seq with prefixKey := some (seq.promptTokenIds.take m), ownedBlockIds := ids.drop n,
                     blockIds := ids })

theorem adopts {id : SeqId} (seq : Sequence P L)
    (hid : ∀ p, pool = some p → ∃ ids, p.alloc.get? id = some ids) (now : ℕ) :
    Adopts c pool id seq now (c.adopt pool id seq now) := by
  unfold PrefixCache.adopt
  cases hk : seq.prefixKey with
  | some k => exact .skip
  | none =>
    simp only
    cases c.candidateLengths seq.promptTokenIds with
    | nil => exact .skip
    | cons m lengths =>
      simp only
      cases he : c.entries.get? (seq.promptTokenIds.take m) with
      | none => exact .skip
      | some e =>
        simp only
        split
        · rename_i hr
          obtain ⟨ids,pins,pool',hacq,ha⟩ := acquireBlocks_eq c pool e
          rw [hacq]
          exact .join hk he hr ha
        · rename_i hr
          cases pool with
          | none => exact .unpooled hk he (by omega) rfl
          | some p =>
            obtain ⟨ids,hids⟩ := hid p rfl
            simp only [BlockPool.detach_eq hids,get?_set_self,Option.getD_some,List.take_append_drop]
            exact .detach hk he (by omega) rfl hids rfl

/-- Adopting changes the prefix key and the blocks of the sequence only, and of
the allocation table only its own line. -/
theorem Adopts.keeps {id : SeqId} {seq seq' : Sequence P L} {now : ℕ}
    (h : Adopts c pool id seq now (c',pool',seq')) :
    seq'.life = seq.life ∧ seq'.prefixTokens = seq.prefixTokens ∧ seq'.prefixKv = seq.prefixKv ∧
    seq'.prefixLogits = seq.prefixLogits ∧
    ((∀ p, pool = some p → ∃ ids, p.alloc.get? id = some ids) → ∀ p', pool' = some p' →
      ∃ p, pool = some p ∧ (∀ j, j ≠ id → p'.alloc.get? j = p.alloc.get? j) ∧
        ∃ ids, p'.alloc.get? id = some ids) := by
  cases h with
  | skip =>
    refine ⟨rfl,rfl,rfl,rfl,?_⟩
    intro hid p hp
    exact ⟨p,hp,fun _ _ => rfl,hid p hp⟩
  | join hk he hr hacq =>
    refine ⟨rfl,rfl,rfl,rfl,?_⟩
    intro hid p' hp'
    have ha := hacq.alloc_eq
    rw [hp',Option.map_some] at ha
    obtain ⟨p,hp,hpa⟩ := Option.map_eq_some_iff.mp ha.symm
    rw [← hpa]
    exact ⟨p,hp,fun _ _ => rfl,hid p hp⟩
  | unpooled hk he hr hpool =>
    refine ⟨rfl,rfl,rfl,rfl,?_⟩
    rintro _ _ ⟨⟩
  | @detach m n e p ids hk he hr hpool hids hn =>
    refine ⟨rfl,rfl,rfl,rfl,?_⟩
    rintro _ _ ⟨⟩
    exact ⟨p,hpool,fun j hj => get?_set_ne _ _ hj,_,get?_set_self _ _ _⟩

/-- The references a sequence adds by adopting. -/
theorem Books.adopt (h : Books full pool c held) {id : SeqId} {seq : Sequence P L} {now : ℕ}
    {r : PrefixCache P L × Option BlockPool × Sequence P L} (ha : Adopts c pool id seq now r)
    (hown : seq.prefixKey = none → ∀ p ids, pool = some p → p.alloc.get? id = some ids →
      p.blocksNeeded seq.promptTokenIds.length ≤ ids.length) :
    r = (c,pool,seq) ∨
    ∃ k, seq.prefixKey = none ∧ r.2.2.prefixKey = some k ∧
      r.2.1.map BlockPool.shape = pool.map BlockPool.shape ∧
      Books full r.2.1 r.1 (Function.update held k (held k + 1)) := by
  cases ha with
  | skip => exact Or.inl rfl
  | join hk he hr hacq =>
    exact Or.inr ⟨_,hk,rfl,hacq.shape_eq,h.acquire he hacq rfl rfl rfl rfl rfl rfl (fun _ => Or.inl hr)⟩
  | @unpooled m e hk he hr hpool =>
    refine Or.inr ⟨_,hk,rfl,by simp [hpool],?_⟩
    refine h.set he rfl rfl rfl ?_ (by simp [hpool]) (fun _ => rfl) List.nodup_nil ?_ h.positive (by simp)
      (by simp [hpool])
    · rw [← h.refs_eq he,hr]
    · intro b
      simp [hr]
  | @detach m n e p ids hk he hr hpool hids hn =>
    have hbal := h.balanced p hpool
    have hnd := (hbal.alloc_nodup hids).sublist (List.take_sublist n ids)
    refine Or.inr ⟨_,hk,rfl,by rw [hpool]; rfl,?_⟩
    refine h.set he rfl rfl rfl ?_ (by rw [hpool]; rfl) (by simp) hnd ?_ (pinsPositive_pin h.positive _) ?_ ?_
    · rw [← h.refs_eq he,hr]
    · have := pin_first (c := c) hnd hr
      simpa only [hr] using this
    · rintro q ⟨⟩
      exact hbal.pinDetached hids n (pinCount_pin _ _)
    · intro _ q hq _
      rw [hpool] at hq
      cases hq
      rw [List.length_take,hn,(h.keyed _ e he).1]
      apply Nat.min_eq_left
      refine le_trans (BlockPool.blocksNeeded_mono ?_) (hown hk p ids hpool hids)
      rw [List.length_take]
      exact Nat.min_le_right _ _

end FluxEngine.PrefixCache
