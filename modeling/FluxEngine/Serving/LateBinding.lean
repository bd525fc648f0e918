import Mathlib.Tactic.SplitIfs
import FluxEngine.Serving.Charging

/-! # What a late binding leaves to the sequence

`_try_allocate` reserves for what is left of the request behind the hit, and
`_bind_prefix_at_prefill` gives back the blocks of the hit from a reservation
for the whole request.  The two round up in different places.
-/
namespace FluxEngine
open OrderedDict Transition
namespace BlockPool
variable {p : BlockPool}

theorem blocksNeeded_eq (p : BlockPool) (n : ℕ) :
    p.blocksNeeded n = n / p.blockSize + if n % p.blockSize = 0 then 0 else 1 := by
  have hpos := p.blockSize_pos
  have hn := Nat.div_add_mod n p.blockSize
  have hlt := Nat.mod_lt n hpos
  unfold blocksNeeded
  split
  · next h0 => simp [h0]
  · split
    · next hr =>
      have hsplit : n + p.blockSize - 1 = (p.blockSize - 1) + p.blockSize * (n / p.blockSize) := by omega
      rw [hsplit,Nat.add_mul_div_left _ _ hpos,Nat.div_eq_of_lt (by omega)]
      omega
    · next hr =>
      have hsplit : n + p.blockSize - 1 = (n % p.blockSize - 1) + p.blockSize * (n / p.blockSize + 1) := by
        rw [Nat.mul_add]
        omega
      rw [hsplit,Nat.add_mul_div_left _ _ hpos,Nat.div_eq_of_lt (by omega)]
      omega

theorem blocksNeeded_add (p : BlockPool) (a b : ℕ) :
    p.blocksNeeded (a + b) + (if a % p.blockSize = 0 ∨ b % p.blockSize = 0 ∨
        p.blockSize < a % p.blockSize + b % p.blockSize then 0 else 1) =
      p.blocksNeeded a + p.blocksNeeded b := by
  have hpos := p.blockSize_pos
  have ha := Nat.mod_lt a hpos
  have hb := Nat.mod_lt b hpos
  have hdiv := Nat.add_div (a := a) (b := b) hpos
  have hmod := Nat.add_mod_eq_ite (m := a) (n := b) (k := p.blockSize)
  rw [blocksNeeded_eq,blocksNeeded_eq,blocksNeeded_eq,hdiv,hmod]
  generalize a % p.blockSize = x at *
  generalize b % p.blockSize = y at *
  by_cases hfull : p.blockSize ≤ x + y
  · simp only [if_pos hfull]
    split_ifs <;> omega
  · simp only [if_neg hfull]
    split_ifs <;> omega

end BlockPool

variable {P L : Type}

theorem Scheduler.Books.tryAllocate_owned {s t : Scheduler P L} {held : List Token → ℕ} (h : s.Books False held)
    {p : BlockPool} (hp : s.pool = some p) {seq seq' : Sequence P L} {hit : PrefixHit P L}
    (hpeek : s.peekPrefix seq.promptTokenIds = some hit) {i : SeqId} {now : ℕ}
    (hok : s.tryAllocate i seq now = (true,t,seq')) :
    seq'.ownedBlockIds.length = p.blocksNeeded (seq.reservationTokens - hit.nTokens) := by
  rcases h.lookupPrefix seq.promptTokenIds now False.elim with
    ⟨hnone,_⟩ | ⟨hit',ids,cache,pool,hpeek',heq,hshape,_,_⟩
  · rw [hpeek] at hnone
    cases hnone
  · rw [hpeek] at hpeek'
    cases hpeek'
    rw [hp,Option.map_some] at hshape
    obtain ⟨p',rfl,hs⟩ := Option.map_eq_some_iff.mp hshape
    rw [← BlockPool.blocksNeeded_congr hs]
    unfold Scheduler.tryAllocate at hok
    simp only [heq,BlockPool.allocate_eq] at hok
    cases hc : p'.canAllocate (seq.reservationTokens - hit.nTokens) with
    | false =>
      rw [hc] at hok
      cases hok
    | true =>
      rw [hc] at hok
      cases hok
      exact List.length_take_of_le (BlockPool.canAllocate_iff.mp hc)

namespace System
variable {s : System P L} {i : SeqId} {p : BlockPool} {hit : PrefixHit P L}

theorem Books.bind_owned (h : s.Books False) (hi : s.Live i) (hkey : (s.heap i).prefixKey = none)
    (hp : s.scheduler.pool = some p) (hpeek : s.scheduler.peekPrefix (s.heap i).promptTokenIds = some hit) (now : ℕ) :
    ((s.bindPrefixAtPrefill i now).heap i).ownedBlockIds.length =
      p.blocksNeeded (s.heap i).reservationTokens - p.blocksNeeded hit.nTokens := by
  unfold bindPrefixAtPrefill
  rcases h.books.lookupPrefix (s.heap i).promptTokenIds now False.elim with
    ⟨hnone,_⟩ | ⟨hit',ids,cache,pool,hpeek',heq,hshape,halloc,_⟩
  · rw [hpeek] at hnone
    cases hnone
  · rw [hpeek] at hpeek'
    cases hpeek'
    rw [hp,Option.map_some] at hshape halloc
    obtain ⟨p',rfl,hs⟩ := Option.map_eq_some_iff.mp hshape
    rw [Option.map_some,Option.some.injEq] at halloc
    obtain ⟨own,hown⟩ := (h.owners p hp i).mpr hi
    have hown' : p'.alloc.get? i = some own := by
      rw [halloc]
      exact hown
    simp only [hkey,hpeek,heq,Option.isSome_none,Option.isNone_some,Bool.or_self,Bool.false_eq_true,if_false]
    rw [bindHit_pooled rfl hown']
    simp only [Function.update_self,List.length_drop,h.unbound p hp i own hown hkey,BlockPool.blocksNeeded_congr hs]

/-- The late binding leaves the sequence as many blocks of its own as an admission on
the hit takes, here or in any state with blocks of this size. -/
structure ChargesAlike [Inhabited P] [Inhabited L] (eng : CachedEngine P L) (s : System P L) (i : SeqId)
    (p : BlockPool) (n : ℕ) (now : ℕ) : Prop where
  remainder : ((s.bindPrefixAtPrefill i now).heap i).ownedBlockIds.length =
    p.blocksNeeded ((s.heap i).reservationTokens - n)
  admission : ∀ (u : System P L) (q : BlockPool) (hit : PrefixHit P L) (j : SeqId) (seq seq' : Sequence P L)
    (t : Scheduler P L) (now' : ℕ), Reachable eng u → u.scheduler.pool = some q → q.blockSize = p.blockSize →
    seq.reservationTokens = (s.heap i).reservationTokens →
    u.scheduler.peekPrefix seq.promptTokenIds = some hit → hit.nTokens = n →
    u.scheduler.tryAllocate j seq now' = (true,t,seq') →
    ((s.bindPrefixAtPrefill i now).heap i).ownedBlockIds.length = seq'.ownedBlockIds.length

end System

variable [Inhabited P] [Inhabited L] {eng : CachedEngine P L} {s : System P L}

/-- Both ways charge the same exactly when the hit or what is left ends with a block,
or the two ends do not fit into one block; else the late binding keeps one less. -/
theorem late_binding_charges_iff (h : Reachable eng s) {i : SeqId} (hi : s.Live i)
    (hkey : (s.heap i).prefixKey = none) {p : BlockPool} (hp : s.scheduler.pool = some p) {hit : PrefixHit P L}
    (hpeek : s.scheduler.peekPrefix (s.heap i).promptTokenIds = some hit) (now : ℕ) :
    s.ChargesAlike eng i p hit.nTokens now ↔
      hit.nTokens % p.blockSize = 0 ∨ ((s.heap i).reservationTokens - hit.nTokens) % p.blockSize = 0 ∨
      p.blockSize < hit.nTokens % p.blockSize + ((s.heap i).reservationTokens - hit.nTokens) % p.blockSize := by
  have hbooks := books_of_reachable h
  have howned := hbooks.bind_owned hi hkey hp hpeek now
  obtain ⟨_,_,_,_,hhit⟩ := Scheduler.peekPrefix_eq_some hpeek
  have hle : hit.nTokens ≤ (s.heap i).reservationTokens := Nat.le_add_right_of_le hhit.atMost
  have hmono := p.blocksNeeded_mono hle
  have hgap := p.blocksNeeded_add hit.nTokens ((s.heap i).reservationTokens - hit.nTokens)
  rw [Nat.add_sub_cancel' hle] at hgap
  constructor
  · intro hsame
    have hrem := hsame.remainder
    by_contra hcond
    rw [if_neg hcond] at hgap
    omega
  · intro hcond
    rw [if_pos hcond] at hgap
    have hrem : ((s.bindPrefixAtPrefill i now).heap i).ownedBlockIds.length =
        p.blocksNeeded ((s.heap i).reservationTokens - hit.nTokens) := by omega
    refine ⟨hrem,?_⟩
    intro u q hit' j seq seq' t now' hu hq hsize hres hpeek' hn hok
    rw [hrem,(books_of_reachable hu).books.tryAllocate_owned hq hpeek' hok,hres,hn]
    unfold BlockPool.blocksNeeded
    rw [hsize]

/-- Four blocks of four tokens. -/
def pagedSystem : System ℕ Token where
  scheduler :=
    { queue := { maxWaiting := 8 }, maxBatch := 4, policy := .fcfs
      pool := some ⟨4,4,[0,1,2,3],.empty,.empty,by decide,by decide⟩
      prefixCache := some (.init 8 2 4 (by decide)) }

theorem pagedSystem_initial : pagedSystem.Initial :=
  .of_some rfl rfl rfl rfl rfl rfl rfl rfl (fun _ => rfl)

/-- Two requests for one prompt are admitted together, and the first stores it. -/
def twinRun (prompt : List Token) : List Event :=
  [.submit 0 prompt oneToken,.submit 1 prompt oneToken,.admission 0,.admission 1,.prefill 0,.store 0 id]

/-- What the second request is about to be bound to. -/
def twinBinding (prompt : List Token) : Option (Bool × Option ℕ × Option ℕ) :=
  (execAll (FakeLm.engine {}) (twinRun prompt) pagedSystem).map (fun s =>
    (decide (s.Live 1) && decide ((s.heap 1).prefixKey = none),s.scheduler.pool.map BlockPool.blockSize,
      (s.scheduler.peekPrefix (s.heap 1).promptTokenIds).map PrefixHit.nTokens))

theorem twinBinding_spec {prompt : List Token} {size n : ℕ} (h : twinBinding prompt = some (true,some size,some n)) :
    ∃ s p hit, Reachable (FakeLm.engine {}) s ∧ s.Live 1 ∧ (s.heap 1).prefixKey = none ∧
      s.scheduler.pool = some p ∧ p.blockSize = size ∧
      s.scheduler.peekPrefix (s.heap 1).promptTokenIds = some hit ∧ hit.nTokens = n ∧
      execAll (FakeLm.engine {}) (twinRun prompt) pagedSystem = some s := by
  obtain ⟨s,hs,hobs⟩ := Option.map_eq_some_iff.mp h
  simp only [Prod.mk.injEq,Bool.and_eq_true,decide_eq_true_eq] at hobs
  obtain ⟨⟨hlive,hkey⟩,hpool,hpeek⟩ := hobs
  obtain ⟨p,hp,hsize⟩ := Option.map_eq_some_iff.mp hpool
  obtain ⟨hit,hhit,hn⟩ := Option.map_eq_some_iff.mp hpeek
  exact ⟨s,p,hit,⟨_,pagedSystem_initial,_,execAll_run hs⟩,hlive,hkey,hp,hsize,hhit,hn,hs⟩

/-- A prompt of one whole block. -/
theorem late_binding_charges_iff_aligned :
    ∃ s p hit, Reachable (FakeLm.engine {}) s ∧ p.blockSize = 4 ∧ hit.nTokens = 4 ∧
      s.scheduler.peekPrefix (s.heap 1).promptTokenIds = some hit ∧
      s.ChargesAlike (FakeLm.engine {}) 1 p hit.nTokens 7 := by
  have hrun : twinBinding [5,6,7,8] = some (true,some 4,some 4) := by decide
  obtain ⟨s,p,hit,hr,hlive,hkey,hp,hsize,hpeek,hn,_⟩ := twinBinding_spec hrun
  refine ⟨s,p,hit,hr,hsize,hn,hpeek,(late_binding_charges_iff hr hlive hkey hp hpeek 7).mpr (Or.inl ?_)⟩
  rw [hsize,hn]

/-- A prompt of two tokens and one to come share a block of four. -/
theorem not_late_binding_charges :
    ¬ ∀ s, Reachable (FakeLm.engine {}) s → ∀ i p hit, s.Live i → (s.heap i).prefixKey = none →
      s.scheduler.pool = some p → s.scheduler.peekPrefix (s.heap i).promptTokenIds = some hit →
      ∀ now, s.ChargesAlike (FakeLm.engine {}) i p hit.nTokens now := by
  intro h
  have hrun : twinBinding [5,6] = some (true,some 4,some 2) := by decide
  obtain ⟨s,p,hit,hr,hlive,hkey,hp,hsize,hpeek,hn,hs⟩ := twinBinding_spec hrun
  have hrem := (h s hr 1 p hit hlive hkey hp hpeek 7).remainder
  have hobs : (execAll (FakeLm.engine {}) (twinRun [5,6]) pagedSystem).map (fun s =>
      (((s.bindPrefixAtPrefill 1 7).heap 1).ownedBlockIds.length,(s.heap 1).reservationTokens)) = some (0,3) := by
    decide
  rw [hs,Option.map_some,Option.some.injEq,Prod.mk.injEq] at hobs
  rw [hobs.1,hobs.2,hn,BlockPool.blocksNeeded_eq,hsize] at hrem
  cases hrem

end FluxEngine
