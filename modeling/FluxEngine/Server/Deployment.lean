import Mathlib.Tactic.Ring
import FluxEngine.Serving.Capacity
import FluxEngine.Serving.Starvation
import FluxEngine.Server.Requests

/-! # Deployment

The settings decide which worker starts and how many blocks its pool has.  A
pool that sizes itself has blocks enough for every request that the handlers let
through, but not always for a full batch of the longest ones.
-/
namespace FluxEngine
open Transition Interleaving

/-- The settings that `attach_worker` reads, on top of those of the handlers. -/
structure ServeSettings extends Settings where
  maxBatchSize : ℕ := 8
  maxWaiting : ℕ := 256
  blockSize : ℕ := 16
  numKvBlocks : String := "auto"
  scheduler : String := "fcfs"
  serveEngine : String := "continuous"
  enablePrefixCache : Bool := true
  prefixCacheMaxEntries : ℕ := 64

/-- What `str.strip` takes off. -/
def isSpace (c : Char) : Bool :=
  decide (c.toNat ∈ [9,10,11,12,13,28,29,30,31,32,133,160,5760,8192,8193,8194,8195,8196,8197,8198,8199,8200,8201,
    8202,8232,8233,8239,8287,12288])

/-- `name.strip().lower()`. -/
def normalized (name : String) : List Char :=
  ((name.toList.dropWhile isSpace).reverse.dropWhile isSpace).reverse.map Char.toLower

/-- The rest of an integer literal: digits, with single underscores between them. -/
def readDigits (n : ℕ) : List Char → Option ℕ
  | [] => some n
  | ['_'] => none
  | '_' :: c :: rest => if c.isDigit then readDigits (10 * n + (c.toNat - 48)) rest else none
  | c :: rest => if c.isDigit then readDigits (10 * n + (c.toNat - 48)) rest else none

def readNat : List Char → Option ℕ
  | [] => none
  | c :: rest => if c.isDigit then readDigits (c.toNat - 48) rest else none

/-- `int(raw)`. -/
def readInt : List Char → Option ℤ
  | '-' :: rest => (readNat rest).map (fun n => -(n : ℤ))
  | '+' :: rest => (readNat rest).map (fun n => (n : ℤ))
  | rest => (readNat rest).map (fun n => (n : ℤ))

inductive EngineMode
  | naive
  | cached
  | worker (mode : ServeEngine)
  deriving DecidableEq, Repr

def normalizeServeEngine (name : String) : EngineMode :=
  let value := normalized name
  if value = "naive".toList then .naive
  else if value = "cached".toList then .cached
  else if value = "queued".toList then .worker .queued
  else .worker .continuous

/-- The policy that `Scheduler.__init__` settles on. -/
def normalizePolicy (name : String) : Policy :=
  if normalized name = "memory_fit".toList then .memoryFit else .fcfs

/-- The fields of `model.config`, as far as it has them. -/
structure ModelConfig where
  numHiddenLayers : Option ℕ
  numKeyValueHeads : Option ℕ
  hiddenSize : Option ℕ
  numAttentionHeads : Option ℕ

def qwenBytesPerToken : ℕ := 2 * 24 * 2 * 64 * 4

def bytesPerTokenFromModel (config : Option ModelConfig) : ℕ :=
  match config with
  | some ⟨some layers,some kv,some hidden,some heads⟩ =>
    if heads = 0 then qwenBytesPerToken else 2 * layers * kv * (hidden / heads) * 4
  | _ => qwenBytesPerToken

namespace ServeSettings
variable (settings : ServeSettings)

/-- `from_ram`; the budget, a fifth of the RAM, is in whole bytes. -/
def blocksFromRam (bytesPerToken budget : ℕ) : ℕ :=
  let blockBytes := settings.blockSize * bytesPerToken
  if blockBytes = 0 then 1 else budget / blockBytes

/-- `cap`. -/
def blocksCap : ℕ := (settings.maxBatchSize * settings.maxSeqLen + settings.blockSize - 1) / settings.blockSize

def Auto : Prop := normalized settings.numKvBlocks = [] ∨ normalized settings.numKvBlocks = "auto".toList

instance : Decidable settings.Auto := inferInstanceAs (Decidable (_ ∨ _))

def resolveNumKvBlocks (bytesPerToken budget : ℕ) : Except Exc ℕ :=
  let raw := normalized settings.numKvBlocks
  if settings.Auto then
    if settings.blockSize = 0 then .error "division by zero"
    else .ok (max 1 (min (settings.blocksFromRam bytesPerToken budget) settings.blocksCap))
  else
    match readInt raw with
    | none => .error ("invalid literal for int() with base 10: '" ++ String.ofList raw ++ "'")
    | some n => if n < 1 then .error "num_kv_blocks must be >= 1" else .ok n.toNat

/-- What the server may have loaded: a `CachedEngine`, with the config of its model, or another one. -/
inductive LoadedEngine
  | other
  | cached (config : Option ModelConfig)

/-- The queue, the prefix cache and the scheduler around a pool, and a worker that has not started. -/
def newSystem (P L : Type) (pool : BlockPool) : System P L where
  scheduler :=
    { queue := { maxWaiting := settings.maxWaiting }
      maxBatch := settings.maxBatchSize
      pool := some pool
      policy := normalizePolicy settings.scheduler
      -- `pool.block_size` is the setting, and `min_tokens` keeps its default
      prefixCache := if settings.enablePrefixCache then
        some (.init settings.prefixCacheMaxEntries 8 pool.blockSize pool.blockSize_pos) else none }

def attachWorker (P L : Type) (engine : Option LoadedEngine) (budget : ℕ) : Except Exc (Option (ServeEngine × System P L)) :=
  match normalizeServeEngine settings.serveEngine, engine with
  | .worker mode, some (.cached config) => do
    let numBlocks ← settings.resolveNumKvBlocks (bytesPerTokenFromModel config) budget
    let pool ← BlockPool.init numBlocks settings.blockSize
    .ok (some (mode,settings.newSystem P L pool))
  | _, _ => .ok none

end ServeSettings

/-- Rounded up one by one, the lengths of a batch take no more blocks than rounded up
together: nothing is rounded, or too little. -/
theorem batch_fits_iff {len size batch : ℕ} (hsize : 1 ≤ size) :
    batch * ((len + size - 1) / size) ≤ (batch * len + size - 1) / size ↔
      size ∣ len ∨ batch * (size - len % size) < size := by
  obtain ⟨q,r,hr,rfl⟩ : ∃ q r, r < size ∧ len = size * q + r :=
    ⟨len / size,len % size,Nat.mod_lt len hsize,(Nat.div_add_mod len size).symm⟩
  have hmod : (size * q + r) % size = r := by rw [Nat.mul_add_mod,Nat.mod_eq_of_lt hr]
  have hdvd : size ∣ size * q + r ↔ r = 0 := by rw [Nat.dvd_iff_mod_eq_zero,hmod]
  rw [hmod,hdvd,Nat.le_div_iff_mul_le hsize]
  rcases Nat.eq_zero_or_pos r with rfl | hpos
  · have hceil : (size * q + 0 + size - 1) / size = q := by
      rw [Nat.add_zero,Nat.add_sub_assoc hsize,Nat.mul_add_div hsize,Nat.div_eq_of_lt (Nat.sub_lt hsize Nat.one_pos),
        Nat.add_zero]
    rw [hceil]
    have hsame : batch * q * size = batch * (size * q + 0) := by ring
    refine iff_of_true ?_ (Or.inl rfl)
    omega
  · have hceil : (size * q + r + size - 1) / size = q + 1 := by
      have hsplit : size * q + r + size - 1 = size * (q + 1) + (r - 1) := by
        rw [Nat.mul_add,Nat.mul_one]
        omega
      rw [hsplit,Nat.mul_add_div hsize,Nat.div_eq_of_lt (by omega),Nat.add_zero]
    rw [hceil]
    obtain ⟨d,hd⟩ : ∃ d, size = r + d := ⟨size - r,by omega⟩
    have hleft : batch * (q + 1) * size = batch * q * size + batch * r + batch * d := by rw [hd]; ring
    have hright : batch * (size * q + r) = batch * q * size + batch * r := by ring
    have hgap : size - r = d := by omega
    rw [hleft,hright,hgap]
    omega

theorem BlockPool.init_ok {numBlocks blockSize : ℕ} {p : BlockPool} (h : BlockPool.init numBlocks blockSize = .ok p) :
    p.numBlocks = numBlocks ∧ p.blockSize = blockSize ∧ p.free = List.range p.numBlocks ∧ p.alloc = .empty := by
  unfold BlockPool.init at h
  split at h
  · split at h
    · cases h
      exact ⟨rfl,rfl,rfl,rfl⟩
    · cases h
  · cases h

namespace ServeSettings
variable {settings : ServeSettings} {P L : Type} {engine : Option LoadedEngine} {config : Option ModelConfig} {budget n : ℕ}
  {mode : ServeEngine} {s : System P L}

/-- What a worker finds when it has been attached. -/
structure Attached (settings : ServeSettings) (s : System P L) (p : BlockPool) : Prop where
  boot : s.Boot
  pool : s.scheduler.pool = some p
  blockSize : p.blockSize = settings.blockSize
  cache : s.scheduler.prefixCache.isSome = settings.enablePrefixCache
  policy : s.scheduler.policy = normalizePolicy settings.scheduler
  maxBatch : s.scheduler.maxBatch = settings.maxBatchSize
  maxWaiting : s.scheduler.queue.maxWaiting = settings.maxWaiting

theorem attached_newSystem {p : BlockPool} (hbs : p.blockSize = settings.blockSize)
    (hfree : p.free = List.range p.numBlocks) (halloc : p.alloc = .empty) : settings.Attached (settings.newSystem P L p) p := by
  refine ⟨⟨⟨rfl,rfl,?_,?_,fun _ => rfl⟩,rfl,rfl,rfl⟩,rfl,hbs,?_,rfl,rfl,rfl⟩
  · rintro q ⟨⟩
    exact ⟨hfree,halloc⟩
  · intro c hc
    simp only [newSystem] at hc
    split at hc
    · cases hc
      exact ⟨rfl,rfl⟩
    · cases hc
  · simp only [newSystem]
    cases settings.enablePrefixCache <;> rfl

theorem attachWorker_ok (h : settings.attachWorker P L (some (.cached config)) budget = .ok (some (mode,s))) :
    ∃ p, settings.Attached s p ∧
      settings.resolveNumKvBlocks (bytesPerTokenFromModel config) budget = .ok p.numBlocks := by
  unfold attachWorker at h
  split at h
  · rename_i heng
    cases heng
    cases hn : settings.resolveNumKvBlocks (bytesPerTokenFromModel config) budget with
    | error e =>
      rw [hn] at h
      cases h
    | ok n =>
      rw [hn] at h
      simp only [bind,Except.bind] at h
      cases hpool : BlockPool.init n settings.blockSize with
      | error e =>
        rw [hpool] at h
        cases h
      | ok p =>
        rw [hpool] at h
        obtain ⟨hn,hbs,hfree,halloc⟩ := BlockPool.init_ok hpool
        simp only [Except.ok.injEq,Option.some.injEq,Prod.mk.injEq] at h
        obtain ⟨_,rfl⟩ := h
        exact ⟨p,attached_newSystem hbs hfree halloc,by rw [hn]⟩
  · cases h

theorem attachWorker_eq {p : BlockPool} (hmode : normalizeServeEngine settings.serveEngine = .worker mode)
    (hn : settings.resolveNumKvBlocks (bytesPerTokenFromModel config) budget = .ok p.numBlocks)
    (hp : BlockPool.init p.numBlocks settings.blockSize = .ok p) :
    settings.attachWorker P L (some (.cached config)) budget = .ok (some (mode,settings.newSystem P L p)) := by
  unfold attachWorker
  rw [hmode]
  simp only [hn,hp,bind,Except.bind]

def longest (settings : ServeSettings) : ℕ := (settings.maxSeqLen + settings.blockSize - 1) / settings.blockSize

theorem resolveNumKvBlocks_auto (hauto : settings.Auto) {bytesPerToken : ℕ}
    (h : settings.resolveNumKvBlocks bytesPerToken budget = .ok n) :
    1 ≤ settings.blockSize ∧ n = max 1 (min (settings.blocksFromRam bytesPerToken budget) settings.blocksCap) := by
  unfold resolveNumKvBlocks at h
  simp only [if_pos hauto] at h
  split at h
  · cases h
  · cases h
    exact ⟨by omega,rfl⟩

theorem longest_lt_cap (hbs : 1 ≤ settings.blockSize) (hlong : settings.blockSize ≤ settings.maxSeqLen)
    (hbatch : 2 ≤ settings.maxBatchSize) : settings.longest + 1 ≤ settings.blocksCap := by
  unfold longest blocksCap
  rw [← Nat.add_div_right _ hbs]
  apply Nat.div_le_div_right
  have hle := Nat.mul_le_mul_right settings.maxSeqLen hbatch
  omega

theorem longest_le_cap (hbatch : 1 ≤ settings.maxBatchSize) : settings.longest ≤ settings.blocksCap := by
  unfold longest blocksCap
  apply Nat.div_le_div_right
  have hle := Nat.mul_le_mul_right settings.maxSeqLen hbatch
  omega

end ServeSettings

namespace ServeSettings.Attached
variable {settings : ServeSettings} {P L : Type} {s : System P L} {p : BlockPool}

theorem blocksNeeded_le (h : settings.Attached s p) {prompt : List Token} {sampling : SamplingParams}
    (haccepts : settings.Accepts prompt sampling) : p.blocksNeeded (prompt.length + sampling.maxTokens) ≤ settings.longest := by
  have hfits := haccepts.fits
  unfold BlockPool.blocksNeeded ServeSettings.longest
  rw [h.blockSize]
  split
  · exact Nat.zero_le _
  · exact Nat.div_le_div_right (by omega)

theorem blocksNeeded_longest (h : settings.Attached s p) (hpos : 1 ≤ settings.maxSeqLen) :
    p.blocksNeeded settings.maxSeqLen = settings.longest := by
  unfold BlockPool.blocksNeeded ServeSettings.longest
  rw [h.blockSize,if_neg (by omega)]

theorem uncached (h : settings.Attached s p) (hcache : settings.enablePrefixCache = false) :
    s.scheduler.prefixCache = none := by
  have hnone := h.cache
  rw [hcache] at hnone
  simpa using hnone

end ServeSettings.Attached

namespace ServeSettings
variable {settings : ServeSettings}

def longestPrompt (settings : ServeSettings) : List Token := List.replicate (settings.maxSeqLen - 1) 0

theorem accepts_longest (hpos : 1 ≤ settings.maxSeqLen) (hcap : 1 ≤ settings.maxNewTokensCap) :
    settings.Accepts settings.longestPrompt (settings.sampling 0 1 1) := by
  refine ⟨⟨0,1,1,le_rfl,⟨zero_lt_one,le_rfl⟩,le_rfl⟩,?_⟩
  have hone : (settings.sampling 0 1 1).maxTokens = 1 := Nat.min_eq_left hcap
  unfold Settings.fitMaxSeq longestPrompt
  simp only [List.length_replicate,hone]
  rw [if_neg (by omega),if_neg (by omega),if_neg (by omega)]

theorem longestPrompt_length (hpos : 1 ≤ settings.maxSeqLen) (hcap : 1 ≤ settings.maxNewTokensCap) :
    settings.longestPrompt.length + (settings.sampling 0 1 1).maxTokens = settings.maxSeqLen := by
  have hone : (settings.sampling 0 1 1).maxTokens = 1 := Nat.min_eq_left hcap
  unfold longestPrompt
  rw [List.length_replicate,hone]
  omega

end ServeSettings

variable {P L : Type} [Inhabited P] [Inhabited L] {eng : CachedEngine P L} {may : Site → Bool} {settings : ServeSettings}
  {config : Option ModelConfig} {budget : ℕ} {mode : ServeEngine} {s₀ s : System P L}

/-- A pool that sizes itself, from RAM that is not too small, and with a seat and a
block to spare where prefixes are shared. -/
structure ServeSettings.Provides (settings : ServeSettings) (bytesPerToken budget : ℕ) : Prop where
  policy : normalizePolicy settings.scheduler = .fcfs
  auto : settings.Auto
  batch : 1 ≤ settings.maxBatchSize
  shared : settings.enablePrefixCache = true → 2 ≤ settings.maxBatchSize ∧ settings.blockSize ≤ settings.maxSeqLen
  ram : settings.longest + (if settings.enablePrefixCache then 1 else 0) ≤ settings.blocksFromRam bytesPerToken budget

theorem ServeSettings.Provides.numBlocks_le {bytesPerToken : ℕ} (h : settings.Provides bytesPerToken budget) {n : ℕ}
    (hn : settings.resolveNumKvBlocks bytesPerToken budget = .ok n) :
    settings.longest + (if settings.enablePrefixCache then 1 else 0) ≤ n := by
  obtain ⟨hbs,rfl⟩ := resolveNumKvBlocks_auto h.auto hn
  have hram := h.ram
  have hone := longest_le_cap h.batch
  split at hram
  · rename_i hshared
    obtain ⟨hbatch,hlong⟩ := h.shared hshared
    have htwo := longest_lt_cap hbs hlong hbatch
    rw [if_pos hshared]
    omega
  · rename_i hshared
    rw [if_neg hshared]
    omega

theorem ServeSettings.Attached.shape_eq {p q : BlockPool} (h : settings.Attached s₀ p) (hr : Reaches (Step eng) s₀ s)
    (hq : s.scheduler.pool = some q) : q.shape = p.shape := by
  obtain ⟨p',hp',hshape⟩ := Reachable.pool_of_reaches ⟨s₀,h.boot.initial,.refl s₀⟩ hr hq
  rw [h.pool,Option.some.injEq] at hp'
  rw [hp',hshape]

theorem ServeSettings.Attached.accommodates {p : BlockPool} (h : settings.Attached s₀ p)
    (hpolicy : normalizePolicy settings.scheduler = .fcfs) (hbatch : 1 ≤ settings.maxBatchSize)
    (hroom : settings.longest + (if settings.enablePrefixCache then 1 else 0) ≤ p.numBlocks)
    (hr : Reaches (Step eng) s₀ s) {i : SeqId} (hi : i ∈ s.accepted)
    (haccepts : ∀ j ∈ s.accepted, settings.Accepts (s.heap j).promptTokenIds (s.heap j).sampling) : s.Accommodates i := by
  have hinv : Reachable eng s₀ := ⟨s₀,h.boot.initial,.refl s₀⟩
  have hset := hinv.setup_eq hr
  refine ⟨?_,?_,hi,?_⟩
  · exact (congrArg Prod.fst hset).trans (h.policy.trans hpolicy)
  · rw [maxBatch_of_reaches hr,h.maxBatch]
    exact hbatch
  · intro hcache j hj q hq
    have hshape := h.shape_eq hr hq
    have hshared : settings.enablePrefixCache = true := by
      rw [← h.cache,← hcache]
      exact (congrArg (fun x => x.2.2) hset).symm
    have hle := h.blocksNeeded_le (haccepts j (System.accepted_of_upTo hj))
    have hblocks : q.numBlocks = p.numBlocks := congrArg Prod.fst hshape
    rw [if_pos hshared] at hroom
    rw [BlockPool.blocksNeeded_congr hshape,hblocks]
    exact (Nat.add_le_add_right hle 1).trans hroom

/-- A worker that sizes its own pool serves, first come first served, every request that
the handlers let through before it returned, in every fair run. -/
theorem deployed_serves_everybody (hattach : settings.attachWorker P L (some (.cached config)) budget = .ok (some (mode,s₀)))
    (hprovides : settings.Provides (bytesPerTokenFromModel config) budget)
    (b : (mode.service eng).Behaviour (serving eng may)) (hfair : b.Fair)
    (hstart : b.config 0 = ((mode.service eng).start,s₀)) (hcov : ∀ site, may site = true → site.covered = true) {n : ℕ}
    (hret : (b.config n).1 ≠ .returned)
    (haccepts : ∀ j ∈ (b.config n).2.accepted,
      settings.Accepts ((b.config n).2.heap j).promptTokenIds ((b.config n).2.heap j).sampling) :
    ∀ i ∈ (b.config n).2.accepted, ∃ m, n ≤ m ∧ ((b.config m).2.heap i).status.terminal = true ∧
      ((b.config m).2.heap i).Signalled := by
  intro i hi
  obtain ⟨p,hp,hn⟩ := ServeSettings.attachWorker_ok hattach
  have hruns := ServeEngine.runs_of_behaviour b ⟨s₀,hp.boot,hstart⟩
  have hr : Reaches (Step eng) s₀ (b.config n).2 := by
    have hzero := hruns 0
    have hsteps := (hzero.reaches (b.reaches (Nat.zero_le n))).2
    rwa [hstart] at hsteps
  have hacc := hp.accommodates hprovides.policy hprovides.batch (hprovides.numBlocks_le hn) hr hi haccepts
  obtain ⟨m,hm,hend⟩ := (ServeEngine.inevitable_terminal (hruns n) hcov hret hacc).happens b hfair rfl
  have him : i ∈ (b.config m).2.accepted := (hruns n).reachable.accepted_run ((hruns n).reaches (b.reaches hm)).2 hi
  exact ⟨m,hm,hend,(hruns m).reachable.signalled him⟩

def tinySettings : ServeSettings :=
  { maxSeqLen := 8, maxNewTokensCap := 4, maxBatchSize := 2, blockSize := 1, prefixCacheMaxEntries := 4 }

def tinyPool : BlockPool := ⟨16,1,List.range 16,.empty,.empty,by decide,Nat.one_pos⟩

def tinyStart : System ℕ Token := tinySettings.newSystem ℕ Token tinyPool

theorem tinySettings_attach :
    tinySettings.attachWorker ℕ Token (some (.cached none)) 400000 = .ok (some (.continuous,tinyStart)) :=
  ServeSettings.attachWorker_eq (by decide) (by decide +kernel) rfl

theorem tinySettings_provides : tinySettings.Provides (bytesPerTokenFromModel none) 400000 :=
  ⟨by decide,by decide,by decide,fun _ => by decide,by decide +kernel⟩

def tinyWaiting : System ℕ Token :=
  (tinyStart.submit 0 [5,6] (tinySettings.sampling 0 1 2)).submit 1 [7] (tinySettings.sampling 0 1 2)

theorem tinyWaiting_accepts : ∀ j ∈ tinyWaiting.accepted,
    tinySettings.Accepts (tinyWaiting.heap j).promptTokenIds (tinyWaiting.heap j).sampling := by
  intro j hj
  have hacc : tinyWaiting.accepted = [0,1] := by decide
  have hcases : j = 0 ∨ j = 1 := by simpa [hacc] using hj
  rcases hcases with rfl | rfl
  · exact ⟨⟨0,1,2,by decide,by decide,by decide⟩,rfl⟩
  · exact ⟨⟨0,1,2,by decide,by decide,by decide⟩,rfl⟩

theorem deployed_serves_everybody_tiny : ∃ (b : (ServeEngine.continuous.service (FakeLm.engine {})).Behaviour
    (serving (FakeLm.engine {}) Site.isModel)) (n m : ℕ), b.Fair ∧ (b.config n).2 = tinyWaiting ∧ n ≤ m ∧
      ((b.config m).2.heap 1).status.terminal = true := by
  have hsubmit : Reaches (ServeEngine.continuous.Next (FakeLm.engine {}) Site.isModel)
      ((ServeEngine.continuous.service (FakeLm.engine {})).start,tinyStart)
      ((ServeEngine.continuous.service (FakeLm.engine {})).start,tinyWaiting) :=
    ((Reaches.refl _).tail (.env ⟨_,rfl,.submit [5,6] _ (by decide)⟩)).tail (.env ⟨_,rfl,.submit [7] _ (by decide)⟩)
  have hplay : ∃ s : System ℕ Token, ServeEngine.continuous.play (FakeLm.engine {}) Site.isModel servedAndStopped
      ((ServeEngine.continuous.service (FakeLm.engine {})).start,tinyWaiting) = some (.returned,s.requestStop) :=
    ⟨_,rfl⟩
  obtain ⟨s,hs⟩ := hplay
  obtain ⟨b,n,hfair,h0,hn⟩ := Service.exists_fair hsubmit (ServeEngine.continuous.play_sound hs)
    (fun _ => rfl) ⟨.requestStop,rfl,.requestStop⟩
  have hret : (b.config n).1 ≠ .returned := by
    rw [hn]
    exact fun h => by cases h
  have haccepts : ∀ j ∈ (b.config n).2.accepted,
      tinySettings.Accepts ((b.config n).2.heap j).promptTokenIds ((b.config n).2.heap j).sampling := by
    rw [hn]
    exact tinyWaiting_accepts
  obtain ⟨m,hm,hend,_⟩ := deployed_serves_everybody tinySettings_attach tinySettings_provides b hfair h0
    (fun _ => Site.covered_of_isModel) hret haccepts 1 (by rw [hn]; decide)
  exact ⟨b,n,m,hfair,by rw [hn],hm,hend⟩

/-- A batch of the longest requests can wait before the worker has done anything. -/
theorem ServeSettings.Attached.exists_waiting {p : BlockPool} (h : settings.Attached s₀ p)
    (hcache : settings.enablePrefixCache = false) (hpos : 1 ≤ settings.maxSeqLen)
    (hcap : 1 ≤ settings.maxNewTokensCap) (hplaces : settings.maxBatchSize ≤ settings.maxWaiting)
    (hroom : settings.longest ≤ p.numBlocks) :
    ∃ u, s₀.Lined settings.longestPrompt (settings.sampling 0 1 1) settings.maxBatchSize u ∧ Reaches (Step eng) s₀ u ∧
      Reaches (ServeEngine.continuous.Next eng may) ((ServeEngine.continuous.service eng).start,s₀)
        ((ServeEngine.continuous.service eng).start,u) := by
  have hpool : ∀ q, s₀.scheduler.pool = some q →
      q.blocksNeeded (settings.longestPrompt.length + (settings.sampling 0 1 1).maxTokens) ≤ q.numBlocks := by
    intro q hq
    rw [h.pool,Option.some.injEq] at hq
    subst hq
    rw [ServeSettings.longestPrompt_length hpos hcap,h.blocksNeeded_longest hpos]
    exact hroom
  obtain ⟨u,hr,hu⟩ : ∃ u, Reaches (guarded (fun ev _ => ev.isRequest = true) (Step eng)) s₀ u ∧
      s₀.Lined settings.longestPrompt (settings.sampling 0 1 1) settings.maxBatchSize u :=
    h.boot.initial.exists_lined (h.uncached hcache) hpool settings.maxBatchSize (h.maxWaiting ▸ hplaces)
  refine ⟨u,hu,hr.mono (fun _ _ _ hst => hst.2),?_⟩
  refine hr.invariant (P := fun u => Reaches (ServeEngine.continuous.Next eng may)
    ((ServeEngine.continuous.service eng).start,s₀) ((ServeEngine.continuous.service eng).start,u)) (.refl _) ?_
  rintro ev t t' ht ⟨hreq,hst⟩
  exact ht.tail (.env ⟨ev,hreq,hst⟩)

/-- Each sequence of the batch demands the blocks of a longest request. -/
theorem ServeSettings.Attached.sum_demand {p q : BlockPool} (h : settings.Attached s₀ p)
    (hpos : 1 ≤ settings.maxSeqLen) (hcap : 1 ≤ settings.maxNewTokensCap) {seats : ℕ} {u t : System P L}
    (hu : s₀.Lined settings.longestPrompt (settings.sampling 0 1 1) seats u) (hsu : Reaches (Step eng) s₀ u)
    (hut : Reaches (Step eng) u t) (hacc : t.accepted = u.accepted) (hq : t.scheduler.pool = some q) :
    (t.live.map (t.demand q)).sum = t.live.length * settings.longest := by
  have hinv : Reachable eng u := ⟨s₀,h.boot.initial,hsu⟩
  have hall : t.live.map (t.demand q) = t.live.map (fun _ => settings.longest) := by
    apply List.map_congr_left
    intro i hi
    have hi := hacc ▸ (System.mem_live.mp hi).1
    have hrequest := (hinv.request_eq hut hi).trans (hu.request i hi)
    have htokens : (t.heap i).reservationTokens = settings.maxSeqLen :=
      (congrArg (fun r => r.1.length + r.2.maxTokens) hrequest).trans (ServeSettings.longestPrompt_length hpos hcap)
    unfold System.demand
    rw [htokens,BlockPool.blocksNeeded_congr (h.shape_eq (hsu.trans hut) hq),h.blocksNeeded_longest hpos]
  rw [hall,List.map_const',List.sum_replicate,smul_eq_mul]

/-- A worker that admits a full batch of the longest requests has the blocks for it. -/
theorem ServeSettings.Attached.batch_le {p : BlockPool} (h : settings.Attached s₀ p)
    (hcache : settings.enablePrefixCache = false) (hpos : 1 ≤ settings.maxSeqLen)
    (hcap : 1 ≤ settings.maxNewTokensCap) (hplaces : settings.maxBatchSize ≤ settings.maxWaiting)
    (hroom : settings.longest ≤ p.numBlocks)
    (hfree : ∀ c, Reaches (ServeEngine.continuous.Next eng may) ((ServeEngine.continuous.service eng).start,s₀) c →
      (∀ i ∈ c.2.accepted, settings.Accepts (c.2.heap i).promptTokenIds (c.2.heap i).sampling) → c.2.Unhindered) :
    settings.maxBatchSize * settings.longest ≤ p.numBlocks := by
  have hinv : Reachable eng s₀ := ⟨s₀,h.boot.initial,.refl s₀⟩
  -- a batch of the longest requests waits, and nobody runs yet
  obtain ⟨u,hu,hsteps,hworker⟩ := h.exists_waiting hcache hpos hcap hplaces hroom
  have hrunning : u.stats.running = [] := (congrArg WorkerStats.running hu.stats).trans h.boot.running
  have hnobody : ∀ i, ¬ u.Live i := fun i hi => by
    have hmem := System.mem_live.mpr hi
    rw [hu.live] at hmem
    cases hmem
  have hadmits := hfree _ hworker (by
    intro i hi
    obtain ⟨hprompt,hsampling⟩ := Prod.mk.inj (hu.request i hi)
    rw [hprompt,hsampling]
    exact ServeSettings.accepts_longest hpos hcap) (fun i hi => absurd hi (hnobody i)) (fun _ => 0)
  have hmax : u.scheduler.maxBatch = settings.maxBatchSize := (maxBatch_of_reaches hsteps).trans h.maxBatch
  rw [hrunning,List.length_nil,Nat.sub_zero,hmax,← hu.waiting,List.take_length] at hadmits
  -- after the admission all of them hold their blocks
  have hcrew : Crew none [] [] (fun _ _ => True) u :=
    ⟨hu.inFlight.trans h.boot.inFlight,hrunning,List.nodup_nil,by simp,fun i hi => absurd hi (hnobody i),by simp⟩
  obtain ⟨admitted,sch,heap,hloop,_,hreach,hafter⟩ :=
    admitLoop_crew (fun _ => 0) u.scheduler.maxBatch (hinv.tail hsteps) hcrew
  unfold Scheduler.admitRequests at hadmits
  rw [Nat.sub_zero,hloop] at hadmits
  obtain ⟨t,ht⟩ : ∃ t, t = { u with scheduler := sch, heap := heap } := ⟨_,rfl⟩
  rw [← ht,List.nil_append] at hafter
  have hut : Reaches (Step eng) u t := ht ▸ Orderly.reaches hreach
  have hst : Reaches (Step eng) s₀ t := hsteps.trans hut
  have hacc : t.accepted = u.accepted := by rw [ht]
  obtain ⟨q,hq⟩ : ∃ q, t.scheduler.pool = some q := by
    have hsome : t.scheduler.pool.map BlockPool.shape = s₀.scheduler.pool.map BlockPool.shape :=
      congrArg (fun x => x.2.1) (hinv.setup_eq hst)
    rw [h.pool,Option.map_some] at hsome
    obtain ⟨q,hq,_⟩ := Option.map_eq_some_iff.mp hsome
    exact ⟨q,hq⟩
  have hblocks : q.numBlocks = p.numBlocks := congrArg Prod.fst (h.shape_eq hst hq)
  have hfull := (hinv.tail hst).books.free_uncached (hinv.uncached_of_reaches hst (h.uncached hcache)) hq
  have hsum := h.sum_demand hpos hcap hu hsteps hut hacc hq
  have hseats : settings.maxBatchSize ≤ t.live.length := by
    rw [← hu.waiting,← hadmits]
    refine (hafter.nodup.subperm ?_).length_le
    intro i hi
    exact System.mem_live.mpr (hafter.live hi ((hafter.own i hi).2 hi).isOpen)
  have hle := Nat.mul_le_mul_right settings.longest hseats
  omega

/-- Without a prefix cache, and with RAM for the cap and a queue that holds a batch, a
pool that sizes itself never keeps a request of the continuous worker waiting for memory
exactly when the longest requests are not rounded up, or too little to matter. -/
theorem memory_never_blocks_iff
    (hattach : settings.attachWorker P L (some (.cached config)) budget = .ok (some (.continuous,s₀)))
    (hauto : settings.Auto) (hcache : settings.enablePrefixCache = false)
    (hram : settings.blocksCap ≤ settings.blocksFromRam (bytesPerTokenFromModel config) budget)
    (hcap : 1 ≤ settings.maxNewTokensCap) (hplaces : settings.maxBatchSize ≤ settings.maxWaiting) :
    (∀ c, Reaches (ServeEngine.continuous.Next eng may) ((ServeEngine.continuous.service eng).start,s₀) c →
      (∀ i ∈ c.2.accepted, settings.Accepts (c.2.heap i).promptTokenIds (c.2.heap i).sampling) → c.2.Unhindered) ↔
      settings.blockSize ∣ settings.maxSeqLen ∨
        settings.maxBatchSize * (settings.blockSize - settings.maxSeqLen % settings.blockSize) < settings.blockSize := by
  obtain ⟨p,hp,hn⟩ := ServeSettings.attachWorker_ok hattach
  obtain ⟨hbs,hnum⟩ := ServeSettings.resolveNumKvBlocks_auto hauto hn
  rw [Nat.min_eq_right hram] at hnum
  have hinv : Reachable eng s₀ := ⟨s₀,hp.boot.initial,.refl s₀⟩
  rw [← batch_fits_iff hbs]
  have hfits : settings.maxBatchSize * settings.longest ≤ settings.blocksCap ↔
      settings.maxBatchSize * ((settings.maxSeqLen + settings.blockSize - 1) / settings.blockSize) ≤
        (settings.maxBatchSize * settings.maxSeqLen + settings.blockSize - 1) / settings.blockSize := Iff.rfl
  rw [← hfits]
  constructor
  · intro hfree
    rcases Nat.eq_zero_or_pos settings.maxSeqLen with hzero | hpos
    · have hnone : settings.longest = 0 := by
        unfold ServeSettings.longest
        rw [hzero]
        exact Nat.div_eq_of_lt (by omega)
      rw [hnone,Nat.mul_zero]
      exact Nat.zero_le _
    · rcases Nat.eq_zero_or_pos settings.maxBatchSize with hnobody | hbatch
      · rw [hnobody,Nat.zero_mul]
        exact Nat.zero_le _
      · have hone := ServeSettings.longest_le_cap hbatch
        have hlongest : 1 ≤ settings.longest := by
          unfold ServeSettings.longest
          rw [Nat.le_div_iff_mul_le hbs]
          omega
        have hle := hp.batch_le hcache hpos hcap hplaces (by omega) hfree
        omega
  · intro hbatch c hc haccepts
    have hruns : ServeEngine.continuous.Runs eng may ((ServeEngine.continuous.service eng).start,s₀) :=
      ⟨s₀,hp.boot,.refl _⟩
    have hr : Reaches (Step eng) s₀ c.2 := (hruns.reaches hc).2
    have hroomy : c.2.Roomy settings.longest := by
      refine ⟨hinv.uncached_of_reaches hr (hp.uncached hcache),?_,?_⟩
      · intro q hq i hi
        unfold System.demand
        rw [BlockPool.blocksNeeded_congr (hp.shape_eq hr hq)]
        exact hp.blocksNeeded_le (haccepts i hi)
      · intro q hq
        have hblocks : q.numBlocks = p.numBlocks := congrArg Prod.fst (hp.shape_eq hr hq)
        rw [maxBatch_of_reaches hr,hp.maxBatch,hblocks,hnum]
        exact hbatch.trans (le_max_right _ _)
    exact (hinv.tail hr).unhindered hroomy

/-- Without a prefix cache the default settings give every seat its blocks. -/
def uncachedSettings : ServeSettings := { enablePrefixCache := false }

theorem memory_never_blocks_iff_default : ∃ s₀ : System ℕ Token,
    uncachedSettings.attachWorker ℕ Token (some (.cached none)) (2 ^ 31) = .ok (some (.continuous,s₀)) ∧
    ∀ c, Reaches (ServeEngine.continuous.Next (FakeLm.engine {}) Site.isModel)
        ((ServeEngine.continuous.service (FakeLm.engine {})).start,s₀) c →
      (∀ i ∈ c.2.accepted, uncachedSettings.Accepts (c.2.heap i).promptTokenIds (c.2.heap i).sampling) →
      c.2.Unhindered := by
  have hattach : uncachedSettings.attachWorker ℕ Token (some (.cached none)) (2 ^ 31) = .ok (some (.continuous,
      uncachedSettings.newSystem ℕ Token ⟨512,16,List.range 512,.empty,.empty,by decide,by decide⟩)) :=
    ServeSettings.attachWorker_eq (by decide) (by decide +kernel) rfl
  refine ⟨_,hattach,?_⟩
  exact (memory_never_blocks_iff hattach (by decide) rfl (by decide +kernel) (by decide) (by decide)).mpr
    (Or.inl (by decide))

end FluxEngine
