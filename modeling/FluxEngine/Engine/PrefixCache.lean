import FluxEngine.Engine.BlockPool

/-! # Prefix reuse

The cache shares the scheduler's block pool, so the operations that touch
blocks take the pool along.  `now` is the clock reading of the call.
-/
namespace FluxEngine

structure PrefixHit (P L : Type) where
  tokenIds : List Token
  nTokens : ℕ
  blockIds : List ℕ
  kvCache : KvCache P
  lastLogits : Option L

structure PrefixEntry (P L : Type) where
  tokenIds : List Token
  kvCache : KvCache P
  lastLogits : Option L
  blockIds : List ℕ := []
  refs : ℕ := 0
  hits : ℕ := 0
  lastUsed : ℕ := 0

structure PrefixCache (P L : Type) where
  maxEntries : ℕ
  minTokens : ℕ
  blockSize : ℕ
  entries : OrderedDict (List Token) (PrefixEntry P L)
  blockPins : OrderedDict ℕ ℕ
  hits : ℕ
  misses : ℕ
  tokensSaved : ℕ
  maxEntries_pos : 1 ≤ maxEntries
  minTokens_pos : 1 ≤ minTokens
  blockSize_pos : 1 ≤ blockSize

/-- `dict.get(block_id, 0)` on the pins. -/
def pinCount (pins : OrderedDict ℕ ℕ) (b : ℕ) : ℕ := (pins.get? b).getD 0

namespace PrefixCache
variable {P L : Type}

def init (maxEntries minTokens blockSize : ℕ) (h : 1 ≤ blockSize) : PrefixCache P L :=
  ⟨max 1 maxEntries,max 1 minTokens,blockSize,.empty,.empty,0,0,0,le_max_left _ _,le_max_left _ _,h⟩

/-- The multiples `k * block_size`, downwards, while they reach `min_tokens`. -/
def alignedLengths (c : PrefixCache P L) : ℕ → List ℕ → List ℕ
  | 0, lengths => lengths
  | k+1, lengths =>
    let aligned := (k+1) * c.blockSize
    if c.minTokens ≤ aligned then
      c.alignedLengths k (if aligned ∈ lengths then lengths else lengths ++ [aligned])
    else lengths

def candidateLengths (c : PrefixCache P L) (tokenIds : List Token) : List ℕ :=
  let n := tokenIds.length
  c.alignedLengths (n / c.blockSize) (if c.minTokens ≤ n then [n] else [])

/-- The loop of `peek`, from `n` tokens downwards. -/
def peekFrom (c : PrefixCache P L) (tokenIds : List Token) : ℕ → Option (PrefixHit P L)
  | 0 => none
  | n+1 =>
    if c.minTokens ≤ n+1 then
      match c.entries.get? (tokenIds.take (n+1)) with
      | some entry =>
        some { tokenIds := tokenIds.take (n+1), nTokens := n+1, blockIds := entry.blockIds,
               kvCache := entry.kvCache,
               lastLogits := if n+1 = tokenIds.length then entry.lastLogits else none }
      | none => c.peekFrom tokenIds n
    else none

def peek (c : PrefixCache P L) (tokenIds : List Token) : Option (PrefixHit P L) :=
  c.peekFrom tokenIds tokenIds.length

def pin (pins : OrderedDict ℕ ℕ) (ids : List ℕ) : OrderedDict ℕ ℕ :=
  ids.foldl (fun pins b => pins.set b (pinCount pins b + 1)) pins

/-- The loop of `_unpin`: the pins left and the blocks to free. -/
def unpinLoop : OrderedDict ℕ ℕ → List ℕ → List ℕ → OrderedDict ℕ ℕ × List ℕ
  | pins, toFree, [] => (pins,toFree)
  | pins, toFree, b :: ids =>
    let left := pinCount pins b - 1
    if left = 0 then unpinLoop (pins.pop b) (toFree ++ [b]) ids
    else unpinLoop (pins.set b left) toFree ids

def unpin (pins : OrderedDict ℕ ℕ) (pool : Option BlockPool) (ids : List ℕ) :
    OrderedDict ℕ ℕ × Option BlockPool :=
  match pool with
  | none => (pins,none)
  | some pool =>
    let (pins,toFree) := unpinLoop pins [] ids
    (pins,some (if toFree = [] then pool else pool.release toFree none))

/-- Blocks of a live entry whose tokens start with `tokenIds`. -/
def shareFromLive (c : PrefixCache P L) (pool : Option BlockPool) (tokenIds : List Token) :
    Option (List ℕ) :=
  match pool with
  | none => none
  | some pool =>
    (c.entries.values.find? (fun other => decide (0 < other.refs) && !other.blockIds.isEmpty &&
      decide (other.tokenIds.take tokenIds.length = tokenIds))).map
        (fun other => other.blockIds.take (pool.blocksNeeded tokenIds.length))

/-- `_acquire_blocks(entry)`: the entry, the pins and the pool afterwards. -/
def acquireBlocks (c : PrefixCache P L) (pool : Option BlockPool) (entry : PrefixEntry P L) :
    PrefixEntry P L × OrderedDict ℕ ℕ × Option BlockPool :=
  match pool with
  | none => ({ entry with refs := entry.refs + 1 },c.blockPins,none)
  | some p =>
    if 0 < entry.refs then
      ({ entry with refs := entry.refs + 1 },pin c.blockPins entry.blockIds,some p)
    else
      match c.shareFromLive (some p) entry.tokenIds with
      | some shared =>
        ({ entry with blockIds := shared, refs := entry.refs + 1 },pin c.blockPins shared,some p)
      | none =>
        match p.reserve entry.tokenIds.length none with
        | none => ({ entry with blockIds := [], refs := entry.refs + 1 },c.blockPins,some p)
        | some (ids,p) =>
          ({ entry with blockIds := ids, refs := entry.refs + 1 },pin c.blockPins ids,some p)

def lookup (c : PrefixCache P L) (pool : Option BlockPool) (tokenIds : List Token) (now : ℕ) :
    Option (PrefixHit P L) × PrefixCache P L × Option BlockPool :=
  match c.peek tokenIds with
  | none => (none,{ c with misses := c.misses + 1 },pool)
  | some hit =>
    match c.entries.get? hit.tokenIds with
    | none => (none,c,pool)
    | some entry =>
      let (acquired,pins,pool) := c.acquireBlocks pool entry
      let entry := { acquired with hits := acquired.hits + 1, lastUsed := now }
      (some { tokenIds := entry.tokenIds, nTokens := entry.tokenIds.length, blockIds := entry.blockIds,
              kvCache := entry.kvCache,
              lastLogits := if entry.tokenIds.length = tokenIds.length then entry.lastLogits else none },
        { c with entries := c.entries.set hit.tokenIds entry, blockPins := pins, hits := c.hits + 1,
                 tokensSaved := c.tokensSaved + entry.tokenIds.length },
        pool)

/-- `min(unused, key=last_used)`: the first of the least recently used. -/
def oldest : List (PrefixEntry P L) → Option (PrefixEntry P L)
  | [] => none
  | e :: rest =>
    match oldest rest with
    | none => some e
    | some f => if f.lastUsed < e.lastUsed then some f else some e

/-- The loop of `_evict`; every round removes an entry, so that the number of
entries bounds the rounds. -/
def evictLoop : ℕ → PrefixCache P L → Option BlockPool → PrefixCache P L × Option BlockPool
  | 0, c, pool => (c,pool)
  | fuel+1, c, pool =>
    if c.maxEntries ≤ c.entries.size then
      match oldest (c.entries.values.filter (fun e => e.refs = 0)) with
      | none => (c,pool)
      | some victim =>
        let (pins,pool) := unpin c.blockPins pool victim.blockIds
        evictLoop fuel { c with blockPins := pins, entries := c.entries.pop victim.tokenIds } pool
    else (c,pool)

def evict (c : PrefixCache P L) (pool : Option BlockPool) : PrefixCache P L × Option BlockPool :=
  evictLoop c.entries.size c pool

/-- The loop of `insert` over the candidate lengths. -/
def insertLoop (tokenIds : List Token) (kvCache : KvCache P) (lastLogits : Option L) (now : ℕ) :
    List ℕ → PrefixCache P L → Option BlockPool → PrefixCache P L × Option BlockPool
  | [], c, pool => (c,pool)
  | n :: lengths, c, pool =>
    if cacheSeqLen kvCache < n then insertLoop tokenIds kvCache lastLogits now lengths c pool
    else if (c.entries.get? (tokenIds.take n)).isSome then
      insertLoop tokenIds kvCache lastLogits now lengths c pool
    else
      let (c,pool) := c.evict pool
      if c.maxEntries ≤ c.entries.size then insertLoop tokenIds kvCache lastLogits now lengths c pool
      else
        let entry : PrefixEntry P L :=
          { tokenIds := tokenIds.take n, kvCache := sliceCache kvCache n,
            lastLogits := if n = tokenIds.length then lastLogits else none, lastUsed := now }
        insertLoop tokenIds kvCache lastLogits now lengths
          { c with entries := c.entries.set (tokenIds.take n) entry } pool

def insert (c : PrefixCache P L) (pool : Option BlockPool) (tokenIds : List Token)
    (kvCache : Option (KvCache P)) (lastLogits : Option L) (now : ℕ) :
    PrefixCache P L × Option BlockPool :=
  match kvCache with
  | none => (c,pool)
  | some kv =>
    if cacheSeqLen kv < c.minTokens then (c,pool)
    else insertLoop tokenIds kv lastLogits now (c.candidateLengths tokenIds) c pool

def adopt (c : PrefixCache P L) (pool : Option BlockPool) (id : SeqId) (seq : Sequence P L) (now : ℕ) :
    PrefixCache P L × Option BlockPool × Sequence P L :=
  match seq.prefixKey with
  | some _ => (c,pool,seq)
  | none =>
    match c.candidateLengths seq.promptTokenIds with
    | [] => (c,pool,seq)
    | n :: _ =>
      let key := seq.promptTokenIds.take n
      match c.entries.get? key with
      | none => (c,pool,seq)
      | some entry =>
        if 0 < entry.refs then
          let (entry,pins,pool) := c.acquireBlocks pool entry
          ({ c with entries := c.entries.set key entry, blockPins := pins },pool,
            { seq with prefixKey := some key })
        else
          match pool with
          | none =>
            let entry := { entry with blockIds := [], refs := 1, lastUsed := now }
            ({ c with entries := c.entries.set key entry },none,
              { seq with prefixKey := some key, blockIds := seq.ownedBlockIds })
          | some p =>
            let (taken,p,seq) := p.detach id seq (p.blocksNeeded entry.tokenIds.length)
            let entry := { entry with blockIds := taken, refs := 1, lastUsed := now }
            let owned := (p.alloc.get? id).getD []
            ({ c with entries := c.entries.set key entry, blockPins := pin c.blockPins taken },some p,
              { seq with prefixKey := some key, ownedBlockIds := owned, blockIds := taken ++ owned })

/-- `release(token_ids)`; nothing happens for `None` and the empty key. -/
def release (c : PrefixCache P L) (pool : Option BlockPool) (tokenIds : Option (List Token)) :
    PrefixCache P L × Option BlockPool :=
  match tokenIds with
  | none => (c,pool)
  | some key =>
    if key = [] then (c,pool)
    else
      match c.entries.get? key with
      | none => (c,pool)
      | some entry =>
        if entry.refs = 0 then (c,pool)
        else
          let (pins,pool) := unpin c.blockPins pool entry.blockIds
          let refs := entry.refs - 1
          let entry := { entry with refs := refs, blockIds := if refs = 0 then [] else entry.blockIds }
          ({ c with entries := c.entries.set key entry, blockPins := pins },pool)

end PrefixCache
end FluxEngine
