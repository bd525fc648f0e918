import Mathlib.Algebra.Order.Floor.Div
import FluxEngine.Lib.OrderedDict
import FluxEngine.Engine.Sequence

/-! # The accounting pool of KV blocks -/
namespace FluxEngine

structure BlockPool where
  numBlocks : ℕ
  blockSize : ℕ
  free : List ℕ
  alloc : OrderedDict SeqId (List ℕ)
  anon : OrderedDict String (List ℕ)
  numBlocks_pos : 1 ≤ numBlocks
  blockSize_pos : 1 ≤ blockSize

namespace BlockPool
variable {P L : Type}

def init (numBlocks blockSize : ℕ) : Except Exc BlockPool :=
  if hn : 1 ≤ numBlocks then
    if hb : 1 ≤ blockSize then
      .ok ⟨numBlocks,blockSize,List.range numBlocks,.empty,.empty,hn,hb⟩
    else .error "block_size must be >= 1"
  else .error "num_blocks must be >= 1"

def freeBlocks (pool : BlockPool) : ℕ := pool.free.length
def usedBlocks (pool : BlockPool) : ℕ := pool.numBlocks - pool.freeBlocks

/-- `math.ceil(num_tokens / block_size)`, and 0 for nothing. -/
def blocksNeeded (pool : BlockPool) (numTokens : ℕ) : ℕ :=
  if numTokens = 0 then 0 else (numTokens + pool.blockSize - 1) / pool.blockSize

def canAllocate (pool : BlockPool) (numTokens : ℕ) : Bool :=
  decide (pool.blocksNeeded numTokens ≤ pool.freeBlocks)

def reserve (pool : BlockPool) (numTokens : ℕ) (key : Option String) : Option (List ℕ × BlockPool) :=
  let needed := pool.blocksNeeded numTokens
  let keep (pool : BlockPool) (ids : List ℕ) : BlockPool :=
    match key with
    | some k => { pool with anon := pool.anon.set k ids }
    | none => pool
  if needed = 0 then some ([],keep pool [])
  else if needed > pool.freeBlocks then none
  else
    let ids := pool.free.take needed
    some (ids,keep { pool with free := pool.free.drop needed } ids)

def allocate (pool : BlockPool) (id : SeqId) (seq : Sequence P L) (numTokens : ℕ) :
    Option (List ℕ × BlockPool × Sequence P L) :=
  match pool.reserve numTokens none with
  | none => none
  | some (ids,pool) => some (ids,{ pool with alloc := pool.alloc.set id ids },{ seq with blockIds := ids })

def release (pool : BlockPool) (ids : List ℕ) (key : Option String) : BlockPool :=
  match key with
  | none => { pool with free := pool.free ++ ids }
  | some k =>
    match pool.anon.get? k with
    | none => pool
    | some stored => { pool with anon := pool.anon.pop k, free := pool.free ++ stored }

/-- `owned_block_ids or block_ids`, the fallback when `_alloc` lacks the sequence. -/
def fallbackIds (seq : Sequence P L) : List ℕ :=
  if seq.ownedBlockIds = [] then seq.blockIds else seq.ownedBlockIds

def detach (pool : BlockPool) (id : SeqId) (seq : Sequence P L) (nBlocks : ℕ) :
    List ℕ × BlockPool × Sequence P L :=
  let ids := (pool.alloc.get? id).getD (fallbackIds seq)
  let n := min nBlocks ids.length
  (ids.take n,{ pool with alloc := pool.alloc.set id (ids.drop n) },{ seq with ownedBlockIds := ids.drop n })

/-- `free(seq)`, named apart from the free list. -/
def freeSeq (pool : BlockPool) (id : SeqId) (seq : Sequence P L) : BlockPool × Sequence P L :=
  let ids := (pool.alloc.get? id).getD (fallbackIds seq)
  ({ pool with alloc := pool.alloc.pop id, free := pool.free ++ ids },
    { seq with blockIds := [], ownedBlockIds := [] })

end BlockPool
end FluxEngine
