import Mathlib.Logic.Function.Basic
import FluxEngine.Engine.PrefixCache

/-! # Waiting queue and admission

Sequence objects are shared, so the queue holds their ids and a heap maps an
id to the current contents of the object.
-/
namespace FluxEngine

abbrev Heap (P L : Type) := SeqId → Sequence P L

structure RequestQueue where
  maxWaiting : ℕ
  waiting : List SeqId := []
  event : Bool := false

namespace RequestQueue

/-- `try_enqueue` without its write to `seq.status`. -/
def tryEnqueue (q : RequestQueue) (id : SeqId) : Option RequestQueue :=
  if q.maxWaiting ≤ q.waiting.length then none
  else some { q with waiting := q.waiting ++ [id], event := true }

def peekOne (q : RequestQueue) : Option SeqId := q.waiting.head?

def popOne (q : RequestQueue) : Option SeqId × RequestQueue :=
  match q.waiting with
  | [] => (none,q)
  | id :: rest => (some id,{ q with waiting := rest, event := if rest = [] then false else q.event })

def pushFront (q : RequestQueue) (id : SeqId) : RequestQueue :=
  { q with waiting := id :: q.waiting, event := true }

def remove (q : RequestQueue) (id : SeqId) : Bool × RequestQueue :=
  let kept := q.waiting.erase id
  (decide (id ∈ q.waiting),{ q with waiting := kept, event := if kept = [] then false else q.event })

def wake (q : RequestQueue) : RequestQueue := { q with event := true }

end RequestQueue

inductive Policy
  | fcfs
  | memoryFit
  deriving DecidableEq, Repr

inductive SubmitError
  | queueFull (message : String)
  | requestTooLarge (message : String)
  deriving DecidableEq, Repr

structure Scheduler (P L : Type) where
  queue : RequestQueue
  maxBatch : ℕ
  pool : Option BlockPool
  policy : Policy
  prefixCache : Option (PrefixCache P L)

namespace Scheduler
variable {P L : Type}

def peekPrefix (s : Scheduler P L) (tokenIds : List Token) : Option (PrefixHit P L) :=
  s.prefixCache.bind (fun c => c.peek tokenIds)

def needTokens (s : Scheduler P L) (seq : Sequence P L) : ℕ :=
  match s.peekPrefix seq.promptTokenIds with
  | none => seq.reservationTokens
  | some hit => seq.reservationTokens - hit.nTokens

def applyHit (seq : Sequence P L) (hit : PrefixHit P L) : Sequence P L :=
  { seq with prefixKey := some hit.tokenIds, prefixTokens := hit.nTokens,
             prefixKv := some hit.kvCache, prefixLogits := hit.lastLogits }

/-- The check of `submit` against the whole pool. -/
def tooLarge (s : Scheduler P L) (seq : Sequence P L) : Option SubmitError :=
  match s.pool with
  | none => none
  | some pool =>
    let needed := pool.blocksNeeded (s.needTokens seq)
    if needed > pool.numBlocks then
      some (.requestTooLarge s!"request needs {needed} KV blocks but pool has {pool.numBlocks}")
    else none

def submit (s : Scheduler P L) (id : SeqId) (seq : Sequence P L) :
    Except SubmitError (Scheduler P L × Sequence P L) :=
  match s.tooLarge seq with
  | some e => .error e
  | none =>
    match s.queue.tryEnqueue id with
    | none => .error (.queueFull s!"waiting queue is full ({s.queue.maxWaiting})")
    | some queue => .ok ({ s with queue := queue },{ seq with status := .waiting })

/-- `prefix_cache.lookup`, or no hit without a cache. -/
def lookupPrefix (s : Scheduler P L) (tokenIds : List Token) (now : ℕ) :
    Option (PrefixHit P L) × Scheduler P L :=
  match s.prefixCache with
  | none => (none,s)
  | some c =>
    let (hit,c,pool) := c.lookup s.pool tokenIds now
    (hit,{ s with prefixCache := some c, pool := pool })

/-- `prefix_cache.release(key)`, or nothing without a cache. -/
def releasePrefix (s : Scheduler P L) (key : Option (List Token)) : Scheduler P L :=
  match s.prefixCache with
  | none => s
  | some c =>
    let (c,pool) := c.release s.pool key
    { s with prefixCache := some c, pool := pool }

def tryAllocate (s : Scheduler P L) (id : SeqId) (seq : Sequence P L) (now : ℕ) :
    Bool × Scheduler P L × Sequence P L :=
  let (hit,s) := s.lookupPrefix seq.promptTokenIds now
  let need := match hit with
    | none => seq.reservationTokens
    | some h => seq.reservationTokens - h.nTokens
  match s.pool with
  | none => (true,s,hit.elim seq (applyHit seq))
  | some pool =>
    match pool.allocate id seq need with
    | none => (false,hit.elim s (fun h => s.releasePrefix (some h.tokenIds)),seq)
    | some (ids,pool,seq) =>
      let seq := { seq with ownedBlockIds := ids }
      (true,{ s with pool := some pool },
        hit.elim seq (fun h => { applyHit seq h with blockIds := h.blockIds ++ ids }))

def fits (s : Scheduler P L) (seq : Sequence P L) : Bool :=
  match s.pool with
  | none => true
  | some pool => pool.canAllocate (s.needTokens seq)

/-- Try the sequence that was taken out of the queue; put it back in front
when its allocation fails. -/
def tryTaken (s : Scheduler P L) (heap : Heap P L) (id : SeqId) (now : ℕ) :
    Option SeqId × Scheduler P L × Heap P L :=
  match s.tryAllocate id (heap id) now with
  | (true,s,seq) => (some id,s,Function.update heap id seq)
  | (false,s,seq) => (none,{ s with queue := s.queue.pushFront id },Function.update heap id seq)

/-- One round of `_admit_fcfs`; no id means `break`. -/
def fcfsRound (s : Scheduler P L) (heap : Heap P L) (now : ℕ) :
    Option SeqId × Scheduler P L × Heap P L :=
  match s.queue.peekOne with
  | none => (none,s,heap)
  | some id =>
    if s.fits (heap id) then tryTaken { s with queue := s.queue.popOne.2 } heap id now
    else (none,s,heap)

/-- One round of `_admit_memory_fit`; no id means `break`. -/
def memoryFitRound (s : Scheduler P L) (heap : Heap P L) (now : ℕ) :
    Option SeqId × Scheduler P L × Heap P L :=
  match s.queue.waiting.find? (fun id => s.fits (heap id)) with
  | none => (none,s,heap)
  | some id => tryTaken { s with queue := (s.queue.remove id).2 } heap id now

def admitRound (s : Scheduler P L) (heap : Heap P L) (now : ℕ) :
    Option SeqId × Scheduler P L × Heap P L :=
  match s.policy with
  | .memoryFit => s.memoryFitRound heap now
  | .fcfs => s.fcfsRound heap now

/-- `while room > 0`, with a clock reading for every round. -/
def admitLoop (now : ℕ → ℕ) : ℕ → Scheduler P L → Heap P L → List SeqId × Scheduler P L × Heap P L
  | 0, s, heap => ([],s,heap)
  | room+1, s, heap =>
    match s.admitRound heap (now room) with
    | (none,s,heap) => ([],s,heap)
    | (some id,s,heap) =>
      let (admitted,s,heap) := admitLoop now room s heap
      (id :: admitted,s,heap)

/-- `admit(running_count)`. -/
def admitRequests (s : Scheduler P L) (heap : Heap P L) (runningCount : ℕ) (now : ℕ → ℕ) :
    List SeqId × Scheduler P L × Heap P L :=
  admitLoop now (s.maxBatch - runningCount) s heap

end Scheduler
end FluxEngine
