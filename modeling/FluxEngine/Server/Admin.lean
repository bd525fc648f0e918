import FluxEngine.Engine.System
import FluxEngine.Server.Routes

/-! # What the admin routes see

The admin handlers look for a sequence in the waiting queue and in the list of
the worker, and count these two.
-/
namespace FluxEngine
namespace System
variable {P L : Type} (s : System P L) {i : SeqId}

/-- `_find_sequence`. -/
def findSequence (requestId : SeqId) : Option SeqId :=
  match s.waiting.find? (fun i => decide (i = requestId)) with
  | some i => some i
  | none => s.stats.running.find? (fun i => decide (i = requestId))

/-- The running list without what is `_DONE`. -/
def runningIds : List SeqId := s.stats.running.filter (fun i => !(s.heap i).status.terminal)

end System

/-- The payload of `GET /admin/stats`, as far as it is about sequences. -/
structure AdminStats where
  waiting : ℕ
  running : ℕ
  inFlight : ℕ
  lastBatchSize : ℕ
  tokensGenerated : ℕ
  waitingIds : List SeqId
  runningIds : List SeqId

/-- What `update_gauges` sets. -/
structure Gauges where
  waiting : ℕ
  running : ℕ
  inFlight : ℕ
  decodeBatch : ℕ
  kvUsed : ℕ
  kvTotal : ℕ
  prefixEntries : ℕ
  prefixHits : ℕ
  prefixMisses : ℕ
  prefixTokens : ℕ

namespace System
variable {P L : Type} (s : System P L) {i : SeqId}

def adminStats : AdminStats where
  waiting := s.waiting.length
  running := s.runningIds.length
  inFlight := s.waiting.length + s.runningIds.length
  lastBatchSize := s.stats.lastBatchSize
  tokensGenerated := s.stats.tokensGenerated
  waitingIds := s.waiting
  runningIds := s.runningIds

def updateGauges : Gauges where
  waiting := s.waiting.length
  running := s.stats.running.countP (fun i => !(s.heap i).status.terminal)
  inFlight := s.waiting.length + s.stats.running.countP (fun i => !(s.heap i).status.terminal)
  decodeBatch := s.stats.lastBatchSize
  kvUsed := (s.scheduler.pool.map BlockPool.usedBlocks).getD 0
  kvTotal := (s.scheduler.pool.map BlockPool.numBlocks).getD 0
  prefixEntries := (s.scheduler.prefixCache.map (fun c => c.entries.size)).getD 0
  prefixHits := (s.scheduler.prefixCache.map PrefixCache.hits).getD 0
  prefixMisses := (s.scheduler.prefixCache.map PrefixCache.misses).getD 0
  prefixTokens := (s.scheduler.prefixCache.map PrefixCache.tokensSaved).getD 0

/-- The answer of `POST /admin/abort`: where the sequence was, or 404. -/
def abortAnswer (requestId : SeqId) : Except HttpException String :=
  match s.findSequence requestId with
  | none => .error ⟨404,s!"unknown request {requestId}"⟩
  | some i => if i ∈ s.waiting then .ok "waiting" else .ok "running"

theorem mem_runningIds : i ∈ s.runningIds ↔ i ∈ s.stats.running ∧ (s.heap i).status.terminal = false := by
  simp [runningIds]

theorem findSequence_isSome : (s.findSequence i).isSome ↔ i ∈ s.waiting ∨ i ∈ s.stats.running := by
  unfold findSequence
  cases hw : s.waiting.find? (fun j => decide (j = i)) with
  | some j =>
    have hj : j = i := by simpa using List.find?_some hw
    have hmem : i ∈ s.waiting := hj ▸ List.mem_of_find?_eq_some hw
    simp [hmem]
  | none =>
    have hnot : i ∉ s.waiting := by
      intro hi
      have hne := List.find?_eq_none.mp hw i hi
      simp at hne
    simp [hnot]

theorem findSequence_eq {j : SeqId} (h : s.findSequence i = some j) : j = i := by
  unfold findSequence at h
  split at h
  · rename_i hw
    cases h
    simpa using List.find?_some hw
  · simpa using List.find?_some h

theorem abortAnswer_isOk : (s.abortAnswer i).isOk = (s.findSequence i).isSome := by
  unfold abortAnswer
  cases s.findSequence i with
  | none => rfl
  | some j =>
    simp only
    split <;> rfl

/-- Waiting or running, found by its id, and counted once. -/
structure Sees (i : SeqId) : Prop where
  place : i ∈ s.waiting ∨ i ∈ s.stats.running
  found : s.findSequence i = some i
  abort : (s.abortAnswer i).isOk
  counted : (s.adminStats.waitingIds ++ s.adminStats.runningIds).count i = 1

/-- Whoever was accepted and has not ended is seen, and nobody else is counted. -/
structure Transparent : Prop where
  sees : ∀ i ∈ s.accepted, (s.heap i).status.terminal = false → s.Sees i
  stats : s.adminStats.inFlight = s.accepted.countP (fun i => !(s.heap i).status.terminal)
  gauge : s.updateGauges.inFlight = s.accepted.countP (fun i => !(s.heap i).status.terminal)

end System
end FluxEngine
