import Mathlib.Data.Rat.Defs
import FluxEngine.Engine.KvUtils

/-! # Requests and their life-cycle data

Times of day and latencies are left out: no modelled decision reads them.
-/
namespace FluxEngine

abbrev Token := ℕ
abbrev SeqId := ℕ
abbrev Exc := String

abbrev Text := List Char

structure SamplingParams where
  temperature : ℚ := 0
  topP : ℚ := 1
  maxTokens : ℕ := 16
  stopTokenIds : List Token := []
  ignoreEos : Bool := false
  deriving DecidableEq, Repr

inductive FinishReason
  | stop
  | length
  | abort
  deriving DecidableEq, Repr

structure GenerateResult where
  text : Text
  promptTokenIds : List Token
  outputTokenIds : List Token
  promptTokens : ℕ
  completionTokens : ℕ
  finishReason : FinishReason
  engine : String
  deriving DecidableEq, Repr

inductive SequenceStatus
  | waiting
  | prefill
  | decoding
  | finished
  | aborted
  | error
  deriving DecidableEq, Repr

def SequenceStatus.terminal : SequenceStatus → Bool
  | .finished => true
  | .aborted => true
  | .error => true
  | _ => false

/-- A request.  `tokenQueue` lists everything put on the queue so far, `none`
being the end marker; `releases` counts the calls of `_release` and is not
part of the source. -/
structure Sequence (P L : Type) where
  promptTokenIds : List Token := []
  sampling : SamplingParams := {}
  outputIds : List Token := []
  status : SequenceStatus := .waiting
  kvCache : Option (KvCache P) := none
  lastToken : Option Token := none
  finishReason : Option FinishReason := none
  result : Option GenerateResult := none
  error : Option Exc := none
  tokenQueue : List (Option Token) := []
  finishedEvent : Bool := false
  blockIds : List ℕ := []
  ownedBlockIds : List ℕ := []
  prefixKey : Option (List Token) := none
  prefixTokens : ℕ := 0
  prefixKv : Option (KvCache P) := none
  prefixLogits : Option L := none
  abortRequested : Bool := false
  releases : ℕ := 0

namespace Sequence
variable {P L : Type}

instance : Inhabited (Sequence P L) := ⟨{}⟩

def reservationTokens (seq : Sequence P L) : ℕ := seq.promptTokenIds.length + seq.sampling.maxTokens

def requestAbort (seq : Sequence P L) : Sequence P L := { seq with abortRequested := true }

/-- The sequence without what admission and prefix binding may change. -/
def life (seq : Sequence P L) : Sequence P L :=
  { seq with blockIds := [], ownedBlockIds := [], prefixKey := none, prefixTokens := 0,
             prefixKv := none, prefixLogits := none }

def prefixPart (seq : Sequence P L) : Option (List Token) × ℕ × Option (KvCache P) × Option L :=
  (seq.prefixKey,seq.prefixTokens,seq.prefixKv,seq.prefixLogits)

/-- The request and what has been generated for it. -/
def generated (seq : Sequence P L) :
    List Token × SamplingParams × List Token × Option Token × Option FinishReason :=
  (seq.promptTokenIds,seq.sampling,seq.outputIds,seq.lastToken,seq.finishReason)

end Sequence
end FluxEngine
