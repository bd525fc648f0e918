import FluxEngine.Engine.System
import FluxEngine.Lib.Transition

/-! # Admission and aborts on two threads

`admit` runs with the worker, the handlers of `POST /admin/abort` run on other
threads, and each call on the queue is atomic by itself.  Between the call that
decides on a waiting sequence and the call that takes it out of the queue a
handler may remove that sequence.
-/
namespace FluxEngine
open Transition Function
variable {P L : Type}

/-- Where `admit` stands between two of its calls. -/
inductive Admission
  | idle
  | top (room : ℕ)
  | check (room : ℕ) (candidates : List SeqId)
  | take (room : ℕ) (i : SeqId)
  | allocate (room : ℕ) (i : SeqId)
  | putBack (i : SeqId)
  deriving DecidableEq, Repr

def Admission.taken : Admission → Option SeqId
  | .allocate _ i => some i
  | .putBack i => some i
  | _ => none

/-- Where a `POST /admin/abort` stands between two of its calls. -/
inductive AbortCall
  | idle
  | found (i : SeqId)
  | removed (i : SeqId)
  | missed (i : SeqId)
  deriving DecidableEq, Repr

inductive Ending
  | aborted
  | failed (e : Exc)
  | finished (result : GenerateResult)

def Ending.mark (how : Ending) (seq : Sequence P L) : Sequence P L :=
  match how with
  | .aborted => { seq with status := .aborted }
  | .failed e => { seq with error := some e, status := .error }
  | .finished result => { seq with result := some result, status := .finished }

/-- The shared state, the threads, and the admitted sequences that have not ended. -/
structure Race (P L : Type) where
  system : System P L
  admission : Admission := .idle
  calls : ℕ → AbortCall := fun _ => .idle
  held : List SeqId := []

namespace Scheduler

def candidates (s : Scheduler P L) : List SeqId :=
  match s.policy with
  | .fcfs => s.queue.peekOne.toList
  | .memoryFit => s.queue.waiting

/-- The queue after the call that is to take `i` out of it. -/
def takeOut (s : Scheduler P L) (i : SeqId) : RequestQueue :=
  match s.policy with
  | .fcfs => s.queue.popOne.2
  | .memoryFit => (s.queue.remove i).2

end Scheduler

inductive RaceEvent
  | submit (i : SeqId) (prompt : List Token) (sampling : SamplingParams)
  | setRunning (running : List SeqId)
  | workerEnds (i : SeqId) (how : Ending)
  | start (room : ℕ)
  | admission (now : ℕ)
  | find (h : ℕ) (i : SeqId)
  | remove (h : ℕ)
  | settle (h : ℕ)

namespace Race
variable (s : Race P L)

/-- The next call of `_admit_fcfs` or `_admit_memory_fit`. -/
def admissionCall (now : ℕ) : Option (Race P L) :=
  let sch := s.system.scheduler
  match s.admission with
  | .idle => none
  | .top 0 => some { s with admission := .idle }
  | .top (room+1) => some { s with admission := .check room sch.candidates }
  | .check _ [] => some { s with admission := .idle }
  | .check room (i :: rest) =>
    some { s with admission := if sch.fits (s.system.heap i) then .take room i else .check room rest }
  | .take room i => some { s with system := s.system.setQueue (sch.takeOut i), admission := .allocate room i }
  | .allocate room i =>
    let (ok,sch,seq) := sch.tryAllocate i (s.system.heap i) now
    let system := { s.system with scheduler := sch, heap := update s.system.heap i seq }
    if ok then some { s with system := system, admission := .top room, held := s.held ++ [i] }
    else some { s with system := system, admission := .putBack i }
  | .putBack i => some { s with system := s.system.setQueue (sch.queue.pushFront i), admission := .idle }

def removeCall (h : ℕ) : Option (Race P L) :=
  match s.calls h with
  | .found i =>
    let (found,queue) := s.system.scheduler.queue.remove i
    some { s with system := s.system.setQueue queue,
                  calls := update s.calls h (if found then .removed i else .missed i) }
  | _ => none

/-- `_abort_one` or `request_abort`. -/
def settleCall (h : ℕ) : Option (Race P L) :=
  match s.calls h with
  | .removed i => some { s with system := s.system.abortOne i, calls := update s.calls h .idle }
  | .missed i => some { s with system := s.system.requestAbort i, calls := update s.calls h .idle }
  | _ => none

/-- The worker and the requests of clients share the thread of `admit`. -/
def exec : RaceEvent → Race P L → Option (Race P L)
  | .submit i prompt sampling, s =>
    if s.admission = .idle ∧ i ∉ s.system.accepted then
      some { s with system := s.system.submit i prompt sampling }
    else none
  | .setRunning running, s =>
    if s.admission = .idle then some { s with system := s.system.setRunning running } else none
  | .workerEnds i how, s =>
    if s.admission = .idle ∧ i ∈ s.held then
      some { s with system := s.system.terminate i how.mark, held := s.held.erase i }
    else none
  | .start room, s => if s.admission = .idle then some { s with admission := .top room } else none
  | .admission now, s => s.admissionCall now
  | .find h i, s =>
    if s.calls h = .idle ∧ (i ∈ s.system.waiting ∨ i ∈ s.system.stats.running) then
      some { s with calls := update s.calls h (.found i) }
    else none
  | .remove h, s => s.removeCall h
  | .settle h, s => s.settleCall h

def Step (ev : RaceEvent) (s t : Race P L) : Prop := exec ev s = some t

/-- The queue call of `admit` takes the sequence that it has decided on. -/
def takesIts (ev : RaceEvent) (s : Race P L) : Bool :=
  match ev, s.admission with
  | .admission _, .take _ i =>
    match s.system.scheduler.policy with
    | .fcfs => decide (s.system.scheduler.queue.peekOne = some i)
    | .memoryFit => decide (i ∈ s.system.waiting)
  | _, _ => true

abbrev StepIf (cond : RaceEvent → Race P L → Bool) : RaceEvent → Race P L → Race P L → Prop :=
  guarded (fun ev s => cond ev s = true) Step

def execAll (cond : RaceEvent → Race P L → Bool) : List RaceEvent → Race P L → Option (Race P L) :=
  playAll (fun ev s => if cond ev s then exec ev s else none)

end Race

end FluxEngine
