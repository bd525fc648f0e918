import FluxEngine.Server.Admin

/-! # Job records

Redis is a second store whose calls may fail and whose entries may expire; the
time of the last update is left out, nobody reads it.
-/
namespace FluxEngine

def SequenceStatus.value : SequenceStatus → String
  | .waiting => "waiting"
  | .prefill => "prefill"
  | .decoding => "decoding"
  | .finished => "finished"
  | .aborted => "aborted"
  | .error => "error"

/-- The id of a sequence, or that of a response with the prefix of its endpoint. -/
inductive JobId
  | seq (id : SeqId)
  | response (endpoint : Endpoint) (id : ℕ)
  deriving DecidableEq, Repr

/-- A payload of `put_job`: the id, the status, and what `extra` adds. -/
structure Job where
  id : JobId
  status : String
  seqId : Option SeqId := none
  reason : Option FinishReason := none
  engine : Option String := none
  deriving DecidableEq, Repr

structure ControlPlane where
  enabled : Bool := false
  jobs : JobId → Option Job := fun _ => none
  redis : JobId → Option Job := fun _ => none

namespace ControlPlane

/-- `up` tells whether the call of Redis succeeds. -/
def putJob (plane : ControlPlane) (up : Bool) (job : Job) : ControlPlane :=
  { plane with
    jobs := Function.update plane.jobs job.id (some job)
    redis := if plane.enabled && up then Function.update plane.redis job.id (some job) else plane.redis }

def getJob (plane : ControlPlane) (up : Bool) (id : JobId) : Option Job :=
  if plane.enabled && up then
    match plane.redis id with
    | some job => some job
    | none => plane.jobs id
  else plane.jobs id

def expire (plane : ControlPlane) (id : JobId) : ControlPlane :=
  { plane with redis := Function.update plane.redis id none }

def close (plane : ControlPlane) : ControlPlane := { plane with enabled := false }

end ControlPlane

/-- `_remember_job`. -/
def rememberJob (control : Option ControlPlane) (up : Bool) (job : Job) : Option ControlPlane :=
  control.map (fun plane => plane.putJob up job)

/-- The answer of `GET /v1/requests/{id}`: a record, or the sequence itself. -/
inductive RequestView
  | record (job : Job)
  | live (id : SeqId) (status : SequenceStatus) (outputTokens : ℕ)
  deriving DecidableEq, Repr

def RequestView.status : RequestView → String
  | .record job => job.status
  | .live _ status _ => status.value

variable {P L : Type}

/-- `_find_sequence` compares with the ids of sequences. -/
def System.findJob (s : System P L) : JobId → Option SeqId
  | .seq i => s.findSequence i
  | .response _ _ => none

def getRequest (control : Option ControlPlane) (up : Bool) (s : System P L) (id : JobId) :
    Except HttpException RequestView :=
  match control with
  | none => .error ⟨404,"unknown request"⟩
  | some plane =>
    match plane.getJob up id with
    | some job => .ok (.record job)
    | none =>
      match s.findJob id with
      | none => .error ⟨404,"unknown request"⟩
      | some i => .ok (.live i (s.heap i).status (s.heap i).outputIds.length)

def reportedStatus (control : Option ControlPlane) (up : Bool) (s : System P L) (id : JobId) : Option String :=
  (getRequest control up s id).toOption.map RequestView.status

namespace ControlPlane
variable {plane : ControlPlane} {up : Bool} {id : JobId} {job other : Job}

/-- Both stores have this under the id, Redis if it has anything. -/
structure Holds (plane : ControlPlane) (id : JobId) (stored : Option Job) : Prop where
  jobs : plane.jobs id = stored
  redis : ∀ job, plane.redis id = some job → stored = some job

theorem Holds.getJob (h : plane.Holds id (some job)) (up : Bool) : plane.getJob up id = some job := by
  unfold ControlPlane.getJob
  split
  · cases hredis : plane.redis id with
    | none => exact h.jobs
    | some found => exact (h.redis found hredis).symm
  · exact h.jobs

theorem getJob_of_disabled (h : plane.enabled = false) (up : Bool) (id : JobId) : plane.getJob up id = plane.jobs id := by
  simp [ControlPlane.getJob,h]

theorem putJob_redis (plane : ControlPlane) (up : Bool) (job : Job) :
    (plane.putJob up job).redis = Function.update plane.redis job.id (some job) ∨
      (plane.putJob up job).redis = plane.redis := by
  simp only [putJob]
  split
  · exact Or.inl rfl
  · exact Or.inr rfl

theorem putJob_jobs_self (plane : ControlPlane) (up : Bool) (job : Job) : (plane.putJob up job).jobs job.id = some job := by
  simp [putJob]

theorem putJob_jobs_of_ne (up : Bool) (hne : id ≠ job.id) : (plane.putJob up job).jobs id = plane.jobs id := by
  simp [putJob,Function.update_of_ne hne]

theorem Holds.putJob_of_ne {stored : Option Job} (h : plane.Holds id stored) (hne : id ≠ job.id) :
    (plane.putJob up job).Holds id stored := by
  refine ⟨?_,?_⟩
  · exact (putJob_jobs_of_ne up hne).trans h.jobs
  · intro found hfound
    rcases plane.putJob_redis up job with heq | heq
    · rw [heq,Function.update_of_ne hne] at hfound
      exact h.redis found hfound
    · rw [heq] at hfound
      exact h.redis found hfound

theorem Holds.putJob_first (h : plane.Holds job.id none) : (plane.putJob up job).Holds job.id (some job) := by
  refine ⟨?_,?_⟩
  · exact plane.putJob_jobs_self up job
  · intro found hfound
    rcases plane.putJob_redis up job with heq | heq
    · rw [heq,Function.update_self] at hfound
      exact hfound
    · rw [heq] at hfound
      exact absurd (h.redis found hfound) (by simp)

theorem Holds.expire {stored : Option Job} (h : plane.Holds id stored) (gone : JobId) : (plane.expire gone).Holds id stored := by
  refine ⟨h.jobs,?_⟩
  intro found hfound
  by_cases hid : id = gone
  · simp [ControlPlane.expire,hid] at hfound
  · have hkept : (plane.expire gone).redis id = plane.redis id := Function.update_of_ne hid _ _
    exact h.redis found (hkept.symm.trans hfound)

theorem Holds.close {stored : Option Job} (h : plane.Holds id stored) : plane.close.Holds id stored := ⟨h.jobs,h.redis⟩

theorem Holds.reported (h : plane.Holds id (some job)) (up : Bool) (s : System P L) :
    reportedStatus (some plane) up s id = some job.status := by
  simp [reportedStatus,getRequest,h.getJob up,RequestView.status,Except.toOption]

theorem reported_response (h : plane.enabled = false) (up : Bool) (s : System P L) (endpoint : Endpoint) (n : ℕ) :
    reportedStatus (some plane) up s (.response endpoint n) = (plane.jobs (.response endpoint n)).map Job.status := by
  simp only [reportedStatus,getRequest,getJob_of_disabled h,System.findJob]
  cases plane.jobs (.response endpoint n) with
  | none => rfl
  | some job => rfl

end ControlPlane
end FluxEngine
