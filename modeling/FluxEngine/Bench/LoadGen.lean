import Mathlib.Data.Rat.Defs
import FluxEngine.Lib.OrderedDict
import FluxEngine.Lib.WorkSharing
import FluxEngine.Server.Routes

/-! # The load generator

`run_load` starts its workers on a list of prompts and gathers a record for each of
them, in the order in which they were answered.  Times are rationals.
-/
namespace FluxEngine
open Transition WorkSharing
open scoped List

structure RequestRecord where
  httpStatus : ℕ
  e2eMs : ℚ
  ttftMs : Option ℚ
  engineTtftMs : Option ℚ
  tpotMs : Option ℚ
  promptTokens : ℕ
  outputTokens : ℕ
  error : Text := []
  deriving DecidableEq

structure LoadResult where
  scenario : String
  engine : String
  concurrency : ℕ
  warmup : ℕ
  records : List RequestRecord := []
  wallS : ℚ := 0
  statuses : OrderedDict String ℕ := .empty

def LoadResult.measured (result : LoadResult) : List RequestRecord :=
  (result.records.drop result.warmup).filter (fun row => row.httpStatus = 200)

/-- The arguments of `run_load`; its callers give as many lengths as prompts. -/
structure LoadArgs where
  prompts : List Text
  maxTokens : List ℕ
  sizes : maxTokens.length = prompts.length
  concurrency : ℕ
  stream : Bool := true
  warmup : ℕ := 0
  engine : String := ""
  scenario : String := ""

/-- The JSON of a request, whose temperature is 0. -/
structure CompletionBody where
  model : String
  prompt : Text
  maxTokens : ℕ
  stream : Bool
  deriving DecidableEq, Repr

/-- The workers of a load, and the records with the prompts they are for; only the
records themselves are part of the source. -/
abbrev Load := Crew RequestRecord

def Load.records (s : Load) : List RequestRecord := s.results.map Prod.snd

def countStatus (statuses : OrderedDict String ℕ) (rec : RequestRecord) : OrderedDict String ℕ :=
  let key := toString rec.httpStatus
  statuses.set key ((statuses.get? key).getD 0 + 1)

namespace LoadArgs
variable (args : LoadArgs)

def n : ℕ := args.prompts.length

def workers : ℕ := max 1 args.concurrency

def start : Load := Crew.start args.workers

/-- What a worker sends for the index it has taken. -/
def body (idx : ℕ) (h : idx < args.n) : CompletionBody where
  model := servedModelId
  prompt := args.prompts.get ⟨idx,h⟩
  maxTokens := args.maxTokens.get ⟨idx,args.sizes ▸ h⟩
  stream := args.stream

def Step (ev : WorkSharing.Event RequestRecord) (s t : Load) : Prop := Crew.Step args.n ev s t

/-- What `run_load` makes of the records that its workers have left. -/
def result (s : Load) (wall : ℚ) : LoadResult where
  scenario := args.scenario
  engine := args.engine
  concurrency := args.concurrency
  warmup := min args.warmup s.records.length
  records := s.records
  wallS := wall
  statuses := s.records.foldl countStatus .empty

end LoadArgs

theorem toString_inj {m n : ℕ} : toString m = toString n ↔ m = n := by
  refine ⟨?_,congrArg toString⟩
  intro h
  have hdigits : Nat.toDigits 10 m = Nat.toDigits 10 n := by
    rw [← Nat.toList_repr,← Nat.toList_repr]
    exact congrArg String.toList h
  have hread := congrArg (fun text => Nat.ofDigitChars 10 text 0) hdigits
  simpa only [Nat.ofDigitChars_ten_toDigits] using hread

theorem countStatus_get (statuses : OrderedDict String ℕ) (rec : RequestRecord) (key : String) :
    ((countStatus statuses rec).get? key).getD 0 =
      (statuses.get? key).getD 0 + if toString rec.httpStatus = key then 1 else 0 := by
  unfold countStatus
  generalize toString rec.httpStatus = counted
  simp only [OrderedDict.get?_set]
  by_cases hkey : key = counted
  · rw [if_pos hkey,if_pos hkey.symm,hkey,Option.getD_some]
  · rw [if_neg hkey,if_neg (Ne.symm hkey),Nat.add_zero]

theorem foldl_countStatus_get (records : List RequestRecord) (statuses : OrderedDict String ℕ) (key : String) :
    ((records.foldl countStatus statuses).get? key).getD 0 =
      (statuses.get? key).getD 0 + records.countP (fun rec => toString rec.httpStatus = key) := by
  induction records generalizing statuses with
  | nil => rfl
  | cons rec records ih =>
    rw [List.foldl_cons,ih,countStatus_get,List.countP_cons]
    simp only [decide_eq_true_eq]
    omega

theorem foldl_countStatus_sum (records : List RequestRecord) (statuses : OrderedDict String ℕ) :
    (records.foldl countStatus statuses).values.sum = statuses.values.sum + records.length := by
  induction records generalizing statuses with
  | nil => rfl
  | cons rec records ih =>
    have hone : (countStatus statuses rec).values.sum = statuses.values.sum + 1 := by
      unfold countStatus
      generalize toString rec.httpStatus = key
      cases hget : statuses.get? key with
      | none =>
        simp only [hget,Option.getD_none]
        exact OrderedDict.weight_set_of_none (fun _ c => c) statuses 1 hget
      | some c =>
        have hset : (statuses.set key (c + 1)).values.sum + c = statuses.values.sum + (c + 1) :=
          OrderedDict.weight_set_of_some (fun _ c => c) statuses (c + 1) hget
        simp only [hget,Option.getD_some]
        omega
    rw [List.foldl_cons,ih,hone,List.length_cons]
    omega

namespace LoadArgs
variable {args : LoadArgs} {s : Load} {evs : List (WorkSharing.Event RequestRecord)}

theorem workers_pos (args : LoadArgs) : 0 < args.workers := Nat.lt_of_lt_of_le Nat.one_pos (le_max_left 1 _)

theorem shared (h : Run args.Step args.start evs s) : s.Shared args.n args.workers := Crew.Shared.run h

theorem length_records (s : Load) : s.records.length = s.finished.length := by
  simp [Load.records,Crew.finished]

theorem result_status (args : LoadArgs) (s : Load) (wall : ℚ) (status : ℕ) :
    ((args.result s wall).statuses.get? (toString status)).getD 0 =
      s.records.countP (fun rec => rec.httpStatus = status) := by
  simp only [result,foldl_countStatus_get,OrderedDict.get?_empty,Option.getD_none,Nat.zero_add,toString_inj]

theorem past_warmup (h : s.Shared args.n args.workers) {idx : ℕ} (hidx : idx ∈ s.finished)
    (hfar : args.warmup + args.workers ≤ idx + 1) : idx ∈ s.finished.drop args.warmup := by
  obtain ⟨j,hj⟩ := List.mem_iff_getElem?.mp hidx
  have hearly := h.early j idx hj
  apply List.mem_of_getElem? (i := j - args.warmup)
  rw [List.getElem?_drop,Nat.add_sub_cancel' (by omega)]
  exact hj

end LoadArgs

/-- However the workers of `run_load` are interleaved with the answers: the prompts that
have been sent are the first ones, each once, and no more than `max(1, concurrency)` of
them are out; a prompt overtakes no more others than there are other workers; and the
run ends, after two steps for every prompt and one for every worker.  At the end every
prompt has one record, the statuses count them all, and no prompt that comes later than
the warm-up by the number of workers is dropped with it. -/
theorem run_load_covers {args : LoadArgs} {s : Load} {evs : List (WorkSharing.Event RequestRecord)}
    (h : Run args.Step args.start evs s) (wall : ℚ) :
    (s.tasks ++ s.finished ~ List.range (min s.next args.n) ∧ s.tasks.length ≤ args.workers) ∧
    (∀ j idx, s.finished[j]? = some idx → idx < j + args.workers) ∧
    (evs.length ≤ 2 * args.n + args.workers ∧ (evs.length = 2 * args.n + args.workers ↔ s.Over)) ∧
    (∀ status, ((args.result s wall).statuses.get? (toString status)).getD 0 =
      s.records.countP (fun rec => rec.httpStatus = status)) ∧
    (s.Over → s.finished ~ List.range args.n ∧ (args.result s wall).records.length = args.n ∧
      (args.result s wall).statuses.values.sum = args.n ∧
      (args.result s wall).warmup = min args.warmup args.n ∧
      ∀ idx, idx < args.n → args.warmup + args.workers ≤ idx + 1 → idx ∈ s.finished.drop (args.result s wall).warmup) := by
  have hshared := LoadArgs.shared h
  have hlength : evs.length + s.left args.n = 2 * args.n + args.workers := Crew.run_length h
  have hleft := hshared.left_eq_zero_iff args.workers_pos
  refine ⟨⟨hshared.taken,hshared.tasks_le⟩,hshared.early,⟨by omega,?_⟩,args.result_status s wall,?_⟩
  · rw [← hleft]
    omega
  · intro hover
    have hperm := hshared.finished_perm args.workers_pos hover
    have hrecords : s.records.length = args.n := by
      rw [LoadArgs.length_records,hperm.length_eq,List.length_range]
    refine ⟨hperm,hrecords,?_,?_,?_⟩
    · have hsum := foldl_countStatus_sum s.records .empty
      rw [hrecords] at hsum
      exact hsum.trans (Nat.zero_add _)
    · rw [← hrecords]
      rfl
    · intro idx hidx hfar
      have hpast := LoadArgs.past_warmup hshared (hperm.mem_iff.mpr (List.mem_range.mpr hidx)) hfar
      have hwarmup : (args.result s wall).warmup = args.warmup := Nat.min_eq_left (by rw [hrecords]; omega)
      rwa [hwarmup]

/-- Three prompts, two workers, and a record that is not measured. -/
def threePrompts : LoadArgs := ⟨[['a'],['b'],['c']],[4,4,4],rfl,2,true,1,"continuous","adhoc"⟩

def okRecord : RequestRecord := ⟨200,1,none,none,none,1,4,[]⟩

def overtaken : List (WorkSharing.Event RequestRecord) :=
  [.take 0,.take 1,.finish 1 okRecord,.take 1,.finish 1 okRecord,.take 1,.finish 0 okRecord,.take 0]

theorem run_load_covers_three : ∃ s : Load, Run threePrompts.Step threePrompts.start overtaken s ∧
    s.finished = [1,2,0] ∧ s.Over ∧ (threePrompts.result s 3).measured = [okRecord,okRecord] ∧
      (threePrompts.result s 3).statuses.values.sum = 3 := by
  have hobs : (playAll (fun ev s => Crew.exec 3 s ev) overtaken threePrompts.start).map
      (fun s => (s.finished,decide s.Over,(threePrompts.result s 3).measured)) =
      some ([1,2,0],true,[okRecord,okRecord]) := by decide
  obtain ⟨s,hs,hobs⟩ := Option.map_eq_some_iff.mp hobs
  simp only [Prod.mk.injEq,decide_eq_true_eq] at hobs
  obtain ⟨hfinished,hover,hmeasured⟩ := hobs
  have hrun : Run threePrompts.Step threePrompts.start overtaken s := playAll_run (fun _ _ _ _ hst => hst) hs
  exact ⟨s,hrun,hfinished,hover,hmeasured,((run_load_covers hrun 3).2.2.2.2 hover).2.2.1⟩

end FluxEngine
