import FluxEngine.Serving.Walk

/-! # The labels of a worker's code

Which calls stand in which worker, and how many rows a batch gets.
-/
namespace FluxEngine
open Interleaving
variable {P L : Type}

/-- A label of a worker's code. -/
def Label.Of (mode : ServeEngine) : Label → Prop
  | .call site _ => site.mode = mode
  | _ => True

/-- Every label but the calls of other workers and the calls for a batch. -/
structure Permits (mode : ServeEngine) (A : Label → Prop) : Prop where
  tau : A .tau
  contain : ∀ ids, A (.contain ids)
  call : ∀ site ids, site.mode = mode → site ≠ .batchModel → A (.call site ids)

/-- A batch has at most `b` rows. -/
def Label.Rows (b : ℕ) : Label → Prop
  | .call .batchModel live => live.length ≤ b
  | _ => True

theorem permits_of (mode : ServeEngine) : Permits mode (Label.Of mode) := ⟨trivial,fun _ => trivial,fun _ _ h _ => h⟩

theorem permits_rows (b : ℕ) : Permits .continuous (Label.Rows b) := by
  refine ⟨trivial,fun _ => trivial,?_⟩
  intro site ids _ hsite
  cases site with
  | batchModel => exact absurd rfl hsite
  | _ => trivial

namespace Worker
variable {A : Label → Prop} {site : Site} {i : SeqId}

theorem emits_call {α : Type} {ids : List SeqId} {value : Answer → System P L → Except Exc α}
    {save : α → System P L → System P L} (h : A (.call site ids)) : (call site ids value save).Emits A := by
  refine ⟨h,?_⟩
  intro w s
  cases hout : w.outcome (value w s) with
  | error e =>
    simp only [hout]
    exact Prog.emits_raise e
  | ok a =>
    simp only [hout]
    exact Prog.emits_pure a

end Worker

open Worker in
theorem Permits.walk {mode : ServeEngine} (hA : Permits mode A) :
    WholeWalk (P := P) (L := L) (fun site ids => A (.call site ids)) (fun _ => True) (fun p => p.Emits A) where
  pure := Prog.emits_pure
  raise := Prog.emits_raise
  bind hp hr hf := hp.bind_of_returns hr hf
  tryCatch hp hh := hp.tryCatch hh
  look _ := Prog.emits_read.mpr hA.tau
  call _ _ hok _ := emits_call hok
  guard _ hp hq := by
    refine Prog.Emits.bind (Prog.emits_read.mpr hA.tau) ?_
    intro aborting
    split
    · exact Prog.Emits.bind (Prog.emits_write.mpr hA.tau) (fun _ => hp)
    · exact hq
  setStatus _ _ := Prog.emits_write.mpr hA.tau
  contain _ _ := Prog.emits_write.mpr (hA.contain _)
  recordToken _ _ _ _ := Prog.emits_write.mpr hA.tau
  bindPrefix _ := Prog.emits_write.mpr hA.tau
  storePrefix _ := Prog.emits_write.mpr hA.tau
  finish _ _ := Prog.emits_write.mpr hA.tau
  batchSize _ := Prog.emits_write.mpr hA.tau
  await _ := Prog.emits_await.mpr hA.tau
  setRunning _ := Prog.emits_write.mpr hA.tau
  admitRequests _ := ⟨hA.tau,fun _ _ => trivial⟩
  turn _ := Prog.emits_write.mpr hA.tau

end FluxEngine
