import Mathlib.Data.List.Basic

/-! # Key/value caches and their helpers

A cache tensor `[batch, heads, seq, head_dim]` is kept as its rows of
positions: `P` is what one row holds at one position, for all heads.  The two
representations of a cache, a plain list of (K, V) pairs and a `DynamicCache`,
stay apart.
-/
namespace FluxEngine

/-- `[batch, heads, seq, head_dim]` as batch rows of positions. -/
abbrev Tensor (P : Type) := List (List P)

abbrev Layers (P : Type) := List (Tensor P × Tensor P)

inductive KvCache (P : Type)
  | legacy (layers : Layers P)
  | dynamic (layers : Layers P)

variable {P : Type}

def iterKv : KvCache P → Layers P
  | .legacy layers => layers
  | .dynamic layers => layers

/-- `tensor.shape[-2]`. -/
def seqDim (t : Tensor P) : ℕ := (t.headD []).length

def cacheSeqLen (cache : KvCache P) : ℕ :=
  match iterKv cache with
  | [] => 0
  | layer :: _ => seqDim layer.1

/-- `tensor[..., :n, :]`. -/
def takePositions (n : ℕ) (t : Tensor P) : Tensor P := t.map (List.take n)

def sliceCache (cache : KvCache P) (nTokens : ℕ) : KvCache P :=
  .legacy ((iterKv cache).map (fun layer => (takePositions nTokens layer.1,takePositions nTokens layer.2)))

def cloneCache (cache : KvCache P) : KvCache P := sliceCache cache (cacheSeqLen cache)

def wrapPast (layers : Layers P) (huggingface : Bool) : KvCache P :=
  if huggingface then .dynamic layers else .legacy layers

@[simp] theorem iterKv_wrapPast (layers : Layers P) (huggingface : Bool) :
    iterKv (wrapPast layers huggingface) = layers := by
  cases huggingface <;> rfl

@[simp] theorem iterKv_sliceCache (cache : KvCache P) (n : ℕ) :
    iterKv (sliceCache cache n) =
      (iterKv cache).map (fun layer => (takePositions n layer.1,takePositions n layer.2)) := rfl

end FluxEngine
