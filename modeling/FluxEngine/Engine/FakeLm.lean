import FluxEngine.Engine.CachedEngine

/-! # The deterministic stand-in for a language model

The next token is the last id plus one.  Its logits have one peak, and are
kept as the position of the peak; its caches hold zeros.
-/
namespace FluxEngine

structure FakeLm where
  vocabSize : ℕ := 32
  nLayers : ℕ := 2

namespace FakeLm

def nextId (lm : FakeLm) (last : Token) : Token :=
  let next := if lm.vocabSize ≤ last + 1 then 1 else last + 1
  if next = 0 then 1 else next

def extend (batch seq : ℕ) (past : Tensor ℕ) : Tensor ℕ :=
  (List.range batch).map (fun row => past.getD row [] ++ List.replicate seq 0)

def forward (lm : FakeLm) : Model ℕ Token := fun call =>
  let batch := call.inputIds.length
  let seq := (call.inputIds.headD []).length
  let past (layer : ℕ) : Tensor ℕ × Tensor ℕ :=
    match call.pastKeyValues with
    | none => ([],[])
    | some cache => (iterKv cache).getD layer ([],[])
  { logits := call.inputIds.map (fun row =>
      if row = [] then [] else List.replicate (row.length - 1) 0 ++ [lm.nextId (row.getLastD 0)])
    pastKeyValues := .legacy ((List.range lm.nLayers).map (fun layer =>
      (extend batch seq (past layer).1,extend batch seq (past layer).2))) }

end FakeLm

def FakeTokenizer : Tokenizer where
  decode ids := (ids.filter (fun t => t ≠ 0)).map (fun t => Char.ofNat ('a'.toNat + t % 26))
  eosTokenId := [0]
  unkTokenId := none
  convertTokensToIds := some (fun piece =>
    if piece = "<|im_end|>" ∨ piece = "<|endoftext|>" then some 0 else some (-1))

def FakeTokenizer.encode (text : Text) : List Token :=
  if text = [] then [1] else (1 :: text.map (fun c => c.toNat % 30 + 1)).take 48

/-- An engine on the stand-in; the peak of the logits is sampled. -/
def FakeLm.engine (lm : FakeLm) : CachedEngine ℕ Token where
  model := lm.forward
  tokenizer := FakeTokenizer
  huggingface := false
  argmax := id
  multinomial logits _ _ := logits

end FluxEngine
