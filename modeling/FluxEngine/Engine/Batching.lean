import FluxEngine.Engine.Sequence

/-! # Padding per-sequence caches into one decode batch and splitting them back -/
namespace FluxEngine
variable {P : Type} [Inhabited P]

/-- Zeros of the common length, overwritten by the first `seqLen` positions. -/
def padRow (maxLen seqLen : ℕ) (row : List P) : List P :=
  row.take seqLen ++ List.replicate (maxLen - seqLen) default

def layerAt (layerIdx : ℕ) (cache : KvCache P) : Tensor P × Tensor P :=
  (iterKv cache).getD layerIdx ([],[])

def stackLayer (caches : List (KvCache P)) (maxLen layerIdx : ℕ) : Tensor P × Tensor P :=
  (caches.map (fun cache => padRow maxLen (cacheSeqLen cache) ((layerAt layerIdx cache).1.headD [])),
    caches.map (fun cache => padRow maxLen (cacheSeqLen cache) ((layerAt layerIdx cache).2.headD [])))

def stackCaches (caches : List (KvCache P)) : Except Exc (Layers P × List ℕ × ℕ) :=
  match caches with
  | [] => .error "stack_caches requires at least one cache"
  | first :: _ =>
    let lengths := caches.map cacheSeqLen
    let maxLen := lengths.foldl max 0
    .ok ((List.range (iterKv first).length).map (stackLayer caches maxLen),lengths,maxLen)

/-- Valid past tokens, the hole, and the new token at the common end. -/
def attentionMaskForDecode (lengths : List ℕ) (maxPast : ℕ) : List (List ℕ) :=
  lengths.map (fun seqLen => List.replicate seqLen 1 ++ List.replicate (maxPast - seqLen) 0 ++ [1])

/-- The original positions of one row and the newly appended one. -/
def extractRow (t : Tensor P) (row oldLen : ℕ) : Tensor P :=
  let newToken := seqDim t - 1
  let last := ((t.getD row []).drop newToken).take 1
  if oldLen = 0 then [last] else [(t.getD row []).take oldLen ++ last]

def extractRowCache (cache : KvCache P) (row oldLen : ℕ) : KvCache P :=
  .legacy ((iterKv cache).map (fun layer => (extractRow layer.1 row oldLen,extractRow layer.2 row oldLen)))

end FluxEngine
