import FluxEngine.Engine.Sequence

/-! # Tokenizer wrapper: stop ids and incremental decoding -/
namespace FluxEngine

/-- What the wrapper uses of a tokenizer: `decode` with special tokens skipped,
the flattened `eos_token_id`, and `convert_tokens_to_ids`, whose failures and
`None` both count as no id. -/
structure Tokenizer where
  decode : List Token → Text
  eosTokenId : List ℤ
  unkTokenId : Option ℤ
  convertTokensToIds : Option (String → Option ℤ)

def pushStopId (found : List Token) (tokenId : ℤ) : List Token :=
  if tokenId < 0 then found
  else if tokenId.toNat ∈ found then found
  else found ++ [tokenId.toNat]

def pushPiece (tok : Tokenizer) (convert : String → Option ℤ) (found : List Token) (piece : String) :
    List Token :=
  match convert piece with
  | none => found
  | some tokenId => if tok.unkTokenId = some tokenId then found else pushStopId found tokenId

def stopTokenIds (tok : Tokenizer) : List Token :=
  let found := tok.eosTokenId.foldl pushStopId []
  match tok.convertTokensToIds with
  | none => found
  | some convert => ["<|im_end|>","<|endoftext|>"].foldl (pushPiece tok convert) found

def combinedStopIds (tok : Tokenizer) (paramsStop : List Token) (ignoreEos : Bool) : List Token :=
  if ignoreEos then paramsStop else paramsStop ++ stopTokenIds tok

/-- The full text so far and its new suffix. -/
def decodeDelta (decode : List Token → Text) (allIds : List Token) (prevText : Text) : Text × Text :=
  let text := decode allIds
  if prevText.isPrefixOf text then (text,text.drop prevText.length)
  else if allIds = [] then (prevText,[])
  else
    let piece := decode (allIds.drop (allIds.length - 1))
    (prevText ++ piece,piece)

end FluxEngine
