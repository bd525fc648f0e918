import FluxEngine.Lib.Json
import FluxEngine.Lib.Split
import FluxEngine.Lib.Utf8
import FluxEngine.Engine.Sequence

/-! # The dashboard's reader of an event stream

`undefined` is `none`, and `JSON.parse` is a parameter, `none` where it throws.
-/
namespace FluxEngine

/-- `new TextDecoder()`, fed with `stream: true`: the bytes of an unfinished
character, and whether the first character has passed, which may be a byte order mark. -/
structure TextDecoder where
  pending : List UInt8 := []
  bomSeen : Bool := false
  deriving DecidableEq, Repr

def TextDecoder.decode (decoder : TextDecoder) (value : List UInt8) : Text × TextDecoder :=
  let (text,pending) := utf8.scan replacementChar decoder.pending value
  if decoder.bomSeen then (text,⟨pending,true⟩)
  else
    match text with
    | [] => ([],⟨pending,false⟩)
    | c :: rest => (if c = '\uFEFF' then rest else c :: rest,⟨pending,true⟩)

def whiteSpace : List Char :=
  ['\t','\n','\x0b','\x0c','\r',' ','\u00a0','\u1680','\u2000','\u2001','\u2002','\u2003','\u2004','\u2005',
    '\u2006','\u2007','\u2008','\u2009','\u200a','\u2028','\u2029','\u202f','\u205f','\u3000','\ufeff']

def trim (text : Text) : Text :=
  ((text.dropWhile (· ∈ whiteSpace)).reverse.dropWhile (· ∈ whiteSpace)).reverse

namespace Json

def truthy : Json → Bool
  | .null => false
  | .bool value => value
  | .number value => value.nonzero
  | .string text => !text.isEmpty
  | .array _ => true
  | .object _ => true

/-- A named property; only objects have those that the reader asks for. -/
def get (key : String) : Json → Option Json
  | .object fields => fields.lookup key
  | _ => none

def first : Json → Option Json
  | .array items => items.head?
  | .object fields => fields.lookup "0"
  | .string text => text.head?.map (fun c => .string [c])
  | _ => none

def orElse (value : Option Json) (other : Json) : Json := (value.filter truthy).getD other

def asString : Option Json → Option Text
  | some (.string text) => some text
  | _ => none

end Json

inductive Callback
  | onId (id : Text)
  | onDelta (text : Text)
  | onUsage (tokens : Json)
  | onFlux (info : Json)

def doneMark : Text := ['d','o','n','e']

variable (parse : Text → Option Json)

def parseSseBlock (block : Text) : Json :=
  match ((split ['\n'] block).map trim).find? (fun row => ['d','a','t','a',':'].isPrefixOf row) with
  | none => .null
  | some line =>
    let payload := trim (line.drop 5)
    if payload = ['[','D','O','N','E',']'] then .string doneMark
    else (parse payload).getD .null

/-- `!event || event === "done"`. -/
def skipped (event : Json) : Bool := !event.truthy || Json.asString (some event) == some doneMark

def deltaText (event : Json) : Text :=
  let choices := Json.orElse (event.get "choices") (.array [])
  let delta := Json.orElse (choices.first.bind (Json.get "delta")) (.object [])
  (Json.asString (delta.get "content")).getD []

/-- The calls made for an event, all callbacks being given. -/
def callbacks (event : Json) : List Callback :=
  let content := deltaText event
  let usage := (event.get "usage").bind (Json.get "completion_tokens")
  ((Json.asString (event.get "id")).map .onId).toList ++
    (if content = [] then [] else [.onDelta content]) ++
    (match usage with
      | none | some .null => []
      | some tokens => [.onUsage tokens]) ++
    (((event.get "flux").filter Json.truthy).map .onFlux).toList

/-- The reader between two reads, with the events it has gone on with and its calls. -/
structure Reader where
  decoder : TextDecoder := {}
  buffer : Text := []
  events : List Json := []
  calls : List Callback := []

/-- One round of the inner loop. -/
def Reader.dispatch (reader : Reader) (part : Text) : Reader :=
  let event := parseSseBlock parse part
  if skipped event then reader
  else { reader with events := reader.events ++ [event], calls := reader.calls ++ callbacks event }

/-- One round of the outer loop. -/
def Reader.read (reader : Reader) (value : List UInt8) : Reader :=
  let (text,decoder) := reader.decoder.decode value
  let parts := split ['\n','\n'] (reader.buffer ++ text)
  parts.dropLast.foldl (Reader.dispatch parse) { reader with decoder := decoder, buffer := parts.getLast?.getD [] }

/-- The values read up to the end of the body, if there is one. -/
def readChatStream : Option (List (List UInt8)) → Except String Reader
  | none => .error "no response body"
  | some values => .ok (values.foldl (Reader.read parse) {})

end FluxEngine
