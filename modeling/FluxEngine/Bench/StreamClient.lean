import FluxEngine.Lib.JsonReader
import FluxEngine.Lib.Split
import FluxEngine.Bench.LoadGen
import FluxEngine.Server.Deployment
import FluxEngine.Server.Payloads
import FluxEngine.Server.ResultStream
import FluxEngine.Server.Responses

/-! # What the load generator makes of a stream

`_one_stream` reads the lines of a response one by one.  A float is the decimal number
that is written for it; `httpx` is there as the lines that it gives and the exception
that it may end them with.
-/
namespace FluxEngine
open Transition

namespace Json

/-- `bool(value)`. -/
def isTrue : Json → Bool
  | .null => false
  | .bool value => value
  | .number value => value.nonzero || constants.contains value.text
  | .string text => !text.isEmpty
  | .array items => !items.isEmpty
  | .object fields => !fields.isEmpty

/-- `value or other`, a missing key being `None`. -/
def pyOr (value : Option Json) (other : Json) : Json := (value.filter isTrue).getD other

end Json

/-- What the body of the loop raises, or the client. -/
inductive Raised
  | attributeError
  | keyError
  | typeError
  | valueError
  | http (message : Text)
  deriving DecidableEq, Repr

namespace Json

/-- The dict whose `get` is called. -/
def asDict : Json → Except Raised (List (String × Json))
  | .object fields => .ok fields
  | _ => .error .attributeError

/-- `value[0]`, the value being true. -/
def item0 : Json → Except Raised Json
  | .array (item :: _) => .ok item
  | .string (c :: _) => .ok (.string [c])
  | .object _ => .error .keyError
  | _ => .error .typeError

/-- `value[key]` where `key in value`; text and lists have no such index. -/
def itemIn (key : String) : Json → Except Raised (Option Json)
  | .object fields => .ok (fields.lookup key)
  | .string text => if text.tails.any (fun tail => key.toList.isPrefixOf tail) then .error .typeError else .ok none
  | .array items =>
    if items.any (fun item => match item with
      | .string text => text = key.toList
      | _ => false) then .error .typeError else .ok none
  | _ => .error .typeError

/-- `float(value)`.  Text that spells a number, which no server sends, raises here too. -/
def float : Json → Except Raised ℚ
  | .number value => match value.value with
    | some x => .ok x
    | none => .error .valueError
  | .bool value => .ok (if value then 1 else 0)
  | .string _ => .error .valueError
  | _ => .error .typeError

/-- `int(value)`, which rounds to zero; text as in `float`. -/
def int : Json → Except Raised ℤ
  | .number value => match value.value with
    | some x => .ok (x.num.tdiv x.den)
    | none => .error .valueError
  | .bool value => .ok (if value then 1 else 0)
  | .string _ => .error .valueError
  | _ => .error .typeError

end Json

/-- `str.strip`. -/
def strip (text : Text) : Text := ((text.dropWhile isSpace).reverse.dropWhile isSpace).reverse

def parseSseLine (line : Text) : Option Json :=
  let line := strip line
  if ['d','a','t','a',':'].isPrefixOf line then
    let payload := strip (line.drop 5)
    if payload = doneText then some (.object [("done",.bool true)]) else Json.loads payload
  else none

/-- The variables of `_one_stream`. -/
structure StreamReading where
  httpTtft : Option ℚ := none
  engineTtft : Option ℚ := none
  tpot : Option ℚ := none
  promptTokens : ℤ := 0
  outputTokens : ℤ := 0
  textChunks : ℕ := 0

namespace StreamReading

def ask {α : Type} (s : StreamReading) (value : Except Raised α) : Except (Raised × StreamReading) α :=
  value.mapError (fun e => (e,s))

/-- `text`, and the lines about it; `ms` is what the clock shows. -/
def readText (ms : ℚ) (event : List (String × Json)) (s : StreamReading) :
    Except (Raised × StreamReading) StreamReading := do
  let choices := Json.pyOr (event.lookup "choices") (.array [.object []])
  let first ← s.ask choices.item0
  let choice ← s.ask (Json.pyOr (some first) (.object [])).asDict
  let text ← match (choice.lookup "text").filter Json.isTrue with
    | some text => pure text
    | none => do
      let delta ← s.ask ((choice.lookup "delta").getD (.object [])).asDict
      pure ((delta.lookup "content").getD .null)
  if text.isTrue then
    pure { s with httpTtft := s.httpTtft.or (some ms), textChunks := s.textChunks + 1 }
  else pure s

def readFlux (event : List (String × Json)) (s : StreamReading) :
    Except (Raised × StreamReading) StreamReading := do
  let flux := Json.pyOr (event.lookup "flux") (.object [])
  let ttft ← s.ask (flux.itemIn "ttft_ms")
  let s ← match ttft with
    | some value => do pure { s with engineTtft := some (← s.ask value.float) }
    | none => pure s
  let tpot ← s.ask (flux.itemIn "tpot_ms")
  match tpot with
    | some value => do pure { s with tpot := some (← s.ask value.float) }
    | none => pure s

def readUsage (event : List (String × Json)) (s : StreamReading) :
    Except (Raised × StreamReading) StreamReading := do
  let usage := Json.pyOr (event.lookup "usage") (.object [])
  if usage.isTrue then
    let usage ← s.ask usage.asDict
    let promptTokens ← s.ask (Json.pyOr (usage.lookup "prompt_tokens") (.number (.ofNat 0))).int
    let s := { s with promptTokens := promptTokens }
    let outputTokens ← s.ask (Json.pyOr (usage.lookup "completion_tokens") (.number (.ofNat 0))).int
    pure { s with outputTokens := outputTokens }
  else pure s

/-- One round of the loop. -/
def readLine (s : StreamReading) (line : Text × ℚ) : Except (Raised × StreamReading) StreamReading :=
  match parseSseLine line.1 with
  | none => .ok s
  | some event =>
    if event.isTrue then do
      let event ← s.ask event.asDict
      if (Json.pyOr (event.lookup "done") .null).isTrue then pure s
      else (← (← s.readText line.2 event).readFlux event).readUsage event
    else .ok s

end StreamReading

/-- A line with the milliseconds that have passed since the request when it is read. -/
abbrev TimedLines := List (Text × ℚ)

/-- The record of a response with this status, with the lines that came of it, how they
ended, and the milliseconds at the end.  A count below 0, which no server sends, would be
0 here. -/
def oneStream (str : Raised → Text) (status : ℕ) (lines : TimedLines) (failure : Option Raised) (e2e : ℚ) :
    RequestRecord :=
  let failed (e : Raised) (s : StreamReading) : RequestRecord :=
    { httpStatus := status, e2eMs := e2e, ttftMs := s.httpTtft, engineTtftMs := s.engineTtft, tpotMs := s.tpot,
      promptTokens := s.promptTokens.toNat, outputTokens := s.outputTokens.toNat, error := str e }
  match lines.foldlM StreamReading.readLine {}, failure with
  | .error (e,s), _ => failed e s
  | .ok s, some e => failed e s
  | .ok s, none =>
    let outputTokens : ℤ := if s.outputTokens ≤ 0 then s.textChunks else s.outputTokens
    { httpStatus := status, e2eMs := e2e, ttftMs := s.httpTtft, engineTtftMs := s.engineTtft,
      tpotMs := match s.tpot, s.httpTtft with
        | some tpot, _ => some tpot
        | none, some ttft => if 1 < outputTokens then some ((e2e - ttft) / (outputTokens - 1)) else none
        | none, none => none
      promptTokens := s.promptTokens.toNat, outputTokens := outputTokens.toNat }

theorem strip_enclosed {c d : Char} (hc : isSpace c = false) (hd : isSpace d = false) (text : Text) :
    strip (c :: (text ++ [d])) = c :: (text ++ [d]) := by
  simp [strip,hc,hd]

theorem strip_space (text : Text) : strip (' ' :: text) = strip text := by
  have hspace : isSpace ' ' = true := by decide
  simp [strip,hspace]

theorem parseSseLine_dict {payload : Dict} (h : (Json.object payload).Plain) :
    parseSseLine (sseText (.dict payload)) = some (.object payload) := by
  obtain ⟨text,htext⟩ : ∃ text, (Json.object payload).dumps = '{' :: (text ++ ['}']) := ⟨_,by rw [Json.dumps]; rfl⟩
  have hline : sseText (.dict payload) = 'd' :: (['a','t','a',':',' ','{'] ++ text ++ ['}']) := by
    simp only [sseText,dataLine,htext]
    simp
  have hstrip : strip (sseText (.dict payload)) = sseText (.dict payload) := by
    rw [hline]
    exact strip_enclosed (by decide) (by decide) _
  have hfound : ['d','a','t','a',':'].isPrefixOf (sseText (.dict payload)) = true := by
    rw [hline]
    rfl
  have hslice : strip ((sseText (.dict payload)).drop 5) = (Json.object payload).dumps := by
    have hdrop : (sseText (.dict payload)).drop 5 = ' ' :: '{' :: (text ++ ['}']) := by simp [hline]
    rw [hdrop,strip_space,htext]
    exact strip_enclosed (by decide) (by decide) text
  have hdone : (Json.object payload).dumps ≠ doneText := by
    rw [htext,doneText]
    intro heq
    exact absurd (List.cons.inj heq).1 (by decide)
  simp only [parseSseLine,hstrip,hfound,hslice,if_pos,if_neg hdone,Json.loads_dumps h]

theorem plain_completionChunk {ttftMs tpotMs : Numeral} (httft : ttftMs.Literal) (htpot : tpotMs.Literal)
    (requestId : String) (created : ℕ) (text : Text) (reason : Option FinishReason) (extra : Option FluxExtra) :
    (Json.object ((completionChunk requestId created text reason extra).dict ttftMs tpotMs)).Plain := by
  have hnat (n : ℕ) := Numeral.literal_ofNat n
  have hreason : (optionalReason reason).Plain := by
    cases reason with
    | none => trivial
    | some reason => trivial
  cases extra with
  | none =>
    simp only [completionChunk,Chunk.dict,Chunk.choice,Option.map_none,Option.getD_none,List.append_nil,Json.Plain,
      Json.PlainFields,Json.PlainItems,hnat,hreason,List.map_cons,List.map_nil,and_true,true_and]
    exact ⟨by decide,by decide⟩
  | some extra =>
    simp only [completionChunk,Chunk.dict,Chunk.choice,Option.map_some,Option.getD_some,FluxExtra.dict,
      CompletionUsage.modelDump,List.cons_append,List.nil_append,Json.Plain,Json.PlainFields,Json.PlainItems,hnat,
      hreason,httft,htpot,List.map_cons,List.map_nil,and_true,true_and]
    exact ⟨by decide,by decide,by decide,by decide⟩

theorem nonzero_ofNat {n : ℕ} (hn : n ≠ 0) : (Numeral.ofNat n).nonzero = true := by
  obtain ⟨c,tail,htext⟩ := List.exists_cons_of_ne_nil (Nat.toDigits_ne_nil (n := n) (b := 10))
  have hdigit : c.isDigit = true :=
    Nat.isDigit_of_mem_toDigits (b := 10) (n := n) (by decide) (by decide) (by simp [htext])
  have hzero : c ≠ '0' := by
    rintro rfl
    exact hn (Json.toDigits_head htext)
  have he : (c ≠ 'e' && c ≠ 'E') = true := by
    rw [Bool.and_eq_true,decide_eq_true_eq,decide_eq_true_eq]
    refine ⟨?_,?_⟩
    · rintro rfl
      cases hdigit
    · rintro rfl
      cases hdigit
  have hnumeral : (Numeral.ofNat n).text = c :: tail := htext
  simp only [Numeral.nonzero,hnumeral,List.takeWhile_cons,if_pos he,List.any_cons,hdigit,hzero,decide_true,ne_eq,
    not_false_eq_true,Bool.and_self,Bool.true_or]

theorem int_count (n : ℕ) : (Json.pyOr (some (.number (.ofNat n))) (.number (.ofNat 0))).int = .ok (n : ℤ) := by
  have hint (m : ℕ) : (Json.number (.ofNat m)).int = .ok (m : ℤ) := by
    simp only [Json.int,Numeral.value_ofNat,Rat.num_natCast,Rat.den_natCast]
    simp
  by_cases hn : n = 0
  · subst hn
    simp only [Json.pyOr,Option.filter]
    split
    · exact hint 0
    · exact hint 0
  · have htrue : (Json.number (.ofNat n)).isTrue = true := by rw [Json.isTrue,nonzero_ofNat hn,Bool.true_or]
    simp only [Json.pyOr,Option.filter,if_pos htrue,Option.getD_some]
    exact hint n

namespace StreamReading
variable {ttftMs tpotMs : Numeral} {requestId : String} {created : ℕ}

theorem readLine_object {line : Text} {payload : Dict} (h : parseSseLine line = some (.object payload))
    (hne : payload ≠ []) (hopen : payload.lookup "done" = none) (s : StreamReading) (ms : ℚ) :
    s.readLine (line,ms) = (s.readText ms payload).bind (fun s => (s.readFlux payload).bind (readUsage payload)) := by
  have htrue : (Json.object payload).isTrue = true := by simp [Json.isTrue,hne]
  have hdone : (Json.pyOr (payload.lookup "done") .null).isTrue = false := by rw [hopen]; rfl
  simp only [readLine,h,if_pos htrue,Json.asDict]
  simp only [ask,Except.mapError,bind,Except.bind,hdone]
  rfl

theorem readText_chunk (s : StreamReading) (ms : ℚ) (text : Text) (reason : Option FinishReason)
    (extra : Option FluxExtra) :
    s.readText ms ((completionChunk requestId created text reason extra).dict ttftMs tpotMs) =
      .ok (if text = [] then s
        else { s with httpTtft := s.httpTtft.or (some ms), textChunks := s.textChunks + 1 }) := by
  by_cases htext : text = []
  · subst htext
    cases extra with
    | none => rfl
    | some extra => rfl
  · obtain ⟨c,text,rfl⟩ := List.exists_cons_of_ne_nil htext
    cases extra with
    | none => rfl
    | some extra => rfl

theorem readFlux_open (s : StreamReading) (text : Text) (reason : Option FinishReason) :
    s.readFlux ((completionChunk requestId created text reason none).dict ttftMs tpotMs) = .ok s := rfl

theorem readUsage_open (s : StreamReading) (text : Text) (reason : Option FinishReason) :
    s.readUsage ((completionChunk requestId created text reason none).dict ttftMs tpotMs) = .ok s := rfl

theorem readFlux_closed {ttft tpot : ℚ} (httft : ttftMs.value = some ttft) (htpot : tpotMs.value = some tpot)
    (s : StreamReading) (text : Text) (reason : Option FinishReason) (extra : FluxExtra) :
    s.readFlux ((completionChunk requestId created text reason (some extra)).dict ttftMs tpotMs) =
      .ok { s with engineTtft := some ttft, tpot := some tpot } := by
  have hread {n : Numeral} {x : ℚ} (h : n.value = some x) : (Json.number n).float = .ok x := by
    simp only [Json.float,h]
  have hflux : Json.pyOr
      (((completionChunk requestId created text reason (some extra)).dict ttftMs tpotMs).lookup "flux")
      (.object []) =
        .object [("ttft_ms",.number ttftMs),("tpot_ms",.number tpotMs),("engine",.string extra.engine.toList)] := rfl
  have hfirst : (Json.object [("ttft_ms",.number ttftMs),("tpot_ms",.number tpotMs),
      ("engine",.string extra.engine.toList)]).itemIn "ttft_ms" = .ok (some (.number ttftMs)) := rfl
  have hsecond : (Json.object [("ttft_ms",.number ttftMs),("tpot_ms",.number tpotMs),
      ("engine",.string extra.engine.toList)]).itemIn "tpot_ms" = .ok (some (.number tpotMs)) := rfl
  simp only [readFlux,hflux,hfirst,hsecond,ask,Except.mapError,bind,Except.bind,hread httft,hread htpot,
    pure,Except.pure]

theorem readUsage_closed (s : StreamReading) (text : Text) (reason : Option FinishReason) (extra : FluxExtra) :
    s.readUsage ((completionChunk requestId created text reason (some extra)).dict ttftMs tpotMs) =
      .ok { s with promptTokens := extra.usage.promptTokens, outputTokens := extra.usage.completionTokens } := by
  have husage : Json.pyOr
      (((completionChunk requestId created text reason (some extra)).dict ttftMs tpotMs).lookup "usage")
      (.object []) = .object extra.usage.modelDump := rfl
  have htrue : (Json.object extra.usage.modelDump).isTrue = true := rfl
  have hprompt : extra.usage.modelDump.lookup "prompt_tokens" =
      some (.number (.ofNat extra.usage.promptTokens)) := rfl
  have houtput : extra.usage.modelDump.lookup "completion_tokens" =
      some (.number (.ofNat extra.usage.completionTokens)) := rfl
  simp only [readUsage,husage,if_pos htrue,Json.asDict,hprompt,houtput,int_count,ask,Except.mapError,bind,Except.bind,
    pure,Except.pure]

/-- What a chunk of `_stream_completion` does. -/
def after (s : StreamReading) (ms : ℚ) (ttft tpot : ℚ) (text : Text) (extra : Option FluxExtra) : StreamReading :=
  let s := if text = [] then s
    else { s with httpTtft := s.httpTtft.or (some ms), textChunks := s.textChunks + 1 }
  match extra with
  | none => s
  | some extra => { s with engineTtft := some ttft, tpot := some tpot, promptTokens := extra.usage.promptTokens,
                           outputTokens := extra.usage.completionTokens }

theorem readLine_chunk {ttft tpot : ℚ} (httft : ttftMs.Literal ∧ ttftMs.value = some ttft)
    (htpot : tpotMs.Literal ∧ tpotMs.value = some tpot) (s : StreamReading) (ms : ℚ) (text : Text)
    (reason : Option FinishReason) (extra : Option FluxExtra) :
    s.readLine (sseText (.dict ((completionChunk requestId created text reason extra).dict ttftMs tpotMs)),ms) =
      .ok (s.after ms ttft tpot text extra) := by
  have hline := parseSseLine_dict (plain_completionChunk httft.1 htpot.1 requestId created text reason extra)
  have hopen : ((completionChunk requestId created text reason extra).dict ttftMs tpotMs).lookup "done" = none := by
    cases extra with
    | none => rfl
    | some extra => rfl
  rw [readLine_object hline (by simp [Chunk.dict]) hopen,readText_chunk]
  cases extra with
  | none => simp only [Except.bind,readFlux_open,readUsage_open,after]
  | some extra => simp only [Except.bind,readFlux_closed httft.2 htpot.2,readUsage_closed,after]

theorem readLine_blank (s : StreamReading) (ms : ℚ) : s.readLine ([],ms) = .ok s := rfl

theorem readLine_done (s : StreamReading) (ms : ℚ) : s.readLine (sseText (.str doneText),ms) = .ok s := rfl

end StreamReading

namespace Stream
variable {decode : List Token → Text} {s t : Stream}

/-- No delta is empty, and there are no more than tokens, but for that of the flush. -/
structure Tallied (s : Stream) : Prop where
  nonempty : ∀ delta ∈ s.client.yielded, delta ≠ []
  count : s.client.yielded.length + s.lag ≤ s.outputIds.length + if s.client.pc = .done then 1 else 0

theorem tallied_start : Tallied {} := ⟨by simp,by simp [lag,ProducerPc.ahead,Client.ahead]⟩

theorem emit_yielded (decode : List Token → Text) (c : Client) (ids : List Token) (pc : ClientPc)
    (h : ∀ delta ∈ c.yielded, delta ≠ []) :
    (∀ delta ∈ (c.emit decode ids pc).yielded, delta ≠ []) ∧
      (c.emit decode ids pc).yielded.length ≤ c.yielded.length + 1 := by
  simp only [Client.emit]
  split
  · exact ⟨h,Nat.le_succ _⟩
  · rename_i hdelta
    simp only [List.mem_append,List.mem_singleton,List.length_append,List.length_singleton,Nat.le_refl,and_true]
    rintro delta (hin | rfl)
    · exact h delta hin
    · exact hdelta

theorem Tallied.step {ev : StreamEvent} (h : s.Tallied) (hst : Step decode ev s t) : t.Tallied := by
  have hcount := h.count
  simp only [lag] at hcount
  cases acts_of_step hst with
  | append hready =>
    refine ⟨h.nonempty,?_⟩
    simp only [lag,hready,ProducerPc.ahead,List.length_append,List.length_singleton] at hcount ⊢
    omega
  | put happ =>
    refine ⟨h.nonempty,?_⟩
    simp only [lag,happ,ProducerPc.ahead,List.countP_append,List.countP_singleton,Option.isSome_some,
      if_true] at hcount ⊢
    omega
  | putEnd hready =>
    refine ⟨h.nonempty,?_⟩
    simp only [lag,hready,ProducerPc.ahead,List.countP_append,List.countP_singleton,Option.isSome_none] at hcount ⊢
    simpa using hcount
  | setFinished hended =>
    refine ⟨h.nonempty,?_⟩
    simp only [lag,hended,ProducerPc.ahead] at hcount ⊢
    exact hcount
  | @runPut item rest hpending =>
    refine ⟨h.nonempty,?_⟩
    simp only [lag,hpending,Client.ahead,List.countP_cons,List.countP_append,List.countP_nil] at hcount ⊢
    omega
  | client hc =>
    rcases Client.exec_cases hc with ⟨hpc,hpc',_,hyielded,hahead⟩ | ⟨hpc,rfl⟩ | ⟨hpc,rfl⟩
    · refine ⟨by rw [hyielded]; exact h.nonempty,?_⟩
      simp only [lag,hyielded,hahead,if_neg hpc,if_neg hpc'] at hcount ⊢
      exact hcount
    · obtain ⟨hnonempty,hlength⟩ := emit_yielded decode s.client s.outputIds .check h.nonempty
      refine ⟨hnonempty,?_⟩
      have hqueue : (s.client.emit decode s.outputIds .check).ahead = s.client.queue.countP Option.isSome := rfl
      have hclient : s.client.ahead = s.client.queue.countP Option.isSome + 1 := by rw [Client.ahead,if_pos hpc]
      simp only [hclient,hpc] at hcount
      simp only [lag,hqueue]
      simp only [reduceCtorEq,if_false,Nat.add_zero] at hcount
      omega
    · obtain ⟨hnonempty,hlength⟩ := emit_yielded decode s.client s.outputIds .done h.nonempty
      refine ⟨hnonempty,?_⟩
      have hqueue : (s.client.emit decode s.outputIds .done).ahead = s.client.queue.countP Option.isSome := rfl
      have hdone : (s.client.emit decode s.outputIds .done).pc = .done := rfl
      have hclient : s.client.ahead = s.client.queue.countP Option.isSome := by simp [Client.ahead,hpc]
      simp only [hclient,hpc] at hcount
      simp only [lag,hqueue,if_pos hdone]
      simp only [reduceCtorEq,if_false,Nat.add_zero] at hcount
      omega

theorem tallied_reaches (hr : Transition.Reaches (Step decode) {} s) : s.Tallied :=
  hr.invariant tallied_start (fun _ _ _ h hst => h.step hst)

end Stream

section Lines
variable {ttftMs tpotMs : Numeral} {ttft tpot : ℚ} {requestId : String} {created : ℕ}

def eventLines (ttftMs tpotMs : Numeral) (events : List SseEvent) : List Text :=
  events.flatMap (fun event => [sseText (event.payload ttftMs tpotMs),[]])

theorem eventLines_append (xs ys : List SseEvent) :
    eventLines ttftMs tpotMs (xs ++ ys) = eventLines ttftMs tpotMs xs ++ eventLines ttftMs tpotMs ys :=
  List.flatMap_append

theorem printable_eventLines (events : List SseEvent) :
    ∀ line ∈ eventLines ttftMs tpotMs events, ∀ c ∈ line, Printable c := by
  intro line hline
  obtain ⟨event,_,hin⟩ := List.mem_flatMap.mp hline
  simp only [List.mem_cons,List.not_mem_nil,or_false] at hin
  rcases hin with rfl | rfl
  · exact sseText_printable _
  · simp

theorem bytes_eventLines (events : List SseEvent) :
    events.flatMap (fun event => sseData (event.payload ttftMs tpotMs)) =
      utf8Bytes ((eventLines ttftMs tpotMs events).flatMap (· ++ ['\n'])) := by
  induction events with
  | nil => rfl
  | cons event events ih =>
    rw [List.flatMap_cons,ih]
    simp only [eventLines,sseData,utf8Bytes,List.flatMap_cons,List.flatMap_nil,List.flatMap_append,List.append_assoc,
      List.nil_append,List.append_nil]

open StreamReading

theorem foldlM_event {s r : StreamReading} {text : Text} {rest : List Text} {timed : TimedLines}
    (h : timed.map Prod.fst = text :: [] :: rest)
    (hread : ∀ ms, timed.head?.map Prod.snd = some ms → s.readLine (text,ms) = .ok r) :
    ∃ tail : TimedLines, tail.map Prod.fst = rest ∧ timed.foldlM readLine s = tail.foldlM readLine r := by
  obtain ⟨⟨_,ms⟩,timed,rfl,rfl,htimed⟩ := List.map_eq_cons_iff.mp h
  obtain ⟨⟨_,ms'⟩,tail,rfl,hblank,htail⟩ := List.map_eq_cons_iff.mp htimed
  refine ⟨tail,htail,?_⟩
  have hsecond : r.readLine ([],ms') = .ok r := readLine_blank r ms'
  rw [List.foldlM_cons,hread ms rfl]
  simp only at hblank
  subst hblank
  exact congrArg (fun value => value.bind (fun s => tail.foldlM readLine s)) hsecond

theorem fold_deltas (httft : ttftMs.Literal ∧ ttftMs.value = some ttft)
    (htpot : tpotMs.Literal ∧ tpotMs.value = some tpot)
    {deltas : List Text} (hne : ∀ delta ∈ deltas, delta ≠ []) {timed : TimedLines}
    (h : timed.map Prod.fst =
      eventLines ttftMs tpotMs (deltas.map (fun delta => .data (completionChunk requestId created delta))))
    (s : StreamReading) : timed.foldlM readLine s = .ok { s with
      httpTtft := s.httpTtft.or (timed.head?.map Prod.snd), textChunks := s.textChunks + deltas.length } := by
  induction deltas generalizing timed s with
  | nil =>
    obtain rfl := List.map_eq_nil_iff.mp h
    simp only [List.foldlM_nil,List.head?_nil,Option.map_none,Option.or_none,List.length_nil,Nat.add_zero]
    rfl
  | cons delta deltas ih =>
    rw [List.forall_mem_cons] at hne
    obtain ⟨ms,hms⟩ : ∃ ms, timed.head?.map Prod.snd = some ms := by
      obtain ⟨a,timed,rfl,_⟩ := List.map_eq_cons_iff.mp h
      exact ⟨a.2,rfl⟩
    have hread (ms' : ℚ) (hms' : timed.head?.map Prod.snd = some ms') :
        s.readLine (sseText (.dict ((completionChunk requestId created delta).dict ttftMs tpotMs)),ms') =
          .ok { s with httpTtft := s.httpTtft.or (some ms), textChunks := s.textChunks + 1 } := by
      obtain rfl := Option.some.inj (hms.symm.trans hms')
      rw [readLine_chunk httft htpot]
      simp only [after,if_neg hne.1]
    obtain ⟨tail,htail,hfold⟩ := foldlM_event h hread
    rw [hfold,ih hne.2 htail,hms]
    simp only [List.length_cons,Option.or_some]
    congr 2
    omega

theorem fold_closing (httft : ttftMs.Literal ∧ ttftMs.value = some ttft)
    (htpot : tpotMs.Literal ∧ tpotMs.value = some tpot)
    {P L : Type} (x : Sequence P L) {timed : TimedLines}
    (h : timed.map Prod.fst = eventLines ttftMs tpotMs ((streamCompletion requestId created).closing x))
    (s : StreamReading) :
    timed.foldlM readLine s =
      .ok (if x.status = .aborted then s else s.after 0 ttft tpot [] (fluxExtra x.result)) := by
  have hdone {s : StreamReading} {timed : TimedLines}
      (h : timed.map Prod.fst = [sseText (.str doneText),[]]) : timed.foldlM readLine s = .ok s := by
    obtain ⟨tail,htail,hfold⟩ := foldlM_event h (fun ms _ => readLine_done s ms)
    obtain rfl := List.map_eq_nil_iff.mp htail
    exact hfold
  by_cases hst : x.status = .aborted
  · rw [if_pos hst]
    simp only [StreamHandler.closing,hst] at h
    exact hdone h
  · rw [if_neg hst]
    simp only [StreamHandler.closing,if_pos hst] at h
    generalize x.finishReason.getD (if x.abortRequested then .abort else .length) = reason at h
    have hread (ms : ℚ) : s.readLine (sseText (.dict ((completionChunk requestId created [] (some reason)
        (fluxExtra x.result)).dict ttftMs tpotMs)),ms) = .ok (s.after 0 ttft tpot [] (fluxExtra x.result)) := by
      rw [readLine_chunk httft htpot]
      rfl
    obtain ⟨tail,htail,hfold⟩ := foldlM_event h (fun ms _ => hread ms)
    rw [hfold]
    exact hdone htail

end Lines

section Record
variable {P L : Type} [Inhabited P] [Inhabited L] {eng : CachedEngine P L} {may : Site → Bool} {mode : ServeEngine}
  {i : SeqId} {w : Response P L} {requestId : String} {created : ℕ} {ttftMs tpotMs : Numeral} {ttft tpot : ℚ}

/-- What `aiter_lines` does with a body of printable lines, however it is cut. -/
def LineReader (aiterLines : List (List UInt8) → List Text) : Prop :=
  ∀ (pieces : List (List UInt8)) (lines : List Text), (∀ line ∈ lines, ∀ c ∈ line, Printable c) →
    pieces.flatten = utf8Bytes (lines.flatMap (· ++ ['\n'])) → aiterLines pieces = lines

/-- The loop over the lines of a closed stream. -/
theorem foldlM_closed (httft : ttftMs.Literal ∧ ttftMs.value = some ttft)
    (htpot : tpotMs.Literal ∧ tpotMs.value = some tpot)
    (h : Response.Streams mode eng may (streamCompletion requestId created) i w) (hclosed : w.closing.isSome)
    {timed : TimedLines}
    (htimed : timed.map Prod.fst = eventLines ttftMs tpotMs (w.sent (streamCompletion requestId created))) :
    timed.foldlM StreamReading.readLine {} = .ok (
      let s : StreamReading :=
        { httpTtft := if w.stream.client.yielded = [] then none else timed.head?.map Prod.snd,
          textChunks := w.stream.client.yielded.length }
      if (w.seq i).status = .aborted then s else s.after 0 ttft tpot [] (fluxExtra (w.seq i).result)) := by
  obtain ⟨events,hevents⟩ := Option.isSome_iff_exists.mp hclosed
  obtain ⟨_,x,_,hout,rfl⟩ := h.follows.closing events hevents
  have hst : x.status = (w.seq i).status := congrArg (fun o => o.1.1) hout
  have hres : x.result = (w.seq i).result := congrArg (fun o => o.2.2.1) hout
  have hsent : w.sent (streamCompletion requestId created) =
      w.stream.client.yielded.map (fun delta => .data (completionChunk requestId created delta)) ++
        (streamCompletion requestId created).closing x := by
    rw [Response.sent,hevents]
    rfl
  rw [hsent,eventLines_append] at htimed
  obtain ⟨front,back,rfl,hfront,hback⟩ := List.map_eq_append_iff.mp htimed
  have hdeltas := fold_deltas httft htpot (Stream.tallied_reaches h.follows.stream).nonempty hfront {}
  have hfirst : front.head?.map Prod.snd =
      if w.stream.client.yielded = [] then none else (front ++ back).head?.map Prod.snd := by
    by_cases hnil : w.stream.client.yielded = []
    · rw [hnil] at hfront
      rw [if_pos hnil,List.map_eq_nil_iff.mp hfront]
      rfl
    · obtain ⟨delta,deltas,hcons⟩ := List.exists_cons_of_ne_nil hnil
      rw [hcons] at hfront
      obtain ⟨a,front,rfl,_⟩ := List.map_eq_cons_iff.mp hfront
      rw [if_neg hnil]
      rfl
  rw [List.foldlM_append,hdeltas]
  refine (fold_closing httft htpot x hback _).trans ?_
  rw [hst,hres,hfirst]
  simp only [Option.none_or,Nat.zero_add]

/-- `_one_stream` takes back what `_stream_completion` has sent, however the network cuts
it: a sequence that finished is recorded with its tokens and the latencies that the
engine has measured.  The others, aborted or failed, are recorded as successes too: with
status 200, no error and no prompt, and a token for every delta, of which there are no
more than tokens, but for that of the flush.  The time to the first token is the clock
at the first line. -/
theorem one_stream_records {aiterLines : List (List UInt8) → List Text} (hlines : LineReader aiterLines)
    (httft : ttftMs.Literal ∧ ttftMs.value = some ttft)
    (htpot : tpotMs.Literal ∧ tpotMs.value = some tpot)
    (h : Response.Streams mode eng may (streamCompletion requestId created) i w) (hclosed : w.closing.isSome)
    {pieces : List (List UInt8)} (hpieces : pieces.flatten =
      (w.sent (streamCompletion requestId created)).flatMap (fun event => sseData (event.payload ttftMs tpotMs)))
    {timed : TimedLines} (htimed : timed.map Prod.fst = aiterLines pieces) (str : Raised → Text) (e2e : ℚ) :
    ∃ record, oneStream str 200 timed none e2e = record ∧
      (record.httpStatus = 200 ∧ record.error = [] ∧ record.e2eMs = e2e) ∧
      record.ttftMs = (if w.stream.client.yielded = [] then none else timed.head?.map Prod.snd) ∧
      ((w.seq i).status = .finished →
        (record.promptTokens = (w.seq i).promptTokenIds.length ∧ record.outputTokens = (w.seq i).outputIds.length) ∧
          record.engineTtftMs = some ttft ∧ record.tpotMs = some tpot) ∧
      ((w.seq i).status ≠ .finished →
        (record.promptTokens = 0 ∧ record.outputTokens = w.stream.client.yielded.length ∧
          record.engineTtftMs = none) ∧
          record.outputTokens ≤ (w.seq i).outputIds.length + 1) := by
  have hfollows := h.follows
  obtain ⟨events,hevents⟩ := Option.isSome_iff_exists.mp hclosed
  have hdone := (hfollows.closing events hevents).1
  obtain ⟨hend,houtput⟩ := hfollows.over_of_done hdone
  have hseq := hfollows.settled hend
  rw [bytes_eventLines] at hpieces
  rw [hlines pieces _ (printable_eventLines _) hpieces] at htimed
  have hfold := foldlM_closed httft htpot h hclosed htimed
  have htally := (Stream.tallied_reaches hfollows.stream).count
  rw [if_pos hdone,houtput] at htally
  by_cases hfin : (w.seq i).status = .finished
  · obtain ⟨reason,engineName,hreason,hres⟩ := hseq.concluded.finished hfin
    have hne : (w.seq i).outputIds ≠ [] :=
      (hfollows.runs.reachable.paced hfollows.accepted).reason (fun hnone => by
        rw [Response.seq,hnone] at hreason
        cases hreason)
    have hpos : ¬((w.seq i).outputIds.length : ℤ) ≤ 0 := by
      have := List.length_pos_iff.mpr hne
      omega
    have hvars : timed.foldlM StreamReading.readLine {} = .ok
        { httpTtft := if w.stream.client.yielded = [] then none else timed.head?.map Prod.snd
          engineTtft := some ttft, tpot := some tpot, promptTokens := (w.seq i).promptTokenIds.length
          outputTokens := (w.seq i).outputIds.length, textChunks := w.stream.client.yielded.length } := by
      rw [hfold,hres,hfin]
      rfl
    have hrecord : oneStream str 200 timed none e2e =
        { httpStatus := 200, e2eMs := e2e, engineTtftMs := some ttft, tpotMs := some tpot
          ttftMs := if w.stream.client.yielded = [] then none else timed.head?.map Prod.snd
          promptTokens := (w.seq i).promptTokenIds.length, outputTokens := (w.seq i).outputIds.length } := by
      simp only [oneStream,hvars,if_neg hpos,Int.toNat_natCast]
    exact ⟨_,hrecord,⟨rfl,rfl,rfl⟩,rfl,fun _ => ⟨⟨rfl,rfl⟩,rfl,rfl⟩,fun hnot => absurd hfin hnot⟩
  · have hres : (w.seq i).result = none := hseq.concluded.unfinished hfin
    have hvars : timed.foldlM StreamReading.readLine {} = .ok
        { httpTtft := if w.stream.client.yielded = [] then none else timed.head?.map Prod.snd
          textChunks := w.stream.client.yielded.length } := by
      rw [hfold,hres]
      by_cases hab : (w.seq i).status = .aborted
      · simp only [if_pos hab]
      · simp only [if_neg hab]
        rfl
    have houtputTokens : (oneStream str 200 timed none e2e).outputTokens = w.stream.client.yielded.length := by
      simp only [oneStream,hvars,Int.le_refl,if_true,Int.toNat_natCast]
    have hrecord : (oneStream str 200 timed none e2e).promptTokens = 0 ∧
        (oneStream str 200 timed none e2e).engineTtftMs = none ∧ (oneStream str 200 timed none e2e).ttftMs =
          if w.stream.client.yielded = [] then none else timed.head?.map Prod.snd := by
      simp only [oneStream,hvars,Int.toNat_zero,and_self]
    have hstatus : (oneStream str 200 timed none e2e).httpStatus = 200 ∧
        (oneStream str 200 timed none e2e).error = [] ∧ (oneStream str 200 timed none e2e).e2eMs = e2e := by
      simp only [oneStream,hvars,and_self]
    refine ⟨_,rfl,hstatus,hrecord.2.2,fun h => absurd h hfin,fun _ => ⟨⟨hrecord.1,houtputTokens,hrecord.2.1⟩,?_⟩⟩
    rw [houtputTokens]
    omega

end Record

def textLines (pieces : List (List UInt8)) : List Text :=
  (split ['\n'] (utf8.scan replacementChar [] pieces.flatten).1).dropLast

theorem lineReader_textLines : LineReader textLines := by
  intro pieces lines hprintable hpieces
  have hdecode : utf8.scan replacementChar [] (utf8Bytes (lines.flatMap (· ++ ['\n']))) =
      (lines.flatMap (· ++ ['\n']),[]) :=
    PrefixCode.scan_encodes _
  have hblocked : ∀ line ∈ lines, Blocked ['\n'] line := by
    intro line hline hin
    rw [List.dropLast_concat] at hin
    exact newline_not_mem (hprintable line hline) (hin.subset List.mem_cons_self)
  rw [textLines,hpieces,hdecode,split_blocks (by decide) hblocked,List.dropLast_concat]

/-- Two tokens, with every byte cut off. -/
theorem one_stream_records_served : ∃ (w : Response ℕ Token) (timed : TimedLines) (record : RequestRecord),
    Response.Streams .continuous (FakeLm.engine {}) Site.isModel (streamCompletion "cmpl-0" 0) 0 w ∧
      oneStream (fun _ => []) 200 timed none 9 = record ∧ record.error = [] ∧ record.promptTokens = 2 ∧
        record.outputTokens = 2 ∧ record.engineTtftMs = some 3 := by
  have hobs : ((ServeEngine.continuous.play (FakeLm.engine {}) Site.isModel bothServed
      ((ServeEngine.continuous.service (FakeLm.engine {})).start,roomySystem)).bind (fun c =>
        (playAll (Response.follow FakeTokenizer.decode (c.2.heap 0)) (inOrder [7,8]) {}).map (fun t =>
          ((c.2.accepted,(c.2.heap 0).status),t.client.pc,(c.2.heap 0).promptTokenIds,(c.2.heap 0).outputIds)))) =
      some (([0,1],.finished),.done,[5,6],[7,8]) := by decide
  obtain ⟨c,hc,hobs⟩ := Option.bind_eq_some_iff.mp hobs
  obtain ⟨t,ht,hobs⟩ := Option.map_eq_some_iff.mp hobs
  simp only [Prod.mk.injEq] at hobs
  obtain ⟨⟨hacc,hst⟩,hdone,hprompt,houtput⟩ := hobs
  have hw := streams_of_play (streamCompletion "cmpl-0" 0) roomySystem_boot hc (by simp [hacc]) ht hdone
  have hthree : (Numeral.ofNat 3).Literal ∧ (Numeral.ofNat 3).value = some 3 :=
    ⟨Numeral.literal_ofNat 3,Numeral.value_ofNat 3⟩
  generalize hresponse : Response.mk c t (some ((streamCompletion "cmpl-0" 0).closing (c.2.heap 0))) = w at hw
  have hseq : w.seq 0 = c.2.heap 0 := by rw [← hresponse]; rfl
  have hclosed : w.closing.isSome = true := by rw [← hresponse]; rfl
  let bytes := (w.sent (streamCompletion "cmpl-0" 0)).flatMap (fun event =>
    sseData (event.payload (.ofNat 3) (.ofNat 3)))
  let pieces := bytes.map (fun byte => [byte])
  have hpieces : pieces.flatten = bytes := by rw [← List.flatMap_def,List.flatMap_singleton']
  let timed : TimedLines := (textLines pieces).map (fun line => (line,5))
  have htimed : timed.map Prod.fst = textLines pieces := by
    rw [List.map_map]
    exact List.map_id _
  obtain ⟨record,hrecord,⟨_,herror,_⟩,_,hfinished,_⟩ :=
    one_stream_records lineReader_textLines hthree hthree hw hclosed hpieces htimed (fun _ => []) 9
  obtain ⟨⟨hpromptTokens,houtputTokens⟩,hengine,_⟩ := hfinished (by rw [hseq]; exact hst)
  rw [hseq,hprompt] at hpromptTokens
  rw [hseq,houtput] at houtputTokens
  exact ⟨w,timed,record,hw,hrecord,herror,hpromptTokens,houtputTokens,hengine⟩

end FluxEngine
