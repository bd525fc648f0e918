import FluxEngine.Dashboard.Sse
import FluxEngine.Server.Payloads

/-! # The dashboard reads back what the server sends

The decoder and the splitting at blank lines both go on where they stopped, so
what the reader has got is a function of the bytes that have arrived, however
they were cut.
-/
namespace FluxEngine

theorem TextDecoder.decode_append (decoder : TextDecoder) (xs ys : List UInt8) : decoder.decode (xs ++ ys) =
    ((decoder.decode xs).1 ++ ((decoder.decode xs).2.decode ys).1,((decoder.decode xs).2.decode ys).2) := by
  cases hbom : decoder.bomSeen with
  | true => simp only [TextDecoder.decode,hbom,PrefixCode.scan_append,if_true]
  | false =>
    simp only [TextDecoder.decode,hbom,PrefixCode.scan_append]
    cases hout : (utf8.scan replacementChar decoder.pending xs).1 with
    | nil => simp
    | cons c rest =>
      by_cases hmark : c = '\uFEFF'
      · simp [hmark]
      · simp [hmark]

theorem decode_utf8Bytes {c : Char} (hc : c ≠ '\uFEFF') (text : Text) :
    ({} : TextDecoder).decode (utf8Bytes (c :: text)) = (c :: text,⟨[],true⟩) := by
  have hscan : utf8.scan replacementChar [] (utf8Bytes (c :: text)) = (c :: text,[]) := PrefixCode.scan_encodes _
  simp only [TextDecoder.decode,hscan,if_neg hc]
  rfl

section Reads
variable (parse : Text → Option Json)

/-- The event of a part, unless it is skipped. -/
def heard (part : Text) : Option Json :=
  let event := parseSseBlock parse part
  if skipped event then none else some event

/-- The reader when these bytes have arrived. -/
def Reader.after (bytes : List UInt8) : Reader :=
  let (text,decoder) := ({} : TextDecoder).decode bytes
  let parts := split ['\n','\n'] text
  let events := parts.dropLast.filterMap (heard parse)
  { decoder := decoder, buffer := parts.getLast?.getD [], events := events, calls := events.flatMap callbacks }

variable {parse}

theorem foldl_dispatch (reader : Reader) (parts : List Text) : parts.foldl (Reader.dispatch parse) reader =
    { reader with events := reader.events ++ parts.filterMap (heard parse),
                  calls := reader.calls ++ (parts.filterMap (heard parse)).flatMap callbacks } := by
  induction parts generalizing reader with
  | nil => simp
  | cons part parts ih =>
    rw [List.foldl_cons,ih]
    cases hskip : skipped (parseSseBlock parse part) with
    | true => simp [Reader.dispatch,heard,hskip]
    | false => simp [Reader.dispatch,heard,hskip]

theorem read_after (bytes value : List UInt8) :
    (Reader.after parse bytes).read parse value = Reader.after parse (bytes ++ value) := by
  have hsep : ['\n','\n'] ≠ [] := by decide
  have hne (text : Text) : split ['\n','\n'] text ≠ [] := split_ne_nil _ text
  simp only [Reader.read,Reader.after,foldl_dispatch,TextDecoder.decode_append]
  rw [split_append hsep (({} : TextDecoder).decode bytes).1,List.dropLast_append_of_ne_nil (hne _),List.getLast?_append_of_ne_nil _ (hne _)]
  simp only [List.filterMap_append,List.flatMap_append]

theorem foldl_read (bytes : List UInt8) (values : List (List UInt8)) :
    values.foldl (Reader.read parse) (Reader.after parse bytes) = Reader.after parse (bytes ++ values.flatten) := by
  induction values generalizing bytes with
  | nil => simp
  | cons value values ih => rw [List.foldl_cons,read_after,ih,List.flatten_cons,List.append_assoc]

theorem readChatStream_eq (values : List (List UInt8)) :
    readChatStream parse (some values) = .ok (Reader.after parse values.flatten) := by
  have hread : values.foldl (Reader.read parse) (Reader.after parse []) = Reader.after parse ([] ++ values.flatten) :=
    foldl_read [] values
  simp only [readChatStream]
  exact congrArg Except.ok hread

end Reads

theorem trim_enclosed {c d : Char} (hc : c ∉ whiteSpace) (hd : d ∉ whiteSpace) (text : Text) :
    trim (c :: (text ++ [d])) = c :: (text ++ [d]) := by
  simp [trim,hc,hd]

theorem trim_space (text : Text) : trim (' ' :: text) = trim text := by
  simp [trim,whiteSpace]

theorem dumps_object (payload : Dict) : ∃ text, (Json.object payload).dumps = '{' :: (text ++ ['}']) :=
  ⟨_,by rw [Json.dumps]; rfl⟩

theorem blocked_of_printable {text : Text} (h : ∀ c ∈ text, Printable c) : Blocked ['\n','\n'] text := by
  intro hin
  have hcount := hin.sublist.count_le '\n'
  rw [List.dropLast_append_of_ne_nil (by decide),List.count_append,List.count_eq_zero_of_not_mem (newline_not_mem h)]
    at hcount
  revert hcount
  decide

section Sent
variable {parse : Text → Option Json}

theorem rows_of_printable {text : Text} (h : ∀ c ∈ text, Printable c) : split ['\n'] text = [text] := by
  apply split_without
  intro hin
  exact newline_not_mem h (hin.subset List.mem_cons_self)

theorem heard_payload {payload : Dict} (hparse : parse (Json.object payload).dumps = some (.object payload)) :
    heard parse (sseText (.dict payload)) = some (.object payload) := by
  obtain ⟨text,htext⟩ := dumps_object payload
  have hrows := rows_of_printable (sseText_printable (.dict payload))
  have hline : sseText (.dict payload) = 'd' :: (['a','t','a',':',' ','{'] ++ text ++ ['}']) := by
    simp only [sseText,dataLine,htext]
    simp
  have htrim : trim (sseText (.dict payload)) = sseText (.dict payload) := by
    rw [hline]
    exact trim_enclosed (by decide) (by decide) _
  have hfound : ['d','a','t','a',':'].isPrefixOf (sseText (.dict payload)) = true := by
    rw [hline]
    rfl
  have hslice : trim ((sseText (.dict payload)).drop 5) = '{' :: (text ++ ['}']) := by
    have hdrop : (sseText (.dict payload)).drop 5 = ' ' :: '{' :: (text ++ ['}']) := by simp [hline]
    rw [hdrop,trim_space]
    exact trim_enclosed (by decide) (by decide) text
  have hevent : parseSseBlock parse (sseText (.dict payload)) = .object payload := by
    simp only [parseSseBlock,hrows,List.map_cons,List.map_nil,htrim,List.find?_cons,hfound,hslice]
    rw [if_neg (by simp),← htext,hparse]
    rfl
  simp only [heard,hevent]
  rfl

def finishedStream (payloads : List Dict) : List SsePayload := payloads.map .dict ++ [.str doneText]

theorem decode_finishedStream (payloads : List Dict) :
    ({} : TextDecoder).decode ((finishedStream payloads).flatMap sseData) =
      (((finishedStream payloads).map sseText).flatMap (· ++ ['\n','\n']),⟨[],true⟩) := by
  obtain ⟨text,htext⟩ : ∃ text, ((finishedStream payloads).map sseText).flatMap (· ++ ['\n','\n']) = 'd' :: text := by
    cases payloads with
    | nil => exact ⟨_,rfl⟩
    | cons payload payloads => exact ⟨_,rfl⟩
  rw [sseData_flatMap,htext]
  exact decode_utf8Bytes (by decide) text

theorem heard_finishedStream {payloads : List Dict}
    (hparse : ∀ payload ∈ payloads, parse (Json.object payload).dumps = some (.object payload)) :
    ((finishedStream payloads).map sseText).filterMap (heard parse) = payloads.map .object := by
  have hpayloads : payloads.filterMap (fun payload => heard parse (sseText (.dict payload))) = payloads.map .object := by
    induction payloads with
    | nil => rfl
    | cons payload payloads ih =>
      rw [List.forall_mem_cons] at hparse
      rw [List.filterMap_cons,heard_payload hparse.1,ih hparse.2,List.map_cons]
  have hdone : [sseText (.str doneText)].filterMap (heard parse) = [] := rfl
  rw [finishedStream,List.map_append,List.filterMap_append,List.map_map,List.filterMap_map]
  exact (congrArg₂ (· ++ ·) hpayloads hdone).trans (List.append_nil _)

theorem after_finishedStream {payloads : List Dict}
    (hparse : ∀ payload ∈ payloads, parse (Json.object payload).dumps = some (.object payload)) :
    Reader.after parse ((finishedStream payloads).flatMap sseData) =
      { decoder := ⟨[],true⟩, buffer := [], events := payloads.map .object,
        calls := (payloads.map .object).flatMap callbacks } := by
  have hblocks : split ['\n','\n'] (((finishedStream payloads).map sseText).flatMap (· ++ ['\n','\n'])) =
      (finishedStream payloads).map sseText ++ [[]] := by
    apply split_blocks (by decide)
    intro block hblock
    obtain ⟨payload,_,rfl⟩ := List.mem_map.mp hblock
    exact blocked_of_printable (sseText_printable payload)
  simp only [Reader.after,decode_finishedStream,hblocks,List.dropLast_concat,List.getLast?_concat,
    heard_finishedStream hparse]
  rfl

end Sent

def Callback.delta : Callback → Option Text
  | .onDelta text => some text
  | _ => none

/-- What the calls of `onDelta` add up to. -/
def shownText (calls : List Callback) : Text := (calls.filterMap Callback.delta).flatten

theorem shownText_append (xs ys : List Callback) : shownText (xs ++ ys) = shownText xs ++ shownText ys := by
  simp only [shownText,List.filterMap_append,List.flatten_append]

theorem shownText_callbacks (event : Json) : shownText (callbacks event) = deltaText event := by
  have hid (id : Option Text) : shownText (id.map Callback.onId).toList = [] := by
    cases id with
    | none => rfl
    | some id => rfl
  have hflux (info : Option Json) : shownText (info.map Callback.onFlux).toList = [] := by
    cases info with
    | none => rfl
    | some info => rfl
  have hcontent (text : Text) : shownText (if text = [] then [] else [.onDelta text]) = text := by
    by_cases htext : text = []
    · simp [htext,shownText]
    · simp [htext,shownText,Callback.delta]
  simp only [callbacks,shownText_append,hid,hflux,hcontent]
  split
  · simp [shownText]
  · simp [shownText]
  · simp [shownText,Callback.delta]

theorem lookup_strings (key : String) (fields : List (String × Text)) :
    (fields.map (fun field => (field.1,Json.string field.2))).lookup key = (fields.lookup key).map .string := by
  induction fields with
  | nil => rfl
  | cons field fields ih =>
    obtain ⟨name,text⟩ := field
    simp only [List.map_cons,List.lookup_cons]
    split
    · rfl
    · exact ih

theorem deltaText_dict (ttftMs tpotMs : Numeral) (chunk : Chunk) :
    deltaText (.object (chunk.dict ttftMs tpotMs)) = chunk.content.getD [] := by
  have hchoices : (Json.object (chunk.dict ttftMs tpotMs)).get "choices" = some (.array [.object chunk.choice]) := rfl
  have hfirst : (Json.orElse (some (.array [.object chunk.choice])) (.array [])).first = some (.object chunk.choice) := rfl
  simp only [deltaText,hchoices,hfirst,Option.bind_some]
  cases hbody : chunk.body with
  | text text =>
    have hdelta : Json.get "delta" (.object chunk.choice) = none := by
      simp only [Chunk.choice,hbody]
      rfl
    simp only [hdelta,Chunk.content,hbody]
    rfl
  | delta fields =>
    have hdelta : Json.get "delta" (.object chunk.choice) =
        some (.object (fields.map (fun field => (field.1,.string field.2)))) := by
      simp only [Chunk.choice,hbody]
      rfl
    have hcontent : Json.get "content" (Json.orElse
        (some (.object (fields.map (fun field => (field.1,.string field.2))))) (.object [])) =
        (fields.lookup "content").map .string := lookup_strings "content" fields
    simp only [hdelta,hcontent,Chunk.content,hbody]
    cases fields.lookup "content" with
    | none => rfl
    | some text => rfl

theorem shownText_flatMap (events : List Json) : shownText (events.flatMap callbacks) = events.flatMap deltaText := by
  induction events with
  | nil => rfl
  | cons event events ih => rw [List.flatMap_cons,shownText_append,shownText_callbacks,ih,List.flatMap_cons]

theorem flatMap_deltaText (ttftMs tpotMs : Numeral) (chunks : List Chunk) :
    (chunks.map (Chunk.dict ttftMs tpotMs)).flatMap (fun payload => deltaText (.object payload)) =
      (chunks.filterMap Chunk.content).flatten := by
  induction chunks with
  | nil => rfl
  | cons chunk chunks ih =>
    rw [List.map_cons,List.flatMap_cons,ih,deltaText_dict]
    cases hcontent : chunk.content with
    | none => simp [hcontent]
    | some text => simp [hcontent]

/-- However the network cuts the bytes of a finished stream, the reader dispatches
the payloads that were sent, each once and in order, and is left with an empty
buffer; the texts of `onDelta` make up those that were sent. -/
theorem stream_read_back (parse : Text → Option Json) (payloads : List Dict)
    (hparse : ∀ payload ∈ payloads, parse (Json.object payload).dumps = some (.object payload))
    (values : List (List UInt8))
    (hvalues : values.flatten = payloads.flatMap (fun payload => sseData (.dict payload)) ++ sseData (.str doneText)) :
    ∃ reader, readChatStream parse (some values) = .ok reader ∧ reader.events = payloads.map .object ∧
      reader.buffer = [] ∧ reader.calls = payloads.flatMap (fun payload => callbacks (.object payload)) ∧
      shownText reader.calls = payloads.flatMap (fun payload => deltaText (.object payload)) ∧
      ∀ (ttftMs tpotMs : Numeral) (chunks : List Chunk), payloads = chunks.map (Chunk.dict ttftMs tpotMs) →
        shownText reader.calls = (chunks.filterMap Chunk.content).flatten := by
  have hbytes : values.flatten = (finishedStream payloads).flatMap sseData := by
    rw [hvalues,finishedStream,List.flatMap_append,List.flatMap_map,List.flatMap_singleton]
  have hshown : shownText ((payloads.map .object).flatMap callbacks) =
      payloads.flatMap (fun payload => deltaText (.object payload)) := by
    rw [shownText_flatMap,List.flatMap_map]
  refine ⟨_,readChatStream_eq values,?_⟩
  rw [hbytes,after_finishedStream hparse]
  refine ⟨rfl,rfl,?_,hshown,?_⟩
  · simp only [List.flatMap_map]
  · rintro ttftMs tpotMs chunks rfl
    rw [hshown]
    exact flatMap_deltaText ttftMs tpotMs chunks

def framedContent : Dict :=
  (chatChunk "chatcmpl-0" 7 [("content",['\n','\n','d','a','t','a',':'])]).dict (.ofNat 0) (.ofNat 0)

def framedBytes : List UInt8 := sseData (.dict framedContent) ++ sseData (.str doneText)

/-- `JSON.parse` on one text. -/
def parseOnly (payload : Dict) (text : Text) : Option Json :=
  if text = (Json.object payload).dumps then some (.object payload) else none

/-- Byte by byte, with every boundary cut. -/
theorem stream_read_back_bytewise : ∃ reader,
    readChatStream (parseOnly framedContent) (some (framedBytes.map (fun byte => [byte]))) = .ok reader ∧
      reader.events = [.object framedContent] ∧ reader.buffer = [] ∧
        shownText reader.calls = ['\n','\n','d','a','t','a',':'] := by
  have hparse : ∀ payload ∈ [framedContent],
      parseOnly framedContent (Json.object payload).dumps = some (.object payload) := by
    intro payload hpayload
    obtain rfl := List.mem_singleton.mp hpayload
    exact if_pos rfl
  have hvalues : (framedBytes.map (fun byte => [byte])).flatten =
      [framedContent].flatMap (fun payload => sseData (.dict payload)) ++ sseData (.str doneText) := by
    rw [← List.flatMap_def,List.flatMap_singleton',List.flatMap_singleton]
    rfl
  obtain ⟨reader,hread,hevents,hbuffer,_,hshown,_⟩ := stream_read_back _ [framedContent] hparse _ hvalues
  refine ⟨reader,hread,hevents,hbuffer,?_⟩
  rw [hshown]
  rfl

section Chat
variable {P L : Type} {requestId : String} {created : ℕ}

/-- The chunks of a finished chat stream. -/
def chatChunks (requestId : String) (created : ℕ) (seq : Sequence P L) (deltas : List Text) : List Chunk :=
  (streamChat requestId created).opening ++ deltas.map (streamChat requestId created).delta ++
    if seq.status ≠ .aborted then
      [(streamChat requestId created).final (seq.finishReason.getD (if seq.abortRequested then .abort else .length))
        (fluxExtra seq.result)]
    else []

theorem sent_closing (seq : Sequence P L) (deltas : List Text) :
    (streamChat requestId created).sent deltas (some ((streamChat requestId created).closing seq)) =
      (chatChunks requestId created seq deltas).map .data ++ [.done] := by
  by_cases hst : seq.status = .aborted
  · simp [StreamHandler.sent,StreamHandler.closing,chatChunks,hst]
  · simp [StreamHandler.sent,StreamHandler.closing,chatChunks,hst]

theorem content_chatChunks (seq : Sequence P L) (deltas : List Text) :
    (chatChunks requestId created seq deltas).filterMap Chunk.content = deltas := by
  have hopening : (streamChat requestId created).opening.filterMap Chunk.content = [] := rfl
  have hdeltas : (deltas.map (streamChat requestId created).delta).filterMap Chunk.content = deltas := by
    rw [List.filterMap_map]
    exact List.filterMap_some
  have hfinal (reason : FinishReason) (extra : Option FluxExtra) :
      [(streamChat requestId created).final reason extra].filterMap Chunk.content = [] := rfl
  rw [chatChunks,List.filterMap_append,List.filterMap_append,hopening,hdeltas]
  split
  · rw [hfinal,List.nil_append,List.append_nil]
  · simp

theorem chat_stream_shown (parse : Text → Option Json) (ttftMs tpotMs : Numeral) (seq : Sequence P L)
    (deltas : List Text) (hparse : ∀ chunk ∈ chatChunks requestId created seq deltas,
      parse (Json.object (chunk.dict ttftMs tpotMs)).dumps = some (.object (chunk.dict ttftMs tpotMs))) :
    shownText (Reader.after parse
      (((streamChat requestId created).sent deltas (some ((streamChat requestId created).closing seq))).flatMap
        (fun event : SseEvent => sseData (event.payload ttftMs tpotMs)))).calls = deltas.flatten := by
  have hbytes : ((chatChunks requestId created seq deltas).map SseEvent.data ++ [SseEvent.done]).flatMap
      (fun event : SseEvent => sseData (event.payload ttftMs tpotMs)) =
        (finishedStream ((chatChunks requestId created seq deltas).map (Chunk.dict ttftMs tpotMs))).flatMap sseData := by
    simp only [finishedStream,List.flatMap_append,List.flatMap_map,List.flatMap_singleton]
    rfl
  rw [sent_closing,hbytes,after_finishedStream]
  · rw [shownText_flatMap,List.flatMap_map,flatMap_deltaText,content_chatChunks]
  · simpa using hparse

end Chat
end FluxEngine
