import FluxEngine.Lib.Utf8
import FluxEngine.Engine.CachedEngine
import FluxEngine.Server.Streaming

/-! # Deltas of a byte-level tokenizer

One character may span several tokens, so the text of a prefix of the output may
end in a U+FFFD that the text of the output does not have.
-/
namespace FluxEngine
open Transition

/-- `decode_delta` once per appended token: the accumulated text and the deltas. -/
def deltaLoop (decode : List Token → Text) (prev : Text) (done : List Token) : List Token → Text × List Text
  | [] => (prev,[])
  | token :: rest =>
    let (prev,delta) := decodeDelta decode (done ++ [token]) prev
    let (last,deltas) := deltaLoop decode prev (done ++ [token]) rest
    (last,delta :: deltas)

/-- The deltas of the tokens and of the flush at the end of the stream. -/
def streamDeltas (decode : List Token → Text) (ids : List Token) : List Text :=
  let (prev,deltas) := deltaLoop decode [] [] ids
  deltas ++ [(decodeDelta decode ids prev).2]

section Deltas
variable {decode : List Token → Text} {prev : Text} {done ids : List Token} {token : Token}

theorem deltaLoop_cons : deltaLoop decode prev done (token :: ids) =
    ((deltaLoop decode (decodeDelta decode (done ++ [token]) prev).1 (done ++ [token]) ids).1,
      (decodeDelta decode (done ++ [token]) prev).2 ::
        (deltaLoop decode (decodeDelta decode (done ++ [token]) prev).1 (done ++ [token]) ids).2) := rfl

theorem decodeDelta_extends (decode : List Token → Text) (ids : List Token) (prev : Text) :
    prev ++ (decodeDelta decode ids prev).2 = (decodeDelta decode ids prev).1 := by
  by_cases hprev : prev <+: decode ids
  · rw [decodeDelta_grows hprev]
    obtain ⟨t,ht⟩ := hprev
    rw [← ht,List.drop_left]
  · unfold decodeDelta
    rw [if_neg (by rwa [List.isPrefixOf_iff_prefix])]
    split
    · exact List.append_nil prev
    · rfl

theorem deltaLoop_flatten : prev ++ (deltaLoop decode prev done ids).2.flatten = (deltaLoop decode prev done ids).1 := by
  induction ids generalizing prev done with
  | nil => exact List.append_nil prev
  | cons token ids ih =>
    rw [deltaLoop_cons,List.flatten_cons,← List.append_assoc,decodeDelta_extends]
    exact ih

theorem streamDeltas_flatten (decode : List Token → Text) (ids : List Token) :
    (streamDeltas decode ids).flatten = (decodeDelta decode ids (deltaLoop decode [] [] ids).1).1 := by
  have hloop : [] ++ (deltaLoop decode [] [] ids).2.flatten = (deltaLoop decode [] [] ids).1 := deltaLoop_flatten
  rw [List.nil_append] at hloop
  have hlast : streamDeltas decode ids =
      (deltaLoop decode [] [] ids).2 ++ [(decodeDelta decode ids (deltaLoop decode [] [] ids).1).2] := rfl
  rw [hlast,List.flatten_append,hloop,List.flatten_singleton,decodeDelta_extends]

theorem streamDeltas_iff_begins (decode : List Token → Text) (ids : List Token) :
    (streamDeltas decode ids).flatten = decode ids ↔ (deltaLoop decode [] [] ids).1 <+: decode ids := by
  rw [streamDeltas_flatten]
  constructor
  · intro h
    rw [← h,← decodeDelta_extends]
    exact List.prefix_append _ _
  · intro h
    rw [decodeDelta_grows h]

/-- After `done`, the text at every place begins the text of the output. -/
def Steady (decode : List Token → Text) (done ids : List Token) : Prop :=
  ∀ xs ys, ids = xs ++ ys → decode (done ++ xs) <+: decode (done ++ ids)

def Committing (decode : List Token → Text) : Prop :=
  ∀ xs ys, ¬ decode xs <+: decode (xs ++ ys) → ∀ zs, ¬ decode xs <+: decode (xs ++ ys ++ zs)

theorem steady_cons (hnext : decode done <+: decode (done ++ [token])) :
    Steady decode done (token :: ids) ↔ Steady decode (done ++ [token]) ids := by
  have hjoin (zs : List Token) : done ++ [token] ++ zs = done ++ token :: zs := by simp
  constructor
  · intro h xs ys hids
    rw [hjoin,hjoin]
    exact h (token :: xs) ys (by rw [hids]; rfl)
  · intro h xs ys hids
    rw [← hjoin]
    cases xs with
    | nil =>
      rw [List.append_nil]
      have hrest := h [] ids rfl
      rw [List.append_nil] at hrest
      exact hnext.trans hrest
    | cons x xs =>
      obtain ⟨rfl,hrest⟩ := List.cons.inj hids
      rw [← hjoin]
      exact h xs ys hrest

theorem deltaLoop_extends : prev <+: (deltaLoop decode prev done ids).1 := by
  rw [← deltaLoop_flatten]
  exact List.prefix_append _ _

theorem deltaLoop_lost (hcommit : Committing decode) (hnext : ¬ decode done <+: decode (done ++ [token])) :
    ¬ (deltaLoop decode (decode done) done (token :: ids)).1 <+: decode (done ++ token :: ids) := by
  rw [deltaLoop_cons]
  intro hpre
  have hjoin : done ++ token :: ids = done ++ [token] ++ ids := by simp
  refine hcommit done [token] hnext ids ?_
  rw [← hjoin]
  refine List.IsPrefix.trans ?_ (deltaLoop_extends.trans hpre)
  rw [← decodeDelta_extends]
  exact List.prefix_append _ _

theorem deltaLoop_iff_steady (hcommit : Committing decode) :
    (deltaLoop decode (decode done) done ids).1 <+: decode (done ++ ids) ↔ Steady decode done ids := by
  induction ids generalizing done with
  | nil =>
    simp only [deltaLoop,List.append_nil,Steady,List.nil_eq,List.append_eq_nil_iff]
    simp
  | cons token ids ih =>
    have hjoin : done ++ token :: ids = done ++ [token] ++ ids := by simp
    by_cases hnext : decode done <+: decode (done ++ [token])
    · rw [steady_cons hnext,deltaLoop_cons,decodeDelta_grows hnext,hjoin]
      exact ih
    · refine iff_of_false (deltaLoop_lost hcommit hnext) ?_
      intro h
      refine hcommit done [token] hnext ids ?_
      rw [← hjoin]
      simpa using h [] (token :: ids) rfl

theorem streamDeltas_iff_steady (hcommit : Committing decode) (hnil : decode [] = []) :
    (streamDeltas decode ids).flatten = decode ids ↔ Steady decode [] ids := by
  rw [streamDeltas_iff_begins,← deltaLoop_iff_steady hcommit,hnil,List.nil_append]

end Deltas

def Client.ahead (c : Client) : ℕ := c.queue.countP Option.isSome + if c.pc = .decode then 1 else 0

def ProducerPc.ahead : ProducerPc → ℕ
  | .appended _ => 1
  | _ => 0

namespace Stream
variable {decode : List Token → Text} {prev : Text} {done ids : List Token} {token : Token} {yielded : List Text}

/-- Between two tokens when the iterator keeps up with the worker. -/
def between (done : List Token) (prev : Text) (yielded : List Text) : Stream where
  outputIds := done
  client := { prev := prev, yielded := yielded }

def lag (s : Stream) : ℕ := s.producer.ahead + s.pending.countP Option.isSome + s.client.ahead

/-- The worker appends a token only when the iterator has taken the one before. -/
def KeepsUp : StreamEvent → Stream → Prop
  | .append _, s => s.lag = 0
  | _, _ => True

theorem token_keepsUp (decode : List Token → Text) (done : List Token) (prev : Text) (yielded : List Text)
    (token : Token) : Reaches (guarded KeepsUp (Stream.Step decode)) (between done prev yielded)
      (between (done ++ [token]) (decodeDelta decode (done ++ [token]) prev).1
        (yielded ++ [(decodeDelta decode (done ++ [token]) prev).2].filter (· ≠ []))) := by
  let appended : Stream := { between done prev yielded with producer := .appended token, outputIds := done ++ [token] }
  have happend : guarded KeepsUp (Stream.Step decode) (.append token) (between done prev yielded) appended := ⟨rfl,rfl⟩
  let acts : List StreamEvent := [.put,.runPut,.client .check,.client .get,.client .decode]
  have hplay : playAll (Stream.exec decode) acts appended =
      some (between (done ++ [token]) (decodeDelta decode (done ++ [token]) prev).1
        (yielded ++ [(decodeDelta decode (done ++ [token]) prev).2].filter (· ≠ []))) := by
    by_cases hempty : (decodeDelta decode (done ++ [token]) prev).2 = []
    all_goals simp [acts,appended,playAll,Stream.exec,between,Client.exec,Client.emit,hempty]
  have hacts : ∀ ev ∈ acts, ∀ s t, Stream.exec decode ev s = some t → guarded KeepsUp (Stream.Step decode) ev s t := by
    intro ev hev s t hst
    refine ⟨?_,hst⟩
    simp only [acts,List.mem_cons,List.not_mem_nil,or_false] at hev
    rcases hev with rfl | rfl | rfl | rfl | rfl
    all_goals exact trivial
  exact (Reaches.refl _).tail happend |>.trans ⟨acts,playAll_run hacts hplay⟩

theorem end_keepsUp (decode : List Token → Text) (done : List Token) (prev : Text) (yielded : List Text) :
    ∃ s, Reaches (guarded KeepsUp (Stream.Step decode)) (between done prev yielded) s ∧ s.client.pc = .done ∧
      s.outputIds = done ∧ s.client.yielded = yielded ++ [(decodeDelta decode done prev).2].filter (· ≠ []) := by
  let acts : List StreamEvent :=
    [.putEnd,.setFinished,.runPut,.client .check,.client .get,.client .decode]
  have hplay : ∃ s, playAll (Stream.exec decode) acts (between done prev yielded) = some s ∧ s.client.pc = .done ∧
      s.outputIds = done ∧ s.client.yielded = yielded ++ [(decodeDelta decode done prev).2].filter (· ≠ []) := by
    by_cases hempty : (decodeDelta decode done prev).2 = []
    all_goals simp [acts,playAll,Stream.exec,between,Client.exec,Client.emit,hempty]
  obtain ⟨s,hs,hobs⟩ := hplay
  have hacts : ∀ ev ∈ acts, ∀ s t, Stream.exec decode ev s = some t → guarded KeepsUp (Stream.Step decode) ev s t := by
    intro ev hev s t hst
    refine ⟨?_,hst⟩
    simp only [acts,List.mem_cons,List.not_mem_nil,or_false] at hev
    rcases hev with rfl | rfl | rfl | rfl | rfl | rfl
    all_goals exact trivial
  exact ⟨s,⟨acts,playAll_run hacts hs⟩,hobs⟩

theorem tokens_keepUp : Reaches (guarded KeepsUp (Stream.Step decode)) (between done prev yielded)
    (between (done ++ ids) (deltaLoop decode prev done ids).1
      (yielded ++ (deltaLoop decode prev done ids).2.filter (· ≠ []))) := by
  induction ids generalizing done prev yielded with
  | nil => simpa [deltaLoop] using Reaches.refl _
  | cons token ids ih =>
    rw [deltaLoop_cons]
    have hround := (token_keepsUp decode done prev yielded token).trans ih
    simpa only [List.append_assoc,List.singleton_append,← List.filter_append] using hround

theorem keepsUp_ends (decode : List Token → Text) (ids : List Token) :
    ∃ s, Reaches (guarded KeepsUp (Stream.Step decode)) {} s ∧ s.client.pc = .done ∧ s.outputIds = ids ∧
      s.client.yielded = (streamDeltas decode ids).filter (· ≠ []) := by
  have htokens : Reaches (guarded KeepsUp (Stream.Step decode)) (between [] [] []) (between ([] ++ ids) _ _) :=
    tokens_keepUp
  obtain ⟨s,hs,hpc,hout,hyielded⟩ := end_keepsUp decode ([] ++ ids) _ _
  refine ⟨s,htokens.trans hs,hpc,hout,hyielded.trans ?_⟩
  rw [List.nil_append,List.nil_append,← List.filter_append]
  rfl

end Stream

theorem streamDeltas_yielded (decode : List Token → Text) (ids : List Token) :
    ∃ s, Reaches (Stream.Step decode) {} s ∧ s.client.pc = .done ∧ s.outputIds = ids ∧
      s.client.yielded = (streamDeltas decode ids).filter (· ≠ []) := by
  obtain ⟨s,hs,hobs⟩ := Stream.keepsUp_ends decode ids
  exact ⟨s,hs.mono (fun _ _ _ hst => hst.2),hobs⟩

/-- A tokenizer that joins the bytes of the tokens, special ones left out, and
decodes them. -/
structure ByteTokenizer extends Tokenizer where
  bytes : Token → List UInt8
  special : Token → Bool
  decode_eq : ∀ ids, decode ids = utf8Lossy ((ids.filter (fun t => !special t)).flatMap bytes)

namespace ByteTokenizer
variable (tok : ByteTokenizer)

def byteString (ids : List Token) : List UInt8 := (ids.filter (fun t => !tok.special t)).flatMap tok.bytes

theorem byteString_append (xs ys : List Token) :
    tok.byteString (xs ++ ys) = tok.byteString xs ++ tok.byteString ys := by
  simp only [byteString,List.filter_append,List.flatMap_append]

/-- Some character other than U+FFFD begins in the bytes of the tokens before a
place and ends in those after it. -/
def SplitsCharacter (ids : List Token) : Prop :=
  ∃ xs ys, ids = xs ++ ys ∧ utf8.Splits replacementChar (tok.byteString xs) (tok.byteString ys)

theorem decode_prefix_iff (xs ys : List Token) : tok.decode xs <+: tok.decode (xs ++ ys) ↔
    ¬ utf8.Splits replacementChar (tok.byteString xs) (tok.byteString ys) := by
  rw [tok.decode_eq,tok.decode_eq]
  change utf8Lossy (tok.byteString xs) <+: utf8Lossy (tok.byteString (xs ++ ys)) ↔ _
  rw [byteString_append]
  exact PrefixCode.lossy_prefix_iff

theorem committing : Committing tok.decode := by
  intro xs ys hlost zs
  rw [tok.decode_prefix_iff,not_not] at hlost
  rw [tok.decode_eq,tok.decode_eq]
  change ¬ utf8Lossy (tok.byteString xs) <+: utf8Lossy (tok.byteString (xs ++ ys ++ zs))
  rw [byteString_append,byteString_append]
  exact hlost.part _

theorem steady_iff (ids : List Token) : Steady tok.decode [] ids ↔ ¬ tok.SplitsCharacter ids := by
  constructor
  · rintro h ⟨xs,ys,rfl,hsplit⟩
    exact (tok.decode_prefix_iff xs ys).mp (h xs ys rfl) hsplit
  · rintro h xs ys rfl
    exact (tok.decode_prefix_iff xs ys).mpr (fun hsplit => h ⟨xs,ys,rfl,hsplit⟩)

end ByteTokenizer

/-- The deltas of the tokens and the flush make up the text of the response exactly
when no token boundary lies inside a character other than U+FFFD. -/
theorem byte_stream_faithful_iff (tok : ByteTokenizer) (promptIds ids : List Token)
    (finishReason : FinishReason) (engine : String) :
    (streamDeltas tok.decode ids).flatten =
        (packResult tok.toTokenizer promptIds ids finishReason engine).text ↔
      ¬ tok.SplitsCharacter ids := by
  rw [← tok.steady_iff]
  refine streamDeltas_iff_steady tok.committing ?_
  rw [tok.decode_eq]
  rfl

/-- Two tokens, the two bytes of `é`. -/
def accentBytes : ByteTokenizer where
  decode := fun ids => utf8Lossy ((ids.filter (fun _ => true)).flatMap
    (fun t => if t = 0 then [0xC3] else [0xA9]))
  eosTokenId := []
  unkTokenId := none
  convertTokensToIds := none
  bytes := fun t => if t = 0 then [0xC3] else [0xA9]
  special := fun _ => false
  decode_eq := fun _ => rfl

theorem split_accent_garbled : streamDeltas accentBytes.decode [0,1] = [['\uFFFD'],['\uFFFD'],['\uFFFD']] ∧
    (packResult accentBytes.toTokenizer [] [0,1] .length "cached").text = ['é'] := by decide

end FluxEngine
