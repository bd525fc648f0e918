import FluxEngine.Server.Deltas
import FluxEngine.Server.Routes

/-! # The two streaming paths

Without a worker the tokens of a finished result are streamed one by one, with
the same `decode_delta` and no flush after the last.
-/
namespace FluxEngine
open Transition

/-- `_stream_from_result`; the handler gives the chunks of the kind. -/
def streamFromResult (handler : StreamHandler) (decode : List Token → Text) (result : GenerateResult) : List SseEvent :=
  handler.opening.map .data ++
    ((deltaLoop decode [] [] result.outputTokenIds).2.filter (· ≠ [])).map (fun text => .data (handler.delta text)) ++
    [.data (handler.final result.finishReason (fluxExtra (some result))),.done]

def ChoiceBody.content : ChoiceBody → Text
  | .text chars => chars
  | .delta fields => (fields.lookup "content").getD []

def SseEvent.content : SseEvent → Text
  | .data payload => payload.body.content
  | .done => []

def content (events : List SseEvent) : Text := events.flatMap SseEvent.content

namespace StreamHandler

/-- A chunk carries the delta, the other chunks carry none. -/
structure Plain (handler : StreamHandler) : Prop where
  opening : ∀ chunk ∈ handler.opening, chunk.body.content = []
  delta : ∀ text, (handler.delta text).body.content = text
  final : ∀ reason extra, (handler.final reason extra).body.content = []

theorem plain_handler (endpoint : Endpoint) (requestId : String) (created : ℕ) :
    (endpoint.handler requestId created).Plain := by
  cases endpoint with
  | completions => exact ⟨by simp [Endpoint.handler,streamCompletion],fun _ => rfl,fun _ _ => rfl⟩
  | chat =>
    refine ⟨?_,fun _ => rfl,fun _ _ => rfl⟩
    intro chunk hchunk
    obtain rfl := List.mem_singleton.mp hchunk
    rfl

variable {handler : StreamHandler}

theorem Plain.content_deltas (h : handler.Plain) (deltas : List Text) :
    content (deltas.map (fun text => .data (handler.delta text))) = deltas.flatten := by
  induction deltas with
  | nil => rfl
  | cons text deltas ih =>
    have hhead : content (.data (handler.delta text) :: deltas.map (fun text => .data (handler.delta text))) =
        (handler.delta text).body.content ++ content (deltas.map (fun text => .data (handler.delta text))) := rfl
    rw [List.map_cons,hhead,h.delta,ih,List.flatten_cons]

theorem Plain.content_opening (h : handler.Plain) : content (handler.opening.map .data) = [] := by
  simp only [content,List.flatMap_eq_nil_iff]
  intro event hevent
  obtain ⟨chunk,hchunk,rfl⟩ := List.mem_map.mp hevent
  exact h.opening chunk hchunk

theorem Plain.content_closing {P L : Type} (h : handler.Plain) (seq : Sequence P L) :
    content (handler.closing seq) = [] := by
  by_cases hst : seq.status = .aborted
  · simp [closing,content,hst,SseEvent.content]
  · simp [closing,content,hst,SseEvent.content,h.final]

theorem Plain.content_sent {P L : Type} (h : handler.Plain) (deltas : List Text) (seq : Sequence P L) :
    content (handler.sent deltas (some (handler.closing seq))) = deltas.flatten := by
  have hclosing := h.content_closing seq
  have hopening := h.content_opening
  have hdeltas := h.content_deltas deltas
  unfold content at hclosing hopening hdeltas
  simp only [content,sent,List.flatMap_append,Option.getD_some,hopening,hdeltas,hclosing,List.nil_append,List.append_nil]

theorem Plain.content_streamFromResult (h : handler.Plain) (decode : List Token → Text) (result : GenerateResult) :
    content (streamFromResult handler decode result) = (deltaLoop decode [] [] result.outputTokenIds).2.flatten := by
  have hopening := h.content_opening
  have hdeltas := h.content_deltas ((deltaLoop decode [] [] result.outputTokenIds).2.filter (· ≠ []))
  rw [List.flatten_filter_ne_nil] at hdeltas
  unfold content at hopening hdeltas
  simp only [content,streamFromResult,List.flatMap_append,hopening,hdeltas]
  simp [SseEvent.content,h.final]

end StreamHandler

def loopText (decode : List Token → Text) (ids : List Token) : Text := (deltaLoop decode [] [] ids).1

section LoopText
variable {decode : List Token → Text} {prev : Text} {done ids rest : List Token} {token : Token}

theorem deltaLoop_append : (deltaLoop decode prev done (ids ++ rest)).1 =
    (deltaLoop decode (deltaLoop decode prev done ids).1 (done ++ ids) rest).1 := by
  induction ids generalizing prev done with
  | nil => simp [deltaLoop]
  | cons token ids ih =>
    rw [List.cons_append,deltaLoop_cons,deltaLoop_cons]
    simpa using @ih (decodeDelta decode (done ++ [token]) prev).1 (done ++ [token])

theorem loopText_nil : loopText decode [] = [] := rfl

theorem loopText_snoc (decode : List Token → Text) (ids : List Token) (token : Token) :
    loopText decode (ids ++ [token]) = (decodeDelta decode (ids ++ [token]) (loopText decode ids)).1 :=
  deltaLoop_append

theorem loop_flatten (decode : List Token → Text) (ids : List Token) :
    (deltaLoop decode [] [] ids).2.flatten = loopText decode ids := by
  have hloop : [] ++ (deltaLoop decode [] [] ids).2.flatten = (deltaLoop decode [] [] ids).1 := deltaLoop_flatten
  exact hloop

/-- The last token continues the text before it, or decodes to nothing by itself;
and no tokens decode to nothing. -/
def Resumes (decode : List Token → Text) (ids : List Token) : Prop :=
  (ids = [] → decode [] = []) ∧
  ∀ done last, ids = done ++ [last] → loopText decode done <+: decode ids ∨ decode [last] = []

theorem resumes_snoc : Resumes decode (done ++ [token]) ↔
    loopText decode done <+: decode (done ++ [token]) ∨ decode [token] = [] := by
  refine ⟨fun h => h.2 done token rfl,fun h => ⟨by simp,?_⟩⟩
  intro done' last heq
  obtain ⟨rfl,hlast⟩ := List.append_inj' heq rfl
  cases hlast
  exact h

theorem loopText_begins_snoc : loopText decode done <+: decode (done ++ [token]) ↔
    loopText decode (done ++ [token]) <+: decode (done ++ [token]) := by
  rw [loopText_snoc]
  constructor
  · intro h
    simp only [decodeDelta_grows h,List.prefix_rfl]
  · intro h
    rw [← decodeDelta_extends] at h
    exact (List.prefix_append _ _).trans h

theorem decodeDelta_falls (h : ¬ prev <+: decode (done ++ [token])) :
    decodeDelta decode (done ++ [token]) prev = (prev ++ decode [token],decode [token]) := by
  unfold decodeDelta
  rw [if_neg (by rwa [List.isPrefixOf_iff_prefix])]
  simp

theorem flush_silent_iff (decode : List Token → Text) (ids : List Token) :
    (decodeDelta decode ids (loopText decode ids)).1 = loopText decode ids ↔ Resumes decode ids := by
  rcases List.eq_nil_or_concat ids with rfl | ⟨done,last,rfl⟩
  · rw [loopText_nil,decodeDelta_grows List.nil_prefix]
    simp [Resumes]
  · rw [List.concat_eq_append,resumes_snoc,loopText_snoc]
    by_cases hpre : loopText decode done <+: decode (done ++ [last])
    · rw [decodeDelta_grows hpre,decodeDelta_grows List.prefix_rfl]
      simp [hpre]
    · have hstill : ¬ loopText decode done ++ decode [last] <+: decode (done ++ [last]) :=
        fun h => hpre ((List.prefix_append _ _).trans h)
      rw [decodeDelta_falls hpre,decodeDelta_falls hstill]
      simp [hpre]

end LoopText

section KeepsUp
variable {decode : List Token → Text} {ids : List Token} {c d : Client} {s t : Stream} {finished : Bool}

/-- An action of the iterator decodes, flushes, or gives no text. -/
theorem Client.exec_cases {ev : ClientEvent} (h : c.exec decode ids finished ev = some d) :
    (c.pc ≠ .done ∧ d.pc ≠ .done ∧ d.prev = c.prev ∧ d.yielded = c.yielded ∧ d.ahead = c.ahead) ∨
      (c.pc = .decode ∧ d = c.emit decode ids .check) ∨ (c.pc = .flush ∧ d = c.emit decode ids .done) := by
  cases ev with
  | check =>
    simp only [Client.exec,Option.ite_none_right_eq_some,Option.some.injEq] at h
    obtain ⟨hpc,rfl⟩ := h
    left
    refine ⟨by simp [hpc],?_,rfl,rfl,?_⟩
    · dsimp only
      split <;> simp
    · simp only [Client.ahead,hpc]
      split <;> simp
  | get =>
    simp only [Client.exec] at h
    split at h
    · rename_i hpc hq
      cases h
      exact Or.inl ⟨by simp [hpc],by simp,rfl,rfl,by simp [Client.ahead,hpc,hq]⟩
    · rename_i hpc hq
      cases h
      exact Or.inl ⟨by simp [hpc],by simp,rfl,rfl,by simp [Client.ahead,hpc,hq]⟩
    · cases h
  | timeout =>
    simp only [Client.exec,Option.ite_none_right_eq_some,Option.some.injEq] at h
    obtain ⟨hpc,rfl⟩ := h
    exact Or.inl ⟨by simp [hpc],by simp,rfl,rfl,by simp [Client.ahead,hpc]⟩
  | decode =>
    simp only [Client.exec] at h
    split at h
    · rename_i hpc
      cases h
      exact Or.inr (Or.inl ⟨hpc,rfl⟩)
    · rename_i hpc
      cases h
      exact Or.inr (Or.inr ⟨hpc,rfl⟩)
    · cases h

theorem Client.emit_prev (c : Client) (pc : ClientPc) :
    (c.emit decode ids pc).prev = (decodeDelta decode ids c.prev).1 := rfl

theorem Client.emit_yielded (c : Client) (pc : ClientPc) (h : c.yielded.flatten = c.prev) :
    (c.emit decode ids pc).yielded.flatten = (c.emit decode ids pc).prev := by
  rw [Client.emit_prev,← decodeDelta_extends decode ids c.prev]
  simp only [Client.emit]
  split
  · next hnil => rw [hnil,List.append_nil,h]
  · rw [List.flatten_append,List.flatten_singleton,h]

namespace Stream

/-- The iterator has the text of all tokens, or of all but the last; after the flush
it may have the last token's twice. -/
structure Tracks (decode : List Token → Text) (s : Stream) : Prop where
  text : s.client.yielded.flatten = s.client.prev
  close : s.lag ≤ 1
  even : s.client.pc ≠ .done → s.lag = 0 → s.client.prev = loopText decode s.outputIds
  behind : s.client.pc ≠ .done → s.lag = 1 →
    ∃ done last, s.outputIds = done ++ [last] ∧ s.client.prev = loopText decode done
  done : s.client.pc = .done → s.client.prev = loopText decode s.outputIds ∨
    s.client.prev = (decodeDelta decode s.outputIds (loopText decode s.outputIds)).1

theorem tracks_start : Tracks decode {} :=
  ⟨rfl,Nat.zero_le _,fun _ _ => rfl,by simp [lag,Client.ahead,ProducerPc.ahead],by simp⟩

theorem Tracks.congr (h : s.Tracks decode) (hids : t.outputIds = s.outputIds) (hlag : t.lag = s.lag)
    (hprev : t.client.prev = s.client.prev) (hyielded : t.client.yielded = s.client.yielded)
    (hdone : t.client.pc = .done ↔ s.client.pc = .done) : t.Tracks decode := by
  refine ⟨?_,?_,?_,?_,?_⟩
  · rw [hyielded,hprev]
    exact h.text
  · rw [hlag]
    exact h.close
  · rw [hlag,hprev,hids]
    exact fun hpc => h.even (fun hs => hpc (hdone.mpr hs))
  · rw [hlag,hprev,hids]
    exact fun hpc => h.behind (fun hs => hpc (hdone.mpr hs))
  · rw [hprev,hids]
    exact fun hpc => h.done (hdone.mp hpc)

theorem Tracks.decoded (h : s.Tracks decode) (hpc : s.client.pc = .decode) :
    Tracks decode { s with client := s.client.emit decode s.outputIds .check } := by
  have hclose := h.close
  have hone : s.lag = 1 := by
    simp only [lag,Client.ahead,hpc,if_true] at hclose ⊢
    omega
  have hzero : lag { s with client := s.client.emit decode s.outputIds .check } = 0 := by
    simp only [lag,Client.ahead,Client.emit,hpc,if_true] at hone ⊢
    simp only [reduceCtorEq,if_false]
    omega
  obtain ⟨done,last,hids,hprev⟩ := h.behind (by simp [hpc]) hone
  refine ⟨Client.emit_yielded _ _ h.text,by omega,?_,?_,?_⟩
  · intro _ _
    rw [Client.emit_prev,hprev,hids]
    exact (loopText_snoc decode done last).symm
  · intro _ hlag
    omega
  · intro hdone
    cases hdone

theorem Tracks.flushed (h : s.Tracks decode) (hpc : s.client.pc = .flush) :
    Tracks decode { s with client := s.client.emit decode s.outputIds .done } := by
  have hclose := h.close
  have hlag : lag { s with client := s.client.emit decode s.outputIds .done } = s.lag := by
    simp [lag,Client.ahead,Client.emit,hpc]
  refine ⟨Client.emit_yielded _ _ h.text,hlag.le.trans h.close,fun hne => absurd rfl hne,fun hne => absurd rfl hne,?_⟩
  intro _
  rw [Client.emit_prev]
  rcases Nat.le_one_iff_eq_zero_or_eq_one.mp hclose with hzero | hone
  · rw [h.even (by simp [hpc]) hzero]
    exact Or.inr rfl
  · obtain ⟨done,last,hids,hprev⟩ := h.behind (by simp [hpc]) hone
    left
    rw [hprev,hids]
    exact (loopText_snoc decode done last).symm

theorem Tracks.step {ev : StreamEvent} (h : s.Tracks decode) (htimely : s.Timely)
    (hst : guarded KeepsUp (Stream.Step decode) ev s t) : t.Tracks decode := by
  obtain ⟨hkeeps,hst⟩ := hst
  cases acts_of_step hst with
  | @append token hready =>
    have hzero : s.lag = 0 := hkeeps
    have hpc : s.client.pc ≠ .done := fun hdone => not_over hready (htimely.past (Or.inr hdone))
    have hlag : lag { s with producer := .appended token, outputIds := s.outputIds ++ [token] } = 1 := by
      simp only [lag,hready,ProducerPc.ahead] at hzero ⊢
      omega
    refine ⟨h.text,hlag.le,?_,?_,fun hdone => absurd hdone hpc⟩
    · intro _ hzero'
      omega
    · intro _ _
      exact ⟨s.outputIds,token,rfl,h.even hpc hzero⟩
  | put happ =>
    refine h.congr rfl ?_ rfl rfl Iff.rfl
    simp only [lag,happ,ProducerPc.ahead,List.countP_append,List.countP_singleton,Option.isSome_some,if_true]
    omega
  | putEnd hready =>
    refine h.congr rfl ?_ rfl rfl Iff.rfl
    simp [lag,hready,ProducerPc.ahead]
  | setFinished hended =>
    refine h.congr rfl ?_ rfl rfl Iff.rfl
    simp only [lag,hended,ProducerPc.ahead]
  | runPut hpending =>
    refine h.congr rfl ?_ rfl rfl Iff.rfl
    simp only [lag,Client.ahead,hpending,List.countP_append,List.countP_cons,List.countP_nil]
    omega
  | client hexec =>
    rcases Client.exec_cases hexec with ⟨hpc,hpc',hprev,hyielded,hahead⟩ | ⟨hpc,rfl⟩ | ⟨hpc,rfl⟩
    · exact h.congr rfl (by simp only [lag,hahead]) hprev hyielded (iff_of_false hpc' hpc)
    · exact h.decoded hpc
    · exact h.flushed hpc

theorem tracks_reaches (hr : Reaches (guarded KeepsUp (Stream.Step decode)) {} s) : s.Tracks decode := by
  have hinv : s.Timely ∧ s.Tracks decode := by
    refine hr.invariant (P := fun s => s.Timely ∧ s.Tracks decode) ⟨timely_start,tracks_start⟩ ?_
    rintro ev s t ⟨htimely,htracks⟩ hst
    exact ⟨htimely.step hst.2,htracks.step htimely hst⟩
  exact hinv.2

end Stream
end KeepsUp

/-- A worker that is kept up with and a result with the same tokens give streams of
the same content exactly when the last token resumes the text. -/
theorem two_streams_agree_iff {P L : Type} (decode : List Token → Text) (endpoint : Endpoint) (requestId : String)
    (created : ℕ) (seq : Sequence P L) (result : GenerateResult) :
    (∀ s, Reaches (guarded Stream.KeepsUp (Stream.Step decode)) {} s → s.client.pc = .done →
        s.outputIds = result.outputTokenIds →
      content ((endpoint.handler requestId created).sent s.client.yielded
          (some ((endpoint.handler requestId created).closing seq))) =
        content (streamFromResult (endpoint.handler requestId created) decode result)) ↔
      Resumes decode result.outputTokenIds := by
  have hplain := StreamHandler.plain_handler endpoint requestId created
  simp only [hplain.content_sent,hplain.content_streamFromResult,loop_flatten]
  rw [← flush_silent_iff]
  constructor
  · intro h
    obtain ⟨s,hs,hpc,hids,hyielded⟩ := Stream.keepsUp_ends decode result.outputTokenIds
    have hagree := h s hs hpc hids
    rw [hyielded,List.flatten_filter_ne_nil,streamDeltas_flatten] at hagree
    exact hagree
  · intro hsilent s hs hpc hids
    have htracks := Stream.tracks_reaches hs
    rw [htracks.text]
    rcases htracks.done hpc with hprev | hprev
    · rw [hprev,hids]
    · rw [hprev,hids,hsilent]

/-- The flush sends the second byte of the character again. -/
theorem not_two_streams_agree : ¬ ∀ (decode : List Token → Text) (endpoint : Endpoint) (requestId : String)
    (created : ℕ) (seq : Sequence Unit Unit) (result : GenerateResult) (s : Stream),
    Reaches (guarded Stream.KeepsUp (Stream.Step decode)) {} s → s.client.pc = .done →
      s.outputIds = result.outputTokenIds →
      content ((endpoint.handler requestId created).sent s.client.yielded
          (some ((endpoint.handler requestId created).closing seq))) =
        content (streamFromResult (endpoint.handler requestId created) decode result) := by
  intro h
  let result := packResult accentBytes.toTokenizer [] [0,1] .length "cached"
  let seq : Sequence Unit Unit := {}
  obtain ⟨s,hs,hpc,hids,hyielded⟩ := Stream.keepsUp_ends accentBytes.decode [0,1]
  have hagree := h accentBytes.decode .completions "cmpl" 0 seq result s hs hpc hids
  have hplain := StreamHandler.plain_handler .completions "cmpl" 0
  rw [hplain.content_sent,hplain.content_streamFromResult,hyielded] at hagree
  have hgarbled : ((streamDeltas accentBytes.decode [0,1]).filter (· ≠ [])).flatten ≠
      (deltaLoop accentBytes.decode [] [] result.outputTokenIds).2.flatten := by decide
  exact hgarbled hagree

theorem byte_resumes_iff (tok : ByteTokenizer) (ids : List Token) :
    Resumes tok.decode ids ↔ ¬ tok.SplitsCharacter ids ∨ ∃ done last, ids = done ++ [last] ∧ tok.decode [last] = [] := by
  have hnil : tok.decode [] = [] := by
    rw [tok.decode_eq]
    rfl
  have hsteady : loopText tok.decode ids <+: tok.decode ids ↔ ¬ tok.SplitsCharacter ids := by
    rw [← tok.steady_iff]
    have hloop : (deltaLoop tok.decode (tok.decode []) [] ids).1 <+: tok.decode ([] ++ ids) ↔ Steady tok.decode [] ids :=
      deltaLoop_iff_steady tok.committing
    rw [hnil] at hloop
    exact hloop
  rw [← hsteady]
  rcases List.eq_nil_or_concat ids with rfl | ⟨done,last,rfl⟩
  · simp [Resumes,hnil,loopText_nil]
  · rw [List.concat_eq_append,resumes_snoc,loopText_begins_snoc]
    refine or_congr_right ⟨fun hlast => ⟨done,last,rfl,hlast⟩,?_⟩
    rintro ⟨done',last',heq,hlast⟩
    obtain ⟨-,hsame⟩ := List.append_inj' heq rfl
    cases hsame
    exact hlast

end FluxEngine
