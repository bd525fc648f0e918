import FluxEngine.Lib.Transition
import FluxEngine.Server.Sse

/-! # Streamed text is the final text

For a decoder whose text only grows with its tokens, what has been yielded is
the text of some prefix of the output, and it is the whole text at the end.
-/
namespace FluxEngine
open Transition

def PrefixMonotone (decode : List Token → Text) : Prop := ∀ xs ys, decode xs <+: decode (xs ++ ys)

variable {decode : List Token → Text} {ids : List Token} {c d : Client} {s t : Stream} {finished : Bool}

theorem decodeDelta_grows {prev : Text} (h : prev <+: decode ids) :
    decodeDelta decode ids prev = (decode ids,(decode ids).drop prev.length) := by
  unfold decodeDelta
  rw [if_pos (List.isPrefixOf_iff_prefix.mpr h)]

namespace Client

/-- What an action of the iterator does. -/
inductive Acts (decode : List Token → Text) (ids : List Token) (finished : Bool) (c : Client) : Client → Prop
  | leave : finished = true → Acts decode ids finished c { c with pc := .flush }
  | wait : Acts decode ids finished c { c with pc := .getting }
  | last {rest : List (Option Token)} : c.queue = none :: rest →
      Acts decode ids finished c { c with pc := .flush, queue := rest }
  | item {token : Token} {rest : List (Option Token)} : c.queue = some token :: rest →
      Acts decode ids finished c { c with pc := .decode, queue := rest }
  | timeout : Acts decode ids finished c { c with pc := .check }
  | decode : Acts decode ids finished c (c.emit decode ids .check)
  | flush : c.pc = .flush → Acts decode ids finished c (c.emit decode ids .done)

theorem acts_of_exec {ev : ClientEvent} (h : c.exec decode ids finished ev = some d) : Acts decode ids finished c d := by
  cases ev with
  | check =>
    simp only [Client.exec,Option.ite_none_right_eq_some,Option.some.injEq] at h
    obtain ⟨_,rfl⟩ := h
    cases hc : finished && decide (c.queue = []) with
    | true => exact .leave (Bool.and_eq_true_iff.mp hc).1
    | false => exact .wait
  | get =>
    simp only [Client.exec] at h
    split at h
    · rename_i hq
      cases h
      exact .last hq
    · rename_i hq
      cases h
      exact .item hq
    · cases h
  | timeout =>
    simp only [Client.exec,Option.ite_none_right_eq_some,Option.some.injEq] at h
    obtain ⟨_,rfl⟩ := h
    exact .timeout
  | decode =>
    simp only [Client.exec] at h
    split at h
    · cases h
      exact .decode
    · rename_i hpc
      cases h
      exact .flush hpc
    · cases h

theorem exec_done {ev : ClientEvent} (h : c.pc = .done) : c.exec decode ids finished ev = none := by
  cases ev with
  | check => simp [exec,h]
  | get => simp [exec,h]
  | timeout => simp [exec,h]
  | decode => simp [exec,h]

/-- What has been yielded is the text so far, a prefix of the text of the output. -/
structure Faithful (decode : List Token → Text) (ids : List Token) (c : Client) : Prop where
  text : c.yielded.flatten = c.prev
  start : c.prev <+: decode ids
  done : c.pc = .done → c.prev = decode ids

theorem Faithful.emit (h : c.Faithful decode ids) (pc : ClientPc) : (c.emit decode ids pc).Faithful decode ids := by
  have hdelta := decodeDelta_grows h.start
  obtain ⟨rest,hrest⟩ := h.start
  have hdrop : (decode ids).drop c.prev.length = rest := by
    rw [← hrest,List.drop_left]
  simp only [Client.emit,hdelta,hdrop]
  refine ⟨?_,List.prefix_rfl,fun _ => rfl⟩
  by_cases hnil : rest = []
  · rw [if_pos hnil,h.text,← hrest,hnil,List.append_nil]
  · rw [if_neg hnil,List.flatten_append,h.text,← hrest]
    simp

theorem Faithful.acts (h : c.Faithful decode ids) (hst : Acts decode ids finished c d) : d.Faithful decode ids := by
  cases hst with
  | leave _ => exact ⟨h.text,h.start,by simp⟩
  | wait => exact ⟨h.text,h.start,by simp⟩
  | last _ => exact ⟨h.text,h.start,by simp⟩
  | item _ => exact ⟨h.text,h.start,by simp⟩
  | timeout => exact ⟨h.text,h.start,by simp⟩
  | decode => exact h.emit .check
  | flush _ => exact h.emit .done

def Past (c : Client) : Prop := c.pc = .flush ∨ c.pc = .done

theorem past_of_acts (hst : Acts decode ids finished c d) (hd : d.Past) : c.Past ∨ none ∈ c.queue ∨ finished = true := by
  cases hst with
  | leave hfin => exact Or.inr (Or.inr hfin)
  | wait => rcases hd with hd | hd <;> cases hd
  | last hq =>
    rw [hq]
    exact Or.inr (Or.inl List.mem_cons_self)
  | item _ => rcases hd with hd | hd <;> cases hd
  | timeout => rcases hd with hd | hd <;> cases hd
  | decode => rcases hd with hd | hd <;> cases hd
  | flush hpc => exact Or.inl (Or.inl hpc)

theorem queue_of_acts (hst : Acts decode ids finished c d) : d.queue ⊆ c.queue := by
  cases hst with
  | last hq =>
    rw [hq]
    exact List.subset_cons_self _ _
  | item hq =>
    rw [hq]
    exact List.subset_cons_self _ _
  | _ => exact fun _ => id

end Client

namespace Stream

/-- What a step does. -/
inductive Acts (decode : List Token → Text) (s : Stream) : StreamEvent → Stream → Prop
  | append {token : Token} : s.producer = .ready →
      Acts decode s (.append token) { s with producer := .appended token, outputIds := s.outputIds ++ [token] }
  | put {token : Token} : s.producer = .appended token →
      Acts decode s .put { s with producer := .ready, pending := s.pending ++ [some token] }
  | putEnd : s.producer = .ready → Acts decode s .putEnd { s with producer := .ended, pending := s.pending ++ [none] }
  | setFinished : s.producer = .ended → Acts decode s .setFinished { s with producer := .closed, finishedEvent := true }
  | runPut {item : Option Token} {rest : List (Option Token)} : s.pending = item :: rest →
      Acts decode s .runPut { s with pending := rest, client := { s.client with queue := s.client.queue ++ [item] } }
  | client {ev : ClientEvent} {c : Client} : s.client.exec decode s.outputIds s.finishedEvent ev = some c →
      Acts decode s (.client ev) { s with client := c }

theorem acts_of_step {ev : StreamEvent} (hst : Step decode ev s t) : s.Acts decode ev t := by
  unfold Step at hst
  cases ev with
  | append token =>
    simp only [exec,Option.ite_none_right_eq_some,Option.some.injEq] at hst
    obtain ⟨hready,rfl⟩ := hst
    exact .append hready
  | put =>
    simp only [exec] at hst
    split at hst
    · rename_i happ
      cases hst
      exact .put happ
    · cases hst
  | putEnd =>
    simp only [exec,Option.ite_none_right_eq_some,Option.some.injEq] at hst
    obtain ⟨hready,rfl⟩ := hst
    exact .putEnd hready
  | setFinished =>
    simp only [exec,Option.ite_none_right_eq_some,Option.some.injEq] at hst
    obtain ⟨hended,rfl⟩ := hst
    exact .setFinished hended
  | runPut =>
    simp only [exec] at hst
    split at hst
    · cases hst
    · rename_i hpending
      cases hst
      exact .runPut hpending
  | client ev =>
    simp only [exec,Option.map_eq_some_iff] at hst
    obtain ⟨c,hc,rfl⟩ := hst
    exact .client hc

def Over (s : Stream) : Prop := s.producer = .ended ∨ s.producer = .closed

theorem not_over (h : s.producer = .ready) : ¬s.Over := by simp [Over,h]

theorem not_over_of_appended {token : Token} (h : s.producer = .appended token) : ¬s.Over := by simp [Over,h]

theorem Over.step {ev : StreamEvent} (hs : s.Over) (hst : Step decode ev s t) :
    t.Over ∧ t.outputIds = s.outputIds := by
  cases acts_of_step hst with
  | append hready => exact absurd hs (not_over hready)
  | put happ => exact absurd hs (not_over_of_appended happ)
  | putEnd _ => exact ⟨Or.inl rfl,rfl⟩
  | setFinished _ => exact ⟨Or.inr rfl,rfl⟩
  | runPut _ => exact ⟨hs,rfl⟩
  | client _ => exact ⟨hs,rfl⟩

theorem Over.reaches (hs : s.Over) (hr : Reaches (Step decode) s t) : t.Over ∧ t.outputIds = s.outputIds := by
  refine hr.invariant (P := fun t => t.Over ∧ t.outputIds = s.outputIds) ⟨hs,rfl⟩ ?_
  intro ev t u ht hst
  obtain ⟨hu,heq⟩ := ht.1.step hst
  exact ⟨hu,heq.trans ht.2⟩

/-- The iterator leaves its loop only after the worker's last token. -/
structure Timely (s : Stream) : Prop where
  past : s.client.Past → s.Over
  marker : none ∈ s.pending ∨ none ∈ s.client.queue → s.Over
  event : s.finishedEvent = true → s.Over
  closed : s.producer = .closed → s.finishedEvent = true

theorem timely_start : Timely {} := by
  refine ⟨?_,by simp,by simp,by simp⟩
  rintro (h | h) <;> cases h

theorem Timely.step (hs : s.Timely) {ev : StreamEvent} (hst : Step decode ev s t) : t.Timely := by
  cases acts_of_step hst with
  | append hready =>
    refine ⟨?_,?_,?_,by simp⟩
    · exact fun hpast => absurd (hs.past hpast) (not_over hready)
    · exact fun hmarker => absurd (hs.marker hmarker) (not_over hready)
    · exact fun hevent => absurd (hs.event hevent) (not_over hready)
  | put happ =>
    have hnot := not_over_of_appended happ
    refine ⟨fun hpast => absurd (hs.past hpast) hnot,?_,fun hevent => absurd (hs.event hevent) hnot,by simp⟩
    intro hmarker
    simp only [List.mem_append,List.mem_singleton,reduceCtorEq,or_false] at hmarker
    exact absurd (hs.marker hmarker) hnot
  | putEnd _ => exact ⟨fun _ => Or.inl rfl,fun _ => Or.inl rfl,fun _ => Or.inl rfl,by simp⟩
  | setFinished _ => exact ⟨fun _ => Or.inr rfl,fun _ => Or.inr rfl,fun _ => Or.inr rfl,fun _ => rfl⟩
  | runPut hpending =>
    refine ⟨hs.past,?_,hs.event,hs.closed⟩
    intro hmarker
    apply hs.marker
    rw [hpending]
    simp only [List.mem_append,List.mem_singleton] at hmarker
    rcases hmarker with h | h | h
    · exact Or.inl (List.mem_cons_of_mem _ h)
    · exact Or.inr h
    · exact Or.inl (h ▸ List.mem_cons_self)
  | client hc =>
    have hacts := Client.acts_of_exec hc
    refine ⟨?_,?_,hs.event,hs.closed⟩
    · intro hpast
      rcases Client.past_of_acts hacts hpast with h | h | h
      · exact hs.past h
      · exact hs.marker (Or.inr h)
      · exact hs.event h
    · rintro (h | h)
      · exact hs.marker (Or.inl h)
      · exact hs.marker (Or.inr (Client.queue_of_acts hacts h))

theorem timely_reaches (hr : Reaches (Step decode) {} s) : s.Timely :=
  hr.invariant timely_start (fun _ _ _ ht hst => ht.step hst)

theorem faithful_step (hdecode : PrefixMonotone decode) (hs : s.Timely) (hc : s.client.Faithful decode s.outputIds)
    {ev : StreamEvent} (hst : Step decode ev s t) : t.client.Faithful decode t.outputIds := by
  cases acts_of_step hst with
  | append hready =>
    refine ⟨hc.text,hc.start.trans (hdecode _ _),?_⟩
    exact fun hpc => absurd (hs.past (Or.inr hpc)) (not_over hready)
  | put _ => exact hc
  | putEnd _ => exact hc
  | setFinished _ => exact hc
  | runPut _ => exact ⟨hc.text,hc.start,hc.done⟩
  | client hexec => exact hc.acts (Client.acts_of_exec hexec)

theorem faithful_reaches (hdecode : PrefixMonotone decode) (hr : Reaches (Step decode) {} s) :
    s.client.Faithful decode s.outputIds := by
  have hinv : s.Timely ∧ s.client.Faithful decode s.outputIds := by
    refine hr.invariant (P := fun s => s.Timely ∧ s.client.Faithful decode s.outputIds)
      ⟨timely_start,rfl,List.nil_prefix,by simp⟩ ?_
    rintro ev s t ⟨hs,hc⟩ hst
    exact ⟨hs.step hst,faithful_step hdecode hs hc hst⟩
  exact hinv.2

theorem reaches_client (ev : ClientEvent) (h : s.client.exec decode s.outputIds s.finishedEvent ev = some d) :
    Reaches (Step decode) s { s with client := d } := by
  have hst : Step decode (.client ev) s { s with client := d } := by
    simp only [Step,exec,h,Option.map_some]
  exact (Reaches.refl s).tail hst

def Ends (decode : List Token → Text) (s : Stream) : Prop :=
  ∃ c : Client, c.pc = .done ∧ Reaches (Step decode) s { s with client := c }

theorem Ends.of_client (ev : ClientEvent) (h : s.client.exec decode s.outputIds s.finishedEvent ev = some d)
    (hends : Ends decode { s with client := d }) : Ends decode s := by
  obtain ⟨c,hc,hr⟩ := hends
  exact ⟨c,hc,(reaches_client ev h).trans hr⟩

theorem ends_flush (h : s.client.pc = .flush) : Ends decode s := by
  refine ⟨s.client.emit decode s.outputIds .done,rfl,reaches_client .decode ?_⟩
  simp only [Client.exec,h]

/-- Once the event is set, the iterator works off the queue and ends. -/
theorem ends_check (hevent : s.finishedEvent = true) (h : s.client.pc = .check) : Ends decode s := by
  obtain ⟨queue,hq⟩ : ∃ queue, s.client.queue = queue := ⟨_,rfl⟩
  induction queue generalizing s with
  | nil =>
    apply Ends.of_client .check
    · simp only [Client.exec,h,hevent,hq]
      rfl
    · exact ends_flush rfl
  | cons item rest ih =>
    apply Ends.of_client .check
    · simp only [Client.exec,h,hevent,hq]
      rfl
    · cases item with
      | none =>
        apply Ends.of_client .get
        · simp only [Client.exec]
          rfl
        · exact ends_flush rfl
      | some token =>
        apply Ends.of_client .get
        · simp only [Client.exec]
          rfl
        · apply Ends.of_client .decode
          · simp only [Client.exec]
            rfl
          · exact ih hevent rfl rfl

theorem ends_of_finished (hevent : s.finishedEvent = true) : Ends decode s := by
  cases hpc : s.client.pc with
  | check => exact ends_check hevent hpc
  | getting =>
    apply Ends.of_client .timeout
    · simp only [Client.exec,hpc]
      rfl
    · exact ends_check hevent rfl
  | decode =>
    apply Ends.of_client .decode
    · simp only [Client.exec,hpc]
      rfl
    · exact ends_check hevent rfl
  | flush => exact ends_flush hpc
  | done => exact ⟨s.client,hpc,.refl s⟩

end Stream

/-- In every run of worker, event loop and iterator, the yielded deltas make up a
prefix of the text of the output; at the end of the iterator they are the text of
the output, to which nothing is added any more; and once the event is set the
iterator can end. -/
theorem streamed_text (hdecode : PrefixMonotone decode) (hr : Reaches (Stream.Step decode) {} s) :
    s.client.yielded.flatten <+: decode s.outputIds ∧
    (s.client.pc = .done → s.client.yielded.flatten = decode s.outputIds ∧
      ∀ t, Reaches (Stream.Step decode) s t → t.outputIds = s.outputIds) ∧
    (s.finishedEvent = true → s.Ends decode) := by
  have hc := Stream.faithful_reaches hdecode hr
  refine ⟨?_,?_,Stream.ends_of_finished⟩
  · rw [hc.text]
    exact hc.start
  · intro hdone
    refine ⟨hc.text.trans (hc.done hdone),?_⟩
    intro t hst
    exact (((Stream.timely_reaches hr).past (Or.inr hdone)).reaches hst).2

/-- Two tokens, of which the queue has passed on one when the event is set. -/
def outrunQueue : List StreamEvent :=
  [.append 97,.put,.append 98,.put,.putEnd,.runPut,.client .check,.client .get,.client .decode,.setFinished,
    .client .check,.client .decode]

theorem streamed_text_outrun : ∃ s : Stream, Reaches (Stream.Step (List.map Char.ofNat)) {} s ∧
    s.pending = [some 98,none] ∧ s.client.pc = .done ∧ s.outputIds = [97,98] ∧
      s.client.yielded.flatten = ['a','b'] := by
  have hobs : (playAll (Stream.exec (List.map Char.ofNat)) outrunQueue {}).map
      (fun s => (s.pending,s.client.pc,s.outputIds)) = some ([some 98,none],.done,[97,98]) := by decide
  obtain ⟨s,hs,hobs⟩ := Option.map_eq_some_iff.mp hobs
  simp only [Prod.mk.injEq] at hobs
  obtain ⟨hpending,hpc,hout⟩ := hobs
  have hr : Reaches (Stream.Step (List.map Char.ofNat)) {} s := ⟨_,playAll_run (fun _ _ _ _ hst => hst) hs⟩
  have hmono : PrefixMonotone (List.map Char.ofNat) := by
    intro xs ys
    rw [List.map_append]
    exact List.prefix_append _ _
  obtain ⟨htext,_⟩ := (streamed_text hmono hr).2.1 hpc
  rw [hout] at htext
  exact ⟨s,hr,hpending,hpc,hout,htext⟩

end FluxEngine
