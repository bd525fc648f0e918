import FluxEngine.Engine.ModelCalls
import FluxEngine.Serving.LookupCounters
import FluxEngine.Serving.Pace
import FluxEngine.Serving.PrefixMoves
import FluxEngine.Serving.Sites

/-! # What prefills save and what the counters say

A hit is counted when it is looked up, and saves something when the prefill is
done.  In between the difference is outstanding; an allocation that fails, an end
before the prefill and a hit without logits lose it.
-/
namespace FluxEngine
open Transition
variable {P L : Type} {eng : CachedEngine P L} {s t : System P L} {i j : SeqId}

def Sequence.credit (seq : Sequence P L) : ℕ × ℕ := (if 0 < seq.prefixTokens then 1 else 0,seq.prefixTokens)

/-- The prefill starts from a copy of the stored cache. -/
def Sequence.ReusesPrefix (seq : Sequence P L) : Prop :=
  seq.prefixKv.isSome ∧ 0 < seq.prefixTokens ∧
    (seq.prefixLogits.isSome ∧ seq.promptTokenIds.length ≤ seq.prefixTokens ∨
      seq.promptTokenIds.drop seq.prefixTokens ≠ [])

instance (seq : Sequence P L) : Decidable seq.ReusesPrefix := inferInstanceAs (Decidable (_ ∧ _ ∧ _))

def Sequence.Wasted (seq : Sequence P L) : Prop :=
  0 < seq.prefixTokens ∧ seq.promptTokenIds.length ≤ seq.prefixTokens ∧ seq.prefixLogits = none

instance (seq : Sequence P L) : Decidable seq.Wasted := inferInstanceAs (Decidable (_ ∧ _ ∧ seq.prefixLogits = none))

def CachedEngine.passed (eng : CachedEngine P L) (seq : Sequence P L) : ℕ :=
  ((eng.reuseCall seq).toList.flatMap ModelCall.inputIds).flatten.length

/-- Whether the prefill reuses a prefix, and how many prompt tokens it does not pass. -/
def CachedEngine.saved (eng : CachedEngine P L) (seq : Sequence P L) : ℕ × ℕ :=
  (if seq.ReusesPrefix then 1 else 0,seq.promptTokenIds.length - eng.passed seq)

/-- The prefix fields belong to one prefix of the prompt, or to none. -/
structure Sequence.Backed (seq : Sequence P L) : Prop where
  unkeyed : seq.prefixKey = none → seq.prefixTokens = 0
  fits : seq.prefixTokens ≤ seq.promptTokenIds.length
  kv : 0 < seq.prefixTokens → seq.prefixKv.isSome

namespace CachedEngine
variable {seq : Sequence P L}

theorem passed_prefill (h : eng.reuseCall seq = some (prefillCall seq.promptTokenIds)) :
    eng.passed seq = seq.promptTokenIds.length := by
  simp [passed,h,prefillCall]

/-- A prefill saves what the sequence has been counted with, or nothing. -/
theorem saved_of_not_wasted (hb : seq.Backed) (h : ¬ seq.Wasted) : eng.saved seq = seq.credit := by
  by_cases hn : 0 < seq.prefixTokens
  · obtain ⟨kv,hkv⟩ := Option.isSome_iff_exists.mp (hb.kv hn)
    by_cases hlen : seq.promptTokenIds.length ≤ seq.prefixTokens
    · have hlogits : seq.prefixLogits ≠ none := fun hnone => h ⟨hn,hlen,hnone⟩
      obtain ⟨logits,hlogits⟩ := Option.ne_none_iff_exists'.mp hlogits
      have hcall : eng.reuseCall seq = none := eng.reuseCall_eq_none.mpr ⟨by simp [hkv],hn,by simp [hlogits],hlen⟩
      have hreuse : seq.ReusesPrefix := ⟨by simp [hkv],hn,Or.inl ⟨by simp [hlogits],hlen⟩⟩
      have heq := le_antisymm hb.fits hlen
      rw [saved,Sequence.credit,if_pos hreuse,if_pos hn,passed,hcall]
      simp [heq]
    · have hdrop : seq.promptTokenIds.drop seq.prefixTokens ≠ [] := by
        rw [ne_eq,List.drop_eq_nil_iff]
        exact hlen
      have hreuse : seq.ReusesPrefix := ⟨by simp [hkv],hn,Or.inr hdrop⟩
      have hcall : eng.reuseCall seq =
          some (eng.prefillFromPrefixCall (seq.promptTokenIds.drop seq.prefixTokens) (cloneCache kv)) := by
        unfold reuseCall
        simp only [hkv,if_pos hn,if_neg hdrop,if_neg hlen]
        cases seq.prefixLogits <;> rfl
      have hfits := hb.fits
      simp only [saved,Sequence.credit,passed,hcall,if_pos hreuse,if_pos hn,prefillFromPrefixCall,Option.toList_some,
        List.flatMap_cons,List.flatMap_nil,List.append_nil,List.flatten_cons,List.flatten_nil,List.length_drop]
      rw [Nat.sub_sub_self hfits]
  · have hzero : seq.prefixTokens = 0 := Nat.eq_zero_of_not_pos hn
    have hreuse : ¬ seq.ReusesPrefix := fun hr => hn hr.2.1
    have hcall : eng.reuseCall seq = some (prefillCall seq.promptTokenIds) := by
      unfold reuseCall
      cases seq.prefixKv with
      | none => rfl
      | some kv => simp only [if_neg hn]
    simp [saved,Sequence.credit,passed_prefill hcall,hreuse,hzero]

theorem saved_of_wasted (hb : seq.Backed) (h : seq.Wasted) : eng.saved seq = 0 ∧ 0 < seq.credit.1 := by
  obtain ⟨hn,hlen,hlogits⟩ := h
  obtain ⟨kv,hkv⟩ := Option.isSome_iff_exists.mp (hb.kv hn)
  have hdrop : seq.promptTokenIds.drop seq.prefixTokens = [] := List.drop_eq_nil_iff.mpr hlen
  have hcall : eng.reuseCall seq = some (prefillCall seq.promptTokenIds) := by
    unfold reuseCall
    simp only [hkv,hlogits,if_pos hn,if_pos hdrop]
  have hreuse : ¬ seq.ReusesPrefix := by
    rintro ⟨_,_,⟨hsome,_⟩ | hne⟩
    · rw [hlogits] at hsome
      cases hsome
    · exact hne hdrop
  constructor
  · simp [saved,passed_prefill hcall,hreuse]
  · simp [Sequence.credit,hn]

end CachedEngine

namespace System

def Prefilling (s : System P L) (i : SeqId) : Prop := s.Live i ∧ Unstarted (s.own i)

instance (s : System P L) (i : SeqId) : Decidable (s.Prefilling i) :=
  inferInstanceAs (Decidable (_ ∧ (s.heap i).outputIds = [] ∧ s.outbox i = none))

/-- What the sequence has been counted with and has not saved yet. -/
def unspent (s : System P L) (i : SeqId) : ℕ × ℕ := if s.Prefilling i then (s.heap i).credit else 0

def outstanding (s : System P L) : ℕ × ℕ := (s.accepted.map s.unspent).sum

theorem unspent_of_not_live (h : ¬ s.Live i) : s.unspent i = 0 := if_neg (fun hp => h hp.1)

theorem unspent_of_started (h : (s.heap i).outputIds ≠ [] ∨ s.outbox i ≠ none) : s.unspent i = 0 := by
  refine if_neg ?_
  rintro ⟨_,hout,hbox⟩
  exact h.elim (fun hne => hne hout) (fun hne => hne hbox)

theorem unspent_eq_of_started (hs : (s.heap i).outputIds ≠ [] ∨ s.outbox i ≠ none)
    (ht : (t.heap i).outputIds ≠ [] ∨ t.outbox i ≠ none) : t.unspent i = s.unspent i :=
  (unspent_of_started ht).trans (unspent_of_started hs).symm

theorem unspent_congr (hlive : t.Live i ↔ s.Live i) (hout : (t.heap i).outputIds = (s.heap i).outputIds)
    (hbox : t.outbox i = s.outbox i) (htok : (t.heap i).prefixTokens = (s.heap i).prefixTokens) :
    t.unspent i = s.unspent i := by
  have hiff : t.Prefilling i ↔ s.Prefilling i := by
    unfold Prefilling Unstarted own
    rw [hlive,hout,hbox]
  unfold unspent Sequence.credit
  rw [htok]
  exact if_congr hiff rfl rfl

theorem live_congr (hacc : t.accepted = s.accepted) (hwait : t.waiting = s.waiting)
    (hst : (t.heap i).status.terminal = (s.heap i).status.terminal) : t.Live i ↔ s.Live i := by
  unfold Live
  rw [hacc,hwait,hst]

theorem outstanding_congr (hacc : t.accepted = s.accepted) (h : ∀ j ∈ s.accepted, t.unspent j = s.unspent j) :
    t.outstanding = s.outstanding := by
  unfold outstanding
  rw [hacc,List.map_congr_left h]

theorem outstanding_change (hacc : t.accepted = s.accepted) (hnd : s.accepted.Nodup) (hi : i ∈ s.accepted)
    (h : ∀ j ∈ s.accepted, j ≠ i → t.unspent j = s.unspent j) :
    t.outstanding + s.unspent i = s.outstanding + t.unspent i := by
  unfold outstanding
  rw [hacc]
  exact Ledger.sum_change hnd hi h

end System

theorem Touches.unspent (h : Touches i s t) (hj : j ≠ i) : t.unspent j = s.unspent j := by
  have hheap : t.heap j = s.heap j := congrArg Prod.fst (h.off j hj)
  have hbox : t.outbox j = s.outbox j := congrArg Prod.snd (h.off j hj)
  refine System.unspent_congr (System.live_congr h.accepted h.waiting (by rw [hheap])) ?_ hbox ?_
  · rw [hheap]
  · rw [hheap]

/-- The step keeps the account but for a loss, and loses nothing exactly if it is
honest. -/
def Settles (saves : ℕ × ℕ) (honest : Prop) (s t : System P L) : Prop :=
  ∃ loss : ℕ × ℕ, t.scheduler.savings + s.outstanding = s.scheduler.savings + saves + t.outstanding + loss ∧
    (honest → loss = 0) ∧ (¬ honest → 0 < loss.1)

namespace Settles
variable {saves loss : ℕ × ℕ} {honest : Prop}

theorem quiet (hsav : t.scheduler.savings = s.scheduler.savings) (hout : t.outstanding = s.outstanding) :
    Settles 0 True s t := by
  refine ⟨0,?_,fun _ => rfl,fun h => absurd trivial h⟩
  rw [hsav,hout,add_zero,add_zero]

theorem of_change (hout : t.outstanding + s.unspent i = s.outstanding + t.unspent i)
    (heq : t.scheduler.savings + s.unspent i = s.scheduler.savings + saves + t.unspent i + loss)
    (h1 : honest → loss = 0) (h2 : ¬ honest → 0 < loss.1) : Settles saves honest s t := by
  refine ⟨loss,?_,h1,h2⟩
  simp only [Prod.ext_iff,Prod.fst_add,Prod.snd_add] at hout heq ⊢
  omega

theorem of_touches (h : Touches i s t) (hnd : s.accepted.Nodup) (hi : i ∈ s.accepted)
    (heq : t.scheduler.savings + s.unspent i = s.scheduler.savings + saves + t.unspent i + loss)
    (h1 : honest → loss = 0) (h2 : ¬ honest → 0 < loss.1) : Settles saves honest s t :=
  of_change (System.outstanding_change h.accepted hnd hi (fun _ _ hj => h.unspent hj)) heq h1 h2

theorem still (h : Touches i s t) (hsav : t.scheduler.savings = s.scheduler.savings) (hi : t.unspent i = s.unspent i) :
    Settles 0 True s t := by
  refine quiet hsav (System.outstanding_congr h.accepted ?_)
  intro j _
  by_cases hj : j = i
  · rw [hj,hi]
  · exact h.unspent hj

end Settles

variable [Inhabited P] [Inhabited L]

theorem Step.backed (hs : Reachable eng s) {ev : Event} (hst : Step eng ev s t)
    (h : ∀ i ∈ s.accepted, (s.heap i).status.terminal = false → (s.heap i).Backed) :
    ∀ i ∈ t.accepted, (t.heap i).status.terminal = false → (t.heap i).Backed := by
  intro i hi hopen
  have hr : Reaches (Step eng) s t := (Reaches.refl s).tail hst
  by_cases hold : i ∈ s.accepted
  · have hprompt : (t.heap i).promptTokenIds = (s.heap i).promptTokenIds := congrArg Prod.fst (hs.request_eq hr hold)
    have hopen' : (s.heap i).status.terminal = false := by
      by_contra hend
      rw [Bool.not_eq_false] at hend
      have hsame : (t.heap i).status = (s.heap i).status := congrArg (fun o => o.1.1) (hs.outcome_eq hr hold hend)
      rw [hsame,hend] at hopen
      cases hopen
    cases hst.prefixMove (books_of_reachable hs) hold with
    | keep huse hkey =>
      simp only [Sequence.prefixUse,Prod.mk.injEq] at huse
      obtain ⟨h1,h2,h3⟩ := h i hold hopen'
      refine ⟨?_,?_,?_⟩
      · rw [huse.1]
        exact fun hnone => h1 (hkey hnone)
      · rw [huse.1,hprompt]
        exact h2
      · rw [huse.1,huse.2.1]
        exact h3
    | drop hend _ =>
      rw [hend] at hopen
      cases hopen
    | take hit _ hpeek huse hkey =>
      obtain ⟨c,e,_,_,hhit⟩ := Scheduler.peekPrefix_eq_some hpeek
      simp only [Sequence.prefixUse,PrefixHit.use,Prod.mk.injEq] at huse
      refine ⟨fun hnone => absurd hnone hkey,?_,?_⟩
      · rw [huse.1,hprompt]
        exact hhit.atMost
      · rw [huse.2.1]
        exact fun _ => rfl
  · obtain ⟨prompt,sampling,heq⟩ := hst.fresh hi hold
    rw [heq]
    exact ⟨fun _ => rfl,Nat.zero_le _,fun h => absurd h (Nat.lt_irrefl 0)⟩

theorem Reachable.backed (h : Reachable eng s) (hi : s.Live i) : (s.heap i).Backed := by
  have hinv : Reachable eng s ∧ ∀ i ∈ s.accepted, (s.heap i).status.terminal = false → (s.heap i).Backed := by
    refine h.invariant (I := fun s => Reachable eng s ∧
      ∀ i ∈ s.accepted, (s.heap i).status.terminal = false → (s.heap i).Backed) ?_ ?_
    · intro s h0
      refine ⟨⟨s,h0,.refl s⟩,?_⟩
      rw [h0.accepted]
      simp
    · rintro ev s t ⟨⟨s₀,h0,hr⟩,hb⟩ hst
      exact ⟨⟨s₀,h0,hr.tail hst⟩,hst.backed ⟨s₀,h0,hr⟩ hb⟩
  exact hinv.2 i hi.1 hi.2.2

/-- Where no hit is lost: an admission gets the blocks of the hit and of the rest,
the prompt of a prefill is not stored without its logits, and a sequence that ends
during its prefill has no prefix. -/
def Event.Honest (s : System P L) : Event → Prop
  | .admission _ => ∀ i ∈ s.scheduler.candidate s.heap, s.scheduler.Affords (s.heap i)
  | .prefill i => ¬ (s.heap i).Wasted
  | .abort i => s.Prefilling i → (s.heap i).prefixTokens = 0
  | .fail i _ => s.Prefilling i → (s.heap i).prefixTokens = 0
  | _ => True

instance (s : System P L) (ev : Event) : Decidable (ev.Honest s) :=
  match ev with
  | .admission _ => inferInstanceAs (Decidable (∀ i ∈ s.scheduler.candidate s.heap, s.scheduler.Affords (s.heap i)))
  | .prefill i => inferInstanceAs (Decidable (¬ (s.heap i).Wasted))
  | .abort i => inferInstanceAs (Decidable (s.Prefilling i → (s.heap i).prefixTokens = 0))
  | .fail i _ => inferInstanceAs (Decidable (s.Prefilling i → (s.heap i).prefixTokens = 0))
  | .submit _ _ _ => .isTrue trivial
  | .requestAbort _ => .isTrue trivial
  | .adminAbort _ => .isTrue trivial
  | .requestStop => .isTrue trivial
  | .bookkeeping => .isTrue trivial
  | .setStatus _ _ => .isTrue trivial
  | .bind _ _ => .isTrue trivial
  | .store _ _ => .isTrue trivial
  | .decode _ => .isTrue trivial
  | .decodeBatch _ => .isTrue trivial
  | .note _ _ => .isTrue trivial
  | .finish _ _ => .isTrue trivial
  | .drain => .isTrue trivial

/-- What the event saves. -/
def Event.saves (eng : CachedEngine P L) (s : System P L) : Event → ℕ × ℕ
  | .prefill i => eng.saved (s.heap i)
  | _ => 0

section
omit [Inhabited P] [Inhabited L]

theorem settles_dequeue (hi : i ∈ s.waiting) {queue : RequestQueue} (hq : queue.waiting = s.waiting.erase i) :
    Settles 0 True s ((s.setQueue queue).abortOne i) := by
  have hwait : ((s.setQueue queue).abortOne i).waiting = s.waiting.erase i := System.terminate_waiting.trans hq
  refine .quiet (System.savings_terminate _) (System.outstanding_congr rfl ?_)
  intro j _
  by_cases hj : j = i
  · subst hj
    have hend : ¬ ((s.setQueue queue).abortOne j).Live j := by
      rintro ⟨_,_,hopen⟩
      rw [System.abortOne,System.ends_abort.terminated] at hopen
      cases hopen
    rw [System.unspent_of_not_live hend,System.unspent_of_not_live (fun hl => hl.2.1 hi)]
  · have hheap : ((s.setQueue queue).abortOne i).heap j = s.heap j := System.terminate_heap_of_ne hj
    refine System.unspent_congr ?_ (by rw [hheap]) rfl (by rw [hheap])
    unfold System.Live
    rw [hwait,List.mem_erase_of_ne hj,hheap]
    exact Iff.rfl

theorem settles_end (hb : s.Books False) (hi : s.Live i) {mark : Sequence P L → Sequence P L}
    (hm : System.Ends mark) : Settles 0 (s.Prefilling i → (s.heap i).prefixTokens = 0) s (s.terminate i mark) := by
  have hend : ¬ (s.terminate i mark).Live i := by
    rintro ⟨_,_,hopen⟩
    rw [hm.terminated] at hopen
    cases hopen
  have hsum : (s.terminate i mark).scheduler.savings + s.unspent i =
      s.scheduler.savings + 0 + (s.terminate i mark).unspent i + s.unspent i := by
    rw [System.savings_terminate,System.unspent_of_not_live hend,add_zero,add_zero]
  refine .of_touches (touches_terminate mark) hb.nodup hi.1 hsum ?_ ?_
  · intro hzero
    unfold System.unspent
    split
    · rename_i hp
      simp [Sequence.credit,hzero hp]
    · rfl
  · intro hlost
    rw [Classical.not_imp] at hlost
    rw [System.unspent,if_pos hlost.1]
    simp [Sequence.credit,Nat.pos_of_ne_zero hlost.2]

theorem settles_submit (prompt : List Token) (sampling : SamplingParams) (hi : i ∉ s.accepted) :
    Settles 0 True s (s.submit i prompt sampling) := by
  rcases s.submit_cases i prompt sampling with heq | ⟨queue,hq,heq⟩
  · rw [heq]
    exact .quiet rfl rfl
  · refine .quiet (by rw [heq]; rfl) ?_
    have hnew : (s.submit i prompt sampling).unspent i = 0 := by
      refine System.unspent_of_not_live ?_
      rintro ⟨_,hw,_⟩
      rw [heq] at hw
      exact hw (by simp [System.waiting,hq])
    have hold : ∀ j ∈ s.accepted, (s.submit i prompt sampling).unspent j = s.unspent j := by
      intro j hj
      have hne : j ≠ i := fun hji => hi (hji ▸ hj)
      have hheap : (s.submit i prompt sampling).heap j = s.heap j := by
        rw [heq]
        exact Function.update_of_ne hne _ _
      refine System.unspent_congr ?_ (by rw [hheap]) (by rw [heq]) (by rw [hheap])
      unfold System.Live
      rw [hheap,heq]
      simp [System.waiting,hq,hne]
    have hacc : (s.submit i prompt sampling).accepted = s.accepted ++ [i] := by rw [heq]
    unfold System.outstanding
    rw [hacc,List.map_append,List.sum_append,List.map_congr_left hold]
    simp [hnew]

theorem Scheduler.Granted.credit_eq {held : List Token → ℕ} {u v : Scheduler P L} {x y : Sequence P L}
    (h : Scheduler.Granted False held i u v x y) (hx : x.Pristine) : y.credit = u.credit x.promptTokenIds := by
  rcases h.bound with ⟨hpeek,hpart,_⟩ | ⟨hit,hpeek,hpart,_⟩
  · have htok : y.prefixTokens = x.prefixTokens := congrArg (fun p => p.2.1) hpart
    have hzero : x.prefixTokens = 0 := by rw [hx]
    rw [Scheduler.credit_of_none hpeek,Sequence.credit,htok,hzero]
    rfl
  · have htok : y.prefixTokens = hit.nTokens := congrArg (fun p => p.2.1) hpart
    obtain ⟨c,e,_,_,hhit⟩ := Scheduler.peekPrefix_eq_some hpeek
    have hpos : 0 < hit.nTokens := Nat.lt_of_lt_of_le c.minTokens_pos hhit.atLeast
    rw [Scheduler.credit_of_hit hpeek,Sequence.credit,htok,if_pos hpos]

theorem outstanding_granted (hb : s.Books False) (hiw : i ∈ s.waiting) (hbox : s.outbox i = none) {queue : RequestQueue}
    (hq : queue.waiting = s.waiting.erase i) {sch : Scheduler P L} {seq : Sequence P L}
    (hg : Scheduler.Granted False s.held i { s.scheduler with queue := queue } sch (s.heap i) seq)
    (ht : t = { s with scheduler := sch, heap := Function.update s.heap i seq }) :
    t.outstanding = s.outstanding + s.scheduler.credit (s.heap i).promptTokenIds := by
  obtain ⟨hacc,hpr⟩ := hb.waiting i hiw
  have hself : t.heap i = seq := by
    rw [ht]
    exact Function.update_self _ _ _
  have hwait : t.waiting = s.waiting.erase i := by
    rw [ht]
    exact (congrArg RequestQueue.waiting hg.queue).trans hq
  have hprefilling : t.Prefilling i := by
    refine ⟨⟨by rw [ht]; exact hacc,?_,?_⟩,?_,?_⟩
    · rw [hwait,hb.waiting_nodup.mem_erase_iff]
      exact fun hmem => hmem.1 rfl
    · rw [hself,Sequence.status_of_life hg.life,hpr.status]
      rfl
    · simp only [System.own,hself,Sequence.outputIds_of_life hg.life]
      exact hpr.outputIds
    · simp only [System.own,ht]
      exact hbox
  have hoff : ∀ j ∈ s.accepted, j ≠ i → t.unspent j = s.unspent j := by
    intro j _ hj
    have hheap : t.heap j = s.heap j := by
      rw [ht]
      exact Function.update_of_ne hj _ _
    refine System.unspent_congr ?_ (by rw [hheap]) (by rw [ht]) (by rw [hheap])
    unfold System.Live
    rw [hwait,List.mem_erase_of_ne hj,hheap,ht]
  have hchange := System.outstanding_change (by rw [ht]) hb.nodup hacc hoff
  rw [System.unspent_of_not_live (fun hl => hl.2.1 hiw),add_zero] at hchange
  rw [hchange,System.unspent,if_pos hprefilling,hself,hg.credit_eq hpr]
  rfl

theorem outstanding_refused (hiw : i ∈ s.waiting) {queue : RequestQueue} (hq : queue.waiting = s.waiting.erase i)
    {sch : Scheduler P L} (hr : Scheduler.Refused False s.held { s.scheduler with queue := queue } sch)
    (ht : t = { s with scheduler := { sch with queue := sch.queue.pushFront i } }) : t.outstanding = s.outstanding := by
  have hwait : t.waiting = i :: s.waiting.erase i := by
    rw [ht]
    exact congrArg (i :: ·) ((congrArg RequestQueue.waiting hr.queue).trans hq)
  have hheap : t.heap = s.heap := by rw [ht]
  refine System.outstanding_congr (by rw [ht]) ?_
  intro j _
  refine System.unspent_congr ?_ (by rw [hheap]) (by rw [ht]) (by rw [hheap])
  unfold System.Live
  rw [hwait,(List.perm_cons_erase hiw).symm.mem_iff,hheap,ht]

/-- A hit is credited to the sequence, or lost when the allocation fails. -/
theorem settles_admission (hb : s.Books False) (hbox : ∀ i ∈ s.waiting, s.outbox i = none) (now : ℕ) :
    Settles 0 (Event.Honest s (.admission now)) s (s.admitRound now) := by
  rcases s.admitRound_cases now with ⟨hnone,heq⟩ | ⟨i,queue,ok,sch,seq,hc,hq,htry,heq⟩
  · rw [heq]
    refine ⟨0,by simp,fun _ => rfl,fun h => absurd ?_ h⟩
    intro i hi
    rw [hnone] at hi
    cases hi
  have hiw : i ∈ s.waiting := Scheduler.candidate_mem hc
  have hhonest : Event.Honest s (.admission now) ↔ s.scheduler.Affords (s.heap i) := by
    constructor
    · exact fun h => h i hc
    · intro h j hj
      rw [hc] at hj
      cases hj
      exact h
  have hb' : Scheduler.Books False { s.scheduler with queue := queue } s.held :=
    hb.books.setPool rfl rfl (fun p hp => hb.books.balanced hp)
  have hid : ∀ p, s.scheduler.pool = some p → p.alloc.get? i = none := by
    intro p hp
    cases hg : p.alloc.get? i with
    | none => rfl
    | some ids => exact absurd hiw ((hb.owners p hp i).mp ⟨ids,hg⟩).2.1
  have hcount : (s.admitRound now).scheduler.savings =
      s.scheduler.savings + s.scheduler.credit (s.heap i).promptTokenIds := by
    have hsav := Scheduler.savings_tryAllocate hb'.keyed i (s.heap i) now
    rw [htry] at hsav
    rw [heq]
    cases ok <;> exact hsav
  have hroom : ∀ hit, s.scheduler.peekPrefix (s.heap i).promptTokenIds = some hit →
      (ok = true ↔ s.scheduler.Affords (s.heap i)) := by
    intro hit hpeek
    have hiff := Scheduler.tryAllocate_of_hit_iff hb'.keyed hpeek i now
    rw [htry] at hiff
    exact hiff
  have hmiss : s.scheduler.peekPrefix (s.heap i).promptTokenIds = none → s.scheduler.Affords (s.heap i) := by
    intro hnone p _ c hcache hit hpeek _ _
    have hsome : s.scheduler.peekPrefix (s.heap i).promptTokenIds = some hit := by
      rw [Scheduler.peekPrefix,Option.mem_def.mp hcache,Option.bind_some]
      exact hpeek
    rw [hsome] at hnone
    cases hnone
  rcases hb'.tryAllocate hid now False.elim with ⟨sch',seq',hres,hg⟩ | ⟨sch',hres,hr⟩
  · rw [htry] at hres
    cases hres
    have haffords : s.scheduler.Affords (s.heap i) := by
      cases hpeek : s.scheduler.peekPrefix (s.heap i).promptTokenIds with
      | none => exact hmiss hpeek
      | some hit => exact (hroom hit hpeek).mp rfl
    refine ⟨0,?_,fun _ => rfl,fun h => absurd (hhonest.mpr haffords) h⟩
    rw [hcount,outstanding_granted hb hiw (hbox i hiw) hq hg heq,add_zero,add_zero,add_right_comm,add_assoc]
  · rw [htry] at hres
    cases hres
    have hsame : (s.admitRound now).outstanding = s.outstanding := by
      refine outstanding_refused hiw hq hr ?_
      rw [heq,Function.update_eq_self]
      rfl
    refine ⟨s.scheduler.credit (s.heap i).promptTokenIds,?_,?_,?_⟩
    · rw [hcount,hsame,add_zero,add_right_comm]
    · intro h
      cases hpeek : s.scheduler.peekPrefix (s.heap i).promptTokenIds with
      | none => exact Scheduler.credit_of_none hpeek
      | some hit => cases (hroom hit hpeek).mpr (hhonest.mp h)
    · intro h
      cases hpeek : s.scheduler.peekPrefix (s.heap i).promptTokenIds with
      | none => exact absurd (hhonest.mpr (hmiss hpeek)) h
      | some hit =>
        rw [Scheduler.credit_of_hit hpeek]
        exact Nat.one_pos

theorem settles_modify {f : Sequence P L → Sequence P L} (hst : (f (s.heap i)).status.terminal = (s.heap i).status.terminal)
    (hout : (f (s.heap i)).outputIds = (s.heap i).outputIds)
    (htok : (f (s.heap i)).prefixTokens = (s.heap i).prefixTokens) : Settles 0 True s (s.modify i f) := by
  have hself : (s.modify i f).heap i = f (s.heap i) := Function.update_self _ _ _
  refine .still (touches_modify f) rfl (System.unspent_congr (System.live_congr rfl rfl ?_) ?_ rfl ?_)
  · rw [hself,hst]
  · rw [hself,hout]
  · rw [hself,htok]

/-- A sequence is bound and prefilled before it has logits or output. -/
def Event.Once (s : System P L) : Event → Prop
  | .bind i _ => Unstarted (s.own i)
  | .prefill i => s.outbox i = none
  | _ => True

instance (s : System P L) (ev : Event) : Decidable (ev.Once s) :=
  match ev with
  | .bind i _ => inferInstanceAs (Decidable ((s.heap i).outputIds = [] ∧ s.outbox i = none))
  | .prefill i => inferInstanceAs (Decidable (s.outbox i = none))
  | .submit _ _ _ => .isTrue trivial
  | .requestAbort _ => .isTrue trivial
  | .adminAbort _ => .isTrue trivial
  | .requestStop => .isTrue trivial
  | .admission _ => .isTrue trivial
  | .bookkeeping => .isTrue trivial
  | .setStatus _ _ => .isTrue trivial
  | .store _ _ => .isTrue trivial
  | .decode _ => .isTrue trivial
  | .decodeBatch _ => .isTrue trivial
  | .note _ _ => .isTrue trivial
  | .abort _ => .isTrue trivial
  | .fail _ _ => .isTrue trivial
  | .finish _ _ => .isTrue trivial
  | .drain => .isTrue trivial

/-- A late binding credits what it counts. -/
theorem settles_bind (hb : s.Books False) (hi : s.Live i) (hback : (s.heap i).Backed) (honce : Unstarted (s.own i))
    (now : ℕ) : Settles 0 True s (s.bindPrefixAtPrefill i now) := by
  by_cases hkey : (s.heap i).prefixKey = none
  · cases hpeek : s.scheduler.peekPrefix (s.heap i).promptTokenIds with
    | none =>
      rw [System.bind_of_miss hpeek]
      exact .quiet rfl rfl
    | some hit =>
      obtain ⟨hre,_⟩ := hb.bind hi now False.elim
      obtain ⟨c,e,_,_,hhit⟩ := Scheduler.peekPrefix_eq_some hpeek
      have hpos : 0 < hit.nTokens := Nat.lt_of_lt_of_le c.minTokens_pos hhit.atLeast
      have hbefore : s.unspent i = 0 := by
        rw [System.unspent,if_pos ⟨hi,honce⟩,Sequence.credit,hback.unkeyed hkey]
        rfl
      have hlive : (s.bindPrefixAtPrefill i now).Live i ↔ s.Live i := by
        refine System.live_congr hre.accepted (congrArg RequestQueue.waiting hre.queue) ?_
        rw [Sequence.status_of_life hre.life]
      have hout : ((s.bindPrefixAtPrefill i now).heap i).outputIds = (s.heap i).outputIds :=
        Sequence.outputIds_of_life hre.life
      have hafter : (s.bindPrefixAtPrefill i now).unspent i = (1,hit.nTokens) := by
        have hprefilling : (s.bindPrefixAtPrefill i now).Prefilling i := by
          refine ⟨hlive.mpr hi,?_,?_⟩
          · simp only [System.own,hout]
            exact honce.1
          · simp only [System.own,System.bindPrefixAtPrefill_outbox]
            exact honce.2
        rw [System.unspent,if_pos hprefilling,Sequence.credit,System.bind_prefixTokens hb.books.keyed hkey hpeek now,
          if_pos hpos]
      have hsum : (s.bindPrefixAtPrefill i now).scheduler.savings + s.unspent i =
          s.scheduler.savings + 0 + (s.bindPrefixAtPrefill i now).unspent i + 0 := by
        rw [System.savings_bind hb.books.keyed,if_pos hkey,Scheduler.credit_of_hit hpeek,hbefore,hafter]
        simp only [add_zero]
      exact .of_touches (touches_bind hb hi now) hb.nodup hi.1 hsum (fun _ => rfl) (fun h => absurd trivial h)
  · rw [System.bind_of_key hkey]
    exact .quiet rfl rfl

theorem settles_prefill (hb : s.Books False) (hi : s.Live i) (hback : (s.heap i).Backed)
    (honce : Unstarted (s.own i)) (r : L × KvCache P) :
    Settles (eng.saved (s.heap i)) (¬ (s.heap i).Wasted) s (s.putOutbox i r) := by
  have hbefore : s.unspent i = (s.heap i).credit := if_pos ⟨hi,honce⟩
  have hafter : (s.putOutbox i r).unspent i = 0 := by
    refine System.unspent_of_started (Or.inr ?_)
    simp [System.putOutbox]
  by_cases hw : (s.heap i).Wasted
  · obtain ⟨hnone,hpos⟩ := eng.saved_of_wasted hback hw
    have hsum : (s.putOutbox i r).scheduler.savings + s.unspent i =
        s.scheduler.savings + eng.saved (s.heap i) + (s.putOutbox i r).unspent i + (s.heap i).credit := by
      rw [hbefore,hafter,hnone,add_zero,add_zero]
      rfl
    exact .of_touches (touches_putOutbox r) hb.nodup hi.1 hsum (fun h => absurd hw h) (fun _ => hpos)
  · have hsum : (s.putOutbox i r).scheduler.savings + s.unspent i =
        s.scheduler.savings + eng.saved (s.heap i) + (s.putOutbox i r).unspent i + 0 := by
      rw [hbefore,hafter,eng.saved_of_not_wasted hback hw,add_zero,add_zero]
      rfl
    exact .of_touches (touches_putOutbox r) hb.nodup hi.1 hsum (fun _ => rfl) (fun h => absurd hw h)

end

omit [Inhabited P] [Inhabited L] in
theorem Event.once_of_inOrder {l : Label} {ev : Event} (h : ev.InOrder l s) : ev.Once s := by
  cases ev with
  | bind i now => exact h
  | prefill i => exact h
  | _ => trivial

/-- Every step settles. -/
theorem Step.settles {ev : Event} (hst : Step eng ev s t) (hs : Reachable eng s) (honce : ev.Once s) :
    Settles (ev.saves eng s) (ev.Honest s) s t := by
  have hb := books_of_reachable hs
  have htoken : ∀ i ∈ s.accepted, (s.heap i).lastToken ≠ none → (s.heap i).outputIds ≠ [] := by
    intro i hi hne hnil
    rw [(hs.paced hi).lastToken,hnil] at hne
    exact hne rfl
  cases hst with
  | submit prompt sampling hj => exact settles_submit prompt sampling hj
  | requestAbort j => exact settles_modify rfl rfl rfl
  | adminAbort j =>
    unfold System.adminAbort
    split
    · exact settles_dequeue ‹_› rfl
    · split
      · exact settles_modify rfl rfl rfl
      · exact .quiet rfl rfl
  | requestStop => exact .quiet rfl rfl
  | admission now => exact settles_admission hb (fun i hi => hs.outbox_of_waiting hi) now
  | bookkeeping stats inFlight total => exact .quiet rfl rfl
  | setStatus hj hstatus => exact settles_modify (hstatus.trans hj.2.2.symm) rfl rfl
  | bind now hj => exact settles_bind hb hj (hs.backed hj) honce now
  | prefill hj ho _ => exact settles_prefill hb hj (hs.backed hj) ⟨ho,honce⟩ _
  | @store _ j now hj ho =>
    obtain ⟨hre,hpart⟩ := hb.store hj now
    refine .still (touches_store hb hj now) (System.savings_storePrefix now) (System.unspent_congr ?_ ?_ ?_ ?_)
    · refine System.live_congr hre.accepted (congrArg RequestQueue.waiting hre.queue) ?_
      rw [Sequence.status_of_life hre.life]
    · exact Sequence.outputIds_of_life hre.life
    · rw [System.storePrefix_outbox]
    · rcases hpart with heq | ⟨htok,_,_⟩
      · rw [heq]
      · exact htok
  | @decode _ j token kv r hj htok _ _ =>
    have hout := htoken j hj.1 (by simp [htok])
    exact .still (touches_putOutbox _) rfl (System.unspent_eq_of_started (Or.inl hout) (Or.inl hout))
  | @decodeBatch _ live r hl _ =>
    refine .quiet rfl (System.outstanding_congr rfl ?_)
    intro j _
    by_cases hj : j ∈ live
    · obtain ⟨hlive,htok,_⟩ := hl j hj
      have hout := htoken j hlive.1 (by simpa [Option.isSome_iff_ne_none] using htok)
      exact System.unspent_eq_of_started (Or.inl hout) (Or.inl hout)
    · exact System.unspent_congr Iff.rfl rfl (if_neg hj) rfl
  | @note _ j logits kv rnd hj hf hbox =>
    refine .still (touches_recordToken _ _) rfl (System.unspent_eq_of_started (Or.inr (by simp [hbox])) (Or.inl ?_))
    simp [System.recordToken,System.modify,Sequence.noteToken_eq]
  | abort hj => exact settles_end hb hj System.ends_abort
  | fail e hj => exact settles_end hb hj (System.ends_fail e)
  | @finish _ j reason engineName hj hf =>
    have hout := (hs.paced hj.1).reason (by simp [hf])
    refine .still (touches_terminate _) (System.savings_terminate _) ?_
    rw [System.unspent_of_started (Or.inl hout),System.unspent_of_not_live]
    rintro ⟨_,_,hopen⟩
    rw [System.conclude,(System.ends_finish _).terminated] at hopen
    cases hopen
  | drain =>
    rcases s.drainOne_cases with ⟨_,heq⟩ | ⟨j,queue,hj,hq,heq⟩
    · rw [heq]
      exact .quiet rfl rfl
    · rw [heq]
      exact settles_dequeue hj hq

end FluxEngine
