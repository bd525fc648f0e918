import FluxEngine.Serving.Intake
import FluxEngine.Serving.Leftovers
import FluxEngine.Serving.WorkerParts

/-! # A round of the queued worker

The worker holds one sequence at a time and runs it to its end.  The loop over
its tokens has a round for each of the `max_tokens`; the token that reaches the
limit sets a finish reason, so that the rounds are enough.
-/
namespace FluxEngine
open Transition Interleaving Function
variable {P L : Type} {eng : CachedEngine P L} {may : Site → Bool}
variable {s t : System P L} {i : SeqId} {ids run : List SeqId} {k : ℕ} {stop : List Token}
variable {Φ : SeqId → Own P L → Prop} {E : Exc → System P L → Prop}

/-- In the loop over the tokens, with `k` rounds left. -/
structure Turn (k : ℕ) (own : Own P L) : Prop where
  status : own.1.status = .decoding
  lastToken : own.1.lastToken.isSome
  kvCache : own.1.kvCache.isSome
  short : own.1.finishReason = none → own.1.outputIds.length < own.1.sampling.maxTokens
  length : own.1.outputIds.length ≤ own.1.sampling.maxTokens
  rounds : own.1.sampling.maxTokens < k + own.1.outputIds.length

theorem patient_turn : Patient (Turn (P := P) (L := L) k) :=
  fun _ _ h => ⟨h.status,h.lastToken,h.kvCache,h.short,h.length,h.rounds⟩

theorem Turn.isOpen {own : Own P L} (h : Turn k own) : Open own := open_of_status h.status rfl

theorem not_turn_zero {own : Own P L} : ¬Turn 0 own := by
  intro h
  have hlen := h.length
  have hrounds := h.rounds
  omega

/-- At a turn that generates token number `m`. -/
def OnTurn (k m : ℕ) (own : Own P L) : Prop :=
  Turn (k + 1) own ∧ own.1.finishReason = none ∧ own.1.outputIds.length = m

theorem patient_onTurn {m : ℕ} : Patient (OnTurn (P := P) (L := L) k m) :=
  fun x box h => ⟨patient_turn x box h.1,h.2⟩

theorem turn_of_noted {m : ℕ} {own : Own P L} {x : SamplingParams} (h : Noted m .decoding own) (hx : own.1.sampling = x)
    (hlen : m + 1 ≤ x.maxTokens) (hrounds : x.maxTokens < k + (m + 1)) : Turn k own := by
  have hlength := h.length
  refine ⟨h.status,h.lastToken,h.kvCache,?_,?_,?_⟩
  · intro hnone
    rw [hlength]
    exact h.short hnone
  · rw [hlength,hx]
    exact hlen
  · rw [hlength,hx]
    exact hrounds

/-- The queued worker between two rounds: nobody is admitted and still open. -/
def Vacant (s : System P L) : Prop := Crew none [] [] (fun _ => Ended) s

theorem Crew.vacant (h : Crew none ids [] (fun _ => Ended) s) : Vacant s := by
  refine ⟨h.flight,h.running,List.nodup_nil,by simp,?_,by simp⟩
  intro i hi
  have hend : (s.heap i).status.terminal = true := h.own i (h.complete i hi)
  rw [hi.2.2] at hend
  cases hend

namespace Worker
variable [Inhabited P] [Inhabited L]

theorem safe_sampling {α : Type} {p : Thread P L α} {Q : α → System P L → Prop} {x : SamplingParams}
    (h : p.Safe (serving eng may) Q E s) (hi : i ∈ s.accepted) (hx : (s.heap i).sampling = x) :
    p.Safe (serving eng may) (fun a t => Q a t ∧ i ∈ t.accepted ∧ (t.heap i).sampling = x) E s := by
  have hkeep : ∀ t u, Reachable eng t → Reaches (Step eng) t u → i ∈ t.accepted ∧ (t.heap i).sampling = x →
      i ∈ u.accepted ∧ (u.heap i).sampling = x :=
    fun t u ht hr hit => ⟨ht.accepted_run hr hit.1,(congrArg Prod.snd (ht.request_eq hr hit.1)).trans hit.2⟩
  refine (h.frame (I := fun t => i ∈ t.accepted ∧ (t.heap i).sampling = x) ⟨hi,hx⟩ ?_ ?_).mono (fun _ _ => id)
    (fun _ _ ht => ht.1)
  · rintro t u ⟨ht,ev,_,hst⟩ hit
    exact hkeep t u ht ((Reaches.refl t).tail hst) hit
  · rintro l w t u ht hit ⟨hr,_⟩
    exact hkeep t u ht (Orderly.reaches hr) hit

theorem safe_decodeCall {m : ℕ} (hΦ : ∀ i, Patient (Φ i)) (hi : i ∈ ids)
    (h : Crew none ids run (update Φ i (fun own => OnTurn k m own ∧ Stops eng stop own)) s)
    (hraise : ∀ t e, Crew (some ([i],e)) ids run (update Φ i Open) t → E e t) :
    (decodeCall eng i).Safe (serving eng may)
      (fun _ t => Crew none ids run (update Φ i (fun own => Boxed m .decoding own ∧ Stops eng stop own)) t) E s := by
  have hpat : Patient (fun own : Own P L => OnTurn k m own ∧ Stops eng stop own) := patient_onTurn.and patient_stops
  have hopen : ∀ own : Own P L, OnTurn k m own ∧ Stops eng stop own → Open own := fun own hown => hown.1.1.isOpen
  have hcall : (call .queuedDecode [i]
      (fun _ s => eng.decode ((s.heap i).lastToken.getD 0) ((s.heap i).kvCache.getD (.legacy [])))
      (fun r s => s.putOutbox i r)).Safe (serving eng may)
      (fun _ t => Crew none ids run (update Φ i (fun own => Boxed m .decoding own ∧ Stops eng stop own)) t) E s := by
    refine safe_call (patient_update hΦ hpat i) h (List.nodup_singleton i) ?_ ?_ (Or.inl rfl) ?_ ?_
    · intro j hj
      rw [List.mem_singleton] at hj
      subst hj
      rw [update_self]
      exact ⟨hi,hopen⟩
    · intro _ j hj own hown
      rw [List.mem_singleton.mp hj,update_self] at hown
      exact ⟨hown.1.1.lastToken,hown.1.1.kvCache⟩
    · intro u w r _ hu hr
      obtain ⟨⟨hturn,hnone,hlen⟩,hstops⟩ := hu.own_self hi
      obtain ⟨token,htoken⟩ := Option.isSome_iff_exists.mp hturn.lastToken
      obtain ⟨kv,hkv⟩ := Option.isSome_iff_exists.mp hturn.kvCache
      have htoken : (u.heap i).lastToken = some token := htoken
      have hkv : (u.heap i).kvCache = some kv := hkv
      have hlive := hu.live hi hturn.isOpen
      have hnext := hu.touch hi (touches_putOutbox r)
        (φ := fun own => Boxed m .decoding own ∧ Stops eng stop own)
        ⟨⟨hturn.status,hlen,hnone,by simp [System.own,System.putOutbox]⟩,hstops⟩
      rw [update_idem] at hnext
      simp only [htoken,hkv,Option.getD_some] at hr
      exact ⟨(Reaches.refl u).tail ⟨.decode hlive htoken hkv hr,trivial⟩,hnext.flight,hnext⟩
    · intro u e _ hu
      exact hraise u e (hu.learn (hopen _))
  exact hcall.bind (fun _ _ ht => ht)

/-- `while not seq.finish_reason`: the sequence ends before the rounds do. -/
theorem safe_decodeWhile (hΦ : ∀ i, Patient (Φ i)) (hi : i ∈ ids)
    (h : Crew none ids run (update Φ i (fun own => Turn k own ∧ Stops eng stop own)) s) :
    (decodeWhile eng i stop k).Safe (serving eng may) (fun _ t => Crew none ids run (update Φ i Ended) t)
      (fun e t => Crew (some ([i],e)) ids run (update Φ i Open) t) s := by
  induction k generalizing s with
  | zero => exact absurd (h.own_self hi).1 not_turn_zero
  | succ k ih =>
    have hpat : Patient (fun own : Own P L => Turn (k + 1) own ∧ Stops eng stop own) := patient_turn.and patient_stops
    have hopen : ∀ own : Own P L, Turn (k + 1) own ∧ Stops eng stop own → Open own := fun _ hown => hown.1.isOpen
    unfold decodeWhile
    refine (safe_look _ (patient_update hΦ hpat i) h).bind ?_
    rintro finished s ⟨h,hfin⟩
    split
    · rename_i hf
      have h' := h.learn (ψ := fun own => Open own ∧ own.1.finishReason.isSome)
        (fun hown => ⟨hopen _ hown,hfin.symm.trans hf⟩)
      exact safe_finishSequence rfl "queued" hΦ (fun _ _ hown => hown) h' hi (fun _ hown => hown.1)
        (fun _ hown => hown.2) (fun _ _ _ => id)
    · rename_i hf
      have hnone : (s.own i).1.finishReason = none := by
        rw [hfin] at hf
        simpa [System.own] using hf
      have h' := h.learn (ψ := fun own => OnTurn k (s.heap i).outputIds.length own ∧ Stops eng stop own)
        (fun hown => ⟨⟨hown.1,hnone,rfl⟩,hown.2⟩)
      obtain ⟨x,hx⟩ : ∃ x, (s.heap i).sampling = x := ⟨_,rfl⟩
      obtain ⟨m,hm⟩ : ∃ m, (s.heap i).outputIds.length = m := ⟨_,rfl⟩
      have hturn : Turn (k + 1) (s.own i) := (h.own_self hi).1
      have hshort : m + 1 ≤ x.maxTokens := by
        rw [← hx,← hm]
        exact hturn.short hnone
      have hrounds : x.maxTokens < k + (m + 1) := by
        have hr : (s.heap i).sampling.maxTokens < k + 1 + (s.heap i).outputIds.length := hturn.rounds
        rw [hx,hm] at hr
        omega
      rw [hm] at h'
      have hacc := (h.admitted i hi).1
      have hpat' : Patient (fun own : Own P L => OnTurn k m own ∧ Stops eng stop own) :=
        patient_onTurn.and patient_stops
      refine (safe_sampling (safe_look _ (patient_update hΦ hpat' i) h') hacc hx).bind ?_
      rintro aborting s ⟨⟨h,_⟩,hacc,hx⟩
      split
      · exact safe_abortOne hΦ hpat' h hi (fun _ hown => hown.1.1.isOpen)
      · refine (safe_sampling (safe_decodeCall hΦ hi h (fun _ _ => id)) hacc hx).bind ?_
        rintro _ s ⟨h,hacc,hx⟩
        refine (safe_sampling (safe_sample rfl rfl hΦ h hi (fun _ _ _ => id)) hacc hx).bind ?_
        rintro token s ⟨h,hacc,hx⟩
        refine (safe_sampling (safe_recordToken rfl hΦ h hi) hacc hx).bind ?_
        rintro _ s ⟨h,_,hx⟩
        exact ih (h.learn (fun hown => ⟨turn_of_noted hown.1 hx hshort hrounds,hown.2⟩))

/-- `_run_one`. -/
theorem safe_runOne (hΦ : ∀ i, Patient (Φ i)) (hi : i ∈ ids) (h : Crew none ids run (update Φ i (Primed .decoding)) s) :
    (runOne eng i).Safe (serving eng may) (fun _ t => Crew none ids run (update Φ i Ended) t)
      (fun e t => Crew (some ([i],e)) ids run (update Φ i Open) t) s := by
  have hopen : ∀ own : Own P L, Primed .decoding own → Open own := fun own hown => open_of_status hown.status rfl
  unfold runOne
  refine (safe_stopIds rfl hΦ patient_primed h hi hopen (fun _ _ _ ht => ht.learn (hopen _))).bind ?_
  intro stop s h
  refine (safe_prefill rfl rfl rfl hΦ h hi (fun _ _ => id)).bind ?_
  intro _ s h
  refine (safe_sample rfl rfl hΦ h hi (fun _ _ _ => id)).bind ?_
  intro token s h
  refine (safe_recordToken rfl hΦ h hi).bind ?_
  intro _ s h
  have hnoted : Patient (fun own : Own P L => Noted 0 .decoding own ∧ Stops eng stop own) :=
    patient_noted.and patient_stops
  have hopen' : ∀ own : Own P L, Noted 0 .decoding own ∧ Stops eng stop own → Open own :=
    fun own hown => open_of_status hown.1.status rfl
  refine (safe_look _ (patient_update hΦ hnoted i) h).bind ?_
  rintro aborting s ⟨h,_⟩
  split
  · exact safe_abortOne hΦ hnoted h hi hopen'
  · refine (safe_look _ (patient_update hΦ hnoted i) h).bind ?_
    rintro finished s ⟨h,hfin⟩
    split
    · rename_i hf
      have h' := h.learn (ψ := fun own => Open own ∧ own.1.finishReason.isSome)
        (fun hown => ⟨hopen' _ hown,hfin.symm.trans hf⟩)
      exact safe_finishSequence rfl "queued" hΦ (fun _ _ hown => hown) h' hi (fun _ hown => hown.1)
        (fun _ hown => hown.2) (fun _ _ _ => id)
    · rename_i hf
      have hnone : (s.own i).1.finishReason = none := by
        rw [hfin] at hf
        simpa [System.own] using hf
      have h' := h.learn (ψ := fun own => (Noted 0 .decoding own ∧ own.1.finishReason = none) ∧ Stops eng stop own)
        (fun hown => ⟨⟨hown.1,hnone⟩,hown.2⟩)
      have hpat : Patient (fun own : Own P L => (Noted 0 .decoding own ∧ own.1.finishReason = none) ∧
          Stops eng stop own) :=
        fun x box hown => ⟨⟨patient_noted x box hown.1.1,hown.1.2⟩,patient_stops x box hown.2⟩
      refine (safe_look _ (patient_update hΦ hpat i) h').bind ?_
      rintro maxTokens s ⟨h,hmax⟩
      refine safe_decodeWhile hΦ hi (h.learn ?_)
      rintro ⟨⟨hown,hr⟩,hstops⟩
      have hshort := hown.short hr
      have hmax : maxTokens = (s.own i).1.sampling.maxTokens := hmax
      exact ⟨turn_of_noted hown rfl hshort.le (by omega),hstops⟩

theorem safe_serveOne {E : Exc → System P L → Prop} (h : Crew none [i] [] (fun _ => Fresh) s) :
    (serveOne eng i).Safe (serving eng may) (fun _ t => Crew none [i] [] (fun _ => Ended) t) E s := by
  have hi : i ∈ [i] := List.mem_singleton_self i
  have hend : ∀ j, Patient ((fun _ => Ended : SeqId → Own P L → Prop) j) := fun _ => patient_ended
  have honly : ∀ {flight : Option (List SeqId × Exc)} {run : List SeqId} {φ : Own P L → Prop} {t : System P L},
      Crew flight [i] run (fun _ => φ) t → Crew flight [i] run (update (fun _ => Ended) i φ) t := by
    intro flight run φ t ht
    apply ht.mono
    intro j hj
    rw [List.mem_singleton.mp hj,update_self]
    exact id
  have hall : ∀ {flight : Option (List SeqId × Exc)} {run : List SeqId} {t : System P L},
      Crew flight [i] run (update (fun _ => Ended) i Ended) t → Crew flight [i] run (fun _ => Ended) t := by
    intro flight run t ht
    rwa [update_eq_self] at ht
  unfold serveOne
  refine (safe_look _ (patient_update hend patient_fresh i) (honly h)).bind ?_
  rintro aborting s ⟨h,_⟩
  split
  · refine (safe_abortOne hend patient_fresh h hi (fun _ hown => hown.isOpen)).mono ?_ (fun _ _ => id)
    exact fun _ _ => hall
  · have hstart : (Prog.write .tau (fun _ s =>
        let s := s.modify i (fun seq => { seq with status := .decoding })
        { s with stats := { s.stats with running := [i], lastBatchSize := 1 } }) : Thread P L Unit).Safe
        (serving eng may) (fun _ t => Crew none [i] [i] (update (fun _ => Ended) i (Primed .decoding)) t) E s := by
      refine Prog.safe_write (Crew.stable (patient_update hend patient_fresh i)) h ?_
      intro t ht hinv w _
      have hfresh : Fresh (t.own i) := ht.own_self hi
      have hset := ht.touch hi (touches_modify (fun seq => { seq with status := .decoding }))
        (φ := Primed .decoding) (by rw [System.own_modify]; exact ⟨rfl,hfresh.outputIds,hfresh.reason,hfresh.box⟩)
      rw [update_idem] at hset
      have hset' : Orderly eng .tau (.setStatus i .decoding) t _ := ⟨.setStatus (ht.live hi hfresh.isOpen) rfl,trivial⟩
      have hreach := ((Reaches.refl t).tail hset').tail
        ⟨.bookkeeping { t.stats with running := [i], lastBatchSize := 1 } t.inFlight t.outputTokensTotal,trivial⟩
      exact ⟨effect_of_reaches hreach ht.flight ht.flight trivial,ht.flight,rfl,hset.nodup,hset.admitted,hset.complete,hset.own⟩
    refine hstart.bind ?_
    intro _ s h
    have hrun : (Prog.tryCatch (runOne eng i) (contain [i])).Safe (serving eng may)
        (fun _ t => Crew none [i] [i] (fun _ => Ended) t) E s := by
      refine (safe_runOne hend hi h).mono (fun _ _ => hall) (fun _ _ => id) |>.tryCatch ?_
      intro e t ht
      exact (safe_containOne hend hi ht).mono (fun _ _ => hall) (fun _ _ => id)
    refine hrun.bind ?_
    intro _ s h
    exact safe_setRunning hend h

def heldBack (s : System P L) : ℕ := s.scheduler.maxBatch - 1

/-- A round takes at most one sequence and runs it to its end. -/
theorem safe_queuedRound {E : Exc → System P L → Prop} (h : Vacant s) :
    (queuedRound eng).Safe (serving eng may) (fun more t => Vacant t ∧ if more = true
      then ∃ admitted, Admits eng heldBack s t admitted ∧ ∀ i ∈ admitted, Ended (t.own i)
      else t.stop = true) E s := by
  have hend : ∀ j, Patient ((fun _ => Ended : SeqId → Own P L → Prop) j) := fun _ => patient_ended
  unfold queuedRound
  refine (safe_since (safe_look _ hend h) (.refl s)).bind ?_
  rintro stopped t ⟨⟨h,hstop⟩,hst⟩
  split
  · rename_i hs
    exact ⟨h,hstop.symm.trans hs⟩
  · refine (safe_since (safe_waitIfIdle hend h (fun _ _ _ => rfl)) hst).bind ?_
    rintro _ t ⟨h,hst⟩
    refine (safe_since (safe_look _ hend h) hst).bind ?_
    rintro stopped t ⟨⟨h,hstop⟩,hst⟩
    split
    · rename_i hs
      exact ⟨h,hstop.symm.trans hs⟩
    · refine (safe_admitRequests heldBack hend hst h).bind ?_
      rintro admitted t ⟨hadmits,_,h⟩
      have hlen : admitted.length ≤ 1 := by
        obtain ⟨u,_,_,_,hroom,_⟩ := hadmits
        unfold heldBack at hroom
        omega
      cases admitted with
      | nil => exact ⟨(h.mono (fun j hj => absurd hj (by simp))).vacant,[],hadmits,by simp⟩
      | cons i rest =>
        have hnil : rest = [] := by
          rw [List.length_cons] at hlen
          exact List.eq_nil_of_length_eq_zero (by omega)
        subst hnil
        have hfresh : Crew none [i] [] (fun _ => Fresh) t := h.mono (fun j hj hown => hown.2 hj)
        refine (safe_since (safe_serveOne hfresh) (.refl t)).bind ?_
        rintro _ u ⟨hu,htu⟩
        exact ⟨hu.vacant,[i],hadmits.trans htu,hu.own⟩

theorem queued_verified :
    (queued eng).Verified (serving eng may) Vacant (fun s => s.stop = true ∧ Vacant s) Finished
      (Uncovered may) := by
  constructor
  · exact serving_sound may
  · intro s h
    refine (safe_queuedRound h).mono ?_ (fun _ _ => id)
    intro more t ht
    cases more with
    | true => exact ht.1
    | false => exact ⟨ht.2,ht.1⟩
  · rintro s ⟨_,h⟩
    exact safe_abortLeftovers (fun _ => patient_open) (fun _ _ => id) (h.mono (fun _ hi => absurd hi (by simp)))

end Worker
end FluxEngine
