import FluxEngine.Serving.WorkerRules

/-! # The parts that the two workers share

What each shared part of a worker does to the sequence it is run for.
-/
namespace FluxEngine
open Transition Interleaving Function
variable {P L : Type} {eng : CachedEngine P L} {may : Site → Bool}
variable {s t : System P L} {i : SeqId} {ids run : List SeqId} {Φ : SeqId → Own P L → Prop} {e : Exc}

def Stops (eng : CachedEngine P L) (stop : List Token) (own : Own P L) : Prop :=
  stop = combinedStopIds eng.tokenizer own.1.sampling.stopTokenIds own.1.sampling.ignoreEos

/-- Nothing generated yet. -/
structure Primed (st : SequenceStatus) (own : Own P L) : Prop where
  status : own.1.status = st
  outputIds : own.1.outputIds = []
  reason : own.1.finishReason = none
  box : own.2 = none

/-- The model has returned logits for token number `m`. -/
structure Boxed (m : ℕ) (st : SequenceStatus) (own : Own P L) : Prop where
  status : own.1.status = st
  length : own.1.outputIds.length = m
  reason : own.1.finishReason = none
  box : own.2.isSome

/-- A token has been sampled from them. -/
structure Sampled (eng : CachedEngine P L) (token : Token) (m : ℕ) (st : SequenceStatus) (own : Own P L) : Prop where
  boxed : Boxed m st own
  sampled : ∃ logits kv rnd, own.2 = some (logits,kv) ∧ token = sampleLogits eng logits own.1.sampling rnd

/-- The token has been noted. -/
structure Noted (m : ℕ) (st : SequenceStatus) (own : Own P L) : Prop where
  status : own.1.status = st
  length : own.1.outputIds.length = m + 1
  lastToken : own.1.lastToken.isSome
  kvCache : own.1.kvCache.isSome
  short : own.1.finishReason = none → m + 1 < own.1.sampling.maxTokens

variable {st : SequenceStatus} {stop : List Token} {m : ℕ} {token : Token} {φ ψ : Own P L → Prop}

theorem patient_stops : Patient (Stops eng stop) := fun _ _ h => h
theorem patient_primed : Patient (Primed (P := P) (L := L) st) := fun _ _ h => ⟨h.status,h.outputIds,h.reason,h.box⟩

theorem patient_boxed : Patient (Boxed (P := P) (L := L) m st) :=
  fun _ _ h => ⟨h.status,h.length,h.reason,h.box⟩

theorem patient_sampled : Patient (Sampled eng token m st) :=
  fun _ _ h => ⟨patient_boxed _ _ h.boxed,h.sampled⟩

theorem patient_noted : Patient (Noted (P := P) (L := L) m st) :=
  fun _ _ h => ⟨h.status,h.length,h.lastToken,h.kvCache,h.short⟩

theorem Patient.and (hφ : Patient φ) (hψ : Patient ψ) : Patient (fun own => φ own ∧ ψ own) :=
  fun x box h => ⟨hφ x box h.1,hψ x box h.2⟩

theorem open_of_status {own : Own P L} (h : own.1.status = st) (hst : st.terminal = false) : Open own := by
  rw [Open,h]
  exact hst

theorem Crew.learn {flight : Option (List SeqId × Exc)} (h : Crew flight ids run (update Φ i φ) s)
    (hle : φ (s.own i) → ψ (s.own i)) : Crew flight ids run (update Φ i ψ) s := by
  apply h.mono
  intro j _ hj
  by_cases hji : j = i
  · subst hji
    rw [update_self] at hj ⊢
    exact hle hj
  · rw [update_of_ne hji] at hj ⊢
    exact hj

theorem Crew.own_self {flight : Option (List SeqId × Exc)} (h : Crew flight ids run (update Φ i φ) s) (hi : i ∈ ids) :
    φ (s.own i) := by
  have hown := h.own i hi
  rwa [update_self] at hown

theorem boxed_of_life {x y : Sequence P L} {box : Option (L × KvCache P)} (hl : y.life = x.life)
    (h : Boxed m st (x,box) ∧ Stops eng stop (x,box)) : Boxed m st (y,box) ∧ Stops eng stop (y,box) := by
  have hlife : ∀ {z : Sequence P L}, Boxed m st (z.life,box) ∧ Stops eng stop (z.life,box) ↔
      Boxed m st (z,box) ∧ Stops eng stop (z,box) :=
    ⟨fun h => ⟨⟨h.1.status,h.1.length,h.1.reason,h.1.box⟩,h.2⟩,
      fun h => ⟨⟨h.1.status,h.1.length,h.1.reason,h.1.box⟩,h.2⟩⟩
  rw [← hlife,hl,hlife]
  exact h

theorem primed_of_life {x y : Sequence P L} {box : Option (L × KvCache P)} (hl : y.life = x.life)
    (h : Primed st (x,box) ∧ Stops eng stop (x,box)) : Primed st (y,box) ∧ Stops eng stop (y,box) := by
  have hlife : ∀ {z : Sequence P L}, Primed st (z.life,box) ∧ Stops eng stop (z.life,box) ↔
      Primed st (z,box) ∧ Stops eng stop (z,box) :=
    ⟨fun h => ⟨⟨h.1.status,h.1.outputIds,h.1.reason,h.1.box⟩,h.2⟩,
      fun h => ⟨⟨h.1.status,h.1.outputIds,h.1.reason,h.1.box⟩,h.2⟩⟩
  rw [← hlife,hl,hlife]
  exact h

namespace Worker
variable [Inhabited P] [Inhabited L] {E : Exc → System P L → Prop} {site : Site}

theorem safe_step {f : Answer → System P L → System P L} (hΦ : ∀ i, Patient (Φ i)) (hφ : Patient φ)
    (h : Crew none ids run (update Φ i φ) s) (hi : i ∈ ids) (hopen : ∀ own, φ own → Open own)
    (hstep : ∀ t w, Reachable eng t → t.Live i → φ (t.own i) →
      ∃ ev, Orderly eng .tau ev t (f w t) ∧ Touches i t (f w t) ∧ ψ ((f w t).own i)) :
    (Prog.write .tau f : Thread P L Unit).Safe (serving eng may)
      (fun _ t => Crew none ids run (update Φ i ψ) t) E s := by
  have hw : (Prog.write .tau f : Thread P L Unit).Safe (serving eng may)
      (fun _ t => Crew none ids run (update (update Φ i φ) i ψ) t) E s := by
    apply safe_update (patient_update hΦ hφ i) h hi
    · rw [update_self]
      exact hopen
    · rw [update_self]
      exact hstep
  simp only [update_idem] at hw
  exact hw

theorem safe_abortOne (hΦ : ∀ i, Patient (Φ i)) (hφ : Patient φ) (h : Crew none ids run (update Φ i φ) s) (hi : i ∈ ids)
    (hopen : ∀ own, φ own → Open own) :
    (abortOne i : Thread P L Unit).Safe (serving eng may) (fun _ t => Crew none ids run (update Φ i Ended) t) E s := by
  refine safe_step hΦ hφ h hi hopen ?_
  intro t w _ hlive _
  exact ⟨_,⟨.abort hlive,trivial⟩,touches_terminate _,System.ends_abort.terminated⟩

theorem safe_setStatus (hΦ : ∀ i, Patient (Φ i)) (hφ : Patient φ) (h : Crew none ids run (update Φ i φ) s) (hi : i ∈ ids)
    (hopen : ∀ own, φ own → Open own) (hst : st.terminal = false)
    (hψ : ∀ x box, φ (x,box) → ψ ({ x with status := st },box)) :
    (setStatus i st : Thread P L Unit).Safe (serving eng may) (fun _ t => Crew none ids run (update Φ i ψ) t) E s := by
  refine safe_step hΦ hφ h hi hopen ?_
  intro t w _ hlive hown
  refine ⟨_,⟨.setStatus hlive hst,trivial⟩,touches_modify _,?_⟩
  rw [System.own_modify]
  exact hψ _ _ hown

/-- A call for one sequence that changes nothing by itself. -/
theorem safe_ask (hsite : site.isModel = false) {α : Type} {value : Answer → System P L → Except Exc α} {ψ : α → Own P L → Prop}
    (hΦ : ∀ i, Patient (Φ i)) (hφ : Patient φ) (h : Crew none ids run (update Φ i φ) s) (hi : i ∈ ids)
    (hopen : ∀ own, φ own → Open own)
    (hok : ∀ t w, φ (t.own i) → ∃ a, value w t = .ok a ∧ ψ a (t.own i))
    (hraise : ∀ t e, may site = true → Crew (some ([i],e)) ids run (update Φ i φ) t → E e t) :
    (call site [i] value (fun _ s => s)).Safe (serving eng may)
      (fun a t => Crew none ids run (update Φ i (ψ a)) t) E s := by
  refine safe_call (patient_update hΦ hφ i) h (List.nodup_singleton i) ?_ ?_ (Or.inr ?_) ?_ ?_
  · intro j hj
    rw [List.mem_singleton] at hj
    subst hj
    rw [update_self]
    exact ⟨hi,hopen⟩
  · intro hdec
    rw [site.decodes_of_not_isModel hsite] at hdec
    cases hdec
  · intro t w ht
    obtain ⟨a,ha,_⟩ := hok t w (ht.own_self hi)
    exact ⟨a,ha⟩
  · intro t w a _ ht ha
    obtain ⟨b,hb,hψ⟩ := hok t w (ht.own_self hi)
    rw [ha] at hb
    cases hb
    exact ⟨.refl t,ht.flight,ht.learn (fun _ => hψ)⟩
  · intro t e hmay ht
    exact hraise t e (hmay.resolve_left (by simp [hsite])) ht

theorem safe_stopIds (hsite : site.isModel = false) (hΦ : ∀ i, Patient (Φ i)) (hφ : Patient φ) (h : Crew none ids run (update Φ i φ) s) (hi : i ∈ ids)
    (hopen : ∀ own, φ own → Open own)
    (hraise : ∀ t e, may site = true → Crew (some ([i],e)) ids run (update Φ i φ) t → E e t) :
    (stopIds eng site i).Safe (serving eng may)
      (fun stop t => Crew none ids run (update Φ i (fun own => φ own ∧ Stops eng stop own)) t) E s :=
  safe_ask hsite hΦ hφ h hi hopen (fun _ _ hown => ⟨_,rfl,hown,rfl⟩) hraise

theorem safe_sample (hsite : site.isModel = false) (hst : st.terminal = false) (hΦ : ∀ i, Patient (Φ i))
    (h : Crew none ids run (update Φ i (fun own => Boxed m st own ∧ Stops eng stop own)) s) (hi : i ∈ ids)
    (hraise : ∀ t e, may site = true → Crew (some ([i],e)) ids run (update Φ i Open) t → E e t) :
    (sample eng site i).Safe (serving eng may)
      (fun token t => Crew none ids run (update Φ i (fun own => Sampled eng token m st own ∧ Stops eng stop own)) t)
      E s := by
  refine safe_ask hsite hΦ (patient_boxed.and patient_stops) h hi (fun own hown => open_of_status hown.1.status hst) ?_ ?_
  · rintro t w ⟨hb,hs⟩
    obtain ⟨⟨logits,kv⟩,hbox⟩ := Option.isSome_iff_exists.mp hb.box
    simp only [System.own] at hbox
    simp only [hbox]
    exact ⟨_,rfl,⟨hb,logits,kv,w.rnd,hbox,rfl⟩,hs⟩
  · intro t e hmay ht
    exact hraise t e hmay (ht.learn (fun hown => open_of_status hown.1.status hst))

theorem safe_recordToken (hst : st.terminal = false) (hΦ : ∀ i, Patient (Φ i))
    (h : Crew none ids run (update Φ i (fun own => Sampled eng token m st own ∧ Stops eng stop own)) s) (hi : i ∈ ids) :
    (recordToken i token stop : Thread P L Unit).Safe (serving eng may)
      (fun _ t => Crew none ids run (update Φ i (fun own => Noted m st own ∧ Stops eng stop own)) t) E s := by
  refine safe_step hΦ (patient_sampled.and patient_stops) h hi
    (fun own hown => open_of_status hown.1.boxed.status hst) ?_
  rintro t w _ hlive ⟨⟨hb,logits,kv,rnd,hbox,htok⟩,hstop⟩
  simp only [System.own] at hbox
  have hstep : Orderly eng .tau (.note i rnd) t (t.recordToken i token stop) := by
    rw [htok,hstop]
    exact ⟨.note rnd hlive hb.reason hbox,trivial⟩
  refine ⟨_,hstep,touches_recordToken token stop,?_,?_⟩
  · have hlen : (t.heap i).outputIds.length = m := hb.length
    have hnone : (t.heap i).finishReason = none := hb.reason
    simp only [System.own,System.recordToken,System.modify,update_self,Sequence.noteToken_eq,hbox,Option.map_some]
    refine ⟨hb.status,by simp [hlen],rfl,rfl,?_⟩
    simp only [List.length_append,List.length_singleton,hlen,hnone]
    intro hr
    by_contra hge
    rw [if_pos (Nat.not_lt.mp hge)] at hr
    split at hr <;> cases hr
  · simp only [System.own,System.recordToken,System.modify,update_self,Sequence.noteToken_eq]
    exact hstop

/-- `_prefill_with_reuse`. -/
theorem safe_prefill (hsite : site.decodes = false) (hmodel : site.isModel = true) (hst : st.terminal = false)
    (hΦ : ∀ i, Patient (Φ i))
    (h : Crew none ids run (update Φ i (fun own => Primed st own ∧ Stops eng stop own)) s) (hi : i ∈ ids)
    (hraise : ∀ t e, Crew (some ([i],e)) ids run (update Φ i Open) t → E e t) :
    (prefill eng site i).Safe (serving eng may)
      (fun _ t => Crew none ids run (update Φ i (fun own => Boxed 0 st own ∧ Stops eng stop own)) t) E s := by
  have hopen : ∀ own : Own P L, Primed st own ∧ Stops eng stop own → Open own :=
    fun own hown => open_of_status hown.1.status hst
  have hbind : (Prog.write .tau (fun w s => s.bindPrefixAtPrefill i (w.now 0)) : Thread P L Unit).Safe
      (serving eng may) (fun _ t => Crew none ids run (update Φ i (fun own => Primed st own ∧ Stops eng stop own)) t)
      E s := by
    refine safe_step hΦ (patient_primed.and patient_stops) h hi hopen ?_
    intro t w hinv hlive hown
    refine ⟨_,⟨.bind (w.now 0) hlive,hown.1.outputIds,hown.1.box⟩,touches_bind hinv.books hlive (w.now 0),?_⟩
    rw [System.own,t.bindPrefixAtPrefill_outbox]
    exact primed_of_life (hinv.books.bind hlive (w.now 0) False.elim).1.life hown
  refine hbind.bind ?_
  intro _ t ht
  have hcall : (call site [i] (fun _ s => prefillWithReuse eng (s.heap i)) (fun r s => s.putOutbox i r)).Safe
      (serving eng may) (fun _ t => Crew none ids run
        (update Φ i (fun own => Boxed 0 st own ∧ Stops eng stop own)) t) E t := by
    refine safe_call (patient_update hΦ (patient_primed.and patient_stops) i) ht (List.nodup_singleton i) ?_ (by simp [hsite])
      (Or.inl hmodel) ?_ ?_
    · intro j hj
      rw [List.mem_singleton] at hj
      subst hj
      rw [update_self]
      exact ⟨hi,hopen⟩
    · intro u w r _ hu hr
      obtain ⟨hprimed,hstops⟩ := hu.own_self hi
      have hlive := hu.live hi (hopen _ ⟨hprimed,hstops⟩)
      have hlength : (u.heap i).outputIds.length = 0 := List.length_eq_zero_iff.mpr hprimed.outputIds
      have hnext := hu.touch hi (touches_putOutbox r) (φ := fun own => Boxed 0 st own ∧ Stops eng stop own)
        ⟨⟨hprimed.status,hlength,hprimed.reason,by simp [System.own,System.putOutbox]⟩,hstops⟩
      rw [update_idem] at hnext
      exact ⟨(Reaches.refl u).tail ⟨.prefill hlive hprimed.outputIds hr,hprimed.box⟩,hnext.flight,hnext⟩
    · intro u e _ hu
      exact hraise u e (hu.learn (hopen _))
  refine hcall.bind ?_
  intro _ u hu
  refine safe_step hΦ (patient_boxed.and patient_stops) hu hi (fun own hown => open_of_status hown.1.status hst) ?_
  intro v w hinv hlive hown
  have hempty : (v.heap i).outputIds = [] := List.length_eq_zero_iff.mp hown.1.length
  refine ⟨_,⟨.store w.now hlive hempty,trivial⟩,touches_store hinv.books hlive w.now,?_⟩
  rw [System.own,v.storePrefix_outbox]
  exact boxed_of_life (hinv.books.store hlive w.now).1.life hown

/-- `_finish_sequence`. -/
theorem safe_finishSequence (hsite : site.isModel = false) (engineName : String) (hΦ : ∀ i, Patient (Φ i)) (hφ : Patient φ)
    (h : Crew none ids run (update Φ i φ) s) (hi : i ∈ ids) (hopen : ∀ own, φ own → Open own)
    (hdone : ∀ own, φ own → own.1.finishReason.isSome)
    (hraise : ∀ t e, may site = true → Crew (some ([i],e)) ids run (update Φ i Open) t → E e t) :
    (finishSequence eng site engineName i).Safe (serving eng may)
      (fun _ t => Crew none ids run (update Φ i Ended) t) E s := by
  have hpack : (call site [i]
      (fun _ s => .ok (packResult eng.tokenizer (s.heap i).promptTokenIds (s.heap i).outputIds
        ((s.heap i).finishReason.getD .length) engineName)) (fun _ s => s) : Thread P L GenerateResult).Safe
      (serving eng may) (fun result t => Crew none ids run (update Φ i (fun own => Open own ∧
        ∃ reason, own.1.finishReason = some reason ∧
          result = packResult eng.tokenizer own.1.promptTokenIds own.1.outputIds reason engineName)) t) E s := by
    refine safe_ask hsite hΦ hφ h hi hopen ?_ ?_
    · intro t w hown
      obtain ⟨reason,hreason⟩ := Option.isSome_iff_exists.mp (hdone _ hown)
      simp only [System.own] at hreason
      exact ⟨_,rfl,hopen _ hown,reason,hreason,by simp [System.own,hreason]⟩
    · intro t e hmay ht
      exact hraise t e hmay (ht.learn (hopen _))
  refine hpack.bind ?_
  intro result t ht
  refine Prog.safe_write (Crew.stable (patient_update hΦ (fun _ _ hown => hown) i)) ht ?_
  intro u hu _ w _
  obtain ⟨hown,reason,hreason,hresult⟩ := hu.own_self hi
  have hlive := hu.live hi hown
  -- the exporter observes the result, and the sequence ends
  have hobserved : Orderly eng .tau .bookkeeping u (u.observeFinished result) := ⟨.bookkeeping _ _ _,trivial⟩
  have hfinished : Orderly eng .tau (.finish i engineName) (u.observeFinished result) (u.finishSequence i result) := by
    refine ⟨?_,trivial⟩
    rw [hresult]
    exact .finish engineName hlive hreason
  have hended : ((u.finishSequence i result).heap i).status.terminal = true := (System.ends_finish result).terminated
  have hnext := hu.touch hi (touches_finishSequence result) (φ := Ended) hended
  rw [update_idem] at hnext
  exact ⟨effect_of_reaches (((Reaches.refl u).tail hobserved).tail hfinished) hu.flight hnext.flight trivial,hnext⟩

theorem safe_containOne (hΦ : ∀ i, Patient (Φ i)) (hi : i ∈ ids)
    (h : Crew (some ([i],e)) ids run (update Φ i Open) s) :
    (contain [i] e : Thread P L Unit).Safe (serving eng may) (fun _ t => Crew none ids run (update Φ i Ended) t) E s := by
  refine (safe_contain (patient_update hΦ patient_open i) h (List.nodup_singleton i) ?_).mono ?_ (fun _ _ => id)
  · intro j hj
    rw [List.mem_singleton] at hj
    subst hj
    rw [update_self]
    exact ⟨hi,fun _ => id⟩
  · intro _ t ht
    apply ht.mono
    intro j _ hj
    by_cases hji : j = i
    · subst hji
      rw [update_self]
      simpa using hj
    · rw [update_of_ne hji]
      simpa [hji] using hj

theorem safe_stats {run' : List SeqId} (f : System P L → WorkerStats)
    (hf : ∀ t : System P L, t.stats.running = run → (f t).running = run') (hΦ : ∀ i, Patient (Φ i))
    (h : Crew none ids run Φ s) :
    (Prog.write .tau (fun _ s => { s with stats := f s }) : Thread P L Unit).Safe (serving eng may)
      (fun _ t => Crew none ids run' Φ t) E s := by
  refine Prog.safe_write (Crew.stable hΦ) h ?_
  intro t ht _ w _
  exact ⟨effect_of_reaches ((Reaches.refl t).tail ⟨.bookkeeping _ _ _,trivial⟩) ht.flight ht.flight trivial,
    ht.flight,hf t ht.running,ht.nodup,ht.admitted,ht.complete,ht.own⟩

theorem safe_setRunning {run' : List SeqId} (hΦ : ∀ i, Patient (Φ i))
    (h : Crew none ids run Φ s) :
    (setRunning run' : Thread P L Unit).Safe (serving eng may) (fun _ t => Crew none ids run' Φ t) E s :=
  safe_stats (fun s => { s.stats with running := run' }) (fun _ _ => rfl) hΦ h

theorem safe_running (hΦ : ∀ i, Patient (Φ i)) (h : Crew none ids run Φ s) :
    (running : Thread P L (List SeqId)).Safe (serving eng may) (fun r t => run = r ∧ Crew none ids run Φ t) E s := by
  refine (safe_look _ hΦ h).mono ?_ (fun _ _ => id)
  rintro r t ⟨ht,rfl⟩
  exact ⟨ht.running.symm,ht⟩

end Worker
end FluxEngine
