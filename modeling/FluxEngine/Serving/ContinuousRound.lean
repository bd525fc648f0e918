import FluxEngine.Serving.Intake
import FluxEngine.Serving.Labels
import FluxEngine.Serving.Leftovers
import FluxEngine.Serving.WorkerParts

/-! # A round of the continuous worker

Every loop of the round keeps the list of sequences that the worker holds, in
stages: the ones it is done with, the ones still to come, and the others.  After
a round every sequence that was running has ended or has one more token.
-/
namespace FluxEngine
open Transition Interleaving Function
variable {P L : Type} {eng : CachedEngine P L} {may : Site → Bool}
variable {s t : System P L} {i : SeqId} {ids run done rest : List SeqId} {n : SeqId → ℕ} {m : ℕ} {stop : List Token}
variable {Φ Ψ Ω : SeqId → Own P L → Prop} {φ : Own P L → Prop}

/-- Running, with at least `m` tokens, and fit for the next decode step. -/
structure Ready (m : ℕ) (own : Own P L) : Prop where
  status : own.1.status = .decoding
  lastToken : own.1.lastToken.isSome
  kvCache : own.1.kvCache.isSome
  reason : own.1.finishReason = none
  length : m ≤ own.1.outputIds.length

theorem patient_ready : Patient (Ready (P := P) (L := L) m) :=
  fun _ _ h => ⟨h.status,h.lastToken,h.kvCache,h.reason,h.length⟩

theorem Ready.isOpen {own : Own P L} (h : Ready m own) : Open own := open_of_status h.status rfl

theorem Patient.or {ψ : Own P L → Prop} (hφ : Patient φ) (hψ : Patient ψ) : Patient (fun own => φ own ∨ ψ own) :=
  fun x box h => h.imp (hφ x box) (hψ x box)

def Settled (m : ℕ) (own : Own P L) : Prop := Ended own ∨ Ready m own

theorem patient_settled : Patient (Settled (P := P) (L := L) m) := patient_ended.or patient_ready

/-- What is known in a loop: of those it is done with, of those still to come,
and of the others. -/
def Staged (done rest : List SeqId) (Ψ Φ Ω : SeqId → Own P L → Prop) : SeqId → Own P L → Prop :=
  fun i own => (i ∈ done → Ψ i own) ∧ (i ∈ rest → Φ i own) ∧ (i ∉ done → i ∉ rest → Ω i own)

theorem patient_staged (hΨ : ∀ i, Patient (Ψ i)) (hΦ : ∀ i, Patient (Φ i)) (hΩ : ∀ i, Patient (Ω i)) (i : SeqId) :
    Patient (Staged done rest Ψ Φ Ω i) :=
  fun x box h => ⟨fun hi => hΨ i x box (h.1 hi),fun hi => hΦ i x box (h.2.1 hi),fun hd hr => hΩ i x box (h.2.2 hd hr)⟩

theorem Crew.focus {flight : Option (List SeqId × Exc)} (h : Crew flight ids run Φ s)
    (hle : Φ i (s.own i) → φ (s.own i)) : Crew flight ids run (update Φ i φ) s := by
  apply h.mono
  intro j _ hj
  by_cases hji : j = i
  · subst hji
    rw [update_self]
    exact hle hj
  · rwa [update_of_ne hji]

theorem Crew.keep (h : Crew none ids run (update (Staged done (i :: rest) Ψ Φ Ω) i φ) s) (hi : i ∉ rest)
    (hle : φ (s.own i) → Ψ i (s.own i)) : Crew none ids run (Staged (done ++ [i]) rest Ψ Φ Ω) s := by
  apply h.mono
  intro j _ hj
  by_cases hji : j = i
  · subst hji
    rw [update_self] at hj
    exact ⟨fun _ => hle hj,fun hr => absurd hr hi,fun hd => absurd (by simp) hd⟩
  · rw [update_of_ne hji] at hj
    obtain ⟨h1,h2,h3⟩ := hj
    refine ⟨?_,fun hr => h2 (List.mem_cons_of_mem _ hr),?_⟩
    · intro hd
      rcases List.mem_append.mp hd with hd | hd
      · exact h1 hd
      · exact absurd (List.mem_singleton.mp hd) hji
    · intro hd hr
      exact h3 (fun hd' => hd (List.mem_append_left _ hd')) (by simp [hji,hr])

theorem Crew.pass (h : Crew none ids run (update (Staged done (i :: rest) Ψ Φ Ω) i φ) s) (hd : i ∉ done)
    (hi : i ∉ rest) (hle : φ (s.own i) → Ω i (s.own i)) : Crew none ids run (Staged done rest Ψ Φ Ω) s := by
  apply h.mono
  intro j _ hj
  by_cases hji : j = i
  · subst hji
    rw [update_self] at hj
    exact ⟨fun hd' => absurd hd' hd,fun hr => absurd hr hi,fun _ _ => hle hj⟩
  · rw [update_of_ne hji] at hj
    obtain ⟨h1,h2,h3⟩ := hj
    exact ⟨h1,fun hr => h2 (List.mem_cons_of_mem _ hr),fun hd' hr => h3 hd' (by simp [hji,hr])⟩

theorem Crew.next {flight : Option (List SeqId × Exc)} (h : Crew flight ids run (Staged done (i :: rest) Ψ Φ Ω) s) :
    Crew flight ids run (update (Staged done (i :: rest) Ψ Φ Ω) i (Φ i)) s :=
  h.focus (fun hs => hs.2.1 List.mem_cons_self)

namespace Worker
variable [Inhabited P] [Inhabited L]

theorem safe_prefillBody (hΦ : ∀ i, Patient (Φ i)) (hi : i ∈ ids)
    (h : Crew none ids run (update Φ i (fun own => Primed .prefill own ∧ Stops eng stop own)) s) :
    (prefillBody eng i stop).Safe (serving eng may) (fun _ t => Crew none ids run (update Φ i (Settled 1)) t)
      (fun e t => Crew (some ([i],e)) ids run (update Φ i Open) t) s := by
  unfold prefillBody
  refine (safe_prefill rfl rfl rfl hΦ h hi (fun _ _ => id)).bind ?_
  intro _ s h
  refine (safe_sample rfl rfl hΦ h hi (fun _ _ _ => id)).bind ?_
  intro token s h
  refine (safe_recordToken rfl hΦ h hi).bind ?_
  intro _ s h
  have hopen : ∀ own : Own P L, Noted 0 .prefill own ∧ Stops eng stop own → Open own :=
    fun own hown => open_of_status hown.1.status rfl
  have hpat : ∀ j, Patient (update Φ i (fun own => Noted 0 .prefill own ∧ Stops eng stop own) j) :=
    patient_update hΦ (patient_noted.and patient_stops) i
  refine (safe_look _ hpat h).bind ?_
  rintro aborting s ⟨h,_⟩
  split
  · refine (safe_abortOne hΦ (patient_noted.and patient_stops) h hi hopen).mono ?_ (fun _ _ => id)
    exact fun _ _ ht => ht.learn Or.inl
  · refine (safe_look _ hpat h).bind ?_
    rintro finished s ⟨h,hfin⟩
    split
    · rename_i hf
      have h' := h.learn (ψ := fun own => Open own ∧ own.1.finishReason.isSome)
        (fun hown => ⟨hopen _ hown,hfin.symm.trans hf⟩)
      refine (safe_finishSequence rfl "continuous" hΦ (fun _ _ hown => hown) h' hi (fun _ hown => hown.1)
        (fun _ hown => hown.2) (fun _ _ _ => id)).mono ?_ (fun _ _ => id)
      exact fun _ _ ht => ht.learn Or.inl
    · rename_i hf
      have hnone : (s.own i).1.finishReason = none := by
        rw [hfin] at hf
        simpa [System.own] using hf
      have h' := h.learn (ψ := fun own => Noted 0 .prefill own ∧ own.1.finishReason = none)
        (fun hown => ⟨hown.1,hnone⟩)
      refine (safe_setStatus (ψ := Ready 1) hΦ ?_ h' hi (fun own hown => open_of_status hown.1.status rfl) rfl
        ?_).mono ?_ (fun _ _ => id)
      · exact fun x box hown => ⟨patient_noted x box hown.1,hown.2⟩
      · rintro x box ⟨hown,hr⟩
        exact ⟨rfl,hown.lastToken,hown.kvCache,hr,hown.length.ge⟩
      · exact fun _ _ ht => ht.learn Or.inr

theorem safe_prefillOne (hΦ : ∀ i, Patient (Φ i)) (hi : i ∈ ids) (h : Crew none ids run (update Φ i Fresh) s) :
    (prefillOne eng i).Safe (serving eng may) (fun _ t => Crew none ids run (update Φ i (Settled 1)) t)
      (Uncovered may) s := by
  unfold prefillOne
  have hopen : ∀ own : Own P L, Fresh own → Open own := fun _ hown => hown.isOpen
  refine (safe_look _ (patient_update hΦ patient_fresh i) h).bind ?_
  rintro aborting s ⟨h,_⟩
  split
  · refine (safe_abortOne hΦ patient_fresh h hi hopen).mono ?_ (fun _ _ => id)
    exact fun _ _ ht => ht.learn Or.inl
  · refine (safe_setStatus (ψ := Primed .prefill) hΦ patient_fresh h hi hopen rfl ?_).bind ?_
    · exact fun x box hown => ⟨rfl,hown.outputIds,hown.reason,hown.box⟩
    intro _ s h
    refine (safe_stopIds rfl hΦ patient_primed h hi (fun own hown => open_of_status hown.status rfl) ?_).bind ?_
    · exact fun _ _ hmay _ => ⟨.prefillStopIds,hmay,rfl⟩
    intro stop s h
    refine (safe_prefillBody hΦ hi h).tryCatch ?_
    intro e t ht
    exact (safe_containOne hΦ hi ht).mono (fun _ _ hu => hu.learn Or.inl) (fun _ _ => id)

theorem safe_startOne (hΦ : ∀ i, Patient (Φ i)) (hi : i ∈ ids) (h : Crew none ids run (update Φ i Fresh) s) :
    (startOne eng i).Safe (serving eng may) (fun _ t => Crew none ids run (update Φ i Ended) t ∨
      Crew none ids (run ++ [i]) (update Φ i (Ready 1)) t) (Uncovered may) s := by
  unfold startOne
  refine (safe_look _ (patient_update hΦ patient_fresh i) h).bind ?_
  rintro aborting s ⟨h,_⟩
  split
  · exact (safe_abortOne hΦ patient_fresh h hi (fun _ hown => hown.isOpen)).mono (fun _ _ => Or.inl) (fun _ _ => id)
  · refine (safe_prefillOne hΦ hi h).bind ?_
    intro _ s h
    refine (safe_look _ (patient_update hΦ patient_settled i) h).bind ?_
    rintro status s ⟨h,rfl⟩
    split
    · rename_i hend
      exact Or.inl (h.learn (fun _ => hend))
    · rename_i hend
      have hready : Crew none ids run (update Φ i (Ready 1)) s :=
        h.learn (fun hown => hown.resolve_left hend)
      refine (safe_stats (fun s => { s.stats with running := s.stats.running ++ [i] }) ?_
        (patient_update hΦ patient_ready i) hready).mono (fun _ _ => Or.inr) (fun _ _ => id)
      intro t ht
      simp only [ht]

/-- The loop over the admitted, when it has come as far as `pending`. -/
theorem safe_startAll {started pending : List SeqId} (hnd : (run ++ (started ++ pending)).Nodup)
    (hsub : started ++ pending ⊆ ids) (hn : ∀ i ∈ started, n i = 0)
    (h : Crew none ids run (Staged run (started ++ pending) (fun i => Ready (n i)) (fun _ => Fresh) (fun _ => Ended)) s) :
    (startAll eng started).Safe (serving eng may) (fun _ t => ∃ run', (run' ++ pending).Nodup ∧ run' ⊆ run ++ started ∧
      Crew none ids run' (Staged run' pending (fun i => Ready (n i)) (fun _ => Fresh) (fun _ => Ended)) t)
      (Uncovered may) s := by
  induction started generalizing run s with
  | nil => exact ⟨run,hnd,List.subset_append_left _ _,h⟩
  | cons i rest ih =>
    have hstage : ∀ j, Patient (Staged run (i :: (rest ++ pending)) (fun i => Ready (n i)) (fun _ => Fresh)
        (fun _ => Ended (P := P) (L := L)) j) :=
      patient_staged (fun _ => patient_ready) (fun _ => patient_fresh) (fun _ => patient_ended)
    have hir : i ∉ rest ++ pending := (List.nodup_cons.mp hnd.of_append_right).1
    have hid : i ∉ run := fun hd => List.disjoint_of_nodup_append hnd hd List.mem_cons_self
    have hrest : rest ++ pending ⊆ ids := fun j hj => hsub (List.mem_cons_of_mem _ hj)
    have hzero : ∀ j ∈ rest, n j = 0 := fun j hj => hn j (List.mem_cons_of_mem _ hj)
    unfold startAll
    refine (safe_startOne hstage (hsub List.mem_cons_self) h.next).bind ?_
    rintro _ t (ht | ht)
    · have hnd' : (run ++ (rest ++ pending)).Nodup := hnd.sublist (by simp)
      refine (ih hnd' hrest hzero (ht.pass hid hir id)).mono ?_ (fun _ _ => id)
      rintro _ u ⟨run',h1,h2,h3⟩
      refine ⟨run',h1,?_,h3⟩
      intro j hj
      have hmem := h2 hj
      simp only [List.mem_append,List.mem_cons] at hmem ⊢
      exact hmem.imp_right Or.inr
    · have hnd' : ((run ++ [i]) ++ (rest ++ pending)).Nodup := by
        rw [List.append_assoc]
        exact hnd
      refine (ih hnd' hrest hzero (ht.keep hir ?_)).mono ?_ (fun _ _ => id)
      · intro hready
        exact ⟨hready.status,hready.lastToken,hready.kvCache,hready.reason,by
          rw [hn i List.mem_cons_self]
          exact Nat.zero_le _⟩
      · rintro _ u ⟨run',h1,h2,h3⟩
        rw [List.append_assoc] at h2
        exact ⟨run',h1,h2,h3⟩

/-- The loop keeps who has not ended and did not ask to abort. -/
theorem safe_keepLive {E : Exc → System P L → Prop} {ended : Sequence P L → Bool} (hΨ : ∀ i, Patient (Ψ i))
    (hΦ : ∀ i, Patient (Φ i)) (hopen : ∀ i own, Φ i own → ended own.1 = false → Open own)
    (hended : ∀ i own, Φ i own → ended own.1 = true → Ended own)
    (hkeep : ∀ i own, Φ i own → Open own → own.1.wantsAbort = false → Ψ i own)
    (hnd : (done ++ rest).Nodup) (hsub : done ++ rest ⊆ ids)
    (h : Crew none ids run (Staged done rest Ψ Φ (fun _ => Ended)) s) :
    (keepLive ended rest done : Thread P L (List SeqId)).Safe (serving eng may)
      (fun kept t => kept.Nodup ∧ kept ⊆ done ++ rest ∧ Crew none ids run (Staged kept [] Ψ Φ (fun _ => Ended)) t)
      E s := by
  induction rest generalizing done s with
  | nil =>
    rw [List.append_nil] at hnd ⊢
    exact ⟨hnd,List.Subset.refl done,h⟩
  | cons i rest ih =>
    have hstage : ∀ j, Patient (Staged done (i :: rest) Ψ Φ (fun _ => Ended (P := P) (L := L)) j) :=
      patient_staged hΨ hΦ (fun _ => patient_ended)
    have hir : i ∉ rest := (List.nodup_cons.mp hnd.of_append_right).1
    have hid : i ∉ done := fun hd => List.disjoint_of_nodup_append hnd hd List.mem_cons_self
    have hi : i ∈ ids := hsub (by simp)
    have hnd' : (done ++ rest).Nodup := hnd.sublist (by simp)
    have hpart : done ++ rest ⊆ done ++ i :: rest := by
      intro j hj
      simp only [List.mem_append,List.mem_cons] at hj ⊢
      exact hj.imp_right Or.inr
    have hsub' : done ++ rest ⊆ ids := fun j hj => hsub (hpart hj)
    have hskip : ∀ {p : Thread P L (List SeqId)} {s : System P L}, p.Safe (serving eng may)
        (fun kept t => kept.Nodup ∧ kept ⊆ done ++ rest ∧ Crew none ids run (Staged kept [] Ψ Φ (fun _ => Ended)) t)
        E s → p.Safe (serving eng may) (fun kept t => kept.Nodup ∧ kept ⊆ done ++ i :: rest ∧
          Crew none ids run (Staged kept [] Ψ Φ (fun _ => Ended)) t) E s :=
      fun h => h.mono (fun kept t ht => ⟨ht.1,fun j hj => hpart (ht.2.1 hj),ht.2.2⟩) (fun _ _ => id)
    unfold keepLive
    refine (safe_look _ hstage h).bind ?_
    rintro gone s ⟨h,hgone⟩
    split
    · rename_i hg
      refine hskip (ih hnd' hsub' (h.next.pass hid hir ?_))
      exact fun hown => hended i _ hown (hgone.symm.trans hg)
    · rename_i hg
      have hg : ended (s.heap i) = false := by
        rw [hgone] at hg
        simpa using hg
      have h' : Crew none ids run (update (Staged done (i :: rest) Ψ Φ (fun _ => Ended)) i
          (fun own => Φ i own ∧ Open own)) s := h.next.learn (fun hown => ⟨hown,hopen i _ hown hg⟩)
      have hpat : Patient (fun own => Φ i own ∧ Open own) := (hΦ i).and patient_open
      refine (safe_look _ (patient_update hstage hpat i) h').bind ?_
      rintro aborting s ⟨h,hab⟩
      split
      · refine (safe_abortOne hstage hpat h hi (fun _ hown => hown.2)).bind ?_
        intro _ s h
        exact hskip (ih hnd' hsub' (h.pass hid hir id))
      · rename_i ha
        rw [List.append_cons]
        rw [List.append_cons] at hnd hsub
        refine ih hnd hsub (h.keep hir ?_)
        rintro ⟨hown,ho⟩
        have hnot : (s.heap i).wantsAbort = false := by
          rw [hab] at ha
          simpa using ha
        exact hkeep i _ hown ho hnot

/-- Kept through a step: ended, asked to abort, or one token further. -/
def Swept (m : ℕ) (own : Own P L) : Prop :=
  Ended own ∨ Ready m own ∧ own.1.abortRequested = true ∨ Ready (m + 1) own

omit [Inhabited P] [Inhabited L] in
theorem patient_swept : Patient (Swept (P := P) (L := L) m) := by
  refine patient_ended.or (Patient.or ?_ patient_ready)
  exact fun x box h => ⟨patient_ready x box h.1,rfl⟩

def Beside (run : List SeqId) (i : SeqId) (own : Own P L) : Prop := i ∉ run → Ended own

omit [Inhabited P] [Inhabited L] in
theorem patient_beside (i : SeqId) : Patient (Beside (P := P) (L := L) run i) := fun _ _ h => h

omit [Inhabited P] [Inhabited L] in
theorem ready_of_settled {own : Own P L} (h : Settled m own) (hopen : Open own) : Ready m own := by
  rcases h with h | h
  · rw [Ended,hopen] at h
    cases h
  · exact h

theorem safe_abortWanting {E : Exc → System P L → Prop} (hnd : rest.Nodup) (hsub : rest ⊆ ids) (hrun : rest ⊆ run)
    (h : Crew none ids run (Staged [] rest Ψ (fun i => Ready (n i))
      (fun i own => Settled (n i) own ∧ Beside run i own)) s) (hΨ : ∀ i, Patient (Ψ i)) :
    (abortWanting rest : Thread P L Unit).Safe (serving eng may)
      (fun _ t => Crew none ids run (fun i own => Settled (n i) own ∧ Beside run i own) t) E s := by
  induction rest generalizing s with
  | nil => exact h.mono (fun _ _ hj => hj.2.2 (by simp) (by simp))
  | cons i rest ih =>
    obtain ⟨hir,hnd'⟩ := List.nodup_cons.mp hnd
    have hi : i ∈ ids := hsub List.mem_cons_self
    have hirun : i ∈ run := hrun List.mem_cons_self
    have hsub' : rest ⊆ ids := fun j hj => hsub (List.mem_cons_of_mem _ hj)
    have hrun' : rest ⊆ run := fun j hj => hrun (List.mem_cons_of_mem _ hj)
    have hstage : ∀ j, Patient (Staged [] (i :: rest) Ψ (fun i => Ready (n i))
        (fun i own => Settled (P := P) (L := L) (n i) own ∧ Beside run i own) j) :=
      patient_staged hΨ (fun _ => patient_ready) (fun i => patient_settled.and (patient_beside i))
    unfold abortWanting
    refine (safe_look _ hstage h).bind ?_
    rintro aborting s ⟨h,_⟩
    split
    · refine (safe_abortOne hstage patient_ready h.next hi (fun _ hown => hown.isOpen)).bind ?_
      intro _ s h
      exact ih hnd' hsub' hrun' (h.pass (by simp) hir (fun hend => ⟨Or.inl hend,fun hn => absurd hirun hn⟩))
    · exact ih hnd' hsub' hrun' (h.next.pass (by simp) hir
        (fun hready => ⟨Or.inr hready,fun hn => absurd hirun hn⟩))

/-- The rows of the next batch; who is left out has ended or asked to abort. -/
theorem safe_liveRows {E : Exc → System P L → Prop} (hnd : (done ++ rest).Nodup) (hsub : done ++ rest ⊆ run)
    (h : Crew none ids run (Staged done rest (fun i => Ready (n i)) (fun i => Settled (n i))
      (fun i own => Swept (n i) own ∧ Beside run i own)) s) :
    (liveRows rest done : Thread P L (List SeqId)).Safe (serving eng may)
      (fun live t => live.Nodup ∧ live ⊆ run ∧ Crew none ids run (Staged live [] (fun i => Ready (n i))
        (fun i => Settled (n i)) (fun i own => Swept (n i) own ∧ Beside run i own)) t) E s := by
  induction rest generalizing done s with
  | nil =>
    rw [List.append_nil] at hnd hsub
    exact ⟨hnd,hsub,h⟩
  | cons i rest ih =>
    have hstage : ∀ j, Patient (Staged done (i :: rest) (fun i => Ready (P := P) (L := L) (n i))
        (fun i => Settled (n i)) (fun i own => Swept (n i) own ∧ Beside run i own) j) :=
      patient_staged (fun _ => patient_ready) (fun _ => patient_settled)
        (fun i => patient_swept.and (patient_beside i))
    have hir : i ∉ rest := (List.nodup_cons.mp hnd.of_append_right).1
    have hid : i ∉ done := fun hd => List.disjoint_of_nodup_append hnd hd List.mem_cons_self
    have hirun : i ∈ run := hsub (by simp)
    have hnd' : (done ++ rest).Nodup := hnd.sublist (by simp)
    have hsub' : done ++ rest ⊆ run := fun j hj => hsub (by
      simp only [List.mem_append,List.mem_cons] at hj ⊢
      exact hj.imp_right Or.inr)
    unfold liveRows
    refine (safe_look _ hstage h).bind ?_
    rintro ready s ⟨h,hread⟩
    split
    · rename_i hr
      have hst : (s.heap i).status = .decoding := by
        rw [hread] at hr
        simp only [Bool.and_eq_true,decide_eq_true_eq] at hr
        exact hr.1
      have h' : Crew none ids run (update (Staged done (i :: rest) (fun i => Ready (n i)) (fun i => Settled (n i))
          (fun i own => Swept (n i) own ∧ Beside run i own)) i (Ready (n i))) s :=
        h.next.learn (fun hown => ready_of_settled hown (open_of_status hst rfl))
      refine (safe_look _ (patient_update hstage patient_ready i) h').bind ?_
      rintro aborting s ⟨h,hab⟩
      split
      · rename_i ha
        refine ih hnd' hsub' (h.pass hid hir ?_)
        intro hready
        refine ⟨Or.inr (Or.inl ⟨hready,?_⟩),fun hn => absurd hirun hn⟩
        have hwants : (s.heap i).wantsAbort = true := hab.symm.trans ha
        have hdec : (s.heap i).status = .decoding := hready.status
        have habort : (s.heap i).abortRequested = true := by simpa [Sequence.wantsAbort,hdec] using hwants
        exact habort
      · refine ih ?_ ?_ (h.keep hir id)
        · rw [List.append_assoc]
          exact hnd
        · rw [List.append_assoc]
          exact hsub
    · rename_i hr
      refine ih hnd' hsub' (h.next.pass hid hir ?_)
      intro hown
      refine ⟨Or.inl ?_,fun hn => absurd hirun hn⟩
      rcases hown with hend | hready
      · exact hend
      · have hdec : (s.heap i).status = .decoding := hready.status
        have hlast : (s.heap i).lastToken.isSome := hready.lastToken
        exact absurd (hread.trans (by simp [hdec,hlast])) hr

omit [Inhabited P] [Inhabited L] in
theorem isLive_of_ready (h : Crew none ids run Φ s) (hi : i ∈ ids) (hr : Ready m (s.own i)) :
    s.Live i ∧ (s.heap i).lastToken.isSome ∧ (s.heap i).kvCache.isSome :=
  ⟨h.live hi hr.isOpen,hr.lastToken,hr.kvCache⟩

omit [Inhabited P] in
theorem crew_putBatch {live : List SeqId} (r : List L × List (KvCache P))
    (h : Crew none ids run (Staged live [] Ψ Φ Ω) s) :
    Crew none ids run (Staged [] live Ψ (fun i own => ∃ box, Ψ i (own.1,box) ∧ own.2.isSome) Ω)
      (s.putBatch live r) := by
  refine ⟨h.flight,h.running,h.nodup,h.admitted,h.complete,?_⟩
  intro i hi
  obtain ⟨h1,_,h3⟩ := h.own i hi
  refine ⟨by simp,?_,?_⟩
  · intro hl
    refine ⟨_,h1 hl,?_⟩
    simp only [System.own,System.putBatch,if_pos hl]
    rfl
  · intro _ hl
    have hown : (s.putBatch live r).own i = s.own i := by
      simp only [System.own,System.putBatch,if_neg hl]
    rw [hown]
    exact h3 hl (by simp)

def Loaded (m : ℕ) (own : Own P L) : Prop := Ready m own ∧ own.2.isSome

omit [Inhabited P] [Inhabited L] in
theorem patient_loaded : Patient (Loaded (P := P) (L := L) m) :=
  fun x box h => ⟨patient_ready x box h.1,h.2⟩

theorem safe_batchCall {live : List SeqId} (hnd : live.Nodup) (hsub : live ⊆ ids)
    (hΩ : ∀ i, Patient (Ω i)) (hΦ : ∀ i, Patient (Φ i))
    (h : Crew none ids run (Staged live [] (fun i => Ready (n i)) Φ Ω) s) :
    (batchCall eng live).Safe (serving eng may)
      (fun _ t => Crew none ids run (Staged [] live (fun i => Ready (n i)) (fun i => Loaded (n i)) Ω) t)
      (fun e t => Crew (some (live,e)) ids run (Staged live [] (fun i => Ready (n i)) Φ Ω) t) s := by
  unfold batchCall
  have hcall : (call .batchModel live
      (fun _ s => eng.decodeBatch (live.map (fun i => (s.heap i).lastToken.getD 0))
        (live.map (fun i => (s.heap i).kvCache.getD (.legacy []))))
      (fun r s => s.putBatch live r)).Safe (serving eng may)
      (fun _ t => Crew none ids run (Staged [] live (fun i => Ready (n i)) (fun i => Loaded (n i)) Ω) t)
      (fun e t => Crew (some (live,e)) ids run (Staged live [] (fun i => Ready (n i)) Φ Ω) t) s := by
    refine safe_call (patient_staged (fun _ => patient_ready) hΦ hΩ) h hnd ?_ ?_ (Or.inl rfl) ?_ ?_
    · exact fun i hi => ⟨hsub hi,fun own hown => (hown.1 hi).isOpen⟩
    · exact fun _ i hi own hown => ⟨(hown.1 hi).lastToken,(hown.1 hi).kvCache⟩
    · intro t w r _ ht hr
      have hrows : ∀ i ∈ live, t.Live i ∧ (t.heap i).lastToken.isSome ∧ (t.heap i).kvCache.isSome :=
        fun i hi => isLive_of_ready ht (hsub hi) ((ht.own i (hsub hi)).1 hi)
      have hnext := crew_putBatch r ht
      refine ⟨(Reaches.refl t).tail ⟨.decodeBatch hrows hr,rfl⟩,hnext.flight,?_⟩
      apply hnext.mono
      intro i _ hi
      refine ⟨hi.1,?_,hi.2.2⟩
      intro hl
      obtain ⟨box,hready,hbox⟩ := hi.2.1 hl
      exact ⟨⟨hready.status,hready.lastToken,hready.kvCache,hready.reason,hready.length⟩,hbox⟩
    · exact fun t e _ ht => ht
  exact hcall.bind (fun _ _ ht => ht)

theorem safe_decodeRow (hΦ : ∀ i, Patient (Φ i)) (hi : i ∈ ids) (h : Crew none ids run (update Φ i (Loaded m)) s) :
    (decodeRow eng i).Safe (serving eng may) (fun _ t => Crew none ids run (update Φ i (Swept m)) t)
      (Uncovered may) s := by
  unfold decodeRow
  have hopen : ∀ own : Own P L, Loaded m own → Open own := fun _ hown => hown.1.isOpen
  refine (safe_look _ (patient_update hΦ patient_loaded i) h).bind ?_
  rintro aborting s ⟨h,_⟩
  split
  · exact (safe_abortOne hΦ patient_loaded h hi hopen).mono (fun _ _ ht => ht.learn Or.inl) (fun _ _ => id)
  · refine (safe_stopIds rfl hΦ patient_loaded h hi hopen (fun _ _ hmay _ => ⟨.rowStopIds,hmay,rfl⟩)).bind ?_
    intro stop s h
    obtain ⟨⟨hready,_⟩,_⟩ := h.own_self hi
    have hlen : m ≤ (s.own i).1.outputIds.length := hready.length
    have h' := h.learn (ψ := fun own => Boxed (s.own i).1.outputIds.length .decoding own ∧ Stops eng stop own)
      (fun hown => ⟨⟨hown.1.1.status,rfl,hown.1.1.reason,hown.1.2⟩,hown.2⟩)
    refine (safe_sample rfl rfl hΦ h' hi (fun _ _ hmay _ => ⟨.rowSample,hmay,rfl⟩)).bind ?_
    intro token u h
    refine (safe_recordToken rfl hΦ h hi).bind ?_
    intro _ u h
    have hopen' : ∀ own : Own P L, Noted (s.own i).1.outputIds.length .decoding own ∧ Stops eng stop own → Open own :=
      fun own hown => open_of_status hown.1.status rfl
    refine (safe_look _ (patient_update hΦ (patient_noted.and patient_stops) i) h).bind ?_
    rintro finished u ⟨h,hfin⟩
    split
    · rename_i hf
      have h' := h.learn (ψ := fun own => Open own ∧ own.1.finishReason.isSome)
        (fun hown => ⟨hopen' _ hown,hfin.symm.trans hf⟩)
      refine (safe_finishSequence rfl "continuous" hΦ (fun _ _ hown => hown) h' hi (fun _ hown => hown.1)
        (fun _ hown => hown.2) (fun _ _ hmay _ => ⟨.rowPack,hmay,rfl⟩)).mono ?_ (fun _ _ => id)
      exact fun _ _ ht => ht.learn Or.inl
    · rename_i hf
      have hnone : (u.own i).1.finishReason = none := by
        rw [hfin] at hf
        simpa [System.own] using hf
      apply h.learn
      intro hown
      refine Or.inr (Or.inr ⟨hown.1.status,hown.1.lastToken,hown.1.kvCache,hnone,?_⟩)
      rw [hown.1.length]
      omega

theorem safe_decodeRows (hnd : rest.Nodup) (hsub : rest ⊆ ids) (hrun : rest ⊆ run) (hΨ : ∀ i, Patient (Ψ i))
    (h : Crew none ids run (Staged [] rest Ψ (fun i => Loaded (n i))
      (fun i own => Swept (n i) own ∧ Beside run i own)) s) :
    (decodeRows eng rest).Safe (serving eng may)
      (fun _ t => Crew none ids run (fun i own => Swept (n i) own ∧ Beside run i own) t) (Uncovered may) s := by
  induction rest generalizing s with
  | nil => exact h.mono (fun _ _ hj => hj.2.2 (by simp) (by simp))
  | cons i rest ih =>
    obtain ⟨hir,hnd'⟩ := List.nodup_cons.mp hnd
    have hirun : i ∈ run := hrun List.mem_cons_self
    have hstage : ∀ j, Patient (Staged [] (i :: rest) Ψ (fun i => Loaded (P := P) (L := L) (n i))
        (fun i own => Swept (n i) own ∧ Beside run i own) j) :=
      patient_staged hΨ (fun _ => patient_loaded) (fun i => patient_swept.and (patient_beside i))
    unfold decodeRows
    refine (safe_decodeRow hstage (hsub List.mem_cons_self) h.next).bind ?_
    intro _ t ht
    exact ih hnd' (fun j hj => hsub (List.mem_cons_of_mem _ hj)) (fun j hj => hrun (List.mem_cons_of_mem _ hj))
      (ht.pass (by simp) hir (fun hown => ⟨hown,fun hn => absurd hirun hn⟩))

theorem safe_decodeOneStep (hnd : run.Nodup) (hsub : run ⊆ ids)
    (h : Crew none ids run (Staged run [] (fun i => Ready (n i)) (fun _ => Fresh) (fun _ => Ended)) s) :
    (decodeOneStep eng run).Safe (serving eng may)
      (fun _ t => Crew none ids run (fun i own => Swept (n i) own ∧ Beside run i own) t) (Uncovered may) s := by
  have hpat : ∀ i, Patient (fun own : Own P L => Swept (n i) own ∧ Beside run i own) :=
    fun i => patient_swept.and (patient_beside i)
  unfold decodeOneStep
  have hstart : Crew none ids run (Staged [] run (fun _ => Ended) (fun i => Ready (n i))
      (fun i own => Settled (n i) own ∧ Beside run i own)) s := by
    apply h.mono
    intro i _ hi
    refine ⟨by simp,hi.1,?_⟩
    intro _ hr
    have hend := hi.2.2 hr (by simp)
    exact ⟨Or.inl hend,fun _ => hend⟩
  refine (safe_abortWanting hnd hsub (fun _ => id) hstart (fun _ => patient_ended)).bind ?_
  intro _ s h
  have hrows : Crew none ids run (Staged [] run (fun i => Ready (n i)) (fun i => Settled (n i))
      (fun i own => Swept (n i) own ∧ Beside run i own)) s := by
    apply h.mono
    intro i _ hi
    exact ⟨by simp,fun _ => hi.1,fun _ hr => ⟨Or.inl (hi.2 hr),hi.2⟩⟩
  refine (safe_liveRows (by simpa using hnd) (by simp) hrows).bind ?_
  rintro live s ⟨hlnd,hlsub,h⟩
  have hlids : live ⊆ ids := fun i hi => hsub (hlsub hi)
  split
  · rename_i hnil
    subst hnil
    exact h.mono (fun i _ hi => hi.2.2 (by simp) (by simp))
  · rename_i hne
    have hstage : ∀ i, Patient (Staged live [] (fun i => Ready (P := P) (L := L) (n i)) (fun i => Settled (n i))
        (fun i own => Swept (n i) own ∧ Beside run i own) i) :=
      patient_staged (fun _ => patient_ready) (fun _ => patient_settled) hpat
    refine (safe_stats (fun s => { s.stats with lastBatchSize := live.length }) (fun _ => id) hstage h).bind ?_
    intro _ s h
    refine Prog.Safe.bind (Q := fun ok t => if ok = true
      then Crew none ids run (Staged [] live (fun i => Ready (n i)) (fun i => Loaded (n i))
        (fun i own => Swept (n i) own ∧ Beside run i own)) t
      else Crew none ids run (fun i own => Swept (n i) own ∧ Beside run i own) t) ?_ ?_
    · refine Prog.Safe.tryCatch ((safe_batchCall hlnd hlids hpat (fun _ => patient_settled) h).bind ?_) ?_
      · exact fun _ _ ht => ht
      · intro e t ht
        refine (safe_contain hstage ht hlnd ?_).bind ?_
        · exact fun i hi => ⟨hlids hi,fun own hown => (hown.1 hi).isOpen⟩
        · intro _ u hu
          apply hu.mono
          intro i _ hi
          by_cases hil : i ∈ live
          · rw [if_pos hil] at hi
            exact ⟨Or.inl hi,fun hn => absurd (hlsub hil) hn⟩
          · rw [if_neg hil] at hi
            exact hi.2.2 hil (by simp)
    · intro ok t ht
      split
      · rename_i hok
        rw [if_pos hok] at ht
        exact safe_decodeRows hlnd hlids hlsub (fun _ => patient_ready) ht
      · rename_i hok
        rw [if_neg hok] at ht
        exact ht

/-- Between two rounds the worker holds what runs, and all of it is ready. -/
def AtTop (n : SeqId → ℕ) (run : List SeqId) (s : System P L) : Prop := Crew none run run (fun i => Ready (n i)) s

def Served (n : SeqId → ℕ) (ids run : List SeqId) (s : System P L) : Prop :=
  run.Nodup ∧ run ⊆ ids ∧ Crew none ids run (Staged run [] (fun i => Ready (n i + 1)) (fun _ => Fresh) (fun _ => Ended)) s

omit [Inhabited P] [Inhabited L] in
theorem Served.atTop (h : Served n ids run s) : AtTop (fun i => n i + 1) run s := by
  obtain ⟨hnd,hsub,hcrew⟩ := h
  refine ⟨hcrew.flight,hcrew.running,hnd,fun i hi => hcrew.admitted i (hsub hi),?_,?_⟩
  · intro i hi
    by_contra hir
    have hend : (s.heap i).status.terminal = true := (hcrew.own i (hcrew.complete i hi)).2.2 hir (by simp)
    rw [hi.2.2] at hend
    cases hend
  · exact fun i hi => (hcrew.own i (hsub hi)).1 hi

theorem safe_dropAborted {E : Exc → System P L → Prop} (h : AtTop n run s) :
    (dropAborted : Thread P L Unit).Safe (serving eng may) (fun _ t => ∃ kept, kept.Nodup ∧ kept ⊆ run ∧
      Crew none run kept (Staged kept [] (fun i => Ready (n i)) (fun i => Ready (n i)) (fun _ => Ended)) t) E s := by
  have hready : ∀ i, Patient (Ready (P := P) (L := L) (n i)) := fun _ => patient_ready
  unfold dropAborted
  refine (safe_running hready h).bind ?_
  rintro _ s ⟨rfl,h⟩
  have hstart : Crew none run run (Staged [] run (fun i => Ready (n i)) (fun i => Ready (n i)) (fun _ => Ended)) s :=
    h.mono (fun i hi hown => ⟨by simp,fun _ => hown,fun _ hir => absurd hi hir⟩)
  refine (safe_keepLive hready hready (fun _ _ hown _ => hown.isOpen) (by simp) (fun _ _ hown _ _ => hown)
    (by simpa using h.nodup) (by simp) hstart).bind ?_
  rintro kept s ⟨hnd,hsub,h⟩
  rw [List.nil_append] at hsub
  refine (safe_setRunning (patient_staged hready hready (fun _ => patient_ended)) h).mono ?_ (fun _ _ => id)
  exact fun _ t ht => ⟨kept,hnd,hsub,ht⟩

theorem safe_sweep {E : Exc → System P L → Prop} (hnd : run.Nodup) (hsub : run ⊆ ids)
    (h : Crew none ids run (fun i own => Swept (n i) own ∧ Beside run i own) s) :
    (sweep : Thread P L Unit).Safe (serving eng may) (fun _ t => ∃ run', run' ⊆ run ∧ Served n ids run' t) E s := by
  have hpat : ∀ i, Patient (fun own : Own P L => Swept (n i) own ∧ Beside run i own) :=
    fun i => patient_swept.and (patient_beside i)
  have hready : ∀ i, Patient (Ready (P := P) (L := L) (n i + 1)) := fun _ => patient_ready
  unfold sweep
  refine (safe_running hpat h).bind ?_
  rintro _ s ⟨rfl,h⟩
  have hstart : Crew none ids run (Staged [] run (fun i => Ready (n i + 1)) (fun i => Swept (n i)) (fun _ => Ended)) s :=
    h.mono (fun i _ hown => ⟨by simp,fun _ => hown.1,fun _ hir => hown.2 hir⟩)
  refine (safe_keepLive hready (fun _ => patient_swept) ?_ ?_ ?_ (by simpa using hnd) (by simpa using hsub)
    hstart).bind ?_
  · exact fun _ _ _ hst => hst
  · exact fun _ _ _ hst => hst
  · rintro i own (hend | ⟨_,habort⟩ | hnext) hopen hwants
    · rw [Ended,hopen] at hend
      cases hend
    · simp [Sequence.wantsAbort,habort] at hwants
    · exact hnext
  rintro still s ⟨hnd,hstill,h⟩
  rw [List.nil_append] at hstill
  refine (safe_setRunning (patient_staged hready (fun _ => patient_swept) (fun _ => patient_ended)) h).mono ?_
    (fun _ _ => id)
  intro _ t ht
  exact ⟨still,hstill,hnd,fun i hi => hsub (hstill hi),ht.mono (fun i _ hown => ⟨hown.1,by simp,hown.2.2⟩)⟩

theorem safe_decodePhase {b : ℕ} (hnd : run.Nodup) (hsub : run ⊆ ids) (hb : run.length ≤ b)
    (h : Crew none ids run (Staged run [] (fun i => Ready (n i)) (fun _ => Fresh) (fun _ => Ended)) s) :
    (decodePhase eng).Safe ((serving eng may).within (Label.Rows b))
      (fun _ t => ∃ run', run' ⊆ run ∧ Served n ids run' t) (Uncovered may) s := by
  have hpat : ∀ i, Patient (Staged run [] (fun i => Ready (P := P) (L := L) (n i)) (fun _ => Fresh)
      (fun _ => Ended) i) :=
    patient_staged (fun _ => patient_ready) (fun _ => patient_fresh) (fun _ => patient_ended)
  have hrows : ∀ live : List SeqId, live.length ≤ run.length → (Label.call .batchModel live).Rows b :=
    fun _ hlive => hlive.trans hb
  unfold decodePhase
  refine ((safe_running hpat h).within (Prog.emits_read.mpr trivial)).bind ?_
  rintro _ s ⟨rfl,h⟩
  split
  · rename_i hnil
    subst hnil
    exact ⟨[],List.Subset.refl _,hnd,hsub,h.mono (fun i _ hown => ⟨by simp,by simp,hown.2.2⟩)⟩
  · refine ((safe_decodeOneStep hnd hsub h).within ((permits_rows b).walk.decodeOneStep eng (fun _ => trivial)
      (fun _ => trivial) (permits_rows b).call hrows)).bind ?_
    intro _ t ht
    exact (safe_sweep hnd hsub ht).within (permits_rows b).walk.sweep

def runningCount (s : System P L) : ℕ := s.stats.running.length

/-- A round from `s₁` admits some, and leaves all it holds ended or one token
further. -/
def RoundEnd (eng : CachedEngine P L) (s₁ : System P L) (n : SeqId → ℕ) (run : List SeqId) (t : System P L) : Prop :=
  ∃ ids run' admitted, run ⊆ ids ∧ admitted ⊆ ids ∧ Admits eng runningCount s₁ t admitted ∧ Served n ids run' t

/-- After the admission the worker runs what it has kept, and is about to start
what it got. -/
structure Intaken (n : SeqId → ℕ) (run kept admitted : List SeqId) (s : System P L) : Prop where
  nodup : (kept ++ admitted).Nodup
  subset : kept ++ admitted ⊆ run ++ admitted
  new : ∀ i ∈ admitted, i ∉ run
  crew : Crew none (run ++ admitted) kept (Staged kept admitted (fun i => Ready (n i)) (fun _ => Fresh) (fun _ => Ended)) s

omit [Inhabited P] [Inhabited L] in
theorem intaken_of_crew {kept admitted : List SeqId} (hknd : kept.Nodup) (hksub : kept ⊆ run)
    (h : Crew none (run ++ admitted) kept (fun j own =>
      (j ∈ run → Staged kept [] (fun i => Ready (n i)) (fun i => Ready (n i)) (fun _ => Ended) j own) ∧
      (j ∈ admitted → Fresh own)) s) : Intaken n run kept admitted s := by
  have hdisj : ∀ i ∈ admitted, i ∉ run :=
    fun i ha hr => List.disjoint_of_nodup_append h.nodup hr ha
  refine ⟨?_,?_,hdisj,?_⟩
  · rw [List.nodup_append]
    refine ⟨hknd,h.nodup.of_append_right,?_⟩
    rintro i hk _ ha rfl
    exact hdisj i ha (hksub hk)
  · exact List.append_subset_of_subset_of_subset (fun i hi => List.mem_append_left _ (hksub hi))
      (List.subset_append_right _ _)
  · apply h.mono
    intro i hi hown
    refine ⟨fun hk => (hown.1 (hksub hk)).1 hk,hown.2,?_⟩
    intro hk ha
    have hir : i ∈ run := (List.mem_append.mp hi).resolve_right ha
    exact (hown.1 hir).2.2 hk (by simp)

/-- An iteration of a worker with at most `b` sequences runs at most `b` sequences. -/
theorem safe_iterate_within {b : ℕ} {s₁ : System P L} (hs : Reaches (Step eng) s₁ s) (hn : ∀ i, i ∉ run → n i = 0)
    (h : AtTop n run s) (hrun : run.length ≤ b) (hmax : ∀ t, Reaches (Step eng) s₁ t → t.scheduler.maxBatch ≤ b) :
    (iterate eng).Safe ((serving eng may).within (Label.Rows b))
      (fun _ t => RoundEnd eng s₁ n run t ∧ t.stats.running.length ≤ b) (Uncovered may) s := by
  unfold iterate
  refine ((safe_since (safe_dropAborted h) hs).within (permits_rows b).walk.dropAborted).bind ?_
  rintro _ s ⟨⟨kept,hknd,hksub,h⟩,hs⟩
  refine ((safe_admitRequests runningCount (patient_staged (fun _ => patient_ready) (fun _ => patient_ready)
    (fun _ => patient_ended)) hs h).within ((permits_rows b).walk.admitRequests _)).bind ?_
  rintro admitted s ⟨hadmits,⟨u,hu,hsu,hroom⟩,h⟩
  obtain ⟨hnd,hsub,hnew,hcrew⟩ := intaken_of_crew hknd hksub h
  have hkept : kept.length ≤ b := (hknd.subperm hksub).length_le.trans hrun
  have hheld : (kept ++ admitted).length ≤ b := by
    have hu' := hmax u hsu
    unfold runningCount at hroom
    rw [hu] at hroom
    rw [List.length_append]
    omega
  have hstartAll : (startAll eng admitted).Safe (serving eng may)
      (fun _ t => ∃ run', (run' ++ []).Nodup ∧ run' ⊆ kept ++ admitted ∧
        Crew none (run ++ admitted) run'
          (Staged run' [] (fun i => Ready (n i)) (fun _ => Fresh) (fun _ => Ended)) t)
      (Uncovered may) s := by
    refine safe_startAll ?_ ?_ (fun i hi => hn i (hnew i hi)) ?_
    · rwa [List.append_nil]
    · rw [List.append_nil]
      exact List.subset_append_right _ _
    · rwa [List.append_nil]
  refine ((safe_since hstartAll (.refl s)).within ((permits_rows b).walk.startAll eng (fun _ => trivial)
    (permits_rows b).call admitted)).bind ?_
  rintro _ t ⟨⟨run',hnd',hsub',h⟩,hst⟩
  rw [List.append_nil] at hnd'
  have hrun' : run'.length ≤ b := (hnd'.subperm hsub').length_le.trans hheld
  have hdecode : (decodePhase eng).Safe ((serving eng may).within (Label.Rows b)) _ (Uncovered may) t :=
    safe_decodePhase hnd' (fun i hi => hsub (hsub' hi)) hrun' h
  refine (safe_since_within hdecode hst).mono ?_ (fun _ _ => id)
  rintro _ u ⟨⟨run₂,hsub₂,hserved⟩,hsu⟩
  refine ⟨⟨_,run₂,admitted,List.subset_append_left _ _,List.subset_append_right _ _,hadmits.trans hsu,hserved⟩,?_⟩
  rw [hserved.2.2.running]
  exact (hserved.1.subperm hsub₂).length_le.trans hrun'

/-- A round serves everything that runs by at least one token, and runs no more than
`b` sequences when it began with no more. -/
theorem safe_continuousRound_within {b : ℕ} (hn : ∀ i, i ∉ run → n i = 0) (h : AtTop n run s) (hrun : run.length ≤ b)
    (hmax : ∀ t, Reaches (Step eng) s t → t.scheduler.maxBatch ≤ b) :
    (continuousRound eng).Safe ((serving eng may).within (Label.Rows b))
      (fun more t => if more = true then RoundEnd eng s n run t ∧ t.stats.running.length ≤ b
        else t.stop = true ∧ AtTop n run t) (Uncovered may) s := by
  have hready : ∀ i, Patient (Ready (P := P) (L := L) (n i)) := fun _ => patient_ready
  unfold continuousRound
  refine ((safe_since (safe_look _ hready h) (.refl s)).within (Prog.emits_read.mpr trivial)).bind ?_
  rintro stopped t ⟨⟨h,hstop⟩,hst⟩
  split
  · rename_i hs
    exact ⟨hstop.symm.trans hs,h⟩
  · have hidle : ∀ t : System P L, (decide (t.stats.running = []) && decide (t.waiting = [])) = true →
        t.stats.running = run → run = [] := by
      intro t ht hrun
      simp only [Bool.and_eq_true,decide_eq_true_eq] at ht
      exact hrun.symm.trans ht.1
    refine ((safe_since (safe_waitIfIdle hready h hidle) hst).within ((permits_rows b).walk.waitIfIdle _)).bind ?_
    rintro _ t ⟨h,hst⟩
    refine ((safe_since (safe_look _ hready h) hst).within (Prog.emits_read.mpr trivial)).bind ?_
    rintro stopped t ⟨⟨h,hstop⟩,hst⟩
    split
    · rename_i hs
      exact ⟨hstop.symm.trans hs,h⟩
    · refine (safe_iterate_within hst hn h hrun hmax).bind ?_
      exact fun _ u hu => hu

theorem safe_continuousRound (hn : ∀ i, i ∉ run → n i = 0) (h : AtTop n run s) :
    (continuousRound eng).Safe (serving eng may)
      (fun more t => if more = true then RoundEnd eng s n run t else t.stop = true ∧ AtTop n run t)
      (Uncovered may) s := by
  have hmax : ∀ t, Reaches (Step eng) s t → t.scheduler.maxBatch ≤ max run.length s.scheduler.maxBatch := by
    intro t ht
    rw [maxBatch_of_reaches ht]
    exact le_max_right _ _
  have hround : (continuousRound eng).Safe ((serving eng may).within (Label.Rows _)) _ (Uncovered may) s :=
    safe_continuousRound_within hn h (le_max_left _ _) hmax
  refine hround.of_within.mono ?_ (fun _ _ => id)
  intro more t ht
  cases more with
  | true => exact ht.1
  | false => exact ht

def Rested (s : System P L) : Prop := ∃ run, AtTop (fun _ => 0) run s

omit [Inhabited P] [Inhabited L] in
theorem AtTop.rested (h : AtTop n run s) : Rested s :=
  ⟨run,h.mono (fun _ _ hown => ⟨hown.status,hown.lastToken,hown.kvCache,hown.reason,Nat.zero_le _⟩)⟩

theorem continuous_verified :
    (continuous eng).Verified (serving eng may) Rested (fun s => s.stop = true ∧ Rested s) Finished
      (Uncovered may) := by
  constructor
  · exact serving_sound may
  · rintro s ⟨run,h⟩
    refine (safe_continuousRound (fun _ _ => rfl) h).mono ?_ (fun _ _ => id)
    intro more t ht
    cases more with
    | true =>
      obtain ⟨ids,run',_,_,_,_,hserved⟩ := ht
      exact hserved.atTop.rested
    | false => exact ⟨ht.1,ht.2.rested⟩
  · rintro s ⟨_,run,h⟩
    exact safe_abortLeftovers (fun _ => patient_ready) (fun _ _ hown => hown.isOpen) h

end Worker
end FluxEngine
