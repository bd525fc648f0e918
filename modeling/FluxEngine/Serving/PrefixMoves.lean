import FluxEngine.Serving.Queue

/-! # Prefixes over a step

A step stores a prefix only when a prefill is stored, and changes the prefix of
an accepted sequence only when it binds it to a hit or ends it.
-/
namespace FluxEngine
open Transition
variable {P L : Type}

/-- What `_prefill_with_reuse` reads of a bound prefix. -/
def Sequence.prefixUse (seq : Sequence P L) : ℕ × Option (KvCache P) × Option L :=
  (seq.prefixTokens,seq.prefixKv,seq.prefixLogits)

def Unstarted (own : Own P L) : Prop := own.1.outputIds = [] ∧ own.2 = none

def PrefixHit.use (hit : PrefixHit P L) : ℕ × Option (KvCache P) × Option L :=
  (hit.nTokens,some hit.kvCache,hit.lastLogits)

theorem Sequence.prefixUse_of_prefixPart {x y : Sequence P L} (h : x.prefixPart = y.prefixPart) :
    x.prefixUse = y.prefixUse :=
  congrArg Prod.snd h

variable {eng : CachedEngine P L} {s t : System P L} {i : SeqId} {ev : Event}

/-- What one step does to the prefix of a sequence. -/
inductive PrefixMove (ev : Event) (i : SeqId) (s t : System P L) : Prop
  | keep : (t.heap i).prefixUse = (s.heap i).prefixUse →
      ((t.heap i).prefixKey = none → (s.heap i).prefixKey = none) → PrefixMove ev i s t
  | drop : (t.heap i).status.terminal = true → (t.heap i).prefixKv = none → PrefixMove ev i s t
  | take (hit : PrefixHit P L) : i ∈ s.waiting ∨ (∃ now, ev = .bind i now) →
      s.scheduler.peekPrefix (s.heap i).promptTokenIds = some hit → (t.heap i).prefixUse = hit.use →
      (t.heap i).prefixKey ≠ none → PrefixMove ev i s t

theorem PrefixMove.of_prefixPart (h : (t.heap i).prefixPart = (s.heap i).prefixPart) : PrefixMove ev i s t := by
  refine .keep (Sequence.prefixUse_of_prefixPart h) ?_
  rw [Sequence.prefixKey_of_prefixPart h]
  exact id

theorem PrefixMove.of_heap (h : t.heap i = s.heap i) : PrefixMove ev i s t := .of_prefixPart (by rw [h])

theorem PrefixMove.of_hit {hit : PrefixHit P L} (hwhen : i ∈ s.waiting ∨ ∃ now, ev = .bind i now)
    (hpeek : s.scheduler.peekPrefix (s.heap i).promptTokenIds = some hit)
    (h : (t.heap i).prefixPart = (Scheduler.applyHit (s.heap i) hit).prefixPart) : PrefixMove ev i s t := by
  refine .take hit hwhen hpeek (Sequence.prefixUse_of_prefixPart h) ?_
  rw [Sequence.prefixKey_of_prefixPart h]
  simp [Scheduler.applyHit]

theorem prefixMove_modify (j : SeqId) {f : Sequence P L → Sequence P L} (hf : ∀ x, (f x).prefixPart = x.prefixPart) :
    PrefixMove ev i s (s.modify j f) := by
  refine .of_prefixPart ?_
  rw [System.modify_heap]
  by_cases hij : i = j
  · subst hij
    rw [Function.update_self,hf]
  · rw [Function.update_of_ne hij]

theorem prefixMove_terminate (j : SeqId) {mark : Sequence P L → Sequence P L} (hm : System.Ends mark)
    (hs : t.heap = s.heap) : PrefixMove ev i s (t.terminate j mark) := by
  by_cases hij : i = j
  · subst hij
    exact .drop hm.terminated System.terminate_heap_self.2.2
  · refine .of_heap ?_
    rw [System.terminate_heap_of_ne hij,hs]

variable [Inhabited P] [Inhabited L]

omit [Inhabited P] [Inhabited L] in
theorem System.storePrefix_prefixKey (now : ℕ → ℕ) (h : ((s.storePrefix i now).heap i).prefixKey = none) :
    (s.heap i).prefixKey = none := by
  unfold System.storePrefix at h
  split at h
  · cases hkey : (s.heap i).prefixKey with
    | none => rfl
    | some k =>
      simp only [PrefixCache.adopt,hkey,Function.update_self] at h
      cases h
  · exact h

theorem Step.prefixMove (hb : s.Books False) (h : Step eng ev s t) (hi : i ∈ s.accepted) : PrefixMove ev i s t := by
  cases h with
  | @submit _ j prompt sampling hj =>
    have hij : i ≠ j := fun hij => hj (hij ▸ hi)
    refine .of_heap ?_
    rcases s.submit_cases j prompt sampling with heq | ⟨queue,_,heq⟩
    · rw [heq]
    · rw [heq]
      exact Function.update_of_ne hij _ _
  | requestAbort j => exact prefixMove_modify j (fun _ => rfl)
  | adminAbort j =>
    unfold System.adminAbort
    split
    · exact prefixMove_terminate j System.ends_abort rfl
    · split
      · exact prefixMove_modify j (fun _ => rfl)
      · exact .of_heap rfl
  | admission now =>
    rcases hb.admitRound_cases now False.elim with ⟨_,heq⟩ | ⟨j,queue,_,hj,_,⟨sch,seq,heq,hg⟩ | ⟨sch,heq,_⟩⟩
    · rw [heq]
      exact .of_heap rfl
    · rw [heq]
      by_cases hij : i = j
      · subst hij
        rcases hg.bound with ⟨_,hpart,_⟩ | ⟨hit,hpeek,hpart,_⟩
        · refine .of_prefixPart ?_
          simp only [Function.update_self]
          exact hpart
        · refine .of_hit (Or.inl hj) hpeek ?_
          simp only [Function.update_self]
          exact hpart
      · exact .of_heap (Function.update_of_ne hij _ _)
    · rw [heq]
      exact .of_heap rfl
  | @setStatus _ j status hj hstatus => exact prefixMove_modify j (fun _ => rfl)
  | @bind _ j now hj =>
    obtain ⟨hre,hpart⟩ := hb.bind hj now False.elim
    by_cases hij : i = j
    · subst hij
      rcases hpart with hpart | ⟨hit,hpeek,hpart⟩
      · exact .of_prefixPart hpart
      · exact .of_hit (Or.inr ⟨now,rfl⟩) hpeek hpart
    · exact .of_heap (hre.off i hij)
  | @store _ j now hj ho =>
    obtain ⟨hre,hpart⟩ := hb.store hj now
    by_cases hij : i = j
    · subst hij
      rcases hpart with heq | ⟨h1,h2,h3⟩
      · exact .of_heap heq
      · refine .keep ?_ ?_
        · unfold Sequence.prefixUse
          rw [h1,h2,h3]
        · exact System.storePrefix_prefixKey now
    · exact .of_heap (hre.off i hij)
  | @note _ j logits kv rnd hj hf ho =>
    by_cases hij : i = j
    · subst hij
      refine .of_prefixPart ?_
      simp only [System.recordToken,System.modify,Function.update_self,Sequence.noteToken_eq]
      rfl
    · exact .of_heap (Function.update_of_ne hij _ _)
  | @abort _ j hj => exact prefixMove_terminate j System.ends_abort rfl
  | @fail _ j e hj => exact prefixMove_terminate j (System.ends_fail e) rfl
  | @finish _ j reason engineName hj hf => exact prefixMove_terminate j (System.ends_finish _) rfl
  | drain =>
    rcases s.drainOne_cases with ⟨_,heq⟩ | ⟨j,queue,_,_,heq⟩
    · rw [heq]
      exact .of_heap rfl
    · rw [heq]
      exact prefixMove_terminate j System.ends_abort rfl
  | _ => exact .of_heap rfl

/-- What is stored was stored before, or is a part of a prefill. -/
theorem Step.contentAt (h : Step eng ev s t) {k : List Token} {x : List Token × KvCache P × Option L}
    (hk : t.scheduler.contentAt k = some x) : s.scheduler.contentAt k = some x ∨
    ∃ j logits kv n, j ∈ s.accepted ∧ (s.heap j).outputIds = [] ∧ s.outbox j = some (logits,kv) ∧
      n ≤ (s.heap j).promptTokenIds.length ∧ k = (s.heap j).promptTokenIds.take n ∧
      x = (k,sliceCache kv n,if n = (s.heap j).promptTokenIds.length then some logits else none) := by
  cases h with
  | @submit _ j prompt sampling hj =>
    refine Or.inl ?_
    rcases s.submit_cases j prompt sampling with heq | ⟨queue,_,heq⟩
    · rwa [heq] at hk
    · rwa [heq] at hk
  | adminAbort j =>
    refine Or.inl ?_
    unfold System.adminAbort at hk
    split at hk
    · rwa [System.abortOne,System.terminate_contentAt] at hk
    · split at hk
      · exact hk
      · exact hk
  | admission now =>
    rw [s.admitRound_contentAt now k] at hk
    exact Or.inl hk
  | @bind _ j now hj =>
    rw [s.bindPrefixAtPrefill_contentAt j now k] at hk
    exact Or.inl hk
  | @store _ j now hj ho =>
    rcases System.storePrefix_contentAt hk with hold | ⟨logits,kv,n,hbox,hn,hkey,hx⟩
    · exact Or.inl hold
    · exact Or.inr ⟨j,logits,kv,n,hj.1,ho,hbox,hn,hkey,hx⟩
  | abort hj =>
    rw [System.abortOne,System.terminate_contentAt] at hk
    exact Or.inl hk
  | fail e hj =>
    rw [System.failOne,System.terminate_contentAt] at hk
    exact Or.inl hk
  | finish engineName hj hf =>
    rw [System.conclude,System.terminate_contentAt] at hk
    exact Or.inl hk
  | drain =>
    refine Or.inl ?_
    rcases s.drainOne_cases with ⟨_,heq⟩ | ⟨j,queue,_,_,heq⟩
    · rwa [heq] at hk
    · rw [heq,System.abortOne,System.terminate_contentAt] at hk
      exact hk
  | _ => exact Or.inl hk

end FluxEngine
