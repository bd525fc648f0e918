import FluxEngine.Engine.Eviction
import FluxEngine.Serving.PrefixSoundness

/-! # Prefix references over whole runs

The references on an entry count the live sequences that are bound to it, and
an eviction takes only what nobody refers to.
-/
namespace FluxEngine
open OrderedDict Transition
variable {P L : Type} {s t : System P L}

/-- Kept by every operation on a prefix cache. -/
structure PrefixCache.Kept (I : PrefixCache P L → Prop) : Prop where
  start : ∀ c, c.entries = .empty → c.blockPins = .empty → I c
  lookup : ∀ c pool tokenIds now, I c → I (c.lookup pool tokenIds now).2.1
  release : ∀ c pool key, I c → I (c.release pool key).1
  insert : ∀ c pool tokenIds kvCache lastLogits now, I c → I (c.insert pool tokenIds kvCache lastLogits now).1
  adopt : ∀ c pool id seq now, I c → I (c.adopt pool id seq now).1

/-- Kept by every operation that reads the clock in `T`. -/
structure PrefixCache.KeptAt (T : ℕ → Prop) (I : PrefixCache P L → Prop) : Prop where
  start : ∀ c, c.entries = .empty → c.blockPins = .empty → I c
  lookup : ∀ c pool tokenIds now, T now → I c → I (c.lookup pool tokenIds now).2.1
  release : ∀ c pool key, I c → I (c.release pool key).1
  insert : ∀ c pool tokenIds kvCache lastLogits now, T now → I c →
    I (c.insert pool tokenIds kvCache lastLogits now).1
  adopt : ∀ c pool id seq now, T now → I c → I (c.adopt pool id seq now).1

theorem PrefixCache.Kept.keptAt {I : PrefixCache P L → Prop} (h : PrefixCache.Kept I) (T : ℕ → Prop) :
    PrefixCache.KeptAt T I where
  start := h.start
  lookup c pool tokenIds now _ := h.lookup c pool tokenIds now
  release := h.release
  insert c pool tokenIds kvCache lastLogits now _ := h.insert c pool tokenIds kvCache lastLogits now
  adopt c pool id seq now _ := h.adopt c pool id seq now

/-- Every clock reading of the step is in `T`. -/
def Event.ReadsWithin (T : ℕ → Prop) : Event → Prop
  | .admission now => T now
  | .bind _ now => T now
  | .store _ now => T (now 0) ∧ T (now 1)
  | _ => True

namespace Scheduler
variable {T : ℕ → Prop} {I : PrefixCache P L → Prop} {sch : Scheduler P L} {now : ℕ}

def CacheHas (I : PrefixCache P L → Prop) (sch : Scheduler P L) : Prop := ∀ c, sch.prefixCache = some c → I c

theorem CacheHas.lookupPrefix (hI : PrefixCache.KeptAt T I) (h : sch.CacheHas I) (tokenIds : List Token) (hnow : T now) :
    (sch.lookupPrefix tokenIds now).2.CacheHas I := by
  unfold Scheduler.lookupPrefix
  cases hc : sch.prefixCache with
  | none => exact h
  | some c =>
    rintro _ ⟨⟩
    exact hI.lookup c _ _ _ hnow (h c hc)

theorem CacheHas.releasePrefix (hI : PrefixCache.KeptAt T I) (h : sch.CacheHas I) (key : Option (List Token)) :
    (sch.releasePrefix key).CacheHas I := by
  unfold Scheduler.releasePrefix
  cases hc : sch.prefixCache with
  | none => exact h
  | some c =>
    rintro _ ⟨⟩
    exact hI.release c _ _ (h c hc)

theorem CacheHas.tryAllocate (hI : PrefixCache.KeptAt T I) (h : sch.CacheHas I) (id : SeqId) (seq : Sequence P L)
    (hnow : T now) : (sch.tryAllocate id seq now).2.1.CacheHas I := by
  have hl := h.lookupPrefix hI seq.promptTokenIds hnow
  unfold Scheduler.tryAllocate
  rcases hlk : sch.lookupPrefix seq.promptTokenIds now with ⟨hit,sch'⟩
  rw [hlk] at hl
  simp only
  cases sch'.pool with
  | none => exact hl
  | some p =>
    simp only [BlockPool.allocate_eq]
    split
    · cases hit with
      | none => exact hl
      | some hit => exact CacheHas.releasePrefix hI hl (some hit.tokenIds)
    · exact hl

end Scheduler

variable [Inhabited P] [Inhabited L] {eng : CachedEngine P L}

theorem Step.cacheHas {T : ℕ → Prop} {I : PrefixCache P L → Prop} (hI : PrefixCache.KeptAt T I) {ev : Event}
    (h : Step eng ev s t) (hev : ev.ReadsWithin T) (hs : s.scheduler.CacheHas I) : t.scheduler.CacheHas I := by
  have hterm : ∀ {u : System P L} (i : SeqId) (mark : Sequence P L → Sequence P L), u.scheduler.CacheHas I →
      (u.terminate i mark).scheduler.CacheHas I := by
    intro u i mark hu c hc
    rw [System.terminate_prefixCache] at hc
    exact Scheduler.CacheHas.releasePrefix hI hu _ c hc
  cases h with
  | @submit _ j prompt sampling _ =>
    rcases s.submit_cases j prompt sampling with heq | ⟨queue,_,heq⟩
    · rw [heq]
      exact hs
    · rw [heq]
      exact hs
  | adminAbort j =>
    unfold System.adminAbort
    split
    · exact hterm j _ hs
    · split
      · exact hs
      · exact hs
  | admission now =>
    rcases s.admitRound_cases now with ⟨_,heq⟩ | ⟨i,queue,ok,sch,seq,_,_,htry,heq⟩
    · rw [heq]
      exact hs
    · have hq : Scheduler.CacheHas I { s.scheduler with queue := queue } := hs
      have hk := hq.tryAllocate hI i (s.heap i) hev
      rw [htry] at hk
      rw [heq]
      cases ok with
      | true => exact hk
      | false => exact hk
  | @bind _ i now _ =>
    have hl := hs.lookupPrefix hI (s.heap i).promptTokenIds hev
    unfold System.bindPrefixAtPrefill
    split
    · exact hs
    · rcases hlk : s.scheduler.lookupPrefix (s.heap i).promptTokenIds now with ⟨hit,sch⟩
      rw [hlk] at hl
      cases hit with
      | none => exact hl
      | some hit =>
        simp only [System.bindHit]
        cases sch.pool with
        | none => exact hl
        | some p => exact hl
  | @store _ i now _ _ =>
    unfold System.storePrefix
    cases hc : s.scheduler.prefixCache with
    | none => exact hs
    | some c =>
      cases s.outbox i with
      | none => exact hs
      | some r =>
        obtain ⟨logits,kv⟩ := r
        have hins := hI.insert c s.scheduler.pool (s.heap i).promptTokenIds (some kv) (some logits) (now 0) hev.1
          (hs c hc)
        rcases hr : c.insert s.scheduler.pool (s.heap i).promptTokenIds (some kv) (some logits) (now 0) with ⟨c₁,pool₁⟩
        rw [hr] at hins
        have had := hI.adopt c₁ pool₁ i (s.heap i) (now 1) hev.2 hins
        simp only [hr]
        intro c₂ hc₂
        rw [Option.some.inj hc₂] at had
        exact had
  | abort _ => exact hterm _ _ hs
  | fail e _ => exact hterm _ _ hs
  | finish engineName _ _ => exact hterm _ _ hs
  | drain =>
    rcases s.drainOne_cases with ⟨_,heq⟩ | ⟨i,queue,_,_,heq⟩
    · rw [heq]
      exact hs
    · rw [heq]
      exact hterm i _ hs
  | _ => exact hs

theorem cacheHas_of_reads {T : ℕ → Prop} {I : PrefixCache P L → Prop} {s₀ : System P L} (h0 : s₀.Initial)
    (hI : PrefixCache.KeptAt T I) (hr : Reaches (guarded (fun ev _ => ev.ReadsWithin T) (Step eng)) s₀ s) :
    s.scheduler.CacheHas I := by
  refine hr.invariant (P := fun s => s.scheduler.CacheHas I) ?_ (fun ev s t hs hst => hst.2.cacheHas hI hst.1 hs)
  intro c hc
  obtain ⟨hentries,hpins⟩ := h0.cache c hc
  exact hI.start c hentries hpins

theorem Reachable.cacheHas {I : PrefixCache P L → Prop} (h : Reachable eng s) (hI : PrefixCache.Kept I) :
    s.scheduler.CacheHas I := by
  obtain ⟨s₀,h0,hr⟩ := h
  have hreads : Reaches (guarded (fun ev _ => ev.ReadsWithin (fun _ => True)) (Step eng)) s₀ s := by
    refine hr.mono ?_
    intro ev s t hst
    refine ⟨?_,hst⟩
    cases ev <;> simp [Event.ReadsWithin]
  exact cacheHas_of_reads h0 (hI.keptAt _) hreads

omit [Inhabited P] [Inhabited L] in
theorem PrefixCache.kept_bounded : PrefixCache.Kept (P := P) (L := L) PrefixCache.Bounded := by
  refine ⟨?_,?_,?_,?_,?_⟩
  · intro c hentries _
    unfold PrefixCache.Bounded
    rw [hentries]
    exact Nat.zero_le _
  · exact fun _ _ tokenIds now h => h.lookup tokenIds now
  · exact fun _ _ key h => h.release key
  · exact fun _ _ tokenIds kvCache lastLogits now h => h.insert tokenIds kvCache lastLogits now
  · exact fun _ _ id seq now h => h.adopt id seq now

def System.bound (s : System P L) (k : List Token) : ℕ :=
  s.accepted.countP (fun i => decide (s.Live i ∧ (s.heap i).prefixKey = some k))

omit [Inhabited P] [Inhabited L] in
theorem System.Books.bound_eq (h : s.Books False) (k : List Token) : s.bound k = s.held k := by
  refine List.countP_congr ?_
  intro i hi
  simp only [System.holds,decide_eq_true_eq,Bool.and_eq_true,Bool.not_eq_true']
  constructor
  · rintro ⟨⟨_,_,hlive⟩,hk⟩
    exact ⟨hlive,hk⟩
  · rintro ⟨hlive,hk⟩
    refine ⟨⟨hi,?_,hlive⟩,hk⟩
    intro hw
    rw [(h.waiting i hw).2.prefixKey] at hk
    cases hk

/-- In every reachable state the references are the bound live sequences, whose keys
are stored; who has no reference holds no block; the cache keeps its size; and
every eviction of an insertion takes the least recently used unreferenced entry. -/
theorem prefix_refs_exact (h : Reachable eng s) {c : PrefixCache P L} (hc : s.scheduler.prefixCache = some c) :
    (∀ k e, c.entries.get? k = some e → e.refs = s.bound k) ∧
    (∀ i k, s.Live i → (s.heap i).prefixKey = some k → ∃ e, c.entries.get? k = some e) ∧
    (∀ k e, c.entries.get? k = some e → e.refs = 0 → e.blockIds = []) ∧
    c.entries.size ≤ c.maxEntries ∧
    ∀ tokenIds kvCache lastLogits now,
      (∀ p ∈ c.insertVictims s.scheduler.pool tokenIds kvCache lastLogits now, p.1.Evictable p.2) ∧
      ∀ k e, c.entries.get? k = some e →
        (c.insert s.scheduler.pool tokenIds kvCache lastLogits now).1.entries.get? k = none →
        ∃ p ∈ c.insertVictims s.scheduler.pool tokenIds kvCache lastLogits now, p.2.tokenIds = k := by
  have hb := books_of_reachable h
  have hcb : c.Books False s.scheduler.pool s.held := by
    have := hb.books
    unfold Scheduler.Books at this
    rwa [hc] at this
  refine ⟨?_,?_,?_,h.cacheHas PrefixCache.kept_bounded c hc,?_⟩
  · intro k e he
    rw [hb.bound_eq]
    exact hcb.refs_eq he
  · intro i k hi hk
    apply hcb.stored_of_held
    rw [← hb.bound_eq]
    exact List.countP_pos_iff.mpr ⟨i,hi.1,decide_eq_true ⟨hi,hk⟩⟩
  · intro k e he hr
    exact hcb.unused k e he (Or.inl hr)
  · intro tokenIds kvCache lastLogits now
    exact ⟨hcb.insertVictims tokenIds kvCache lastLogits now,fun k e he hgone => PrefixCache.mem_insertVictims he hgone⟩

theorem prefix_refs_exact_reused : ∃ s c e, Reachable (FakeLm.engine {}) s ∧ s.scheduler.prefixCache = some c ∧
    c.entries.get? [5,6] = some e ∧ e.refs = s.bound [5,6] ∧ s.bound [5,6] = 1 := by
  have hobs : (execAll (FakeLm.engine {}) reusedRun roomySystem).map
      (fun s => ((s.scheduler.prefixCache.bind (fun c => c.entries.get? [5,6])).map PrefixEntry.refs,s.bound [5,6])) =
      some (some 1,1) := by decide
  obtain ⟨s,hs,hobs⟩ := Option.map_eq_some_iff.mp hobs
  simp only [Prod.mk.injEq] at hobs
  obtain ⟨e,he,_⟩ := Option.map_eq_some_iff.mp hobs.1
  obtain ⟨c,hc,he⟩ := Option.bind_eq_some_iff.mp he
  have hreach : Reachable (FakeLm.engine {}) s := ⟨roomySystem,roomySystem_initial,_,execAll_run hs⟩
  exact ⟨s,c,e,hreach,hc,he,(prefix_refs_exact hreach hc).1 [5,6] e he,hobs.2⟩

end FluxEngine
