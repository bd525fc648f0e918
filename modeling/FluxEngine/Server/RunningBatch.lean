import FluxEngine.Engine.FakeModel
import FluxEngine.Serving.CacheLengths
import FluxEngine.Serving.ModelCaches
import FluxEngine.Serving.Pace
import FluxEngine.Server.Requests
import FluxEngine.Server.Visibility

/-! # The running batch of the continuous worker

Between two rounds everybody in the running list is in the middle of its
decoding: it has some of its tokens, none of them a stop token, and a cache that
lacks the last of them.
-/
namespace FluxEngine
open Transition Interleaving
open Relation (ReflTransGen)
variable {P L : Type} {eng : CachedEngine P L} {s s₀ t : System P L} {i : SeqId}

variable [Inhabited P] [Inhabited L] {may : Site → Bool}

open Worker in
theorem continuous_within (b : ℕ) :
    (continuous eng).Verified ((serving eng may).within (Label.Rows b))
      (fun s => Rested s ∧ s.stats.running.length ≤ b ∧ s.scheduler.maxBatch = b)
      (fun s => s.stop = true ∧ Rested s) Finished (Uncovered may) := by
  constructor
  · exact (serving_sound may).within _
  · rintro s ⟨⟨run,h⟩,hrun,hmax⟩
    rw [h.running] at hrun
    have hbatch : ∀ t, Reaches (Step eng) s t → t.scheduler.maxBatch = b :=
      fun t ht => (maxBatch_of_reaches ht).trans hmax
    have hround : (continuousRound eng).Safe ((serving eng may).within (Label.Rows b)) _ (Uncovered may) s :=
      safe_continuousRound_within (fun _ _ => rfl) h hrun (fun t ht => (hbatch t ht).le)
    refine (safe_since_within hround (.refl s)).mono ?_ (fun _ _ => id)
    rintro more t ⟨ht,hst⟩
    cases more with
    | true =>
      obtain ⟨⟨ids,run',_,_,_,_,hserved⟩,hlen⟩ := ht
      exact ⟨hserved.atTop.rested,hlen,hbatch t hst⟩
    | false => exact ⟨ht.1,ht.2.rested⟩
  · rintro s ⟨_,run,h⟩
    refine (safe_abortLeftovers (fun _ => patient_ready) (fun _ _ hown => hown.isOpen) h).within ?_
    exact Prog.emits_write.mpr trivial

/-- In the middle of its decoding, with a cache for all but its last token. -/
structure Decoding (eng : CachedEngine P L) (nLayers : ℕ) (x : Sequence P L) : Prop where
  status : x.status = .decoding
  output : x.outputIds ≠ []
  below : x.outputIds.length < x.sampling.maxTokens
  stops : ∀ token ∈ x.outputIds, token ∉ x.stopIds eng
  lastToken : x.lastToken = x.outputIds.getLast?
  cache : ∃ kv, x.kvCache = some kv ∧ kv.Shaped nLayers 1 (x.promptTokenIds.length + x.outputIds.length - 1)

/-- The running list is a batch, apart from the queue, and everybody in it decodes. -/
structure RunningBatch (eng : CachedEngine P L) (nLayers : ℕ) (t : System P L) : Prop where
  size : t.stats.running.length ≤ t.scheduler.maxBatch
  nodup : t.stats.running.Nodup
  apart : ∀ i ∈ t.stats.running, i ∉ t.waiting
  decoding : ∀ i ∈ t.stats.running, Decoding eng nLayers (t.heap i)

theorem decoding_of_ready (M : AppendingModel eng.model) (h : Reachable eng t) (hi : i ∈ t.accepted)
    (hready : Ready 0 (t.own i)) : Decoding eng M.nLayers (t.heap i) := by
  have hpaced := h.paced hi
  have hreason : (t.heap i).finishReason = none := hready.reason
  have hlast : (t.heap i).lastToken.isSome := hready.lastToken
  have hout : (t.heap i).outputIds ≠ [] := by
    intro hnil
    rw [hpaced.lastToken,hnil] at hlast
    cases hlast
  obtain ⟨kv,hkv⟩ := Option.isSome_iff_exists.mp hready.kvCache
  obtain ⟨n,hshape,hn⟩ := ((M.lengths_of_reachable h).sized i hi).cache kv hkv
  have htokens : n = (t.heap i).promptTokenIds.length + (t.heap i).outputIds.length - 1 := by
    have hn' : n + 1 = (t.heap i).promptTokenIds.length + (t.heap i).outputIds.length := hn
    omega
  exact ⟨hready.status,hout,(hpaced.below hreason).resolve_left hout,hpaced.stops hreason,hpaced.lastToken,kv,hkv,
    htokens ▸ hshape⟩

theorem rested_stable (b : ℕ) : (serving eng may).Stable
    (fun s => Worker.Rested s ∧ s.stats.running.length ≤ b ∧ s.scheduler.maxBatch = b) := by
  rintro s t ⟨hinv,ev,hev,hst⟩ ⟨⟨run,h⟩,hrun,hmax⟩
  have hreq := hst.requested hev
  refine ⟨⟨run,h.requested (fun _ => patient_ready) hreq⟩,?_,hst.maxBatch.trans hmax⟩
  rw [hreq.stats]
  exact hrun

theorem decodeBatch_below (M : AppendingModel eng.model) {settings : Settings} (h : Reachable eng s)
    (haccepts : ∀ i ∈ s.accepted, settings.Accepts (s.heap i).promptTokenIds (s.heap i).sampling) {live : List SeqId}
    (hlive : ∀ i ∈ live, s.Live i ∧ (s.heap i).kvCache.isSome) {call : ModelCall P}
    (hcall : call ∈ modelCalls eng .batchModel live s) :
    call.inputIds.length = live.length ∧ AppendingModel.PositionsBelow settings.maxSeqLen call := by
  have hrows : ∀ i ∈ live, ((s.heap i).kvCache.getD (.legacy [])).Shaped M.nLayers 1 ((s.heap i).tokens - 1) ∧
      (s.heap i).tokens - 1 < settings.maxSeqLen := by
    intro i hi
    obtain ⟨⟨hacc,_,_⟩,hsome⟩ := hlive i hi
    obtain ⟨kv,hkv⟩ := Option.isSome_iff_exists.mp hsome
    obtain ⟨n,hshape,hn⟩ := ((M.lengths_of_reachable h).sized i hacc).cache kv hkv
    have htokens : n + 1 = (s.heap i).promptTokenIds.length + (s.heap i).outputIds.length := hn
    have hfits := (haccepts i hacc).fits
    have hlength := (h.paced hacc).length
    have hsize : (s.heap i).tokens - 1 = n := by
      unfold Sequence.tokens
      omega
    rw [hkv,Option.getD_some,hsize]
    exact ⟨hshape,by omega⟩
  exact M.decodeBatchCall_below (fun i => (s.heap i).lastToken.getD 0) (fun i hi => (hrows i hi).1)
    (fun i hi => (hrows i hi).2) (Option.mem_toList.mp hcall)

/-- At the top of every round the running list is a batch of decoding sequences; a
decode call has a row for each of at most `max_batch` sequences, and for accepted
requests its positions are below `max_seq_len`. -/
theorem running_batch (M : AppendingModel eng.model) (settings : Settings) (hs : s.Boot) :
    (∀ prompt sampling, settings.Accepts prompt sampling → prompt.length + sampling.maxTokens ≤ settings.maxSeqLen ∧
      (1 ≤ settings.maxNewTokensCap → 1 ≤ sampling.maxTokens)) ∧
    (∀ s₀ t, (Worker.continuous eng).Rounds (serving eng may) s s₀ →
      ReflTransGen (serving eng may).Interferes s₀ t → RunningBatch eng M.nLayers t) ∧
    ∀ c d live w, Reaches (ServeEngine.continuous.Next eng may) ((ServeEngine.continuous.service eng).start,s) c →
      ServeEngine.continuous.Next eng may (some (.call .batchModel live,w)) c d →
      live.length ≤ c.2.scheduler.maxBatch ∧
      ((∀ i ∈ c.2.accepted, settings.Accepts (c.2.heap i).promptTokenIds (c.2.heap i).sampling) →
        ∀ call ∈ modelCalls eng .batchModel live c.2, call.inputIds.length = live.length ∧
          AppendingModel.PositionsBelow settings.maxSeqLen call) := by
  have hrest : Worker.Rested s ∧ s.stats.running.length ≤ s.scheduler.maxBatch ∧
      s.scheduler.maxBatch = s.scheduler.maxBatch := by
    refine ⟨ServeEngine.continuous.rest_of_boot hs,?_,rfl⟩
    rw [hs.running]
    exact Nat.zero_le _
  have hverified : (Worker.continuous eng).Verified ((serving eng may).within (Label.Rows s.scheduler.maxBatch)) _ _ _ _ :=
    continuous_within s.scheduler.maxBatch
  refine ⟨?_,?_,?_⟩
  · intro prompt sampling h
    exact ⟨by have hfits := h.fits; omega,h.maxTokens_pos⟩
  · intro s₀ t hround hst
    have hrun : ServeEngine.continuous.Runs eng may ((Worker.continuous eng).start,s₀) := ⟨s,hs,hround.reaches⟩
    have hinv : (serving eng may).Stable (Reachable eng) := fun u v huv _ => (serving_sound may).rely u v huv
    have hreach : Reachable eng t := hinv.star hst hrun.reachable
    obtain ⟨⟨run,h⟩,hlen,hmax⟩ := (rested_stable _).star hst ((hround.within _).top hverified hrest)
    refine ⟨hmax ▸ hlen,?_,?_,?_⟩
    · rw [h.running]
      exact h.nodup
    · rw [h.running]
      exact fun i hi => (h.admitted i hi).2
    · rw [h.running]
      exact fun i hi => decoding_of_ready M hreach (h.admitted i hi).1 (h.own i hi)
  · intro c d live w hc hst
    have hrun : ServeEngine.continuous.Runs eng may c := ⟨s,hs,hc⟩
    have hstart : Reachable eng s := ⟨s,hs.initial,.refl s⟩
    have hreaches := (ServeEngine.Runs.reaches ⟨s,hs,.refl _⟩ hc).2
    have hgood := Service.good_reaches hverified (Service.good_start hverified hstart hrest)
      (hc.mono (fun _ _ _ h => h.within _))
    cases hst with
    | act ha hw =>
      obtain ⟨hrows,_,_,hproper⟩ := (Service.good_act hverified hgood ha hw).1
      refine ⟨?_,?_⟩
      · rw [maxBatch_of_reaches hreaches]
        exact hrows
      · intro haccepts call hcall
        refine decodeBatch_below M hrun.reachable haccepts ?_ hcall
        intro i hi
        obtain ⟨hlive,hdec⟩ := hproper i hi
        exact ⟨hlive,(hdec rfl).2⟩

def threeTokens : SamplingParams := { maxTokens := 3 }

theorem accepts_threeTokens : ({} : Settings).Accepts [5,6] threeTokens :=
  ⟨⟨0,1,3,by decide,by decide,by decide⟩,rfl⟩

theorem asked_interferes (may : Site → Bool) :
    (serving (FakeLm.engine {}) may).Interferes roomySystem (roomySystem.submit 0 [5,6] threeTokens) :=
  ⟨⟨roomySystem,roomySystem_initial,.refl _⟩,.submit 0 [5,6] threeTokens,rfl,
    .submit [5,6] threeTokens (by simp [roomySystem])⟩

open Worker in
theorem asked_round : ∃ t : System ℕ Token,
    (continuous (FakeLm.engine {})).Rounds (serving (FakeLm.engine {}) Site.isModel) roomySystem t ∧
      t.stats.running = [0] := by
  have hobs : ((continuousRound (FakeLm.engine {})).drive (List.replicate 35 {})
      (roomySystem.submit 0 [5,6] threeTokens)).map (fun r => (r.1.value,r.2.stats.running)) = some (some true,[0]) := by
    decide
  obtain ⟨⟨q,t⟩,hq,hobs⟩ := Option.map_eq_some_iff.mp hobs
  simp only [Prod.mk.injEq] at hobs
  obtain ⟨hvalue,hrun⟩ := hobs
  have hst := asked_interferes Site.isModel
  have hreach := (serving_sound Site.isModel).rely _ _ hst
  have hsafe : (continuousRound (FakeLm.engine {})).Safe (serving (FakeLm.engine {}) Site.isModel) _
      (Uncovered Site.isModel) roomySystem :=
    continuous_verified.body roomySystem (ServeEngine.continuous.rest_of_boot roomySystem_boot)
  obtain ⟨hpass,_⟩ := Prog.passes_of_drive (serving_sound Site.isModel) (hsafe.rely trivial (.single hst)) hreach
    (fun l w hw => answers_none l w hw) hq
  rw [Prog.eq_ret_of_value hvalue] at hpass
  have henv : Prog.Passes (serving (FakeLm.engine {}) Site.isModel) (continuousRound (FakeLm.engine {})) roomySystem _ _ :=
    .env .refl trivial hst
  exact ⟨t,.round .refl (henv.trans hpass),hrun⟩

def untilDecode : List ServeEngine.Move := .request (.submit 0 [5,6] threeTokens) :: List.replicate 25 (.act {})

theorem running_batch_decoding : (∃ t : System ℕ Token, t.stats.running = [0] ∧ RunningBatch (FakeLm.engine {}) 2 t) ∧
    ∃ c d : WorkerControl ℕ Token × System ℕ Token,
      ServeEngine.continuous.Next (FakeLm.engine {}) Site.isModel (some (.call .batchModel [0],{})) c d ∧
      ∃ call ∈ modelCalls (FakeLm.engine {}) .batchModel [0] c.2, call.positionIds = some [[2]] ∧
        AppendingModel.PositionsBelow 1024 call := by
  obtain ⟨_,htop,hcalls⟩ := running_batch (FakeLm.appending {} (by decide)) {} roomySystem_boot
  obtain ⟨t,hround,hrun⟩ := asked_round
  refine ⟨⟨t,hrun,htop t t hround .refl⟩,?_⟩
  have hobs : (ServeEngine.continuous.play (FakeLm.engine {}) Site.isModel untilDecode
      ((ServeEngine.continuous.service (FakeLm.engine {})).start,roomySystem)).map
      (fun c => (((ServeEngine.continuous.service (FakeLm.engine {})).advance {} c.2 c.1).map (fun r => r.1),
        c.2.accepted,(c.2.heap 0).promptTokenIds,(c.2.heap 0).sampling)) =
      some (some (.call .batchModel [0]),[0],[5,6],threeTokens) := by decide
  have hids : (ServeEngine.continuous.play (FakeLm.engine {}) Site.isModel untilDecode
      ((ServeEngine.continuous.service (FakeLm.engine {})).start,roomySystem)).map
      (fun c => (modelCalls (FakeLm.engine {}) .batchModel [0] c.2).map ModelCall.positionIds) =
      some [some [[2]]] := by decide
  obtain ⟨c,hc,hobs⟩ := Option.map_eq_some_iff.mp hobs
  rw [hc,Option.map_some,Option.some.injEq] at hids
  simp only [Prod.mk.injEq] at hobs
  obtain ⟨hlabel,hacc,hprompt,hsampling⟩ := hobs
  obtain ⟨d,hd⟩ := ServeEngine.next_of_advance hlabel
  refine ⟨c,d,hd,?_⟩
  obtain ⟨call,hcall,hpos⟩ : ∃ call ∈ modelCalls (FakeLm.engine {}) .batchModel [0] c.2,
      call.positionIds = some [[2]] := by
    have hmem : some [[2]] ∈ (modelCalls (FakeLm.engine {}) .batchModel [0] c.2).map ModelCall.positionIds := by
      rw [hids]
      exact List.mem_cons_self
    exact List.mem_map.mp hmem
  refine ⟨call,hcall,hpos,((hcalls c d [0] {} (ServeEngine.continuous.play_sound hc) hd).2 ?_ call hcall).2⟩
  intro i hi
  rw [hacc,List.mem_singleton] at hi
  rw [hi,hprompt,hsampling]
  exact accepts_threeTokens

end FluxEngine
