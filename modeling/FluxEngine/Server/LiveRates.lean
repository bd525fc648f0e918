import Mathlib.Algebra.Order.Field.Basic
import Mathlib.Data.Rat.Cast.Order
import Mathlib.Data.Rat.Floor
import Mathlib.Tactic.Linarith
import Mathlib.Tactic.NormNum
import Mathlib.Tactic.Ring
import FluxEngine.Lib.SlidingWindow
import FluxEngine.Serving.TokenCount

/-! # The live numbers

`RecentTtft` and `TokenRate` keep the samples of the last seconds.  Times are
rationals, and each call comes with the time it reads from the clock.
-/
namespace FluxEngine
open Transition Interleaving SlidingWindow

structure RecentTtft where
  windowS : ℚ := 60
  samples : List (ℚ × ℚ) := []

namespace RecentTtft
variable (ring : RecentTtft)

def trim (now : ℚ) : RecentTtft := { ring with samples := SlidingWindow.trim (now - ring.windowS) ring.samples }

def add (now ttftS : ℚ) : RecentTtft :=
  if ttftS ≤ 0 then ring else ({ ring with samples := ring.samples ++ [(now,ttftS)] } : RecentTtft).trim now

def p50Ms (now : ℚ) : Option ℚ × RecentTtft :=
  let ring := ring.trim now
  if ring.samples = [] then (none,ring)
  else
    let values := (ring.samples.map (fun item => item.2 * 1000)).insertionSort (· ≤ ·)
    let mid := (values.length - 1) / 2
    (values[mid]?,ring)

end RecentTtft

structure TokenRate where
  windowS : ℚ := 5
  marks : List (ℚ × ℕ) := []

/-- `round(x, digits)`: to the nearest, and half way to the even one. -/
def pyRound (x : ℚ) (digits : ℕ) : ℚ :=
  let below := ⌊x * 10 ^ digits⌋
  let rest := x * 10 ^ digits - below
  (if rest < 1 / 2 ∨ rest = 1 / 2 ∧ below % 2 = 0 then below else below + 1) / 10 ^ digits

theorem abs_pyRound_sub_le (x : ℚ) (digits : ℕ) : |pyRound x digits - x| ≤ 1 / 2 / 10 ^ digits := by
  have hscale : (0 : ℚ) < 10 ^ digits := pow_pos (by norm_num) digits
  have hoff : ∀ y : ℚ, |y - x * 10 ^ digits| ≤ 1 / 2 → |y / 10 ^ digits - x| ≤ 1 / 2 / 10 ^ digits := by
    intro y hy
    have hdiv : y / 10 ^ digits - x = (y - x * 10 ^ digits) / 10 ^ digits := by
      rw [sub_div,mul_div_cancel_right₀ x hscale.ne']
    rw [hdiv,abs_div,abs_of_pos hscale]
    exact div_le_div_of_nonneg_right hy hscale.le
  have hfloor := Int.floor_le (x * 10 ^ digits)
  have hceil := Int.lt_floor_add_one (x * 10 ^ digits)
  unfold pyRound
  refine hoff _ ?_
  rw [abs_le]
  split
  · rename_i hrest
    rcases hrest with hrest | ⟨hrest,_⟩ <;> constructor <;> linarith
  · rename_i hrest
    simp only [not_or,not_lt] at hrest
    push_cast
    constructor <;> linarith

/-- Tokens for each second from the first mark to the last. -/
def TokenRate.slope (marks : List (ℚ × ℕ)) : ℚ :=
  if marks.length < 2 then 0
  else
    let first := marks.headD (0,0)
    let last := marks.getLastD (0,0)
    let dt := last.1 - first.1
    let dtok : ℚ := (last.2 : ℚ) - first.2
    if dt ≤ 0 then 0 else max 0 (dtok / dt)

def TokenRate.observe (rate : TokenRate) (now : ℚ) (totalTokens : ℕ) : ℚ × TokenRate :=
  let marks := trimButLast (now - rate.windowS) (rate.marks ++ [(now,totalTokens)])
  (slope marks,{ rate with marks := marks })

/-- The ring among its calls.  The last reading of the clock and what was ever added
are not part of the source. -/
structure TtftLog where
  ring : RecentTtft := {}
  clock : ℚ
  history : List (ℚ × ℚ) := []

inductive TtftCall
  | add (now ttftS : ℚ)
  | p50Ms (now : ℚ)

/-- A call, at a time that is not before the last one. -/
inductive TtftLog.Step : TtftCall → TtftLog → TtftLog → Prop
  | add {log : TtftLog} {now ttftS : ℚ} : log.clock ≤ now → Step (.add now ttftS) log
      ⟨log.ring.add now ttftS,now,log.history ++ [(now,ttftS)]⟩
  | p50Ms {log : TtftLog} {now : ℚ} : log.clock ≤ now → Step (.p50Ms now) log
      ⟨(log.ring.p50Ms now).2,now,log.history⟩

namespace TtftLog

/-- The positive first-token times in the `windowS` before `now`, in milliseconds. -/
def recentMs (log : TtftLog) (now : ℚ) : List ℚ :=
  (since (now - log.ring.windowS) (log.history.filter (fun item => decide (0 < item.2)))).map (fun item => item.2 * 1000)

/-- The ring was trimmed at some time, and nothing has come in since. -/
structure Good (log : TtftLog) : Prop where
  window : log.ring.windowS = 60
  tracks : ∃ trimmed ≤ log.clock,
    Tracks log.ring.windowS (log.history.filter (fun item => decide (0 < item.2))) trimmed log.ring.samples

variable {log : TtftLog} {now ttftS : ℚ}

theorem p50Ms_ring (ring : RecentTtft) (now : ℚ) : (ring.p50Ms now).2 = ring.trim now := by
  unfold RecentTtft.p50Ms
  simp only
  split <;> rfl

theorem Good.trim (h : log.Good) (hnow : log.clock ≤ now) :
    Tracks log.ring.windowS (log.history.filter (fun item => decide (0 < item.2))) now (log.ring.trim now).samples := by
  obtain ⟨trimmed,hle,htracks⟩ := h.tracks
  exact htracks.trim (hle.trans hnow)

theorem Good.step {call : TtftCall} {after : TtftLog} (h : log.Good) (hst : Step call log after) : after.Good := by
  cases hst with
  | @add _ now ttftS hnow =>
    unfold RecentTtft.add
    by_cases hpos : ttftS ≤ 0
    · rw [if_pos hpos]
      obtain ⟨trimmed,hle,htracks⟩ := h.tracks
      refine ⟨h.window,trimmed,hle.trans hnow,?_⟩
      rw [List.filter_append,List.filter_cons_of_neg (by simpa using hpos),List.filter_nil,List.append_nil]
      exact htracks
    · rw [if_neg hpos]
      obtain ⟨trimmed,hle,htracks⟩ := h.tracks
      refine ⟨h.window,now,le_rfl,?_⟩
      rw [List.filter_append,List.filter_cons_of_pos (by simpa using hpos),List.filter_nil]
      refine htracks.push (hle.trans hnow) ?_ ttftS
      rw [h.window]
      norm_num
  | @p50Ms _ now hnow =>
    refine ⟨?_,now,le_rfl,?_⟩
    · rw [p50Ms_ring]
      exact h.window
    · rw [p50Ms_ring]
      exact h.trim hnow

/-- While the clock does not go back, `p50_ms` is the lower median of the positive
samples of the last minute, and none when there are none. -/
theorem p50_is_median {start : ℚ} (hr : Reaches Step { clock := start } log) (hnow : log.clock ≤ now) :
    ((log.ring.p50Ms now).1 = none ↔ log.recentMs now = []) ∧
    ∀ v, (log.ring.p50Ms now).1 = some v → Median (log.recentMs now) v := by
  have hstart : Good { clock := start } := ⟨rfl,start,le_rfl,tracks_empty _ _⟩
  have hgood : log.Good := hr.invariant hstart (fun _ _ _ h hst => h.step hst)
  have hsamples : (log.ring.trim now).samples.map (fun item => item.2 * 1000) = log.recentMs now := by
    rw [(hgood.trim hnow).queue]
    rfl
  have hnil : (log.ring.trim now).samples = [] ↔ log.recentMs now = [] := by
    rw [← hsamples,List.map_eq_nil_iff]
  have hlength := List.length_insertionSort (· ≤ ·) (log.recentMs now)
  unfold RecentTtft.p50Ms
  simp only [hsamples,hlength]
  by_cases hempty : (log.ring.trim now).samples = []
  · rw [if_pos hempty]
    exact ⟨⟨fun _ => hnil.mp hempty,fun _ => rfl⟩,fun v hv => by cases hv⟩
  · rw [if_neg hempty]
    have hpos : 0 < (log.recentMs now).length := List.length_pos_iff.mpr (fun h => hempty (hnil.mpr h))
    refine ⟨⟨?_,fun h => absurd (hnil.mpr h) hempty⟩,fun v hv => median_of_sorted hv⟩
    intro hnone
    rw [List.getElem?_eq_none_iff,hlength] at hnone
    omega

/-- Two samples, and a minute after the first of them. -/
theorem p50_is_median_two : ∃ log : TtftLog, Reaches Step { clock := 0 } log ∧
    log.recentMs 61 = [300,100] ∧ (log.ring.p50Ms 61).1 = some 100 ∧ Median (log.recentMs 61) 100 := by
  have hfirst : Reaches Step { clock := 0 } ⟨_,0,[(0,1 / 2)]⟩ := (Reaches.refl _).tail (.add le_rfl)
  have hsecond : Reaches Step { clock := 0 } ⟨_,2,[(0,1 / 2),(2,3 / 10)]⟩ := hfirst.tail (.add (by norm_num))
  have hthird : Reaches Step { clock := 0 } ⟨_,10,[(0,1 / 2),(2,3 / 10),(10,1 / 10)]⟩ := hsecond.tail (.add (by norm_num))
  refine ⟨_,hthird,by decide +kernel,by decide +kernel,(p50_is_median hthird ?_).2 100 (by decide +kernel)⟩
  norm_num

end TtftLog

variable {P L : Type} [Inhabited P] [Inhabited L] {eng : CachedEngine P L} {may : Site → Bool} {mode : ServeEngine}

/-- A worker and the rate that `GET /admin/stats` keeps.  The route runs in a thread of
its own: it reads `stats.tokens_generated`, and the worker may go on before it observes
what it read.  The last reading of the clock, and with each request the tokens that
were in the outputs when it read, are not part of the source. -/
structure Board (P L : Type) where
  worker : WorkerControl P L × System P L
  rate : TokenRate := {}
  clock : ℚ
  /-- what the request in progress has read -/
  reading : Option (ℕ × ℕ) := none
  polls : List (ℚ × ℕ) := []

namespace Board

/-- The `tok_s` of the payload, when `tokens` has been read and observed at `now`. -/
def tokS (b : Board P L) (tokens : ℕ) (now : ℚ) : ℚ := pyRound (b.rate.observe now tokens).1 3

/-- The worker goes on, the stats are asked for while no other request for them is in
progress, or that request observes what it read, at a time that is not before the last. -/
inductive Step (mode : ServeEngine) (eng : CachedEngine P L) (may : Site → Bool) : Option ℚ → Board P L → Board P L → Prop
  | serve {b : Board P L} {l : Option (Label × Answer)} {d : WorkerControl P L × System P L} :
      mode.Next eng may l b.worker d → Step mode eng may none b { b with worker := d }
  | read {b : Board P L} : b.reading = none → Step mode eng may none b
      { b with reading := some (b.worker.2.stats.tokensGenerated,b.worker.2.outputTokens) }
  | observe {b : Board P L} {tokens outputs : ℕ} {now : ℚ} : b.reading = some (tokens,outputs) → b.clock ≤ now →
      Step mode eng may (some now) b
        { b with
          rate := (b.rate.observe now tokens).2
          clock := now
          reading := none
          polls := b.polls ++ [(now,outputs)] }

/-- The marks are the requests of the last seconds, with the tokens of the times they read. -/
structure Good (mode : ServeEngine) (eng : CachedEngine P L) (may : Site → Bool) (base : ℕ) (b : Board P L) : Prop where
  runs : mode.Runs eng may b.worker
  counted : b.worker.2.stats.tokensGenerated = base + b.worker.2.outputTokens
  window : b.rate.windowS = 5
  tracks : Tracks b.rate.windowS (b.polls.map (fun p => (p.1,base + p.2))) b.clock b.rate.marks
  grown : ∀ p ∈ b.polls, p.2 ≤ b.worker.2.outputTokens
  read : ∀ tokens outputs, b.reading = some (tokens,outputs) →
    tokens = base + outputs ∧ outputs ≤ b.worker.2.outputTokens ∧ ∀ p ∈ b.polls, p.2 ≤ outputs

variable {b d : Board P L} {base tokens outputs : ℕ} {now : ℚ}

theorem Good.observe (h : Good mode eng may base b) (hread : tokens = base + outputs) (hnow : b.clock ≤ now) :
    Tracks b.rate.windowS ((b.polls ++ [(now,outputs)]).map (fun p => (p.1,base + p.2))) now
      (b.rate.observe now tokens).2.marks := by
  have hwidth : 0 ≤ b.rate.windowS := by
    rw [h.window]
    norm_num
  have hpush := h.tracks.push hnow hwidth (base + outputs)
  rw [List.map_append,List.map_singleton,hread]
  unfold TokenRate.observe
  simp only
  rw [trimButLast_eq_trim (sub_le_self now hwidth)]
  exact hpush

theorem Good.step {l : Option ℚ} (h : Good mode eng may base b) (hst : Step mode eng may l b d) :
    Good mode eng may base d := by
  cases hst with
  | serve hnext =>
    obtain ⟨n,_,hn⟩ := h.runs.tallied_step hnext
    have hle : b.worker.2.outputTokens ≤ b.worker.2.outputTokens + n := Nat.le_add_right _ n
    refine ⟨h.runs.tail hnext,?_,h.window,h.tracks,?_,?_⟩
    · rw [hn.counted,hn.tokens,h.counted,Nat.add_assoc]
    · intro p hp
      rw [hn.tokens]
      exact (h.grown p hp).trans hle
    · intro tokens outputs hread
      obtain ⟨heq,houtputs,hpolls⟩ := h.read tokens outputs hread
      refine ⟨heq,?_,hpolls⟩
      rw [hn.tokens]
      exact houtputs.trans hle
  | read _ =>
    refine ⟨h.runs,h.counted,h.window,h.tracks,h.grown,?_⟩
    intro tokens outputs hread
    cases hread
    exact ⟨h.counted,le_rfl,h.grown⟩
  | observe hread hnow =>
    obtain ⟨heq,houtputs,_⟩ := h.read _ _ hread
    refine ⟨h.runs,h.counted,h.window,h.observe heq hnow,?_,fun _ _ hnone => by cases hnone⟩
    intro p hp
    rcases List.mem_append.mp hp with hp | hp
    · exact h.grown p hp
    · rw [List.mem_singleton.mp hp]
      exact houtputs

theorem slope_singleton (mark : ℚ × ℕ) : TokenRate.slope [mark] = 0 := by
  unfold TokenRate.slope
  rw [if_pos (by simp)]

theorem slope_concat {t : ℚ} {n m : ℕ} (rest : List (ℚ × ℕ)) (hle : n ≤ m) (base : ℕ) :
    TokenRate.slope ((t,base + n) :: rest ++ [(now,base + m)]) =
      if now ≤ t then 0 else ((m : ℚ) - n) / (now - t) := by
  have hlength : ¬((t,base + n) :: rest ++ [(now,base + m)]).length < 2 := by
    simp only [List.length_append,List.length_cons,List.length_nil]
    omega
  have hlast : ((t,base + n) :: rest ++ [(now,base + m)]).getLastD (0,0) = (now,base + m) := List.getLastD_concat
  unfold TokenRate.slope
  rw [if_neg hlength]
  simp only [hlast]
  simp only [List.cons_append,List.headD_cons,sub_nonpos]
  by_cases hnow : now ≤ t
  · rw [if_pos hnow,if_pos hnow]
  · rw [if_neg hnow,if_neg hnow]
    have hdiff : ((base + m : ℕ) : ℚ) - ((base + n : ℕ) : ℚ) = (m : ℚ) - n := by
      push_cast
      ring
    have hnonneg : 0 ≤ ((m : ℚ) - n) / (now - t) := by
      apply div_nonneg
      · exact sub_nonneg.mpr (Nat.cast_le.mpr hle)
      · exact sub_nonneg.mpr (not_le.mp hnow).le
    rw [hdiff,max_eq_right hnonneg]

/-- What was put into outputs from the first request of the last five seconds to the
one that read `outputs`, over the time from one answer to the other. -/
def measured (b : Board P L) (outputs : ℕ) (now : ℚ) : ℚ :=
  match since (now - 5) b.polls with
  | [] => 0
  | (t,n) :: _ => if now ≤ t then 0 else ((outputs : ℚ) - n) / (now - t)

theorem Good.tokS_eq (h : Good mode eng may base b) (hread : b.reading = some (tokens,outputs)) (hnow : b.clock ≤ now) :
    b.tokS tokens now = pyRound (b.measured outputs now) 3 := by
  obtain ⟨heq,_,hpolls⟩ := h.read tokens outputs hread
  have hmarks : (b.rate.observe now tokens).2.marks =
      (since (now - 5) b.polls).map (fun p => (p.1,base + p.2)) ++ [(now,base + outputs)] := by
    rw [(h.observe heq hnow).queue,h.window,since_map (fun n => base + n),
      since_append_singleton (sub_le_self now (by norm_num)),List.map_append,List.map_singleton]
  have hrate : b.tokS tokens now = pyRound (TokenRate.slope (b.rate.observe now tokens).2.marks) 3 := rfl
  rw [hrate,hmarks]
  unfold measured
  cases hsince : since (now - 5) b.polls with
  | nil => exact congrArg (pyRound · 3) (slope_singleton _)
  | cons p rest =>
    have hp : p ∈ since (now - 5) b.polls := by
      rw [hsince]
      exact List.mem_cons_self
    exact congrArg (pyRound · 3) (slope_concat _ (hpolls p (mem_since.mp hp).1) _)

/-- While the clock does not go back and one request is answered at a time, the reported
rate is what was generated since the first request of the last five seconds, rounded;
none of the counts it is taken from is above the one that was just read. -/
theorem tok_s_measures {s : System P L} {start : ℚ} (hs : s.Boot)
    (hr : Reaches (Step mode eng may) { worker := ((mode.service eng).start,s), clock := start } b)
    (hread : b.reading = some (tokens,outputs)) (hnow : b.clock ≤ now) :
    b.tokS tokens now = pyRound (b.measured outputs now) 3 ∧ |b.tokS tokens now - b.measured outputs now| ≤ 1 / 2000 ∧
    (∀ p ∈ b.polls, p.2 ≤ outputs) ∧ outputs ≤ b.worker.2.outputTokens := by
  have hstart : Good mode eng may s.stats.tokensGenerated { worker := ((mode.service eng).start,s), clock := start } := by
    refine ⟨⟨s,hs,.refl _⟩,?_,rfl,tracks_empty _ _,fun _ hp => absurd hp List.not_mem_nil,fun _ _ hnone => by cases hnone⟩
    simp only [System.outputTokens,hs.initial.accepted,List.map_nil,List.sum_nil,Nat.add_zero]
  have hgood : Good mode eng may s.stats.tokensGenerated b := hr.invariant hstart (fun _ _ _ h hst => h.step hst)
  obtain ⟨_,houtputs,hpolls⟩ := hgood.read tokens outputs hread
  have htok := hgood.tokS_eq hread hnow
  refine ⟨htok,?_,hpolls,houtputs⟩
  rw [htok]
  exact (abs_pyRound_sub_le _ 3).trans (by norm_num)

theorem reaches_serve {c d : WorkerControl P L × System P L} {rate : TokenRate} {clock : ℚ} {reading : Option (ℕ × ℕ)}
    {polls : List (ℚ × ℕ)} (h : Reaches (mode.Next eng may) c d) :
    Reaches (Step mode eng may) ⟨c,rate,clock,reading,polls⟩ ⟨d,rate,clock,reading,polls⟩ :=
  h.invariant (P := fun d => Reaches (Step mode eng may) ⟨c,rate,clock,reading,polls⟩ ⟨d,rate,clock,reading,polls⟩)
    (.refl _) (fun _ _ _ hr hst => hr.tail (.serve hst))

/-- Two tokens in three seconds. -/
theorem tok_s_measures_two : ∃ b : Board ℕ Token, b.polls = [(0,1)] ∧ b.reading = some (3,3) ∧ b.tokS 3 3 = 667 / 1000 := by
  have hobs : ((ServeEngine.continuous.play (FakeLm.engine {}) Site.isModel
      ([.request (.submit 0 [5,6] twoTokens),.request (.submit 1 [7] twoTokens)] ++ List.replicate 20 (.act {}))
      ((ServeEngine.continuous.service (FakeLm.engine {})).start,roomySystem)).bind (fun c =>
        (ServeEngine.continuous.play (FakeLm.engine {}) Site.isModel (List.replicate 30 (.act {})) c).map (fun d =>
          ((c.2.stats.tokensGenerated,c.2.outputTokens),(d.2.stats.tokensGenerated,d.2.outputTokens))))) =
      some ((1,1),(3,3)) := by decide
  obtain ⟨c,hc,hobs⟩ := Option.bind_eq_some_iff.mp hobs
  obtain ⟨d,hd,hobs⟩ := Option.map_eq_some_iff.mp hobs
  simp only [Prod.mk.injEq] at hobs
  obtain ⟨⟨hct,hco⟩,hdt,hdo⟩ := hobs
  have hasked := (reaches_serve (ServeEngine.continuous.play_sound hc)).tail (.read (b := ⟨c,{},0,none,[]⟩) rfl)
  rw [hct,hco] at hasked
  have hpolled := hasked.tail (.observe rfl (le_refl (0 : ℚ)))
  have hr := (hpolled.trans (reaches_serve (ServeEngine.continuous.play_sound hd))).tail (.read rfl)
  rw [hdt,hdo] at hr
  obtain ⟨hrate,_⟩ := tok_s_measures roomySystem_boot hr rfl (show (0 : ℚ) ≤ 3 by norm_num)
  have hmeasured : ∀ b : Board ℕ Token, b.polls = [(0,1)] → b.measured 3 3 = 2 / 3 := by
    intro b hb
    have hsince : since (3 - 5) [((0 : ℚ),1)] = [(0,1)] := by decide +kernel
    unfold measured
    rw [hb,hsince]
    norm_num
  refine ⟨_,rfl,rfl,hrate.trans ?_⟩
  rw [hmeasured _ rfl]
  decide +kernel

end Board
end FluxEngine
