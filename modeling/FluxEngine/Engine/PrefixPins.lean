import Mathlib.Data.List.Count
import FluxEngine.Engine.PrefixCache

/-! # Pin counts under `_pin` and `_unpin` -/
namespace FluxEngine
open OrderedDict

def PinsPositive (pins : OrderedDict ℕ ℕ) : Prop := ∀ b n, pins.get? b = some n → 0 < n

variable {pins : OrderedDict ℕ ℕ} {ids : List ℕ} {b : ℕ}

@[simp] theorem pinCount_empty : pinCount .empty b = 0 := rfl

@[simp] theorem pinCount_set (c n : ℕ) : pinCount (pins.set b n) c = if c = b then n else pinCount pins c := by
  unfold pinCount
  rw [get?_set]
  split <;> rfl

@[simp] theorem pinCount_pop (c : ℕ) : pinCount (pins.pop b) c = if c = b then 0 else pinCount pins c := by
  unfold pinCount
  rw [get?_pop]
  split <;> rfl

theorem pinsPositive_empty : PinsPositive .empty := by
  intro b n h
  simp at h

theorem PinsPositive.set (h : PinsPositive pins) {n : ℕ} (hn : 0 < n) : PinsPositive (pins.set b n) := by
  intro c m hc
  rw [get?_set] at hc
  split at hc
  · cases hc
    exact hn
  · exact h c m hc

theorem PinsPositive.pop (h : PinsPositive pins) : PinsPositive (pins.pop b) := by
  intro c m hc
  rw [get?_pop] at hc
  split at hc
  · cases hc
  · exact h c m hc

theorem PinsPositive.mem_keys_iff (h : PinsPositive pins) : b ∈ pins.keys ↔ 0 < pinCount pins b := by
  rw [OrderedDict.mem_keys_iff]
  unfold pinCount
  constructor
  · rintro ⟨n,hn⟩
    simpa [hn] using h b n hn
  · intro hp
    cases hb : pins.get? b with
    | none => simp [hb] at hp
    | some n => exact ⟨n,rfl⟩

namespace PrefixCache

@[simp] theorem pin_nil : pin pins [] = pins := rfl

theorem pin_cons : pin pins (b :: ids) = pin (pins.set b (pinCount pins b + 1)) ids := rfl

theorem pinCount_pin (pins : OrderedDict ℕ ℕ) (ids : List ℕ) (b : ℕ) :
    pinCount (pin pins ids) b = pinCount pins b + ids.count b := by
  induction ids generalizing pins with
  | nil => rfl
  | cons a ids ih =>
    rw [pin_cons,ih,pinCount_set,List.count_cons]
    by_cases hab : b = a
    · subst hab
      simp
      omega
    · simp [hab,Ne.symm hab]

theorem pinsPositive_pin (h : PinsPositive pins) (ids : List ℕ) : PinsPositive (pin pins ids) := by
  induction ids generalizing pins with
  | nil => exact h
  | cons a ids ih => exact ih (h.set (Nat.succ_pos _))

theorem pinCount_unpinLoop (pins : OrderedDict ℕ ℕ) (toFree ids : List ℕ) (b : ℕ) :
    pinCount (unpinLoop pins toFree ids).1 b = pinCount pins b - ids.count b := by
  induction ids generalizing pins toFree with
  | nil => rfl
  | cons a ids ih =>
    simp only [unpinLoop]
    split
    · rw [ih,pinCount_pop,List.count_cons]
      by_cases hab : b = a
      · subst hab
        simp
        omega
      · simp [hab,Ne.symm hab]
    · rw [ih,pinCount_set,List.count_cons]
      by_cases hab : b = a
      · subst hab
        simp
        omega
      · simp [hab,Ne.symm hab]

theorem pinsPositive_unpinLoop (h : PinsPositive pins) (toFree ids : List ℕ) :
    PinsPositive (unpinLoop pins toFree ids).1 := by
  induction ids generalizing pins toFree with
  | nil => exact h
  | cons a ids ih =>
    simp only [unpinLoop]
    split
    · exact ih h.pop _
    · exact ih (h.set (by omega)) _

theorem unpinLoop_toFree (pins : OrderedDict ℕ ℕ) (toFree : List ℕ) {ids : List ℕ} (hnd : ids.Nodup) :
    (unpinLoop pins toFree ids).2 = toFree ++ ids.filter (fun b => pinCount pins b ≤ 1) := by
  induction ids generalizing pins toFree with
  | nil => simp [unpinLoop]
  | cons a ids ih =>
    obtain ⟨ha,hnd⟩ := List.nodup_cons.mp hnd
    have hrest : ∀ pins' : OrderedDict ℕ ℕ, (∀ c, c ≠ a → pinCount pins' c = pinCount pins c) →
        ids.filter (fun b => pinCount pins' b ≤ 1) = ids.filter (fun b => pinCount pins b ≤ 1) := by
      intro pins' hp
      apply List.filter_congr
      intro c hc
      rw [hp c (fun hca => ha (hca ▸ hc))]
    simp only [unpinLoop]
    split
    · rename_i h0
      have hle : pinCount pins a ≤ 1 := by omega
      rw [ih _ _ hnd,hrest _ (fun c hc => by simp [hc]),List.filter_cons_of_pos (by simpa using hle)]
      simp
    · rename_i h0
      have hle : ¬pinCount pins a ≤ 1 := by omega
      rw [ih _ _ hnd,hrest _ (fun c hc => by simp [hc]),List.filter_cons_of_neg (by simpa using hle)]

end PrefixCache
end FluxEngine
