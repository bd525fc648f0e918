import FluxEngine.Lib.Expiring
import FluxEngine.Lib.Transition
import FluxEngine.Server.ControlPlane

/-! # The rate limiter

A call of `allow` is two commands of Redis, and anything may come between them.
-/
namespace FluxEngine
open Expiring

/-- What `_enforce_rate_limit` passes on; the clock counts milliseconds. -/
structure Quota where
  limit : ℤ
  windowS : ℕ := 60

namespace Quota
def window (q : Quota) : ℕ := 1000 * q.windowS
end Quota

def rateKey (key : String) : String := "flux:rl:" ++ key

/-- A call of `allow` between its two commands. -/
structure AllowCall where
  key : String
  n : ℕ
  deriving DecidableEq, Repr

inductive AllowStep
  | answer (allowed : Bool)
  | expire (call : AllowCall)
  deriving DecidableEq, Repr

/-- `allow` up to the answer of INCR; `up` tells whether Redis answers. -/
def allow (enabled : Bool) (q : Quota) (redis : Store String) (key : String) (up : Bool) : Store String × AllowStep :=
  if !enabled || decide (q.limit ≤ 0) then (redis,.answer true)
  else if up then
    let counted := redis.incr (rateKey key)
    if counted.2 = 1 then (counted.1,.expire ⟨key,counted.2⟩)
    else (counted.1,.answer (decide ((counted.2 : ℤ) ≤ q.limit)))
  else (redis,.answer true)

/-- `allow` from EXPIRE on. -/
def allowExpire (q : Quota) (redis : Store String) (call : AllowCall) (up : Bool) : Store String × Bool :=
  if up then (redis.expireIn (rateKey call.key) q.window,decide ((call.n : ℤ) ≤ q.limit))
  else (redis,true)

/-- `_enforce_rate_limit`, given what `allow` answers. -/
def enforceRateLimit (control : Option ControlPlane) (allowed : Bool) : Except HttpException Unit :=
  match control with
  | none => .ok ()
  | some plane => if !plane.enabled || allowed then .ok () else .error ⟨429,"rate limit exceeded"⟩

/-- Redis, the calls between their two commands, and how many calls for a key were
told True by a Redis that answered. -/
structure Limiter where
  redis : Store String := {}
  inflight : List AllowCall := []
  granted : String → ℕ := fun _ => 0

namespace Limiter

def grant (s : Limiter) (key : String) (allowed : Bool) : Limiter :=
  { s with granted := if allowed then Function.update s.granted key (s.granted key + 1) else s.granted }

def Settled (s : Limiter) (key : String) : Prop := ∀ call ∈ s.inflight, call.key ≠ key

def entry (s : Limiter) (key : String) : Option Entry := s.redis.entry (rateKey key)

def expired (s : Limiter) (key : String) : ℕ := s.redis.expired (rateKey key)

end Limiter

inductive RateAction
  | request (key : String) (up : Bool)
  | expire (call : AllowCall) (up : Bool)
  | pass (ms : ℕ)
  deriving DecidableEq, Repr

/-- One command of a client of a connected control plane, or time that passes. -/
def Limiter.exec (q : Quota) : RateAction → Limiter → Option Limiter
  | .request key up, s =>
    let r := allow true q s.redis key up
    match r.2 with
    | .expire call => some { s with redis := r.1, inflight := call :: s.inflight }
    | .answer allowed => some ({ s with redis := r.1 }.grant key (allowed && up))
  | .expire call up, s =>
    if call ∈ s.inflight then
      let r := allowExpire q s.redis call up
      some ({ s with redis := r.1, inflight := s.inflight.erase call }.grant call.key (r.2 && up))
    else none
  | .pass ms, s => some { s with redis := s.redis.pass ms }

def RateStep (q : Quota) (l : RateAction) (s t : Limiter) : Prop := s.exec q l = some t

theorem rateKey_injective : Function.Injective rateKey := by
  intro a b h
  simpa [rateKey,String.append_right_inj] using h

/-- The effects of the steps, those of one that Redis did not answer among them. -/
inductive RateMove (q : Quota) (s : Limiter) : RateAction → Limiter → Prop
  | failed {key : String} : RateMove q s (.request key false) s
  | opened {key : String} : s.entry key = none →
      RateMove q s (.request key true)
        { s with redis := (s.redis.incr (rateKey key)).1, inflight := ⟨key,1⟩ :: s.inflight }
  | counted {key : String} {e : Entry} : s.entry key = some e → 0 < e.count →
      RateMove q s (.request key true)
        ({ s with redis := (s.redis.incr (rateKey key)).1 }.grant key (decide ((e.count : ℤ) + 1 ≤ q.limit)))
  | closed {call : AllowCall} : call ∈ s.inflight →
      RateMove q s (.expire call true)
        ({ s with redis := s.redis.expireIn (rateKey call.key) q.window, inflight := s.inflight.erase call }.grant
          call.key (decide ((call.n : ℤ) ≤ q.limit)))
  | lost {call : AllowCall} : call ∈ s.inflight →
      RateMove q s (.expire call false) { s with inflight := s.inflight.erase call }
  | passed {ms : ℕ} : RateMove q s (.pass ms) { s with redis := s.redis.pass ms }

def Limiter.Counted (s : Limiter) : Prop := ∀ key e, s.entry key = some e → 0 < e.count

theorem RateStep.moves {q : Quota} {s t : Limiter} {l : RateAction} (hlimit : 0 < q.limit) (hs : s.Counted)
    (h : RateStep q l s t) : RateMove q s l t := by
  have hoff : decide (q.limit ≤ 0) = false := by simpa using hlimit
  cases l with
  | request key up =>
    cases up with
    | false =>
      simp [RateStep,Limiter.exec,allow,hoff,Limiter.grant] at h
      subst h
      exact .failed
    | true =>
      cases he : s.entry key with
      | none =>
        obtain ⟨hn,-⟩ := Store.incr_new he
        simp [RateStep,Limiter.exec,allow,hoff,hn] at h
        subst h
        exact .opened he
      | some e =>
        obtain ⟨hn,-⟩ := Store.incr_old he
        have hpos := hs key e he
        have hne : e.count ≠ 0 := by omega
        simp [RateStep,Limiter.exec,allow,hoff,hn,hne] at h
        subst h
        exact .counted he hpos
  | expire call up =>
    simp only [RateStep,Limiter.exec] at h
    split at h
    · next hcall =>
      cases h
      cases up with
      | false => exact .lost hcall
      | true => simpa [allowExpire] using RateMove.closed hcall
    · cases h
  | pass ms =>
    cases h
    exact .passed

/-- What a limiter has for one key: its counter, and the calls between their two
commands. -/
structure RateSlot where
  now : ℕ
  entry : Option Entry
  expired : ℕ
  waiting : ℕ
  granted : ℕ

def Limiter.slot (s : Limiter) (key : String) : RateSlot where
  now := s.redis.now
  entry := s.entry key
  expired := s.expired key
  waiting := s.inflight.countP (fun call => call.key = key)
  granted := s.granted key

/-- The moves of a slot; the flag marks the one at which an EXPIRE is lost. -/
inductive SlotMove (q : Quota) (s : RateSlot) : Bool → RateSlot → Prop
  | same : SlotMove q s false s
  | pass {time : ℕ} : (∀ e d, s.entry = some e → e.deadline = some d → s.now + time < d) →
      SlotMove q s false { s with now := s.now + time }
  | drop {time : ℕ} {e : Entry} {d : ℕ} : s.entry = some e → e.deadline = some d → d ≤ s.now + time →
      SlotMove q s false { s with now := s.now + time, entry := none, expired := s.expired + 1 }
  | first : s.entry = none → SlotMove q s false { s with entry := some ⟨1,none⟩, waiting := s.waiting + 1 }
  | count {e : Entry} : s.entry = some e →
      SlotMove q s false
        { s with
          entry := some ⟨e.count + 1,e.deadline⟩
          granted := if (e.count : ℤ) + 1 ≤ q.limit then s.granted + 1 else s.granted }
  | deadline {e : Entry} : 0 < s.waiting → s.entry = some e → 0 < q.window →
      SlotMove q s false
        { s with entry := some ⟨e.count,some (s.now + q.window)⟩, waiting := s.waiting - 1, granted := s.granted + 1 }
  | atOnce : 0 < s.waiting →
      SlotMove q s false
        { s with entry := none, expired := s.expired + 1, waiting := s.waiting - 1, granted := s.granted + 1 }
  | lose : 0 < s.waiting → SlotMove q s true { s with waiting := s.waiting - 1 }

namespace RateSlot
variable {q : Quota} {s t : RateSlot} {b : Bool} {d : ℕ}

/-- A call between its two commands has opened the counter, which stays without a
deadline meanwhile; a deadline is at most a window away. -/
structure Regular (q : Quota) (s : RateSlot) : Prop where
  counted : ∀ e, s.entry = some e → 0 < e.count
  alone : s.waiting ≤ 1
  opened : 0 < s.waiting → ∃ e, s.entry = some e ∧ e.deadline = none
  timely : ∀ e d, s.entry = some e → e.deadline = some d → s.now < d ∧ d ≤ s.now + q.window

theorem Regular.move (h : s.Regular q) (hm : SlotMove q s b t) : t.Regular q := by
  obtain ⟨hcounted,halone,hopened,htimely⟩ := h
  cases hm with
  | same => exact ⟨hcounted,halone,hopened,htimely⟩
  | pass hlate =>
    refine ⟨hcounted,halone,hopened,?_⟩
    intro e d he hd
    have hlt := hlate e d he hd
    have hle := htimely e d he hd
    dsimp only
    omega
  | drop he hd hle =>
    refine ⟨by simp,halone,?_,by simp⟩
    intro hpos
    obtain ⟨e',he',hnone⟩ := hopened hpos
    cases he.symm.trans he'
    rw [hd] at hnone
    cases hnone
  | first hnone =>
    have hzero : s.waiting = 0 := by
      by_contra hne
      obtain ⟨e,he,-⟩ := hopened (by omega)
      rw [hnone] at he
      cases he
    refine ⟨?_,by simp [hzero],fun _ => ⟨_,rfl,rfl⟩,?_⟩
    · intro e he
      cases he
      exact Nat.one_pos
    · intro e d he hd
      cases he
      cases hd
  | count he =>
    refine ⟨?_,halone,?_,?_⟩
    · intro e' he'
      cases he'
      exact Nat.succ_pos _
    · intro hpos
      obtain ⟨e',he',hnone⟩ := hopened hpos
      cases he.symm.trans he'
      exact ⟨_,rfl,hnone⟩
    · intro e' d he' hd
      cases he'
      exact htimely _ d he hd
  | deadline hw he hpos =>
    refine ⟨?_,by dsimp only; omega,by dsimp only; omega,?_⟩
    · intro e' he'
      cases he'
      have hcount := hcounted _ he
      exact hcount
    · intro e' d he' hd
      cases he'
      cases hd
      dsimp only
      omega
  | atOnce hw => exact ⟨by simp,by dsimp only; omega,by dsimp only; omega,by simp⟩
  | lose hw => exact ⟨hcounted,by dsimp only; omega,by dsimp only; omega,htimely⟩

/-- A counter without a deadline belongs to a call that is about to set one. -/
def Carried (s : RateSlot) : Prop := ∀ e, s.entry = some e → e.deadline = none → 0 < s.waiting

theorem Carried.move (h : s.Carried) (hm : SlotMove q s false t) : t.Carried := by
  cases hm with
  | same => exact h
  | pass _ => exact h
  | drop _ _ _ =>
    intro e he
    cases he
  | first _ =>
    intro e _ _
    exact Nat.succ_pos _
  | count he =>
    intro e' he' hd
    cases he'
    exact h _ he hd
  | deadline _ _ _ =>
    intro e' he' hd
    cases he'
    cases hd
  | atOnce _ =>
    intro e he
    cases he

theorem lose_not_carried (hs : s.Regular q) (hm : SlotMove q s true t) : t.waiting = 0 ∧ ¬ t.Carried := by
  cases hm with
  | lose hw =>
    obtain ⟨e,he,hnone⟩ := hs.opened hw
    have hle := hs.alone
    have hzero : s.waiting - 1 = 0 := by omega
    refine ⟨hzero,?_⟩
    intro h
    have hpos : 0 < s.waiting - 1 := h e he hnone
    omega

/-- The calls that may still be told True before the counter expires, and those
that have been. -/
def reserve (q : Quota) (s : RateSlot) : ℤ :=
  s.granted + s.waiting + max 0 (q.limit - ((s.entry.map Entry.count).getD 0 : ℕ))

theorem expired_mono (hm : SlotMove q s b t) : s.expired ≤ t.expired := by
  cases hm <;> simp

theorem reserve_le (hlimit : 0 < q.limit) (hm : SlotMove q s b t) (hsame : t.expired = s.expired) :
    t.reserve q ≤ s.reserve q := by
  cases hm with
  | same => exact le_refl _
  | pass _ => exact le_refl _
  | drop _ _ _ => simp at hsame
  | first hnone =>
    simp only [reserve,hnone,Option.map_some,Option.map_none,Option.getD_some,Option.getD_none]
    omega
  | count he =>
    simp only [reserve,he,Option.map_some,Option.getD_some]
    split
    · omega
    · omega
  | deadline hw he _ =>
    simp only [reserve,he,Option.map_some,Option.getD_some]
    omega
  | atOnce _ => simp at hsame
  | lose _ =>
    simp only [reserve]
    omega

theorem Regular.reserve_le (h : s.Regular q) (hlimit : 0 < q.limit) : s.reserve q ≤ s.granted + q.limit := by
  have halone := h.alone
  cases he : s.entry with
  | none =>
    have hzero : s.waiting = 0 := by
      by_contra hne
      obtain ⟨e,he',-⟩ := h.opened (by omega)
      rw [he] at he'
      cases he'
    simp only [reserve,he,Option.map_none,Option.getD_none]
    omega
  | some e =>
    have hpos := h.counted e he
    simp only [reserve,he,Option.map_some,Option.getD_some]
    omega

/-- The counter carries this deadline, and no call is about to set another one. -/
def Dated (s : RateSlot) (d : ℕ) : Prop := s.waiting = 0 ∧ ∃ e, s.entry = some e ∧ e.deadline = some d

theorem Dated.move (h : s.Dated d) (hm : SlotMove q s b t) : t.Dated d ∨ s.expired < t.expired := by
  obtain ⟨hzero,e,he,hd⟩ := h
  cases hm with
  | same => exact Or.inl ⟨hzero,e,he,hd⟩
  | pass _ => exact Or.inl ⟨hzero,e,he,hd⟩
  | drop _ _ _ => exact Or.inr (Nat.lt_succ_self _)
  | first hnone =>
    rw [hnone] at he
    cases he
  | count he' =>
    cases he.symm.trans he'
    exact Or.inl ⟨hzero,_,rfl,hd⟩
  | deadline hw _ _ => omega
  | atOnce hw => omega
  | lose hw => omega

/-- The counter has no deadline, stands at this count or above, and no call is about
to set a deadline. -/
def Stuck (s : RateSlot) (n : ℕ) : Prop :=
  s.waiting = 0 ∧ ∃ e, s.entry = some e ∧ e.deadline = none ∧ n ≤ e.count

theorem Stuck.move {n : ℕ} (h : s.Stuck n) (hm : SlotMove q s b t) : t.Stuck n := by
  obtain ⟨hzero,e,he,hd,hn⟩ := h
  cases hm with
  | same => exact ⟨hzero,e,he,hd,hn⟩
  | pass _ => exact ⟨hzero,e,he,hd,hn⟩
  | drop he' hd' _ =>
    cases he.symm.trans he'
    rw [hd] at hd'
    cases hd'
  | first hnone =>
    rw [hnone] at he
    cases he
  | count he' =>
    cases he.symm.trans he'
    exact ⟨hzero,_,rfl,hd,Nat.le_succ_of_le hn⟩
  | deadline hw _ _ => omega
  | atOnce hw => omega
  | lose hw => omega

end RateSlot

namespace Limiter
variable {q : Quota} {s t u : Limiter} {l : RateAction} {ls : List RateAction} {key : String}

structure Regular (q : Quota) (s : Limiter) : Prop where
  slots : ∀ key, (s.slot key).Regular q
  first : ∀ call ∈ s.inflight, call.n = 1

theorem Regular.counted (h : s.Regular q) : s.Counted := fun key e he => (h.slots key).counted e he

theorem waiting_eq_zero : (s.slot key).waiting = 0 ↔ s.Settled key := by
  simp [slot,Settled,List.countP_eq_zero]

theorem waiting_pos {call : AllowCall} (h : call ∈ s.inflight) : 0 < (s.slot call.key).waiting :=
  List.countP_pos_iff.mpr ⟨call,h,by simp⟩

theorem countP_erase_self {call : AllowCall} (h : call ∈ s.inflight) :
    (s.inflight.erase call).countP (fun c => c.key = call.key) = (s.slot call.key).waiting - 1 := by
  have hperm := (List.perm_cons_erase h).countP_eq (fun c : AllowCall => decide (c.key = call.key))
  simp only [List.countP_cons,decide_true,if_true] at hperm
  simp only [slot]
  omega

theorem countP_erase_of_ne {call : AllowCall} (h : call ∈ s.inflight) (hne : key ≠ call.key) :
    (s.inflight.erase call).countP (fun c => c.key = key) = (s.slot key).waiting := by
  have hperm := (List.perm_cons_erase h).countP_eq (fun c : AllowCall => decide (c.key = key))
  simp only [List.countP_cons,hne.symm,decide_false,Bool.false_eq_true,if_false] at hperm
  simp only [slot]
  omega

@[simp] theorem grant_redis (s : Limiter) (key : String) (allowed : Bool) : (s.grant key allowed).redis = s.redis := rfl

@[simp] theorem grant_inflight (s : Limiter) (key : String) (allowed : Bool) :
    (s.grant key allowed).inflight = s.inflight := rfl

theorem grant_self (s : Limiter) (key : String) (allowed : Bool) :
    (s.grant key allowed).granted key = if allowed then s.granted key + 1 else s.granted key := by
  cases allowed with
  | true => simp [grant]
  | false => simp [grant]

theorem grant_of_ne {other : String} (hne : key ≠ other) (allowed : Bool) :
    (s.grant other allowed).granted key = s.granted key := by
  cases allowed with
  | true => simp [grant,Function.update_of_ne hne]
  | false => simp [grant]

theorem rateKey_ne {other : String} (hne : key ≠ other) : rateKey key ≠ rateKey other :=
  fun h => hne (rateKey_injective h)

/-- One step is one move of every slot; the slot of a key loses its EXPIRE only
where a call for that key does. -/
theorem Regular.move (hlimit : 0 < q.limit) (hs : s.Regular q) (h : RateStep q l s t) (key : String) :
    ∃ b, SlotMove q (s.slot key) b (t.slot key) ∧ (b = true ↔ ∃ call, l = .expire call false ∧ call.key = key) := by
  have hm := h.moves hlimit hs.counted
  clear h
  cases hm with
  | failed => exact ⟨false,.same,by simp⟩
  | @opened other hnone =>
    refine ⟨false,?_,by simp⟩
    by_cases hkey : key = other
    · subst hkey
      have hentry : (s.redis.incr (rateKey key)).1.entry (rateKey key) = some ⟨1,none⟩ := (Store.incr_new hnone).2
      have hfirst := SlotMove.first (q := q) (s := s.slot key) hnone
      simpa [slot,entry,expired,Store.incr_now,Store.incr_expired,hentry] using hfirst
    · have hentry := Store.incr_entry_of_ne (s := s.redis) (rateKey_ne hkey)
      have hsame := SlotMove.same (q := q) (s := s.slot key)
      have hkey' : ¬ other = key := fun h => hkey h.symm
      simpa [slot,entry,expired,Store.incr_now,Store.incr_expired,hentry,hkey'] using hsame
  | @counted other e he hpos =>
    refine ⟨false,?_,by simp⟩
    by_cases hkey : key = other
    · subst hkey
      have hentry : (s.redis.incr (rateKey key)).1.entry (rateKey key) = some ⟨e.count + 1,e.deadline⟩ :=
        (Store.incr_old he).2
      have hcount := SlotMove.count (q := q) (s := s.slot key) he
      simpa [slot,entry,expired,Store.incr_now,Store.incr_expired,grant_self,hentry] using hcount
    · have hentry := Store.incr_entry_of_ne (s := s.redis) (rateKey_ne hkey)
      have hsame := SlotMove.same (q := q) (s := s.slot key)
      simpa [slot,entry,expired,Store.incr_now,Store.incr_expired,hentry,grant_of_ne hkey] using hsame
  | @closed call hcall =>
    refine ⟨false,?_,by simp⟩
    have hnow := Store.expireIn_now s.redis (rateKey call.key) q.window
    have hgrant : decide ((call.n : ℤ) ≤ q.limit) = true := by
      have hn := hs.first call hcall
      rw [hn]
      exact decide_eq_true (by omega)
    rw [hgrant]
    by_cases hkey : key = call.key
    · subst hkey
      have hw := waiting_pos hcall
      obtain ⟨e,he,-⟩ := (hs.slots call.key).opened hw
      rcases Store.expireIn_self he q.window with ⟨-,hentry,hexpired⟩ | ⟨hpos,hentry,hexpired⟩
      · have honce := SlotMove.atOnce (q := q) hw
        simpa [slot,entry,expired,grant_self,countP_erase_self hcall,hnow,hentry,hexpired] using honce
      · have hdeadline := SlotMove.deadline (q := q) hw he hpos
        simpa [slot,entry,expired,grant_self,countP_erase_self hcall,hnow,hentry,hexpired] using hdeadline
    · have hcalls := countP_erase_of_ne hcall hkey
      rcases Store.expireIn_of_ne (s := s.redis) (rateKey_ne hkey) q.window with
        ⟨⟨e,d,he,hd,hle⟩,hentry,hexpired⟩ | ⟨hentry,hexpired⟩
      · have hdrop := @SlotMove.drop q (s.slot key) 0 _ _ he hd hle
        simpa [slot,entry,expired,grant_of_ne hkey,hcalls,hnow,hentry,hexpired] using hdrop
      · have hsame := SlotMove.same (q := q) (s := s.slot key)
        simpa [slot,entry,expired,grant_of_ne hkey,hcalls,hnow,hentry,hexpired] using hsame
  | @lost call hcall =>
    by_cases hkey : key = call.key
    · subst hkey
      refine ⟨true,?_,by simp⟩
      have hlose := SlotMove.lose (q := q) (waiting_pos hcall)
      simpa [slot,entry,expired,countP_erase_self hcall] using hlose
    · refine ⟨false,?_,by simp [Ne.symm hkey]⟩
      have hsame := SlotMove.same (q := q) (s := s.slot key)
      simpa [slot,entry,expired,countP_erase_of_ne hcall hkey] using hsame
  | @passed ms =>
    refine ⟨false,?_,by simp⟩
    rcases Store.pass_cases s.redis ms (rateKey key) with ⟨⟨e,d,he,hd,hle⟩,hentry,hexpired⟩ | ⟨hdue,hentry,hexpired⟩
    · have hdrop := @SlotMove.drop q (s.slot key) ms _ _ he hd hle
      simpa [slot,entry,expired,Store.pass_now,hentry,hexpired] using hdrop
    · have hlate : ∀ e d, s.entry key = some e → e.deadline = some d → s.redis.now + ms < d := by
        intro e d he hd
        by_contra hlt
        exact hdue ⟨e,d,he,hd,Nat.le_of_not_lt hlt⟩
      have hpass := @SlotMove.pass q (s.slot key) ms hlate
      simpa [slot,entry,expired,Store.pass_now,hentry,hexpired] using hpass

theorem regular_start (q : Quota) : Limiter.Regular q {} := by
  refine ⟨?_,by simp⟩
  intro key
  exact ⟨by simp [slot,entry],by simp [slot],by simp [slot],by simp [slot,entry]⟩

theorem Regular.step (hlimit : 0 < q.limit) (hs : s.Regular q) (h : RateStep q l s t) : t.Regular q := by
  refine ⟨?_,?_⟩
  · intro key
    obtain ⟨b,hm,-⟩ := hs.move hlimit h key
    exact (hs.slots key).move hm
  · have hm := h.moves hlimit hs.counted
    cases hm with
    | failed => exact hs.first
    | opened _ =>
      intro call hcall
      rcases List.mem_cons.mp hcall with rfl | hcall
      · rfl
      · exact hs.first call hcall
    | counted _ _ => exact hs.first
    | closed _ => exact fun call hcall => hs.first call (List.mem_of_mem_erase hcall)
    | lost _ => exact fun call hcall => hs.first call (List.mem_of_mem_erase hcall)
    | passed => exact hs.first

end Limiter

section
variable {q : Quota} {s t u : Limiter} {l : RateAction} {ls : List RateAction} {key : String}
open Transition Limiter

theorem rateRun_regular (hlimit : 0 < q.limit) (h : Run (RateStep q) s ls t) (hs : s.Regular q) : t.Regular q :=
  h.invariant hs (fun _ _ _ ht hl => ht.step hlimit hl)

theorem rateRun_expired (hlimit : 0 < q.limit) (h : Run (RateStep q) s ls t) (hs : s.Regular q) (key : String) :
    s.expired key ≤ t.expired key := by
  induction h with
  | nil => exact le_refl _
  | snoc hrun hl ih =>
    obtain ⟨b,hm,-⟩ := (rateRun_regular hlimit hrun hs).move hlimit hl key
    exact ih.trans (RateSlot.expired_mono hm)

theorem rateRun_reserve (hlimit : 0 < q.limit) (h : Run (RateStep q) s ls t) (hs : s.Regular q)
    (hsame : t.expired key = s.expired key) : (t.slot key).reserve q ≤ (s.slot key).reserve q := by
  induction h with
  | nil => exact le_refl _
  | snoc hrun hl ih =>
    obtain ⟨b,hm,-⟩ := (rateRun_regular hlimit hrun hs).move hlimit hl key
    have hle := rateRun_expired hlimit hrun hs key
    have hle' := RateSlot.expired_mono hm
    have heq := le_antisymm (hle'.trans_eq hsame) hle
    exact (RateSlot.reserve_le hlimit hm (hsame.trans heq.symm)).trans (ih heq)

theorem rateRun_granted (hlimit : 0 < q.limit) (h : Run (RateStep q) s ls t) (hs : s.Regular q)
    (hsame : t.expired key = s.expired key) : (t.granted key : ℤ) ≤ s.granted key + q.limit := by
  have hreserve := rateRun_reserve hlimit h hs hsame
  have hstart : (s.slot key).reserve q ≤ s.granted key + q.limit := (hs.slots key).reserve_le hlimit
  have hend : (t.granted key : ℤ) ≤ (t.slot key).reserve q := by
    simp only [RateSlot.reserve,slot]
    omega
  omega

theorem rateRun_carried (hlimit : 0 < q.limit) (h : Run (RateStep q) s ls t) (hs : s.Regular q)
    (hcarried : ∀ key, (s.slot key).Carried) (hls : ∀ call, RateAction.expire call false ∉ ls) (key : String) :
    (t.slot key).Carried := by
  induction h with
  | nil => exact hcarried key
  | snoc hrun hl ih =>
    obtain ⟨b,hm,hb⟩ := (rateRun_regular hlimit hrun hs).move hlimit hl key
    have hnot : b = false := by
      by_contra hne
      obtain ⟨call,rfl,-⟩ := hb.mp (by simpa using hne)
      exact hls call (List.mem_append_right _ List.mem_cons_self)
    subst hnot
    exact (ih (fun call hcall => hls call (List.mem_append_left _ hcall))).move hm

theorem rateRun_dated {d : ℕ} (hlimit : 0 < q.limit) (h : Run (RateStep q) s ls t) (hs : s.Regular q)
    (hdated : (s.slot key).Dated d) : (t.slot key).Dated d ∨ s.expired key < t.expired key := by
  induction h with
  | nil => exact Or.inl hdated
  | snoc hrun hl ih =>
    obtain ⟨b,hm,-⟩ := (rateRun_regular hlimit hrun hs).move hlimit hl key
    rcases ih with hstill | hlt
    · rcases hstill.move hm with hstill | hlt
      · exact Or.inl hstill
      · exact Or.inr ((rateRun_expired hlimit hrun hs key).trans_lt hlt)
    · exact Or.inr (hlt.trans_le (RateSlot.expired_mono hm))

/-- The key is counted under a deadline that is at most a window away. -/
def Limiter.Expires (q : Quota) (s : Limiter) (key : String) : Prop :=
  ∀ e, s.entry key = some e → ∃ d, e.deadline = some d ∧ s.redis.now < d ∧ d ≤ s.redis.now + q.window

/-- In the run of these steps nobody is blocked for ever: between calls a key that is
counted carries an expiry, it has expired once a window has passed, and between two
expiries no more calls than the limit are told True by a Redis that answers. -/
structure NeverBlocks (q : Quota) (ls : List RateAction) : Prop where
  expires : ∀ ks js t key, ks ++ js = ls → Run (RateStep q) {} ks t → t.Settled key → t.Expires q key
  returns : ∀ ks js is t u key, ks ++ js ++ is = ls → Run (RateStep q) {} ks t → Run (RateStep q) t js u →
    t.Settled key → (t.entry key).isSome → t.redis.now + q.window ≤ u.redis.now → t.expired key < u.expired key
  granted : ∀ ks js is t u key, ks ++ js ++ is = ls → Run (RateStep q) {} ks t → Run (RateStep q) t js u →
    u.expired key = t.expired key → (u.granted key : ℤ) ≤ t.granted key + q.limit

theorem expires_of_carried (hs : s.Regular q) (hcarried : (s.slot key).Carried) (hsettled : s.Settled key) :
    s.Expires q key := by
  intro e he
  have hzero := waiting_eq_zero.mpr hsettled
  cases hd : e.deadline with
  | none =>
    have hpos := hcarried e he hd
    omega
  | some d =>
    have htimely := (hs.slots key).timely e d he hd
    exact ⟨d,rfl,htimely⟩

theorem expired_after_window (hlimit : 0 < q.limit) (hs : s.Regular q) (h : Run (RateStep q) s ls t)
    (hsettled : s.Settled key) (hexpires : s.Expires q key) (hsome : (s.entry key).isSome)
    (hlate : s.redis.now + q.window ≤ t.redis.now) : s.expired key < t.expired key := by
  obtain ⟨e,he⟩ := Option.isSome_iff_exists.mp hsome
  obtain ⟨d,hd,-,hle⟩ := hexpires e he
  rcases rateRun_dated hlimit h hs ⟨waiting_eq_zero.mpr hsettled,e,he,hd⟩ with ⟨-,e',he',hd'⟩ | hlt
  · have htimely := (((rateRun_regular hlimit h hs).slots key).timely e' d he' hd').1
    have hnow : (t.slot key).now = t.redis.now := rfl
    omega
  · exact hlt

theorem not_expires_of_lost {call : AllowCall} (hlimit : 0 < q.limit) (hs : s.Regular q)
    (h : RateStep q (.expire call false) s t) : t.Settled call.key ∧ ¬ t.Expires q call.key := by
  obtain ⟨b,hm,hb⟩ := hs.move hlimit h call.key
  have htrue : b = true := hb.mpr ⟨call,rfl,rfl⟩
  subst htrue
  obtain ⟨hzero,hnot⟩ := RateSlot.lose_not_carried (hs.slots call.key) hm
  refine ⟨waiting_eq_zero.mp hzero,?_⟩
  intro hexpires
  refine hnot ?_
  intro e he hnone
  obtain ⟨d,hd,-⟩ := hexpires e he
  rw [hnone] at hd
  cases hd

theorem refused_for_ever {n : ℕ} {plane : ControlPlane} (hlimit : 0 < q.limit) (hs : s.Regular q)
    (hstuck : (s.slot key).Stuck n) (hfull : q.limit ≤ n) (h : Run (RateStep q) s ls t) (hup : plane.enabled = true) :
    ∃ allowed, (allow true q t.redis key true).2 = .answer allowed ∧
      enforceRateLimit (some plane) allowed = .error ⟨429,"rate limit exceeded"⟩ := by
  have hstill : (t.slot key).Stuck n := by
    induction h with
    | nil => exact hstuck
    | snoc hrun hl ih =>
      obtain ⟨b,hm,-⟩ := (rateRun_regular hlimit hrun hs).move hlimit hl key
      exact ih.move hm
  obtain ⟨-,e,he,-,hn⟩ := hstill
  have hcount : (t.redis.incr (rateKey key)).2 = e.count + 1 := (Store.incr_old he).1
  have hne : e.count ≠ 0 := by omega
  have hover : ¬ ((e.count : ℤ) + 1 ≤ q.limit) := by omega
  refine ⟨false,?_,by simp [enforceRateLimit,hup]⟩
  simp [allow,hcount,hne,hover,not_le.mpr hlimit]

/-- In a run from an empty Redis nobody is blocked for ever if and only if no EXPIRE is
lost, whoever calls when and whatever INCR fails. -/
theorem rate_limit_never_blocks_iff (q : Quota) (hlimit : 0 < q.limit) (ls : List RateAction) (s : Limiter)
    (h : Run (RateStep q) {} ls s) : NeverBlocks q ls ↔ ∀ call, RateAction.expire call false ∉ ls := by
  have hstart := regular_start q
  have hcarried : ∀ key, (Limiter.slot {} key).Carried := by
    intro key e he
    cases he
  refine ⟨?_,?_⟩
  · intro hnever call hcall
    obtain ⟨ks,js,rfl⟩ := List.append_of_mem hcall
    rw [List.append_cons] at h hnever
    obtain ⟨u,hu,-⟩ := h.of_append
    obtain ⟨t,ht,hl⟩ := hu.last
    obtain ⟨hsettled,hnot⟩ := not_expires_of_lost hlimit (rateRun_regular hlimit ht hstart) hl
    exact hnot (hnever.expires _ js u call.key rfl hu hsettled)
  · intro hls
    have hexpires : ∀ ks js t key, ks ++ js = ls → Run (RateStep q) {} ks t → t.Settled key → t.Expires q key := by
      intro ks js t key hks ht hsettled
      subst hks
      refine expires_of_carried (rateRun_regular hlimit ht hstart) ?_ hsettled
      exact rateRun_carried hlimit ht hstart hcarried (fun call hcall => hls call (List.mem_append_left _ hcall)) key
    refine ⟨hexpires,?_,?_⟩
    · intro ks js is t u key hks ht hu hsettled hsome hlate
      have hcarries := hexpires ks (js ++ is) t key (by simpa using hks) ht hsettled
      exact expired_after_window hlimit (rateRun_regular hlimit ht hstart) hu hsettled hcarries hsome hlate
    · intro ks js is t u key _ ht hu hsame
      exact rateRun_granted hlimit hu (rateRun_regular hlimit ht hstart) hsame

theorem rateRun_of_isSome (h : (playAll (Limiter.exec q) ls {}).isSome) : ∃ s, Run (RateStep q) {} ls s := by
  obtain ⟨s,hs⟩ := Option.isSome_iff_exists.mp h
  exact ⟨s,playAll_run (fun _ _ _ _ hl => hl) hs⟩

/-- Two clients whose commands interleave; one INCR fails, and one call is refused before
its window has passed. -/
def twoClients : List RateAction :=
  [.request "1.1.1.1" true,.request "2.2.2.2" true,.request "1.1.1.1" false,.expire ⟨"2.2.2.2",1⟩ true,
    .request "1.1.1.1" true,.expire ⟨"1.1.1.1",1⟩ true,.pass 60000,.request "1.1.1.1" true,.expire ⟨"1.1.1.1",1⟩ true]

theorem rate_limit_never_blocks_iff_two : NeverBlocks { limit := 1 } twoClients := by
  have hsome : (playAll (Limiter.exec { limit := 1 }) twoClients {}).isSome := by decide
  obtain ⟨s,h⟩ := rateRun_of_isSome hsome
  exact (rate_limit_never_blocks_iff { limit := 1 } (by decide) _ s h).mpr (by simp [twoClients])

/-- The one call of a client loses its EXPIRE. -/
theorem not_rate_limit_never_blocks : ¬ ∀ (q : Quota), 0 < q.limit → ∀ (ls : List RateAction) (s : Limiter),
    Run (RateStep q) {} ls s → NeverBlocks q ls := by
  intro h
  have hsome : (playAll (Limiter.exec { limit := 1 })
    ([.request "1.1.1.1" true] ++ [.expire ⟨"1.1.1.1",1⟩ false]) {}).isSome := by decide
  obtain ⟨u,hrun⟩ := rateRun_of_isSome hsome
  obtain ⟨t,ht,hlost⟩ := hrun.last
  have hregular := rateRun_regular (by decide) ht (regular_start _)
  obtain ⟨hsettled,hnot⟩ := not_expires_of_lost (by decide) hregular hlost
  exact hnot ((h _ (by decide) _ _ hrun).expires _ [] _ _ (by simp) hrun hsettled)

end
end FluxEngine
