import Mathlib.Data.List.Basic
import FluxEngine.Lib.PrefixCode

/-! # UTF-8 as a prefix code

Decoding writes one U+FFFD for every maximal piece that no character continues.
-/
namespace FluxEngine.Utf8
open String (utf8EncodeChar)

/-- The second byte's range, which the first byte narrows at the ends of the code
space and around the surrogates. -/
def secondOk (a b : UInt8) : Bool :=
  (if a = 0xE0 then 0xA0 else if a = 0xF0 then 0x90 else 0x80) ≤ b &&
    b ≤ (if a = 0xED then 0x9F else if a = 0xF4 then 0x8F else 0xBF)

def tailOk (b : UInt8) : Bool := 0x80 ≤ b && b ≤ 0xBF

def viable : List UInt8 → Bool
  | [a] => 0xC2 ≤ a && a ≤ 0xF4
  | [a,b] => 0xE0 ≤ a && a ≤ 0xF4 && secondOk a b
  | [a,b,c] => 0xF0 ≤ a && a ≤ 0xF4 && secondOk a b && tailOk c
  | _ => false

def complete (p : List UInt8) : Option Char :=
  (ByteArray.utf8DecodeChar? p.toByteArray 0).filter (fun c => utf8EncodeChar c = p)

theorem decode_encode (c : Char) :
    ByteArray.utf8DecodeChar? (utf8EncodeChar c).toByteArray 0 = some c := by
  have h := ByteArray.utf8DecodeChar?_utf8EncodeChar_append (b := ByteArray.empty) (c := c)
  simpa using h

theorem complete_iff {p : List UInt8} {c : Char} : complete p = some c ↔ utf8EncodeChar c = p := by
  constructor
  · intro h
    simpa using (Option.filter_eq_some_iff.mp h).2
  · rintro rfl
    simp [complete,decode_encode]

theorem free {c d : Char} {q : List UInt8} (h : utf8EncodeChar c = utf8EncodeChar d ++ q) : q = [] := by
  have hd := ByteArray.utf8DecodeChar?_utf8EncodeChar_append (b := q.toByteArray) (c := d)
  rw [← List.toByteArray_append,← h,decode_encode,Option.some_inj] at hd
  rw [hd] at h
  exact List.self_eq_append_right.mp h

theorem sync {c d : Char} {p q r : List UInt8} {x : UInt8} (hc : utf8EncodeChar c = p ++ x :: q)
    (hd : utf8EncodeChar d = x :: r) : p = [] := by
  have hfirst : x.IsUTF8FirstByte := by
    have hlt : 0 < (utf8EncodeChar d).length := by simp [hd]
    have h : ((utf8EncodeChar d)[0]).IsUTF8FirstByte := UInt8.isUTF8FirstByte_getElem_utf8EncodeChar.mpr rfl
    simpa [hd] using h
  have hlt : p.length < (utf8EncodeChar c).length := by simp [hc]
  have h : ((utf8EncodeChar c)[p.length]).IsUTF8FirstByte ↔ p.length = 0 :=
    UInt8.isUTF8FirstByte_getElem_utf8EncodeChar
  simp only [hc,List.getElem_append_right (Nat.le_refl _),Nat.sub_self,List.getElem_cons_zero] at h
  exact List.length_eq_zero_iff.mp (h.mp hfirst)

theorem exists_char {n : ℕ} (hn : n.isValidChar) : ∃ c : Char, c.val.toNat = n := by
  have hlt : n < UInt32.size := by
    rcases hn with hn | ⟨_,hn⟩
    · exact Nat.lt_trans hn (by decide)
    · exact Nat.lt_trans hn (by decide)
  exact ⟨⟨UInt32.ofNatLT n hlt,hn⟩,UInt32.toNat_ofNatLT⟩

section Ranges
variable {a b c d : UInt8}

theorem tailOk_iff : tailOk b = true ↔ 0x80 ≤ b.toNat ∧ b.toNat ≤ 0xBF := by
  simp [tailOk,UInt8.le_iff_toNat_le]

theorem secondOk_iff : secondOk a b = true ↔
    0x80 ≤ b.toNat ∧ b.toNat ≤ 0xBF ∧ (a.toNat = 0xE0 → 0xA0 ≤ b.toNat) ∧
      (a.toNat = 0xF0 → 0x90 ≤ b.toNat) ∧ (a.toNat = 0xED → b.toNat ≤ 0x9F) ∧
      (a.toNat = 0xF4 → b.toNat ≤ 0x8F) := by
  simp only [secondOk,Bool.and_eq_true,decide_eq_true_eq,← UInt8.toNat_inj,UInt8.le_iff_toNat_le]
  split_ifs <;> simp at * <;> omega

theorem encode_two (ha : 0xC2 ≤ a.toNat) (ha' : a.toNat ≤ 0xDF) (hb : tailOk b = true) :
    ∃ e, utf8EncodeChar e = [a,b] := by
  rw [tailOk_iff] at hb
  obtain ⟨e,he⟩ := exists_char (n := (a.toNat - 0xC0) * 64 + (b.toNat - 0x80)) (Or.inl (by omega))
  refine ⟨e,?_⟩
  simp only [utf8EncodeChar]
  rw [he,if_neg (by omega),if_pos (by omega)]
  simp only [← UInt8.toNat_inj,List.cons.injEq,UInt8.toNat_ofNat',and_true]
  omega

theorem encode_three (ha : 0xE0 ≤ a.toNat) (ha' : a.toNat ≤ 0xEF) (hb : secondOk a b = true)
    (hc : tailOk c = true) : ∃ e, utf8EncodeChar e = [a,b,c] := by
  rw [tailOk_iff] at hc
  rw [secondOk_iff] at hb
  have hvalid : Nat.isValidChar
      ((a.toNat - 0xE0) * 4096 + (b.toNat - 0x80) * 64 + (c.toNat - 0x80)) := by
    unfold Nat.isValidChar
    omega
  obtain ⟨e,he⟩ := exists_char hvalid
  refine ⟨e,?_⟩
  simp only [utf8EncodeChar]
  rw [he,if_neg (by omega),if_neg (by omega),if_pos (by omega)]
  simp only [← UInt8.toNat_inj,List.cons.injEq,UInt8.toNat_ofNat',and_true]
  omega

theorem encode_four (ha : 0xF0 ≤ a.toNat) (ha' : a.toNat ≤ 0xF4) (hb : secondOk a b = true)
    (hc : tailOk c = true) (hd : tailOk d = true) : ∃ e, utf8EncodeChar e = [a,b,c,d] := by
  rw [tailOk_iff] at hc hd
  rw [secondOk_iff] at hb
  have hvalid : Nat.isValidChar ((a.toNat - 0xF0) * 262144 + (b.toNat - 0x80) * 4096 +
      (c.toNat - 0x80) * 64 + (d.toNat - 0x80)) := by
    unfold Nat.isValidChar
    omega
  obtain ⟨e,he⟩ := exists_char hvalid
  refine ⟨e,?_⟩
  simp only [utf8EncodeChar]
  rw [he,if_neg (by omega),if_neg (by omega),if_neg (by omega)]
  simp only [← UInt8.toNat_inj,List.cons.injEq,UInt8.toNat_ofNat',and_true]
  omega

end Ranges
/-- Whatever a first byte, or the first bytes, allow can be finished. -/
theorem exists_of_viable {p : List UInt8} (hp : viable p = true) :
    p ≠ [] ∧ ∃ c q, q ≠ [] ∧ utf8EncodeChar c = p ++ q := by
  match p with
  | [] => simp [viable] at hp
  | [a] =>
    refine ⟨by simp,?_⟩
    simp only [viable,Bool.and_eq_true,decide_eq_true_eq,UInt8.le_iff_toNat_le] at hp
    simp at hp
    by_cases h₂ : a.toNat ≤ 0xDF
    · obtain ⟨e,he⟩ := encode_two (b := 0x80) hp.1 h₂ (by decide)
      exact ⟨e,[0x80],by simp,he⟩
    · by_cases h₃ : a.toNat ≤ 0xEF
      · by_cases h0 : a.toNat = 0xE0
        · obtain ⟨e,he⟩ := encode_three (a := a) (b := 0xA0) (c := 0x80) (by omega) h₃
            (secondOk_iff.mpr (by simp [h0])) (by decide)
          exact ⟨e,[0xA0,0x80],by simp,he⟩
        · obtain ⟨e,he⟩ := encode_three (a := a) (b := 0x80) (c := 0x80) (by omega) h₃
            (secondOk_iff.mpr (by simp; omega)) (by decide)
          exact ⟨e,[0x80,0x80],by simp,he⟩
      · by_cases h0 : a.toNat = 0xF0
        · obtain ⟨e,he⟩ := encode_four (a := a) (b := 0x90) (c := 0x80) (d := 0x80) (by omega) hp.2
            (secondOk_iff.mpr (by simp [h0])) (by decide) (by decide)
          exact ⟨e,[0x90,0x80,0x80],by simp,he⟩
        · obtain ⟨e,he⟩ := encode_four (a := a) (b := 0x80) (c := 0x80) (d := 0x80) (by omega) hp.2
            (secondOk_iff.mpr (by simp; omega)) (by decide) (by decide)
          exact ⟨e,[0x80,0x80,0x80],by simp,he⟩
  | [a,b] =>
    refine ⟨by simp,?_⟩
    simp only [viable,Bool.and_eq_true,decide_eq_true_eq,UInt8.le_iff_toNat_le] at hp
    simp only [UInt8.toNat_ofNat] at hp
    obtain ⟨⟨hlow,hhigh⟩,hb⟩ := hp
    by_cases h₃ : a.toNat ≤ 0xEF
    · obtain ⟨e,he⟩ := encode_three (c := 0x80) hlow h₃ hb (by decide)
      exact ⟨e,[0x80],by simp,he⟩
    · obtain ⟨e,he⟩ := encode_four (a := a) (c := 0x80) (d := 0x80) (by omega) hhigh hb (by decide) (by decide)
      exact ⟨e,[0x80,0x80],by simp,he⟩
  | [a,b,c] =>
    refine ⟨by simp,?_⟩
    simp only [viable,Bool.and_eq_true,decide_eq_true_eq,UInt8.le_iff_toNat_le] at hp
    obtain ⟨⟨⟨hlow,hhigh⟩,hb⟩,hc⟩ := hp
    obtain ⟨e,he⟩ := encode_four (d := 0x80) hlow hhigh hb hc (by decide)
    exact ⟨e,[0x80],by simp,he⟩
  | _ :: _ :: _ :: _ :: _ => simp [viable] at hp

/-- The first bytes of a longer encoding are within the ranges. -/
theorem viable_of_encode {p q : List UInt8} {c : Char} (hp : p ≠ []) (hq : q ≠ [])
    (hc : utf8EncodeChar c = p ++ q) : viable p = true := by
  have hvalid : Nat.isValidChar c.val.toNat := c.valid
  unfold Nat.isValidChar at hvalid
  have hlen : 0 < p.length ∧ 0 < q.length := by simp [List.length_pos_iff,hp,hq]
  simp only [utf8EncodeChar] at hc
  split_ifs at hc with h₁ h₂ h₃
  · have h := congrArg List.length hc
    simp at h
    omega
  · match p with
    | [a] =>
      simp only [List.cons_append,List.cons.injEq] at hc
      simp only [viable,Bool.and_eq_true,decide_eq_true_eq,UInt8.le_iff_toNat_le,← hc.1,UInt8.toNat_ofNat',
        UInt8.toNat_ofNat]
      omega
    | _ :: _ :: _ =>
      have h := congrArg List.length hc
      simp only [List.length_append,List.length_cons,List.length_nil] at h
      omega
  · match p with
    | [a] =>
      simp only [List.cons_append,List.cons.injEq] at hc
      simp only [viable,Bool.and_eq_true,decide_eq_true_eq,UInt8.le_iff_toNat_le,← hc.1,UInt8.toNat_ofNat',
        UInt8.toNat_ofNat]
      omega
    | [a,b] =>
      simp only [List.cons_append,List.cons.injEq] at hc
      simp only [viable,Bool.and_eq_true,decide_eq_true_eq,UInt8.le_iff_toNat_le,secondOk_iff,← hc.1,← hc.2.1,
        UInt8.toNat_ofNat',UInt8.toNat_ofNat]
      omega
    | _ :: _ :: _ :: _ =>
      have h := congrArg List.length hc
      simp only [List.length_append,List.length_cons,List.length_nil] at h
      omega
  · match p with
    | [a] =>
      simp only [List.cons_append,List.cons.injEq] at hc
      simp only [viable,Bool.and_eq_true,decide_eq_true_eq,UInt8.le_iff_toNat_le,← hc.1,UInt8.toNat_ofNat',
        UInt8.toNat_ofNat]
      omega
    | [a,b] =>
      simp only [List.cons_append,List.cons.injEq] at hc
      simp only [viable,Bool.and_eq_true,decide_eq_true_eq,UInt8.le_iff_toNat_le,secondOk_iff,← hc.1,← hc.2.1,
        UInt8.toNat_ofNat',UInt8.toNat_ofNat]
      omega
    | [a,b,d] =>
      simp only [List.cons_append,List.cons.injEq] at hc
      simp only [viable,Bool.and_eq_true,decide_eq_true_eq,UInt8.le_iff_toNat_le,secondOk_iff,tailOk_iff,
        ← hc.1,← hc.2.1,← hc.2.2.1,UInt8.toNat_ofNat',UInt8.toNat_ofNat]
      omega
    | _ :: _ :: _ :: _ :: _ =>
      have h := congrArg List.length hc
      simp only [List.length_append,List.length_cons,List.length_nil] at h
      omega

theorem viable_iff {p : List UInt8} :
    viable p = true ↔ p ≠ [] ∧ ∃ c q, q ≠ [] ∧ utf8EncodeChar c = p ++ q := by
  refine ⟨exists_of_viable,?_⟩
  rintro ⟨hp,c,q,hq,hc⟩
  exact viable_of_encode hp hq hc

end FluxEngine.Utf8

namespace FluxEngine

def utf8 : PrefixCode UInt8 Char where
  encode := String.utf8EncodeChar
  complete := Utf8.complete
  viable := Utf8.viable
  complete_iff := Utf8.complete_iff
  viable_iff := Utf8.viable_iff
  encode_ne := fun _ => String.utf8EncodeChar_ne_nil
  free := Utf8.free
  sync := Utf8.sync

def replacementChar : Char := '\uFFFD'

def utf8Lossy (bytes : List UInt8) : List Char := utf8.lossy replacementChar bytes

example : utf8Lossy [0x61,0xE2,0x82,0x41,0xC3,0xA9,0xF0] = ['a','\uFFFD','A','é','\uFFFD'] := by decide

end FluxEngine
