import Mathlib.Data.List.Basic

/-! # JSON values and their compact text

The text that Python's `json.dumps` gives with the separators `,` and `:` when it
escapes everything that is not printable ASCII.  A number stands for itself, as the
literal that is written for it.
-/
namespace FluxEngine

def Printable (c : Char) : Prop := 0x20 ≤ c.toNat ∧ c.toNat ≤ 0x7e

instance : DecidablePred Printable := fun c => inferInstanceAs (Decidable (0x20 ≤ c.toNat ∧ c.toNat ≤ 0x7e))

structure Numeral where
  text : List Char
  printable : ∀ c ∈ text, Printable c

inductive Json
  | null
  | bool (value : Bool)
  | number (value : Numeral)
  | string (text : List Char)
  | array (items : List Json)
  | object (fields : List (String × Json))

def Numeral.nonzero (n : Numeral) : Bool :=
  (n.text.takeWhile (fun c => c ≠ 'e' && c ≠ 'E')).any (fun c => c.isDigit && c ≠ '0')

theorem printable_digit : ∀ n < 16, Printable (Nat.digitChar n) := by decide

/-- A natural number in decimal. -/
def Numeral.ofNat (n : ℕ) : Numeral where
  text := Nat.toDigits 10 n
  printable c hc := by
    have hdigit := Nat.isDigit_of_mem_toDigits (by decide) (by decide) hc
    simp only [Char.isDigit,Bool.and_eq_true,decide_eq_true_eq,ge_iff_le,UInt32.le_iff_toNat_le] at hdigit
    exact ⟨Nat.le_trans (by decide) hdigit.1,Nat.le_trans hdigit.2 (by decide)⟩

namespace Json

def hex4 (n : ℕ) : List Char :=
  [Nat.digitChar (n / 4096 % 16),Nat.digitChar (n / 256 % 16),Nat.digitChar (n / 16 % 16),Nat.digitChar (n % 16)]

/-- Past U+FFFF a surrogate pair. -/
def escape (c : Char) : List Char :=
  if c = '"' then ['\\','"']
  else if c = '\\' then ['\\','\\']
  else if c = '\n' then ['\\','n']
  else if c = '\r' then ['\\','r']
  else if c = '\t' then ['\\','t']
  else if c = '\x0c' then ['\\','f']
  else if c = '\x08' then ['\\','b']
  else if Printable c then [c]
  else if c.toNat < 0x10000 then '\\' :: 'u' :: hex4 c.toNat
  else
    let n := c.toNat - 0x10000
    '\\' :: 'u' :: hex4 (0xd800 + n / 1024 % 1024) ++ '\\' :: 'u' :: hex4 (0xdc00 + n % 1024)

def quote (text : List Char) : List Char := '"' :: text.flatMap escape ++ ['"']

mutual

def dumps : Json → List Char
  | .null => ['n','u','l','l']
  | .bool value => if value then ['t','r','u','e'] else ['f','a','l','s','e']
  | .number value => value.text
  | .string text => quote text
  | .array items => '[' :: [','].intercalate (dumpsItems items) ++ [']']
  | .object fields => '{' :: [','].intercalate (dumpsFields fields) ++ ['}']

def dumpsItems : List Json → List (List Char)
  | [] => []
  | item :: rest => dumps item :: dumpsItems rest

def dumpsFields : List (String × Json) → List (List Char)
  | [] => []
  | (key,value) :: rest => (quote key.toList ++ ':' :: dumps value) :: dumpsFields rest

end

theorem printable_hex4 (n : ℕ) : ∀ c ∈ hex4 n, Printable c := by
  have hdigit (m : ℕ) : Printable (Nat.digitChar (m % 16)) := printable_digit _ (Nat.mod_lt m (by omega))
  simp only [hex4,List.forall_mem_cons]
  exact ⟨hdigit _,hdigit _,hdigit _,hdigit _,by simp⟩

theorem printable_escape (c : Char) : ∀ d ∈ escape c, Printable d := by
  unfold escape
  split_ifs with _ _ _ _ _ _ _ hc _
  · simp [Printable]
  · simp [Printable]
  · simp [Printable]
  · simp [Printable]
  · simp [Printable]
  · simp [Printable]
  · simp [Printable]
  · simpa using hc
  · simp only [List.forall_mem_cons]
    exact ⟨by decide,by decide,printable_hex4 _⟩
  · simp only [List.cons_append,List.forall_mem_cons,List.forall_mem_append]
    exact ⟨by decide,by decide,printable_hex4 _,by decide,by decide,printable_hex4 _⟩

theorem printable_quote (text : List Char) : ∀ c ∈ quote text, Printable c := by
  simp only [quote,List.cons_append,List.forall_mem_cons,List.forall_mem_append]
  refine ⟨by decide,?_,by decide,by simp⟩
  intro c hc
  obtain ⟨d,_,hd⟩ := List.mem_flatMap.mp hc
  exact printable_escape d c hd

theorem printable_intercalate {texts : List (List Char)} (h : ∀ text ∈ texts, ∀ c ∈ text, Printable c) :
    ∀ c ∈ [','].intercalate texts, Printable c := by
  induction texts with
  | nil => simp
  | cons text texts ih =>
    have htext := h text List.mem_cons_self
    by_cases hlast : texts = []
    · rwa [hlast,List.intercalate_singleton]
    · rw [List.intercalate_cons_of_ne_nil hlast]
      simp only [List.forall_mem_append]
      exact ⟨⟨htext,by simp [Printable]⟩,ih (fun t ht => h t (List.mem_cons_of_mem text ht))⟩

mutual

theorem printable_dumps : ∀ (v : Json), ∀ c ∈ dumps v, Printable c
  | .null => by simp [dumps,Printable]
  | .bool true => by simp [dumps,Printable]
  | .bool false => by simp [dumps,Printable]
  | .number value => value.printable
  | .string text => printable_quote text
  | .array items => by
    simp only [dumps,List.cons_append,List.forall_mem_cons,List.forall_mem_append]
    exact ⟨by decide,printable_intercalate (printable_items items),by decide,by simp⟩
  | .object fields => by
    simp only [dumps,List.cons_append,List.forall_mem_cons,List.forall_mem_append]
    exact ⟨by decide,printable_intercalate (printable_fields fields),by decide,by simp⟩

theorem printable_items : ∀ (items : List Json), ∀ text ∈ dumpsItems items, ∀ c ∈ text, Printable c
  | [] => by simp [dumpsItems]
  | item :: rest => by
    simp only [dumpsItems,List.forall_mem_cons]
    exact ⟨printable_dumps item,printable_items rest⟩

theorem printable_fields : ∀ (fields : List (String × Json)), ∀ text ∈ dumpsFields fields, ∀ c ∈ text, Printable c
  | [] => by simp [dumpsFields]
  | (key,value) :: rest => by
    simp only [dumpsFields,List.forall_mem_cons,List.forall_mem_append]
    exact ⟨⟨printable_quote _,by decide,printable_dumps value⟩,printable_fields rest⟩

end

end Json
end FluxEngine
