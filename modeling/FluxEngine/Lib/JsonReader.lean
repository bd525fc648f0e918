import Mathlib.Data.List.TakeWhile
import Mathlib.Data.Rat.Defs
import FluxEngine.Lib.Json
import FluxEngine.Lib.OrderedDict

/-! # Reading JSON

The scanner of Python's `json.loads`, which takes back what `json.dumps` writes.  A
string of this model holds characters, so that an escape of half a surrogate pair is
not read.
-/
namespace FluxEngine
namespace Json

def hexValue (c : Char) : Option ℕ :=
  if c.isDigit then some (c.toNat - 48)
  else if 'a' ≤ c ∧ c ≤ 'f' then some (c.toNat - 87)
  else if 'A' ≤ c ∧ c ≤ 'F' then some (c.toNat - 55)
  else none

/-- Four hexadecimal digits. -/
def readHex4 : List Char → Option (ℕ × List Char)
  | a :: b :: c :: d :: rest =>
    (hexValue a).bind (fun a => (hexValue b).bind (fun b => (hexValue c).bind (fun c => (hexValue d).map (fun d =>
      (4096 * a + 256 * b + 16 * c + d,rest)))))
  | _ => none

/-- The character after `\u`, of which those past U+FFFF are written as two. -/
def readUnicode (text : List Char) : Option (Char × List Char) :=
  (readHex4 text).bind (fun high =>
    if 0xd800 ≤ high.1 ∧ high.1 < 0xdc00 then
      match high.2 with
      | '\\' :: 'u' :: rest =>
        (readHex4 rest).bind (fun low =>
          if 0xdc00 ≤ low.1 ∧ low.1 < 0xe000 then
            some (Char.ofNat (0x10000 + 1024 * (high.1 - 0xd800) + (low.1 - 0xdc00)),low.2)
          else none)
      | _ => none
    else if 0xdc00 ≤ high.1 ∧ high.1 < 0xe000 then none
    else some (Char.ofNat high.1,high.2))

def readEscape : List Char → Option (Char × List Char)
  | '"' :: rest => some ('"',rest)
  | '\\' :: rest => some ('\\',rest)
  | '/' :: rest => some ('/',rest)
  | 'b' :: rest => some ('\x08',rest)
  | 'f' :: rest => some ('\x0c',rest)
  | 'n' :: rest => some ('\n',rest)
  | 'r' :: rest => some ('\r',rest)
  | 't' :: rest => some ('\t',rest)
  | 'u' :: rest => readUnicode rest
  | _ => none

/-- `scanstring`, after the opening quote. -/
def scanString : ℕ → List Char → Option (List Char × List Char)
  | 0, _ => none
  | _, [] => none
  | fuel + 1, c :: rest =>
    if c = '"' then some ([],rest)
    else if c = '\\' then
      (readEscape rest).bind (fun found => (scanString fuel found.2).map (fun tail => (found.1 :: tail.1,tail.2)))
    else if c.toNat < 0x20 then none
    else (scanString fuel rest).map (fun tail => (c :: tail.1,tail.2))

def digits (text : List Char) : List Char × List Char := (text.takeWhile Char.isDigit,text.dropWhile Char.isDigit)

def matchSign : List Char → List Char × List Char
  | [] => ([],[])
  | c :: rest => if c = '-' then (['-'],rest) else ([],c :: rest)

def matchInt : List Char → Option (List Char × List Char)
  | [] => none
  | c :: rest => if c = '0' then some (['0'],rest) else if c.isDigit then some (digits (c :: rest)) else none

def matchFrac : List Char → List Char × List Char
  | [] => ([],[])
  | c :: rest =>
    if c = '.' ∧ (digits rest).1 ≠ [] then (c :: (digits rest).1,(digits rest).2) else ([],c :: rest)

def matchExpSign : List Char → List Char × List Char
  | [] => ([],[])
  | c :: rest => if c = '+' ∨ c = '-' then ([c],rest) else ([],c :: rest)

def matchExp : List Char → List Char × List Char
  | [] => ([],[])
  | c :: rest =>
    let sign := matchExpSign rest
    if (c = 'e' ∨ c = 'E') ∧ (digits sign.2).1 ≠ [] then (c :: sign.1 ++ (digits sign.2).1,(digits sign.2).2)
    else ([],c :: rest)

/-- `NUMBER_RE`: an optional sign, the digits, and what may follow them. -/
structure NumberMatch where
  sign : List Char
  int : List Char
  frac : List Char
  exp : List Char

def NumberMatch.text (found : NumberMatch) : List Char := found.sign ++ found.int ++ found.frac ++ found.exp

/-- The exponent, of which the `e` and a plus sign are no digits. -/
def exponent (text : List Char) : ℤ :=
  let sign := matchExpSign (text.drop 1)
  let size : ℤ := Nat.ofDigitChars 10 sign.2 0
  if sign.1 = ['-'] then -size else size

/-- The decimal number that the literal stands for. -/
def NumberMatch.value (found : NumberMatch) : ℚ :=
  let places := found.frac.drop 1
  let size : ℤ := Nat.ofDigitChars 10 (found.int ++ places) 0
  let scale := exponent found.exp - places.length
  mkRat ((if found.sign = [] then size else -size) * 10 ^ scale.toNat) (10 ^ (-scale).toNat)

def matchNumber (text : List Char) : Option (NumberMatch × List Char) :=
  (matchInt (matchSign text).2).map (fun found =>
    let frac := matchFrac found.2
    let exp := matchExp frac.2
    (⟨(matchSign text).1,found.1,frac.1,exp.1⟩,exp.2))

def constants : List (List Char) :=
  [['N','a','N'],['I','n','f','i','n','i','t','y'],['-','I','n','f','i','n','i','t','y']]

theorem printable_of_all {text : List Char} (h : text.all (fun c => decide (Printable c)) = true) :
    ∀ c ∈ text, Printable c :=
  fun c hc => of_decide_eq_true (List.all_eq_true.mp h c hc)

def numeral (text : List Char) : Option Json :=
  if h : text.all (fun c => decide (Printable c)) = true then some (.number ⟨text,printable_of_all h⟩) else none

def scanNumber (text : List Char) : Option (Json × List Char) :=
  match matchNumber text with
  | some found => (numeral found.1.text).map (fun value => (value,found.2))
  | none =>
    match constants.find? (fun word => word.isPrefixOf text) with
    | some word => (numeral word).map (fun value => (value,text.drop word.length))
    | none => none

def skipSpace (text : List Char) : List Char := text.dropWhile (fun c => c = ' ' ∨ c = '\t' ∨ c = '\n' ∨ c = '\r')

/-- `dict(pairs)`: a key that comes again keeps its place and takes the new value. -/
def dictOf (pairs : List (String × Json)) : List (String × Json) :=
  (pairs.foldl (fun (d : OrderedDict String Json) pair => d.set pair.1 pair.2) .empty).entries

mutual

/-- `_scan_once`; every call takes a character, so that the fuel need not exceed the text. -/
def scanOnce : ℕ → List Char → Option (Json × List Char)
  | 0, _ => none
  | fuel + 1, text =>
    match text with
    | '"' :: rest => (scanString fuel rest).map (fun found => (.string found.1,found.2))
    | '{' :: rest =>
      match skipSpace rest with
      | '}' :: rest => some (.object [],rest)
      | text => (jsonObject fuel text).map (fun found => (.object (dictOf found.1),found.2))
    | '[' :: rest =>
      match skipSpace rest with
      | ']' :: rest => some (.array [],rest)
      | text => (jsonArray fuel text).map (fun found => (.array found.1,found.2))
    | 'n' :: 'u' :: 'l' :: 'l' :: rest => some (.null,rest)
    | 't' :: 'r' :: 'u' :: 'e' :: rest => some (.bool true,rest)
    | 'f' :: 'a' :: 'l' :: 's' :: 'e' :: rest => some (.bool false,rest)
    | _ => scanNumber text

/-- `JSONObject` from a key on. -/
def jsonObject : ℕ → List Char → Option (List (String × Json) × List Char)
  | fuel + 1, '"' :: text =>
    (scanString fuel text).bind (fun key =>
      match skipSpace key.2 with
      | ':' :: text =>
        (scanOnce fuel (skipSpace text)).bind (fun value =>
          match skipSpace value.2 with
          | '}' :: rest => some ([(String.ofList key.1,value.1)],rest)
          | ',' :: text =>
            (jsonObject fuel (skipSpace text)).map (fun more => ((String.ofList key.1,value.1) :: more.1,more.2))
          | _ => none)
      | _ => none)
  | _, _ => none

/-- `JSONArray` from a value on. -/
def jsonArray : ℕ → List Char → Option (List Json × List Char)
  | 0, _ => none
  | fuel + 1, text =>
    (scanOnce fuel text).bind (fun value =>
      match skipSpace value.2 with
      | ']' :: rest => some ([value.1],rest)
      | ',' :: text => (jsonArray fuel (skipSpace text)).map (fun more => (value.1 :: more.1,more.2))
      | _ => none)

end

/-- `json.loads`, `none` where it raises. -/
def loads (text : List Char) : Option Json :=
  (scanOnce (text.length + 1) (skipSpace text)).bind (fun found =>
    if skipSpace found.2 = [] then some found.1 else none)

theorem hexValue_digitChar : ∀ n < 16, hexValue (Nat.digitChar n) = some n := by decide

theorem readHex4_hex4 {n : ℕ} (h : n < 0x10000) (rest : List Char) : readHex4 (hex4 n ++ rest) = some (n,rest) := by
  have hdigit (m : ℕ) : hexValue (Nat.digitChar (m % 16)) = some (m % 16) :=
    hexValue_digitChar _ (Nat.mod_lt m (by omega))
  simp only [hex4,List.cons_append,List.nil_append,readHex4,hdigit,Option.bind_some,Option.map_some,Option.some.injEq,
    Prod.mk.injEq,and_true]
  omega

theorem toNat_valid (c : Char) : c.toNat < 0xd800 ∨ 0xdfff < c.toNat ∧ c.toNat < 0x110000 := c.valid

theorem readUnicode_low {c : Char} (h : c.toNat < 0x10000) (rest : List Char) :
    readUnicode (hex4 c.toNat ++ rest) = some (c,rest) := by
  have hvalid := toNat_valid c
  have hhigh : ¬(0xd800 ≤ c.toNat ∧ c.toNat < 0xdc00) := by omega
  have hlow : ¬(0xdc00 ≤ c.toNat ∧ c.toNat < 0xe000) := by omega
  simp only [readUnicode,readHex4_hex4 h,Option.bind_some,if_neg hhigh,if_neg hlow,Char.ofNat_toNat]

theorem readUnicode_pair {high low : ℕ} (hhigh : 0xd800 ≤ high ∧ high < 0xdc00) (hlow : 0xdc00 ≤ low ∧ low < 0xe000)
    (rest : List Char) : readUnicode (hex4 high ++ '\\' :: 'u' :: (hex4 low ++ rest)) =
      some (Char.ofNat (0x10000 + 1024 * (high - 0xd800) + (low - 0xdc00)),rest) := by
  have hfirst := readHex4_hex4 (n := high) (by omega) ('\\' :: 'u' :: (hex4 low ++ rest))
  have hsecond := readHex4_hex4 (n := low) (by omega) rest
  simp only [readUnicode,hfirst,hsecond,Option.bind_some,if_pos hhigh,if_pos hlow]

theorem readUnicode_high {c : Char} (h : ¬c.toNat < 0x10000) (rest : List Char) :
    readUnicode (hex4 (0xd800 + (c.toNat - 0x10000) / 1024 % 1024) ++
      '\\' :: 'u' :: (hex4 (0xdc00 + (c.toNat - 0x10000) % 1024) ++ rest)) = some (c,rest) := by
  have hvalid := toNat_valid c
  generalize hhigh : 0xd800 + (c.toNat - 0x10000) / 1024 % 1024 = high
  generalize hlow : 0xdc00 + (c.toNat - 0x10000) % 1024 = low
  have hjoin : 0x10000 + 1024 * (high - 0xd800) + (low - 0xdc00) = c.toNat := by omega
  rw [readUnicode_pair (by omega) (by omega),hjoin,Char.ofNat_toNat]

/-- An escaped character is read as the character, in one round. -/
theorem scanString_escape (fuel : ℕ) (c : Char) (rest : List Char) : scanString (fuel + 1) (escape c ++ rest) =
    (scanString fuel rest).map (fun tail => (c :: tail.1,tail.2)) := by
  have hescaped {d : Char} {text more : List Char} (hread : readEscape text = some (d,more)) :
      scanString (fuel + 1) ('\\' :: text) = (scanString fuel more).map (fun tail => (d :: tail.1,tail.2)) := by
    rw [scanString,if_neg (by decide),if_pos rfl,hread]
    rfl
  unfold escape
  split_ifs with hquote hslash hn hr ht hf hb hprintable hlow
  · subst hquote
    exact hescaped rfl
  · subst hslash
    exact hescaped rfl
  · subst hn
    exact hescaped rfl
  · subst hr
    exact hescaped rfl
  · subst ht
    exact hescaped rfl
  · subst hf
    exact hescaped rfl
  · subst hb
    exact hescaped rfl
  · have hspace : ¬c.toNat < 0x20 := by
      have := hprintable.1
      omega
    rw [List.singleton_append,scanString,if_neg hquote,if_neg hslash,if_neg hspace]
  · exact hescaped (readUnicode_low hlow rest)
  · simp only [List.cons_append,List.append_assoc]
    exact hescaped (readUnicode_high hlow rest)

theorem scanString_escapes {fuel : ℕ} {text : List Char} (h : text.length < fuel) (rest : List Char) :
    scanString fuel (text.flatMap escape ++ '"' :: rest) = some (text,rest) := by
  induction text generalizing fuel with
  | nil =>
    obtain ⟨fuel,rfl⟩ := Nat.exists_eq_add_of_lt h
    simp [scanString]
  | cons c text ih =>
    obtain ⟨fuel,rfl⟩ : ∃ n, fuel = n + 1 := ⟨fuel - 1,by simp only [List.length_cons] at h; omega⟩
    rw [List.flatMap_cons,List.append_assoc,scanString_escape,ih (Nat.lt_of_succ_lt_succ h)]
    rfl

theorem escape_ne_nil (c : Char) : escape c ≠ [] := by
  unfold escape
  split_ifs
  all_goals simp

theorem length_le_escapes (text : List Char) : text.length ≤ (text.flatMap escape).length := by
  induction text with
  | nil => simp
  | cons c text ih =>
    have hpos := List.length_pos_iff.mpr (escape_ne_nil c)
    simp only [List.flatMap_cons,List.length_append,List.length_cons]
    omega

theorem quote_append (text rest : List Char) : quote text ++ rest = '"' :: (text.flatMap escape ++ '"' :: rest) := by
  rw [quote,List.cons_append,List.cons_append,List.append_assoc,List.singleton_append]

theorem scanString_quote {fuel : ℕ} {text : List Char} (h : (quote text).length ≤ fuel) (rest : List Char) :
    scanString fuel (text.flatMap escape ++ '"' :: rest) = some (text,rest) := by
  have hle := length_le_escapes text
  simp only [quote,List.cons_append,List.length_cons,List.length_append,List.length_nil] at h
  exact scanString_escapes (by omega) rest

def Stops (rest : List Char) : Prop := ∀ c ∈ rest.head?, c.isDigit = false ∧ c ∉ ['.','e','E','+','-']

theorem Stops.ne {c d : Char} {rest : List Char} (h : Stops (c :: rest)) (hd : d ∈ ['.','e','E','+','-']) :
    c ≠ d := by
  rintro rfl
  exact (h c rfl).2 hd

section Append
variable {text rest more : List Char}

theorem digits_append (h : Stops rest) (text : List Char) :
    digits (text ++ rest) = ((digits text).1,(digits text).2 ++ rest) := by
  induction text with
  | nil =>
    cases rest with
    | nil => rfl
    | cons c rest =>
      have hc := (h c rfl).1
      simp [digits,hc]
  | cons c text ih =>
    simp only [digits,Prod.mk.injEq] at ih
    by_cases hc : c.isDigit = true
    · simp only [digits,List.cons_append,List.takeWhile_cons,List.dropWhile_cons,if_pos hc,ih]
    · simp [digits,hc]

theorem matchSign_append (h : text ≠ []) :
    matchSign (text ++ rest) = ((matchSign text).1,(matchSign text).2 ++ rest) := by
  obtain ⟨c,text,rfl⟩ := List.exists_cons_of_ne_nil h
  simp only [List.cons_append,matchSign]
  split
  · rfl
  · rfl

theorem matchInt_append (h : Stops rest) {found : List Char × List Char} (hm : matchInt text = some found) :
    matchInt (text ++ rest) = some (found.1,found.2 ++ rest) := by
  cases text with
  | nil => cases hm
  | cons c text =>
    rw [matchInt] at hm
    rw [List.cons_append,matchInt]
    split_ifs at hm ⊢
    · cases hm
      rfl
    · cases hm
      exact congrArg some (digits_append h (c :: text))

theorem matchFrac_append (h : Stops rest) (text : List Char) :
    matchFrac (text ++ rest) = ((matchFrac text).1,(matchFrac text).2 ++ rest) := by
  cases text with
  | nil =>
    cases rest with
    | nil => rfl
    | cons c rest =>
      have hc : c ≠ '.' := h.ne (by simp)
      simp [matchFrac,hc]
  | cons c text =>
    rw [List.cons_append,matchFrac,matchFrac,digits_append h]
    split
    · rfl
    · rfl

theorem matchExpSign_append (h : Stops rest) (text : List Char) :
    matchExpSign (text ++ rest) = ((matchExpSign text).1,(matchExpSign text).2 ++ rest) := by
  cases text with
  | nil =>
    cases rest with
    | nil => rfl
    | cons c rest =>
      have hc : ¬(c = '+' ∨ c = '-') := not_or.mpr ⟨h.ne (by simp),h.ne (by simp)⟩
      simp only [List.nil_append,matchExpSign,if_neg hc]
  | cons c text =>
    rw [List.cons_append,matchExpSign,matchExpSign]
    split
    · rfl
    · rfl

theorem matchExp_append (h : Stops rest) (text : List Char) :
    matchExp (text ++ rest) = ((matchExp text).1,(matchExp text).2 ++ rest) := by
  cases text with
  | nil =>
    cases rest with
    | nil => rfl
    | cons c rest =>
      have hc : ¬(c = 'e' ∨ c = 'E') := not_or.mpr ⟨h.ne (by simp),h.ne (by simp)⟩
      simp [matchExp,hc]
  | cons c text =>
    simp only [List.cons_append,matchExp,matchExpSign_append h,digits_append h]
    split
    · rfl
    · rfl

theorem matchNumber_append (h : Stops rest) {found : NumberMatch} (hm : matchNumber text = some (found,more)) :
    matchNumber (text ++ rest) = some (found,more ++ rest) := by
  have htext : text ≠ [] := by
    rintro rfl
    cases hm
  obtain ⟨int,hint,hfound⟩ := Option.map_eq_some_iff.mp hm
  obtain ⟨rfl,rfl⟩ := Prod.mk.inj hfound
  rw [matchNumber,matchSign_append htext,matchInt_append h hint]
  simp only [Option.map_some,matchFrac_append h,matchExp_append h]

theorem scanNumber_constant {word : List Char} (hword : word ∈ constants) (rest : List Char) :
    ∃ value, numeral word = some value ∧ scanNumber (word ++ rest) = some (value,rest) := by
  simp only [constants,List.mem_cons,List.not_mem_nil,or_false] at hword
  rcases hword with rfl | rfl | rfl
  · exact ⟨_,rfl,rfl⟩
  · exact ⟨_,rfl,rfl⟩
  · exact ⟨_,rfl,rfl⟩

theorem exists_constant (hm : matchNumber text = none) {found : Json × List Char} (h : scanNumber text = some found) :
    ∃ word ∈ constants, ∃ tail, text = word ++ tail := by
  cases hword : constants.find? (fun word => word.isPrefixOf text) with
  | none =>
    simp only [scanNumber,hm,hword] at h
    cases h
  | some word =>
    have hpre := List.find?_some hword
    obtain ⟨tail,htail⟩ := List.isPrefixOf_iff_prefix.mp hpre
    exact ⟨word,List.mem_of_find?_eq_some hword,tail,htail.symm⟩

theorem scanNumber_append (h : Stops rest) {value : Json} (hm : scanNumber text = some (value,more)) :
    scanNumber (text ++ rest) = some (value,more ++ rest) := by
  cases hfound : matchNumber text with
  | some found =>
    have happend := matchNumber_append h hfound
    simp only [scanNumber,hfound] at hm
    simp only [scanNumber,happend]
    obtain ⟨v,hv,hpair⟩ := Option.map_eq_some_iff.mp hm
    obtain ⟨rfl,rfl⟩ := Prod.mk.inj hpair
    rw [hv,Option.map_some]
  | none =>
    obtain ⟨word,hword,tail,rfl⟩ := exists_constant hfound hm
    obtain ⟨v,hv,hscan⟩ := scanNumber_constant hword tail
    obtain ⟨v',hv',hscan'⟩ := scanNumber_constant hword (tail ++ rest)
    rw [hscan] at hm
    obtain ⟨rfl,rfl⟩ := Prod.mk.inj (Option.some.inj hm)
    obtain rfl := Option.some.inj (hv.symm.trans hv')
    rw [List.append_assoc]
    exact hscan'

end Append

theorem numeral_text (n : Numeral) : numeral n.text = some (.number n) := by
  have hall : n.text.all (fun c => decide (Printable c)) = true :=
    List.all_eq_true.mpr (fun c hc => decide_eq_true (n.printable c hc))
  exact dif_pos hall

theorem toDigits_head {n : ℕ} {tail : List Char} (h : Nat.toDigits 10 n = '0' :: tail) : n = 0 := by
  induction n using Nat.strongRecOn generalizing tail with
  | ind n ih =>
    by_cases hn : n < 10
    · rw [Nat.toDigits_of_lt_base hn,List.cons.injEq] at h
      have hzero : ∀ m < 10, Nat.digitChar m = '0' → m = 0 := by decide
      exact hzero n hn h.1
    · rw [Nat.toDigits_of_base_le (by omega) (by omega)] at h
      obtain ⟨c,front,hfront⟩ := List.exists_cons_of_ne_nil (Nat.toDigits_ne_nil (n := n / 10) (b := 10))
      rw [hfront,List.cons_append,List.cons.injEq] at h
      obtain ⟨rfl,_⟩ := h
      have hdiv := ih (n / 10) (by omega) hfront
      omega

theorem matchNumber_toDigits (n : ℕ) : matchNumber (Nat.toDigits 10 n) = some (⟨[],Nat.toDigits 10 n,[],[]⟩,[]) := by
  have hdigit : ∀ c ∈ Nat.toDigits 10 n, c.isDigit = true :=
    fun c hc => Nat.isDigit_of_mem_toDigits (by decide) (by decide) hc
  have hdigits : digits (Nat.toDigits 10 n) = (Nat.toDigits 10 n,[]) := by
    rw [digits,List.takeWhile_eq_self_iff.mpr hdigit,List.dropWhile_eq_nil_iff.mpr hdigit]
  obtain ⟨c,tail,htext⟩ := List.exists_cons_of_ne_nil (Nat.toDigits_ne_nil (n := n) (b := 10))
  have hc : c.isDigit = true := hdigit c (by simp [htext])
  have hsign : c ≠ '-' := by
    rintro rfl
    cases hc
  have hint : matchInt (Nat.toDigits 10 n) = some (Nat.toDigits 10 n,[]) := by
    by_cases hzero : c = '0'
    · subst hzero
      rw [toDigits_head htext]
      rfl
    · rw [← hdigits,htext,matchInt,if_neg hzero,if_pos hc]
  have hnosign : matchSign (Nat.toDigits 10 n) = ([],Nat.toDigits 10 n) := by
    rw [htext,matchSign,if_neg hsign]
  rw [matchNumber,hnosign,hint]
  rfl

end Json

def Numeral.value (n : Numeral) : Option ℚ :=
  (Json.matchNumber n.text).bind (fun found => if found.2 = [] then some found.1.value else none)

theorem Numeral.value_ofNat (n : ℕ) : (Numeral.ofNat n).value = some (n : ℚ) := by
  have hmatch : Json.matchNumber (Numeral.ofNat n).text = some (⟨[],Nat.toDigits 10 n,[],[]⟩,[]) :=
    Json.matchNumber_toDigits n
  have hread : Nat.ofDigitChars 10 (Nat.toDigits 10 n) 0 = n := Nat.ofDigitChars_ten_toDigits
  have hvalue : (⟨[],Nat.toDigits 10 n,[],[]⟩ : Json.NumberMatch).value = mkRat n 1 := by
    simp [Json.NumberMatch.value,Json.exponent,Json.matchExpSign,Nat.ofDigitChars_nil,hread]
  rw [value,hmatch]
  simp only [Option.bind_some,if_true,hvalue,Rat.mkRat_one]
  rfl

def Numeral.Literal (n : Numeral) : Prop := Json.scanNumber n.text = some (.number n,[])

theorem Numeral.literal_ofNat (n : ℕ) : (Numeral.ofNat n).Literal := by
  have hmatch : Json.matchNumber (Numeral.ofNat n).text = some (⟨[],(Numeral.ofNat n).text,[],[]⟩,[]) :=
    Json.matchNumber_toDigits n
  have htext : (⟨[],(Numeral.ofNat n).text,[],[]⟩ : Json.NumberMatch).text = (Numeral.ofNat n).text := by
    simp [Json.NumberMatch.text]
  simp only [Literal,Json.scanNumber,hmatch,htext,Json.numeral_text,Option.map_some]

namespace Json

mutual

/-- The numbers are literals and no object has a key twice. -/
def Plain : Json → Prop
  | .number n => n.Literal
  | .array items => PlainItems items
  | .object fields => (fields.map Prod.fst).Nodup ∧ PlainFields fields
  | _ => True

def PlainItems : List Json → Prop
  | [] => True
  | item :: rest => Plain item ∧ PlainItems rest

def PlainFields : List (String × Json) → Prop
  | [] => True
  | field :: rest => Plain field.2 ∧ PlainFields rest

end

theorem put_fresh {key : String} {value : Json} {fields : List (String × Json)} (h : key ∉ fields.map Prod.fst) :
    OrderedDict.put key value fields = fields ++ [(key,value)] := by
  induction fields with
  | nil => rfl
  | cons field fields ih =>
    rw [List.map_cons,List.mem_cons,not_or] at h
    rw [OrderedDict.put,if_neg (Ne.symm h.1),ih h.2,List.cons_append]

theorem foldl_set (pairs : List (String × Json)) (d : OrderedDict String Json)
    (h : ((d.entries ++ pairs).map Prod.fst).Nodup) :
    (pairs.foldl (fun (d : OrderedDict String Json) pair => d.set pair.1 pair.2) d).entries = d.entries ++ pairs := by
  induction pairs generalizing d with
  | nil => simp
  | cons pair pairs ih =>
    have hfresh : pair.1 ∉ d.entries.map Prod.fst := by
      simp only [List.map_append,List.map_cons] at h
      intro hin
      exact (List.nodup_append.mp h).2.2 _ hin _ List.mem_cons_self rfl
    have hset : (d.set pair.1 pair.2).entries = d.entries ++ [pair] := put_fresh hfresh
    rw [List.foldl_cons,ih,hset,List.append_assoc,List.singleton_append]
    rw [hset,List.append_assoc,List.singleton_append]
    exact h

theorem dictOf_nodup {fields : List (String × Json)} (h : (fields.map Prod.fst).Nodup) : dictOf fields = fields :=
  foldl_set fields .empty h

def blanks : List Char := [' ','\t','\n','\r']

theorem skipSpace_cons {c : Char} (hc : c ∉ blanks) (rest : List Char) : skipSpace (c :: rest) = c :: rest := by
  simp only [blanks,List.mem_cons,List.not_mem_nil,or_false] at hc
  simp only [skipSpace,List.dropWhile_cons,decide_eq_true_eq,if_neg hc]

def leads (c : Char) : Bool := c.isDigit || c == '-' || c == 'N' || c == 'I'

theorem not_mem_of_leads {c : Char} (h : leads c = true) (others : List Char)
    (hothers : others.all (fun d => !leads d) = true) : c ∉ others := by
  intro hin
  have hc := List.all_eq_true.mp hothers c hin
  rw [h] at hc
  cases hc

theorem scanNumber_head {text : List Char} {found : Json × List Char} (h : scanNumber text = some found) :
    ∃ c rest, text = c :: rest ∧ leads c = true := by
  cases hfound : matchNumber text with
  | some found =>
    cases text with
    | nil => cases hfound
    | cons c rest =>
      refine ⟨c,rest,rfl,?_⟩
      by_cases hsign : c = '-'
      · rw [hsign]
        rfl
      · obtain ⟨int,hint,_⟩ := Option.map_eq_some_iff.mp hfound
        rw [matchSign,if_neg hsign,matchInt] at hint
        split_ifs at hint with hzero hdigit
        · rw [hzero]
          rfl
        · simp only [leads,hdigit,Bool.true_or]
  | none =>
    obtain ⟨word,hword,tail,rfl⟩ := exists_constant hfound h
    simp only [constants,List.mem_cons,List.not_mem_nil,or_false] at hword
    rcases hword with rfl | rfl | rfl
    · exact ⟨_,_,rfl,rfl⟩
    · exact ⟨_,_,rfl,rfl⟩
    · exact ⟨_,_,rfl,rfl⟩

theorem scanOnce_leads {c : Char} (h : leads c = true) (fuel : ℕ) (rest : List Char) :
    scanOnce (fuel + 1) (c :: rest) = scanNumber (c :: rest) := by
  have hne := not_mem_of_leads h ['"','{','[','n','t','f'] rfl
  simp only [List.mem_cons,List.not_mem_nil,or_false,not_or] at hne
  rw [scanOnce]
  all_goals simp [hne]

theorem dumps_head {v : Json} (h : v.Plain) : ∃ c rest, v.dumps = c :: rest ∧ c ∉ blanks ∧ c ≠ ']' := by
  cases v with
  | null => exact ⟨_,_,rfl,by decide,by decide⟩
  | bool value =>
    cases value with
    | true => exact ⟨_,_,rfl,by decide,by decide⟩
    | false => exact ⟨_,_,rfl,by decide,by decide⟩
  | number n =>
    rw [Plain] at h
    obtain ⟨c,rest,htext,hlead⟩ := scanNumber_head h
    have hblank := not_mem_of_leads hlead blanks rfl
    have hclose := not_mem_of_leads hlead [']'] rfl
    exact ⟨c,rest,by rw [dumps,htext],hblank,fun hc => hclose (by simp [hc])⟩
  | string text => exact ⟨'"',_,by rw [dumps,quote,List.cons_append],by decide,by decide⟩
  | array items => exact ⟨'[',_,by rw [dumps,List.cons_append],by decide,by decide⟩
  | object fields => exact ⟨'{',_,by rw [dumps,List.cons_append],by decide,by decide⟩

theorem skipSpace_dumps {v : Json} (h : v.Plain) (rest : List Char) :
    skipSpace (v.dumps ++ rest) = v.dumps ++ rest := by
  obtain ⟨c,more,htext,hc,_⟩ := dumps_head h
  rw [htext,List.cons_append]
  exact skipSpace_cons hc _

theorem scanOnce_array {v : Json} (h : v.Plain) (fuel : ℕ) (rest : List Char) :
    scanOnce (fuel + 1) ('[' :: (v.dumps ++ rest)) =
      (jsonArray fuel (v.dumps ++ rest)).map (fun found => (.array found.1,found.2)) := by
  obtain ⟨c,more,htext,hc,hne⟩ := dumps_head h
  rw [htext,List.cons_append,scanOnce,skipSpace_cons hc]
  split
  · rename_i heq
    exact absurd (List.cons.inj heq).1 hne
  · rfl

theorem scanOnce_object (fuel : ℕ) (rest : List Char) : scanOnce (fuel + 1) ('{' :: '"' :: rest) =
    (jsonObject fuel ('"' :: rest)).map (fun found => (.object (dictOf found.1),found.2)) := by
  rw [scanOnce,skipSpace_cons (by decide)]
  rfl

theorem stops_cons {c : Char} (hc : c.isDigit = false ∧ c ∉ ['.','e','E','+','-']) (rest : List Char) :
    Stops (c :: rest) := by
  rintro d ⟨⟩
  exact hc

theorem intercalate_items {items : List Json} (h : items ≠ []) (item : Json) :
    [','].intercalate (dumpsItems (item :: items)) = dumps item ++ ',' :: [','].intercalate (dumpsItems items) := by
  have hne : dumpsItems items ≠ [] := by
    cases items with
    | nil => exact absurd rfl h
    | cons item items => simp [dumpsItems]
  rw [dumpsItems,List.intercalate_cons_of_ne_nil hne,List.append_assoc,List.singleton_append]

theorem intercalate_fields {fields : List (String × Json)} (h : fields ≠ []) (key : String) (value : Json) :
    [','].intercalate (dumpsFields ((key,value) :: fields)) =
      quote key.toList ++ ':' :: dumps value ++ ',' :: [','].intercalate (dumpsFields fields) := by
  have hne : dumpsFields fields ≠ [] := by
    cases fields with
    | nil => exact absurd rfl h
    | cons field fields => simp [dumpsFields]
  rw [dumpsFields,List.intercalate_cons_of_ne_nil hne,List.append_assoc,List.singleton_append]

theorem intercalate_items_head (item : Json) (items : List Json) :
    ∃ tail, [','].intercalate (dumpsItems (item :: items)) = dumps item ++ tail := by
  by_cases h : items = []
  · subst h
    exact ⟨[],by rw [dumpsItems,dumpsItems,List.intercalate_singleton,List.append_nil]⟩
  · exact ⟨_,intercalate_items h item⟩

theorem intercalate_fields_head (key : String) (value : Json) (fields : List (String × Json)) :
    ∃ tail, [','].intercalate (dumpsFields ((key,value) :: fields)) = '"' :: tail := by
  by_cases h : fields = []
  · subst h
    exact ⟨_,by rw [dumpsFields,dumpsFields,List.intercalate_singleton,quote,List.cons_append,List.cons_append]⟩
  · exact ⟨_,by rw [intercalate_fields h,quote,List.cons_append,List.cons_append,List.cons_append]⟩

theorem jsonArray_item {v : Json} {fuel : ℕ} {rest : List Char}
    (h : scanOnce fuel (v.dumps ++ rest) = some (v,rest)) :
    jsonArray (fuel + 1) (v.dumps ++ rest) =
      match skipSpace rest with
      | ']' :: rest => some ([v],rest)
      | ',' :: text => (jsonArray fuel (skipSpace text)).map (fun more => (v :: more.1,more.2))
      | _ => none := by
  rw [jsonArray,h]
  rfl

theorem jsonObject_field {key : String} {value : Json} {fuel : ℕ} {rest : List Char}
    (hkey : (quote key.toList).length < fuel) (hplain : value.Plain)
    (h : scanOnce fuel (value.dumps ++ rest) = some (value,rest)) :
    jsonObject (fuel + 1) (quote key.toList ++ ':' :: (value.dumps ++ rest)) =
      match skipSpace rest with
      | '}' :: rest => some ([(key,value)],rest)
      | ',' :: text => (jsonObject fuel (skipSpace text)).map (fun more => ((key,value) :: more.1,more.2))
      | _ => none := by
  have hread := scanString_quote hkey.le (':' :: (value.dumps ++ rest))
  rw [quote_append,jsonObject,hread]
  simp only [Option.bind_some,skipSpace_cons (c := ':') (by decide),skipSpace_dumps hplain,h,String.ofList_toList]

theorem scanOnce_quote {fuel : ℕ} {text : List Char} (h : (quote text).length < fuel) (rest : List Char) :
    scanOnce fuel (quote text ++ rest) = some (.string text,rest) := by
  obtain ⟨fuel,rfl⟩ : ∃ n, fuel = n + 1 := ⟨fuel - 1,by omega⟩
  have hread := scanString_quote (Nat.le_of_lt_succ h) rest
  rw [quote_append,scanOnce,hread]
  rfl

mutual

/-- By recursion on the value: every part is read where it was written. -/
theorem scanOnce_dumps : ∀ (v : Json) {fuel : ℕ} {rest : List Char}, v.Plain → v.dumps.length < fuel → Stops rest →
    scanOnce fuel (v.dumps ++ rest) = some (v,rest)
  | .null, fuel + 1, rest, _, _, _ => by simp [dumps,scanOnce]
  | .bool true, fuel + 1, rest, _, _, _ => by simp [dumps,scanOnce]
  | .bool false, fuel + 1, rest, _, _, _ => by simp [dumps,scanOnce]
  | .number n, fuel + 1, rest, hplain, _, hrest => by
    rw [Plain] at hplain
    obtain ⟨c,tail,htext,hlead⟩ := scanNumber_head hplain
    have hscan := scanNumber_append hrest hplain
    rw [dumps]
    rw [htext,List.cons_append] at hscan ⊢
    rw [scanOnce_leads hlead,hscan]
    rfl
  | .string text, fuel + 1, rest, _, hfuel, _ => by
    rw [dumps] at hfuel ⊢
    exact scanOnce_quote hfuel rest
  | .array [], fuel + 1, rest, _, _, _ => by simp [dumps,dumpsItems,scanOnce,skipSpace]
  | .array (item :: items), fuel + 1, rest, hplain, hfuel, _ => by
    rw [Plain,PlainItems] at hplain
    simp only [dumps,List.cons_append,List.length_cons,List.length_append,List.length_nil] at hfuel
    have hread : jsonArray fuel ([','].intercalate (dumpsItems (item :: items)) ++ ']' :: rest) =
        some (item :: items,rest) :=
      jsonArray_dumps item items hplain.1 hplain.2 (by omega)
    obtain ⟨tail,htail⟩ := intercalate_items_head item items
    rw [dumps,List.cons_append,List.cons_append,List.append_assoc,List.singleton_append]
    rw [htail,List.append_assoc] at hread ⊢
    rw [scanOnce_array hplain.1,hread]
    rfl
  | .object [], fuel + 1, rest, _, _, _ => by simp [dumps,dumpsFields,scanOnce,skipSpace]
  | .object ((key,value) :: fields), fuel + 1, rest, hplain, hfuel, _ => by
    rw [Plain,PlainFields] at hplain
    simp only [dumps,List.cons_append,List.length_cons,List.length_append,List.length_nil] at hfuel
    have hread : jsonObject fuel ([','].intercalate (dumpsFields ((key,value) :: fields)) ++ '}' :: rest) =
        some ((key,value) :: fields,rest) := jsonObject_dumps key value fields hplain.2.1 hplain.2.2 (by omega)
    obtain ⟨tail,htail⟩ := intercalate_fields_head key value fields
    rw [dumps,List.cons_append,List.cons_append,List.append_assoc,List.singleton_append]
    rw [htail,List.cons_append] at hread ⊢
    rw [scanOnce_object,hread,Option.map_some,dictOf_nodup hplain.1]

theorem jsonArray_dumps : ∀ (item : Json) (items : List Json) {fuel : ℕ} {rest : List Char}, item.Plain →
    PlainItems items → ([','].intercalate (dumpsItems (item :: items))).length + 1 < fuel →
    jsonArray fuel ([','].intercalate (dumpsItems (item :: items)) ++ ']' :: rest) = some (item :: items,rest)
  | item, [], fuel + 1, rest, hitem, _, hfuel => by
    simp only [dumpsItems,List.intercalate_singleton] at hfuel ⊢
    rw [jsonArray_item (scanOnce_dumps item hitem (by omega) (stops_cons (by decide) rest)),
      skipSpace_cons (by decide)]
    rfl
  | item, next :: items, fuel + 1, rest, hitem, hitems, hfuel => by
    rw [PlainItems] at hitems
    have hjoin := intercalate_items (List.cons_ne_nil next items) item
    have hlength := congrArg List.length hjoin
    simp only [List.length_append,List.length_cons] at hlength
    have hread : jsonArray fuel ([','].intercalate (dumpsItems (next :: items)) ++ ']' :: rest) =
        some (next :: items,rest) :=
      jsonArray_dumps next items hitems.1 hitems.2 (by omega)
    obtain ⟨tail,htail⟩ := intercalate_items_head next items
    rw [hjoin,List.append_assoc,List.cons_append,
      jsonArray_item (scanOnce_dumps item hitem (by omega) (stops_cons (by decide) _)),skipSpace_cons (by decide)]
    rw [htail,List.append_assoc] at hread ⊢
    simp only [skipSpace_dumps hitems.1,hread,Option.map_some]

theorem jsonObject_dumps : ∀ (key : String) (value : Json) (fields : List (String × Json))
    {fuel : ℕ} {rest : List Char},
    value.Plain → PlainFields fields → ([','].intercalate (dumpsFields ((key,value) :: fields))).length + 1 < fuel →
    jsonObject fuel ([','].intercalate (dumpsFields ((key,value) :: fields)) ++ '}' :: rest) =
      some ((key,value) :: fields,rest)
  | key, value, [], fuel + 1, rest, hvalue, _, hfuel => by
    simp only [dumpsFields,List.intercalate_singleton,List.append_assoc,List.cons_append,List.length_append,
      List.length_cons] at hfuel ⊢
    rw [jsonObject_field (by omega) hvalue (scanOnce_dumps value hvalue (by omega) (stops_cons (by decide) rest)),
      skipSpace_cons (by decide)]
    rfl
  | key, value, (name,next) :: fields, fuel + 1, rest, hvalue, hfields, hfuel => by
    rw [PlainFields] at hfields
    have hjoin := intercalate_fields (List.cons_ne_nil (name,next) fields) key value
    have hlength := congrArg List.length hjoin
    simp only [List.length_append,List.length_cons] at hlength
    have hread : jsonObject fuel ([','].intercalate (dumpsFields ((name,next) :: fields)) ++ '}' :: rest) =
        some ((name,next) :: fields,rest) := jsonObject_dumps name next fields hfields.1 hfields.2 (by omega)
    obtain ⟨tail,htail⟩ := intercalate_fields_head name next fields
    simp only [hjoin,List.append_assoc,List.cons_append]
    rw [jsonObject_field (by omega) hvalue (scanOnce_dumps value hvalue (by omega) (stops_cons (by decide) _)),
      skipSpace_cons (by decide)]
    rw [htail,List.cons_append] at hread ⊢
    simp only [skipSpace_cons (c := '"') (by decide),hread,Option.map_some]

end

theorem loads_dumps {v : Json} (h : v.Plain) : loads v.dumps = some v := by
  have hskip := skipSpace_dumps h []
  have hread : scanOnce (v.dumps.length + 1) (v.dumps ++ []) = some (v,[]) :=
    scanOnce_dumps v h (Nat.lt_succ_self _) (by simp [Stops])
  rw [List.append_nil] at hskip hread
  rw [loads,hskip,hread]
  rfl

end Json
end FluxEngine
