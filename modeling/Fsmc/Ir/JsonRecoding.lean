/-
# Fsmc.Ir.JsonRecoding — texts of the same JSON value.

A value can be written with other white space, other spellings of its numbers and other escapes in its strings. The
reader takes all of them for the same value, except that it reads every escape by a number as a question mark.
-/
import Fsmc.Ir.JsonReader

namespace Fsmc.Ir.JsonReader

open Fsmc.Cpp Fsmc.Ir.JsonString

/-! ## Numbers -/

def digitByte (d : Fin 10) : UInt8 := UInt8.ofNat (0x30 + d.val)

/-- The number of some digits, with others before them. -/
def digitsValue (acc : ℕ) (ds : List (Fin 10)) : ℕ := ds.foldl (fun acc d => acc * 10 + d.val) acc

structure Exponent where
  upper : Bool
  sign : Option Bool
  digits : List (Fin 10)
  nonempty : digits ≠ []

def signText : Option Bool → List UInt8
  | none => []
  | some true => [byteOf '-']
  | some false => [byteOf '+']

def Exponent.text (e : Exponent) : List UInt8 :=
  byteOf (if e.upper then 'E' else 'e') :: (signText e.sign ++ e.digits.map digitByte)

def Exponent.value (e : Exponent) : ℤ :=
  if e.sign = some true then -(digitsValue 0 e.digits : ℤ) else digitsValue 0 e.digits

/-- A number as it is written. -/
structure Numeral where
  negative : Bool
  int : List (Fin 10)
  fraction : List (Fin 10)
  exponent : Option Exponent
  nonempty : int ≠ []

def fractionText (ds : List (Fin 10)) : List UInt8 := if ds = [] then [] else byteOf '.' :: ds.map digitByte

def Numeral.text (n : Numeral) : List UInt8 :=
  (if n.negative then [byteOf '-'] else []) ++ n.int.map digitByte ++ fractionText n.fraction ++
    (n.exponent.map Exponent.text).getD []

def Numeral.value (n : Numeral) : ℚ :=
  let magnitude := scaleBy 10 (digitsValue 0 (n.int ++ n.fraction))
    ((n.exponent.map Exponent.value).getD 0 - n.fraction.length)
  if n.negative then -magnitude else magnitude

/-- No number goes on with a text. -/
def Stops (rest : List UInt8) : Prop :=
  ∀ c ∈ rest.head?, isDigit c = false ∧ c ≠ byteOf '.' ∧ c ≠ byteOf 'e' ∧ c ≠ byteOf 'E'

theorem digitByte_start : ∀ d : Fin 10, isBlank (digitByte d) = false ∧
    digitByte d ∉ [byteOf '\x7b', byteOf '[', quote, byteOf 't', byteOf 'f', byteOf 'n', byteOf ']'] := by decide

theorem digitByte_facts : ∀ d : Fin 10, isDigit (digitByte d) = true ∧ isBlank (digitByte d) = false ∧
    digitValue 10 (charOf (digitByte d)) = some d.val ∧ digitByte d ≠ byteOf '-' ∧ digitByte d ≠ byteOf '+' ∧
      Char.toLower (charOf (digitByte d)) = charOf (digitByte d) ∧ charOf (digitByte d) ∉ ['i', 'n', '-', '+', 'x'] ∧
        isSpace (charOf (digitByte d)) = false := by decide

variable {rest : List UInt8} {ds : List (Fin 10)}

theorem takeWhile_digits (ds : List (Fin 10)) (h : ∀ c ∈ rest.head?, isDigit c = false) :
    (ds.map digitByte ++ rest).takeWhile isDigit = ds.map digitByte ∧
      (ds.map digitByte ++ rest).dropWhile isDigit = rest := by
  have hall : ∀ c ∈ ds.map digitByte, isDigit c = true := by
    intro c hc
    obtain ⟨d, -, rfl⟩ := List.mem_map.mp hc
    exact (digitByte_facts d).1
  rw [List.takeWhile_append_of_pos hall, List.dropWhile_append_of_pos hall]
  cases rest with
  | nil => exact ⟨List.append_nil _, rfl⟩
  | cons c rest =>
    have hc : isDigit c = false := h c rfl
    rw [List.takeWhile_cons_of_neg (by simp [hc]), List.dropWhile_cons_of_neg (by simp [hc]), List.append_nil]
    exact ⟨rfl, rfl⟩

theorem takeFraction_text (h : ∀ c ∈ rest.head?, isDigit c = false ∧ c ≠ byteOf '.') (ds : List (Fin 10)) :
    takeFraction (fractionText ds ++ rest) = (fractionText ds, rest) := by
  unfold fractionText
  split
  · cases rest with
    | nil => rfl
    | cons c rest =>
      show takeFraction (c :: rest) = _
      rw [takeFraction, if_neg (h c rfl).2]
  · obtain ⟨htake, hdrop⟩ := takeWhile_digits ds fun c hc => (h c hc).1
    rw [List.cons_append, takeFraction, if_pos rfl, htake, hdrop]

theorem takeExponent_text (h : Stops rest) (e : Option Exponent) :
    takeExponent ((e.map Exponent.text).getD [] ++ rest) = ((e.map Exponent.text).getD [], rest) := by
  cases e with
  | none =>
    cases rest with
    | nil => rfl
    | cons c rest =>
      show takeExponent (c :: rest) = _
      rw [takeExponent, if_neg (not_or.mpr (h c rfl).2.2)]
      rfl
  | some e =>
    obtain ⟨htake, hdrop⟩ := takeWhile_digits e.digits fun c hc => (h c hc).1
    have hmark : byteOf (if e.upper then 'E' else 'e') = byteOf 'e' ∨
        byteOf (if e.upper then 'E' else 'e') = byteOf 'E' := by
      cases e.upper <;> simp
    have hsign : takeOne (fun d => d = byteOf '+' || d = byteOf '-')
        (signText e.sign ++ (e.digits.map digitByte ++ rest)) = (signText e.sign, e.digits.map digitByte ++ rest) := by
      obtain ⟨d, ds, hds⟩ : ∃ d ds, e.digits = d :: ds := List.exists_cons_of_ne_nil e.nonempty
      rcases hs : e.sign with _ | _ | _
      · obtain ⟨-, -, -, hminus, hplus, -⟩ := digitByte_facts d
        rw [hds, signText, List.nil_append, List.map_cons, List.cons_append, takeOne]
        simp [hminus, hplus]
      · rfl
      · rfl
    show takeExponent (byteOf _ :: (signText e.sign ++ e.digits.map digitByte) ++ rest) = _
    rw [List.cons_append, takeExponent, if_pos hmark, List.append_assoc, hsign]
    dsimp only
    rw [htake, hdrop]
    rfl

theorem takeNumber_text (h : Stops rest) (n : Numeral) : takeNumber (n.text ++ rest) = (n.text, rest) := by
  obtain ⟨d, ds, hint⟩ : ∃ d ds, n.int = d :: ds := List.exists_cons_of_ne_nil n.nonempty
  have hexp : ∀ c ∈ ((n.exponent.map Exponent.text).getD [] ++ rest).head?, isDigit c = false ∧ c ≠ byteOf '.' := by
    intro c hc
    cases hexp : n.exponent with
    | none =>
      rw [hexp] at hc
      exact ⟨(h c hc).1, (h c hc).2.1⟩
    | some e =>
      rw [hexp] at hc
      obtain rfl := Option.some.inj hc
      cases e.upper <;> exact ⟨by decide, by decide⟩
  have hfrac : ∀ c ∈ (fractionText n.fraction ++ ((n.exponent.map Exponent.text).getD [] ++ rest)).head?,
      isDigit c = false := by
    intro c hc
    unfold fractionText at hc
    split at hc
    · exact (hexp c hc).1
    · obtain rfl := Option.some.inj hc
      decide
  obtain ⟨htake, hdrop⟩ := takeWhile_digits n.int hfrac
  have hminus : takeOne (· = byteOf '-') (n.text ++ rest) = (if n.negative then [byteOf '-'] else [],
      n.int.map digitByte ++ (fractionText n.fraction ++ ((n.exponent.map Exponent.text).getD [] ++ rest))) := by
    unfold Numeral.text
    cases n.negative with
    | true =>
      simp [takeOne]
    | false =>
      obtain ⟨-, -, -, hminus, -⟩ := digitByte_facts d
      simp [takeOne, hint, hminus]
  unfold takeNumber
  rw [hminus]
  dsimp only
  rw [htake, hdrop, takeFraction_text hexp]
  dsimp only
  rw [takeExponent_text h]
  rfl

def digitChar (d : Fin 10) : Char := charOf (digitByte d)

theorem scanDigits_digits {tail : List Char} (h : ∀ c ∈ tail.head?, digitValue 10 c = none) :
    ∀ (ds : List (Fin 10)) (acc : ℕ), scanDigits 10 (ds.map digitChar ++ tail) acc =
      (digitsValue acc ds, ds.length, tail)
  | [], acc => by
    cases tail with
    | nil => rfl
    | cons c tail =>
      have hc : digitValue 10 c = none := h c rfl
      show scanDigits 10 (c :: tail) acc = _
      rw [scanDigits, hc]
      rfl
  | d :: ds, acc => by
    have hd : digitValue 10 (digitChar d) = some d.val := (digitByte_facts d).2.2.1
    rw [List.map_cons, List.cons_append, scanDigits, hd]
    dsimp only
    rw [scanDigits_digits h ds]
    rfl

theorem digitsValue_append (acc : ℕ) (ds ds' : List (Fin 10)) :
    digitsValue acc (ds ++ ds') = digitsValue (digitsValue acc ds) ds' := by
  unfold digitsValue
  rw [List.foldl_append]

/-- The characters of an exponent. -/
def exponentChars (e : Option Exponent) : List Char := ((e.map Exponent.text).getD []).map charOf

variable (e : Option Exponent) (n : Numeral) {j : Spelled}

theorem exponentChars_head : ∀ c ∈ (exponentChars e).head?, c = 'e' ∨ c = 'E' := by
  intro c hc
  cases e with
  | none => cases hc
  | some e =>
    obtain rfl := Option.some.inj hc
    cases e.upper
    · exact Or.inl rfl
    · exact Or.inr rfl

theorem scanSign_digit (d : Fin 10) (tail : List Char) :
    scanSign (digitChar d :: tail) = (false, digitChar d :: tail) := by
  have hd : digitChar d ∉ ['i', 'n', '-', '+', 'x'] := (digitByte_facts d).2.2.2.2.2.2.1
  unfold scanSign
  split
  · next heq =>
      rw [(List.cons.inj heq).1] at hd
      exact absurd hd (by decide)
  · next heq =>
      rw [(List.cons.inj heq).1] at hd
      exact absurd hd (by decide)
  · rfl

theorem scanSign_text (s : Option Bool) (d : Fin 10) (tail : List Char) :
    scanSign ((signText s).map charOf ++ digitChar d :: tail) = (decide (s = some true), digitChar d :: tail) := by
  rcases s with _ | _ | _
  · exact scanSign_digit d tail
  · rfl
  · rfl

theorem scanExponent_chars :
    scanExponent 'e' (exponentChars e) = (e.map Exponent.value).getD 0 := by
  cases e with
  | none => rfl
  | some e =>
    obtain ⟨d, ds, hds⟩ : ∃ d ds, e.digits = d :: ds := List.exists_cons_of_ne_nil e.nonempty
    have hchars : exponentChars (some e) = (if e.upper then 'E' else 'e') ::
        ((signText e.sign).map charOf ++ digitChar d :: (ds.map digitChar ++ [])) := by
      unfold exponentChars
      rw [Option.map_some, Option.getD_some, Exponent.text, hds, List.map_cons, List.map_append, List.map_map,
        List.append_nil]
      cases e.upper <;> rfl
    have hlower : Char.toLower (if e.upper then 'E' else 'e') = 'e' := by
      cases e.upper <;> decide
    have hdigits : scanDigits 10 (digitChar d :: (ds.map digitChar ++ [])) 0 =
        (digitsValue 0 (d :: ds), (d :: ds).length, []) := scanDigits_digits (by simp) (d :: ds) 0
    rw [hchars, scanExponent, if_pos hlower, scanSign_text]
    dsimp only
    rw [hdigits, Option.map_some, Option.getD_some, Exponent.value, hds]
    simp only [decide_eq_true_eq]

theorem scanMagnitude_chars :
    scanMagnitude (n.int.map digitChar ++ ((fractionText n.fraction).map charOf ++ exponentChars n.exponent)) =
      some (scaleBy 10 (digitsValue 0 (n.int ++ n.fraction))
        ((n.exponent.map Exponent.value).getD 0 - n.fraction.length)) := by
  have hexp : ∀ c ∈ (exponentChars n.exponent).head?, digitValue 10 c = none := by
    intro c hc
    rcases exponentChars_head _ c hc with rfl | rfl <;> decide
  have hfrac : ∀ c ∈ ((fractionText n.fraction).map charOf ++ exponentChars n.exponent).head?,
      digitValue 10 c = none ∧ c.toLower ≠ 'x' := by
    intro c hc
    unfold fractionText at hc
    split at hc
    · rcases exponentChars_head _ c hc with rfl | rfl <;> decide
    · obtain rfl := Option.some.inj hc
      decide
  have hmantissa : scanMantissa 10
      (n.int.map digitChar ++ ((fractionText n.fraction).map charOf ++ exponentChars n.exponent)) =
        some (digitsValue 0 (n.int ++ n.fraction), n.fraction.length, exponentChars n.exponent) := by
    have hlen : n.int.length ≠ 0 := fun h => n.nonempty (List.length_eq_zero_iff.mp h)
    unfold scanMantissa
    rw [scanDigits_digits fun c hc => (hfrac c hc).1]
    cases hf : n.fraction with
    | nil =>
      have htail : (fractionText []).map charOf ++ exponentChars n.exponent = exponentChars n.exponent := rfl
      rw [htail, List.append_nil, List.length_nil]
      dsimp only
      -- no point begins an exponent
      split
      · next tail htail =>
          rw [htail] at hexp
          rcases exponentChars_head n.exponent '.' (by rw [htail]; rfl) with hc | hc <;> cases hc
      · exact if_neg hlen
    | cons d ds =>
      have htail : (fractionText (d :: ds)).map charOf ++ exponentChars n.exponent =
          '.' :: ((d :: ds).map digitChar ++ exponentChars n.exponent) := by
        unfold fractionText
        rw [if_neg (List.cons_ne_nil _ _), List.map_cons, List.map_map]
        rfl
      simp only [htail, scanDigits_digits hexp]
      rw [if_neg (by omega), digitsValue_append]
  -- the second character is a digit, a point, or the mark of an exponent
  have hhex : ∀ x cs, n.int.map digitChar ++ ((fractionText n.fraction).map charOf ++ exponentChars n.exponent) =
      '0' :: x :: cs → x.toLower ≠ 'x' := by
    intro x cs hchars
    obtain ⟨d, ds, hint⟩ : ∃ d ds, n.int = d :: ds := List.exists_cons_of_ne_nil n.nonempty
    rw [hint, List.map_cons, List.cons_append] at hchars
    have hrest := (List.cons.inj hchars).2
    cases ds with
    | nil => exact (hfrac x (by rw [List.map_nil, List.nil_append] at hrest; rw [hrest]; rfl)).2
    | cons d' ds =>
      obtain ⟨rfl, -⟩ := List.cons.inj hrest
      obtain ⟨-, -, -, -, -, hlower, hnot, -⟩ := digitByte_facts d'
      intro hx
      rw [digitChar, hlower] at hx
      rw [hx] at hnot
      exact absurd hnot (by decide)
  unfold scanMagnitude
  dsimp only
  split
  · next heq =>
      split at heq
      · next x cs hchars =>
          rw [if_neg (hhex x cs hchars)] at heq
          cases heq
      · cases heq
  · rw [hmantissa, Option.map_some, scanExponent_chars]

theorem stod_text : stod (String.ofList (n.text.map charOf)) = inRange n.value := by
  obtain ⟨d, ds, hint⟩ : ∃ d ds, n.int = d :: ds := List.exists_cons_of_ne_nil n.nonempty
  have hchars : n.text.map charOf = (signText (if n.negative then some true else none)).map charOf ++
      digitChar d :: (ds.map digitChar ++ ((fractionText n.fraction).map charOf ++ exponentChars n.exponent)) := by
    unfold Numeral.text exponentChars
    rw [hint, List.map_append, List.map_append, List.map_append, List.map_map, List.append_assoc, List.append_assoc,
      List.map_cons]
    cases n.negative <;> rfl
  have hspace : (n.text.map charOf).dropWhile isSpace = n.text.map charOf := by
    rw [hchars]
    cases n.negative with
    | true => exact List.dropWhile_cons_of_neg (by decide)
    | false =>
      obtain ⟨-, -, -, -, -, -, -, hd⟩ := digitByte_facts d
      exact List.dropWhile_cons_of_neg (by rw [digitChar, hd]; exact Bool.false_ne_true)
  have hno : ∀ (c : Char) (p : List Char), c ∈ ['i', 'n', '-', '+', 'x'] → (c :: p).isPrefixOf
      ((digitChar d :: (ds.map digitChar ++ ((fractionText n.fraction).map charOf ++
        exponentChars n.exponent))).map Char.toLower) = false := by
    intro c p hc
    obtain ⟨-, -, -, -, -, hlower, hnot, -⟩ := digitByte_facts d
    rw [List.map_cons, List.isPrefixOf, digitChar, hlower, Bool.and_eq_false_iff]
    left
    rw [beq_eq_false_iff_ne]
    rintro rfl
    exact hnot hc
  have hmagnitude := scanMagnitude_chars n
  rw [hint, List.map_cons, List.cons_append] at hmagnitude
  have hinf : "inf".toList.isPrefixOf _ = false := hno 'i' ['n', 'f'] (by decide)
  have hnan : "nan".toList.isPrefixOf _ = false := hno 'n' ['a', 'n'] (by decide)
  unfold stod
  rw [String.toList_ofList, hspace, hchars, scanSign_text]
  dsimp only
  rw [if_neg (ne_true_of_eq_false hinf), if_neg (ne_true_of_eq_false hnan), hmagnitude, Option.bind_some,
    Numeral.value, hint]
  cases n.negative <;> rfl

/-! ## Strings -/

/-- A part of a string as it is written: a byte, an escape by a letter, or a character escaped by its number, or by
two numbers. -/
inductive Piece where
  | plain (c : UInt8)
  | letter (esc : UInt8)
  | unicode (c : Char) (hexes : List (List UInt8))

/-- The letters that escape a byte. -/
def letters : List UInt8 := [quote, backslash, byteOf '/', 0x62, 0x66, 0x6e, 0x72, 0x74]

/-- The number of some hexadecimal digits. -/
def hexValue (hex : List UInt8) : Option ℕ :=
  hex.foldl (fun acc d => acc.bind fun m => (digitValue 16 (charOf d)).map fun k => m * 16 + k) (some 0)

/-- The numbers of a character in UTF-16. -/
def utf16 (c : Char) : List ℕ :=
  if c.toNat < 0x10000 then [c.toNat]
  else [0xD800 + (c.toNat - 0x10000) / 0x400, 0xDC00 + (c.toNat - 0x10000) % 0x400]

/-- The spellings that JSON has. -/
def Piece.Legal : Piece → Prop
  | plain c => c ≠ quote ∧ c ≠ backslash
  | letter esc => esc ∈ letters
  | unicode c hexes => (∀ hex ∈ hexes, hex.length = 4) ∧ hexes.map hexValue = (utf16 c).map some

def Piece.text : Piece → List UInt8
  | plain c => [c]
  | letter esc => [backslash, esc]
  | unicode _ hexes => hexes.flatMap fun hex => backslash :: 0x75 :: hex

/-- The bytes that a part stands for. -/
def Piece.bytes : Piece → List UInt8
  | plain c => [c]
  | letter esc => [unescape esc]
  | unicode c _ => String.utf8EncodeChar c

def Piece.read : Piece → List UInt8
  | plain c => [c]
  | letter esc => [unescape esc]
  | unicode _ hexes => hexes.map fun _ => byteOf '?'

/-- A string as it is written. -/
abbrev Spelling := List Piece

def literalText (s : Spelling) : List UInt8 := quote :: (s.flatMap Piece.text ++ [quote])

def bytesOfSpelling (s : Spelling) : List UInt8 := s.flatMap Piece.bytes

def readSpelling (s : Spelling) : List UInt8 := s.flatMap Piece.read

/-- No character but a question mark is written by its number. -/
def Piece.Plain : Piece → Prop
  | unicode c _ => c = '?'
  | _ => True

theorem parseChars_hexes : ∀ (hexes : List (List UInt8)) (rest str : List UInt8), (∀ hex ∈ hexes, hex.length = 4) →
    parseChars ((hexes.flatMap fun hex => backslash :: 0x75 :: hex) ++ rest) str =
      parseChars rest (str ++ hexes.map fun _ => byteOf '?')
  | [], rest, str, _ => by simp
  | hex :: hexes, rest, str, h => by
    obtain ⟨hlen, hhexes⟩ := List.forall_mem_cons.mp h
    obtain ⟨a, b, c, d, rfl⟩ : ∃ a b c d, hex = [a, b, c, d] := by
      match hex, hlen with
      | [a, b, c, d], _ => exact ⟨a, b, c, d, rfl⟩
    have htext : (([a, b, c, d] :: hexes).flatMap fun hex => backslash :: 0x75 :: hex) ++ rest =
        backslash :: 0x75 :: a :: b :: c :: d :: ((hexes.flatMap fun hex => backslash :: 0x75 :: hex) ++ rest) := by
      simp
    rw [htext]
    conv_lhs => unfold parseChars
    rw [if_neg (by decide), if_pos rfl]
    dsimp only
    rw [if_pos rfl, parseChars_hexes hexes rest _ hhexes, List.append_assoc]
    rfl

theorem parseChars_piece {p : Piece} (h : p.Legal) (rest str : List UInt8) :
    parseChars (p.text ++ rest) str = parseChars rest (str ++ p.read) := by
  cases p with
  | plain c => exact parseChars_plain h.1 h.2 rest str
  | letter esc =>
    have hesc : esc ≠ 0x75 := by
      rintro rfl
      exact absurd h (by simp only [Piece.Legal]; decide)
    exact parseChars_escape hesc rest str
  | unicode c hexes => exact parseChars_hexes hexes rest str h.1

theorem parseChars_spelling : ∀ (s : Spelling) (rest str : List UInt8), (∀ p ∈ s, p.Legal) →
    parseChars (s.flatMap Piece.text ++ quote :: rest) str = .ok (str ++ readSpelling s, rest)
  | [], rest, str, _ => by
    rw [List.flatMap_nil, List.nil_append, readSpelling, List.flatMap_nil, List.append_nil]
    unfold parseChars
    rw [if_pos rfl]
  | p :: s, rest, str, h => by
    obtain ⟨hp, h⟩ := List.forall_mem_cons.mp h
    rw [List.flatMap_cons, List.append_assoc, parseChars_piece hp, parseChars_spelling s rest _ h, List.append_assoc]
    rfl

theorem utf8EncodeChar_eq_iff (c : Char) : String.utf8EncodeChar c = [byteOf '?'] ↔ c = '?' := by
  constructor
  · intro h
    have hsize : c.utf8Size = 1 := by rw [← String.length_utf8EncodeChar, h]; rfl
    rw [String.utf8EncodeChar_eq_singleton hsize] at h
    have hle := Char.utf8Size_eq_one_iff.mp hsize
    have hbyte : c.val.toUInt8 = byteOf '?' := (List.cons.inj h).1
    have hnat : c.val.toNat % 256 = 63 := congrArg UInt8.toNat hbyte
    have hlt : c.val.toNat ≤ 127 := hle
    apply Char.ext
    apply UInt32.toNat_inj.mp
    show c.val.toNat = 63
    omega
  · rintro rfl
    rfl

/-- An escape is read as at most as many bytes as it stands for, and as the same bytes only where it stands for a
question mark. -/
theorem Piece.Legal.read_facts {p : Piece} (h : p.Legal) :
    p.read.length ≤ p.bytes.length ∧ (p.read = p.bytes ↔ p.Plain) := by
  cases p with
  | plain c => exact ⟨le_rfl, iff_of_true rfl trivial⟩
  | letter esc => exact ⟨le_rfl, iff_of_true rfl trivial⟩
  | unicode c hexes =>
    have hlen : hexes.length = (utf16 c).length := by
      rw [← List.length_map hexValue, h.2, List.length_map]
    have hread : (Piece.unicode c hexes).read = List.replicate (utf16 c).length (byteOf '?') := by
      rw [Piece.read, List.map_const', hlen]
    have hbytes : (Piece.unicode c hexes).bytes.length = c.utf8Size := String.length_utf8EncodeChar c
    rw [hread, List.length_replicate]
    by_cases hsmall : c.toNat < 0x10000
    · have hone : (utf16 c).length = 1 := by rw [utf16, if_pos hsmall]; rfl
      rw [hone, hbytes]
      refine ⟨Char.utf8Size_pos c, ?_⟩
      rw [List.replicate_one, eq_comm]
      exact utf8EncodeChar_eq_iff c
    · have htwo : (utf16 c).length = 2 := by rw [utf16, if_neg hsmall]; rfl
      have hfour : c.utf8Size = 4 := by
        rw [Char.utf8Size_eq_four_iff]
        show (0xffff : ℕ) < c.toNat
        omega
      rw [htwo, hbytes, hfour]
      refine ⟨by decide, iff_of_false ?_ ?_⟩
      · intro heq
        have hlens := congrArg List.length heq
        rw [hbytes, hfour] at hlens
        cases hlens
      · rintro rfl
        exact absurd hfour (by decide)

/-- A string is read as it is meant exactly when only question marks are written by numbers. -/
theorem readSpelling_eq_iff : ∀ {s : Spelling}, (∀ p ∈ s, p.Legal) →
    (readSpelling s).length ≤ (bytesOfSpelling s).length ∧
      (readSpelling s = bytesOfSpelling s ↔ ∀ p ∈ s, p.Plain)
  | [], _ => ⟨le_rfl, iff_of_true rfl (List.forall_mem_nil _)⟩
  | p :: s, h => by
    obtain ⟨hp, h⟩ := List.forall_mem_cons.mp h
    obtain ⟨hple, hpiff⟩ := hp.read_facts
    obtain ⟨hle, hiff⟩ := readSpelling_eq_iff h
    have hread : readSpelling (p :: s) = p.read ++ readSpelling s := List.flatMap_cons
    have hbytes : bytesOfSpelling (p :: s) = p.bytes ++ bytesOfSpelling s := List.flatMap_cons
    rw [hread, hbytes, List.length_append, List.length_append, List.forall_mem_cons, ← hpiff, ← hiff]
    refine ⟨by omega, fun heq => ?_, fun heq => by rw [heq.1, heq.2]⟩
    have hlens := congrArg List.length heq
    rw [List.length_append, List.length_append] at hlens
    exact List.append_inj heq (by omega)

/-! ## Trees -/

section Trees

variable {σ σ' σ'' ν ν' ν'' : Type}

mutual

/-- A value with its strings and its numbers replaced. -/
def Json.map (f : σ → σ') (g : ν → ν') : Json σ ν → Json σ' ν'
  | .null => .null
  | .bool b => .bool b
  | .number n => .number (g n)
  | .string s => .string (f s)
  | .array items => .array (mapItems f g items)
  | .object members => .object (mapMembers f g members)

/-- The same for elements. -/
def mapItems (f : σ → σ') (g : ν → ν') : List (Json σ ν) → List (Json σ' ν')
  | [] => []
  | j :: js => j.map f g :: mapItems f g js

def mapMembers (f : σ → σ') (g : ν → ν') : List (σ × Json σ ν) → List (σ' × Json σ' ν')
  | [] => []
  | (key, j) :: ms => (f key, j.map f g) :: mapMembers f g ms

end

mutual

/-- The strings of a value, keys included. -/
def Json.strings : Json σ ν → List σ
  | .null | .bool _ | .number _ => []
  | .string s => [s]
  | .array items => stringsOfItems items
  | .object members => stringsOfMembers members

def stringsOfItems : List (Json σ ν) → List σ
  | [] => []
  | j :: js => j.strings ++ stringsOfItems js

def stringsOfMembers : List (σ × Json σ ν) → List σ
  | [] => []
  | (key, j) :: ms => key :: (j.strings ++ stringsOfMembers ms)

end

mutual

theorem Json.map_map (f : σ → σ') (g : ν → ν') (f' : σ' → σ'') (g' : ν' → ν'') :
    ∀ j : Json σ ν, (j.map f g).map f' g' = j.map (f' ∘ f) (g' ∘ g)
  | .null | .bool _ | .number _ | .string _ => by simp only [Json.map, Function.comp]
  | .array items => by simp only [Json.map, mapItems_mapItems f g f' g' items]
  | .object members => by simp only [Json.map, mapMembers_mapMembers f g f' g' members]

theorem mapItems_mapItems (f : σ → σ') (g : ν → ν') (f' : σ' → σ'') (g' : ν' → ν'') :
    ∀ js : List (Json σ ν), mapItems f' g' (mapItems f g js) = mapItems (f' ∘ f) (g' ∘ g) js
  | [] => by simp only [mapItems]
  | j :: js => by simp only [mapItems, Json.map_map f g f' g' j, mapItems_mapItems f g f' g' js]

theorem mapMembers_mapMembers (f : σ → σ') (g : ν → ν') (f' : σ' → σ'') (g' : ν' → ν'') :
    ∀ ms : List (σ × Json σ ν), mapMembers f' g' (mapMembers f g ms) = mapMembers (f' ∘ f) (g' ∘ g) ms
  | [] => by simp only [mapMembers]
  | (key, j) :: ms => by
    simp only [mapMembers, Json.map_map f g f' g' j, mapMembers_mapMembers f g f' g' ms, Function.comp]

end

mutual

/-- Two ways to replace strings differ on a value exactly when they differ on a string in it. -/
theorem Json.map_eq_map_iff (f f' : σ → σ') (g : ν → ν') :
    ∀ j : Json σ ν, j.map f g = j.map f' g ↔ ∀ s ∈ j.strings, f s = f' s
  | .null | .bool _ | .number _ => by simp [Json.map, Json.strings]
  | .string s => by simp [Json.map, Json.strings]
  | .array items => by
    rw [Json.map, Json.map, Json.strings, Json.array.injEq]
    exact mapItems_eq_iff f f' g items
  | .object members => by
    rw [Json.map, Json.map, Json.strings, Json.object.injEq]
    exact mapMembers_eq_iff f f' g members

theorem mapItems_eq_iff (f f' : σ → σ') (g : ν → ν') :
    ∀ js : List (Json σ ν), mapItems f g js = mapItems f' g js ↔ ∀ s ∈ stringsOfItems js, f s = f' s
  | [] => by simp [mapItems, stringsOfItems]
  | j :: js => by
    rw [mapItems, mapItems, stringsOfItems, List.cons.injEq, List.forall_mem_append,
      Json.map_eq_map_iff f f' g j, mapItems_eq_iff f f' g js]

theorem mapMembers_eq_iff (f f' : σ → σ') (g : ν → ν') :
    ∀ ms : List (σ × Json σ ν), mapMembers f g ms = mapMembers f' g ms ↔ ∀ s ∈ stringsOfMembers ms, f s = f' s
  | [] => by simp [mapMembers, stringsOfMembers]
  | (key, j) :: ms => by
    rw [mapMembers, mapMembers, stringsOfMembers, List.cons.injEq, Prod.mk.injEq, List.forall_mem_cons,
      List.forall_mem_append, Json.map_eq_map_iff f f' g j, mapMembers_eq_iff f f' g ms, and_assoc]

end

end Trees

/-- A number whose value is in the range of a `double`. -/
structure Number where
  numeral : Numeral
  double : Double
  readable : inRange numeral.value = some double

/-- A value as it is written. -/
abbrev Spelled := Json Spelling Number

/-- The JSON value that is written. -/
def Spelled.meaning (j : Spelled) : Json (List UInt8) ℚ := Json.map bytesOfSpelling (·.numeral.value) j

def Spelled.read (j : Spelled) : JsonValue := Json.map readSpelling (·.double) j

/-- The value that would be read if the reader had all escapes. -/
def Spelled.bytes (j : Spelled) : JsonValue := Json.map bytesOfSpelling (·.double) j

theorem bytes_eq_of_meaning_eq {j j' : Spelled} (h : j.meaning = j'.meaning) : j.bytes = j'.bytes := by
  have hdouble : (fun n : Number => n.double) = (fun q => (inRange q).getD .nan) ∘ fun n => n.numeral.value := by
    funext n
    rw [Function.comp, n.readable]
    rfl
  have hbytes : ∀ j : Spelled, j.bytes = j.meaning.map id fun q => (inRange q).getD .nan := by
    intro j
    rw [Spelled.meaning, Json.map_map, Function.id_comp, ← hdouble]
    rfl
  rw [hbytes, hbytes, h]

/-! ## Texts -/

/-- White space. -/
def Blanks (ws : List UInt8) : Prop := ∀ c ∈ ws, isBlank c = true

/-- What is written: a value, elements, or members. -/
inductive Form where
  | value (j : Spelled)
  | items (js : List Spelled)
  | members (ms : List (Spelling × Spelled))

/-- The texts of values, of elements with commas between them, and of members. -/
inductive Prints : Form → List UInt8 → Prop
  | null : Prints (.value .null) (bytesOf "null")
  | bool (b : Bool) : Prints (.value (.bool b)) (bytesOf (if b then "true" else "false"))
  | number (n : Number) : Prints (.value (.number n)) n.numeral.text
  | string {s : Spelling} (hs : ∀ p ∈ s, p.Legal) : Prints (.value (.string s)) (literalText s)
  | emptyArray {ws : List UInt8} (hws : Blanks ws) :
      Prints (.value (.array [])) (byteOf '[' :: (ws ++ [byteOf ']']))
  | array {js : List Spelled} {t : List UInt8} (h : Prints (.items js) t) :
      Prints (.value (.array js)) (byteOf '[' :: (t ++ [byteOf ']']))
  | emptyObject {ws : List UInt8} (hws : Blanks ws) :
      Prints (.value (.object [])) (byteOf '\x7b' :: (ws ++ [byteOf '\x7d']))
  | object {ms : List (Spelling × Spelled)} {t : List UInt8} (h : Prints (.members ms) t) :
      Prints (.value (.object ms)) (byteOf '\x7b' :: (t ++ [byteOf '\x7d']))
  | lastItem {j : Spelled} {ws t ws' : List UInt8} (hws : Blanks ws) (h : Prints (.value j) t) (hws' : Blanks ws') :
      Prints (.items [j]) (ws ++ (t ++ ws'))
  | item {j : Spelled} {js : List Spelled} {ws t ws' t' : List UInt8} (hws : Blanks ws) (h : Prints (.value j) t)
      (hws' : Blanks ws') (hjs : Prints (.items js) t') :
      Prints (.items (j :: js)) (ws ++ (t ++ (ws' ++ byteOf ',' :: t')))
  | lastMember {key : Spelling} {j : Spelled} {ws ws₁ ws₂ t ws' : List UInt8} (hws : Blanks ws)
      (hkey : ∀ p ∈ key, p.Legal) (hws₁ : Blanks ws₁) (hws₂ : Blanks ws₂) (h : Prints (.value j) t)
      (hws' : Blanks ws') :
      Prints (.members [(key, j)]) (ws ++ (literalText key ++ (ws₁ ++ byteOf ':' :: (ws₂ ++ (t ++ ws')))))
  | member {key : Spelling} {j : Spelled} {ms : List (Spelling × Spelled)} {ws ws₁ ws₂ t ws' t' : List UInt8}
      (hws : Blanks ws) (hkey : ∀ p ∈ key, p.Legal) (hws₁ : Blanks ws₁) (hws₂ : Blanks ws₂) (h : Prints (.value j) t)
      (hws' : Blanks ws') (hms : Prints (.members ms) t') :
      Prints (.members ((key, j) :: ms))
        (ws ++ (literalText key ++ (ws₁ ++ byteOf ':' :: (ws₂ ++ (t ++ (ws' ++ byteOf ',' :: t'))))))

/-- How a value begins. -/
def Begins (t : List UInt8) : Prop := ∃ c cs, t = c :: cs ∧ isBlank c = false ∧ c ≠ byteOf ']'

theorem Numeral.exists_start : ∃ c cs, n.text = c :: cs ∧ (c = byteOf '-' ∨ ∃ d, c = digitByte d) := by
  obtain ⟨d, ds, hint⟩ : ∃ d ds, n.int = d :: ds := List.exists_cons_of_ne_nil n.nonempty
  unfold Numeral.text
  rw [hint]
  cases n.negative with
  | true => exact ⟨_, _, rfl, Or.inl rfl⟩
  | false => exact ⟨_, _, rfl, Or.inr ⟨d, rfl⟩⟩

theorem Prints.begins {t : List UInt8} (h : Prints (.value j) t) : Begins t := by
  cases h with
  | null => exact ⟨_, _, rfl, by decide, by decide⟩
  | bool b => cases b <;> exact ⟨_, _, rfl, by decide, by decide⟩
  | number n =>
    obtain ⟨c, cs, htext, rfl | ⟨d, rfl⟩⟩ := n.numeral.exists_start
    · exact ⟨_, _, htext, by decide, by decide⟩
    · obtain ⟨hblank, hnot⟩ := digitByte_start d
      exact ⟨_, _, htext, hblank, fun heq => hnot (by rw [heq]; simp)⟩
  | string hs => exact ⟨_, _, rfl, by decide, by decide⟩
  | emptyArray hws => exact ⟨_, _, rfl, by decide, by decide⟩
  | array h => exact ⟨_, _, rfl, by decide, by decide⟩
  | emptyObject hws => exact ⟨_, _, rfl, by decide, by decide⟩
  | object h => exact ⟨_, _, rfl, by decide, by decide⟩

theorem skipWs_blanks {ws : List UInt8} (hws : Blanks ws) {c : UInt8} (hc : isBlank c = false) (t : List UInt8) :
    skipWs (ws ++ c :: t) = c :: t := by
  unfold skipWs
  rw [List.dropWhile_append_of_pos hws, List.dropWhile_cons_of_neg (by simp [hc])]

theorem Begins.skipWs {t : List UInt8} (h : Begins t) {ws : List UInt8} (hws : Blanks ws) (rest : List UInt8) :
    skipWs (ws ++ (t ++ rest)) = t ++ rest := by
  obtain ⟨c, cs, rfl, hc, -⟩ := h
  exact skipWs_blanks hws hc (cs ++ rest)

theorem skipWs_idem (text : List UInt8) : skipWs (skipWs text) = skipWs text := List.dropWhile_idempotent isBlank text

theorem parseValue_skipWs (fuel : ℕ) (text : List UInt8) : parseValue fuel (skipWs text) = parseValue fuel text := by
  cases fuel with
  | zero => rfl
  | succ fuel => rw [parseValue, parseValue, skipWs_idem]

/-- White space, a comma or a closing bracket ends a number. -/
theorem stops_blanks {ws : List UInt8} (hws : Blanks ws) {c : UInt8}
    (hc : c ∈ [byteOf ',', byteOf ']', byteOf '\x7d']) (t : List UInt8) : Stops (ws ++ c :: t) := by
  intro d hd
  cases ws with
  | nil =>
    obtain rfl := Option.some.inj hd
    simp only [List.mem_cons, List.not_mem_nil, or_false] at hc
    rcases hc with rfl | rfl | rfl <;> decide
  | cons b ws =>
    obtain rfl := Option.some.inj hd
    have hb := hws b List.mem_cons_self
    refine ⟨?_, ?_, ?_, ?_⟩
    · rw [Bool.eq_false_iff]
      intro hdigit
      simp only [isBlank, isDigit, Bool.or_eq_true, Bool.and_eq_true, decide_eq_true_eq, UInt8.le_iff_toNat_le,
        ← UInt8.toNat_inj] at hb hdigit
      have hlow : (0x30 : UInt8).toNat = 48 := rfl
      have hspace : (0x20 : UInt8).toNat = 32 := rfl
      have hreturn : (0x0d : UInt8).toNat = 13 := rfl
      omega
    · rintro rfl
      exact absurd hb (by decide)
    · rintro rfl
      exact absurd hb (by decide)
    · rintro rfl
      exact absurd hb (by decide)

/-! ## Reading texts -/

variable {fuel : ℕ} {ws t tail : List UInt8} {v : JsonValue} {c : UInt8}

theorem parseElements_turn (hws : Blanks ws) (ht : Begins t) (hread : parseValue fuel (t ++ tail) = some (.ok (v, tail)))
    (htail : skipWs tail = c :: rest) (acc : List JsonValue) :
    parseElements (fuel + 1) (ws ++ (t ++ tail)) acc =
      if c = byteOf ',' then parseElements fuel rest (acc ++ [v])
      else if c = byteOf ']' then some (.ok (.array (acc ++ [v]), rest))
      else some (.error "Expected ',' or ']' in array") := by
  have hskip := ht.skipWs hws tail
  obtain ⟨d, ds, rfl, -, hclose⟩ := ht
  have hne : ws ++ (d :: ds ++ tail) ≠ [] := by simp
  rw [List.cons_append] at hread
  rw [parseElements, if_neg hne, hskip, List.cons_append]
  dsimp only
  rw [if_neg hclose, hread]
  dsimp only
  rw [htail]

theorem parseMembers_turn {key : Spelling} {ws₁ ws₂ : List UInt8} (hws : Blanks ws) (hkey : ∀ p ∈ key, p.Legal)
    (hws₁ : Blanks ws₁) (hread : parseValue fuel (ws₂ ++ (t ++ tail)) = some (.ok (v, tail)))
    (htail : skipWs tail = c :: rest) (acc : List (List UInt8 × JsonValue)) :
    parseMembers (fuel + 1) (ws ++ (literalText key ++ (ws₁ ++ byteOf ':' :: (ws₂ ++ (t ++ tail))))) acc =
      if c = byteOf ',' then parseMembers fuel rest (acc ++ [(readSpelling key, v)])
      else if c = byteOf '\x7d' then some (.ok (.object (acc ++ [(readSpelling key, v)]), rest))
      else some (.error "Expected ',' or '\x7d' in object") := by
  have hne : ws ++ (literalText key ++ (ws₁ ++ byteOf ':' :: (ws₂ ++ (t ++ tail)))) ≠ [] := by simp [literalText]
  have hskip : skipWs (ws ++ (literalText key ++ (ws₁ ++ byteOf ':' :: (ws₂ ++ (t ++ tail))))) =
      quote :: (key.flatMap Piece.text ++ quote :: (ws₁ ++ byteOf ':' :: (ws₂ ++ (t ++ tail)))) := by
    rw [literalText, List.cons_append, skipWs_blanks hws (by decide), List.append_assoc]
    rfl
  have hcolon : takeOne (· = byteOf ':') (skipWs (ws₁ ++ byteOf ':' :: (ws₂ ++ (t ++ tail)))) =
      ([byteOf ':'], ws₂ ++ (t ++ tail)) := by
    rw [skipWs_blanks hws₁ (by decide), takeOne, if_pos (by decide)]
  rw [parseMembers, if_neg hne, hskip]
  dsimp only
  rw [if_neg (by decide), if_neg (not_not.mpr rfl), parseChars_spelling key _ [] hkey]
  dsimp only
  rw [hcolon]
  dsimp only
  rw [hread]
  dsimp only
  rw [htail, List.nil_append]

/-- What it means that a form is read. -/
def ReadsForm : Form → List UInt8 → Prop
  | .value j, t => ∀ fuel rest, t.length < fuel → Stops rest →
      parseValue fuel (t ++ rest) = some (.ok (Spelled.read j, rest))
  | .items js, t => ∀ fuel rest acc, t.length + 1 < fuel →
      parseElements fuel (t ++ byteOf ']' :: rest) acc =
        some (.ok (.array (acc ++ mapItems readSpelling (·.double) js), rest))
  | .members ms, t => ∀ fuel rest acc, t.length + 1 < fuel →
      parseMembers fuel (t ++ byteOf '\x7d' :: rest) acc =
        some (.ok (.object (acc ++ mapMembers readSpelling (·.double) ms), rest))

theorem parseValue_cons (hc : isBlank c = false) (fuel : ℕ) (t : List UInt8) : parseValue (fuel + 1) (c :: t) =
      if c = byteOf '\x7b' then parseMembers fuel t []
      else if c = byteOf '[' then parseElements fuel t []
      else if c = quote then some ((parseChars t []).map fun p => (.string p.1, p.2))
      else if c = byteOf 't' ∨ c = byteOf 'f' then some (parseBool (c :: t))
      else if c = byteOf 'n' then some (parseNull (c :: t))
      else if c = byteOf '-' ∨ isDigit c then some (parseNumber (c :: t))
      else some (.error ("Unexpected character: '" ++ String.ofList [charOf c] ++ "'")) := by
  have hskip : skipWs ([] ++ c :: t) = c :: t := skipWs_blanks (List.forall_mem_nil _) hc t
  rw [List.nil_append] at hskip
  rw [parseValue, hskip]

theorem parseValue_number (n : Number) (hrest : Stops rest) (fuel : ℕ) :
    parseValue (fuel + 1) (n.numeral.text ++ rest) = some (.ok (.number n.double, rest)) := by
  have hnumber : parseNumber (n.numeral.text ++ rest) = .ok (.number n.double, rest) := by
    unfold parseNumber
    rw [takeNumber_text hrest]
    dsimp only
    rw [stod_text, n.readable]
  obtain ⟨c, cs, htext, hc⟩ := n.numeral.exists_start
  have hfacts : isBlank c = false ∧
      c ∉ [byteOf '\x7b', byteOf '[', quote, byteOf 't', byteOf 'f', byteOf 'n', byteOf ']'] ∧
        (c = byteOf '-' ∨ isDigit c = true) := by
    rcases hc with rfl | ⟨d, rfl⟩
    · decide
    · exact ⟨(digitByte_start d).1, (digitByte_start d).2, Or.inr (digitByte_facts d).1⟩
  obtain ⟨hblank, hnot, hstart⟩ := hfacts
  simp only [List.mem_cons, List.not_mem_nil, or_false, not_or] at hnot
  obtain ⟨h1, h2, h3, h4, h5, h6, -⟩ := hnot
  rw [htext, List.cons_append] at hnumber ⊢
  rw [parseValue_cons hblank, if_neg h1, if_neg h2, if_neg h3, if_neg (not_or.mpr ⟨h4, h5⟩), if_neg h6, if_pos hstart,
    hnumber]

variable {text : List UInt8}

theorem Prints.reads {form : Form} (h : Prints form text) : ReadsForm form text := by
  induction h with
  | null =>
    intro fuel rest hfuel _
    obtain ⟨fuel, rfl⟩ : ∃ m, fuel = m + 1 := ⟨fuel - 1, by omega⟩
    show parseValue (fuel + 1) (byteOf 'n' :: _) = _
    rw [parseValue_cons (by decide), if_neg (by decide), if_neg (by decide), if_neg (by decide),
      if_neg (by decide), if_pos rfl, parseNull, if_pos ⟨rest, rfl⟩]
    rfl
  | bool b =>
    intro fuel rest hfuel _
    obtain ⟨fuel, rfl⟩ : ∃ m, fuel = m + 1 := ⟨fuel - 1, by omega⟩
    cases b with
    | true =>
      show parseValue (fuel + 1) (byteOf 't' :: _) = _
      rw [parseValue_cons (by decide), if_neg (by decide), if_neg (by decide), if_neg (by decide),
        if_pos (by decide), parseBool, if_pos ⟨rest, rfl⟩]
      rfl
    | false =>
      have hno : ¬ bytesOf "true" <+: byteOf 'f' :: (bytesOf "alse" ++ rest) := by
        intro hprefix
        exact absurd (List.cons_prefix_cons.mp hprefix).1 (by decide)
      show parseValue (fuel + 1) (byteOf 'f' :: (bytesOf "alse" ++ rest)) = _
      rw [parseValue_cons (by decide), if_neg (by decide), if_neg (by decide), if_neg (by decide),
        if_pos (by decide), parseBool, if_neg hno, if_pos ⟨rest, rfl⟩]
      rfl
  | number n =>
    intro fuel rest hfuel hrest
    obtain ⟨fuel, rfl⟩ : ∃ m, fuel = m + 1 := ⟨fuel - 1, by omega⟩
    exact parseValue_number n hrest fuel
  | @string s hs =>
    intro fuel rest hfuel _
    obtain ⟨fuel, rfl⟩ : ∃ m, fuel = m + 1 := ⟨fuel - 1, by omega⟩
    have htext : literalText s ++ rest = quote :: (s.flatMap Piece.text ++ quote :: rest) := by
      rw [literalText, List.cons_append, List.append_assoc]
      rfl
    rw [htext, parseValue_cons (by decide), if_neg (by decide), if_neg (by decide), if_pos rfl,
      parseChars_spelling s rest [] hs]
    rfl
  | @emptyArray ws hws =>
    intro fuel rest hfuel _
    simp only [List.length_cons, List.length_append] at hfuel
    obtain ⟨fuel, rfl⟩ : ∃ m, fuel = m + 2 := ⟨fuel - 2, by omega⟩
    have hne : ws ++ byteOf ']' :: rest ≠ [] := by simp
    rw [List.cons_append, parseValue_cons (by decide), if_neg (by decide), if_pos rfl, List.append_assoc,
      List.singleton_append, parseElements, if_neg hne, skipWs_blanks hws (by decide)]
    rfl
  | @array js t h ih =>
    intro fuel rest hfuel _
    obtain ⟨fuel, rfl⟩ : ∃ m, fuel = m + 1 := ⟨fuel - 1, by omega⟩
    rw [List.cons_append, parseValue_cons (by decide), if_neg (by decide), if_pos rfl, List.append_assoc,
      List.singleton_append, ih fuel rest [] (by simp at hfuel; omega)]
    rfl
  | @emptyObject ws hws =>
    intro fuel rest hfuel _
    simp only [List.length_cons, List.length_append] at hfuel
    obtain ⟨fuel, rfl⟩ : ∃ m, fuel = m + 2 := ⟨fuel - 2, by omega⟩
    have hne : ws ++ byteOf '\x7d' :: rest ≠ [] := by simp
    rw [List.cons_append, parseValue_cons (by decide), if_pos rfl, List.append_assoc,
      List.singleton_append, parseMembers, if_neg hne, skipWs_blanks hws (by decide)]
    rfl
  | @object ms t h ih =>
    intro fuel rest hfuel _
    obtain ⟨fuel, rfl⟩ : ∃ m, fuel = m + 1 := ⟨fuel - 1, by omega⟩
    rw [List.cons_append, parseValue_cons (by decide), if_pos rfl, List.append_assoc,
      List.singleton_append, ih fuel rest [] (by simp at hfuel; omega)]
    rfl
  | @lastItem j ws t ws' hws h hws' ih =>
    intro fuel rest acc hfuel
    simp only [List.length_append] at hfuel
    obtain ⟨fuel, rfl⟩ : ∃ m, fuel = m + 1 := ⟨fuel - 1, by omega⟩
    have hread := ih fuel (ws' ++ byteOf ']' :: rest) (by omega) (stops_blanks hws' (by decide) rest)
    have hturn := parseElements_turn hws h.begins hread (skipWs_blanks hws' (by decide) rest) acc
    rw [List.append_assoc, List.append_assoc, hturn, if_neg (by decide), if_pos rfl]
    rfl
  | @item j js ws t ws' t' hws h hws' hjs ih ihjs =>
    intro fuel rest acc hfuel
    simp only [List.length_append, List.length_cons] at hfuel
    obtain ⟨fuel, rfl⟩ : ∃ m, fuel = m + 1 := ⟨fuel - 1, by omega⟩
    have hread := ih fuel (ws' ++ byteOf ',' :: (t' ++ byteOf ']' :: rest)) (by omega)
      (stops_blanks hws' (by decide) _)
    have hturn := parseElements_turn hws h.begins hread (skipWs_blanks hws' (by decide) _) acc
    have htext : ws ++ (t ++ (ws' ++ byteOf ',' :: t')) ++ byteOf ']' :: rest =
        ws ++ (t ++ (ws' ++ byteOf ',' :: (t' ++ byteOf ']' :: rest))) := by simp
    rw [htext, hturn, if_pos rfl, ihjs fuel rest _ (by omega), List.append_assoc]
    rfl
  | @lastMember key j ws ws₁ ws₂ t ws' hws hkey hws₁ hws₂ h hws' ih =>
    intro fuel rest acc hfuel
    simp only [List.length_append, List.length_cons] at hfuel
    obtain ⟨fuel, rfl⟩ : ∃ m, fuel = m + 1 := ⟨fuel - 1, by omega⟩
    have hread : parseValue fuel (ws₂ ++ (t ++ (ws' ++ byteOf '\x7d' :: rest))) =
        some (.ok (Spelled.read j, ws' ++ byteOf '\x7d' :: rest)) := by
      rw [← parseValue_skipWs, h.begins.skipWs hws₂]
      exact ih fuel _ (by omega) (stops_blanks hws' (by decide) rest)
    have hturn := parseMembers_turn hws hkey hws₁ hread (skipWs_blanks hws' (by decide) rest) acc
    have htext : ws ++ (literalText key ++ (ws₁ ++ byteOf ':' :: (ws₂ ++ (t ++ ws')))) ++ byteOf '\x7d' :: rest =
        ws ++ (literalText key ++ (ws₁ ++ byteOf ':' :: (ws₂ ++ (t ++ (ws' ++ byteOf '\x7d' :: rest))))) := by simp
    rw [htext, hturn, if_neg (by decide), if_pos rfl]
    rfl
  | @member key j ms ws ws₁ ws₂ t ws' t' hws hkey hws₁ hws₂ h hws' hms ih ihms =>
    intro fuel rest acc hfuel
    simp only [List.length_append, List.length_cons] at hfuel
    obtain ⟨fuel, rfl⟩ : ∃ m, fuel = m + 1 := ⟨fuel - 1, by omega⟩
    have hread : parseValue fuel (ws₂ ++ (t ++ (ws' ++ byteOf ',' :: (t' ++ byteOf '\x7d' :: rest)))) =
        some (.ok (Spelled.read j, ws' ++ byteOf ',' :: (t' ++ byteOf '\x7d' :: rest))) := by
      rw [← parseValue_skipWs, h.begins.skipWs hws₂]
      exact ih fuel _ (by omega) (stops_blanks hws' (by decide) _)
    have hturn := parseMembers_turn hws hkey hws₁ hread (skipWs_blanks hws' (by decide) _) acc
    have htext : ws ++ (literalText key ++ (ws₁ ++ byteOf ':' :: (ws₂ ++ (t ++ (ws' ++ byteOf ',' :: t'))))) ++
        byteOf '\x7d' :: rest = ws ++ (literalText key ++ (ws₁ ++ byteOf ':' ::
          (ws₂ ++ (t ++ (ws' ++ byteOf ',' :: (t' ++ byteOf '\x7d' :: rest)))))) := by simp
    rw [htext, hturn, if_pos rfl, ihms fuel rest _ (by omega), List.append_assoc]
    rfl

/-! ## Documents -/

/-- A text of a value, with white space around it. -/
def Encodes (j : Spelled) (text : List UInt8) : Prop :=
  ∃ ws t ws', Blanks ws ∧ Blanks ws' ∧ Prints (.value j) t ∧ text = ws ++ (t ++ ws')

theorem stops_of_blanks {ws : List UInt8} (hws : Blanks ws) : Stops ws := by
  cases ws with
  | nil => exact fun c hc => absurd hc (by simp)
  | cons c ws => exact fun d hd => stops_blanks hws (c := byteOf ',') (by decide) [] d hd

theorem Encodes.parse_eq (h : Encodes j text) : ∃ rest, parse text = some (.ok (j.read, rest)) := by
  obtain ⟨ws, t, ws', hws, hws', hprints, rfl⟩ := h
  have hskip := hprints.begins.skipWs hws ws'
  have hne : skipWs (ws ++ (t ++ ws')) ≠ [] := by
    obtain ⟨c, cs, rfl, -⟩ := hprints.begins
    rw [hskip]
    exact List.cons_ne_nil _ _
  refine ⟨ws', ?_⟩
  unfold parse
  rw [if_neg hne, ← parseValue_skipWs, hskip]
  exact hprints.reads _ ws' (by simp only [List.length_append]; omega) (stops_of_blanks hws')

def Form.strings : Form → List Spelling
  | .value j => Json.strings j
  | .items js => stringsOfItems js
  | .members ms => stringsOfMembers ms

theorem Prints.legal {form : Form} (h : Prints form text) : ∀ s ∈ form.strings, ∀ p ∈ s, p.Legal := by
  induction h with
  | null => simp [Form.strings, Json.strings]
  | bool b => simp [Form.strings, Json.strings]
  | number n => simp [Form.strings, Json.strings]
  | string hs => simpa [Form.strings, Json.strings] using hs
  | emptyArray hws => simp [Form.strings, Json.strings, stringsOfItems]
  | array h ih => simpa only [Form.strings, Json.strings] using ih
  | emptyObject hws => simp [Form.strings, Json.strings, stringsOfMembers]
  | object h ih => simpa only [Form.strings, Json.strings] using ih
  | lastItem hws h hws' ih => simpa only [Form.strings, stringsOfItems, List.append_nil] using ih
  | item hws h hws' hjs ih ihjs =>
    simp only [Form.strings, stringsOfItems, List.forall_mem_append]
    exact ⟨ih, ihjs⟩
  | lastMember hws hkey hws₁ hws₂ h hws' ih =>
    simp only [Form.strings, stringsOfMembers, List.append_nil, List.forall_mem_cons]
    exact ⟨hkey, ih⟩
  | member hws hkey hws₁ hws₂ h hws' hms ih ihms =>
    simp only [Form.strings, stringsOfMembers, List.forall_mem_cons, List.forall_mem_append]
    exact ⟨hkey, ih, ihms⟩

/-- Only question marks are written by their numbers. -/
def NumbersPlain (j : Spelled) : Prop := ∀ s ∈ Json.strings j, ∀ p ∈ s, p.Plain

theorem read_eq_bytes_iff (h : Encodes j text) : j.read = j.bytes ↔ NumbersPlain j := by
  obtain ⟨ws, t, ws', -, -, hprints, -⟩ := h
  unfold Spelled.read Spelled.bytes NumbersPlain
  rw [Json.map_eq_map_iff]
  exact forall₂_congr fun s hs => (readSpelling_eq_iff (hprints.legal s hs)).2

/-- How `escape_json` writes a byte. -/
def pieceOf (c : UInt8) : Piece :=
  match escapeByte c with
  | [_, esc] => .letter esc
  | _ => .plain c

theorem literalText_written (s : List UInt8) :
    literalText (s.map pieceOf) = literal s ∧ ∀ p ∈ s.map pieceOf, p.Plain := by
  have hpiece : ∀ c, (pieceOf c).text = escapeByte c ∧ (pieceOf c).Plain := by
    intro c
    unfold pieceOf
    rcases escapeByte_cases c with ⟨esc, -, -, heq⟩ | ⟨-, -, heq⟩
    · rw [heq]
      exact ⟨rfl, trivial⟩
    · rw [heq]
      exact ⟨rfl, trivial⟩
  constructor
  · rw [literalText, literal, escapeJson, List.flatMap_map]
    simp only [(hpiece _).1]
  · intro p hp
    obtain ⟨c, -, rfl⟩ := List.mem_map.mp hp
    exact (hpiece c).2

/-- A word as it is written without escapes. -/
def wordSpelling (word : String) : Spelling := (bytesOf word).map .plain

/-- A machine with a package and one state, as it is written. -/
def machineOf (package : Spelling) : Spelled :=
  .object [(wordSpelling "package", .string package),
    (wordSpelling "states", .object [(wordSpelling "A", .object [])])]

def machineText (package : Spelling) : List UInt8 :=
  bytesOf "\x7b\"package\":" ++ (literalText package ++ bytesOf ",\"states\":\x7b\"A\":\x7b\x7d\x7d\x7d")

/-- `out_ir.package`. -/
def readPackage (root : JsonValue) : Except String (List UInt8) :=
  match root with
  | .object _ => .ok (getString root (bytesOf "package"))
  | _ => .error "JSON Deserializer: Root JSON must be an object."

theorem encodes_machine {package : Spelling} (h : ∀ p ∈ package, p.Legal) :
    Encodes (machineOf package) (machineText package) := by
  have hnone : Blanks [] := List.forall_mem_nil _
  have hword : ∀ word ∈ ["package", "states", "A"], ∀ p ∈ wordSpelling word, p.Legal := by
    intro word hword p hp
    obtain ⟨c, hc, rfl⟩ := List.mem_map.mp hp
    have hbytes : ∀ word ∈ ["package", "states", "A"], ∀ c ∈ bytesOf word, c ≠ quote ∧ c ≠ backslash := by
      decide +kernel
    exact hbytes word hword c hc
  have hstate : Prints (.members [(wordSpelling "A", .object [])]) (bytesOf "\"A\":\x7b\x7d") :=
    .lastMember hnone (hword "A" (by simp)) hnone hnone (.emptyObject hnone) hnone
  have hstates : Prints (.members [(wordSpelling "states", .object [(wordSpelling "A", .object [])])])
      (bytesOf "\"states\":\x7b\"A\":\x7b\x7d\x7d") :=
    .lastMember hnone (hword "states" (by simp)) hnone hnone (.object hstate) hnone
  have hmachine := Prints.object (.member hnone (hword "package" (by simp)) hnone hnone (.string h) hnone hstates)
  refine ⟨[], _, [], hnone, hnone, hmachine, ?_⟩
  have hbefore : bytesOf "\x7b\"package\":" =
      byteOf '\x7b' :: (literalText (wordSpelling "package") ++ [byteOf ':']) := by decide
  have hbehind : bytesOf ",\"states\":\x7b\"A\":\x7b\x7d\x7d\x7d" =
      byteOf ',' :: (bytesOf "\"states\":\x7b\"A\":\x7b\x7d\x7d" ++ [byteOf '\x7d']) := by decide
  rw [machineText, hbefore, hbehind]
  simp

/-- **A text of the same JSON value is read as the same machine**, whatever is done with the value, if and only if it
writes no character but question marks by their numbers; the text of the serializer writes none so. -/
theorem recoded_deserialized_iff {j j' : Spelled} {text text' : List UInt8} (h : Encodes j text)
    (hserialized : NumbersPlain j) (h' : Encodes j' text') (hsame : j'.meaning = j.meaning) :
    (∀ (Ir : Type) (build : JsonValue → Except String Ir),
        deserializeJson build text' = deserializeJson build text) ↔ NumbersPlain j' := by
  obtain ⟨rest, hparse⟩ := h.parse_eq
  obtain ⟨rest', hparse'⟩ := h'.parse_eq
  have hread : j.read = j'.bytes := ((read_eq_bytes_iff h).mpr hserialized).trans (bytes_eq_of_meaning_eq hsame.symm)
  rw [← read_eq_bytes_iff h']
  unfold deserializeJson
  rw [hparse, hparse']
  constructor
  · intro hall
    have hvalue := hall JsonValue .ok
    rw [Option.map_some, Option.map_some, Option.some.injEq, Except.ok.injEq] at hvalue
    exact hvalue.trans hread
  · intro heq Ir build
    rw [Option.map_some, Option.map_some, heq, ← hread]

theorem recoded_deserialized_question : NumbersPlain (machineOf [.plain 0x3f]) ∧
    (machineOf [.unicode '?' [bytesOf "003f"]]).meaning = (machineOf [.plain 0x3f]).meaning ∧
      ∀ (Ir : Type) (build : JsonValue → Except String Ir),
        deserializeJson build (machineText [.unicode '?' [bytesOf "003f"]]) =
          deserializeJson build (machineText [.plain 0x3f]) := by
  have hraw : ∀ p ∈ [Piece.plain 0x3f], p.Legal := by
    simp only [List.forall_mem_cons, Piece.Legal]
    exact ⟨by decide, List.forall_mem_nil _⟩
  have hescaped : ∀ p ∈ [Piece.unicode '?' [bytesOf "003f"]], p.Legal := by
    simp only [List.forall_mem_cons, Piece.Legal]
    exact ⟨by decide, List.forall_mem_nil _⟩
  have hplain : ∀ s : Spelling, (∀ p ∈ s, p.Plain) → NumbersPlain (machineOf s) := by
    intro s hs
    have hword : ∀ (word : String), ∀ p ∈ wordSpelling word, p.Plain := by
      intro word p hp
      obtain ⟨c, -, rfl⟩ := List.mem_map.mp hp
      trivial
    simp only [NumbersPlain, machineOf, Json.strings, stringsOfMembers, List.forall_mem_cons, List.forall_mem_append]
    exact ⟨hword _, ⟨hs, by simp⟩, hword _, ⟨hword _, by simp⟩, by simp⟩
  have hserialized := hplain [.plain 0x3f] (by simp [Piece.Plain])
  have hrecoded := hplain [.unicode '?' [bytesOf "003f"]] (by simp [Piece.Plain])
  refine ⟨hserialized, rfl, ?_⟩
  exact (recoded_deserialized_iff (encodes_machine hraw) hserialized (encodes_machine hescaped) rfl).mpr hrecoded

/-- A letter outside ASCII that is written by its number is read as a question mark. -/
theorem escaped_letter_is_lost :
    Encodes (machineOf [.plain 0xc3, .plain 0xa9]) (machineText [.plain 0xc3, .plain 0xa9]) ∧
      Encodes (machineOf [.unicode (Char.ofNat 0xe9) [bytesOf "00e9"]])
        (machineText [.unicode (Char.ofNat 0xe9) [bytesOf "00e9"]]) ∧
      (machineOf [.unicode (Char.ofNat 0xe9) [bytesOf "00e9"]]).meaning =
        (machineOf [.plain 0xc3, .plain 0xa9]).meaning ∧
      deserializeJson readPackage (machineText [.plain 0xc3, .plain 0xa9]) = some (.ok [0xc3, 0xa9]) ∧
      deserializeJson readPackage (machineText [.unicode (Char.ofNat 0xe9) [bytesOf "00e9"]]) =
        some (.ok [0x3f]) := by
  have hraw : ∀ p ∈ [Piece.plain 0xc3, Piece.plain 0xa9], p.Legal := by
    simp only [List.forall_mem_cons, Piece.Legal]
    exact ⟨by decide, by decide, List.forall_mem_nil _⟩
  have hescaped : ∀ p ∈ [Piece.unicode (Char.ofNat 0xe9) [bytesOf "00e9"]], p.Legal := by
    simp only [List.forall_mem_cons, Piece.Legal]
    exact ⟨by decide, List.forall_mem_nil _⟩
  refine ⟨encodes_machine hraw, encodes_machine hescaped, ?_, ?_, ?_⟩
  · rfl
  · obtain ⟨rest, hparse⟩ := (encodes_machine hraw).parse_eq
    rw [deserializeJson, hparse]
    rfl
  · obtain ⟨rest, hparse⟩ := (encodes_machine hescaped).parse_eq
    rw [deserializeJson, hparse]
    rfl

end Fsmc.Ir.JsonReader
