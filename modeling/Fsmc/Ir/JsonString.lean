/-
# Fsmc.Ir.JsonString — string literals of the serialised machine.

The serializer puts a backslash in front of a quote and of a backslash and gives five control characters by
letters; every other byte, a control character or a part of a UTF-8 sequence, is copied. The reader undoes the
escapes and takes any other byte as it is, so that a literal is read back exactly, wherever it stands.
-/
import Mathlib.Data.List.Basic

namespace Fsmc.Ir.JsonString

/-! ## Bytes -/

def quote : UInt8 := 0x22

def backslash : UInt8 := 0x5c

/-! ## Writing -/

def escapeByte (c : UInt8) : List UInt8 :=
  if c = quote then [backslash, quote]
  else if c = backslash then [backslash, backslash]
  else if c = 0x08 then [backslash, 0x62]
  else if c = 0x0c then [backslash, 0x66]
  else if c = 0x0a then [backslash, 0x6e]
  else if c = 0x0d then [backslash, 0x72]
  else if c = 0x09 then [backslash, 0x74]
  else [c]

def escapeJson (s : List UInt8) : List UInt8 := s.flatMap escapeByte

/-- The literal that the serializer writes. -/
def literal (s : List UInt8) : List UInt8 := quote :: (escapeJson s ++ [quote])

/-! ## Reading -/

/-- The byte that is meant by a letter behind a backslash; a letter without a meaning stands for itself. -/
def unescape (esc : UInt8) : UInt8 :=
  if esc = 0x62 then 0x08
  else if esc = 0x66 then 0x0c
  else if esc = 0x6e then 0x0a
  else if esc = 0x72 then 0x0d
  else if esc = 0x74 then 0x09
  else esc

/-- The loop of `parse_string`: what was read so far, and the rest of the text behind the closing quote. -/
def parseChars : List UInt8 → List UInt8 → Except String (List UInt8 × List UInt8)
  | [], _ => .error "Unterminated string"
  | c :: rest, str =>
    if c = quote then .ok (str, rest)
    else if c = backslash then
      match rest with
      | [] => .error "Unterminated escape sequence"
      | esc :: rest =>
        if esc = 0x75 then
          -- four digits are skipped, whatever they are
          match rest with
          | _ :: _ :: _ :: _ :: rest => parseChars rest (str ++ [0x3f])
          | _ => .error "Incomplete unicode escape"
        else parseChars rest (str ++ [unescape esc])
    else parseChars rest (str ++ [c])

/-- `parse_string`, at the index of an opening quote: the string, and the index behind the literal. -/
def parseString (text : List UInt8) (idx : ℕ) : Except String (List UInt8 × ℕ) :=
  (parseChars (text.drop (idx + 1)) []).map fun p => (p.1, text.length - p.2.length)

/-! ## Reading back -/

theorem parseChars_escape {esc : UInt8} (hesc : esc ≠ 0x75) (rest str : List UInt8) :
    parseChars (backslash :: esc :: rest) str = parseChars rest (str ++ [unescape esc]) := by
  conv_lhs => unfold parseChars
  rw [if_neg (by decide), if_pos rfl]
  exact if_neg hesc

theorem parseChars_plain {c : UInt8} (hquote : c ≠ quote) (hbackslash : c ≠ backslash)
    (rest str : List UInt8) : parseChars (c :: rest) str = parseChars rest (str ++ [c]) := by
  conv_lhs => unfold parseChars
  rw [if_neg hquote, if_neg hbackslash]

theorem escapeByte_cases (c : UInt8) : (∃ esc, esc ≠ 0x75 ∧ unescape esc = c ∧ escapeByte c = [backslash, esc]) ∨
      (c ≠ quote ∧ c ≠ backslash ∧ escapeByte c = [c]) := by
  unfold escapeByte
  split_ifs with hquote hbackslash
  case neg => exact Or.inr ⟨hquote, hbackslash, rfl⟩
  all_goals
    subst c
    exact Or.inl ⟨_, by decide, by decide, rfl⟩

theorem parseChars_escapeByte (c : UInt8) (rest str : List UInt8) :
    parseChars (escapeByte c ++ rest) str = parseChars rest (str ++ [c]) := by
  rcases escapeByte_cases c with ⟨esc, hesc, hmeant, heq⟩ | ⟨hquote, hbackslash, heq⟩
  · rw [heq, ← hmeant]
    exact parseChars_escape hesc rest str
  · rw [heq]
    exact parseChars_plain hquote hbackslash rest str

theorem parseChars_escapeJson (s rest str : List UInt8) :
    parseChars (escapeJson s ++ quote :: rest) str = .ok (str ++ s, rest) := by
  induction s generalizing str with
  | nil =>
    rw [List.append_nil]
    show parseChars (quote :: rest) str = _
    unfold parseChars
    rw [if_pos rfl]
  | cons c s ih =>
    have hsplit : escapeJson (c :: s) ++ quote :: rest = escapeByte c ++ (escapeJson s ++ quote :: rest) := by
      rw [escapeJson, List.flatMap_cons, List.append_assoc]
      rfl
    rw [hsplit, parseChars_escapeByte, ih, List.append_assoc]
    rfl

/-- A literal that stands in a text is read back, and nothing behind it is consumed. -/
theorem parseString_literal (s before after : List UInt8) : parseString (before ++ literal s ++ after) before.length =
      .ok (s, before.length + (literal s).length) := by
  have hdrop : (before ++ literal s ++ after).drop (before.length + 1) = escapeJson s ++ quote :: after := by
    have htext : before ++ literal s ++ after = (before ++ [quote]) ++ (escapeJson s ++ quote :: after) := by
      simp [literal]
    have hlen : before.length + 1 = (before ++ [quote]).length := by simp
    rw [htext, hlen, List.drop_left]
  unfold parseString
  rw [hdrop, parseChars_escapeJson]
  show Except.ok (([] : List UInt8) ++ s, _) = _
  rw [List.nil_append, List.length_append, List.length_append, Nat.add_sub_cancel]

end Fsmc.Ir.JsonString
