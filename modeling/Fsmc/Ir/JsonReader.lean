/-
# Fsmc.Ir.JsonReader — reading JSON.

The reader dispatches on the first character of a value and goes over members and elements in a loop. A number is
taken as the longest text that looks like one and handed to `std::stod`. What is behind the value is not looked at.
-/
import Fsmc.Cpp.Double
import Fsmc.Ir.JsonString

namespace Fsmc.Ir.JsonReader

open Fsmc.Cpp Fsmc.Ir.JsonString

/-! ## Values -/

/-- A JSON value over strings and numbers of some kind. -/
inductive Json (σ ν : Type) where
  | null
  | bool (b : Bool)
  | number (n : ν)
  | string (s : σ)
  | array (items : List (Json σ ν))
  | object (members : List (σ × Json σ ν))

/-- `JsonValue`; `obj_val` is found in the members. -/
abbrev JsonValue := Json (List UInt8) Double

/-- `obj_val.find`: a later member replaces an earlier one. -/
def getChild (key : List UInt8) : JsonValue → Option JsonValue
  | .object members => (members.reverse.find? (·.1 = key)).map (·.2)
  | _ => none

def getString (v : JsonValue) (key : List UInt8) : List UInt8 :=
  match getChild key v with
  | some (.string s) => s
  | _ => []

/-! ## Bytes -/

def byteOf (c : Char) : UInt8 := UInt8.ofNat c.toNat

def charOf (c : UInt8) : Char := Char.ofNat c.toNat

/-- `std::isspace`. -/
def isBlank (c : UInt8) : Bool := c = 0x20 || (0x09 ≤ c && c ≤ 0x0d)

/-- `std::isdigit`. -/
def isDigit (c : UInt8) : Bool := 0x30 ≤ c && c ≤ 0x39

def skipWs (text : List UInt8) : List UInt8 := text.dropWhile isBlank

/-! ## The reader -/

/-- The optional character at the start of a text. -/
def takeOne (p : UInt8 → Bool) (text : List UInt8) : List UInt8 × List UInt8 :=
  match text with
  | c :: rest => if p c then ([c], rest) else ([], text)
  | [] => ([], [])

def takeFraction (text : List UInt8) : List UInt8 × List UInt8 :=
  match text with
  | c :: rest => if c = byteOf '.' then (c :: rest.takeWhile isDigit, rest.dropWhile isDigit) else ([], text)
  | [] => ([], [])

def takeExponent (text : List UInt8) : List UInt8 × List UInt8 :=
  match text with
  | c :: rest =>
    if c = byteOf 'e' ∨ c = byteOf 'E' then
      let (sign, rest) := takeOne (fun d => d = byteOf '+' || d = byteOf '-') rest
      (c :: (sign ++ rest.takeWhile isDigit), rest.dropWhile isDigit)
    else ([], text)
  | [] => ([], [])

/-- `num_str`, and what follows it. -/
def takeNumber (text : List UInt8) : List UInt8 × List UInt8 :=
  let (minus, text) := takeOne (· = byteOf '-') text
  let digits := text.takeWhile isDigit
  let (fraction, text) := takeFraction (text.dropWhile isDigit)
  let (exponent, text) := takeExponent text
  (minus ++ digits ++ fraction ++ exponent, text)

/-- What is read: a value and the text behind it, or an error. -/
abbrev Result := Except String (JsonValue × List UInt8)

def parseNumber (text : List UInt8) : Result :=
  let numStr := String.ofList ((takeNumber text).1.map charOf)
  match stod numStr with
  | some x => .ok (.number x, (takeNumber text).2)
  | none => .error ("Invalid number format: " ++ numStr)

def bytesOf (word : String) : List UInt8 := word.toList.map byteOf

def parseBool (text : List UInt8) : Result :=
  if bytesOf "true" <+: text then .ok (.bool true, text.drop 4)
  else if bytesOf "false" <+: text then .ok (.bool false, text.drop 5)
  else .error "Invalid boolean token"

def parseNull (text : List UInt8) : Result :=
  if bytesOf "null" <+: text then .ok (.null, text.drop 4) else .error "Invalid null token"

mutual

/-- `parse_value`, `none` while it is running. -/
def parseValue : ℕ → List UInt8 → Option Result
  | 0, _ => none
  | fuel + 1, text =>
    match skipWs text with
    | [] => some (.error "Unexpected end of input while expecting value")
    | c :: rest =>
      if c = byteOf '\x7b' then parseMembers fuel rest []
      else if c = byteOf '[' then parseElements fuel rest []
      else if c = quote then some ((parseChars rest []).map fun p => (.string p.1, p.2))
      else if c = byteOf 't' ∨ c = byteOf 'f' then some (parseBool (c :: rest))
      else if c = byteOf 'n' then some (parseNull (c :: rest))
      else if c = byteOf '-' ∨ isDigit c then some (parseNumber (c :: rest))
      else some (.error ("Unexpected character: '" ++ String.ofList [charOf c] ++ "'"))

/-- The loop of `parse_object`. -/
def parseMembers : ℕ → List UInt8 → List (List UInt8 × JsonValue) → Option Result
  | 0, _, _ => none
  | fuel + 1, text, members =>
    if text = [] then some (.error "Unterminated object")
    else
      match skipWs text with
      | [] => some (.error "Unterminated object: expected '\x7d'")
      | c :: rest =>
        if c = byteOf '\x7d' then some (.ok (.object members, rest))
        else if c ≠ quote then some (.error "Expected string key in object")
        else
          match parseChars rest [] with
          | .error err => some (.error err)
          | .ok (key, rest) =>
            match takeOne (· = byteOf ':') (skipWs rest) with
            | ([], _) => some (.error "Expected ':' after key")
            | (_, rest) =>
              match parseValue fuel rest with
              | some (.ok (value, rest)) =>
                match skipWs rest with
                | [] => some (.error "Expected ',' or '\x7d' in object")
                | c :: rest =>
                  if c = byteOf ',' then parseMembers fuel rest (members ++ [(key, value)])
                  else if c = byteOf '\x7d' then some (.ok (.object (members ++ [(key, value)]), rest))
                  else some (.error "Expected ',' or '\x7d' in object")
              | r => r

/-- The loop of `parse_array`. -/
def parseElements : ℕ → List UInt8 → List JsonValue → Option Result
  | 0, _, _ => none
  | fuel + 1, text, items =>
    if text = [] then some (.error "Unterminated array")
    else
      match skipWs text with
      | [] => some (.error "Unterminated array: expected ']'")
      | c :: rest =>
        if c = byteOf ']' then some (.ok (.array items, rest))
        else
          match parseValue fuel (c :: rest) with
          | some (.ok (elem, rest)) =>
            match skipWs rest with
            | [] => some (.error "Expected ',' or ']' in array")
            | c :: rest =>
              if c = byteOf ',' then parseElements fuel rest (items ++ [elem])
              else if c = byteOf ']' then some (.ok (.array (items ++ [elem]), rest))
              else some (.error "Expected ',' or ']' in array")
          | r => r

end

def parse (text : List UInt8) : Option Result :=
  if skipWs text = [] then some (.error "Empty JSON input") else parseValue (text.length + 2) text

/-- `deserialize_json`, with what it does with the value that was read. -/
def deserializeJson {Ir : Type} (build : JsonValue → Except String Ir) (text : List UInt8) :
    Option (Except String Ir) :=
  (parse text).map fun r =>
    match r with
    | .error err => .error ("JSON Deserializer: Failed to parse JSON: " ++ err)
    | .ok (root, _) => build root

end Fsmc.Ir.JsonReader
