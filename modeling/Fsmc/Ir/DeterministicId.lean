/-
# Fsmc.Ir.DeterministicId — identifiers computed from a canonical text.
-/

namespace Fsmc.Ir

/-- The 64-bit FNV-1a hash of a byte sequence. -/
def fnv1a (bytes : List UInt8) : UInt64 :=
  bytes.foldl (fun hash c => (hash ^^^ c.toUInt64) * 1099511628211) 14695981039346656037

/-- The low `width` hexadecimal digits of a number, most significant first. -/
def hexDigits : Nat → Nat → List Char
  | 0, _ => []
  | width + 1, n => hexDigits width (n / 16) ++ [Nat.digitChar (n % 16)]

def computeDeterministicId (canonicalStr : String) : String :=
  "id_" ++ String.ofList (hexDigits 16 (fnv1a canonicalStr.toUTF8.toList).toNat)

end Fsmc.Ir
