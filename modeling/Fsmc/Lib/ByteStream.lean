/-
# Fsmc.Lib.ByteStream — numbers and blocks in a stream of bytes.

A number is written with its lowest byte first, in a fixed number of bytes. Reading takes a piece off the
front of the stream and fails if the stream is too short. What was written is read back, whatever follows it.
-/
import Mathlib.Algebra.Ring.Nat
import Mathlib.Data.List.Basic

namespace Fsmc.ByteStream

/-- The lowest bytes of a number, the lowest first. -/
def encode : ℕ → ℕ → List UInt8
  | 0, _ => []
  | k + 1, n => UInt8.ofNat n :: encode k (n / 256)

/-- The number that bytes stand for. -/
def decode : List UInt8 → ℕ
  | [] => 0
  | b :: bs => b.toNat + 256 * decode bs

/-- The first `k` bytes, and what follows them. -/
def readBlock (k : ℕ) (bs : List UInt8) : Option (List UInt8 × List UInt8) :=
  if k ≤ bs.length then some (bs.take k, bs.drop k) else none

/-- A number of `k` bytes, and what follows it. -/
def readNat (k : ℕ) (bs : List UInt8) : Option (ℕ × List UInt8) :=
  (readBlock k bs).map fun p => (decode p.1, p.2)

/-- `n` items, one after another, and what follows them. -/
def readMany {α : Type*} (readItem : List UInt8 → Option (α × List UInt8)) :
    ℕ → List UInt8 → Option (List α × List UInt8)
  | 0, bs => some ([], bs)
  | n + 1, bs => do
    let (item, bs) ← readItem bs
    let (items, bs) ← readMany readItem n bs
    return (item :: items, bs)

/-- What follows the first `k` bytes. -/
def skip (k : ℕ) (bs : List UInt8) : Option (List UInt8) := (readBlock k bs).map (·.2)

@[simp] theorem length_encode (k n : ℕ) : (encode k n).length = k := by
  induction k generalizing n with
  | zero => rfl
  | succ k ih => rw [encode, List.length_cons, ih]

theorem decode_encode {k n : ℕ} (h : n < 256 ^ k) : decode (encode k n) = n := by
  induction k generalizing n with
  | zero =>
    have hzero : n = 0 := by simpa using h
    rw [hzero]
    rfl
  | succ k ih =>
    have hrest : n / 256 < 256 ^ k := by
      rw [pow_succ] at h
      exact Nat.div_lt_of_lt_mul (by rwa [Nat.mul_comm])
    have hlow : (UInt8.ofNat n).toNat = n % 256 := UInt8.toNat_ofNat'
    rw [encode, decode, ih hrest, hlow, Nat.mod_add_div]

theorem readBlock_append {k : ℕ} {block : List UInt8} (h : block.length = k) (rest : List UInt8) :
    readBlock k (block ++ rest) = some (block, rest) := by
  subst h
  simp [readBlock]

theorem readNat_append {k n : ℕ} (h : n < 256 ^ k) (rest : List UInt8) :
    readNat k (encode k n ++ rest) = some (n, rest) := by
  unfold readNat
  rw [readBlock_append (length_encode k n), Option.map_some, decode_encode h]

theorem skip_eq (k : ℕ) (bs : List UInt8) : skip k bs = if k ≤ bs.length then some (bs.drop k) else none := by
  unfold skip readBlock
  split <;> rfl

theorem skip_add (j k : ℕ) (bs : List UInt8) : skip (j + k) bs = (skip j bs).bind (skip k) := by
  rw [skip_eq, skip_eq]
  by_cases hj : j ≤ bs.length
  · rw [if_pos hj, Option.bind_some, skip_eq, List.length_drop, List.drop_drop]
    have hiff : j + k ≤ bs.length ↔ k ≤ bs.length - j := by omega
    simp only [hiff]
  · have hsum : ¬ j + k ≤ bs.length := by omega
    rw [if_neg hj, if_neg hsum, Option.bind_none]

theorem map_readNat (k : ℕ) (bs : List UInt8) : (readNat k bs).map (·.2) = skip k bs := by
  unfold readNat skip
  rw [Option.map_map]
  rfl

theorem readMany_succ_eq_some {α : Type*} {readItem : List UInt8 → Option (α × List UInt8)} {n : ℕ}
    {bs rest : List UInt8} {items : List α} (h : readMany readItem (n + 1) bs = some (items, rest)) :
    ∃ item bs' items', readItem bs = some (item, bs') ∧ readMany readItem n bs' = some (items', rest) ∧
      items = item :: items' := by
  rw [readMany] at h
  simp only [Option.bind_eq_bind, Option.bind_eq_some_iff] at h
  obtain ⟨⟨item, bs'⟩, hitem, ⟨items', rest'⟩, hitems, heq⟩ := h
  cases heq
  exact ⟨item, bs', items', hitem, hitems, rfl⟩

theorem length_readMany {α : Type*} {readItem : List UInt8 → Option (α × List UInt8)} :
    ∀ {n : ℕ} {bs rest : List UInt8} {items : List α}, readMany readItem n bs = some (items, rest) →
      items.length = n
  | 0, _, _, _, h => by
    cases h
    rfl
  | n + 1, bs, rest, items, h => by
    obtain ⟨item, bs', items', -, hitems, rfl⟩ := readMany_succ_eq_some h
    rw [List.length_cons, length_readMany hitems]

theorem forall_readMany {α : Type*} {readItem : List UInt8 → Option (α × List UInt8)} {p : α → Prop}
    (hp : ∀ bs item rest, readItem bs = some (item, rest) → p item) :
    ∀ {n : ℕ} {bs rest : List UInt8} {items : List α}, readMany readItem n bs = some (items, rest) →
      ∀ item ∈ items, p item
  | 0, _, _, _, h => by
    cases h
    exact fun _ hitem => (List.not_mem_nil hitem).elim
  | n + 1, bs, rest, items, h => by
    obtain ⟨item, bs', items', hitem, hitems, rfl⟩ := readMany_succ_eq_some h
    intro x hx
    rcases List.mem_cons.mp hx with rfl | hx
    · exact hp bs x bs' hitem
    · exact forall_readMany hp hitems x hx

theorem map_readMany {α : Type*} {readItem : List UInt8 → Option (α × List UInt8)} {k : ℕ}
    (h : ∀ bs, (readItem bs).map (·.2) = skip k bs) (n : ℕ) (bs : List UInt8) :
    (readMany readItem n bs).map (·.2) = skip (n * k) bs := by
  induction n generalizing bs with
  | zero => simp [readMany, skip_eq]
  | succ n ih =>
    rw [Nat.succ_mul, Nat.add_comm (n * k), skip_add, ← h bs, readMany]
    cases readItem bs with
    | none => rfl
    | some item =>
      simp only [Option.map_some, Option.bind_eq_bind, Option.bind_some, ← ih]
      cases readMany readItem n item.2 <;> rfl

theorem readMany_append {α : Type*} {readItem : List UInt8 → Option (α × List UInt8)}
    {write : α → List UInt8} : ∀ (items : List α),
    (∀ item ∈ items, ∀ rest, readItem (write item ++ rest) = some (item, rest)) → ∀ rest,
      readMany readItem items.length (items.flatMap write ++ rest) = some (items, rest)
  | [], _, _ => rfl
  | item :: items, h, rest => by
    have hitem := h item List.mem_cons_self (items.flatMap write ++ rest)
    have hitems := readMany_append items (fun x hx => h x (List.mem_cons_of_mem _ hx)) rest
    rw [List.length_cons, readMany, List.flatMap_cons, List.append_assoc, hitem]
    simp only [Option.bind_eq_bind, Option.bind_some, hitems]
    rfl

end Fsmc.ByteStream
