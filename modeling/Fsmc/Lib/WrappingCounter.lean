/-
# Fsmc.Lib.WrappingCounter — counters of a fixed width that run freely.

Two counters that are less than a full turn apart compare and subtract like the numbers that they stand for.
Numbers that share a slot of a ring are a whole ring apart.
-/
import Mathlib.Data.Nat.ModEq

namespace Fsmc.WrappingCounter

variable {w : ℕ}

theorem ofNat_succ (n : ℕ) : BitVec.ofNat w n + 1 = BitVec.ofNat w (n + 1) := by
  rw [BitVec.ofNat_add]
  rfl

theorem toNat_sub {m n : ℕ} (hle : m ≤ n) (hnear : n - m < 2 ^ w) :
    (BitVec.ofNat w n - BitVec.ofNat w m).toNat = n - m := by
  have hsplit : BitVec.ofNat w n = BitVec.ofNat w (n - m) + BitVec.ofNat w m := by
    rw [← BitVec.ofNat_add, Nat.sub_add_cancel hle]
  rw [hsplit, BitVec.add_sub_cancel, BitVec.toNat_ofNat, Nat.mod_eq_of_lt hnear]

theorem ofNat_eq_iff {m n : ℕ} (hle : m ≤ n) (hnear : n - m < 2 ^ w) :
    BitVec.ofNat w m = BitVec.ofNat w n ↔ m = n := by
  constructor
  · intro h
    have hsub := toNat_sub hle hnear
    rw [h, BitVec.sub_self] at hsub
    have hzero : n - m = 0 := hsub.symm
    omega
  · rintro rfl
    rfl

theorem toNat_and_mask {k : ℕ} (hk : k ≤ w) (n : ℕ) :
    (BitVec.ofNat w n &&& BitVec.ofNat w (2 ^ k - 1)).toNat = n % 2 ^ k := by
  have hpow : 2 ^ k ≤ 2 ^ w := Nat.pow_le_pow_right (by omega) hk
  have hpos : 0 < 2 ^ k := Nat.two_pow_pos k
  rw [BitVec.toNat_and, BitVec.toNat_ofNat, BitVec.toNat_ofNat, Nat.mod_eq_of_lt (a := 2 ^ k - 1) (by omega),
    Nat.and_two_pow_sub_one_eq_mod, Nat.mod_mod_of_dvd _ (Nat.pow_dvd_pow 2 hk)]

theorem mod_ne {c d i j : ℕ} (hi : d ≤ i ∧ i < d + c) (hj : d ≤ j ∧ j < d + c) (hne : i ≠ j) : i % c ≠ j % c := by
  have hlt : ∀ {a b : ℕ}, d ≤ a → a < b → b < d + c → a % c ≠ b % c := by
    intro a b ha hab hb heq
    have hdvd : c ∣ b - a := (Nat.modEq_iff_dvd' hab.le).mp heq
    have hle := Nat.le_of_dvd (by omega) hdvd
    omega
  rcases Nat.lt_or_gt_of_ne hne with h | h
  · exact hlt hi.1 h hj.2
  · exact (hlt hj.1 h hi.2).symm

end Fsmc.WrappingCounter
