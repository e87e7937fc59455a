/-
# Fsmc.Lib.RingWindow — the part of a circular array that is in use.

The cells of an array are numbered modulo its length. A window is the list of the cells from a start on: it
grows at its end by writing the next cell, and shrinks at either end without touching the array. Where a full
window grows, the cell that is written is the one at its front.
-/
import Mathlib.Data.List.Basic
import Mathlib.Data.Nat.ModEq
import Mathlib.Logic.Function.Basic

namespace Fsmc.RingWindow

variable {α : Type*} {cells : ℕ → α} {c start start' n k : ℕ} {v : α}

/-- The contents of the `n` cells from `start` on. -/
def window (cells : ℕ → α) (c start n : ℕ) : List α := (List.range n).map fun i => cells ((start + i) % c)

@[simp] theorem window_zero : window cells c start 0 = [] := rfl

@[simp] theorem length_window : (window cells c start n).length = n := by
  simp [window]

theorem window_succ : window cells c start (n + 1) = window cells c start n ++ [cells ((start + n) % c)] := by
  simp [window, List.range_succ]

theorem window_congr (h : start % c = start' % c) : window cells c start n = window cells c start' n :=
  List.map_congr_left fun i _ => congrArg cells (Nat.ModEq.add_right i h)

theorem window_cons : window cells c start (n + 1) = cells (start % c) :: window cells c (start + 1) n := by
  simp only [window, List.range_succ_eq_map, List.map_cons, List.map_map, Nat.add_zero]
  refine congrArg _ (List.map_congr_left fun i _ => congrArg cells ?_)
  show (start + (i + 1)) % c = (start + 1 + i) % c
  rw [Nat.add_right_comm, Nat.add_assoc]

theorem head?_window : (window cells c start n).head? = if n = 0 then none else some (cells (start % c)) := by
  cases n with
  | zero => rfl
  | succ n => rw [window_cons]; rfl

theorem getLast?_window :
    (window cells c start n).getLast? = if n = 0 then none else some (cells ((start + n - 1) % c)) := by
  cases n with
  | zero => rfl
  | succ n => rw [window_succ, List.getLast?_concat]; rfl

theorem getElem?_window (hk : k < n) : (window cells c start n)[k]? = some (cells ((start + k) % c)) := by
  simp [window, hk]

theorem take_window (hk : k ≤ n) : (window cells c start n).take k = window cells c start k := by
  rw [window, ← List.map_take, List.take_range, Nat.min_eq_left hk, window]

theorem window_update {j : ℕ} (hj : ∀ i < n, (start + i) % c ≠ j) :
    window (Function.update cells j v) c start n = window cells c start n :=
  List.map_congr_left fun i hi => Function.update_of_ne (hj i (List.mem_range.mp hi)) v cells

theorem window_push (hn : n < c) :
    window (Function.update cells ((start + n) % c) v) c start (n + 1) = window cells c start n ++ [v] := by
  have hfree : ∀ i < n, (start + i) % c ≠ (start + n) % c := by
    intro i hi heq
    have hmod : i % c = n % c := Nat.ModEq.add_left_cancel' start heq
    rw [Nat.mod_eq_of_lt (by omega), Nat.mod_eq_of_lt hn] at hmod
    omega
  rw [window_succ, window_update hfree, Function.update_self]

theorem window_overwrite (hc : 0 < c) :
    window (Function.update cells (start % c) v) c (start + 1) c = (window cells c start c).tail ++ [v] := by
  obtain ⟨n, rfl⟩ : ∃ n, c = n + 1 := ⟨c - 1, by omega⟩
  have hslot : (start + 1 + n) % (n + 1) = start % (n + 1) := by
    rw [Nat.add_assoc, Nat.add_comm 1 n, Nat.add_mod_right]
  rw [← hslot, window_push (by omega), window_cons, List.tail_cons]

end Fsmc.RingWindow
