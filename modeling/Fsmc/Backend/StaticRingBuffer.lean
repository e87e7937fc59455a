/-
# Fsmc.Backend.StaticRingBuffer — the ring buffer of a fixed capacity.

The buffer keeps the slot of its first element, the slot after its last one, and how many there are. It is a
queue of bounded length: an operation on the slots is the operation on the list of the elements, whatever the
policy for a full buffer.
-/
import Fsmc.Lib.RingWindow
import Fsmc.Lib.Transducer

namespace Fsmc.Backend

open RingWindow

inductive OverflowPolicy where
  | dropOldest | dropIncoming | assertOnOverflow
  deriving DecidableEq, Repr

/-- `static_ring_buffer`: the storage by slots, and the indices. -/
structure StaticRingBuffer (α : Type) where
  buffer : ℕ → α
  head : ℕ := 0
  tail : ℕ := 0
  size : ℕ := 0

/-- The operations of a buffer. -/
inductive BufferOp (α : Type) where
  | push (value : α) (policy : OverflowPolicy)
  | pop
  | peek
  | clear
  deriving DecidableEq, Repr

/-- What an operation returns. -/
inductive BufferAnswer (α : Type) where
  | pushed (accepted : Bool)
  | popped (item : Option α)
  | peeked (item : Option α)
  | cleared
  deriving DecidableEq, Repr

namespace StaticRingBuffer

-- `asserts` tells whether assertions are compiled in, `moved` what an element is after it was moved from.
variable {α : Type} (asserts : Bool) (moved : α → α) (capacity : ℕ)

def isEmpty (b : StaticRingBuffer α) : Bool := b.size == 0

def full (b : StaticRingBuffer α) : Bool := b.size == capacity

/-- The end of `push`. -/
def store (b : StaticRingBuffer α) (value : α) : StaticRingBuffer α :=
  { b with
    buffer := Function.update b.buffer b.tail value
    tail := (b.tail + 1) % capacity
    size := b.size + 1 }

/-- Advance the head to drop the oldest element. -/
def dropHead (b : StaticRingBuffer α) : StaticRingBuffer α :=
  { b with head := (b.head + 1) % capacity, size := b.size - 1 }

/-- `push`. A failed assertion ends the program. -/
def push (b : StaticRingBuffer α) (value : α) (policy : OverflowPolicy) : Option (Bool × StaticRingBuffer α) :=
  if b.full capacity then
    match policy with
    | .dropIncoming => some (false, b)
    | .assertOnOverflow => if asserts then none else some (false, b)
    | .dropOldest => some (true, (b.dropHead capacity).store capacity value)
  else some (true, b.store capacity value)

def pop (b : StaticRingBuffer α) : Option α × StaticRingBuffer α :=
  if b.isEmpty then (none, b)
  else
    (some (b.buffer b.head),
      { b with
        buffer := Function.update b.buffer b.head (moved (b.buffer b.head))
        head := (b.head + 1) % capacity
        size := b.size - 1 })

def peek (b : StaticRingBuffer α) : Option α := if b.isEmpty then none else some (b.buffer b.head)

def clear (b : StaticRingBuffer α) : StaticRingBuffer α := { b with head := 0, tail := 0, size := 0 }

def step (b : StaticRingBuffer α) : BufferOp α → Option (BufferAnswer α × StaticRingBuffer α)
  | .push value policy => (b.push asserts capacity value policy).map fun r => (.pushed r.1, r.2)
  | .pop => some (.popped (b.pop moved capacity).1, (b.pop moved capacity).2)
  | .peek => some (.peeked b.peek, b)
  | .clear => some (.cleared, b.clear)

end StaticRingBuffer

/-! ## The queue -/

variable {α : Type}

/-- Put an element at the end of a queue of at most `capacity` elements. -/
def fifoPush (asserts : Bool) (capacity : ℕ) (l : List α) (value : α) (policy : OverflowPolicy) :
    Option (Bool × List α) :=
  if l.length < capacity then some (true, l ++ [value])
  else match policy with
    | .dropIncoming => some (false, l)
    | .assertOnOverflow => if asserts then none else some (false, l)
    | .dropOldest => some (true, l.tail ++ [value])

/-- An operation on a queue. -/
def fifoStep (asserts : Bool) (capacity : ℕ) (l : List α) : BufferOp α → Option (BufferAnswer α × List α)
  | .push value policy => (fifoPush asserts capacity l value policy).map fun r => (.pushed r.1, r.2)
  | .pop => some (.popped l.head?, l.tail)
  | .peek => some (.peeked l.head?, l)
  | .clear => some (.cleared, [])

namespace StaticRingBuffer

variable {α : Type} {asserts : Bool} {moved : α → α} {capacity : ℕ} {b : StaticRingBuffer α}

/-- The elements, the oldest first. -/
def toList (capacity : ℕ) (b : StaticRingBuffer α) : List α := window b.buffer capacity b.head b.size

/-- The indices are slots, the buffer is not overfull, and the tail is `size` slots after the head. -/
structure Inv (capacity : ℕ) (b : StaticRingBuffer α) : Prop where
  head_lt : b.head < capacity
  size_le : b.size ≤ capacity
  tail_eq : b.tail = (b.head + b.size) % capacity

theorem inv_empty (hc : 0 < capacity) (buffer : ℕ → α) : Inv capacity ⟨buffer, 0, 0, 0⟩ :=
  ⟨hc, hc.le, (Nat.zero_mod capacity).symm⟩

@[simp] theorem length_toList : (b.toList capacity).length = b.size := length_window

theorem Inv.store (h : Inv capacity b) (hfree : b.size < capacity) (value : α) :
    Inv capacity (b.store capacity value) where
  head_lt := h.head_lt
  size_le := hfree
  tail_eq := by
    show (b.tail + 1) % capacity = (b.head + (b.size + 1)) % capacity
    rw [h.tail_eq, Nat.mod_add_mod, Nat.add_assoc]

theorem Inv.toList_store (h : Inv capacity b) (hfree : b.size < capacity) (value : α) :
    (b.store capacity value).toList capacity = b.toList capacity ++ [value] := by
  show window (Function.update b.buffer b.tail value) capacity b.head (b.size + 1) = _
  rw [h.tail_eq, window_push hfree]
  rfl

theorem Inv.dropHead (h : Inv capacity b) (hsize : 0 < b.size) : Inv capacity (b.dropHead capacity) where
  head_lt := Nat.mod_lt _ (Nat.zero_lt_of_lt h.head_lt)
  size_le := by
    have hle := h.size_le
    show b.size - 1 ≤ capacity
    omega
  tail_eq := by
    show b.tail = ((b.head + 1) % capacity + (b.size - 1)) % capacity
    have hsum : b.head + 1 + (b.size - 1) = b.head + b.size := by omega
    rw [Nat.mod_add_mod, hsum, h.tail_eq]

theorem toList_advance (cells : ℕ → α) (head : ℕ) {size : ℕ} (hsize : 0 < size) :
    window cells capacity (head + 1) (size - 1) = (window cells capacity head size).tail := by
  obtain ⟨n, rfl⟩ : ∃ n, size = n + 1 := ⟨size - 1, by omega⟩
  rw [window_cons, List.tail_cons]
  rfl

theorem toList_dropHead (hsize : 0 < b.size) : (b.dropHead capacity).toList capacity = (b.toList capacity).tail :=
  (window_congr (Nat.mod_mod _ _)).trans (toList_advance b.buffer b.head hsize)

theorem Inv.head?_toList (h : Inv capacity b) : (b.toList capacity).head? = b.peek := by
  rw [toList, head?_window, Nat.mod_eq_of_lt h.head_lt, peek, isEmpty]
  by_cases hsize : b.size = 0 <;> simp [hsize]

theorem Inv.toList_pop (h : Inv capacity b) :
    (b.pop moved capacity).2.toList capacity = (b.toList capacity).tail := by
  unfold pop isEmpty
  split
  · next hsize =>
      have hzero : b.size = 0 := eq_of_beq hsize
      rw [toList, hzero]
      rfl
  · next hsize =>
      have hpos : 0 < b.size := Nat.pos_of_ne_zero fun hzero => hsize (beq_iff_eq.mpr hzero)
      have hle := h.size_le
      have hlt := h.head_lt
      show window (Function.update b.buffer b.head _) capacity ((b.head + 1) % capacity) (b.size - 1) = _
      rw [window_congr (Nat.mod_mod _ _), window_update]
      · exact toList_advance b.buffer b.head hpos
      intro i hi heq
      -- A later slot of the window is the head's only after a whole turn.
      have hmod : (1 + i) % capacity = 0 % capacity := by
        refine Nat.ModEq.add_left_cancel' b.head ?_
        show (b.head + (1 + i)) % capacity = (b.head + 0) % capacity
        rw [← Nat.add_assoc, heq, Nat.add_zero, Nat.mod_eq_of_lt hlt]
      rw [Nat.mod_eq_of_lt (by omega), Nat.zero_mod] at hmod
      omega

theorem Inv.pop (h : Inv capacity b) : Inv capacity (b.pop moved capacity).2 := by
  unfold StaticRingBuffer.pop isEmpty
  split
  · exact h
  · next hsize =>
      have hpos : 0 < b.size := Nat.pos_of_ne_zero fun hzero => hsize (beq_iff_eq.mpr hzero)
      have hdrop := h.dropHead hpos
      exact ⟨hdrop.head_lt, hdrop.size_le, hdrop.tail_eq⟩

theorem pop_fst : (b.pop moved capacity).1 = b.peek := by
  unfold pop peek
  split <;> rfl

theorem Inv.full_iff (h : Inv capacity b) : b.full capacity = true ↔ ¬b.size < capacity := by
  have hle := h.size_le
  rw [full, beq_iff_eq]
  omega

theorem Inv.push_view (h : Inv capacity b) (value : α) (policy : OverflowPolicy) :
    (b.push asserts capacity value policy).map (Prod.map id (toList capacity)) =
      fifoPush asserts capacity (b.toList capacity) value policy := by
  unfold StaticRingBuffer.push fifoPush
  rw [length_toList]
  by_cases hfree : b.size < capacity
  · rw [if_neg (mt h.full_iff.mp (not_not_intro hfree)), if_pos hfree]
    show some (_, (b.store capacity value).toList capacity) = _
    rw [h.toList_store hfree]
    rfl
  · rw [if_pos (h.full_iff.mpr hfree), if_neg hfree]
    cases policy with
    | dropIncoming => rfl
    | assertOnOverflow => cases asserts <;> rfl
    | dropOldest =>
      -- the head is dropped first, and then there is room
      have hlt := h.head_lt
      have hle := h.size_le
      have hpos : 0 < b.size := by omega
      have hroom : (b.dropHead capacity).size < capacity := by
        show b.size - 1 < capacity
        omega
      show some (_, ((b.dropHead capacity).store capacity value).toList capacity) = _
      rw [(h.dropHead hpos).toList_store hroom, toList_dropHead hpos]
      rfl

theorem Inv.push (h : Inv capacity b) {value : α} {policy : OverflowPolicy} {r : Bool × StaticRingBuffer α}
    (hr : b.push asserts capacity value policy = some r) : Inv capacity r.2 := by
  unfold StaticRingBuffer.push at hr
  by_cases hfree : b.size < capacity
  · rw [if_neg (mt h.full_iff.mp (not_not_intro hfree))] at hr
    obtain rfl := Option.some.inj hr
    exact h.store hfree value
  · rw [if_pos (h.full_iff.mpr hfree)] at hr
    cases policy with
    | dropIncoming =>
      obtain rfl := Option.some.inj hr
      exact h
    | assertOnOverflow =>
      cases asserts with
      | true => cases hr
      | false =>
        obtain rfl := Option.some.inj hr
        exact h
    | dropOldest =>
      obtain rfl := Option.some.inj hr
      have hlt := h.head_lt
      have hle := h.size_le
      refine (h.dropHead (by omega)).store ?_ value
      show b.size - 1 < capacity
      omega

theorem Inv.step_view (h : Inv capacity b) (op : BufferOp α) :
    (b.step asserts moved capacity op).map (Prod.map id (toList capacity)) =
      fifoStep asserts capacity (b.toList capacity) op := by
  cases op with
  | push value policy =>
    rw [StaticRingBuffer.step, fifoStep, ← h.push_view, Option.map_map, Option.map_map]
    rfl
  | pop =>
    rw [StaticRingBuffer.step, fifoStep, h.head?_toList, ← @Inv.toList_pop _ moved _ _ h, pop_fst]
    rfl
  | peek =>
    rw [StaticRingBuffer.step, fifoStep, h.head?_toList]
    rfl
  | clear => rfl

theorem Inv.step (h : Inv capacity b) (op : BufferOp α) {r : BufferAnswer α × StaticRingBuffer α}
    (hr : b.step asserts moved capacity op = some r) : Inv capacity r.2 := by
  cases op with
  | push value policy =>
    obtain ⟨r', hpush, rfl⟩ := Option.map_eq_some_iff.mp hr
    exact h.push hpush
  | pop =>
    obtain rfl := Option.some.inj hr
    exact h.pop
  | peek =>
    obtain rfl := Option.some.inj hr
    exact h
  | clear =>
    obtain rfl := Option.some.inj hr
    exact ⟨Nat.zero_lt_of_lt h.head_lt, Nat.zero_le _, (Nat.zero_mod capacity).symm⟩

theorem Inv.observers (h : Inv capacity b) :
    (b.toList capacity).length ≤ capacity ∧ b.size = (b.toList capacity).length ∧
      (b.isEmpty = true ↔ b.toList capacity = []) ∧
      (b.full capacity = true ↔ (b.toList capacity).length = capacity) ∧ b.peek = (b.toList capacity).head? := by
  refine ⟨?_, length_toList.symm, ?_, ?_, h.head?_toList.symm⟩
  · rw [length_toList]
    exact h.size_le
  · rw [isEmpty, beq_iff_eq, ← List.length_eq_zero_iff, length_toList]
  · rw [full, beq_iff_eq, length_toList]

end StaticRingBuffer

/-- Over every sequence of operations the buffer answers like the queue and holds its elements, and its observers
tell of them. Where assertions are compiled in, it stops where the queue does. -/
theorem static_ring_buffer_fifo {α : Type} (asserts : Bool) (moved : α → α) (capacity : ℕ) (hc : 0 < capacity)
    (initial : ℕ → α) (ops : List (BufferOp α)) :
    (Transducer.run (StaticRingBuffer.step asserts moved capacity) ⟨initial, 0, 0, 0⟩ ops).map
        (Prod.map id (StaticRingBuffer.toList capacity)) = Transducer.run (fifoStep asserts capacity) [] ops ∧
      ∀ answers b, Transducer.run (StaticRingBuffer.step asserts moved capacity) ⟨initial, 0, 0, 0⟩ ops =
          some (answers, b) →
        (b.toList capacity).length ≤ capacity ∧ b.size = (b.toList capacity).length ∧
          (b.isEmpty = true ↔ b.toList capacity = []) ∧
          (b.full capacity = true ↔ (b.toList capacity).length = capacity) ∧
          b.peek = (b.toList capacity).head? := by
  have hempty := StaticRingBuffer.inv_empty hc initial
  have hkeep : ∀ (b : StaticRingBuffer α) op r, StaticRingBuffer.Inv capacity b →
      b.step asserts moved capacity op = some r → StaticRingBuffer.Inv capacity r.2 :=
    fun b op r h => h.step op
  refine ⟨Transducer.run_view hkeep (fun b op h => h.step_view op) ops _ hempty, fun answers b hrun => ?_⟩
  exact (Transducer.run_invariant hkeep ops _ _ hempty hrun).observers

/-- Two slots: the third element takes the place of the first, and a fourth one is refused. -/
def overflowing : List (BufferOp ℕ) :=
  [.push 1 .dropIncoming, .push 2 .dropOldest, .push 3 .dropOldest, .push 4 .assertOnOverflow, .pop, .peek]

theorem overflowing_fifo : (Transducer.run (StaticRingBuffer.step false id 2) ⟨fun _ => 0, 0, 0, 0⟩ overflowing).map
        (Prod.map id (StaticRingBuffer.toList 2)) =
      some ([.pushed true, .pushed true, .pushed true, .pushed false, .popped (some 2), .peeked (some 3)], [3]) :=
  (static_ring_buffer_fifo false id 2 (by decide) (fun _ => 0) overflowing).1

end Fsmc.Backend
