/-
# Fsmc.Backend.SnapshotRecorder — the recorder of snapshots and its rollback.

The recorder keeps the newest snapshots of a machine in a ring and goes back to one of them by number or by tag.
It is an undo stack of bounded depth: recording appends, the oldest snapshot falls out when the stack is full,
and a rollback cuts the stack at the snapshot that it restores.
-/
import Fsmc.Backend.Snapshot
import Fsmc.Lib.RingWindow
import Fsmc.Lib.Transducer

namespace Fsmc.Backend

open RingWindow

structure SnapshotEntry where
  data : List UInt8 := []
  size : ℕ := 0
  tag : ℕ := 0
  timestampUs : ℕ := 0
  stepCount : ℕ := 0
  checksum : UInt32 := 0
  deriving DecidableEq, Repr

def SnapshotEntry.isValid (maxSnapshotSize : ℕ) (e : SnapshotEntry) : Bool :=
  if e.size = 0 ∨ maxSnapshotSize < e.size then false else computeChecksum (e.data.take e.size) == e.checksum

structure SnapshotRecorder where
  buffer : ℕ → SnapshotEntry := fun _ => {}
  head : ℕ := 0
  count : ℕ := 0
  totalRecorded : ℕ := 0

inductive RecorderCall where
  | record (tag timestampUs : ℕ)
  | rollback (steps : ℕ)
  | rewindToCheckpoint (tag : ℕ)
  | clear
  deriving DecidableEq, Repr

-- `serialize` gives the bytes that it writes to the front of its buffer. Where it fails it leaves the buffer
-- untouched, and where `deserialize` fails it leaves the machine unchanged.
variable {M : Type} (serialize : M → Option (List UInt8)) (deserialize : M → List UInt8 → Option M)
  (capacity maxSnapshotSize : ℕ)

namespace SnapshotRecorder

def record (r : SnapshotRecorder) (machine : M) (tag timestampUs : ℕ) : Bool × SnapshotRecorder :=
  let slot := r.head % capacity
  match serialize machine with
  | none => (false, r)
  | some bytes =>
    let data := bytes ++ (r.buffer slot).data.drop bytes.length
    let entry : SnapshotEntry :=
      ⟨data, bytes.length, tag, timestampUs, r.totalRecorded, computeChecksum (data.take bytes.length)⟩
    (true,
      { buffer := Function.update r.buffer slot entry
        head := (r.head + 1) % capacity
        count := if r.count < capacity then r.count + 1 else r.count
        totalRecorded := (r.totalRecorded + 1) % 2 ^ 64 })

def rollback (r : SnapshotRecorder) (machine : M) (steps : ℕ) : (Bool × M) × SnapshotRecorder :=
  if steps = 0 ∨ r.count < steps then ((false, machine), r)
  else
    let target := (r.head + capacity - steps) % capacity
    let entry := r.buffer target
    if entry.isValid maxSnapshotSize then
      match deserialize machine (entry.data.take entry.size) with
      | none => ((false, machine), r)
      | some restored => ((true, restored), { r with head := target, count := r.count - steps })
    else ((false, machine), r)

/-- `rewind_to_checkpoint`: the loop stops at the first step back to a valid entry with the tag. -/
def rewindToCheckpoint (r : SnapshotRecorder) (machine : M) (tag : ℕ) : (Bool × M) × SnapshotRecorder :=
  let found := (List.range r.count).find? fun i =>
    let entry := r.buffer ((r.head + capacity - (i + 1)) % capacity)
    entry.tag == tag && entry.isValid maxSnapshotSize
  match found with
  | none => ((false, machine), r)
  | some i => r.rollback deserialize capacity maxSnapshotSize machine (i + 1)

def latest (r : SnapshotRecorder) : Option SnapshotEntry :=
  if r.count = 0 then none else some (r.buffer ((r.head + capacity - 1) % capacity))

def clear (r : SnapshotRecorder) : SnapshotRecorder := { r with head := 0, count := 0 }

/-- A call for a machine: what it returns, the machine and the recorder after it. -/
def call (r : SnapshotRecorder) (machine : M) : RecorderCall → (Bool × M) × SnapshotRecorder
  | .record tag timestampUs =>
    (((r.record serialize capacity machine tag timestampUs).1, machine),
      (r.record serialize capacity machine tag timestampUs).2)
  | .rollback steps => r.rollback deserialize capacity maxSnapshotSize machine steps
  | .rewindToCheckpoint tag => r.rewindToCheckpoint deserialize capacity maxSnapshotSize machine tag
  | .clear => ((true, machine), r.clear)

end SnapshotRecorder

/-! ## The undo stack -/

/-- A snapshot that was recorded. -/
structure Snapshot where
  bytes : List UInt8
  tag : ℕ
  timestampUs : ℕ
  stepCount : ℕ
  deriving DecidableEq, Repr

/-- A snapshot that can be restored is not empty and fits an entry. -/
def Snapshot.valid (maxSnapshotSize : ℕ) (s : Snapshot) : Bool :=
  decide (s.bytes ≠ [] ∧ s.bytes.length ≤ maxSnapshotSize)

/-- The snapshots, the oldest first, and the number of records so far. -/
structure UndoStack where
  snapshots : List Snapshot := []
  totalRecorded : ℕ := 0
  deriving DecidableEq, Repr

namespace UndoStack

/-- The newest elements of a list. -/
def keepNewest {α : Type} (capacity : ℕ) (l : List α) : List α := l.drop (l.length - capacity)

/-- Append a snapshot. -/
def record (s : UndoStack) (machine : M) (tag timestampUs : ℕ) : Bool × UndoStack :=
  match serialize machine with
  | none => (false, s)
  | some bytes =>
    (true, ⟨keepNewest capacity (s.snapshots ++ [⟨bytes, tag, timestampUs, s.totalRecorded⟩]),
      (s.totalRecorded + 1) % 2 ^ 64⟩)

/-- Restore the k-th newest snapshot, and cut the stack there. -/
def rollback (s : UndoStack) (machine : M) : ℕ → (Bool × M) × UndoStack
  | 0 => ((false, machine), s)
  | k + 1 =>
    match (s.snapshots.reverse[k]?).filter (Snapshot.valid maxSnapshotSize) |>.bind
        fun snapshot => deserialize machine snapshot.bytes with
    | none => ((false, machine), s)
    | some restored => ((true, restored), { s with snapshots := s.snapshots.take (s.snapshots.length - (k + 1)) })

/-- Restore the newest valid snapshot with a tag. -/
def rewindToCheckpoint (s : UndoStack) (machine : M) (tag : ℕ) : (Bool × M) × UndoStack :=
  match s.snapshots.reverse.findIdx? fun snapshot => snapshot.tag == tag && snapshot.valid maxSnapshotSize with
  | none => ((false, machine), s)
  | some i => s.rollback deserialize maxSnapshotSize machine (i + 1)

def call (s : UndoStack) (machine : M) : RecorderCall → (Bool × M) × UndoStack
  | .record tag timestampUs =>
    (((s.record serialize capacity machine tag timestampUs).1, machine),
      (s.record serialize capacity machine tag timestampUs).2)
  | .rollback steps => s.rollback deserialize maxSnapshotSize machine steps
  | .rewindToCheckpoint tag => s.rewindToCheckpoint deserialize maxSnapshotSize machine tag
  | .clear => ((true, machine), { s with snapshots := [] })

end UndoStack

/-! ## The ring as a stack -/

/-- An entry as it was recorded. -/
def SnapshotEntry.snapshot (e : SnapshotEntry) : Snapshot := ⟨e.data.take e.size, e.tag, e.timestampUs, e.stepCount⟩

/-- The size of an entry and its checksum are those of its bytes. -/
structure SnapshotEntry.Sealed (e : SnapshotEntry) : Prop where
  size_eq : (e.data.take e.size).length = e.size
  checksum_eq : e.checksum = computeChecksum (e.data.take e.size)

theorem SnapshotEntry.Sealed.isValid {e : SnapshotEntry} (h : e.Sealed) :
    e.isValid maxSnapshotSize = e.snapshot.valid maxSnapshotSize := by
  have hsize := h.size_eq
  have hempty : e.data.take e.size = [] ↔ e.size = 0 := by rw [← List.length_eq_zero_iff, hsize]
  show (if e.size = 0 ∨ maxSnapshotSize < e.size then false else computeChecksum (e.data.take e.size) == e.checksum) =
    decide (e.data.take e.size ≠ [] ∧ (e.data.take e.size).length ≤ maxSnapshotSize)
  rw [hsize, ← h.checksum_eq, beq_self_eq_true]
  by_cases hbad : e.size = 0 ∨ maxSnapshotSize < e.size
  · rw [if_pos hbad]
    refine (decide_eq_false ?_).symm
    rintro ⟨hne, hle⟩
    have hpos := mt hempty.mpr hne
    omega
  · rw [if_neg hbad]
    refine (decide_eq_true ⟨?_, by omega⟩).symm
    rw [Ne, hempty]
    omega

theorem findIdx?_eq_find?_range {α : Type} {q : α → Bool} {p : ℕ → Bool} :
    ∀ {l : List α}, (∀ i x, l[i]? = some x → p i = q x) → l.findIdx? q = (List.range l.length).find? p
  | [], _ => rfl
  | x :: l, h => by
    have hhead : p 0 = q x := h 0 x rfl
    have htail := @findIdx?_eq_find?_range α q (p ∘ Nat.succ) l fun i y hy => h (i + 1) y hy
    rw [List.findIdx?_cons, List.length_cons, List.range_succ_eq_map, List.find?_cons, hhead, List.find?_map, htail]
    cases q x <;> rfl

namespace SnapshotRecorder

variable {serialize deserialize capacity maxSnapshotSize} {r : SnapshotRecorder}

/-- The entries in use, the oldest first. -/
def entries (capacity : ℕ) (r : SnapshotRecorder) : List SnapshotEntry :=
  window r.buffer capacity (r.head + capacity - r.count) r.count

def stack (capacity : ℕ) (r : SnapshotRecorder) : UndoStack :=
  ⟨(r.entries capacity).map SnapshotEntry.snapshot, r.totalRecorded⟩

/-- The head is a slot, the ring is not overfull, and the entries in use are sealed. -/
structure Inv (capacity : ℕ) (r : SnapshotRecorder) : Prop where
  head_lt : r.head < capacity
  count_le : r.count ≤ capacity
  isSealed : ∀ e ∈ r.entries capacity, e.Sealed

theorem inv_empty (hc : 0 < capacity) (buffer : ℕ → SnapshotEntry) : Inv capacity ⟨buffer, 0, 0, 0⟩ :=
  ⟨hc, Nat.zero_le _, List.forall_mem_nil _⟩

@[simp] theorem length_entries : (r.entries capacity).length = r.count := length_window

theorem Inv.getElem?_reverse (h : Inv capacity r) {i : ℕ} (hi : i < r.count) :
    (r.entries capacity).reverse[i]? = some (r.buffer ((r.head + capacity - (i + 1)) % capacity)) := by
  have hle := h.count_le
  have hslot : r.head + capacity - r.count + (r.count - 1 - i) = r.head + capacity - (i + 1) := by omega
  rw [List.getElem?_reverse (by rw [length_entries]; exact hi), length_entries, entries,
    getElem?_window (by omega), hslot]

/-- The entry of a record goes behind the newest one; in a full ring it takes the place of the oldest. -/
theorem Inv.entries_record (h : Inv capacity r) (e : SnapshotEntry) (total : ℕ) : entries capacity
        { buffer := Function.update r.buffer (r.head % capacity) e
          head := (r.head + 1) % capacity
          count := if r.count < capacity then r.count + 1 else r.count
          totalRecorded := total } =
      UndoStack.keepNewest capacity (r.entries capacity ++ [e]) := by
  have hlt := h.head_lt
  have hle := h.count_le
  unfold entries UndoStack.keepNewest
  rw [List.length_append, List.length_singleton, length_window]
  by_cases hroom : r.count < capacity
  · -- the window stays where it starts and gets longer
    have hslot : (r.head + capacity - r.count + r.count) % capacity = r.head % capacity := by
      rw [Nat.sub_add_cancel (by omega), Nat.add_mod_right]
    have hstart : ((r.head + 1) % capacity + capacity - (r.count + 1)) % capacity =
        (r.head + capacity - r.count) % capacity := by
      rw [Nat.add_sub_assoc (by omega), Nat.mod_add_mod]
      congr 1
      omega
    have hnone : r.count + 1 - capacity = 0 := by omega
    rw [hnone, List.drop_zero]
    show window _ capacity ((r.head + 1) % capacity + capacity - if r.count < capacity then r.count + 1 else r.count)
      (if r.count < capacity then r.count + 1 else r.count) = _
    rw [if_pos hroom, window_congr hstart, ← hslot, window_push hroom]
  · -- the head goes over the oldest entry, and the window moves on
    have hfull : r.count = capacity := by omega
    have hone : r.count + 1 - capacity = 1 := by omega
    rw [hone, List.drop_one]
    show window _ capacity ((r.head + 1) % capacity + capacity - if r.count < capacity then r.count + 1 else r.count)
      (if r.count < capacity then r.count + 1 else r.count) = _
    have hne : window r.buffer capacity r.head capacity ≠ [] := by
      intro hnil
      have hlength := congrArg List.length hnil
      rw [length_window, List.length_nil] at hlength
      omega
    rw [if_neg hroom, hfull, Nat.add_sub_cancel, Nat.add_sub_cancel, window_congr (Nat.mod_mod _ _),
      window_overwrite (by omega), List.tail_append_of_ne_nil hne]

theorem Inv.record (h : Inv capacity r) (machine : M) (tag timestampUs : ℕ) :
    Inv capacity (r.record serialize capacity machine tag timestampUs).2 := by
  unfold SnapshotRecorder.record
  cases hbytes : serialize machine with
  | none => exact h
  | some bytes =>
    have hle := h.count_le
    refine ⟨Nat.mod_lt _ (Nat.zero_lt_of_lt h.head_lt), ?_, ?_⟩
    · show (if r.count < capacity then r.count + 1 else r.count) ≤ capacity
      split <;> omega
    · intro e he
      rw [h.entries_record] at he
      rcases List.mem_append.mp (List.mem_of_mem_drop he) with he | he
      · exact h.isSealed e he
      · rw [List.mem_singleton.mp he]
        refine ⟨?_, rfl⟩
        show ((bytes ++ _).take bytes.length).length = bytes.length
        rw [List.take_left]

theorem Inv.stack_record (h : Inv capacity r) (machine : M) (tag timestampUs : ℕ) :
    ((r.record serialize capacity machine tag timestampUs).1,
        (r.record serialize capacity machine tag timestampUs).2.stack capacity) =
      (r.stack capacity).record serialize capacity machine tag timestampUs := by
  unfold SnapshotRecorder.record UndoStack.record
  cases hbytes : serialize machine with
  | none => rfl
  | some bytes =>
    refine Prod.ext rfl ?_
    show stack capacity _ = _
    unfold stack
    rw [h.entries_record]
    simp only [UndoStack.keepNewest, List.map_drop, List.map_append, List.map_singleton, List.length_append,
      List.length_map, List.length_singleton]
    simp only [SnapshotEntry.snapshot, List.take_left]

theorem Inv.entries_rollback (h : Inv capacity r) {k : ℕ} (hk : k ≤ r.count) :
    entries capacity { r with head := (r.head + capacity - k) % capacity, count := r.count - k } =
      (r.entries capacity).take (r.count - k) := by
  have hle := h.count_le
  have hstart : ((r.head + capacity - k) % capacity + capacity - (r.count - k)) % capacity =
      (r.head + capacity - r.count) % capacity := by
    have hsum : r.head + capacity - k + (capacity - (r.count - k)) = r.head + capacity - r.count + capacity := by
      omega
    rw [Nat.add_sub_assoc (by omega), Nat.mod_add_mod, hsum, Nat.add_mod_right]
  show window r.buffer capacity ((r.head + capacity - k) % capacity + capacity - (r.count - k)) (r.count - k) = _
  rw [window_congr hstart, entries, take_window (Nat.sub_le _ _)]

theorem Inv.rollback (h : Inv capacity r) (machine : M) (steps : ℕ) :
    Inv capacity (r.rollback deserialize capacity maxSnapshotSize machine steps).2 := by
  unfold SnapshotRecorder.rollback
  split
  · exact h
  · next hsteps =>
      dsimp only
      split
      · cases deserialize machine _ with
        | none => exact h
        | some restored =>
          have hle := h.count_le
          refine ⟨Nat.mod_lt _ (Nat.zero_lt_of_lt h.head_lt), ?_, fun e he => ?_⟩
          · show r.count - steps ≤ capacity
            omega
          · rw [h.entries_rollback (by omega)] at he
            exact h.isSealed e (List.mem_of_mem_take he)
      · exact h

theorem Inv.stack_rollback (h : Inv capacity r) (machine : M) (steps : ℕ) :
    Prod.map id (stack capacity) (r.rollback deserialize capacity maxSnapshotSize machine steps) =
      (r.stack capacity).rollback deserialize maxSnapshotSize machine steps := by
  cases steps with
  | zero => rfl
  | succ k =>
    have hget : (r.stack capacity).snapshots.reverse[k]? =
        ((r.entries capacity).reverse[k]?).map SnapshotEntry.snapshot := by
      show ((r.entries capacity).map SnapshotEntry.snapshot).reverse[k]? = _
      rw [← List.map_reverse, List.getElem?_map]
    unfold SnapshotRecorder.rollback
    rw [UndoStack.rollback, hget]
    by_cases hk : k < r.count
    · have hmem := List.mem_of_getElem? (h.getElem?_reverse hk)
      have hsealed := h.isSealed _ (List.mem_reverse.mp hmem)
      rw [h.getElem?_reverse hk, if_neg (by omega)]
      dsimp only [Option.map_some]
      rw [hsealed.isValid]
      by_cases hvalid : (r.buffer ((r.head + capacity - (k + 1)) % capacity)).snapshot.valid maxSnapshotSize = true
      · rw [if_pos hvalid, Option.filter_some, if_pos hvalid, Option.bind_some]
        show Prod.map id (stack capacity) (match deserialize machine (SnapshotEntry.snapshot _).bytes with
          | none => _
          | some restored => _) = _
        cases deserialize machine _ with
        | none => rfl
        | some restored =>
          -- the entries behind the one that is restored are given up
          refine Prod.ext rfl ?_
          show stack capacity { r with head := _, count := _ } = _
          unfold stack
          rw [h.entries_rollback hk, List.map_take, List.length_map, length_entries]
      · rw [if_neg hvalid, Option.filter_some, if_neg hvalid]
        rfl
    · rw [if_pos (by omega), List.getElem?_eq_none (by rw [List.length_reverse, length_entries]; omega)]
      rfl

theorem Inv.rewindToCheckpoint (h : Inv capacity r) (machine : M) (tag : ℕ) :
    Inv capacity (r.rewindToCheckpoint deserialize capacity maxSnapshotSize machine tag).2 := by
  unfold SnapshotRecorder.rewindToCheckpoint
  dsimp only
  split
  · exact h
  · exact h.rollback machine _

theorem Inv.stack_rewindToCheckpoint (h : Inv capacity r) (machine : M) (tag : ℕ) :
    Prod.map id (stack capacity) (r.rewindToCheckpoint deserialize capacity maxSnapshotSize machine tag) =
      (r.stack capacity).rewindToCheckpoint deserialize maxSnapshotSize machine tag := by
  have hfind : (r.stack capacity).snapshots.reverse.findIdx?
        (fun snapshot => snapshot.tag == tag && snapshot.valid maxSnapshotSize) =
      (List.range r.count).find? fun i =>
        (r.buffer ((r.head + capacity - (i + 1)) % capacity)).tag == tag &&
          (r.buffer ((r.head + capacity - (i + 1)) % capacity)).isValid maxSnapshotSize := by
    have hlength : (r.stack capacity).snapshots.reverse.length = r.count := by
      show (((r.entries capacity).map SnapshotEntry.snapshot).reverse).length = r.count
      rw [List.length_reverse, List.length_map, length_entries]
    rw [← hlength]
    refine findIdx?_eq_find?_range fun i s hs => ?_
    have hi : i < r.count := hlength ▸ (List.getElem?_eq_some_iff.mp hs).1
    have hentry := h.getElem?_reverse hi
    have hget : ((r.entries capacity).map SnapshotEntry.snapshot).reverse[i]? = some s := hs
    rw [← List.map_reverse, List.getElem?_map, hentry] at hget
    obtain rfl := Option.some.inj hget
    rw [(h.isSealed _ (List.mem_reverse.mp (List.mem_of_getElem? hentry))).isValid]
    rfl
  unfold SnapshotRecorder.rewindToCheckpoint UndoStack.rewindToCheckpoint
  rw [hfind]
  dsimp only
  cases (List.range r.count).find? _ with
  | none => rfl
  | some i => exact h.stack_rollback machine (i + 1)

theorem Inv.call (h : Inv capacity r) (machine : M) (c : RecorderCall) :
    Inv capacity (r.call serialize deserialize capacity maxSnapshotSize machine c).2 := by
  cases c with
  | record tag timestampUs => exact h.record machine tag timestampUs
  | rollback steps => exact h.rollback machine steps
  | rewindToCheckpoint tag => exact h.rewindToCheckpoint machine tag
  | clear => exact ⟨Nat.zero_lt_of_lt h.head_lt, Nat.zero_le _, List.forall_mem_nil _⟩

theorem Inv.stack_call (h : Inv capacity r) (machine : M) (c : RecorderCall) :
    Prod.map id (stack capacity) (r.call serialize deserialize capacity maxSnapshotSize machine c) =
      (r.stack capacity).call serialize deserialize capacity maxSnapshotSize machine c := by
  cases c with
  | record tag timestampUs =>
    have hrecord := @Inv.stack_record _ serialize _ _ h machine tag timestampUs
    rw [SnapshotRecorder.call, UndoStack.call, ← hrecord]
    rfl
  | rollback steps => exact h.stack_rollback machine steps
  | rewindToCheckpoint tag => exact h.stack_rewindToCheckpoint machine tag
  | clear => rfl

theorem call_eq_of_fail {machine : M} {c : RecorderCall}
    (hfail : (r.call serialize deserialize capacity maxSnapshotSize machine c).1.1 = false) :
    r.call serialize deserialize capacity maxSnapshotSize machine c = ((false, machine), r) := by
  have hrollback : ∀ steps, (r.rollback deserialize capacity maxSnapshotSize machine steps).1.1 = false →
      r.rollback deserialize capacity maxSnapshotSize machine steps = ((false, machine), r) := by
    intro steps hfail
    unfold SnapshotRecorder.rollback at hfail ⊢
    split
    · rfl
    · next hsteps =>
        rw [if_neg hsteps] at hfail
        dsimp only at hfail ⊢
        split
        · next hvalid =>
            rw [if_pos hvalid] at hfail
            cases hdata : deserialize machine _ with
            | none => rfl
            | some restored =>
              rw [hdata] at hfail
              cases hfail
        · rfl
  cases c with
  | record tag timestampUs =>
    unfold SnapshotRecorder.call SnapshotRecorder.record at hfail ⊢
    cases hbytes : serialize machine with
    | none => rfl
    | some bytes =>
      rw [hbytes] at hfail
      cases hfail
  | rollback steps => exact hrollback steps hfail
  | rewindToCheckpoint tag =>
    show r.rewindToCheckpoint deserialize capacity maxSnapshotSize machine tag = _
    replace hfail : (r.rewindToCheckpoint deserialize capacity maxSnapshotSize machine tag).1.1 = false := hfail
    unfold SnapshotRecorder.rewindToCheckpoint at hfail ⊢
    dsimp only at hfail ⊢
    cases hfind : (List.range r.count).find? _ with
    | none => rfl
    | some i =>
      rw [hfind] at hfail
      exact hrollback (i + 1) hfail
  | clear => cases hfail

theorem Inv.observers (h : Inv capacity r) : r.count = (r.stack capacity).snapshots.length ∧ r.count ≤ capacity ∧
      (r.latest capacity).map SnapshotEntry.snapshot = (r.stack capacity).snapshots.getLast? := by
  refine ⟨?_, h.count_le, ?_⟩
  · show r.count = ((r.entries capacity).map SnapshotEntry.snapshot).length
    rw [List.length_map, length_entries]
  · show _ = ((r.entries capacity).map SnapshotEntry.snapshot).getLast?
    have hle := h.count_le
    rw [List.getLast?_map, entries, getLast?_window, latest, Nat.sub_add_cancel (by omega)]

end SnapshotRecorder

/-- One call of a run; the machine may be another one, or in another state, at every call. -/
def recorderStep (r : SnapshotRecorder) (a : M × RecorderCall) : Option ((Bool × M) × SnapshotRecorder) :=
  some (r.call serialize deserialize capacity maxSnapshotSize a.1 a.2)

/-- One call of a run of the undo stack. -/
def undoStep (s : UndoStack) (a : M × RecorderCall) : Option ((Bool × M) × UndoStack) :=
  some (s.call serialize deserialize capacity maxSnapshotSize a.1 a.2)

/-- Over every sequence of calls the recorder answers like the undo stack and holds its snapshots. A failing call
changes neither the recorder nor the machine. -/
theorem snapshot_recorder_undo_stack (hc : 0 < capacity) (calls : List (M × RecorderCall)) :
    (Transducer.run (recorderStep serialize deserialize capacity maxSnapshotSize) {} calls).map
        (Prod.map id (SnapshotRecorder.stack capacity)) =
      Transducer.run (undoStep serialize deserialize capacity maxSnapshotSize) {} calls ∧
    ∀ answers r, Transducer.run (recorderStep serialize deserialize capacity maxSnapshotSize) {} calls =
        some (answers, r) →
      r.count = (r.stack capacity).snapshots.length ∧ r.count ≤ capacity ∧
        (r.latest capacity).map SnapshotEntry.snapshot = (r.stack capacity).snapshots.getLast? ∧
        ∀ machine c, (r.call serialize deserialize capacity maxSnapshotSize machine c).1.1 = false →
          r.call serialize deserialize capacity maxSnapshotSize machine c = ((false, machine), r) := by
  have hempty := SnapshotRecorder.inv_empty hc fun _ => ({} : SnapshotEntry)
  have hkeep : ∀ r a q, SnapshotRecorder.Inv capacity r →
      recorderStep serialize deserialize capacity maxSnapshotSize r a = some q →
        SnapshotRecorder.Inv capacity q.2 := by
    intro r a q h hq
    obtain rfl := Option.some.inj hq
    exact h.call a.1 a.2
  have hstep : ∀ r a, SnapshotRecorder.Inv capacity r →
      (recorderStep serialize deserialize capacity maxSnapshotSize r a).map
          (Prod.map id (SnapshotRecorder.stack capacity)) =
        undoStep serialize deserialize capacity maxSnapshotSize (r.stack capacity) a :=
    fun r a h => congrArg some (h.stack_call a.1 a.2)
  constructor
  · exact Transducer.run_view hkeep hstep calls _ hempty
  · intro answers r hrun
    obtain ⟨hcount, hle, hlatest⟩ := (Transducer.run_invariant hkeep calls _ _ hempty hrun).observers
    exact ⟨hcount, hle, hlatest, fun machine c => SnapshotRecorder.call_eq_of_fail⟩

/-- A machine of one byte, recorded three times in a ring of two, taken back, recorded again and rewound. -/
def rewindingCalls : List (UInt8 × RecorderCall) :=
  [(1, .record 10 0), (2, .record 20 0), (3, .record 30 0), (4, .rollback 1), (5, .record 20 0),
    (6, .rewindToCheckpoint 20), (7, .rollback 2)]

theorem rewindingCalls_undo_stack :
    (Transducer.run (recorderStep (fun b : UInt8 => some [b]) (fun _ bytes => bytes.head?) 2 1) {}
        rewindingCalls).map (Prod.map id (SnapshotRecorder.stack 2)) =
      some ([(true, 1), (true, 2), (true, 3), (true, 3), (true, 5), (true, 5), (false, 7)],
        ⟨[⟨[2], 20, 0, 1⟩], 4⟩) :=
  (snapshot_recorder_undo_stack (fun b : UInt8 => some [b]) (fun _ bytes => bytes.head?) 2 1 (by decide)
    rewindingCalls).1

end Fsmc.Backend
