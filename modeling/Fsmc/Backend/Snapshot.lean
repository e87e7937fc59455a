/-
# Fsmc.Backend.Snapshot — the bytes of a machine.

A snapshot is a header and a payload: the history, the active timers and the registers, whose bytes the header
has a checksum of. Reading it back checks the header, the lengths and the checksum before it changes the
machine. The deferred queue and the value of the state object are no part of it.
-/
import Fsmc.Backend.Operations
import Fsmc.Lib.ByteStream

namespace Fsmc.Backend

open ByteStream Machine

/-- A trivially copyable type: `memcpy` writes the bytes of an object and makes an object of them. -/
structure Layout (α : Type) where
  size : ℕ
  bytes : α → List UInt8
  ofBytes : List UInt8 → α
  length_bytes : ∀ a, (bytes a).length = size
  ofBytes_bytes : ∀ a, ofBytes (bytes a) = a

/-! ## The parts of a snapshot -/

def snapshotMagic : ℕ := 0x46534D43

def snapshotVersion : ℕ := 1

structure SnapshotHeader where
  magic : ℕ := snapshotMagic
  version : ℕ := snapshotVersion
  flags : ℕ := 0
  residenceTimeMs : ℕ := 0
  stateIndex : ℕ := 0
  historyCount : ℕ := 0
  timerCount : ℕ := 0
  registersSize : ℕ := 0
  payloadChecksum : ℕ := 0

/-- The bytes of the packed struct. -/
def SnapshotHeader.bytes (header : SnapshotHeader) : List UInt8 :=
  encode 4 header.magic ++ (encode 2 header.version ++ (encode 2 header.flags ++
    (encode 8 header.residenceTimeMs ++ (encode 4 header.stateIndex ++ (encode 4 header.historyCount ++
      (encode 4 header.timerCount ++ (encode 4 header.registersSize ++ encode 4 header.payloadChecksum)))))))

def readHeader (bs : List UInt8) : Option (SnapshotHeader × List UInt8) := do
  let (magic, bs) ← readNat 4 bs
  let (version, bs) ← readNat 2 bs
  let (flags, bs) ← readNat 2 bs
  let (residenceTimeMs, bs) ← readNat 8 bs
  let (stateIndex, bs) ← readNat 4 bs
  let (historyCount, bs) ← readNat 4 bs
  let (timerCount, bs) ← readNat 4 bs
  let (registersSize, bs) ← readNat 4 bs
  let (payloadChecksum, bs) ← readNat 4 bs
  return (⟨magic, version, flags, residenceTimeMs, stateIndex, historyCount, timerCount, registersSize,
    payloadChecksum⟩, bs)

def computeChecksum (data : List UInt8) : UInt32 :=
  data.foldl (fun hash b => (hash ^^^ b.toUInt32) * 16777619) 2166136261

/-- The characters of a `std::string_view` are bytes. -/
def IsByteText (text : String) : Prop := ∀ c ∈ text.toList, c.toNat < 256

instance (text : String) : Decidable (IsByteText text) :=
  List.decidableBAll _ _

def rawBytes (text : String) : List UInt8 := text.toList.map fun c => UInt8.ofNat c.toNat

def textOf (bs : List UInt8) : String := String.ofList (bs.map fun b => Char.ofNat b.toNat)

/-- A length of two bytes, and as many bytes of the text. -/
def textBytes (text : String) : List UInt8 :=
  encode 2 (rawBytes text).length ++ (rawBytes text).take ((rawBytes text).length % 65536)

def readText (bs : List UInt8) : Option (String × List UInt8) := do
  let (length, bs) ← readNat 2 bs
  let (text, bs) ← readBlock length bs
  return (textOf text, bs)

def historyBytes (entry : String × String) : List UInt8 := textBytes entry.1 ++ textBytes entry.2

def readHistory (bs : List UInt8) : Option ((String × String) × List UInt8) := do
  let (parent, bs) ← readText bs
  let (substate, bs) ← readText bs
  return ((parent, substate), bs)

def timerBytes (entry : TimerEntry) : List UInt8 :=
  encode 4 entry.timerId ++ (encode 8 entry.intervalMs ++ (encode 8 entry.elapsedMs ++
    encode 1 (if entry.periodic then 1 else 0)))

def readTimer (bs : List UInt8) : Option (TimerEntry × List UInt8) := do
  let (timerId, bs) ← readNat 4 bs
  let (intervalMs, bs) ← readNat 8 bs
  let (elapsedMs, bs) ← readNat 8 bs
  let (periodic, bs) ← readNat 1 bs
  return (⟨timerId, intervalMs, elapsedMs, periodic ≠ 0, true⟩, bs)

def TimerManager.activeEntries (timers : TimerManager) : List TimerEntry := timers.entries.filter (·.active)

variable {σ : Signature}

namespace Program

variable (P : Program σ) (L : Layout σ.Registers)

def serializedSize (m : Machine σ) : ℕ :=
  36 + (m.history.map fun entry => 2 + (rawBytes entry.1).length + (2 + (rawBytes entry.2).length)).sum +
    m.timers.activeCount * 21 + L.size

/-- What follows the header. -/
def payload (m : Machine σ) : List UInt8 :=
  m.history.flatMap historyBytes ++ (m.timers.activeEntries.flatMap timerBytes ++ L.bytes m.reg)

def snapshotHeader (m : Machine σ) : SnapshotHeader where
  residenceTimeMs := m.residence
  stateIndex := P.states.idxOf m.state
  historyCount := m.history.length
  timerCount := m.timers.activeCount
  registersSize := L.size
  payloadChecksum := (computeChecksum (payload L m)).toNat

/-- `serialize` into a buffer of the given capacity: the bytes that are written, and `bytes_written`. -/
def serialize (m : Machine σ) (capacity : ℕ) : Option (List UInt8 × ℕ) :=
  if capacity < serializedSize L m then none
  else some ((P.snapshotHeader L m).bytes ++ payload L m, serializedSize L m)

/-- The state, the history, the timers, the residence time and the registers of a machine are overwritten. The
new state object has its default value. -/
def overwrite (m : Machine σ) (state : σ.State) (history : List (String × String)) (timers : List TimerEntry)
    (residence : ℕ) (reg : σ.Registers) : Machine σ :=
  { m with
    state := state
    value := P.fresh state
    reg := reg
    history := if P.hasHistory then history.foldl (fun h e => P.recordHistory h e.1 e.2) [] else []
    timers := timers.foldl (fun ts e => ts.restoreTimer e.timerId e.intervalMs e.elapsedMs e.periodic)
      m.timers.reset
    residence := residence }

/-- `deserialize`, with `bytes_read`. All checks come before the first change. -/
def deserialize (m : Machine σ) (src : List UInt8) : Option (Machine σ × ℕ) := do
  let (header, start) ← readHeader src
  guard (header.magic = snapshotMagic ∧ header.version = snapshotVersion)
  guard (header.stateIndex < P.states.length)
  guard (header.registersSize = L.size % wrap32)
  let (history, bs) ← readMany readHistory header.historyCount start
  let (timers, bs) ← readMany readTimer header.timerCount bs
  let (registers, bs) ← readBlock header.registersSize bs
  guard ((computeChecksum (start.take (start.length - bs.length))).toNat = header.payloadChecksum)
  let state ← P.states[header.stateIndex]?
  let reg := if 0 < header.registersSize then L.ofBytes registers else m.reg
  return (P.overwrite m state history timers header.residenceTimeMs reg, src.length - bs.length)

end Program

/-! ## Reading back what was written -/

/-- The values of the members fit their types, and names are short enough for their length to be written. -/
structure Fits (P : Program σ) (L : Layout σ.Registers) (m : Machine σ) : Prop where
  state : m.state ∈ P.states
  states : P.states.length ≤ 256 ^ 4
  residence : m.residence < 256 ^ 8
  history : m.history.length < 256 ^ 4
  texts : ∀ entry ∈ m.history, (rawBytes entry.1).length < 65536 ∧ (rawBytes entry.2).length < 65536
  chars : ∀ entry ∈ m.history, IsByteText entry.1 ∧ IsByteText entry.2
  timers : m.timers.activeCount < 256 ^ 4
  timer : ∀ entry ∈ m.timers.activeEntries,
    entry.timerId < 256 ^ 4 ∧ entry.intervalMs < 256 ^ 8 ∧ entry.elapsedMs < 256 ^ 8
  registers : L.size < 256 ^ 4

theorem guard_of {p : Prop} [Decidable p] (h : p) : (guard p : Option Unit) = some () := if_pos h

theorem textOf_rawBytes {text : String} (h : IsByteText text) : textOf (rawBytes text) = text := by
  unfold textOf rawBytes
  have hchars : (text.toList.map fun c => UInt8.ofNat c.toNat).map (fun b => Char.ofNat b.toNat) =
      text.toList.map id := by
    rw [List.map_map]
    refine List.map_congr_left fun c hc => ?_
    show Char.ofNat (UInt8.ofNat c.toNat).toNat = c
    rw [UInt8.toNat_ofNat', Nat.mod_eq_of_lt (h c hc), Char.ofNat_toNat]
  rw [hchars, List.map_id, String.ofList_toList]

theorem readText_append {text : String} (hchars : IsByteText text) (h : (rawBytes text).length < 65536)
    (rest : List UInt8) :
    readText (textBytes text ++ rest) = some (text, rest) := by
  unfold readText textBytes
  have hlength : (rawBytes text).length < 256 ^ 2 := h
  rw [Nat.mod_eq_of_lt h, List.take_length, List.append_assoc, readNat_append hlength]
  simp only [Option.bind_eq_bind, Option.bind_some]
  rw [readBlock_append rfl, Option.bind_some, textOf_rawBytes hchars]
  rfl

theorem readHistory_append {entry : String × String} (hchars : IsByteText entry.1 ∧ IsByteText entry.2)
    (hparent : (rawBytes entry.1).length < 65536) (hsubstate : (rawBytes entry.2).length < 65536)
    (rest : List UInt8) :
    readHistory (historyBytes entry ++ rest) = some (entry, rest) := by
  unfold readHistory historyBytes
  rw [List.append_assoc, readText_append hchars.1 hparent]
  simp only [Option.bind_eq_bind, Option.bind_some, readText_append hchars.2 hsubstate]
  rfl

theorem readTimer_append {entry : TimerEntry} (hactive : entry.active = true) (hid : entry.timerId < 256 ^ 4)
    (hinterval : entry.intervalMs < 256 ^ 8) (helapsed : entry.elapsedMs < 256 ^ 8) (rest : List UInt8) :
    readTimer (timerBytes entry ++ rest) = some (entry, rest) := by
  obtain ⟨timerId, intervalMs, elapsedMs, periodic, active⟩ := entry
  cases hactive
  -- the flag is a byte that is zero or one
  have hperiodic : (if periodic then 1 else 0) < 256 ^ 1 := by cases periodic <;> decide
  unfold readTimer timerBytes
  simp only [List.append_assoc, readNat_append hid, readNat_append hinterval, readNat_append helapsed,
    readNat_append hperiodic, Option.bind_eq_bind, Option.bind_some]
  cases periodic <;> rfl

theorem readHeader_append {header : SnapshotHeader} (hmagic : header.magic < 256 ^ 4)
    (hversion : header.version < 256 ^ 2) (hflags : header.flags < 256 ^ 2)
    (hresidence : header.residenceTimeMs < 256 ^ 8) (hstate : header.stateIndex < 256 ^ 4)
    (hhistory : header.historyCount < 256 ^ 4) (htimers : header.timerCount < 256 ^ 4)
    (hregisters : header.registersSize < 256 ^ 4) (hchecksum : header.payloadChecksum < 256 ^ 4)
    (rest : List UInt8) : readHeader (header.bytes ++ rest) = some (header, rest) := by
  unfold readHeader SnapshotHeader.bytes
  simp only [List.append_assoc, readNat_append hmagic, readNat_append hversion, readNat_append hflags,
    readNat_append hresidence, readNat_append hstate, readNat_append hhistory, readNat_append htimers,
    readNat_append hregisters, readNat_append hchecksum, Option.bind_eq_bind, Option.bind_some]
  rfl

namespace Program

variable (P : Program σ) (L : Layout σ.Registers)

/-- Without registers there is nothing to copy and nothing to tell two values apart. -/
theorem reg_eq_of_size_zero (h : L.size = 0) (reg reg' : σ.Registers) : reg = reg' := by
  have hnil : ∀ r : σ.Registers, L.bytes r = [] :=
    fun r => List.eq_nil_of_length_eq_zero ((L.length_bytes r).trans h)
  rw [← L.ofBytes_bytes reg, ← L.ofBytes_bytes reg', hnil, hnil]

theorem deserialize_bytes {m : Machine σ} (h : Fits P L m) (into : Machine σ) :
    P.deserialize L into ((P.snapshotHeader L m).bytes ++ payload L m) =
      some (P.overwrite into m.state m.history m.timers.activeEntries m.residence m.reg,
        ((P.snapshotHeader L m).bytes ++ payload L m).length) := by
  have hindex : P.states.idxOf m.state < P.states.length := List.idxOf_lt_length_of_mem h.state
  have hmagic : snapshotMagic < 256 ^ 4 := by decide
  have hversion : snapshotVersion < 256 ^ 2 := by decide
  have hflags : 0 < 256 ^ 2 := by decide
  have hheader : readHeader ((P.snapshotHeader L m).bytes ++ payload L m) =
      some (P.snapshotHeader L m, payload L m) :=
    readHeader_append hmagic hversion hflags h.residence (hindex.trans_le h.states) h.history h.timers
      h.registers (UInt32.toNat_lt _) (payload L m)
  have hentries := readMany_append m.history
    (fun entry he rest => readHistory_append (h.chars entry he) (h.texts entry he).1 (h.texts entry he).2 rest)
    (m.timers.activeEntries.flatMap timerBytes ++ L.bytes m.reg)
  have htimers := readMany_append m.timers.activeEntries
    (fun entry he rest => readTimer_append (List.mem_filter.mp he).2 (h.timer entry he).1 (h.timer entry he).2.1
      (h.timer entry he).2.2 rest) (L.bytes m.reg)
  have hcount : m.timers.activeEntries.length = m.timers.activeCount :=
    (List.countP_eq_length_filter ..).symm
  have hregisters := readBlock_append (L.length_bytes m.reg) []
  rw [List.append_nil] at hregisters
  rw [hcount] at htimers
  have hsize : L.size % wrap32 = L.size := Nat.mod_eq_of_lt h.registers
  have hstate : P.states[P.states.idxOf m.state]? = some m.state := by
    rw [List.getElem?_eq_getElem hindex, List.getElem_idxOf]
  have hreg : (if 0 < L.size then L.ofBytes (L.bytes m.reg) else into.reg) = m.reg := by
    split
    · exact L.ofBytes_bytes m.reg
    · exact reg_eq_of_size_zero L (Nat.eq_zero_of_not_pos ‹_›) _ _
  unfold deserialize
  -- the header passes its checks, and each part is read where it was written
  rw [hheader, Option.bind_eq_bind, Option.bind_some]
  dsimp only [snapshotHeader]
  rw [guard_of ⟨rfl, rfl⟩, Option.bind_eq_bind, Option.bind_some, guard_of hindex, Option.bind_eq_bind,
    Option.bind_some, guard_of hsize.symm, Option.bind_eq_bind, Option.bind_some]
  unfold payload
  rw [hentries, Option.bind_eq_bind, Option.bind_some]
  dsimp only
  rw [htimers, Option.bind_eq_bind, Option.bind_some]
  dsimp only
  rw [hregisters, Option.bind_some]
  dsimp only
  -- nothing is left behind the registers, so that the checksum is that of the whole payload
  rw [List.length_nil, Nat.sub_zero, List.take_length, guard_of rfl, Option.bind_some, hstate, Option.bind_some,
    hreg]
  rfl

end Program

end Fsmc.Backend
