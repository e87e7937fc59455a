/-
# Fsmc.Frontend.SlxArchive — the model file in an archive.

Offsets and sizes are read from the archive and added in 32 bits or in 64. Every read is in bounds exactly when no
entry that is looked at has a header that only the wrapped sum lets pass, or is stored with more bytes than the size
that is checked. Both loops end.
-/
import Fsmc.Cpp.Text
import Fsmc.Lib.ByteStream

namespace Fsmc.Frontend.SlxArchive

open Fsmc.Cpp Fsmc.ByteStream

/-! ## Reading -/

/-- What may go wrong: a byte outside the input is read, or a loop has not ended. -/
inductive Fault where
  | outside
  | running
  deriving DecidableEq, Repr

def slice (bytes : List UInt8) (pos n : ℕ) : List UInt8 := (bytes.drop pos).take n

/-- The number of `n` bytes at a place. -/
def word (n : ℕ) (bytes : List UInt8) (pos : ℕ) : ℕ := decode (slice bytes pos n)

def read (bytes : List UInt8) (pos n : ℕ) : Except Fault (List UInt8) :=
  if pos + n ≤ bytes.length then .ok (slice bytes pos n) else .error .outside

/-- `read_u16_le` and `read_u32_le`. -/
def readWord (n : ℕ) (bytes : List UInt8) (pos : ℕ) : Except Fault ℕ := (read bytes pos n).map decode

/-- A sum of 32-bit numbers. -/
def wrap (n : ℕ) : ℕ := n % 2 ^ 32

/-- `inflate`: the decompressed bytes, or the text of an error. -/
abbrev Inflate := List UInt8 → ℕ → Except String (List UInt8)

def decompressEntry (inflate : Inflate) (bytes : List UInt8) (method dataOffset compSize uncompSize : ℕ) :
    Except Fault (Except String (List UInt8)) :=
  if method = 0 then (read bytes dataOffset uncompSize).map .ok
  else if method = 8 then (read bytes dataOffset compSize).map fun input => inflate input uncompSize
  else .ok (.error ("Stateflow Parser: Unsupported compression method (" ++ toString method ++ ") in .slx"))

/-- The characters of a file name. -/
def nameOf (bytes : List UInt8) : List Char := bytes.map fun b => Char.ofNat b.toNat

def isStateflow (filename : List Char) : Bool := (findSub "stateflow.xml".toList filename).isSome

def isBlockdiagram (filename : List Char) : Bool :=
  !isStateflow filename && (findSub "blockdiagram.xml".toList filename).isSome

/-- How a loop over entries ends: with a result, or with the block diagram that was found. -/
inductive Found where
  | done (result : Except String (List UInt8))
  | goOn (fallback : List UInt8)

/-! ## The central directory -/

/-- An entry of the central directory. -/
structure Central where
  method : ℕ
  compSize : ℕ
  uncompSize : ℕ
  fnLen : ℕ
  extraLen : ℕ
  commentLen : ℕ
  localHdrOffset : ℕ
  deriving DecidableEq, Repr

/-- How many bytes the entry takes in the directory. -/
def Central.size (r : Central) : ℕ := 46 + r.fnLen + r.extraLen + r.commentLen

/-- Reads the numbers of an entry. -/
def readCentral (bytes : List UInt8) (pos : ℕ) : Except Fault Central := do
  let method ← readWord 2 bytes (pos + 10)
  let compSize ← readWord 4 bytes (pos + 20)
  let uncompSize ← readWord 4 bytes (pos + 24)
  let fnLen ← readWord 2 bytes (pos + 28)
  let extraLen ← readWord 2 bytes (pos + 30)
  let commentLen ← readWord 2 bytes (pos + 32)
  let localHdrOffset ← readWord 4 bytes (pos + 42)
  return { method, compSize, uncompSize, fnLen, extraLen, commentLen, localHdrOffset }

/-- The content of an entry, if its header and its data are taken to be in the input. -/
def centralContent (inflate : Inflate) (bytes : List UInt8) (r : Central) (filename : List Char) :
    Except Fault (Option (Except String (List UInt8))) :=
  if (isStateflow filename || isBlockdiagram filename) ∧ wrap (r.localHdrOffset + 30) ≤ bytes.length then do
    let locFnLen ← readWord 2 bytes (r.localHdrOffset + 26)
    let locExtraLen ← readWord 2 bytes (r.localHdrOffset + 28)
    let dataOffset := wrap (r.localHdrOffset + 30 + locFnLen + locExtraLen)
    if dataOffset + r.compSize ≤ bytes.length then
      (decompressEntry inflate bytes r.method dataOffset r.compSize r.uncompSize).map some
    else return none
  else return none

/-- The loop over the central directory. -/
def centralLoop (inflate : Inflate) (bytes : List UInt8) : ℕ → ℕ → List UInt8 → Except Fault Found
  | 0, _, fallback => .ok (.goOn fallback)
  | n + 1, pos, fallback =>
    if pos + 46 ≤ bytes.length then do
      let signature ← readWord 4 bytes pos
      if signature ≠ 0x02014b50 then return .goOn fallback
      let r ← readCentral bytes pos
      if pos + 46 + r.fnLen > bytes.length then return .goOn fallback
      let filename := nameOf (← read bytes (pos + 46) r.fnLen)
      let next := pos + r.size
      match ← centralContent inflate bytes r filename with
      | none => centralLoop inflate bytes n next fallback
      | some (.ok out) =>
        if isStateflow filename then return .done (.ok out)
        else centralLoop inflate bytes n next (if fallback = [] then out else fallback)
      | some (.error err) =>
        if isStateflow filename then return .done (.error err)
        else centralLoop inflate bytes n next fallback
    else return .goOn fallback

/-- The search for the end of the central directory, from a place down to the first one to look at. -/
def findEocd (bytes : List UInt8) (searchStart : ℕ) : ℕ → Except Fault (Option ℕ)
  | 0 => do
    if 0 < searchStart then return none
    let signature ← readWord 4 bytes 0
    return if signature = 0x06054b50 then some 0 else none
  | i + 1 => do
    if i + 1 < searchStart then return none
    let signature ← readWord 4 bytes (i + 1)
    if signature = 0x06054b50 then return some (i + 1)
    findEocd bytes searchStart i

/-! ## Local headers -/

structure Local where
  method : ℕ
  compSize : ℕ
  uncompSize : ℕ
  fnLen : ℕ
  extraLen : ℕ
  deriving DecidableEq, Repr

def Local.headerLen (r : Local) : ℕ := 30 + r.fnLen + r.extraLen

/-- Reads the numbers of a header. -/
def readLocal (bytes : List UInt8) (offset : ℕ) : Except Fault Local := do
  let method ← readWord 2 bytes (offset + 8)
  let compSize ← readWord 4 bytes (offset + 18)
  let uncompSize ← readWord 4 bytes (offset + 22)
  let fnLen ← readWord 2 bytes (offset + 26)
  let extraLen ← readWord 2 bytes (offset + 28)
  return { method, compSize, uncompSize, fnLen, extraLen }

/-- The content of an entry, if it is one of the two files. -/
def localContent (inflate : Inflate) (bytes : List UInt8) (offset : ℕ) (r : Local) (filename : List Char) :
    Except Fault (Option (Except String (List UInt8))) :=
  if isStateflow filename || isBlockdiagram filename then
    (decompressEntry inflate bytes r.method (offset + r.headerLen) r.compSize r.uncompSize).map some
  else return none

/-- The loop over local headers, with the number of turns that it may take. -/
def localLoop (inflate : Inflate) (bytes : List UInt8) : ℕ → ℕ → List UInt8 → Except Fault Found
  | 0, _, _ => .error .running
  | fuel + 1, offset, fallback =>
    if offset + 30 ≤ bytes.length then do
      let signature ← readWord 4 bytes offset
      if signature ≠ 0x04034b50 then return .goOn fallback
      let r ← readLocal bytes offset
      if offset + r.headerLen + r.compSize > bytes.length then return .goOn fallback
      let filename := nameOf (← read bytes (offset + 30) r.fnLen)
      let next := offset + (r.headerLen + r.compSize)
      match ← localContent inflate bytes offset r filename with
      | some (.ok out) =>
        if isStateflow filename then return .done (.ok out)
        else localLoop inflate bytes fuel next (if fallback = [] then out else fallback)
      | _ => localLoop inflate bytes fuel next fallback
    else return .goOn fallback

/-- The error of an archive without the two files. -/
def notFound : String :=
  "Stateflow Parser: No 'simulink/stateflow.xml' or 'simulink/blockdiagram.xml' found inside .slx archive."

/-- The second strategy. Every turn of its loop goes on by a header at least. -/
def scanLocal (inflate : Inflate) (bytes : List UInt8) : Except Fault (Except String (List UInt8)) := do
  match ← localLoop inflate bytes (bytes.length + 1) 0 [] with
  | .done result => return result
  | .goOn [] => return .error notFound
  | .goOn fallback => return .ok fallback

def extractStateflowFromSlx (inflate : Inflate) (bytes : List UInt8) :
    Except Fault (Except String (List UInt8)) := do
  if bytes.length < 22 then return .error "Stateflow Parser: File size too small for .slx archive."
  match ← findEocd bytes (bytes.length - 65557) (bytes.length - 22) with
  | none => scanLocal inflate bytes
  | some ep =>
    let numEntries ← readWord 2 bytes (ep + 10)
    let cdOffset ← readWord 4 bytes (ep + 16)
    match ← centralLoop inflate bytes numEntries cdOffset [] with
    | .done result => return result
    | .goOn [] => scanLocal inflate bytes
    | .goOn fallback => return .ok fallback

/-! ## Entries in bounds -/

/-- The numbers of an entry of the directory. -/
def central (bytes : List UInt8) (pos : ℕ) : Central where
  method := word 2 bytes (pos + 10)
  compSize := word 4 bytes (pos + 20)
  uncompSize := word 4 bytes (pos + 24)
  fnLen := word 2 bytes (pos + 28)
  extraLen := word 2 bytes (pos + 30)
  commentLen := word 2 bytes (pos + 32)
  localHdrOffset := word 4 bytes (pos + 42)

structure Entry where
  record : Central
  filename : List Char

def entryAt (bytes : List UInt8) (pos : ℕ) : Entry :=
  ⟨central bytes pos, nameOf (slice bytes (pos + 46) (central bytes pos).fnLen)⟩

namespace Entry

variable (bytes : List UInt8) (e : Entry)

/-- One of the two files, whose header passes the check of its offset in 32 bits. -/
def Looked : Prop := (isStateflow e.filename || isBlockdiagram e.filename) = true ∧
  wrap (e.record.localHdrOffset + 30) ≤ bytes.length

def dataOffset : ℕ := wrap (e.record.localHdrOffset + 30 + word 2 bytes (e.record.localHdrOffset + 26) +
  word 2 bytes (e.record.localHdrOffset + 28))

/-- The data passes the check of the compressed size. -/
def Taken : Prop := e.Looked bytes ∧ e.dataOffset bytes + e.record.compSize ≤ bytes.length

/-- The header is in the input, and so is the data if it is stored. -/
def InBounds : Prop := e.Looked bytes → e.record.localHdrOffset + 30 ≤ bytes.length ∧
  (e.record.method = 0 → e.Taken bytes → e.dataOffset bytes + e.record.uncompSize ≤ bytes.length)

/-- The search is over with this entry. -/
def Ends : Prop := isStateflow e.filename = true ∧ e.Taken bytes

/-- The entry is a block diagram that is not empty. -/
def Contributes (inflate : Inflate) : Prop := isStateflow e.filename = false ∧ e.Taken bytes ∧
  ((e.record.method = 0 ∧ 0 < e.record.uncompSize) ∨ (e.record.method = 8 ∧
    ∃ out, inflate (slice bytes (e.dataOffset bytes) e.record.compSize) e.record.uncompSize = .ok out ∧ out ≠ []))

instance : Decidable (e.Looked bytes) := inferInstanceAs (Decidable (_ ∧ _))
instance : Decidable (e.Taken bytes) := inferInstanceAs (Decidable (_ ∧ _))
instance : Decidable (e.Ends bytes) := inferInstanceAs (Decidable (_ ∧ _))

end Entry

/-- The entries of the directory that are looked at. -/
def centralEntries (bytes : List UInt8) : ℕ → ℕ → List Entry
  | 0, _ => []
  | n + 1, pos =>
    let r := central bytes pos
    if pos + 46 ≤ bytes.length ∧ word 4 bytes pos = 0x02014b50 ∧ pos + 46 + r.fnLen ≤ bytes.length then
      entryAt bytes pos :: (if (entryAt bytes pos).Ends bytes then []
        else centralEntries bytes n (pos + r.size))
    else []

/-- The numbers of a local header. -/
def localHeader (bytes : List UInt8) (offset : ℕ) : Local where
  method := word 2 bytes (offset + 8)
  compSize := word 4 bytes (offset + 18)
  uncompSize := word 4 bytes (offset + 22)
  fnLen := word 2 bytes (offset + 26)
  extraLen := word 2 bytes (offset + 28)

/-- A local header with its place and its name. -/
structure LocalEntry where
  offset : ℕ
  record : Local
  filename : List Char

def localAt (bytes : List UInt8) (offset : ℕ) : LocalEntry :=
  ⟨offset, localHeader bytes offset, nameOf (slice bytes (offset + 30) (localHeader bytes offset).fnLen)⟩

namespace LocalEntry

variable (bytes : List UInt8) (e : LocalEntry)

/-- Stored data of one of the two files is in the input. -/
def InBounds : Prop := (isStateflow e.filename || isBlockdiagram e.filename) = true → e.record.method = 0 →
  e.offset + e.record.headerLen + e.record.uncompSize ≤ bytes.length

/-- The search is over with this entry. -/
def Ends (inflate : Inflate) : Prop := isStateflow e.filename = true ∧ (e.record.method = 0 ∨
  (e.record.method = 8 ∧
    (inflate (slice bytes (e.offset + e.record.headerLen) e.record.compSize) e.record.uncompSize).isOk = true))

instance (inflate : Inflate) : Decidable (e.Ends bytes inflate) := inferInstanceAs (Decidable (_ ∧ _))

end LocalEntry

/-- The local headers that are looked at. -/
def localEntries (inflate : Inflate) (bytes : List UInt8) : ℕ → ℕ → List LocalEntry
  | 0, _ => []
  | fuel + 1, offset =>
    let r := localHeader bytes offset
    if offset + 30 ≤ bytes.length ∧ word 4 bytes offset = 0x04034b50 ∧
        offset + r.headerLen + r.compSize ≤ bytes.length then
      localAt bytes offset :: (if (localAt bytes offset).Ends bytes inflate then []
        else localEntries inflate bytes fuel (offset + (r.headerLen + r.compSize)))
    else []

/-- The end of the central directory. -/
def eocd (bytes : List UInt8) (searchStart : ℕ) : ℕ → Option ℕ
  | 0 => if 0 < searchStart then none else if word 4 bytes 0 = 0x06054b50 then some 0 else none
  | i + 1 =>
    if i + 1 < searchStart then none
    else if word 4 bytes (i + 1) = 0x06054b50 then some (i + 1) else eocd bytes searchStart i

/-- The entries of the directory that are looked at, none if there is no directory. -/
def directory (bytes : List UInt8) : List Entry :=
  match eocd bytes (bytes.length - 65557) (bytes.length - 22) with
  | none => []
  | some ep => centralEntries bytes (word 2 bytes (ep + 10)) (word 4 bytes (ep + 16))

/-- All entries that are looked at are in bounds: those of the directory, and if these give no result, the local
headers. -/
structure Safe (inflate : Inflate) (bytes : List UInt8) : Prop where
  directory : ∀ e ∈ directory bytes, e.InBounds bytes
  headers : (∀ e ∈ SlxArchive.directory bytes, ¬ e.Ends bytes ∧ ¬ e.Contributes bytes inflate) →
    ∀ e ∈ localEntries inflate bytes (bytes.length + 1) 0, e.InBounds bytes

variable {inflate : Inflate} {bytes : List UInt8} {pos n : ℕ}

theorem readWord_eq (h : pos + n ≤ bytes.length) : readWord n bytes pos = .ok (word n bytes pos) := by
  unfold readWord read
  rw [if_pos h]
  rfl

theorem readWord_outside (h : ¬ pos + n ≤ bytes.length) : readWord n bytes pos = .error .outside := by
  unfold readWord read
  rw [if_neg h]
  rfl

theorem readCentral_eq (h : pos + 46 ≤ bytes.length) : readCentral bytes pos = .ok (central bytes pos) := by
  unfold readCentral
  rw [readWord_eq (by omega), readWord_eq (by omega), readWord_eq (by omega), readWord_eq (by omega),
    readWord_eq (by omega), readWord_eq (by omega), readWord_eq (by omega)]
  rfl

/-! ## The content of an entry -/

theorem decompressEntry_stored (dataOffset compSize uncompSize : ℕ) :
    decompressEntry inflate bytes 0 dataOffset compSize uncompSize =
      if dataOffset + uncompSize ≤ bytes.length then .ok (.ok (slice bytes dataOffset uncompSize))
      else .error .outside := by
  unfold decompressEntry read
  rw [if_pos rfl]
  split <;> rfl

variable (inflate) in
theorem decompressEntry_other {method dataOffset compSize : ℕ} (hmethod : method ≠ 0)
    (h : dataOffset + compSize ≤ bytes.length) (uncompSize : ℕ) :
    ∃ result, decompressEntry inflate bytes method dataOffset compSize uncompSize = .ok result ∧
      (method = 8 → result = inflate (slice bytes dataOffset compSize) uncompSize) ∧
        (method ≠ 8 → ∃ err, result = .error err) := by
  unfold decompressEntry read
  rw [if_neg hmethod]
  by_cases h8 : method = 8
  · rw [if_pos h8, if_pos h]
    exact ⟨_, rfl, fun _ => rfl, fun hne => absurd h8 hne⟩
  · rw [if_neg h8]
    exact ⟨_, rfl, fun h => absurd h h8, fun _ => ⟨_, rfl⟩⟩

theorem slice_ne_nil {pos n : ℕ} (h : pos + n ≤ bytes.length) (hn : 0 < n) : slice bytes pos n ≠ [] := by
  intro hnil
  have hlen := congrArg List.length hnil
  unfold slice at hlen
  rw [List.length_take, List.length_drop, List.length_nil] at hlen
  omega

theorem centralContent_outside {e : Entry} (h : ¬ e.InBounds bytes) :
    centralContent inflate bytes e.record e.filename = .error .outside := by
  obtain ⟨hlooked, hnot⟩ := Classical.not_imp.mp h
  have hif : (isStateflow e.filename || isBlockdiagram e.filename) = true ∧
    wrap (e.record.localHdrOffset + 30) ≤ bytes.length := hlooked
  unfold centralContent
  rw [if_pos hif]
  by_cases hheader : e.record.localHdrOffset + 30 ≤ bytes.length
  · obtain ⟨hmethod, htaken, hdata⟩ : e.record.method = 0 ∧ e.Taken bytes ∧
        ¬ e.dataOffset bytes + e.record.uncompSize ≤ bytes.length := by
      have hrest := not_and.mp hnot hheader
      obtain ⟨hmethod, hrest⟩ := Classical.not_imp.mp hrest
      exact ⟨hmethod, Classical.not_imp.mp hrest⟩
    have hsize : e.dataOffset bytes + e.record.compSize ≤ bytes.length := htaken.2
    rw [readWord_eq (by omega), readWord_eq (by omega)]
    show (if e.dataOffset bytes + e.record.compSize ≤ bytes.length then _ else _) = _
    rw [if_pos hsize, hmethod]
    show (decompressEntry inflate bytes 0 (e.dataOffset bytes) _ _).map some = _
    rw [decompressEntry_stored, if_neg hdata]
    rfl
  · by_cases hfirst : e.record.localHdrOffset + 26 + 2 ≤ bytes.length
    · have hsecond : ¬ e.record.localHdrOffset + 28 + 2 ≤ bytes.length := by omega
      rw [readWord_eq hfirst, readWord_outside hsecond]
      rfl
    · rw [readWord_outside hfirst]
      rfl

variable (inflate) in
theorem centralContent_inBounds {e : Entry} (h : e.InBounds bytes) :
    ∃ content, centralContent inflate bytes e.record e.filename = .ok content ∧ (content = none ↔ ¬ e.Taken bytes) ∧
      (isStateflow e.filename = false →
        ((∃ out, content = some (.ok out) ∧ out ≠ []) ↔ e.Contributes bytes inflate)) := by
  unfold centralContent
  by_cases hlooked : e.Looked bytes
  · obtain ⟨hheader, hstored⟩ := h hlooked
    have hif : (isStateflow e.filename || isBlockdiagram e.filename) = true ∧
      wrap (e.record.localHdrOffset + 30) ≤ bytes.length := hlooked
    rw [if_pos hif, readWord_eq (by omega), readWord_eq (by omega)]
    show ∃ content, (if e.dataOffset bytes + e.record.compSize ≤ bytes.length then
      (decompressEntry inflate bytes e.record.method (e.dataOffset bytes) e.record.compSize
        e.record.uncompSize).map some else _) = _ ∧ _
    by_cases hsize : e.dataOffset bytes + e.record.compSize ≤ bytes.length
    · have htaken : e.Taken bytes := ⟨hlooked, hsize⟩
      rw [if_pos hsize]
      by_cases hmethod : e.record.method = 0
      · have hdata := hstored hmethod htaken
        rw [hmethod, decompressEntry_stored, if_pos hdata]
        refine ⟨_, rfl, by simp [htaken], fun hsf => ?_⟩
        constructor
        · rintro ⟨out, hout, hne⟩
          obtain rfl := Except.ok.inj (Option.some.inj hout)
          refine ⟨hsf, htaken, Or.inl ⟨hmethod, ?_⟩⟩
          by_contra hzero
          have hzero' : e.record.uncompSize = 0 := by omega
          rw [hzero'] at hne
          exact hne (by simp [slice])
        · rintro ⟨-, -, ⟨-, hpos⟩ | ⟨h8, -⟩⟩
          · exact ⟨_, rfl, slice_ne_nil hdata hpos⟩
          · omega
      · obtain ⟨result, hresult, h8, hother⟩ := decompressEntry_other inflate hmethod hsize
          e.record.uncompSize
        rw [hresult]
        refine ⟨some result, rfl, by simp [htaken], fun hsf => ?_⟩
        constructor
        · rintro ⟨out, hout, hne⟩
          have hok := Option.some.inj hout
          by_cases height : e.record.method = 8
          · exact ⟨hsf, htaken, Or.inr ⟨height, out, (h8 height).symm.trans hok, hne⟩⟩
          · obtain ⟨err, herr⟩ := hother height
            rw [herr] at hok
            cases hok
        · rintro ⟨-, -, ⟨hzero, -⟩ | ⟨height, out, hout, hne⟩⟩
          · exact absurd hzero hmethod
          · exact ⟨out, by rw [h8 height, hout], hne⟩
    · have hnot : ¬ e.Taken bytes := fun htaken => hsize htaken.2
      rw [if_neg hsize]
      refine ⟨none, rfl, by simp [hnot], fun _ => ?_⟩
      exact iff_of_false (by simp) fun hcon => hnot hcon.2.1
  · have hnot : ¬ e.Taken bytes := fun htaken => hlooked htaken.1
    have hif : ¬ ((isStateflow e.filename || isBlockdiagram e.filename) = true ∧
      wrap (e.record.localHdrOffset + 30) ≤ bytes.length) := hlooked
    rw [if_neg hif]
    refine ⟨none, rfl, by simp [hnot], fun _ => ?_⟩
    exact iff_of_false (by simp) fun hcon => hnot hcon.2.1

/-! ## The directory -/

theorem centralLoop_succ (n pos : ℕ) (fallback : List UInt8) : centralLoop inflate bytes (n + 1) pos fallback =
    if pos + 46 ≤ bytes.length ∧ word 4 bytes pos = 0x02014b50 ∧
        pos + 46 + (central bytes pos).fnLen ≤ bytes.length then
      (centralContent inflate bytes (entryAt bytes pos).record (entryAt bytes pos).filename).bind fun content =>
        match content with
        | none => centralLoop inflate bytes n (pos + (central bytes pos).size) fallback
        | some (.ok out) =>
          if isStateflow (entryAt bytes pos).filename then .ok (.done (.ok out))
          else centralLoop inflate bytes n (pos + (central bytes pos).size) (if fallback = [] then out else fallback)
        | some (.error err) =>
          if isStateflow (entryAt bytes pos).filename then .ok (.done (.error err))
          else centralLoop inflate bytes n (pos + (central bytes pos).size) fallback
    else .ok (.goOn fallback) := by
  rw [centralLoop]
  by_cases hpos : pos + 46 ≤ bytes.length
  · rw [if_pos hpos, readWord_eq (by omega), readCentral_eq hpos]
    simp only [bind, Except.bind]
    by_cases hsig : word 4 bytes pos = 0x02014b50
    · rw [if_neg (not_not.mpr hsig)]
      by_cases hname : pos + 46 + (central bytes pos).fnLen ≤ bytes.length
      · have hread : read bytes (pos + 46) (central bytes pos).fnLen =
            .ok (slice bytes (pos + 46) (central bytes pos).fnLen) := if_pos hname
        rw [if_neg (not_lt.mpr hname), hread, if_pos ⟨hpos, hsig, hname⟩]
        rfl
      · rw [if_pos (not_le.mp hname), if_neg fun hall => hname hall.2.2]
        rfl
    · rw [if_pos hsig, if_neg fun hall => hsig hall.2.1]
      rfl
  · rw [if_neg hpos, if_neg fun hall => hpos hall.1]
    rfl

theorem centralEntries_succ (n pos : ℕ) : centralEntries bytes (n + 1) pos =
    if pos + 46 ≤ bytes.length ∧ word 4 bytes pos = 0x02014b50 ∧
        pos + 46 + (central bytes pos).fnLen ≤ bytes.length then
      entryAt bytes pos :: (if (entryAt bytes pos).Ends bytes then []
        else centralEntries bytes n (pos + (central bytes pos).size))
    else [] := rfl

theorem centralLoop_outside : ∀ (n pos : ℕ) (fallback : List UInt8),
    (∃ e ∈ centralEntries bytes n pos, ¬ e.InBounds bytes) →
      centralLoop inflate bytes n pos fallback = .error .outside
  | 0, _, _, h => by simp [centralEntries] at h
  | n + 1, pos, fallback, h => by
    rw [centralEntries_succ] at h
    rw [centralLoop_succ]
    split at h
    · next hvalid =>
        rw [if_pos hvalid]
        by_cases hfirst : (entryAt bytes pos).InBounds bytes
        · -- the entry is behind this one, with which the search is not over
          obtain ⟨e, he, hnot⟩ := h
          rcases List.mem_cons.mp he with rfl | he
          · exact absurd hfirst hnot
          · split at he
            · simp at he
            · next hends =>
                have hrest := fun fallback => centralLoop_outside n _ fallback ⟨e, he, hnot⟩
                obtain ⟨content, hcontent, hnone, -⟩ := centralContent_inBounds inflate hfirst
                have hsf : content ≠ none → ¬ isStateflow (entryAt bytes pos).filename = true := by
                  intro hsome hsf
                  exact hends ⟨hsf, by_contra fun htaken => hsome (hnone.mpr htaken)⟩
                rw [hcontent]
                rcases content with _ | err | out
                · exact hrest _
                · exact (if_neg (hsf (by simp))).trans (hrest _)
                · exact (if_neg (hsf (by simp))).trans (hrest _)
        · rw [centralContent_outside hfirst]
          rfl
    · simp at h

variable (inflate) in
/-- With all entries in bounds the loop ends: with a result if an entry ends the search, and else with a block
diagram if an entry gives one. -/
theorem centralLoop_inBounds : ∀ (n pos : ℕ) (fallback : List UInt8),
    (∀ e ∈ centralEntries bytes n pos, e.InBounds bytes) →
      (∃ result, centralLoop inflate bytes n pos fallback = .ok (.done result) ∧
        ∃ e ∈ centralEntries bytes n pos, e.Ends bytes) ∨
      ∃ fallback', centralLoop inflate bytes n pos fallback = .ok (.goOn fallback') ∧
        (∀ e ∈ centralEntries bytes n pos, ¬ e.Ends bytes) ∧
          (fallback' = [] ↔ fallback = [] ∧ ∀ e ∈ centralEntries bytes n pos, ¬ e.Contributes bytes inflate)
  | 0, _, fallback, _ => Or.inr ⟨fallback, rfl, by simp [centralEntries], by simp [centralEntries]⟩
  | n + 1, pos, fallback, h => by
    rw [centralEntries_succ] at h ⊢
    rw [centralLoop_succ]
    split at h
    · next hvalid =>
        simp only [if_pos hvalid]
        obtain ⟨content, hcontent, hnone, hcontributes⟩ :=
          centralContent_inBounds inflate (h _ List.mem_cons_self)
        rw [hcontent]
        by_cases hends : (entryAt bytes pos).Ends bytes
        · -- the search is over with this entry
          have hsome : content ≠ none := fun hc => hnone.mp hc hends.2
          refine Or.inl ?_
          rcases content with _ | err | out
          · exact absurd rfl hsome
          · exact ⟨.error err, if_pos hends.1, _, List.mem_cons_self, hends⟩
          · exact ⟨.ok out, if_pos hends.1, _, List.mem_cons_self, hends⟩
        · have hrest := fun fallback => centralLoop_inBounds n
            (pos + (central bytes pos).size) fallback fun e he => h e (by
              rw [if_neg hends]
              exact List.mem_cons_of_mem _ he)
          have hsf : content ≠ none → ¬ isStateflow (entryAt bytes pos).filename = true := fun hsome hsf =>
            hends ⟨hsf, by_contra fun htaken => hsome (hnone.mpr htaken)⟩
          have hno : (¬ ∃ out, content = some (.ok out) ∧ out ≠ []) →
              ¬ (entryAt bytes pos).Contributes bytes inflate := fun hc hcon => hc ((hcontributes hcon.1).mpr hcon)
          rw [if_neg hends]
          simp only [List.forall_mem_cons, List.exists_mem_cons_iff]
          rcases content with _ | err | out
          · have hcon := hno (by simp)
            simpa [Except.bind, hcon, hends] using hrest fallback
          · have hcon := hno (by simp)
            simpa [Except.bind, hcon, hends, hsf] using hrest fallback
          · have hsf' : isStateflow (entryAt bytes pos).filename = false := by simpa using hsf (by simp)
            have hiff : (entryAt bytes pos).Contributes bytes inflate ↔ out ≠ [] := by
              rw [← hcontributes hsf']
              simp
            have hfallback : (if fallback = [] then out else fallback) = [] ↔
                fallback = [] ∧ ¬ (entryAt bytes pos).Contributes bytes inflate := by
              rw [hiff]
              split <;> simp_all
            have hstep := hrest (if fallback = [] then out else fallback)
            simp only [hfallback, and_assoc] at hstep
            simpa [Except.bind, hends, hsf'] using hstep
    · next hvalid =>
        simp only [if_neg hvalid]
        exact Or.inr ⟨fallback, rfl, by simp, by simp⟩

/-! ## Local headers -/

theorem readLocal_eq (h : pos + 30 ≤ bytes.length) : readLocal bytes pos = .ok (localHeader bytes pos) := by
  unfold readLocal
  rw [readWord_eq (by omega), readWord_eq (by omega), readWord_eq (by omega), readWord_eq (by omega),
    readWord_eq (by omega)]
  rfl

theorem localLoop_succ (fuel offset : ℕ) (fallback : List UInt8) : localLoop inflate bytes (fuel + 1) offset fallback =
    if offset + 30 ≤ bytes.length ∧ word 4 bytes offset = 0x04034b50 ∧
        offset + (localHeader bytes offset).headerLen + (localHeader bytes offset).compSize ≤ bytes.length then
      (localContent inflate bytes offset (localAt bytes offset).record (localAt bytes offset).filename).bind
        fun content =>
          match content with
          | some (.ok out) =>
            if isStateflow (localAt bytes offset).filename then .ok (.done (.ok out))
            else localLoop inflate bytes fuel (offset + ((localHeader bytes offset).headerLen +
              (localHeader bytes offset).compSize)) (if fallback = [] then out else fallback)
          | _ => localLoop inflate bytes fuel (offset + ((localHeader bytes offset).headerLen +
              (localHeader bytes offset).compSize)) fallback
    else .ok (.goOn fallback) := by
  rw [localLoop]
  by_cases hpos : offset + 30 ≤ bytes.length
  · rw [if_pos hpos, readWord_eq (by omega), readLocal_eq hpos]
    simp only [bind, Except.bind]
    by_cases hsig : word 4 bytes offset = 0x04034b50
    · rw [if_neg (not_not.mpr hsig)]
      by_cases hsize : offset + (localHeader bytes offset).headerLen + (localHeader bytes offset).compSize ≤
          bytes.length
      · have hname : offset + 30 + (localHeader bytes offset).fnLen ≤ bytes.length := by
          unfold Local.headerLen at hsize
          omega
        have hread : read bytes (offset + 30) (localHeader bytes offset).fnLen =
            .ok (slice bytes (offset + 30) (localHeader bytes offset).fnLen) := if_pos hname
        rw [if_neg (not_lt.mpr hsize), hread, if_pos ⟨hpos, hsig, hsize⟩]
        rfl
      · rw [if_pos (not_le.mp hsize), if_neg fun hall => hsize hall.2.2]
        rfl
    · rw [if_pos hsig, if_neg fun hall => hsig hall.2.1]
      rfl
  · rw [if_neg hpos, if_neg fun hall => hpos hall.1]
    rfl

theorem localContent_outside {e : LocalEntry} (h : ¬ e.InBounds bytes) :
    localContent inflate bytes e.offset e.record e.filename = .error .outside := by
  obtain ⟨hselected, hrest⟩ := Classical.not_imp.mp h
  obtain ⟨hmethod, hdata⟩ := Classical.not_imp.mp hrest
  unfold localContent
  rw [if_pos hselected, hmethod, decompressEntry_stored, if_neg hdata]
  rfl

variable (inflate) in
theorem localContent_inBounds {e : LocalEntry} (h : e.InBounds bytes)
    (hsize : e.offset + e.record.headerLen + e.record.compSize ≤ bytes.length) :
    ∃ content, localContent inflate bytes e.offset e.record e.filename = .ok content ∧
      (isStateflow e.filename = true → ((∃ out, content = some (.ok out)) ↔ e.Ends bytes inflate)) := by
  unfold localContent
  by_cases hselected : (isStateflow e.filename || isBlockdiagram e.filename) = true
  · rw [if_pos hselected]
    by_cases hmethod : e.record.method = 0
    · rw [hmethod, decompressEntry_stored, if_pos (h hselected hmethod)]
      refine ⟨_, rfl, fun hsf => ?_⟩
      exact iff_of_true ⟨_, rfl⟩ ⟨hsf, Or.inl hmethod⟩
    · obtain ⟨result, hresult, h8, hother⟩ := decompressEntry_other inflate hmethod hsize
        e.record.uncompSize
      rw [hresult]
      refine ⟨some result, rfl, fun hsf => ?_⟩
      constructor
      · rintro ⟨out, hout⟩
        have hok := Option.some.inj hout
        by_cases height : e.record.method = 8
        · refine ⟨hsf, Or.inr ⟨height, ?_⟩⟩
          rw [← h8 height, hok]
          rfl
        · obtain ⟨err, herr⟩ := hother height
          rw [herr] at hok
          cases hok
      · rintro ⟨-, hzero | ⟨height, hok⟩⟩
        · exact absurd hzero hmethod
        · rw [← h8 height] at hok
          cases result with
          | ok out => exact ⟨out, rfl⟩
          | error err => cases hok
  · rw [if_neg hselected]
    refine ⟨none, rfl, fun hsf => ?_⟩
    exact absurd (by simp [hsf]) hselected

theorem localEntries_succ (fuel offset : ℕ) : localEntries inflate bytes (fuel + 1) offset =
    if offset + 30 ≤ bytes.length ∧ word 4 bytes offset = 0x04034b50 ∧
        offset + (localHeader bytes offset).headerLen + (localHeader bytes offset).compSize ≤ bytes.length then
      localAt bytes offset :: (if (localAt bytes offset).Ends bytes inflate then []
        else localEntries inflate bytes fuel (offset + ((localHeader bytes offset).headerLen +
          (localHeader bytes offset).compSize)))
    else [] := rfl

variable (inflate bytes) in
theorem localLoop_spec : ∀ (fuel offset : ℕ) (fallback : List UInt8), bytes.length < offset + fuel → 0 < fuel →
    ((∃ e ∈ localEntries inflate bytes fuel offset, ¬ e.InBounds bytes) ∧
        localLoop inflate bytes fuel offset fallback = .error .outside) ∨
      (∀ e ∈ localEntries inflate bytes fuel offset, e.InBounds bytes) ∧
        ∃ found, localLoop inflate bytes fuel offset fallback = .ok found
  | 0, _, _, _, hpos => absurd hpos (lt_irrefl 0)
  | fuel + 1, offset, fallback, hfuel, _ => by
    rw [localLoop_succ, localEntries_succ]
    by_cases hvalid : offset + 30 ≤ bytes.length ∧ word 4 bytes offset = 0x04034b50 ∧
        offset + (localHeader bytes offset).headerLen + (localHeader bytes offset).compSize ≤ bytes.length
    · rw [if_pos hvalid, if_pos hvalid]
      by_cases hfirst : (localAt bytes offset).InBounds bytes
      · obtain ⟨content, hcontent, hends⟩ := localContent_inBounds inflate hfirst hvalid.2.2
        have hcontent' : localContent inflate bytes offset (localAt bytes offset).record
            (localAt bytes offset).filename = .ok content := hcontent
        rw [hcontent']
        by_cases hend : (localAt bytes offset).Ends bytes inflate
        · -- the search is over with this entry
          obtain ⟨out, rfl⟩ := (hends hend.1).mpr hend
          refine Or.inr ⟨?_, .done (.ok out), if_pos hend.1⟩
          rw [if_pos hend]
          simpa using hfirst
        · have hnext : offset + 30 ≤ offset + ((localHeader bytes offset).headerLen +
              (localHeader bytes offset).compSize) := by
            unfold Local.headerLen
            omega
          have hrest := fun fallback => localLoop_spec fuel (offset + ((localHeader bytes offset).headerLen +
            (localHeader bytes offset).compSize)) fallback (by omega) (by omega)
          rw [if_neg hend]
          simp only [List.forall_mem_cons, List.exists_mem_cons_iff, hfirst, not_true_eq_false, false_or, true_and]
          rcases content with _ | err | out
          · exact hrest fallback
          · exact hrest fallback
          · have hsf : ¬ isStateflow (localAt bytes offset).filename = true := fun hsf =>
              hend ((hends hsf).mp ⟨out, rfl⟩)
            simpa [Except.bind, hsf] using hrest (if fallback = [] then out else fallback)
      · refine Or.inl ⟨⟨_, List.mem_cons_self, hfirst⟩, ?_⟩
        have hcontent : localContent inflate bytes offset (localAt bytes offset).record
            (localAt bytes offset).filename = .error .outside := localContent_outside hfirst
        rw [hcontent]
        rfl
    · rw [if_neg hvalid, if_neg hvalid]
      exact Or.inr ⟨List.forall_mem_nil _, _, rfl⟩

/-! ## The archive -/

theorem findEocd_eq (searchStart : ℕ) : ∀ i, i + 22 ≤ bytes.length →
    findEocd bytes searchStart i = .ok (eocd bytes searchStart i)
  | 0, h => by
    unfold findEocd eocd
    rw [readWord_eq (by omega)]
    split <;> rfl
  | i + 1, h => by
    unfold findEocd eocd
    rw [readWord_eq (by omega), findEocd_eq searchStart i (by omega)]
    by_cases hstart : i + 1 < searchStart
    · rw [if_pos hstart, if_pos hstart]
      rfl
    · rw [if_neg hstart, if_neg hstart]
      by_cases hsig : word 4 bytes (i + 1) = 0x06054b50
      · rw [if_pos hsig]
        simp only [bind, Except.bind, hsig]
        rfl
      · rw [if_neg hsig]
        simp only [bind, Except.bind, hsig]
        rfl

theorem eocd_le {searchStart : ℕ} : ∀ {i ep : ℕ}, eocd bytes searchStart i = some ep → ep ≤ i
  | 0, ep, h => by
    unfold eocd at h
    split at h
    · cases h
    · split at h
      · exact (Option.some.inj h).ge
      · cases h
  | i + 1, ep, h => by
    unfold eocd at h
    split at h
    · cases h
    · split at h
      · exact (Option.some.inj h).ge
      · exact (eocd_le h).trans (Nat.le_succ i)

theorem scanLocal_spec : scanLocal inflate bytes ≠ .error .running ∧ (scanLocal inflate bytes ≠ .error .outside ↔
    ∀ e ∈ localEntries inflate bytes (bytes.length + 1) 0, e.InBounds bytes) := by
  unfold scanLocal
  rcases localLoop_spec inflate bytes (bytes.length + 1) 0 [] (by omega) (by omega) with
    ⟨⟨e, he, hnot⟩, hloop⟩ | ⟨hall, found, hloop⟩
  · rw [hloop]
    simp only [bind, Except.bind]
    refine ⟨by simp, ?_⟩
    simp only [ne_eq, not_true_eq_false, false_iff]
    exact fun hall => hnot (hall e he)
  · rw [hloop]
    simp only [bind, Except.bind]
    rcases found with result | (_ | ⟨b, fallback⟩)
    · exact ⟨by simp [pure, Except.pure], iff_of_true (by simp [pure, Except.pure]) hall⟩
    · exact ⟨by simp [pure, Except.pure], iff_of_true (by simp [pure, Except.pure]) hall⟩
    · exact ⟨by simp [pure, Except.pure], iff_of_true (by simp [pure, Except.pure]) hall⟩

/-- **Extraction ends, and it stays in bounds** exactly if all entries that it looks at are in bounds. -/
theorem extract_in_bounds_iff (inflate : Inflate) (bytes : List UInt8) :
    extractStateflowFromSlx inflate bytes ≠ .error .running ∧
      (extractStateflowFromSlx inflate bytes ≠ .error .outside ↔ bytes.length < 22 ∨ Safe inflate bytes) := by
  unfold extractStateflowFromSlx
  by_cases hsize : bytes.length < 22
  · rw [if_pos hsize]
    exact ⟨by simp [pure, Except.pure], iff_of_true (by simp [pure, Except.pure]) (Or.inl hsize)⟩
  · have hsafe : (bytes.length < 22 ∨ Safe inflate bytes) ↔ Safe inflate bytes := by simp [hsize]
    rw [if_neg hsize, findEocd_eq _ _ (by omega), hsafe]
    simp only [bind, Except.bind]
    cases heocd : eocd bytes (bytes.length - 65557) (bytes.length - 22) with
    | none =>
      have hdirectory : directory bytes = [] := by
        unfold directory
        rw [heocd]
      have hiff : Safe inflate bytes ↔
          ∀ e ∈ localEntries inflate bytes (bytes.length + 1) 0, e.InBounds bytes := by
        constructor
        · intro h
          exact h.headers (by simp [hdirectory])
        · intro h
          exact ⟨by simp [hdirectory], fun _ => h⟩
      rw [hiff]
      exact scanLocal_spec
    | some ep =>
      have hep := eocd_le heocd
      have hdirectory : directory bytes =
          centralEntries bytes (word 2 bytes (ep + 10)) (word 4 bytes (ep + 16)) := by
        unfold directory
        rw [heocd]
      simp only [readWord_eq (show ep + 10 + 2 ≤ bytes.length by omega),
        readWord_eq (show ep + 16 + 4 ≤ bytes.length by omega)]
      by_cases hall : ∀ e ∈ directory bytes, e.InBounds bytes
      · rcases centralLoop_inBounds inflate _ _ [] (hdirectory ▸ hall) with
          ⟨result, hloop, e, he, hends⟩ | ⟨fallback, hloop, hends, hfallback⟩
        · rw [hloop]
          refine ⟨by simp [pure, Except.pure], iff_of_true (by simp [pure, Except.pure]) ⟨hall, fun hnone => ?_⟩⟩
          exact absurd hends (hnone e (hdirectory ▸ he)).1
        · rw [hloop]
          rcases fallback with _ | ⟨b, fallback⟩
          · -- no entry of the directory gives a result
            have hnone : ∀ e ∈ directory bytes, ¬ e.Ends bytes ∧ ¬ e.Contributes bytes inflate := by
              rw [hdirectory]
              exact fun e he => ⟨hends e he, (hfallback.mp rfl).2 e he⟩
            have hiff : Safe inflate bytes ↔
                ∀ e ∈ localEntries inflate bytes (bytes.length + 1) 0, e.InBounds bytes :=
              ⟨fun h => h.headers hnone, fun h => ⟨hall, fun _ => h⟩⟩
            rw [hiff]
            exact scanLocal_spec
          · refine ⟨by simp [pure, Except.pure],
              iff_of_true (by simp [pure, Except.pure]) ⟨hall, fun hnone => ?_⟩⟩
            have hnil := hfallback.mpr ⟨rfl, fun e he => (hnone e (hdirectory ▸ he)).2⟩
            cases hnil
      · have hloop : centralLoop inflate bytes (word 2 bytes (ep + 10)) (word 4 bytes (ep + 16)) [] =
            .error .outside := by
          apply centralLoop_outside
          rw [← hdirectory]
          simpa using hall
        rw [hloop]
        exact ⟨by simp, iff_of_false (by simp) fun h => hall h.directory⟩

/-- An archive of one header: the name of the model file, stored, with no compressed bytes and one uncompressed. -/
def shortArchive : List UInt8 :=
  [0x50, 0x4b, 0x03, 0x04, 10, 0, 0, 0, 0, 0, 0, 0, 0, 0, 0, 0, 0, 0, 0, 0, 0, 0, 1, 0, 0, 0, 13, 0, 0, 0] ++
    "stateflow.xml".toList.map fun c => UInt8.ofNat c.toNat

/-- The byte behind the archive is read. -/
theorem shortArchive_read_outside :
    extractStateflowFromSlx (fun _ _ => .error "no zlib") shortArchive = .error .outside := by
  decide +kernel

end Fsmc.Frontend.SlxArchive
