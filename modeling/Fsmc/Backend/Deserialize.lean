/-
# Fsmc.Backend.Deserialize — a snapshot is checked in one pass and applied in a second one.

The first pass only moves over the input; the second one reads it again, without checks, while it changes the
machine. The two passes give what reading once gives. A record or a timer for which there is no room is dropped
by the second pass, so that a snapshot that is accepted need not be restored as a whole.
-/
import Fsmc.Backend.Restore

namespace Fsmc.Backend

open ByteStream Machine

variable {σ : Signature}

/-! ## The two passes -/

/-- Move over a length and as many bytes. -/
def skipText (bs : List UInt8) : Option (List UInt8) := do
  let (length, bs) ← readNat 2 bs
  let (_, bs) ← readBlock length bs
  return bs

/-- Move over the entries of the history. -/
def skipHistory : ℕ → List UInt8 → Option (List UInt8)
  | 0, bs => some bs
  | n + 1, bs => do
    let bs ← skipText bs
    let bs ← skipText bs
    skipHistory n bs

/-- A number is copied without a check. -/
def takeNat (k : ℕ) (bs : List UInt8) : ℕ × List UInt8 := (decode (bs.take k), bs.drop k)

/-- A length, and a view of as many bytes. -/
def takeText (bs : List UInt8) : String × List UInt8 :=
  let (length, bs) := takeNat 2 bs
  (textOf (bs.take length), bs.drop length)

/-- `snapshot_timer_entry`, copied without a check. -/
def takeTimer (bs : List UInt8) : TimerEntry × List UInt8 :=
  let (timerId, bs) := takeNat 4 bs
  let (intervalMs, bs) := takeNat 8 bs
  let (elapsedMs, bs) := takeNat 8 bs
  let (periodic, bs) := takeNat 1 bs
  (⟨timerId, intervalMs, elapsedMs, periodic ≠ 0, true⟩, bs)

namespace Program

variable (P : Program σ) (L : Layout σ.Registers)

/-- The first pass: the header, and where the payload starts. -/
def validate (src : List UInt8) : Option (SnapshotHeader × List UInt8) := do
  let (header, start) ← readHeader src
  guard (header.magic = snapshotMagic ∧ header.version = snapshotVersion)
  guard (header.stateIndex < P.states.length)
  guard (header.registersSize = L.size % wrap32)
  let bs ← skipHistory header.historyCount start
  let (_, bs) ← readBlock (header.timerCount * 21) bs
  let (_, bs) ← readBlock header.registersSize bs
  guard ((computeChecksum (start.take (start.length - bs.length))).toNat = header.payloadChecksum)
  return (header, start)

def setVariantIndex (m : Machine σ) (index : ℕ) : Option (Machine σ) :=
  (P.states[index]?).map fun s => { m with state := s, value := P.fresh s }

/-- `record_history` of the machine. -/
def recordEntry (m : Machine σ) (parent substate : String) : Machine σ :=
  if P.hasHistory then { m with history := P.recordHistory m.history parent substate } else m

/-- The second loop over the entries of the history. -/
def applyHistory : ℕ → Machine σ → List UInt8 → Machine σ × List UInt8
  | 0, m, bs => (m, bs)
  | n + 1, m, bs =>
    let (parent, bs) := takeText bs
    let (substate, bs) := takeText bs
    applyHistory n (P.recordEntry m parent substate) bs

/-- The second loop over the timers. -/
def applyTimers : ℕ → Machine σ → List UInt8 → Machine σ × List UInt8
  | 0, m, bs => (m, bs)
  | n + 1, m, bs =>
    let (entry, bs) := takeTimer bs
    applyTimers n
      { m with timers := m.timers.restoreTimer entry.timerId entry.intervalMs entry.elapsedMs entry.periodic } bs

/-- What `deserialize` leaves: the machine, whether it succeeded, and `bytes_read`. -/
def deserializeTwice (m : Machine σ) (src : List UInt8) : Machine σ × Bool × ℕ :=
  match P.validate L src with
  | none => (m, false, 0)
  | some (header, start) =>
    match P.setVariantIndex m header.stateIndex with
    | none => (m, false, 0)
    | some m =>
      let (m, bs) := P.applyHistory header.historyCount { m with history := [] } start
      let (m, bs) := applyTimers header.timerCount { m with timers := m.timers.reset } bs
      let m := { m with residence := header.residenceTimeMs }
      if 0 < header.registersSize then
        ({ m with reg := L.ofBytes (bs.take header.registersSize) }, true,
          src.length - (bs.drop header.registersSize).length)
      else (m, true, src.length - bs.length)

end Program

/-! ## The second pass reads what the first one passed -/

theorem readBlock_eq_some {k : ℕ} {bs block rest : List UInt8} (h : readBlock k bs = some (block, rest)) :
    k ≤ bs.length ∧ block = bs.take k ∧ rest = bs.drop k := by
  unfold readBlock at h
  split at h
  · cases h
    exact ⟨‹_›, rfl, rfl⟩
  · cases h

variable {bs rest : List UInt8}

theorem readNat_eq_some {k n : ℕ} (h : readNat k bs = some (n, rest)) : takeNat k bs = (n, rest) := by
  unfold readNat at h
  obtain ⟨⟨block, rest'⟩, hblock, heq⟩ := Option.map_eq_some_iff.mp h
  obtain ⟨-, rfl, rfl⟩ := readBlock_eq_some hblock
  exact heq

theorem readText_eq_some {text : String} (h : readText bs = some (text, rest)) : takeText bs = (text, rest) := by
  unfold readText at h
  simp only [Option.bind_eq_bind, Option.bind_eq_some_iff] at h
  obtain ⟨⟨length, bs'⟩, hlength, ⟨block, rest'⟩, hblock, heq⟩ := h
  obtain ⟨-, rfl, rfl⟩ := readBlock_eq_some hblock
  unfold takeText
  rw [readNat_eq_some hlength]
  exact Option.some.inj heq

theorem readTimer_eq_some {entry : TimerEntry} (h : readTimer bs = some (entry, rest)) :
    takeTimer bs = (entry, rest) := by
  unfold readTimer at h
  simp only [Option.bind_eq_bind, Option.bind_eq_some_iff] at h
  obtain ⟨⟨timerId, bs₁⟩, hid, ⟨intervalMs, bs₂⟩, hinterval, ⟨elapsedMs, bs₃⟩, helapsed, ⟨periodic, bs₄⟩,
    hperiodic, heq⟩ := h
  unfold takeTimer
  rw [readNat_eq_some hid]
  dsimp only
  rw [readNat_eq_some hinterval]
  dsimp only
  rw [readNat_eq_some helapsed]
  dsimp only
  rw [readNat_eq_some hperiodic]
  exact Option.some.inj heq

theorem skipText_eq (bs : List UInt8) : skipText bs = (readText bs).map (·.2) := by
  unfold skipText readText
  cases readNat 2 bs with
  | none => rfl
  | some p =>
    simp only [Option.bind_eq_bind, Option.bind_some]
    cases readBlock p.1 p.2 <;> rfl

theorem skipTexts_eq (bs : List UInt8) : (skipText bs).bind skipText = (readHistory bs).map (·.2) := by
  unfold readHistory
  rw [skipText_eq]
  cases readText bs with
  | none => rfl
  | some parent =>
    simp only [Option.map_some, Option.bind_eq_bind, Option.bind_some, skipText_eq]
    cases readText parent.2 <;> rfl

theorem skipHistory_eq (n : ℕ) (bs : List UInt8) : skipHistory n bs = (readMany readHistory n bs).map (·.2) := by
  induction n generalizing bs with
  | zero => rfl
  | succ n ih =>
    have hunfold : skipHistory (n + 1) bs = ((skipText bs).bind skipText).bind (skipHistory n) := by
      rw [Option.bind_assoc]
      rfl
    rw [hunfold, skipTexts_eq, readMany]
    cases readHistory bs with
    | none => rfl
    | some entry =>
      simp only [Option.map_some, Option.bind_eq_bind, Option.bind_some, ih]
      cases readMany readHistory n entry.2 <;> rfl

theorem map_bind_readNat {α : Type} (k j : ℕ) {f : ℕ × List UInt8 → Option (α × List UInt8)}
    (h : ∀ p, (f p).map (·.2) = skip j p.2) (bs : List UInt8) :
    ((readNat k bs).bind f).map (·.2) = skip (k + j) bs := by
  rw [skip_add, ← map_readNat]
  cases readNat k bs with
  | none => rfl
  | some p => exact h p

theorem map_readTimer (bs : List UInt8) : (readTimer bs).map (·.2) = skip 21 bs := by
  unfold readTimer
  simp only [Option.bind_eq_bind]
  refine map_bind_readNat 4 17 (fun timerId => ?_) bs
  refine map_bind_readNat 8 9 (fun intervalMs => ?_) timerId.2
  refine map_bind_readNat 8 1 (fun elapsedMs => ?_) intervalMs.2
  refine map_bind_readNat 1 0 (fun periodic => ?_) elapsedMs.2
  simp [skip_eq]

theorem skip_timers (n : ℕ) (bs : List UInt8) : skip (n * 21) bs = (readMany readTimer n bs).map (·.2) :=
  (map_readMany map_readTimer n bs).symm

namespace Program

variable (P : Program σ)

theorem applyHistory_eq : ∀ {n : ℕ} {bs rest : List UInt8} {history : List (String × String)} (m : Machine σ),
    readMany readHistory n bs = some (history, rest) →
      P.applyHistory n m bs = (history.foldl (fun m e => P.recordEntry m e.1 e.2) m, rest)
  | 0, _, _, _, m, h => by
    cases h
    rfl
  | n + 1, bs, rest, history, m, h => by
    obtain ⟨entry, bs', entries, hentry, hentries, rfl⟩ := readMany_succ_eq_some h
    unfold readHistory at hentry
    simp only [Option.bind_eq_bind, Option.bind_eq_some_iff] at hentry
    obtain ⟨⟨parent, bs₁⟩, hparent, ⟨substate, bs₂⟩, hsubstate, heq⟩ := hentry
    cases heq
    unfold applyHistory
    rw [readText_eq_some hparent]
    dsimp only
    rw [readText_eq_some hsubstate]
    exact applyHistory_eq _ hentries

theorem applyTimers_eq : ∀ {n : ℕ} {bs rest : List UInt8} {timers : List TimerEntry} (m : Machine σ),
    readMany readTimer n bs = some (timers, rest) →
      applyTimers n m bs = (({ m with
        timers := timers.foldl (fun ts e => ts.restoreTimer e.timerId e.intervalMs e.elapsedMs e.periodic)
          m.timers } : Machine σ), rest)
  | 0, _, _, _, m, h => by
    cases h
    rfl
  | n + 1, bs, rest, timers, m, h => by
    obtain ⟨entry, bs', entries, hentry, hentries, rfl⟩ := readMany_succ_eq_some h
    unfold applyTimers
    rw [readTimer_eq_some hentry]
    exact applyTimers_eq _ hentries

theorem foldl_recordEntry (history : List (String × String)) (m : Machine σ) :
    history.foldl (fun m e => P.recordEntry m e.1 e.2) m =
      { m with
        history := if P.hasHistory then history.foldl (fun h e => P.recordHistory h e.1 e.2) m.history
          else m.history } := by
  cases hhas : P.hasHistory with
  | true =>
    induction history generalizing m with
    | nil => rfl
    | cons entry history ih =>
      rw [List.foldl_cons, ih]
      unfold recordEntry
      rw [if_pos hhas]
      rfl
  | false =>
    induction history generalizing m with
    | nil => rfl
    | cons entry history ih =>
      rw [List.foldl_cons, ih]
      unfold recordEntry
      rw [hhas]
      rfl

end Program

/-! ## What is read -/

/-- The parts of a snapshot, and what follows each of them. -/
structure SnapshotParts where
  header : SnapshotHeader
  start : List UInt8
  history : List (String × String)
  afterHistory : List UInt8
  timers : List TimerEntry
  afterTimers : List UInt8
  registers : List UInt8
  rest : List UInt8

/-- The input starts with these parts. -/
structure SnapshotParts.Of (src : List UInt8) (parts : SnapshotParts) : Prop where
  header : readHeader src = some (parts.header, parts.start)
  history : readMany readHistory parts.header.historyCount parts.start = some (parts.history, parts.afterHistory)
  timers : readMany readTimer parts.header.timerCount parts.afterHistory = some (parts.timers, parts.afterTimers)
  registers : readBlock parts.header.registersSize parts.afterTimers = some (parts.registers, parts.rest)

theorem SnapshotParts.Of.unique {src : List UInt8} {parts parts' : SnapshotParts} (h : SnapshotParts.Of src parts)
    (h' : SnapshotParts.Of src parts') : parts' = parts := by
  obtain ⟨header, start, history, after, timers, after', registers, rest⟩ := parts
  obtain ⟨hheader, hhistory, htimers, hregisters⟩ := h
  obtain ⟨hheader', hhistory', htimers', hregisters'⟩ := h'
  obtain ⟨rfl, rfl⟩ := Prod.mk.inj (Option.some.inj (hheader'.symm.trans hheader))
  obtain ⟨rfl, rfl⟩ := Prod.mk.inj (Option.some.inj (hhistory'.symm.trans hhistory))
  obtain ⟨rfl, rfl⟩ := Prod.mk.inj (Option.some.inj (htimers'.symm.trans htimers))
  obtain ⟨rfl, rfl⟩ := Prod.mk.inj (Option.some.inj (hregisters'.symm.trans hregisters))
  rfl

namespace Program

variable (P : Program σ) (L : Layout σ.Registers)

/-- The header of a snapshot is one of this machine type, with the checksum of its payload. -/
structure Accepts (parts : SnapshotParts) : Prop where
  magic : parts.header.magic = snapshotMagic ∧ parts.header.version = snapshotVersion
  state : parts.header.stateIndex < P.states.length
  registers : parts.header.registersSize = L.size % wrap32
  checksum : (computeChecksum (parts.start.take (parts.start.length - parts.rest.length))).toNat =
    parts.header.payloadChecksum

variable {P L}

variable {src : List UInt8}

theorem validate_eq_some_iff {header : SnapshotHeader} {start : List UInt8} :
    P.validate L src = some (header, start) ↔
      ∃ parts, SnapshotParts.Of src parts ∧ P.Accepts L parts ∧ parts.header = header ∧ parts.start = start := by
  unfold validate
  simp only [Option.bind_eq_bind, Option.bind_eq_some_iff, Option.guard_eq_some']
  constructor
  · rintro ⟨⟨header', start'⟩, hheader, _, hmagic, _, hstate, _, hregisters, bs₁, hhistory, ⟨block, bs₂⟩, htimers,
      ⟨registers, rest⟩, hblock, _, hchecksum, heq⟩
    cases heq
    rw [skipHistory_eq] at hhistory
    obtain ⟨⟨history, after⟩, hentries, rfl⟩ := Option.map_eq_some_iff.mp hhistory
    have hskip : skip (header'.timerCount * 21) after = some bs₂ := by
      unfold skip
      rw [htimers]
      rfl
    rw [skip_timers] at hskip
    obtain ⟨⟨timers, after'⟩, hrestored, rfl⟩ := Option.map_eq_some_iff.mp hskip
    exact ⟨⟨header', start', history, after, timers, after', registers, rest⟩,
      ⟨hheader, hentries, hrestored, hblock⟩, ⟨hmagic, hstate, hregisters, hchecksum⟩, rfl, rfl⟩
  · rintro ⟨parts, hparts, haccepts, rfl, rfl⟩
    have hhistory : skipHistory parts.header.historyCount parts.start = some parts.afterHistory := by
      rw [skipHistory_eq, hparts.history]
      rfl
    have htimers : skip (parts.header.timerCount * 21) parts.afterHistory = some parts.afterTimers := by
      rw [skip_timers, hparts.timers]
      rfl
    obtain ⟨block, hblock, hafter⟩ := Option.map_eq_some_iff.mp htimers
    refine ⟨_, hparts.header, (), haccepts.magic, (), haccepts.state, (), haccepts.registers, _, hhistory, block,
      hblock, (parts.registers, parts.rest), ?_, (), haccepts.checksum, rfl⟩
    rw [hafter]
    exact hparts.registers

theorem active_readTimer (bs : List UInt8) (entry : TimerEntry) (rest : List UInt8)
    (h : readTimer bs = some (entry, rest)) : entry.active = true := by
  have hentry := readTimer_eq_some h
  unfold takeTimer at hentry
  cases hentry
  rfl

/-- The machine that accepted parts are restored in. -/
def restored (P : Program σ) (L : Layout σ.Registers) (m : Machine σ) (parts : SnapshotParts) (state : σ.State) :
    Machine σ :=
  P.overwrite m state parts.history parts.timers parts.header.residenceTimeMs
    (if 0 < parts.header.registersSize then L.ofBytes parts.registers else m.reg)

theorem deserialize_eq_some_iff {m m' : Machine σ} {bytesRead : ℕ} :
    P.deserialize L m src = some (m', bytesRead) ↔
      ∃ parts state, SnapshotParts.Of src parts ∧ P.Accepts L parts ∧
        P.states[parts.header.stateIndex]? = some state ∧ m' = P.restored L m parts state ∧
          bytesRead = src.length - parts.rest.length := by
  unfold deserialize
  simp only [Option.bind_eq_bind, Option.bind_eq_some_iff, Option.guard_eq_some']
  constructor
  · rintro ⟨⟨header, start⟩, hheader, _, hmagic, _, hstate, _, hregisters, ⟨history, after⟩, hhistory,
      ⟨timers, after'⟩, htimers, ⟨registers, rest⟩, hblock, _, hchecksum, state, hindex, heq⟩
    cases heq
    exact ⟨⟨header, start, history, after, timers, after', registers, rest⟩, state,
      ⟨hheader, hhistory, htimers, hblock⟩, ⟨hmagic, hstate, hregisters, hchecksum⟩, hindex, rfl, rfl⟩
  · rintro ⟨parts, state, hparts, haccepts, hindex, rfl, rfl⟩
    exact ⟨_, hparts.header, (), haccepts.magic, (), haccepts.state, (), haccepts.registers, _, hparts.history, _,
      hparts.timers, _, hparts.registers, (), haccepts.checksum, state, hindex, rfl⟩

theorem deserializeTwice_of_accepts {parts : SnapshotParts} (hparts : SnapshotParts.Of src parts)
    (haccepts : P.Accepts L parts) (m : Machine σ) {state : σ.State}
    (hindex : P.states[parts.header.stateIndex]? = some state) :
    P.deserializeTwice L m src = (P.restored L m parts state, true, src.length - parts.rest.length) := by
  have hvalidate := validate_eq_some_iff.mpr ⟨parts, hparts, haccepts, rfl, rfl⟩
  obtain ⟨hroom, hregisters, hrest⟩ := readBlock_eq_some hparts.registers
  unfold deserializeTwice
  rw [hvalidate]
  dsimp only
  unfold setVariantIndex
  rw [hindex, Option.map_some]
  dsimp only
  rw [P.applyHistory_eq _ hparts.history, foldl_recordEntry]
  dsimp only
  rw [applyTimers_eq _ hparts.timers]
  dsimp only
  rw [← hregisters, ← hrest]
  unfold restored overwrite
  split
  · rfl
  · rename_i hempty
    have hzero : parts.header.registersSize = 0 := Nat.eq_zero_of_not_pos hempty
    rw [hzero, List.drop_zero] at hrest
    rw [← hrest]

theorem deserializeTwice_eq (m : Machine σ) (src : List UInt8) : P.deserializeTwice L m src =
      match P.deserialize L m src with
      | none => (m, false, 0)
      | some (m', bytesRead) => (m', true, bytesRead) := by
  cases hread : P.deserialize L m src with
  | some result =>
    obtain ⟨m', bytesRead⟩ := result
    obtain ⟨parts, state, hparts, haccepts, hindex, rfl, rfl⟩ := deserialize_eq_some_iff.mp hread
    exact deserializeTwice_of_accepts hparts haccepts m hindex
  | none =>
    have hnone : P.validate L src = none := by
      rw [Option.eq_none_iff_forall_ne_some]
      rintro ⟨header, start⟩ hvalidate
      obtain ⟨parts, hparts, haccepts, -, -⟩ := validate_eq_some_iff.mp hvalidate
      obtain ⟨state, hindex⟩ : ∃ state, P.states[parts.header.stateIndex]? = some state :=
        ⟨_, List.getElem?_eq_getElem haccepts.state⟩
      have hsome : P.deserialize L m src =
          some (P.restored L m parts state, src.length - parts.rest.length) :=
        deserialize_eq_some_iff.mpr ⟨parts, state, hparts, haccepts, hindex, rfl, rfl⟩
      rw [hread] at hsome
      cases hsome
    unfold deserializeTwice
    rw [hnone]

/-! ## All or nothing -/

/-- A failure leaves the machine; after a success everything that the input holds has been restored. -/
structure AllOrNothing (P : Program σ) (L : Layout σ.Registers) (m : Machine σ) (src : List UInt8) : Prop where
  nothing : (P.deserializeTwice L m src).2.1 = false → (P.deserializeTwice L m src).1 = m
  all : (P.deserializeTwice L m src).2.1 = true → ∃ parts, SnapshotParts.Of src parts ∧
    (∀ entry ∈ parts.history, entry ∈ (P.deserializeTwice L m src).1.history) ∧
    (P.deserializeTwice L m src).1.history.length = parts.header.historyCount ∧
    (∀ entry ∈ parts.timers, entry ∈ (P.deserializeTwice L m src).1.timers.activeEntries) ∧
    (P.deserializeTwice L m src).1.timers.activeCount = parts.header.timerCount ∧
    (P.deserializeTwice L m src).2.2 = src.length - parts.rest.length

/-- There is room for what accepted parts hold: the parents differ, no name is empty, and neither the history nor
the timers are more than the machine has room for. -/
def Restorable (P : Program σ) (L : Layout σ.Registers) (m : Machine σ) (src : List UInt8) : Prop :=
  ∀ parts, SnapshotParts.Of src parts → P.Accepts L parts →
    P.Recorded parts.history ∧ parts.timers.length ≤ m.timers.entries.length

variable (P) in
theorem recordHistory_eq_or_le (history : List (String × String)) (parent substate : String) :
    P.recordHistory history parent substate = history ++ [(parent, substate)] ∨
      (P.recordHistory history parent substate).length ≤ history.length := by
  unfold recordHistory
  split
  · exact Or.inr le_rfl
  · split
    · exact Or.inr (List.length_modify ..).le
    · split
      · exact Or.inl rfl
      · exact Or.inr le_rfl

variable (P) in
theorem length_foldl_recordHistory (entries : List (String × String)) : ∀ history : List (String × String),
      (entries.foldl (fun h e => P.recordHistory h e.1 e.2) history).length ≤ history.length + entries.length := by
  induction entries with
  | nil => exact fun _ => le_rfl
  | cons entry entries ih =>
    intro history
    have hrest := ih (P.recordHistory history entry.1 entry.2)
    rw [List.foldl_cons, List.length_cons]
    rcases P.recordHistory_eq_or_le history entry.1 entry.2 with heq | hle
    · rw [heq, List.length_append, List.length_singleton] at hrest
      rw [heq]
      omega
    · omega

theorem foldl_recordHistory_of_length : ∀ (entries history : List (String × String)),
    (entries.foldl (fun h e => P.recordHistory h e.1 e.2) history).length = history.length + entries.length →
      entries.foldl (fun h e => P.recordHistory h e.1 e.2) history = history ++ entries
  | [], history, _ => (List.append_nil history).symm
  | entry :: entries, history, h => by
    rw [List.foldl_cons, List.length_cons] at h
    rw [List.foldl_cons]
    rcases P.recordHistory_eq_or_le history entry.1 entry.2 with heq | hle
    · rw [heq] at h ⊢
      rw [foldl_recordHistory_of_length entries (history ++ [entry])
        (by rw [h, List.length_append, List.length_singleton]; omega)]
      rw [List.append_assoc]
      rfl
    · have hrest := P.length_foldl_recordHistory entries (P.recordHistory history entry.1 entry.2)
      omega

theorem recorded_of_length {entries : List (String × String)}
    (h : (P.replayHistory entries).length = entries.length) : P.Recorded entries := by
  have heq : P.replayHistory entries = entries := by
    unfold replayHistory at h ⊢
    split
    · rename_i hhas
      rw [if_pos hhas] at h
      rw [foldl_recordHistory_of_length entries [] (by rw [h, List.length_nil, Nat.zero_add])]
      rfl
    · rename_i hno
      rw [if_neg hno] at h
      exact (List.eq_nil_of_length_eq_zero h.symm).symm
  rw [← heq]
  exact recorded_replayHistory entries

/-- A snapshot is restored as a whole or not at all if and only if there is room for what it holds. -/
theorem allOrNothing_iff (m : Machine σ) (src : List UInt8) : P.AllOrNothing L m src ↔ P.Restorable L m src := by
  constructor
  · intro h parts hparts haccepts
    obtain ⟨state, hindex⟩ : ∃ state, P.states[parts.header.stateIndex]? = some state :=
      ⟨_, List.getElem?_eq_getElem haccepts.state⟩
    have hcall := deserializeTwice_of_accepts hparts haccepts m hindex
    have hall := h.all
    rw [hcall] at hall
    obtain ⟨parts', hparts', -, hhistory, -, htimers, -⟩ := hall rfl
    obtain rfl := hparts.unique hparts'
    refine ⟨recorded_of_length ?_, ?_⟩
    · exact hhistory.trans (length_readMany hparts.history).symm
    · rw [length_readMany hparts.timers, ← htimers]
      refine List.countP_le_length.trans_eq ?_
      exact (TimerManager.slots_restore _ _).trans (TimerManager.length_reset _)
  · intro h
    have heq : P.deserializeTwice L m src = _ := deserializeTwice_eq m src
    cases hread : P.deserialize L m src with
    | none =>
      rw [hread] at heq
      constructor
      · intro _
        rw [heq]
      · intro hsuccess
        rw [heq] at hsuccess
        cases hsuccess
    | some result =>
      obtain ⟨m', bytesRead⟩ := result
      rw [hread] at heq
      obtain ⟨parts, state, hparts, haccepts, -, rfl, rfl⟩ := deserialize_eq_some_iff.mp hread
      obtain ⟨hrecorded, hroom⟩ := h parts hparts haccepts
      have hhistory : (P.restored L m parts state).history = parts.history := hrecorded.replayHistory_eq
      have hpacked := (TimerManager.packed_reset m.timers).restore parts.timers
        (forall_readMany active_readTimer hparts.timers)
        (by rw [List.length_nil, Nat.zero_add, TimerManager.length_reset]; exact hroom)
      have htimers : (P.restored L m parts state).timers.activeEntries = parts.timers := hpacked.activeEntries
      constructor
      · intro hfailure
        rw [heq] at hfailure
        cases hfailure
      · intro _
        rw [heq]
        dsimp only
        have hcount : (P.restored L m parts state).timers.activeCount = parts.timers.length := by
          rw [← htimers]
          exact List.countP_eq_length_filter ..
        rw [hhistory, htimers, hcount]
        exact ⟨parts, hparts, fun _ hentry => hentry, length_readMany hparts.history, fun _ hentry => hentry,
          length_readMany hparts.timers, rfl⟩

end Program

/-! ## A parent that is recorded twice -/

/-- Two records of state 0, for a machine in state 1. -/
def twicePayload : List UInt8 := historyBytes ("0", "1") ++ (historyBytes ("0", "2") ++ [0])

def twiceSnapshot : List UInt8 :=
  SnapshotHeader.bytes
    { historyCount := 2
      registersSize := 1
      payloadChecksum := (computeChecksum twicePayload).toNat } ++ twicePayload

/-- The second record replaces the first one, so that one of two is restored. -/
theorem counting_not_allOrNothing : ¬ ∀ m src, counting.AllOrNothing byteLayout m src := by
  intro h
  have hread : (counting.deserializeTwice byteLayout (counted []) twiceSnapshot).2.1 = true := by decide +kernel
  obtain ⟨parts, hparts, -, hhistory, -⟩ := (h (counted []) twiceSnapshot).all hread
  have hcount : (readHeader twiceSnapshot).map (fun p => p.1.historyCount) = some 2 := by decide +kernel
  have hlength : (counting.deserializeTwice byteLayout (counted []) twiceSnapshot).1.history.length = 1 := by
    decide +kernel
  rw [hparts.header] at hcount
  have htwo : parts.header.historyCount = 2 := Option.some.inj hcount
  rw [hlength, htwo] at hhistory
  exact absurd hhistory (by decide)

end Fsmc.Backend
