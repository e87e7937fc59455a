/-
# Fsmc.Backend.Session — a machine with a recorder that takes it back.

A session interleaves the calls of a machine with those of a recorder of its snapshots. Whatever has happened
since, going back leads to a machine that goes on like the machine did when the snapshot was recorded, apart from
the events that are deferred and from a state object that had been changed.
-/
import Fsmc.Backend.Restore
import Fsmc.Backend.SnapshotRecorder

namespace Fsmc.Backend

open ByteStream

namespace UndoStack

variable {M : Type} {serialize : M → Option (List UInt8)} {deserialize : M → List UInt8 → Option M}
  {capacity maxSnapshotSize : ℕ} (s : UndoStack) (machine : M)

theorem rollback_of_valid {k : ℕ} {snapshot : Snapshot} {restored : M} (hfound : s.snapshots.reverse[k]? = some snapshot)
    (hvalid : snapshot.valid maxSnapshotSize = true) (hread : deserialize machine snapshot.bytes = some restored) :
    (s.rollback deserialize maxSnapshotSize machine (k + 1)).1 = (true, restored) := by
  simp only [rollback, hfound, Option.filter_some, hvalid, if_pos, Option.bind_some, hread]

theorem call_cases (c : RecorderCall) (hc : ∀ tag timestampUs, c ≠ .record tag timestampUs) :
    (∃ n, (s.call serialize deserialize capacity maxSnapshotSize machine c).2.snapshots = s.snapshots.take n) ∧
      ((s.call serialize deserialize capacity maxSnapshotSize machine c).1.2 = machine ∨
        ∃ bytes, deserialize machine bytes =
          some (s.call serialize deserialize capacity maxSnapshotSize machine c).1.2) := by
  have hrollback : ∀ steps,
      (∃ n, (s.rollback deserialize maxSnapshotSize machine steps).2.snapshots = s.snapshots.take n) ∧
        ((s.rollback deserialize maxSnapshotSize machine steps).1.2 = machine ∨
          ∃ bytes, deserialize machine bytes = some (s.rollback deserialize maxSnapshotSize machine steps).1.2) := by
    intro steps
    cases steps with
    | zero => exact ⟨⟨_, (List.take_length ..).symm⟩, .inl rfl⟩
    | succ k =>
      cases hread : ((s.snapshots.reverse[k]?).filter (Snapshot.valid maxSnapshotSize)).bind
          fun snapshot => deserialize machine snapshot.bytes with
      | none =>
        simp only [rollback, hread]
        exact ⟨⟨_, (List.take_length ..).symm⟩, .inl trivial⟩
      | some restored =>
        obtain ⟨snapshot, -, hrestored⟩ := Option.bind_eq_some_iff.mp hread
        simp only [rollback, hread]
        exact ⟨⟨_, rfl⟩, .inr ⟨_, hrestored⟩⟩
  cases c with
  | record tag timestampUs => exact absurd rfl (hc tag timestampUs)
  | rollback steps => exact hrollback steps
  | rewindToCheckpoint tag =>
    show (∃ n, (s.rewindToCheckpoint deserialize maxSnapshotSize machine tag).2.snapshots = _) ∧ _
    unfold call rewindToCheckpoint
    dsimp only
    cases s.snapshots.reverse.findIdx? _ with
    | none => exact ⟨⟨_, (List.take_length ..).symm⟩, .inl rfl⟩
    | some i => exact hrollback (i + 1)
  | clear => exact ⟨⟨0, rfl⟩, .inl rfl⟩

end UndoStack

variable {σ : Signature}

/-- A call of the machine, or of a recorder for the machine. -/
inductive SessionCall (σ : Signature) where
  | operate (op : MachineOp σ)
  | recorder (c : RecorderCall)

/-- The machine and the recorder; and, what the program does not keep, the machines as they were when the
snapshots in the recorder were recorded, the oldest first. -/
structure Session (σ : Signature) where
  machine : Machine σ
  recorder : SnapshotRecorder := {}
  saved : List (Machine σ) := []

namespace Program

variable (P : Program σ) (L : Layout σ.Registers) (capacity maxSnapshotSize : ℕ)

/-- What `serialize` writes. -/
def image (m : Machine σ) : List UInt8 := (P.snapshotHeader L m).bytes ++ payload L m

/-- `serialize`, as the recorder calls it. -/
def write (m : Machine σ) : Option (List UInt8) := (P.serialize L m maxSnapshotSize).map (·.1)

/-- `deserialize`, as the recorder calls it. -/
def read (m : Machine σ) (src : List UInt8) : Option (Machine σ) := (P.deserialize L m src).map (·.1)

def callRecorder (s : Session σ) (c : RecorderCall) : (Bool × Machine σ) × SnapshotRecorder :=
  s.recorder.call (P.write L maxSnapshotSize) (P.read L) capacity maxSnapshotSize s.machine c

/-- One step of a session. The saved machines grow with the recorder and are cut with it. -/
def sessionStep (s : Session σ) : SessionCall σ → Session σ
  | .operate op => { s with machine := P.operate s.machine op }
  | .recorder c =>
    let after := P.callRecorder L capacity maxSnapshotSize s c
    { machine := after.1.2
      recorder := after.2
      saved :=
        match c with
        | .record _ _ => if after.1.1 then UndoStack.keepNewest capacity (s.saved ++ [s.machine]) else s.saved
        | _ => s.saved.take after.2.count }

/-- The recorder holds the images of the saved machines, which fit its entries, and all machines are reachable. -/
structure SessionInv (s : Session σ) : Prop where
  ring : SnapshotRecorder.Inv capacity s.recorder
  images : (s.recorder.stack capacity).snapshots.map (·.bytes) = s.saved.map (P.image L)
  machine : P.Reachable L s.machine
  saved : ∀ m ∈ s.saved, P.Reachable L m ∧ serializedSize L m ≤ maxSnapshotSize

variable {P L capacity maxSnapshotSize} {s : Session σ}

theorem SessionInv.length (h : P.SessionInv L capacity maxSnapshotSize s) : s.saved.length = s.recorder.count := by
  have hlength := congrArg List.length h.images
  rw [List.length_map, List.length_map] at hlength
  rw [h.ring.observers.1, hlength]

theorem write_eq {m : Machine σ} {bytes : List UInt8} (h : P.write L maxSnapshotSize m = some bytes) :
    bytes = P.image L m ∧ serializedSize L m ≤ maxSnapshotSize := by
  unfold write serialize at h
  split at h
  · cases h
  · next hsize => exact ⟨(Option.some.inj h).symm, by omega⟩

/-- What is written is no longer than announced; it is shorter where a name is too long. -/
theorem length_image (m : Machine σ) : (P.image L m).length ≤ serializedSize L m := by
  have htimers : ∀ entries : List TimerEntry, (entries.flatMap timerBytes).length = entries.length * 21 := by
    intro entries
    induction entries with
    | nil => rfl
    | cons entry entries ih =>
      rw [List.flatMap_cons, List.length_append, ih, List.length_cons]
      simp only [timerBytes, List.length_append, length_encode]
      omega
  have hhistory : ∀ history : List (String × String), (history.flatMap historyBytes).length ≤
      (history.map fun entry => 2 + (rawBytes entry.1).length + (2 + (rawBytes entry.2).length)).sum := by
    intro history
    induction history with
    | nil => exact le_rfl
    | cons entry history ih =>
      rw [List.flatMap_cons, List.length_append, List.map_cons, List.sum_cons]
      simp only [historyBytes, textBytes, List.length_append, length_encode, List.length_take]
      omega
  have hcount : m.timers.activeEntries.length = m.timers.activeCount := (List.countP_eq_length_filter ..).symm
  have hnames := hhistory m.history
  simp only [image, payload, SnapshotHeader.bytes, List.length_append, length_encode, htimers, hcount,
    L.length_bytes, serializedSize]
  omega

theorem reachable_read {m m' : Machine σ} {src : List UInt8} (hm : P.Reachable L m) (h : P.read L m src = some m') :
    P.Reachable L m' := by
  obtain ⟨⟨restored, bytesRead⟩, hread, rfl⟩ := Option.map_eq_some_iff.mp h
  exact .deserialize hm hread

theorem SessionInv.call (h : P.SessionInv L capacity maxSnapshotSize s) (c : RecorderCall) :
    (P.callRecorder L capacity maxSnapshotSize s c).1 = ((s.recorder.stack capacity).call
        (P.write L maxSnapshotSize) (P.read L) capacity maxSnapshotSize s.machine c).1 ∧
      (P.callRecorder L capacity maxSnapshotSize s c).2.stack capacity = ((s.recorder.stack capacity).call
        (P.write L maxSnapshotSize) (P.read L) capacity maxSnapshotSize s.machine c).2 :=
  Prod.ext_iff.mp (h.ring.stack_call s.machine c)

theorem SessionInv.record (h : P.SessionInv L capacity maxSnapshotSize s) (tag timestampUs : ℕ) :
    P.SessionInv L capacity maxSnapshotSize (P.sessionStep L capacity maxSnapshotSize s (.recorder (.record tag timestampUs))) := by
  obtain ⟨hanswer, hstack⟩ := h.call (.record tag timestampUs)
  have hring : SnapshotRecorder.Inv capacity
      (P.callRecorder L capacity maxSnapshotSize s (.record tag timestampUs)).2 := h.ring.call _ _
  unfold sessionStep
  cases hwrite : P.write L maxSnapshotSize s.machine with
  | none =>
    simp only [UndoStack.call, UndoStack.record, hwrite] at hanswer hstack
    refine ⟨hring, ?_, ?_, ?_⟩ <;> dsimp only
    · rw [hstack, hanswer]
      exact h.images
    · rw [hanswer]
      exact h.machine
    · rw [hanswer]
      exact h.saved
  | some bytes =>
    simp only [UndoStack.call, UndoStack.record, hwrite] at hanswer hstack
    refine ⟨hring, ?_, ?_, ?_⟩ <;> dsimp only
    · rw [hstack, hanswer, (write_eq hwrite).1, if_pos rfl]
      have hlength := congrArg List.length h.images
      simp only [List.length_map] at hlength
      simp only [UndoStack.keepNewest, List.map_drop, List.map_append, List.map_singleton, h.images,
        List.length_append, List.length_singleton, hlength]
    · rw [hanswer]
      exact h.machine
    · rw [hanswer, if_pos rfl]
      intro m hm
      rcases List.mem_append.mp (List.mem_of_mem_drop hm) with hm | hm
      · exact h.saved m hm
      · exact List.mem_singleton.mp hm ▸ ⟨h.machine, (write_eq hwrite).2⟩

theorem SessionInv.recorder (h : P.SessionInv L capacity maxSnapshotSize s) (c : RecorderCall) :
    P.SessionInv L capacity maxSnapshotSize (P.sessionStep L capacity maxSnapshotSize s (.recorder c)) := by
  by_cases hc : ∃ tag timestampUs, c = .record tag timestampUs
  · obtain ⟨tag, timestampUs, rfl⟩ := hc
    exact h.record tag timestampUs
  · have hring : SnapshotRecorder.Inv capacity (P.callRecorder L capacity maxSnapshotSize s c).2 := h.ring.call _ _
    obtain ⟨hanswer, hstack⟩ := h.call c
    obtain ⟨⟨n, hcut⟩, hmachine⟩ := (s.recorder.stack capacity).call_cases s.machine c
      fun tag timestampUs heq => hc ⟨tag, timestampUs, heq⟩
    rw [← hstack] at hcut
    rw [← hanswer] at hmachine
    have hsaved : (P.sessionStep L capacity maxSnapshotSize s (.recorder c)).saved =
        s.saved.take (P.callRecorder L capacity maxSnapshotSize s c).2.count := by
      cases c with
      | record tag timestampUs => exact absurd ⟨tag, timestampUs, rfl⟩ hc
      | _ => rfl
    refine ⟨hring, ?_, ?_, ?_⟩
    · rw [hsaved, List.map_take, ← h.images, ← List.map_take, hring.observers.1, hcut, List.length_take,
        ← List.take_eq_take_min]
      exact congrArg _ hcut
    · rcases hmachine with heq | ⟨bytes, hread⟩
      · exact (heq ▸ h.machine : P.Reachable L (P.callRecorder L capacity maxSnapshotSize s c).1.2)
      · exact reachable_read h.machine hread
    · rw [hsaved]
      exact fun m hm => h.saved m (List.mem_of_mem_take hm)

theorem sessionInv_run (calls : List (SessionCall σ)) (h : P.SessionInv L capacity maxSnapshotSize s) :
    P.SessionInv L capacity maxSnapshotSize (calls.foldl (P.sessionStep L capacity maxSnapshotSize) s) := by
  induction calls generalizing s with
  | nil => exact h
  | cons call calls ih =>
    refine ih ?_
    cases call with
    | operate op => exact ⟨h.ring, h.images, .operate op h.machine, h.saved⟩
    | recorder c => exact h.recorder c

end Program

/-- The machine is saved, and four more milliseconds pass. -/
def savedSession : Session Signature.byte :=
  [SessionCall.recorder (.record 1 0), .operate (.tick 4)].foldl (counting.sessionStep byteLayout 2 1000)
    ⟨counted savedOps, {}, []⟩

end Fsmc.Backend
