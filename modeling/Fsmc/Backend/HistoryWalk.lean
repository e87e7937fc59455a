/-
# Fsmc.Backend.HistoryWalk — looking a history up from entry to entry.

`history_is` follows the recorded substates until it finds the one it looks for or an entry that is empty. It has
no bound of its own, so that it comes to an end only if the entries form no cycle. What a machine records follows
its hierarchy; a snapshot can hold any entries.
-/
import Fsmc.Backend.Deserialize
import Fsmc.Lib.Walk

namespace Fsmc.Backend

open ByteStream Machine Relation

variable {σ : Signature}

/-! ## The loop -/

def getHistory (history : List (String × String)) (parent : String) : String :=
  ((history.find? fun entry => entry.1 = parent).map (·.2)).getD ""

/-- The loop of `history_is`, as far as a number of turns goes. -/
def historyLoop (history : List (String × String)) (sub : String) : ℕ → String → Option Bool
  | 0, _ => none
  | n + 1, curr =>
    if curr = "" then some false
    else if curr = sub then some true
    else historyLoop history sub n (getHistory history curr)

/-- The walk from every parent reaches an empty entry. -/
def WalkEnds (history : List (String × String)) : Prop :=
  ∀ parent, ∃ n, (getHistory history)^[n + 1] parent = ""

variable {history : List (String × String)}

theorem mem_of_getHistory {parent : String}
    (h : getHistory history parent ≠ "") : (parent, getHistory history parent) ∈ history := by
  unfold getHistory at h ⊢
  cases hfind : history.find? fun entry => entry.1 = parent with
  | none =>
    rw [hfind] at h
    exact absurd rfl h
  | some entry =>
    have hparent : entry.1 = parent := by simpa using List.find?_some hfind
    rw [← hparent]
    exact List.mem_of_find?_eq_some hfind

theorem walkEnds_of_acyclic {Edge : String → String → Prop}
    (hentries : ∀ entry ∈ history, Edge entry.1 entry.2) (hacyclic : ∀ a, ¬ TransGen Edge a a) :
    WalkEnds history := by
  intro parent
  by_contra hnever
  have hnonempty : ∀ n, (getHistory history)^[n + 1] parent ≠ "" := fun n hn => hnever ⟨n, hn⟩
  have hmem : ∀ n, ((getHistory history)^[n] parent, (getHistory history)^[n + 1] parent) ∈ history := by
    intro n
    have hn := hnonempty n
    rw [Function.iterate_succ_apply'] at hn ⊢
    exact mem_of_getHistory hn
  have hfinite : {a | a ∈ history.map (·.1)}.Finite := List.finite_toSet _
  obtain ⟨n, hout | hno⟩ : ∃ n, (getHistory history)^[n] parent ∉ {a | a ∈ history.map (·.1)} ∨
      ¬ Edge ((getHistory history)^[n] parent) ((getHistory history)^[n + 1] parent) :=
    Lib.exists_leaves hfinite hacyclic
  · exact hout (List.mem_map.mpr ⟨_, hmem n, rfl⟩)
  · exact hno (hentries _ (hmem n))

/-! ## What a machine records -/

namespace Program

variable (P : Program σ)

/-- The entries that a machine can record when it leaves a state. -/
def HistoryEdge (parent substate : String) : Prop :=
  ∃ s, (parent, substate) ∈ P.historyOf (P.chain s) ∧ parent ≠ "" ∧ substate ≠ ""

variable {P}

variable {entry : String × String}

theorem mem_recordHistory {history : List (String × String)} {parent substate : String}
    (h : entry ∈ P.recordHistory history parent substate) :
    entry ∈ history ∨ (entry = (parent, substate) ∧ parent ≠ "" ∧ substate ≠ "") := by
  unfold recordHistory at h
  split at h
  · exact Or.inl h
  · rename_i hempty
    have hnames : parent ≠ "" ∧ substate ≠ "" := by simpa using hempty
    split at h
    -- the entry of the parent is replaced, and its parent is this one
    · obtain ⟨i, hi, hentry⟩ := List.mem_iff_getElem.mp h
      rw [List.length_modify] at hi
      rw [List.getElem_modify] at hentry
      split at hentry
      · rename_i hindex
        subst hindex
        have hparent := @List.findIdx_getElem _ (fun e : String × String => decide (e.1 = parent)) history hi
        refine Or.inr ⟨?_, hnames⟩
        rw [← hentry, of_decide_eq_true hparent]
      · exact Or.inl (hentry ▸ List.getElem_mem hi)
    · split at h
      · rcases List.mem_append.mp h with hmem | hnew
        · exact Or.inl hmem
        · exact Or.inr ⟨List.mem_singleton.mp hnew, hnames⟩
      · exact Or.inl h

theorem mem_foldl_recordHistory (entries : List (String × String)) :
    ∀ {history : List (String × String)},
      entry ∈ entries.foldl (fun h e => P.recordHistory h e.1 e.2) history →
        entry ∈ history ∨ (entry ∈ entries ∧ entry.1 ≠ "" ∧ entry.2 ≠ "") := by
  induction entries with
  | nil => exact fun h => Or.inl h
  | cons first entries ih =>
    intro history h
    rcases ih h with hmem | ⟨hmem, hnames⟩
    · rcases mem_recordHistory hmem with hold | ⟨rfl, hnames⟩
      · exact Or.inl hold
      · exact Or.inr ⟨List.mem_cons_self, hnames⟩
    · exact Or.inr ⟨List.mem_cons_of_mem _ hmem, hnames⟩

theorem stable_entries {Edge : String → String → Prop}
    (hedges : ∀ parent substate, P.HistoryEdge parent substate → Edge parent substate) :
    P.Stable fun m => ∀ entry ∈ m.history, Edge entry.1 entry.2 where
  direct m event input h := by
    rcases P.dispatchDirect_eq m event input with ⟨row, _, heq⟩ | ⟨_, heq, _⟩
    · rw [heq]
      dsimp only
      unfold execute
      split
      · rw [history_executeExternal]
        unfold recordLeaving
        split
        · intro entry hentry
          rcases mem_foldl_recordHistory _ hentry with hold | ⟨hnew, hparent, hsubstate⟩
          · exact h entry hold
          · exact hedges _ _ ⟨m.state, hnew, hparent, hsubstate⟩
        · exact h
      · exact h
    · rw [heq]
      exact h
  activity _ _ h := h
  ports _ _ h := h
  deferred _ _ h := h
  residence _ _ h := h
  violation _ _ h := h
  advance _ _ h := h

end Program

/-! ## Runs -/

/-- A call that a machine works on, or a snapshot that is read. -/
inductive HistoryOp (σ : Signature) where
  | operate (op : MachineOp σ)
  | deserialize (src : List UInt8)

namespace Program

variable (P : Program σ) (L : Layout σ.Registers)

/-- What a call does. -/
def historyStep (m : Machine σ) : HistoryOp σ → Machine σ
  | .operate op => P.operate m op
  | .deserialize src => (P.deserializeTwice L m src).1

/-- The entries of an accepted snapshot form no cycle, taken together with those that the machine can record. -/
def RestoresForest (_ : Machine σ) : HistoryOp σ → Prop
  | .operate _ => True
  | .deserialize src => ∀ parts, SnapshotParts.Of src parts → P.Accepts L parts → ∀ name,
      ¬ TransGen (fun a b => P.HistoryEdge a b ∨ (a, b) ∈ parts.history) name name

variable {P L}

/-- What every state of such a run keeps. -/
def Forest (P : Program σ) (m : Machine σ) : Prop :=
  ∃ Edge : String → String → Prop, (∀ parent substate, P.HistoryEdge parent substate → Edge parent substate) ∧
    (∀ entry ∈ m.history, Edge entry.1 entry.2) ∧ ∀ name, ¬ TransGen Edge name name

theorem Forest.step {m : Machine σ} {op : HistoryOp σ} (h : P.Forest m) (hop : P.RestoresForest L m op) :
    P.Forest (P.historyStep L m op) := by
  cases op with
  | operate op =>
    obtain ⟨Edge, hedges, hentries, hacyclic⟩ := h
    exact ⟨Edge, hedges, (stable_entries hedges).operate hentries op, hacyclic⟩
  | deserialize src =>
    unfold historyStep
    dsimp only
    rw [deserializeTwice_eq]
    cases hread : P.deserialize L m src with
    | none => exact h
    | some result =>
      obtain ⟨m', bytesRead⟩ := result
      obtain ⟨parts, state, hparts, haccepts, -, rfl, -⟩ := deserialize_eq_some_iff.mp hread
      refine ⟨_, fun parent substate hedge => Or.inl hedge, ?_, hop parts hparts haccepts⟩
      intro entry hentry
      have hreplay : entry ∈ P.replayHistory parts.history := hentry
      unfold replayHistory at hreplay
      split at hreplay
      · rcases mem_foldl_recordHistory _ hreplay with hnil | hmem
        · exact (List.not_mem_nil hnil).elim
        · exact Or.inr hmem.1
      · exact (List.not_mem_nil hreplay).elim

theorem history_construct (initial : σ.State) (value : σ.Value) (reg : σ.Registers) (srv : σ.Services) :
    (P.construct initial value reg srv).history = [] :=
  P.performAll_frame (·.history) (fun _ _ _ _ => rfl) _ _ _ _

/-- Lookups end in every state of a run, if neither the names of the hierarchy nor the snapshots that are read
form a cycle. -/
theorem walkEnds_run {initial : σ.State} {value : σ.Value} {reg : σ.Registers} {srv : σ.Services}
    {ops : List (HistoryOp σ)} (hnames : ∀ name, ¬ TransGen P.HistoryEdge name name)
    (hops : Runs.Along (P.historyStep L) (P.RestoresForest L) (P.construct initial value reg srv) ops) :
    WalkEnds (ops.foldl (P.historyStep L) (P.construct initial value reg srv)).history := by
  have hstart : P.Forest (P.construct initial value reg srv) := by
    refine ⟨P.HistoryEdge, fun _ _ h => h, ?_, hnames⟩
    rw [history_construct]
    exact fun _ hentry => (List.not_mem_nil hentry).elim
  have hkeep : ∀ m op, P.Forest m → P.RestoresForest L m op → P.Forest (P.historyStep L m op) :=
    fun m op hm hop => hm.step hop
  have hforest : P.Forest (ops.foldl (P.historyStep L) (P.construct initial value reg srv)) :=
    Runs.along_invariant hkeep ops _ hstart hops
  obtain ⟨Edge, -, hentries, hacyclic⟩ := hforest
  exact walkEnds_of_acyclic hentries hacyclic

end Program

/-! ## A cycle of records -/

/-- A snapshot of a machine in state 1, with these entries. -/
def snapshotOf (history : List (String × String)) : List UInt8 :=
  let payload := history.flatMap historyBytes ++ [0]
  SnapshotHeader.bytes
    { historyCount := history.length
      registersSize := 1
      payloadChecksum := (computeChecksum payload).toNat } ++ payload

/-- State 1 was active in state 0, and state 0 in state 1: the lookup goes back and forth. -/
theorem counting_not_walkEnds : ¬ ∀ ops : List (HistoryOp Signature.byte),
    WalkEnds (ops.foldl (counting.historyStep byteLayout) (counting.construct 1 () 0 ())).history := by
  intro h
  have hhistory : ([HistoryOp.deserialize (snapshotOf [("0", "1"), ("1", "0")])].foldl
      (counting.historyStep byteLayout) (counting.construct 1 () 0 ())).history = [("0", "1"), ("1", "0")] := by
    decide +kernel
  obtain ⟨n, hn⟩ := h [.deserialize (snapshotOf [("0", "1"), ("1", "0")])] "0"
  rw [hhistory] at hn
  have hcycle : ∀ n, (getHistory [("0", "1"), ("1", "0")])^[n] "0" = "0" ∨
      (getHistory [("0", "1"), ("1", "0")])^[n] "0" = "1" := by
    intro n
    induction n with
    | zero => exact Or.inl rfl
    | succ n ih =>
      rw [Function.iterate_succ_apply']
      rcases ih with ih | ih
      · rw [ih]
        exact Or.inr (by decide +kernel)
      · rw [ih]
        exact Or.inl (by decide +kernel)
  rcases hcycle (n + 1) with hzero | hone
  · rw [hn] at hzero
    exact absurd hzero (by decide +kernel)
  · rw [hn] at hone
    exact absurd hone (by decide +kernel)

theorem counting_edge {parent substate : String} (h : counting.HistoryEdge parent substate) :
    parent = "0" ∧ substate ≠ "0" := by
  obtain ⟨s, hmem, -, -⟩ := h
  have hroot : counting.parent 0 = none := by decide
  by_cases hs : s = 1 ∨ s = 2
  · have hparent : counting.parent s = some 0 := if_pos hs
    rw [counting.chain_of_some hparent, counting.chain_of_none hroot] at hmem
    have hentry : (parent, substate) = (toString 0, toString s) := by simpa [Program.historyOf, counting] using hmem
    obtain ⟨rfl, rfl⟩ := Prod.mk.inj hentry
    refine ⟨by decide +kernel, ?_⟩
    rcases hs with rfl | rfl <;> decide +kernel
  · have hparent : counting.parent s = none := if_neg hs
    rw [counting.chain_of_none hparent] at hmem
    exact (List.not_mem_nil hmem).elim

/-- A transition, and a snapshot with an entry as the machine records it. -/
def restoring : List (HistoryOp Signature.byte) :=
  [.operate (.dispatch ⟨2, ()⟩ none), .deserialize (snapshotOf [("0", "2")])]

theorem counting_walkEnds :
    WalkEnds (restoring.foldl (counting.historyStep byteLayout) (counting.construct 1 () 0 ())).history := by
  have hrank : ∀ Edge : String → String → Prop, (∀ a b, Edge a b → a = "0" ∧ b ≠ "0") → ∀ name,
      ¬ TransGen Edge name name := fun Edge hedge =>
    Lib.acyclic_of_rank (fun name => if name = "0" then 0 else 1) fun a b hab => by
      obtain ⟨rfl, hb⟩ := hedge a b hab
      simp [hb]
  refine Program.walkEnds_run (hrank _ fun a b hab => counting_edge hab) ⟨trivial, ?_, trivial⟩
  intro parts hparts _
  refine hrank _ fun a b hab => ?_
  rcases hab with hab | hab
  · exact counting_edge hab
  · have hread : ((readHeader (snapshotOf [("0", "2")])).bind fun p =>
        (readMany readHistory p.1.historyCount p.2).map (·.1)) = some [("0", "2")] := by decide +kernel
    rw [hparts.header, Option.bind_some, hparts.history] at hread
    rw [show parts.history = [("0", "2")] from Option.some.inj hread, List.mem_singleton] at hab
    cases hab
    exact ⟨rfl, by decide +kernel⟩

end Fsmc.Backend
