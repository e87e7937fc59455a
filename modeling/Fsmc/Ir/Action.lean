/-
# Fsmc.Ir.Action — what transitions and states execute.

An action is a named signature that carries register assignments and primitive instructions.
-/

namespace Fsmc.Ir

inductive AssignmentOp where
  | assign | addAssign | subAssign | mulAssign | divAssign | modAssign | shlAssign | shrAssign
  | andAssign | orAssign | xorAssign
  deriving DecidableEq, Repr

inductive LValueScope where
  | register | outPort | local
  deriving DecidableEq, Repr

structure LValueTarget where
  name : String := ""
  scope : LValueScope := .register
  memberPath : List String := []
  constantIndex : Option UInt32 := none
  deriving DecidableEq, Repr

def LValueTarget.fullPath (t : LValueTarget) : String :=
  let path := t.memberPath.foldl (fun res member => res ++ "." ++ member) t.name
  match t.constantIndex with
  | none => path
  | some i => path ++ "[" ++ toString i.toNat ++ "]"

structure ActionAssignment where
  target : LValueTarget := {}
  op : AssignmentOp := .assign
  expression : String := ""
  deriving DecidableEq, Repr

structure StoreOp where
  target : LValueTarget := {}
  op : AssignmentOp := .assign
  expression : String := ""
  deriving DecidableEq, Repr

structure PortWriteOp where
  portName : String := ""
  expression : String := ""
  isLatched : Bool := false
  deriving DecidableEq, Repr

structure PortReadOp where
  portName : String := ""
  destination : LValueTarget := {}
  deriving DecidableEq, Repr

structure SignalEmitOp where
  signalName : String := ""
  arguments : List String := []
  targetPort : Option String := none
  deriving DecidableEq, Repr

structure ActionCallOp where
  functionName : String := ""
  arguments : List String := []
  readSet : List String := []
  writeSet : List String := []
  deriving DecidableEq, Repr

/-- `ActionAstNode`: one primitive instruction. -/
inductive ActionAstNode where
  | store (op : StoreOp)
  | portWrite (op : PortWriteOp)
  | portRead (op : PortReadOp)
  | signalEmit (op : SignalEmitOp)
  | actionCall (op : ActionCallOp)
  deriving DecidableEq, Repr

structure ActionSignature where
  name : String := ""
  invocation : String := ""
  acceptsEvent : Bool := false
  assignments : List ActionAssignment := []
  instructions : List ActionAstNode := []
  deriving DecidableEq, Repr

/-- `ActionSignature(act_name)`: the signature of a bare callback. -/
def ActionSignature.ofName (actName : String) : ActionSignature :=
  { name := actName, invocation := actName }

def ActionSignature.empty (a : ActionSignature) : Bool :=
  a.name = "" && a.invocation = "" && a.assignments.isEmpty && a.instructions.isEmpty

/-! ## Identifiers in texts -/

def isIdentChar (c : Char) : Bool := c.isAlphanum || c = '_'

/-- The identifier that a run of identifier characters is, if it does not start with a digit. -/
def identifierOf : List Char → List String
  | [] => []
  | c :: text => if c.isDigit then [] else [String.ofList (c :: text)]

/-- The loop of `extract_identifiers`, with the run read so far. -/
def extractFrom : List Char → List Char → List String
  | [], current => identifierOf current
  | c :: text, current =>
    if isIdentChar c then extractFrom text (current ++ [c])
    else identifierOf current ++ extractFrom text []

def extractIdentifiers (text : String) : List String := extractFrom text.toList []

/-- A text that is one identifier. -/
def isIdentifier (name : String) : Bool :=
  name.toList.all isIdentChar && !(identifierOf name.toList).isEmpty

theorem extractFrom_append {run rest current : List Char} (h : ∀ c ∈ run, isIdentChar c = true) :
    extractFrom (run ++ rest) current = extractFrom rest (current ++ run) := by
  induction run generalizing current with
  | nil => simp
  | cons c run ih =>
    have hc : isIdentChar c = true := h c List.mem_cons_self
    rw [List.cons_append, extractFrom, if_pos hc, ih fun c' hc' => h c' (List.mem_cons_of_mem _ hc'),
      List.append_assoc]
    rfl

theorem identifierOf_of_isIdentifier {name : String} (h : isIdentifier name = true) :
    identifierOf name.toList = [name] := by
  unfold isIdentifier at h
  cases hname : name.toList with
  | nil => simp [hname, identifierOf] at h
  | cons c text =>
    rw [hname] at h
    by_cases hdigit : c.isDigit = true
    · simp [identifierOf, hdigit] at h
    · show (if c.isDigit then [] else [String.ofList (c :: text)]) = [name]
      rw [if_neg hdigit, ← hname, String.ofList_toList]

theorem mem_extractIdentifiers_append {name text : String} (hname : isIdentifier name = true)
    (htext : ∀ c ∈ text.toList.head?, isIdentChar c = false) :
    name ∈ extractIdentifiers (name ++ text) := by
  have hall : ∀ c ∈ name.toList, isIdentChar c = true := by
    unfold isIdentifier at hname
    simp only [Bool.and_eq_true, List.all_eq_true] at hname
    exact hname.1
  unfold extractIdentifiers
  rw [String.toList_append, extractFrom_append hall, List.nil_append]
  cases hrest : text.toList with
  | nil => simp [extractFrom, identifierOf_of_isIdentifier hname]
  | cons c rest =>
    have hc : isIdentChar c = false := htext c (by simp [hrest])
    simp [extractFrom, hc, identifierOf_of_isIdentifier hname]

theorem LValueTarget.name_mem_extractIdentifiers {t : LValueTarget}
    (h : isIdentifier t.name = true) : t.name ∈ extractIdentifiers t.fullPath := by
  have hmembers : ∀ (members : List String) (root : String),
      ∃ text : String, members.foldl (fun res member => res ++ "." ++ member) root = root ++ text ∧
        ∀ c ∈ text.toList.head?, isIdentChar c = false := by
    intro members
    induction members with
    | nil =>
      intro root
      exact ⟨"", by simp, by simp⟩
    | cons member members ih =>
      intro root
      obtain ⟨text, htext, -⟩ := ih (root ++ "." ++ member)
      refine ⟨"." ++ member ++ text, ?_, ?_⟩
      · rw [List.foldl_cons, htext]
        simp only [String.append_assoc]
      · simp [isIdentChar]
  obtain ⟨text, htext, hhead⟩ := hmembers t.memberPath t.name
  unfold fullPath
  cases t.constantIndex with
  | none =>
    rw [htext]
    exact mem_extractIdentifiers_append h hhead
  | some i =>
    rw [htext]
    show t.name ∈ extractIdentifiers (t.name ++ text ++ "[" ++ toString i.toNat ++ "]")
    rw [String.append_assoc, String.append_assoc, String.append_assoc]
    apply mem_extractIdentifiers_append h
    rw [String.toList_append]
    cases hlist : text.toList with
    | nil =>
      simp [isIdentChar]
    | cons c rest =>
      rw [hlist] at hhead
      exact hhead

end Fsmc.Ir
