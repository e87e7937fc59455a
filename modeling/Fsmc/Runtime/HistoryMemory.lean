/-
# Fsmc.Runtime.HistoryMemory — what was active in a composite when it was last left.

A run carries the registers and, beside them, a memory that no machine has: for each state the direct
child and the innermost state that were active when the state was last left. A register holds the text
that was last assigned to it. What other instructions write, and when a guard holds, is left open.
-/
import Fsmc.Runtime.Datapath
import Fsmc.Runtime.HookTrace
import Mathlib.Logic.Function.Basic

namespace Fsmc.Runtime

open Fsmc.Ir Fsmc.Lib.Ancestry

/-! ## Registers -/

/-- The register that an instruction assigns, and the text. -/
def assigned : ActionAstNode → Option (String × String)
  | .store op =>
    if op.op = .assign ∧ op.target.memberPath = [] ∧ op.target.constantIndex = none then
      some (op.target.name, op.expression)
    else none
  | _ => none

/-- The registers that an instruction can write. -/
def writesOf : ActionAstNode → List String
  | .store op => [op.target.name]
  | .portRead op => [op.destination.name]
  | .actionCall op => op.writeSet
  | _ => []

section Registers

variable (other : ActionAstNode → (String → String) → String → String)

/-- Execute an instruction. -/
def writeNode (ρ : String → String) (node : ActionAstNode) : String → String :=
  match assigned node with
  | some (name, text) => Function.update ρ name text
  | none => fun r => if r ∈ writesOf node then other node ρ r else ρ r

def writeAll (ρ : String → String) (acts : List ActionSignature) : String → String :=
  (acts.flatMap nodesOf).foldl (writeNode other) ρ

theorem writeNode_of_notMem {ρ : String → String} {node : ActionAstNode} {r : String}
    (h : r ∉ writesOf node) : writeNode other ρ node r = ρ r := by
  unfold writeNode
  cases hassigned : assigned node with
  | none => simp [h]
  | some w =>
    have hname : w.1 ∈ writesOf node := by
      unfold assigned at hassigned
      cases node with
      | store op =>
        dsimp only at hassigned
        split at hassigned
        · cases hassigned
          simp [writesOf]
        · cases hassigned
      | _ => cases hassigned
    have hne : r ≠ w.1 := by
      rintro rfl
      exact h hname
    exact Function.update_of_ne hne _ _

variable {nodes : List ActionAstNode}

theorem foldl_writeNode_of_notMem {r : String}
    (h : ∀ node ∈ nodes, r ∉ writesOf node) (ρ : String → String) :
    nodes.foldl (writeNode other) ρ r = ρ r := by
  induction nodes generalizing ρ with
  | nil => rfl
  | cons node nodes ih =>
    rw [List.foldl_cons, ih fun n hn => h n (List.mem_cons_of_mem _ hn),
      writeNode_of_notMem other (h node List.mem_cons_self)]

theorem foldl_writeNode_eq {r text : String}
    (honly : ∀ node ∈ nodes, r ∈ writesOf node → assigned node = some (r, text))
    (hsome : ∃ node ∈ nodes, assigned node = some (r, text)) (ρ : String → String) :
    nodes.foldl (writeNode other) ρ r = text := by
  induction nodes generalizing ρ with
  | nil => simp at hsome
  | cons node nodes ih =>
    rw [List.foldl_cons]
    by_cases hlater : ∃ n ∈ nodes, assigned n = some (r, text)
    · exact ih (fun n hn => honly n (List.mem_cons_of_mem _ hn)) hlater _
    · have hnone : ∀ n ∈ nodes, r ∉ writesOf n := fun n hn hwrites =>
        hlater ⟨n, hn, honly n (List.mem_cons_of_mem _ hn) hwrites⟩
      have hnode : assigned node = some (r, text) := by
        obtain ⟨n, hn, hassigned⟩ := hsome
        rcases List.mem_cons.mp hn with rfl | hn
        · exact hassigned
        · exact absurd ⟨n, hn, hassigned⟩ hlater
      rw [foldl_writeNode_of_notMem other hnone]
      simp [writeNode, hnode]

end Registers

/-! ## Choices -/

section Choices

variable (guard : (String → String) → String → Bool) (through : String → Bool)

def branches (ir : FsmIr) (choice : String) : List TransitionEdge :=
  ir.transitions.filter fun t => t.source = choice

/-- Where a transition leads: through a choice that is passed at once, by the first branch whose guard
holds, or else by the `else` branch. -/
def resolve (ir : FsmIr) (ρ : String → String) (target : String) : Option String :=
  if through target then
    (((branches ir target).find? fun b => b.guard.any (guard ρ)).or
      ((branches ir target).find? fun b => b.guard = some "else")).map (·.target)
  else some target

end Choices

/-! ## Memory -/

/-- What was active in a state when it was last left, if it was left. -/
inductive Memory where
  | never
  | childless
  | child (c leaf : String)

/-- What is active in a state of the chain of `s`. -/
def activeIn (ir : FsmIr) (s P : String) : Memory :=
  match (below ir s P).getLast? with
  | some c => .child c s
  | none => .childless

/-- The memory after some states have been left. -/
def remember (ir : FsmIr) (s : String) (exits : List String) (last : String → Memory) : String → Memory :=
  fun P => if P ∈ exits then activeIn ir s P else last P

/-- The values that the registers start with. -/
def initialRegisters (ir : FsmIr) : String → String := fun r =>
  ((ir.findVariable r).map (·.initialValue)).getD ""

/-- What a transition does before it reaches its target. -/
def exitActionsOf (ir : FsmIr) (s : String) (t : TransitionEdge) : List ActionSignature :=
  t.conditionAction.toList ++ (below ir s (lcaOf ir t)).flatMap (exitHooks ir) ++
    t.transitionAction.toList

/-- What a transition does when it leads to `x`. -/
def entryActionsOf (ir : FsmIr) (t : TransitionEdge) (x : String) (ds : List String) :
    List ActionSignature :=
  ((below ir x (computeLca ir t.source x)).reverse ++ ds).flatMap (entryHooks ir)

/-- The runs with their registers and the memory. A choice that is not passed at once is a state like any
other, which each of its branches may leave. -/
inductive MemoryRun (other : ActionAstNode → (String → String) → String → String)
    (guard : (String → String) → String → Bool) (through : String → Bool) (ir : FsmIr) :
    String → (String → String) → (String → Memory) → Prop
  | start {ds : List String} : (ir.findState (initialName ir)).isSome = true →
      Defaults ir (initialName ir) ds →
        MemoryRun other guard through ir (leafOf (initialName ir) ds)
          (writeAll other (initialRegisters ir) (startActions ir ds)) fun _ => .never
  | inside {s : String} {ρ : String → String} {last : String → Memory} {t : TransitionEdge} :
      MemoryRun other guard through ir s ρ last → t ∈ ir.transitions → t.source ∈ chain ir s →
        t.kind = .internal →
          MemoryRun other guard through ir s
            (writeAll other ρ (t.conditionAction.toList ++ t.transitionAction.toList)) last
  | step {s x : String} {ρ : String → String} {last : String → Memory} {t : TransitionEdge}
      {ds : List String} : MemoryRun other guard through ir s ρ last → t ∈ ir.transitions →
        t.source ∈ chain ir s → t.kind ≠ .internal →
          resolve guard through ir (writeAll other ρ (exitActionsOf ir s t)) t.target = some x →
            (ir.findState x).isSome = true → Defaults ir x ds →
              MemoryRun other guard through ir (leafOf x ds)
                (writeAll other (writeAll other ρ (exitActionsOf ir s t)) (entryActionsOf ir t x ds))
                (remember ir s (below ir s (lcaOf ir t)) last)

end Fsmc.Runtime
