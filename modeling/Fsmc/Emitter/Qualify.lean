/-
# Fsmc.Emitter.Qualify — names in emitted expressions.

A guard or an assignment is written over variables and ports by their bare names; the emitter puts `reg.` and
`in.` in front of them by a search and replace for each name. A match takes the character before the name and
the one behind it with it, and the search goes on behind the match. Names are identifiers, so that each stands
for itself in the pattern.
-/
import Fsmc.Ir.FsmIr

namespace Fsmc.Emitter

open Fsmc.Ir

/-- The character behind a name, if any, and what is left, where the name stands at the beginning of a text and
is not the beginning of a longer one. -/
def nameAt (name text : List Char) : Option (List Char × List Char) :=
  if name <+: text then
    match text.drop name.length with
    | [] => some ([], [])
    | c :: rest => if isIdentChar c then none else some ([c], rest)
  else none

/-- The characters that a name is not replaced behind: `[A-Za-z0-9_\.]`. -/
def joins (c : Char) : Bool := isIdentChar c || c = '.'

/-- `regex_replace` for one name, as far as a number of turns goes; `start` is whether nothing was read yet. -/
def replaceName (scope name : List Char) : ℕ → Bool → List Char → List Char
  | 0, _, text => text
  | n + 1, start, text =>
    match if start then nameAt name text else none with
    | some (tail, rest) => scope ++ name ++ tail ++ replaceName scope name n false rest
    | none =>
      match text with
      | [] => []
      | c :: text =>
        match if joins c then none else nameAt name text with
        | some (tail, rest) => c :: (scope ++ name ++ tail ++ replaceName scope name n false rest)
        | none => c :: replaceName scope name n false text

/-- `regex_replace` for one name. -/
def qualifyName (scope name : String) (text : List Char) : List Char :=
  replaceName scope.toList name.toList (text.length + 1) true text

/-- The names that an event is called by. -/
def eventNames : List (List Char) := ["f", "cmd", "event", "sig", "ev"].map String.toList

/-- What is left behind a prefix such as `ev.` that a member name follows. -/
def eventAt (text : List Char) : Option (List Char) :=
  eventNames.findSome? fun name =>
    if name ++ ['.'] <+: text then
      match text.drop (name.length + 1) with
      | [] => none
      | c :: rest => if c.isAlpha || c = '_' then some (c :: rest) else none
    else none

/-- `regex_replace` for the members of the event, as far as a number of turns goes. -/
def replaceEvent : ℕ → Bool → List Char → List Char
  | 0, _, text => text
  | n + 1, start, text =>
    match if start then eventAt text else none with
    | some member =>
      "cmd.".toList ++ member.takeWhile isIdentChar ++ replaceEvent n false (member.dropWhile isIdentChar)
    | none =>
      match text with
      | [] => []
      | c :: text =>
        match if joins c then none else eventAt text with
        | some member =>
          c :: ("cmd.".toList ++ member.takeWhile isIdentChar ++
            replaceEvent n false (member.dropWhile isIdentChar))
        | none => c :: replaceEvent n false text

def qualifyExpression (expr : String) (model : FsmIr) : String :=
  let inRegisters := model.vars.foldl (fun text v => qualifyName "reg." v.name text) expr.toList
  let inPorts := (model.ports.filter (·.isIn)).foldl (fun text p => qualifyName "in." p.name text) inRegisters
  String.ofList (replaceEvent (inPorts.length + 1) true inPorts)

example : qualifyExpression "x > ev.limit && (y<x)" { vars := [{ name := "x" }], ports := [{ name := "y" }] } =
    "reg.x > cmd.limit && (in.y<reg.x)" := by decide

end Fsmc.Emitter
