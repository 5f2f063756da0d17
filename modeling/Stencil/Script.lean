import Stencil.Tree.Edit
import Stencil.Tree.Groups
import Stencil.Tree.Render

namespace Stencil

structure Visit where
  text : Text
  «variables» : Nat
  comments : Nat
  spaces : Nat
  groupings : Nat
  deriving DecidableEq, Repr

def Visit.ofGroup (g : Group) : Visit where
  text := Group.render g
  «variables» := g.length
  comments := g.countP (·.isComment)
  spaces := g.countP (·.isSpace)
  groupings := g.countP (·.grouping?.isSome)

/-- When a walk stops: at the visit of the given number, counted from 0, or at a group that has the
given identifier. -/
structure StopRule where
  visit : Option Nat := none
  ident : Option Text := none
  deriving DecidableEq, Repr

def StopRule.stops (rule : StopRule) (visit : Nat) (g : Group) : Bool :=
  rule.visit == some visit ||
    match rule.ident with
    | none => false
    | some name => g.any fun
      | .ident text => text == name
      | _ => false

structure WalkReport where
  visits : List Visit
  stopped : Bool
  deriving DecidableEq, Repr

namespace StopRule

def observe (rule : StopRule) (g : Group) : StateM (List Visit) Bool := do
  let visits ← get
  set (visits ++ [Visit.ofGroup g])
  return rule.stops visits.length g

def report (rule : StopRule)
    (walk : (Group → StateM (List Visit) Bool) → StateM (List Visit) Bool) : WalkReport :=
  let (stopped, visits) := (walk rule.observe).run []
  ⟨visits, stopped⟩

end StopRule

inductive Edit where
  | prune
  | clear
  | reverse
  | push (added : Variable)
  | prepend (added : Variable)
  | pop
  | replace (group : Group)

inductive EditResult where
  | none
  | removed (count : Nat)
  | popped (text : Option Text)
  deriving DecidableEq, Repr

def Edit.apply : Edit → Group → Group × EditResult
  | prune, g =>
    let pruned := Group.pruneComments g
    (pruned, .removed (g.length - pruned.length))
  | clear, _ => ([], .none)
  | reverse, g => (g.reverse, .none)
  | push v, g => (g ++ [v], .none)
  | prepend v, g => (v :: g, .none)
  | pop, g => (g.dropLast, .popped (g.getLast?.map Variable.render))
  | replace g, _ => (g, .none)

/-- Edits in order, each for every visit or for the one of its number. -/
structure EditScript where
  edits : List (Edit × Option Nat)
  stop : StopRule := {}

structure EditReport extends WalkReport where
  results : List (Nat × EditResult)
  deriving DecidableEq, Repr

namespace EditScript

/-- The levels that edits may add below a tree. A script can put a grouping into every group that it
reaches, and would never end otherwise. -/
def maxGrowth : Nat := 10000

def applyAll (script : EditScript) (visit : Nat) (g : Group) :
    Group × List (Nat × EditResult) :=
  script.edits.foldl (fun (g, results) (edit, only) =>
    if only = none ∨ only = some visit then
      let (g, result) := edit.apply g
      (g, results ++ [(visit, result)])
    else (g, results)) (g, [])

/-- Notes the visit and makes its edits; the group before them decides whether the walk stops. -/
def visit (script : EditScript) (g : Group) :
    StateM (List Visit × List (Nat × EditResult)) (Group × Bool) := do
  let (visits, results) ← get
  let (edited, new) := script.applyAll visits.length g
  set (visits ++ [Visit.ofGroup g], results ++ new)
  return (edited, script.stop.stops visits.length g)

def run {α : Type} (script : EditScript)
    (walk : (Group → StateM (List Visit × List (Nat × EditResult)) (Group × Bool)) →
      StateM (List Visit × List (Nat × EditResult)) (α × Bool)) : α × EditReport :=
  let ((node, stopped), visits, results) := (walk script.visit).run ([], [])
  (node, ⟨⟨visits, stopped⟩, results⟩)

end EditScript

end Stencil
