import Stencil.Tree

/-!
Walks that may change the groups they visit, in the order of the other walks. The walk goes on into
the groupings that a visit leaves, not into those that it takes away. As a visit can add groupings
without end, a walk is given the number of levels of groupings that it goes down.
-/

namespace Stencil

mutual

/-- How many groupings and pipes come before the innermost group, at most. -/
def Variable.nesting : Variable → Nat
  | .grouping _ body _ => body.nesting + 1
  | _ => 0

def Group.nesting : List Variable → Nat
  | [] => 0
  | v :: g => max v.nesting (Group.nesting g)

def Pipeline.nesting : Pipeline → Nat
  | .stage g => Group.nesting g
  | .piped g p => max (Group.nesting g) (p.nesting + 1)

end

def Grouping.nesting (g : Grouping) : Nat := g.body.nesting

def Pipelines.nesting (ps : Pipelines) : Nat := (ps.map Pipeline.nesting).foldr max 0

def Action.nesting (a : Action) : Nat := Pipelines.nesting a.pipelines

def Branch.nesting : Branch → Nat
  | .text _ => 0
  | .action a => a.nesting

def Tree.nesting (t : Tree) : Nat := (t.map Branch.nesting).foldr max 0

section Edit
variable {m : Type → Type} [Monad m]

def editUntil {α : Type} (edit : α → m (α × Bool)) : List α → m (List α × Bool)
  | [] => pure ([], false)
  | a :: as => do
    let (a, stopped) ← edit a
    if stopped then return (a :: as, true)
    let (as, stopped) ← editUntil edit as
    return (a :: as, stopped)

def Variable.edit (edit : Pipeline → m (Pipeline × Bool)) : Variable → m (Variable × Bool)
  | .grouping opener body closer => do
    let (body, stopped) ← edit body
    return (.grouping opener body closer, stopped)
  | v => return (v, false)

def Pipeline.edit (edit : Group → m (Group × Bool)) : Pipeline → m (Pipeline × Bool)
  | .stage g => do
    let (g, stopped) ← edit g
    return (.stage g, stopped)
  | .piped g p => do
    let (g, stopped) ← edit g
    if stopped then return (.piped g p, true)
    let (p, stopped) ← p.edit edit
    return (.piped g p, stopped)

variable (visit : Group → m (Group × Bool))

/-- Visits a group and then the groups inside it, so many levels down. The result says whether a
visit stopped the walk. -/
def Group.editWalk : Nat → Group → m (Group × Bool)
  | 0, g => visit g
  | levels + 1, g => do
    let (g, stopped) ← visit g
    if stopped then return (g, true)
    editUntil (Variable.edit (Pipeline.edit (Group.editWalk levels))) g

def Pipeline.editWalk (levels : Nat) (p : Pipeline) : m (Pipeline × Bool) :=
  p.edit (Group.editWalk visit levels)

def Grouping.editWalk (levels : Nat) (g : Grouping) : m (Grouping × Bool) := do
  let (body, stopped) ← g.body.editWalk visit levels
  return ({ g with body }, stopped)

def Pipelines.editWalk (levels : Nat) (ps : Pipelines) : m (Pipelines × Bool) :=
  editUntil (Pipeline.editWalk visit levels) ps

def Action.editWalk (levels : Nat) (a : Action) : m (Action × Bool) := do
  let (pipelines, stopped) ← Pipelines.editWalk visit levels a.pipelines
  return ({ a with pipelines }, stopped)

def Branch.editWalk (levels : Nat) : Branch → m (Branch × Bool)
  | .text s => return (.text s, false)
  | .action a => do
    let (a, stopped) ← a.editWalk visit levels
    return (.action a, stopped)

def Tree.editWalk (levels : Nat) (t : Tree) : m (Tree × Bool) :=
  editUntil (Branch.editWalk visit levels) t

end Edit

end Stencil
