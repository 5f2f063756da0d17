import Stencil.Tree

namespace Stencil

mutual

def Variable.groups : Variable → List Group
  | .grouping _ body _ => body.groups
  | _ => []

def Group.inner : List Variable → List Group
  | [] => []
  | v :: g => v.groups ++ Group.inner g

def Pipeline.groups : Pipeline → List Group
  | .stage g => g :: Group.inner g
  | .piped g p => g :: Group.inner g ++ p.groups

end

def Group.groups (g : Group) : List Group := g :: Group.inner g

def Grouping.groups (g : Grouping) : List Group := g.body.groups

def Pipelines.groups (ps : Pipelines) : List Group := ps.flatMap Pipeline.groups

def Action.groups (a : Action) : List Group := Pipelines.groups a.pipelines

def Branch.groups : Branch → List Group
  | .text _ => []
  | .action a => a.groups

def Tree.groups (t : Tree) : List Group := t.flatMap Branch.groups

section Walk
variable {m : Type → Type} [Monad m] (visit : Group → m Bool)

mutual

/-- Walks the groups inside a variable; true if the visitor stopped the walk. -/
def Variable.walk : Variable → m Bool
  | .grouping _ body _ => body.walk
  | _ => pure false

def Group.walkInner : List Variable → m Bool
  | [] => pure false
  | v :: g => do if ← v.walk then pure true else Group.walkInner g

def Pipeline.walk : Pipeline → m Bool
  | .stage g => do if ← visit g then pure true else Group.walkInner g
  | .piped g p => do
    if ← visit g then pure true
    else if ← Group.walkInner g then pure true
    else p.walk

end

def Group.walk (g : Group) : m Bool := do
  if ← visit g then pure true else Group.walkInner visit g

def Grouping.walk (g : Grouping) : m Bool := g.body.walk visit

def Pipelines.walk (ps : Pipelines) : m Bool := ps.anyM (Pipeline.walk visit)

def Action.walk (a : Action) : m Bool := Pipelines.walk visit a.pipelines

def Branch.walk : Branch → m Bool
  | .text _ => pure false
  | .action a => a.walk visit

def Tree.walk (t : Tree) : m Bool := t.anyM (Branch.walk visit)

end Walk

end Stencil
