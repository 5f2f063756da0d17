import Stencil.Parse
import Stencil.Tree.Edit
import Stencil.Tree.Render

namespace Stencil

def Group.pruneAbove (min : Nat) (g : Group) : StateM Nat (Group × Bool) := do
  if g.length ≤ min then return (g, false)
  let pruned := Group.pruneComments g
  modify (· + (g.length - pruned.length))
  return (pruned, false)

/-- The tree without the comments of its groups of more than `min` variables, and how many there
were. -/
def Tree.pruneGroups (min : Nat) (t : Tree) : Tree × Nat :=
  let ((t, _), removed) := (Tree.editWalk (Group.pruneAbove min) t.nesting t).run 0
  (t, removed)

def pruneComments (s : Text) : Except ParseError Text := do
  let t ← parse "prune-comments.tmpl".toList s
  return (Tree.pruneGroups 1 t).1.render

end Stencil
