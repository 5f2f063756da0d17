import Stencil.Double.Shortest
import Stencil.Literal
import Stencil.Tree

namespace Stencil

mutual

def Variable.render : Variable → Text
  | .assign text | .range text | .ident text | .keyword text | .space text | .comment text => text
  | .literal text => '`' :: text ++ ['`']
  | .string value => Literal.spellString value
  | .rune value => Literal.spellRune value
  | .float value => value.render
  | .int value => Text.signedDecimal value.toInt
  | .grouping opener body closer => opener ++ body.render ++ closer

def Group.render : List Variable → Text
  | [] => []
  | v :: g => v.render ++ Group.render g

def Pipeline.render : Pipeline → Text
  | .stage g => Group.render g
  | .piped g p => Group.render g ++ '|' :: p.render

end

def Grouping.render (g : Grouping) : Text := g.opener ++ g.body.render ++ g.closer

def Pipelines.render (ps : Pipelines) : Text := ps.flatMap Pipeline.render

def Action.render (a : Action) : Text := a.opener ++ Pipelines.render a.pipelines ++ a.closer

def Branch.render : Branch → Text
  | .text s => s
  | .action a => a.render

def Tree.render (t : Tree) : Text := t.flatMap Branch.render

theorem Group.render_eq_flatMap (g : Group) : Group.render g = g.flatMap Variable.render := by
  induction g with
  | nil => rfl
  | cons v g ih => simp [Group.render, ih]

end Stencil
