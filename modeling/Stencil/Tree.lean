import Stencil.Double

/-!
The tree of a template: literal text and actions, an action's pipelines, and the variables of their
stages. A node may hold any text, also one that no template spells.
-/

namespace Stencil

mutual

/-- One element of a stage. Strings and runes hold their values, raw strings the text between the
backticks, and all other texts are as they are spelled. -/
inductive Variable where
  | assign (text : Text)
  | range (text : Text)
  | ident (text : Text)
  | keyword (text : Text)
  | literal (text : Text)
  | string (value : Text)
  | rune (value : Char)
  | float (value : Double)
  | int (value : Int64)
  | space (text : Text)
  | comment (text : Text)
  | grouping (opener : Text) (body : Pipeline) (closer : Text)

/-- The stages that pipes join: one, or one and those after its pipe. -/
inductive Pipeline where
  | stage (root : List Variable)
  | piped (root : List Variable) (next : Pipeline)

end

abbrev Group := List Variable

abbrev Pipelines := List Pipeline

structure Grouping where
  opener : Text := ['(']
  body : Pipeline
  closer : Text := [')']

structure Action where
  opener : Text
  pipelines : Pipelines
  closer : Text

inductive Branch where
  | text (text : Text)
  | action (action : Action)

abbrev Tree := List Branch

namespace Variable

def ofGrouping (g : Grouping) : Variable := .grouping g.opener g.body g.closer

def grouping? : Variable → Option Grouping
  | grouping opener body closer => some ⟨opener, body, closer⟩
  | _ => none

def isComment : Variable → Bool
  | comment _ => true
  | _ => false

def isSpace : Variable → Bool
  | space _ => true
  | _ => false

end Variable

/-- The group without its own comments; those inside its groupings stay. -/
def Group.pruneComments (g : Group) : Group := g.filter (!·.isComment)

namespace Pipeline

def root : Pipeline → Group
  | stage g => g
  | piped g _ => g

def next? : Pipeline → Option Pipeline
  | stage _ => none
  | piped _ p => some p

def pipeInto (p next : Pipeline) : Pipeline := piped p.root next

def stageCount : Pipeline → Nat
  | stage _ => 1
  | piped _ p => p.stageCount + 1

end Pipeline

namespace Action

def trimsBefore (a : Action) : Bool := a.opener.getLast? == some '-'

def trimsAfter (a : Action) : Bool := a.closer.head? == some '-'

end Action

namespace Branch

instance : Inhabited Branch := ⟨text []⟩

def text? : Branch → Option Text
  | text s => some s
  | action _ => none

def action? : Branch → Option Action
  | text _ => none
  | action a => some a

end Branch

def Tree.actions (t : Tree) : List Action := t.filterMap Branch.action?

end Stencil
