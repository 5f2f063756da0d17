import Stencil.Json.Number
import Stencil.Json.Reader
import Stencil.Json.Writer
import Stencil.Tree

namespace Stencil

mutual

def Variable.toJson : Variable → Json
  | .assign text => .object [("assign".toList, .ofText text)]
  | .range text => .object [("range".toList, .ofText text)]
  | .ident text => .object [("ident".toList, .ofText text)]
  | .keyword text => .object [("keyword".toList, .ofText text)]
  | .literal text => .object [("literal".toList, .ofText text)]
  | .string value => .object [("string".toList, .ofText value)]
  | .rune value => .object [("rune".toList, .ofText [value])]
  | .float value => .object [("float".toList, value.toJson)]
  | .int value => .object [("int".toList, .ofInt value.toInt)]
  | .space text => .object [("space".toList, .ofText text)]
  | .comment text => .object [("comment".toList, .ofText text)]
  | .grouping opener body closer =>
    .object [("grouping".toList, .object [("open".toList, .ofText opener),
      ("group".toList, body.toJson), ("close".toList, .ofText closer)])]

def Group.itemsToJson : List Variable → List Json
  | [] => []
  | v :: g => v.toJson :: Group.itemsToJson g

def Pipeline.toJson : Pipeline → Json
  | .stage g => .object [("variables".toList, .array (Group.itemsToJson g))]
  | .piped g p =>
    .object [("variables".toList, .array (Group.itemsToJson g)), ("piped".toList, p.toJson)]

end

def Group.toJson (g : Group) : Json := .array (Group.itemsToJson g)

def Grouping.toJson (g : Grouping) : Json :=
  .object [("open".toList, .ofText g.opener), ("group".toList, g.body.toJson),
    ("close".toList, .ofText g.closer)]

def Pipelines.toJson (ps : Pipelines) : Json := .array (ps.map Pipeline.toJson)

def Action.toJson (a : Action) : Json :=
  .object [("open".toList, .ofText a.opener), ("pipelines".toList, Pipelines.toJson a.pipelines),
    ("close".toList, .ofText a.closer)]

def Branch.toJson : Branch → Json
  | .text s => .object [("text".toList, .ofText s)]
  | .action a => .object [("action".toList, a.toJson)]

def Tree.toJson (t : Tree) : Json := .array (t.map Branch.toJson)

def Tree.format (t : Tree) : Text := t.toJson.pretty

namespace Json

/-- The brackets that may be open at once where a text is read. -/
def maxLevels : Nat := 127

def list? {α : Type} (item : Json → Option α) : Json → Option (List α)
  | array items => items.mapM item
  | _ => none

mutual

def toVariable? : Nat → Json → Option Variable
  | 0, _ => none
  | levels + 1, j =>
    match j.variant? with
    | some (kind, some v) =>
      match String.ofList kind with
      | "assign" => v.text?.map .assign
      | "range" => v.text?.map .range
      | "ident" => v.text?.map .ident
      | "keyword" => v.text?.map .keyword
      | "literal" => v.text?.map .literal
      | "string" => v.text?.map .string
      | "rune" => v.char?.map .rune
      | "float" => v.double?.map .float
      | "int" => v.int64?.map .int
      | "space" => v.text?.map .space
      | "comment" => v.text?.map .comment
      | "grouping" => (toGrouping? levels v).map .ofGrouping
      | _ => none
    | _ => none

def toGrouping? : Nat → Json → Option Grouping
  | 0, _ => none
  | levels + 1, j =>
    match j.record? ["open".toList, "group".toList, "close".toList] with
    | some [some opener, some body, some closer] => do
      return ⟨← opener.text?, ← toPipeline? levels body, ← closer.text?⟩
    | _ => none

def toGroup? : Nat → Json → Option Group
  | 0, _ => none
  | levels + 1, j => j.list? (toVariable? levels)

def toPipeline? : Nat → Json → Option Pipeline
  | 0, _ => none
  | levels + 1, j =>
    match j.record? ["variables".toList, "piped".toList] with
    | some [some root, next] => do
      let root ← toGroup? levels root
      match next with
      | none | some .null => return .stage root
      | some next => return .piped root (← toPipeline? levels next)
    | _ => none

end

def toPipelines? : Nat → Json → Option Pipelines
  | 0, _ => none
  | levels + 1, j => j.list? (toPipeline? levels)

def toAction? : Nat → Json → Option Action
  | 0, _ => none
  | levels + 1, j =>
    match j.record? ["open".toList, "pipelines".toList, "close".toList] with
    | some [some opener, some pipelines, some closer] => do
      return ⟨← opener.text?, ← toPipelines? levels pipelines, ← closer.text?⟩
    | _ => none

def toBranch? : Nat → Json → Option Branch
  | 0, _ => none
  | levels + 1, j =>
    match j.variant? with
    | some (kind, some v) =>
      match String.ofList kind with
      | "text" => v.text?.map .text
      | "action" => (toAction? levels v).map .action
      | _ => none
    | _ => none

def toTree? : Nat → Json → Option Tree
  | 0, _ => none
  | levels + 1, j => j.list? (toBranch? levels)

def read? {α : Type} (value : Nat → Json → Option α) (s : Text) : Option α := do
  value maxLevels (← parse? s)

end Json
end Stencil
