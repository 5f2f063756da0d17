import Stencil.Json

namespace Stencil.Json

def quoted (spelling : Text) : Text := '"' :: spelling ++ ['"']

mutual

def render : Json → Text
  | null => "null".toList
  | bool true => "true".toList
  | bool false => "false".toList
  | number s => s
  | string s => quoted s
  | array items => '[' :: List.intercalate [','] (renderItems items) ++ [']']
  | object fields => '{' :: List.intercalate [','] (renderFields fields) ++ ['}']

def renderItems : List Json → List Text
  | [] => []
  | v :: vs => v.render :: renderItems vs

def renderFields : List (Text × Json) → List Text
  | [] => []
  | (key, v) :: fields => (quoted key ++ ':' :: v.render) :: renderFields fields

end

def block (opening closing : Char) (indent : Nat) (members : List Text) : Text :=
  let line (indent : Nat) (s : Text) : Text := '\n' :: List.replicate indent ' ' ++ s
  if members.isEmpty then [opening, closing]
  else opening :: List.intercalate [','] (members.map (line (indent + 2))) ++ line indent [closing]

mutual

/-- The text with lines that are indented by so many spaces and two for each level. -/
def prettyFrom (indent : Nat) : Json → Text
  | array items => block '[' ']' indent (prettyItems (indent + 2) items)
  | object fields => block '{' '}' indent (prettyFields (indent + 2) fields)
  | null => "null".toList
  | bool true => "true".toList
  | bool false => "false".toList
  | number s => s
  | string s => quoted s

def prettyItems (indent : Nat) : List Json → List Text
  | [] => []
  | v :: vs => v.prettyFrom indent :: prettyItems indent vs

def prettyFields (indent : Nat) : List (Text × Json) → List Text
  | [] => []
  | (key, v) :: fields =>
    (quoted key ++ ':' :: ' ' :: v.prettyFrom indent) :: prettyFields indent fields

end

def pretty (j : Json) : Text := j.prettyFrom 0

end Stencil.Json
