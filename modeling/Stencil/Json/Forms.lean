import Stencil.Parse
import Stencil.Tree.Json

namespace Stencil

namespace ErrorKind

def toJson : ErrorKind → Json
  | unexpectedCharacter found => variant "UnexpectedCharacter" [("found", .ofText found)]
  | unexpectedToken expected found =>
    variant "UnexpectedToken" [("expected", .ofText expected), ("found", .ofText found)]
  | unexpectedEnd expectation =>
    variant "UnexpectedEOF" [("expected_what", .ofText expectation)]
  | trailingTokens found => variant "TrailingTokens" [("found", .ofText found)]
  | unbalancedDelimiter => .ofText "UnbalancedDelimiter".toList
  | invalidLiteral literal reason =>
    variant "InvalidLiteral" [("literal", .ofText literal), ("reason", .ofText reason)]
  | nestingTooDeep limit => variant "NestingTooDeep" [("limit", .ofNat limit)]
where
  variant (name : String) (fields : List (String × Json)) : Json :=
    .object [(name.toList, .object (fields.map fun (key, v) => (key.toList, v)))]

end ErrorKind

def ParseError.toJson (e : ParseError) : Json :=
  .object [("filename".toList, .ofText e.file), ("line".toList, .ofNat e.position.line),
    ("column".toList, .ofNat e.position.column), ("source".toList, .ofText e.source),
    ("kind".toList, e.kind.toJson)]

def Options.toJson (o : Options) : Json := .object [("max_depth".toList, .ofNat o.maxDepth)]

namespace TokenKind

def names : List (String × TokenKind) := [
  ("Range", range), ("Assignment", assignment), ("Ident", ident), ("Keyword", keyword),
  ("Literal", literal), ("String", string), ("Rune", rune), ("Float", float), ("Int", int),
  ("Comment", comment), ("Space", space), ("Pipe", pipe), ("GroupOpen", groupOpen),
  ("GroupClose", groupClose), ("StatementOpen", statementOpen),
  ("StatementClose", statementClose), ("Text", text)]

def name (k : TokenKind) : String :=
  match names.find? (·.2 == k) with
  | some (name, _) => name
  | none => ""

def toJson (k : TokenKind) : Json := .ofText k.name.toList

end TokenKind

namespace Json

/-- A variant without a value: its name alone, or its name with null. -/
def unit? : Json → Option Text
  | j => match j.variant? with
    | some (name, none) | some (name, some .null) => some name
    | _ => none

def toErrorKind? : Nat → Json → Option ErrorKind
  | 0, _ => none
  | levels + 1, j =>
    match j.variant? with
    | some (name, none) => unitKind name
    | some (name, some .null) => unitKind name
    | some (name, some v) =>
      if levels = 0 then none
      else match String.ofList name with
        | "UnexpectedCharacter" => text1 .unexpectedCharacter "found" v
        | "UnexpectedToken" => text2 .unexpectedToken "expected" "found" v
        | "UnexpectedEOF" => text1 .unexpectedEnd "expected_what" v
        | "TrailingTokens" => text1 .trailingTokens "found" v
        | "InvalidLiteral" => text2 .invalidLiteral "literal" "reason" v
        | "NestingTooDeep" =>
          match v.record? ["limit".toList] with
          | some [some limit] => limit.nat64?.map .nestingTooDeep
          | _ => none
        | _ => none
    | none => none
where
  unitKind (name : Text) : Option ErrorKind :=
    if name = "UnbalancedDelimiter".toList then some .unbalancedDelimiter else none
  text1 (kind : Text → ErrorKind) (field : String) (j : Json) : Option ErrorKind :=
    match j.record? [field.toList] with
    | some [some v] => v.text?.map kind
    | _ => none
  text2 (kind : Text → Text → ErrorKind) (field field' : String) (j : Json) :
      Option ErrorKind :=
    match j.record? [field.toList, field'.toList] with
    | some [some v, some v'] => return kind (← v.text?) (← v'.text?)
    | _ => none

def toParseError? : Nat → Json → Option ParseError
  | 0, _ => none
  | levels + 1, j =>
    match j.record? ["filename".toList, "line".toList, "column".toList, "source".toList,
      "kind".toList] with
    | some [some file, some line, some column, some source, some kind] => do
      return ⟨← file.text?, ⟨← line.nat64?, ← column.nat64?⟩, ← source.text?,
        ← toErrorKind? levels kind⟩
    | _ => none

def toOptions? : Nat → Json → Option Options
  | 0, _ => none
  | _ + 1, j =>
    match j.record? ["max_depth".toList] with
    | some [some limit] => limit.nat64?.map Options.mk
    | _ => none

def toTokenKind? (_levels : Nat) (j : Json) : Option TokenKind := do
  TokenKind.names.lookup (String.ofList (← j.unit?))

end Json
end Stencil
