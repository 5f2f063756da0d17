import Stencil.Text.Shown

namespace Stencil

inductive ErrorKind where
  | unexpectedCharacter (found : Text)
  | unexpectedToken (expected found : Text)
  | unexpectedEnd (expectation : Text)
  | trailingTokens (found : Text)
  | unbalancedDelimiter
  | invalidLiteral (literal reason : Text)
  | nestingTooDeep (limit : Nat)
  deriving DecidableEq, Repr

namespace ErrorKind

/-- The end of an action where `expected`, if it is given, was to come. -/
def endOfAction (expected : Option Text) : ErrorKind :=
  unexpectedEnd <| match expected with
    | none => []
    | some e => " (expected ".toList ++ e ++ [')']

def message : ErrorKind → Text
  | unexpectedCharacter found => "Unexpected character '".toList ++ found ++ ['\'']
  | unexpectedToken expected found =>
    "Expected ".toList ++ expected ++ ", found ".toList ++ found
  | unexpectedEnd expectation => "Unexpected end of action".toList ++ expectation
  | trailingTokens found => "Unexpected ".toList ++ found ++ " after end of action".toList
  | unbalancedDelimiter => "Unclosed action, expected '".toList ++ ['}', '}', '\'']
  | invalidLiteral literal reason =>
    "Invalid literal ".toList ++ literal ++ ": ".toList ++ reason
  | nestingTooDeep limit =>
    "Nesting exceeds the limit of ".toList ++ Text.decimal limit ++ " levels".toList

end ErrorKind

/-- An error with its place in the whole text. The source is that of the action in which it is;
outside of actions there is none. -/
structure ParseError where
  file : Text
  position : Position
  source : Text
  kind : ErrorKind
  deriving DecidableEq, Repr

def ParseError.message (e : ParseError) : Text :=
  e.file ++ ':' :: Text.decimal e.position.line ++ ':' :: Text.decimal e.position.column
    ++ ": ".toList ++ e.kind.message
    ++ if e.source.isEmpty then [] else " in ".toList ++ Text.shown e.source

end Stencil
