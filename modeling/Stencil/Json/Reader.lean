import Stencil.Json
import Stencil.Lexer

namespace Stencil.Json

inductive SymbolKind where
  | braceOpen
  | braceClose
  | bracketOpen
  | bracketClose
  | colon
  | comma
  | null
  | true
  | false
  | number
  | string
  | space
  deriving DecidableEq, Repr

inductive Symbol where
  | braceOpen
  | braceClose
  | bracketOpen
  | bracketClose
  | colon
  | comma
  | scalar (value : Json)

namespace Symbol
open Pattern

def digit : Pattern := .one fun c => '0' ≤ c && c ≤ '9'

def number : Pattern :=
  chain [optional (char '-'),
    .alt (char '0') (.seq (.one fun c => '1' ≤ c && c ≤ '9') (.many digit)),
    optional (.seq (char '.') (oneOrMore digit)),
    optional (chain [.one fun c => c == 'e' || c == 'E',
      optional (.one fun c => c == '+' || c == '-'), oneOrMore digit])]

def hexDigit : Pattern := .one fun c => (Text.digitValue? 16 c).isSome

/-- A character inside quotes, or an escape; that a number stands for a character is not asked. -/
def stringItem : Pattern :=
  .alt (.one fun c => 0x20 ≤ c.toNat && c != '"' && c != '\\')
    (.seq (char '\\') (.alt (.one (· ∈ ['"', '\\', '/', 'b', 'f', 'n', 'r', 't']))
      (chain [char 'u', hexDigit, hexDigit, hexDigit, hexDigit])))

def rules : List (Lexer.Rule SymbolKind) := [
  ⟨.braceOpen, char '{', .longest⟩,
  ⟨.braceClose, char '}', .longest⟩,
  ⟨.bracketOpen, char '[', .longest⟩,
  ⟨.bracketClose, char ']', .longest⟩,
  ⟨.colon, char ':', .longest⟩,
  ⟨.comma, char ',', .longest⟩,
  ⟨.null, word "null".toList, .longest⟩,
  ⟨.true, word "true".toList, .longest⟩,
  ⟨.false, word "false".toList, .longest⟩,
  ⟨.number, number, .longest⟩,
  ⟨.string, chain [char '"', .many stringItem, char '"'], .longest⟩,
  ⟨.space, oneOrMore (.one (· ∈ [' ', '\t', '\n', '\r'])), .longest⟩]

def ofLexeme? (l : Lexeme SymbolKind) : Option Symbol :=
  match l.kind with
  | .braceOpen => some .braceOpen
  | .braceClose => some .braceClose
  | .bracketOpen => some .bracketOpen
  | .bracketClose => some .bracketClose
  | .colon => some .colon
  | .comma => some .comma
  | .null => some (.scalar .null)
  | .true => some (.scalar (.bool true))
  | .false => some (.scalar (.bool false))
  | .number => some (.scalar (.number l.text))
  | .string => some (.scalar (.string l.text.tail.dropLast))
  | .space => none

def ofText? (s : Text) : Option (List Symbol) :=
  match Lexer.scan rules s with
  | (lexemes, []) => some (lexemes.filterMap ofLexeme?)
  | _ => none

end Symbol

/-- An array or an object that is not yet complete. An object waits for the value of its last
key. -/
inductive Frame where
  | array (done : List Json)
  | object (done : List (Text × Json)) (key : Text)

inductive Expecting where
  | value (stack : List Frame)
  | itemOrClose (stack : List Frame)
  | keyOrClose (stack : List Frame)
  | key (done : List (Text × Json)) (stack : List Frame)
  | colon (done : List (Text × Json)) (key : Text) (stack : List Frame)
  /-- After a complete value: what its array or object goes on with, or the end. -/
  | more (value : Json) (stack : List Frame)

namespace Expecting

def startValue (stack : List Frame) : Symbol → Option Expecting
  | .scalar v => some (more v stack)
  | .braceOpen => some (keyOrClose stack)
  | .bracketOpen => some (itemOrClose stack)
  | _ => none

def step : Expecting → Symbol → Option Expecting
  | value stack, s => startValue stack s
  | itemOrClose stack, .bracketClose => some (more (.array []) stack)
  | itemOrClose stack, s => startValue (.array [] :: stack) s
  | keyOrClose stack, .braceClose => some (more (.object []) stack)
  | keyOrClose stack, .scalar (.string k) => some (colon [] k stack)
  | key done stack, .scalar (.string k) => some (colon done k stack)
  | colon done k stack, .colon => some (value (.object done k :: stack))
  | more v (.array done :: stack), .comma => some (value (.array (done ++ [v]) :: stack))
  | more v (.array done :: stack), .bracketClose => some (more (.array (done ++ [v])) stack)
  | more v (.object done k :: stack), .comma => some (key (done ++ [(k, v)]) stack)
  | more v (.object done k :: stack), .braceClose => some (more (.object (done ++ [(k, v)])) stack)
  | _, _ => none

end Expecting

def parse? (s : Text) : Option Json := do
  let symbols ← Symbol.ofText? s
  match ← symbols.foldlM Expecting.step (.value []) with
  | .more v [] => some v
  | _ => none

end Stencil.Json
