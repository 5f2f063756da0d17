import Stencil.Lexer

namespace Stencil

inductive TokenKind where
  /-- A loop head: `range $k, $v :=`. -/
  | range
  | assignment
  | ident
  /-- A field or a variable: `.Field.Sub`, `$x.Field`, `.` or `$`. -/
  | keyword
  | literal
  | string
  | rune
  | float
  | int
  | comment
  | space
  | pipe
  | groupOpen
  | groupClose
  | statementOpen
  | statementClose
  /-- A character that no other rule takes. -/
  | text
  deriving DecidableEq, Repr

abbrev Token := Lexeme TokenKind

namespace TokenKind

def label : TokenKind → Text
  | range => "range header".toList
  | assignment => "assignment".toList
  | ident => "identifier".toList
  | keyword => "keyword".toList
  | literal => "raw string".toList
  | string => "string".toList
  | rune => "rune".toList
  | float => "float".toList
  | int => "integer".toList
  | comment => "comment".toList
  | space => "whitespace".toList
  | pipe => "'|'".toList
  | groupOpen => "'('".toList
  | groupClose => "')'".toList
  | statementOpen => ['\'', '{', '{', '\'']
  | statementClose => ['\'', '}', '}', '\'']
  | text => "text".toList

def beginsVariable : TokenKind → Bool
  | range | assignment | ident | keyword | literal | string | rune | float | int | comment | space
  | groupOpen => true
  | pipe | groupClose | statementOpen | statementClose | text => false

end TokenKind

namespace Token
open Pattern

def isLetter (c : Char) : Bool := ('a' ≤ c && c ≤ 'z') || ('A' ≤ c && c ≤ 'Z')

def isDigit (c : Char) : Bool := '0' ≤ c && c ≤ '9'

def isSpace (c : Char) : Bool := c ∈ ['\t', '\n', '\x0c', '\r', ' ']

def wordChar : Pattern := .one fun c => c == '_' || isLetter c || isDigit c

def dottedName : Pattern :=
  .seq name (.many (.seq (char '.') name))
where
  name := .seq (.one isLetter) (.many wordChar)

def spaces : Pattern := .many (.one isSpace)

def spaces1 : Pattern := oneOrMore (.one isSpace)

def digits : Pattern := oneOrMore (.one isDigit)

/-- One character between the quotes `q` of a literal that stays on its line, or a backslash with
the character after it. -/
def quotedItem (q : Char) : Pattern :=
  .alt (.seq (char '\\') (anyBut '\n')) (.one fun c => c != q && c != '\\' && c != '\n')

/-- The rules of the tokens, the first that matches wins. -/
def rules : List (Lexer.Rule TokenKind) := [
  ⟨.range, chain [word "range".toList, spaces1, char '$', dottedName,
    optional (chain [spaces, char ',', spaces, char '$', dottedName]), spaces1,
    word [':', '=']], .longest⟩,
  ⟨.assignment, chain [char '$', dottedName, spaces1, optional (char ':'), char '='], .longest⟩,
  ⟨.ident, .seq (.one fun c => c == '_' || isLetter c) (.many wordChar), .longest⟩,
  ⟨.keyword, .seq (.one fun c => c == '.' || c == '$') (optional dottedName), .longest⟩,
  ⟨.literal, chain [char '`', .many (anyBut '`'), char '`'], .longest⟩,
  ⟨.string, chain [char '"', .many (quotedItem '"'), char '"'], .longest⟩,
  ⟨.rune, chain [char '\'', oneOrMore (quotedItem '\''), char '\''], .longest⟩,
  ⟨.float, chain [digits, char '.', digits], .longest⟩,
  ⟨.int, digits, .longest⟩,
  ⟨.comment, chain [char '/', char '*', .many any, char '*', char '/'], .shortest⟩,
  ⟨.space, spaces1, .longest⟩,
  ⟨.pipe, char '|', .longest⟩,
  ⟨.groupOpen, char '(', .longest⟩,
  ⟨.groupClose, char ')', .longest⟩,
  ⟨.statementOpen, chain [char '{', char '{', optional (char '-')], .longest⟩,
  ⟨.statementClose, chain [optional (char '-'), char '}', char '}'], .longest⟩,
  ⟨.text, any, .longest⟩]

def spelling (ts : List Token) : Text := ts.flatMap (·.text)

/-- Each token with the number of bytes before it, counted from `start`. -/
def located (start : Nat) : List Token → List (Token × Nat)
  | [] => []
  | t :: ts => (t, start) :: located (start + t.text.utf8Length) ts

end Token

def tokenize (s : Text) : List Token := (Lexer.scan Token.rules s).1

end Stencil
