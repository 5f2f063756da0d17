import Stencil.Lexer
import Stencil.Segment
import Stencil.Text.Blank

namespace Stencil

namespace Comment
open Pattern

inductive SpanKind where
  | quoted
  | comment
  | other
  deriving DecidableEq, Repr

def quotedSpan (q : Char) : Pattern :=
  chain [char q, .many (.alt (.seq (char '\\') any) (.one fun c => c != q && c != '\\')), char q]

def onwards (s : Text) : Pattern := .seq (word s) (.many any)

/-- Quotes and comments as they begin from left to right. One without an end runs to the end of the
text, and such a comment is not one. -/
def spanRules : List (Lexer.Rule SpanKind) := [
  ⟨.quoted, quotedSpan '"', .longest⟩,
  ⟨.quoted, onwards ['"'], .longest⟩,
  ⟨.quoted, quotedSpan '\'', .longest⟩,
  ⟨.quoted, onwards ['\''], .longest⟩,
  ⟨.quoted, chain [char '`', .many (anyBut '`'), char '`'], .longest⟩,
  ⟨.quoted, onwards ['`'], .longest⟩,
  ⟨.comment, chain [char '/', char '*', .many any, char '*', char '/'], .shortest⟩,
  ⟨.other, onwards ['/', '*'], .longest⟩,
  ⟨.other, any, .longest⟩]

def spans (s : Text) : List (Lexeme SpanKind) := (Lexer.scan spanRules s).1

def sweep (s : Text) : Text :=
  ((spans s).filter (·.kind != .comment)).flatMap (·.text)

/-- The text without comments. What is left around a comment can join to a new one, so the scan is
repeated until it finds none. -/
def sweepAll (s : Text) : Text :=
  if (sweep s).length < s.length then sweepAll (sweep s) else s
termination_by s.length

/-- The inside of an action between its trim markers: a `-` right after the opening braces or right
before the closing ones. A lone `-` is not a marker. -/
structure Trimmed where
  left : Bool
  body : Text
  right : Bool
  deriving DecidableEq, Repr

namespace Trimmed

def ofInner (s : Text) : Trimmed :=
  if s.length ≤ 1 then ⟨false, s, false⟩
  else
    let right := s.getLast? == some '-'
    let s := if right then s.dropLast else s
    let left := s.head? == some '-'
    ⟨left, if left then s.tail else s, right⟩

def text (t : Trimmed) : Text :=
  (if t.left then ['-'] else []) ++ t.body ++ (if t.right then ['-'] else [])

end Trimmed

/-- The inside of an action without comments; one that would become blank stays as it is, because
an action has to hold something. -/
def tidy (inner : Text) : Text :=
  let t := Trimmed.ofInner inner
  let body := sweepAll t.body
  if body.all Text.isBlank then inner else { t with body }.text

end Comment

def removeComments (s : Text) : Text :=
  let (gs, tail) := segments s
  gs.flatMap (fun g => g.before ++ { g with inner := Comment.tidy g.inner }.source) ++ tail

end Stencil
