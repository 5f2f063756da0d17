import Stencil.Segment
import Stencil.Tree.Reader

namespace Stencil

structure Options where
  /-- How many levels of pipes and parentheses an action may have. -/
  maxDepth : Nat := 128
  deriving DecidableEq, Repr

namespace Parse

def textBranch (s : Text) : Tree := if s.isEmpty then [] else [.text s]

def action (limit : Nat) (file : Text) (start : Position) (source : Text) :
    Except ParseError Action :=
  let ts := tokenize source
  match Action.ofTokens limit ts with
  | .ok a => .ok a
  | .error f =>
    let read := ts.take (ts.length - f.rest.length)
    .error ⟨file, start.after (Token.spelling read), source, f.kind⟩

/-- The branches of segments that begin at `start`, and the place after them. -/
def branches (limit : Nat) (file : Text) (start : Position) :
    List Segment → Except ParseError (Tree × Position)
  | [] => .ok ([], start)
  | g :: gs => do
    let opening := start.after g.before
    let a ← action limit file opening g.source
    let (bs, finish) ← branches limit file (opening.after g.source) gs
    return (textBranch g.before ++ .action a :: bs, finish)

end Parse

def parse (file s : Text) (options : Options := {}) : Except ParseError Tree := do
  let (gs, tail) := segments s
  let (bs, finish) ← Parse.branches options.maxDepth file {} gs
  match nextAction tail with
  | .unclosed before => .error ⟨file, finish.after before, [], .unbalancedDelimiter⟩
  | _ => return bs ++ Parse.textBranch tail

end Stencil
