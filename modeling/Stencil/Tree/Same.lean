import Stencil.Tree

namespace Stencil

mutual

def Variable.same : Variable → Variable → Bool
  | .assign s, .assign t | .range s, .range t | .ident s, .ident t | .keyword s, .keyword t
  | .literal s, .literal t | .string s, .string t | .space s, .space t
  | .comment s, .comment t => s == t
  | .rune c, .rune d => c == d
  | .float x, .float y => x.numEq y
  | .int m, .int n => m == n
  | .grouping o p c, .grouping o' p' c' => o == o' && p.same p' && c == c'
  | _, _ => false

def Group.same : List Variable → List Variable → Bool
  | [], [] => true
  | v :: g, w :: h => v.same w && Group.same g h
  | _, _ => false

def Pipeline.same : Pipeline → Pipeline → Bool
  | .stage g, .stage h => Group.same g h
  | .piped g p, .piped h q => Group.same g h && p.same q
  | _, _ => false

end

def Action.same (a b : Action) : Bool :=
  a.opener == b.opener && a.closer == b.closer
    && a.pipelines.length == b.pipelines.length
    && (a.pipelines.zip b.pipelines).all fun (p, q) => p.same q

def Branch.same : Branch → Branch → Bool
  | .text s, .text t => s == t
  | .action a, .action b => a.same b
  | _, _ => false

def Tree.same (t u : Tree) : Bool :=
  t.length == u.length && (t.zip u).all fun (a, b) => a.same b

end Stencil
