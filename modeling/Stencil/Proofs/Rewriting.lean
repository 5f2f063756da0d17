import Mathlib.Data.List.Basic
import Stencil.Proofs.Carving
import Stencil.Proofs.TokenReach

namespace Stencil

/-- The template with each action written anew from its tokens. -/
def rewriteActions (write : List Token → Text) (s : Text) : Text :=
  (segments s).1.flatMap (fun g => g.before ++ write (tokenize g.source)) ++ (segments s).2

theorem rewriteActions_congr {write write' : List Token → Text} {s : Text}
    (h : ∀ g ∈ (segments s).1, write (tokenize g.source) = write' (tokenize g.source)) :
    rewriteActions write s = rewriteActions write' s := by
  unfold rewriteActions
  congr 1
  exact List.flatMap_congr fun g hg => by rw [h g hg]

theorem rewriteActions_spelling (s : Text) : rewriteActions Token.spelling s = s := by
  simp only [rewriteActions, spelling_tokenize]
  exact flatMap_segments s

end Stencil
