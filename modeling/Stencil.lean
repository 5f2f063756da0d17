import Stencil.Proofs.CleanedTemplates
import Stencil.Proofs.Completion
import Stencil.Proofs.Composition
import Stencil.Proofs.Cutting
import Stencil.Proofs.Deletions
import Stencil.Proofs.Json.RoundTrip
import Stencil.Proofs.Limits
import Stencil.Proofs.PrunedTemplates
import Stencil.Proofs.Progress
import Stencil.Proofs.RefusedLiterals
import Stencil.Proofs.Rounds
import Stencil.Proofs.Spellable
import Stencil.Proofs.Thresholds
import Stencil.Proofs.Words
import Stencil.Session
