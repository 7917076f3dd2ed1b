import LazyCalc.Proofs.Counts.Made
import LazyCalc.Proofs.Limits.Builtin
namespace LazyCalc

namespace Outcome

end Outcome

namespace Operator

end Operator

end LazyCalc
