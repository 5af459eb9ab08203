import Sicada.Decode.Dense

namespace Sicada

variable {L C : Type} [ArcLabel L]

/- The largest `usize`, where a saturating product or sum stops. -/
def usizeMax : ℕ := 2 ^ 64 - 1

variable [LinearOrderedAddCommMonoidWithTop C]

end Sicada
