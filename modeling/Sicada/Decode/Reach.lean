import Sicada.ComposePaths
import Sicada.Decode.Dense
import Sicada.Library.PathSemiring

namespace Sicada.Reach

open Paths Walk ComposePaths

variable {L C : Type} [ArcLabel L] [LinearOrderedAddCommMonoidWithTop C]

variable {graph : VectorFst L (Tropical C)} {dense : DenseFst L C}

def arcsWeight (p : List (ℕ × Arc L (Tropical C))) : Tropical C := (p.map (·.2.weight)).prod

theorem arcsWeight_append (p q : List (ℕ × Arc L (Tropical C))) :
    arcsWeight (p ++ q) = arcsWeight p * arcsWeight q := by
  simp [arcsWeight]

end Sicada.Reach
