import Sicada.TestProperties

namespace Sicada

variable {L W : Type} [ArcLabel L]

/- An order on the arcs of a state: whether the first may come before the second. -/
structure ArcCompare (L W : Type) where
  compare : Arc L W → Arc L W → Bool
  properties : BitVec 64 → BitVec 64

def iLabelCompare : ArcCompare L W where
  compare lhs rhs := lhs.ilabel < rhs.ilabel ∨ (lhs.ilabel = rhs.ilabel ∧ lhs.olabel ≤ rhs.olabel)
  properties props := (props &&& kArcSortProperties) ||| kILabelSorted |||
    (if props &&& kAcceptor ≠ 0 then kOLabelSorted else 0)

def oLabelCompare : ArcCompare L W where
  compare lhs rhs := lhs.olabel < rhs.olabel ∨ (lhs.olabel = rhs.olabel ∧ lhs.ilabel ≤ rhs.ilabel)
  properties props := (props &&& kArcSortProperties) ||| kOLabelSorted |||
    (if props &&& kAcceptor ≠ 0 then kILabelSorted else 0)

/- The sort is in place, so the counts of the states stay as they were. -/
def VectorFst.arcSort (fst : VectorFst L W) (comp : ArcCompare L W) : VectorFst L W :=
  let props := comp.properties (fst.properties &&& kFstProperties)
  let states := fst.states.map fun s => { s with arcs := s.arcs.mergeSort comp.compare }
  VectorFst.setProperties { fst with states := states } props kFstProperties

namespace ArcSort

open PropertyBits

def labelCompare (byOutput : Bool) : ArcCompare L W :=
  if byOutput then oLabelCompare else iLabelCompare

theorem compare_trans (byOutput : Bool) (a b c : Arc L W)
    (hab : (labelCompare byOutput).compare a b) (hbc : (labelCompare byOutput).compare b c) :
    (labelCompare byOutput).compare a c := by
  cases byOutput <;> simp [labelCompare, oLabelCompare, iLabelCompare] at hab hbc ⊢ <;>
    rcases hab with hab | ⟨hab, hab'⟩ <;> rcases hbc with hbc | ⟨hbc, hbc'⟩
  all_goals first
    | exact Or.inl (hab.trans hbc)
    | exact Or.inl (hbc ▸ hab)
    | exact Or.inl (hab ▸ hbc)
    | exact Or.inr ⟨hab.trans hbc, hab'.trans hbc'⟩

theorem compare_total (byOutput : Bool) (a b : Arc L W) :
    (labelCompare byOutput).compare a b || (labelCompare byOutput).compare b a := by
  cases byOutput
  · rcases lt_trichotomy a.ilabel b.ilabel with h | h | h <;>
      simp [labelCompare, iLabelCompare, h, le_total]
  · rcases lt_trichotomy a.olabel b.olabel with h | h | h <;>
      simp [labelCompare, oLabelCompare, h, le_total]

theorem sideLabel_le_of_compare {byOutput : Bool} {a b : Arc L W}
    (h : (labelCompare byOutput).compare a b) : sideLabel byOutput a ≤ sideLabel byOutput b := by
  cases byOutput <;> simp [labelCompare, oLabelCompare, iLabelCompare] at h <;>
    rcases h with h | ⟨h, -⟩ <;> exact h.le

variable (fst : VectorFst L W) (comp : ArcCompare L W)

theorem arcs_arcSort (s : ℕ) : (fst.arcSort comp).arcs s = (fst.arcs s).mergeSort comp.compare := by
  simp only [VectorFst.arcSort, VectorFst.setProperties, VectorFst.arcs, List.getElem?_map]
  cases fst.states[s]? <;> simp

theorem numOutputEpsilons_arcSort (s : ℕ) :
    (fst.arcSort comp).numOutputEpsilons s = fst.numOutputEpsilons s := by
  simp only [VectorFst.arcSort, VectorFst.setProperties, VectorFst.numOutputEpsilons,
    List.getElem?_map]
  cases fst.states[s]? <;> rfl

theorem numInputEpsilons_arcSort (s : ℕ) :
    (fst.arcSort comp).numInputEpsilons s = fst.numInputEpsilons s := by
  simp only [VectorFst.arcSort, VectorFst.setProperties, VectorFst.numInputEpsilons,
    List.getElem?_map]
  cases fst.states[s]? <;> rfl

theorem finalWeight_arcSort [Zero W] (s : ℕ) :
    (fst.arcSort comp).finalWeight s = fst.finalWeight s := by
  simp only [VectorFst.arcSort, VectorFst.setProperties, VectorFst.finalWeight,
    List.getElem?_map]
  cases fst.states[s]? <;> rfl

theorem sorted_arcSort (byOutput : Bool) :
    SortedLabels (sideLabel byOutput) (fst.arcSort (labelCompare byOutput)) := by
  intro s
  rw [arcs_arcSort]
  have hpairwise := List.pairwise_mergeSort (compare_trans byOutput) (compare_total byOutput)
    (fst.arcs s)
  have hmap := hpairwise.imp (fun h => sideLabel_le_of_compare h)
  exact (List.pairwise_map.mpr hmap).isChain

end ArcSort

end Sicada
