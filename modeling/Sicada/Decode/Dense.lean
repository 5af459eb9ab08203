import Sicada.Paths

namespace Sicada

open ArcLabel (toI64 fromI64)

/- The acoustic scores, `numFrames × numSymbols` of them, row by row. Costs are exact, and those
of a path add up. -/
structure DenseFst (L C : Type) [ArcLabel L] where
  scores : List C
  numFrames : ℕ
  numSymbols : ℕ
  labelOffset : ℤ
  properties : BitVec 64
  size_lt : numFrames * numSymbols < 2 ^ 64
  length_scores : scores.length = numFrames * numSymbols
  numSymbols_pos : 0 < numFrames → 0 < numSymbols
  labelOffset_nonneg : 0 ≤ labelOffset
  last_label : 0 < numFrames → (fromI64 (L := L) (labelOffset + numSymbols - 1)).isSome

/- A slice of scores; no allocation is larger than `isize::MAX`. -/
def ScoreSlice (C : Type) := { scores : List C // scores.length < 2 ^ 63 }

namespace DenseFst

variable {L C : Type} [ArcLabel L]

section Reading

def frame (dense : DenseFst L C) (t : ℕ) : List C :=
  (dense.scores.drop (t * dense.numSymbols)).take dense.numSymbols

/- The arcs of one frame from a column on. -/
def denseArcs (labelOffset : ℤ) (nextstate : ℕ) : ℕ → List C → List (Arc L (Tropical C))
  | _, [] => []
  | column, score :: row =>
    match fromI64 (labelOffset + column) with
    | some label =>
      ⟨label, label, Tropical.trop score, nextstate⟩ ::
        denseArcs labelOffset nextstate (column + 1) row
    | none => []

def arcs (dense : DenseFst L C) (state : ℕ) : List (Arc L (Tropical C)) :=
  if state < dense.numFrames then denseArcs dense.labelOffset (state + 1) 0 (dense.frame state)
  else []

def numArcs (dense : DenseFst L C) (state : ℕ) : ℕ :=
  if state < dense.numFrames then dense.numSymbols else 0

def numInputEpsilons (dense : DenseFst L C) (state : ℕ) : ℕ :=
  if dense.labelOffset = 0 ∧ 0 < dense.numArcs state then 1 else 0

def finalWeight [Zero C] [Top C] (dense : DenseFst L C) (state : ℕ) : Tropical C :=
  if state = dense.numFrames then Tropical.trop 0 else Tropical.trop ⊤

end Reading

section Building

variable [Zero C] [DecidableEq C]

def computeProperties (scores : List C) (numFrames numSymbols : ℕ) (labelOffset : ℤ) : BitVec 64 :=
  let props := kExpanded ||| kAcceptor ||| kIDeterministic ||| kODeterministic ||| kILabelSorted |||
    kOLabelSorted ||| kAcyclic ||| kInitialAcyclic ||| kTopSorted ||| kAccessible |||
    kCoAccessible ||| kUnweightedCycles
  let props :=
    if labelOffset = 0 ∧ 0 < numSymbols ∧ 0 < numFrames then
      props ||| (kEpsilons ||| kIEpsilons ||| kOEpsilons)
    else props ||| (kNoEpsilons ||| kNoIEpsilons ||| kNoOEpsilons)
  let props := if numSymbols ≤ 1 ∨ numFrames = 0 then props ||| kString else props ||| kNotString
  if ∀ score ∈ scores, score = 0 then props ||| kUnweighted else props ||| kWeighted

/- `num_symbols as i64`. -/
def asI64 (n : ℕ) : ℤ := (BitVec.ofNat 64 n).toInt

def FitsI64 (x : ℤ) : Prop := -9223372036854775808 ≤ x ∧ x < 9223372036854775808

instance (x : ℤ) : Decidable (FitsI64 x) := inferInstanceAs (Decidable (_ ∧ _))

theorem asI64_of_lt {n : ℕ} (h : n < 2 ^ 63) : asI64 n = n := by
  have hnat : (BitVec.ofNat 64 n).toNat = n := by
    rw [BitVec.toNat_ofNat]
    exact Nat.mod_eq_of_lt (by omega)
  unfold asI64
  rw [BitVec.toInt_eq_toNat_of_lt (by omega), hnat]

/- `label_offset + num_symbols as i64 - 1`, where neither sum overflows. -/
def lastLabel (numSymbols : ℕ) (labelOffset : ℤ) : Option ℤ :=
  if FitsI64 (labelOffset + asI64 numSymbols) ∧ FitsI64 (labelOffset + asI64 numSymbols - 1) then
    some (labelOffset + asI64 numSymbols - 1)
  else none

/- The last label of a matrix that has frames is the one that was checked. -/
theorem last_label_of {scores : ScoreSlice C} {numFrames numSymbols : ℕ} {labelOffset last : ℤ}
    (hlength : scores.val.length = numFrames * numSymbols)
    (hsymbols : ¬ (numSymbols = 0 ∧ 0 < numFrames))
    (hlast : lastLabel numSymbols labelOffset = some last)
    (hfits : ¬ (0 < numSymbols ∧ (fromI64 (L := L) last).isNone)) (hframes : 0 < numFrames) :
    (fromI64 (L := L) (labelOffset + numSymbols - 1)).isSome := by
  have hpos : 0 < numSymbols := by omega
  have hle : numSymbols ≤ numFrames * numSymbols := Nat.le_mul_of_pos_left _ hframes
  have hslice := scores.property
  unfold lastLabel at hlast
  split at hlast
  · rw [asI64_of_lt (by omega)] at hlast
    rw [Option.some.inj hlast]
    exact Option.isSome_iff_ne_none.mpr fun hnone =>
      hfits ⟨hpos, Option.isNone_iff_eq_none.mpr hnone⟩
  · cases hlast

/- `none` is a panic: the sum for the last label is checked in a build that checks overflow. -/
def withLabelOffset (scores : ScoreSlice C) (numFrames numSymbols : ℕ) (labelOffset : ℤ) :
    Option (Except String (DenseFst L C)) :=
  if hsize : 2 ^ 64 ≤ numFrames * numSymbols then
    some (.error s!"DenseFst: {numFrames} frames of {numSymbols} symbols overflows")
  else if hlength : scores.val.length ≠ numFrames * numSymbols then
    some (.error (s!"DenseFst: {scores.val.length} scores for {numFrames} frames of " ++
      s!"{numSymbols} symbols, expected {numFrames * numSymbols}"))
  else if hsymbols : numSymbols = 0 ∧ 0 < numFrames then
    some (.error "DenseFst: frames with no symbols leave the last frame unreachable")
  else if hoffset : labelOffset < 0 then
    some (.error "DenseFst: a negative label offset would put a column on kNoLabel")
  else
    match hlast : lastLabel numSymbols labelOffset with
    | none => none
    | some last =>
      if hfits : 0 < numSymbols ∧ (fromI64 (L := L) last).isNone then
        some (.error s!"DenseFst: label {last} does not fit the arc's label type")
      else
        some (.ok
          { scores := scores.val, numFrames, numSymbols, labelOffset
            properties := computeProperties scores.val numFrames numSymbols labelOffset
            size_lt := not_le.mp hsize
            length_scores := not_not.mp hlength
            numSymbols_pos := fun hframes => by omega
            labelOffset_nonneg := not_lt.mp hoffset
            last_label := last_label_of (not_not.mp hlength) hsymbols hlast hfits })

end Building

variable [Zero C] [Top C]

/- The matrix as an FST: a chain of frames with an arc for each symbol. -/
def toFst (dense : DenseFst L C) : VectorFst L (Tropical C) where
  states := (List.range (dense.numFrames + 1)).map fun t =>
    ⟨dense.finalWeight t, dense.arcs t, dense.numInputEpsilons t, dense.numInputEpsilons t⟩
  start := some 0
  properties := dense.properties

theorem length_frame {dense : DenseFst L C} {t : ℕ} (ht : t < dense.numFrames) :
    (dense.frame t).length = dense.numSymbols := by
  unfold frame
  have hle : (t + 1) * dense.numSymbols ≤ dense.numFrames * dense.numSymbols :=
    Nat.mul_le_mul_right _ ht
  rw [Nat.add_mul] at hle
  rw [List.length_take, List.length_drop, dense.length_scores]
  omega

/- Every column of a frame has its label. -/
theorem exists_label {dense : DenseFst L C} {t column : ℕ} (ht : t < dense.numFrames)
    (h : column < dense.numSymbols) :
    ∃ label : L, fromI64 (dense.labelOffset + column) = some label := by
  have hlast := dense.last_label (by omega)
  have hoffset := dense.labelOffset_nonneg
  exact Option.isSome_iff_exists.mp
    (ArcLabel.fromI64_isSome_of_le _ _ (by omega) (by omega) hlast)

theorem getElem?_denseArcs {labelOffset : ℤ} {nextstate : ℕ} {row : List C} {column i : ℕ}
    (hlabels : ∀ j < row.length, ∃ label : L, fromI64 (labelOffset + (column + j : ℕ)) = some label)
    {arc : Arc L (Tropical C)} :
    (denseArcs labelOffset nextstate column row)[i]? = some arc ↔
      fromI64 (labelOffset + (column + i : ℕ)) = some arc.ilabel ∧ arc.olabel = arc.ilabel ∧
        row[i]? = some arc.weight.untrop ∧ arc.nextstate = nextstate := by
  induction row generalizing column i with
  | nil => simp [denseArcs]
  | cons score row ih =>
    obtain ⟨label, hlabel⟩ := hlabels 0 (Nat.succ_pos _)
    rw [Nat.add_zero] at hlabel
    rw [denseArcs, hlabel]
    cases i with
    | zero =>
      simp only [List.getElem?_cons_zero, Nat.add_zero, hlabel, Option.some.injEq]
      constructor
      · rintro rfl
        exact ⟨rfl, rfl, rfl, rfl⟩
      · rintro ⟨hin, hout, hweight, hnext⟩
        exact Arc.ext hin (hin.trans hout.symm) (congrArg Tropical.trop hweight) hnext.symm
    | succ i =>
      have hrest : ∀ j < row.length,
          ∃ label : L, fromI64 (labelOffset + (column + 1 + j : ℕ)) = some label := by
        intro j hj
        have hj' := hlabels (j + 1) (Nat.succ_lt_succ hj)
        rwa [show column + (j + 1) = column + 1 + j by omega] at hj'
      rw [List.getElem?_cons_succ, List.getElem?_cons_succ, ih hrest,
        show column + (i + 1) = column + 1 + i by omega]

theorem toFst_states (dense : DenseFst L C) (t : ℕ) : dense.toFst.states[t]? =
    if t < dense.numFrames + 1 then some ⟨dense.finalWeight t, dense.arcs t,
      dense.numInputEpsilons t, dense.numInputEpsilons t⟩ else none := by
  by_cases ht : t < dense.numFrames + 1 <;> simp [toFst, ht]

theorem toFst_arcs (dense : DenseFst L C) (t : ℕ) : dense.toFst.arcs t = dense.arcs t := by
  unfold VectorFst.arcs
  rw [toFst_states]
  split
  · rfl
  · rw [arcs, if_neg (by omega)]
    rfl

theorem toFst_finalWeight (dense : DenseFst L C) (t : ℕ) :
    dense.toFst.finalWeight t = dense.finalWeight t := by
  unfold VectorFst.finalWeight
  rw [toFst_states]
  split
  · rfl
  · rw [finalWeight, if_neg (by omega)]
    rfl

end DenseFst

/- The cost of reaching a graph state at this frame, and what the decoder keeps alongside it;
`none` is `NO_AUX`. -/
structure Token (C : Type) where
  cost : C
  aux : Option ℕ
deriving DecidableEq

abbrev Frontier (C : Type) := AList fun _ : ℕ => Token C

/- `maxActive` is `⊤` for `usize::MAX`, which no map outgrows. -/
structure DecodeOptions (C : Type) where
  beam : C
  maxActive : WithTop ℕ
  minActive : ℕ

variable {C : Type}

namespace Frontier

def costs (frontier : Frontier C) : List C := frontier.entries.map (·.2.cost)

def retain (keep : Token C → Bool) (frontier : Frontier C) : Frontier C :=
  ⟨frontier.entries.filter fun entry => keep entry.2,
    frontier.nodupKeys.sublist List.filter_sublist⟩

variable [LinearOrderedAddCommMonoidWithTop C]

/- The costs of the frontier are cut off at the beam, and at the rank of the cap. -/
def prune (frontier : Frontier C) (opts : DecodeOptions C) : Frontier C × C :=
  let best := frontier.costs.foldl min ⊤
  let cap := max opts.maxActive opts.minActive
  let cutoff :=
    if cap < frontier.entries.length then
      let rank := (min cap (frontier.entries.length - 1 : ℕ)).untopD 0
      min (best + opts.beam) ((frontier.costs.insertionSort (· ≤ ·))[rank]?.getD ⊤)
    else best + opts.beam
  (if cutoff ≠ ⊤ then frontier.retain fun token => token.cost ≤ cutoff else frontier, cutoff)

end Frontier

end Sicada
