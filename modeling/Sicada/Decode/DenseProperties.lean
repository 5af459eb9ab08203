import Sicada.ComputeSettles
import Sicada.Decode.Dense

namespace Sicada.DenseProperties

open ArcLabel (toI64 fromI64)
open Relation PropertyBits ScanExact ComputeSettles DenseFst

variable {L C : Type} [ArcLabel L] [Zero C] [Top C] [DecidableEq C]

variable {t : ℕ} {arc : Arc L (Tropical C)}

section Shape

variable {dense : DenseFst L C}

theorem numStates_toFst (dense : DenseFst L C) : dense.toFst.numStates = dense.numFrames + 1 := by
  simp [toFst, VectorFst.numStates]

/- The arc of a column. -/
def IsColumn (dense : DenseFst L C) (t column : ℕ) (arc : Arc L (Tropical C)) : Prop :=
  fromI64 (dense.labelOffset + column) = some arc.ilabel ∧ arc.olabel = arc.ilabel ∧
    (dense.frame t)[column]? = some arc.weight.untrop ∧ arc.nextstate = t + 1

theorem getElem?_arcs {column : ℕ} :
    (dense.toFst.arcs t)[column]? = some arc ↔
      t < dense.numFrames ∧ IsColumn dense t column arc := by
  rw [toFst_arcs, arcs]
  by_cases ht : t < dense.numFrames
  · have hlabels : ∀ j < (dense.frame t).length,
        ∃ label : L, fromI64 (dense.labelOffset + (0 + j : ℕ)) = some label := by
      intro j hj
      rw [length_frame ht] at hj
      rw [Nat.zero_add]
      exact exists_label ht hj
    rw [if_pos ht, getElem?_denseArcs hlabels, Nat.zero_add, and_iff_right ht]
    rfl
  · rw [if_neg ht]
    simp [ht]

theorem mem_arcs :
    arc ∈ dense.toFst.arcs t ↔ t < dense.numFrames ∧ ∃ column, IsColumn dense t column arc := by
  rw [List.mem_iff_getElem?]
  simp only [getElem?_arcs, exists_and_left]

theorem exists_column {column : ℕ} (ht : t < dense.numFrames) (h : column < dense.numSymbols) :
    ∃ arc ∈ dense.toFst.arcs t, IsColumn dense t column arc := by
  obtain ⟨label, hlabel⟩ := exists_label ht h
  have hlt : column < (dense.frame t).length := by rwa [length_frame ht]
  have harc : IsColumn dense t column
      ⟨label, label, Tropical.trop (dense.frame t)[column], t + 1⟩ :=
    ⟨hlabel, rfl, List.getElem?_eq_getElem hlt, rfl⟩
  exact ⟨_, mem_arcs.mpr ⟨ht, column, harc⟩, harc⟩

theorem length_arcs (ht : t < dense.numFrames) :
    (dense.toFst.arcs t).length = dense.numSymbols := by
  apply Nat.le_antisymm
  · by_contra hlt
    have hsome := List.getElem?_eq_getElem (l := dense.toFst.arcs t) (Nat.lt_of_not_le hlt)
    have hcolumn := (List.getElem?_eq_some_iff.mp (getElem?_arcs.mp hsome).2.2.2.1).1
    rw [length_frame ht] at hcolumn
    exact Nat.lt_irrefl _ hcolumn
  · by_contra hlt
    obtain ⟨arc, -, harc⟩ := exists_column ht (Nat.lt_of_not_le hlt)
    have hsome := getElem?_arcs.mpr ⟨ht, harc⟩
    exact Nat.lt_irrefl _ (List.getElem?_eq_some_iff.mp hsome).1

theorem nextstate_eq (h : arc ∈ dense.toFst.arcs t) :
    t < dense.numFrames ∧ arc.nextstate = t + 1 := by
  obtain ⟨ht, column, -, -, -, hnext⟩ := mem_arcs.mp h
  exact ⟨ht, hnext⟩

theorem finalWeight_eq (dense : DenseFst L C) (t : ℕ) :
    dense.toFst.finalWeight t = if t = dense.numFrames then 1 else 0 := by
  rw [toFst_finalWeight]
  rfl

theorem inRange_toFst (dense : DenseFst L C) : dense.toFst.InRange := by
  constructor
  · intro s hs
    rw [numStates_toFst, ← Option.some.inj hs]
    exact Nat.succ_pos _
  · intro t arc harc
    obtain ⟨ht, hnext⟩ := nextstate_eq harc
    rw [numStates_toFst, hnext]
    omega

/- Every score is the score of a frame. -/
theorem mem_scores {score : C} :
    score ∈ dense.scores ↔ ∃ t < dense.numFrames, score ∈ dense.frame t := by
  constructor
  · intro hmem
    obtain ⟨i, hi, rfl⟩ := List.mem_iff_getElem.mp hmem
    have hlength := dense.length_scores
    have hpos : 0 < dense.numSymbols := by
      by_contra hzero
      rw [Nat.eq_zero_of_not_pos hzero, Nat.mul_zero] at hlength
      omega
    have hrow : i / dense.numSymbols < dense.numFrames :=
      (Nat.div_lt_iff_lt_mul hpos).mpr (hlength ▸ hi)
    refine ⟨_, hrow, List.mem_iff_getElem?.mpr ⟨i % dense.numSymbols, ?_⟩⟩
    unfold frame
    rw [List.getElem?_take_of_lt (Nat.mod_lt _ hpos), List.getElem?_drop, Nat.div_add_mod']
    exact List.getElem?_eq_getElem hi
  · rintro ⟨t, -, hmem⟩
    exact List.mem_of_mem_drop (List.mem_of_mem_take hmem)

theorem mem_scores_iff_arc {score : C} : score ∈ dense.scores ↔
    ∃ t, ∃ arc ∈ dense.toFst.arcs t, arc.weight = Tropical.trop score := by
  rw [mem_scores]
  constructor
  · rintro ⟨t, ht, hmem⟩
    obtain ⟨column, hcolumn⟩ := List.mem_iff_getElem?.mp hmem
    have hlt := (List.getElem?_eq_some_iff.mp hcolumn).1
    rw [length_frame ht] at hlt
    obtain ⟨arc, harc, -, -, hscore, -⟩ := exists_column ht hlt
    rw [hcolumn] at hscore
    exact ⟨t, arc, harc, Tropical.untrop_injective (Option.some.inj hscore).symm⟩
  · rintro ⟨t, arc, harc, hweight⟩
    obtain ⟨ht, column, -, -, hscore, -⟩ := mem_arcs.mp harc
    rw [hweight] at hscore
    exact ⟨t, ht, List.mem_of_getElem? hscore⟩

end Shape

section Meaning

variable {dense : DenseFst L C}

theorem step_iff {s : ℕ} : Step dense.toFst s t ↔ s < dense.numFrames ∧ t = s + 1 := by
  constructor
  · rintro ⟨arc, harc, rfl⟩
    exact nextstate_eq harc
  · rintro ⟨hs, rfl⟩
    have hpos := dense.numSymbols_pos (Nat.zero_lt_of_lt hs)
    obtain ⟨arc, harc, -, -, -, hnext⟩ := exists_column hs hpos
    exact ⟨arc, harc, hnext⟩

theorem lt_of_steps {s : ℕ} (h : TransGen (Step dense.toFst) s t) : s < t := by
  induction h with
  | single hstep =>
    obtain ⟨-, rfl⟩ := step_iff.mp hstep
    exact Nat.lt_succ_self s
  | tail _ hstep ih =>
    obtain ⟨-, rfl⟩ := step_iff.mp hstep
    exact Nat.lt_succ_of_lt ih

theorem reaches_of_le {s : ℕ} (hle : s ≤ t) (ht : t ≤ dense.numFrames) :
    ReflTransGen (Step dense.toFst) s t := by
  induction t, hle using Nat.le_induction with
  | base => exact .refl
  | succ t hle ih => exact (ih (by omega)).tail (step_iff.mpr ⟨by omega, rfl⟩)

theorem nontrivial_iff {score : C} :
    PropertyBits.Nontrivial (Tropical.trop score) ↔ score ≠ 0 ∧ score ≠ ⊤ := by
  have hone : Tropical.trop score = 1 ↔ score = 0 := Tropical.trop_inj_iff score 0
  have hzero : Tropical.trop score = 0 ↔ score = ⊤ := Tropical.trop_inj_iff score ⊤
  unfold PropertyBits.Nontrivial
  rw [ne_eq, ne_eq, hone, hzero, and_comm]

theorem trivial_final (t : ℕ) : ¬ PropertyBits.Nontrivial (dense.toFst.finalWeight t) := by
  rw [finalWeight_eq]
  rintro ⟨hzero, hone⟩
  split at hone
  · exact hone rfl
  · next hne =>
    rw [if_neg hne] at hzero
    exact hzero rfl

/- The scores decide one property, the rest the shape. -/
theorem holds_weighted : Holds dense.toFst .weighted ↔
    ∃ score ∈ dense.scores, score ≠ 0 ∧ score ≠ ⊤ := by
  constructor
  · rintro (⟨t, arc, harc, hweight⟩ | ⟨t, hweight⟩)
    · have hmem : arc.weight.untrop ∈ dense.scores := mem_scores_iff_arc.mpr ⟨t, arc, harc, rfl⟩
      exact ⟨arc.weight.untrop, hmem, nontrivial_iff.mp hweight⟩
    · exact absurd hweight (trivial_final t)
  · rintro ⟨score, hmem, hscore⟩
    obtain ⟨t, arc, harc, hweight⟩ := mem_scores_iff_arc.mp hmem
    refine Or.inl ⟨t, arc, harc, ?_⟩
    dsimp only
    rw [hweight]
    exact nontrivial_iff.mpr hscore

theorem not_cyclic : ¬ Holds dense.toFst .cyclic := by
  rintro ⟨s, hs⟩
  exact Nat.lt_irrefl s (lt_of_steps hs)

theorem not_weightedCycles : ¬ Holds dense.toFst .weightedCycles := by
  rintro ⟨s, arc, harc, -, hback⟩
  exact not_cyclic ⟨s, TransGen.head' ⟨arc, harc, rfl⟩ hback⟩

theorem accessible_toFst : Holds dense.toFst .accessible := by
  intro s hs
  rw [numStates_toFst] at hs
  exact ⟨0, rfl, reaches_of_le (Nat.zero_le s) (by omega)⟩

theorem coAccessible_toFst {isMember : Tropical C → Bool} (hone : isMember 1 = true)
    (htop : (0 : C) ≠ ⊤) : Is isMember dense.toFst .coAccessible := by
  intro s hs
  rw [numStates_toFst] at hs
  refine ⟨dense.numFrames, ?_, ?_⟩
  · refine ReflTransGen.lift id ?_ _ _ (reaches_of_le (Nat.le_of_lt_succ hs) le_rfl)
    rintro a b ⟨arc, harc, hnext⟩
    exact ⟨arc, harc, rfl, hnext⟩
  · unfold SccExact.FinalState
    rw [finalWeight_eq, if_pos rfl]
    exact ⟨hone, fun hzero => htop (Tropical.trop_injective hzero)⟩

/- One epsilon is on either side of an arc where one is on the other. -/
theorem epsilon_iff (h : arc ∈ dense.toFst.arcs t) :
    arc.olabel = arc.ilabel ∧ (arc.ilabel = epsilon ↔
      dense.labelOffset = 0 ∧ IsColumn dense t 0 arc) := by
  obtain ⟨ht, column, hcolumn⟩ := mem_arcs.mp h
  obtain ⟨hlabel, holabel, -, -⟩ := id hcolumn
  have hoffset := dense.labelOffset_nonneg
  refine ⟨holabel, fun heps => ?_, fun ⟨hzero, hfirst⟩ => ?_⟩
  · rw [heps, ArcLabel.fromI64_eq_some, ArcLabel.toI64_epsilon] at hlabel
    have hkey := Option.some.inj hlabel
    obtain rfl : column = 0 := by omega
    exact ⟨by omega, hcolumn⟩
  · have hkey := (ArcLabel.fromI64_eq_some _ _).mp hfirst.1
    rw [hzero] at hkey
    have heps := (ArcLabel.fromI64_eq_some 0 _).mpr (ArcLabel.toI64_epsilon (L := L))
    exact Option.some.inj ((hzero ▸ hfirst.1 : fromI64 (0 + (0 : ℕ) : ℤ) = _).symm.trans heps)

theorem someArc_epsilon {P : Arc L (Tropical C) → Prop}
    (hP : ∀ arc, arc.olabel = arc.ilabel → (P arc ↔ arc.ilabel = epsilon)) :
    SomeArc P dense.toFst ↔
      dense.labelOffset = 0 ∧ 0 < dense.numSymbols ∧ 0 < dense.numFrames := by
  constructor
  · rintro ⟨t, arc, harc, hp⟩
    obtain ⟨holabel, heps⟩ := epsilon_iff harc
    obtain ⟨ht, column, hcolumn⟩ := mem_arcs.mp harc
    have hpos := dense.numSymbols_pos (by omega)
    exact ⟨(heps.mp ((hP arc holabel).mp hp)).1, hpos, by omega⟩
  · rintro ⟨hzero, hsymbols, hframes⟩
    obtain ⟨arc, harc, hcolumn⟩ := exists_column hframes hsymbols
    obtain ⟨holabel, heps⟩ := epsilon_iff harc
    exact ⟨0, arc, harc, (hP arc holabel).mpr (heps.mpr ⟨hzero, hcolumn⟩)⟩

theorem holds_string (htop : (0 : C) ≠ ⊤) : Holds dense.toFst .string ↔
    dense.numSymbols ≤ 1 ∨ dense.numFrames = 0 := by
  have hfinal : ∀ s, dense.toFst.finalWeight s = 0 ↔ s ≠ dense.numFrames := by
    intro s
    rw [finalWeight_eq]
    split
    · next heq => exact iff_of_false (fun h => htop (Tropical.trop_injective h)) (not_not.mpr heq)
    · next hne => exact iff_of_true rfl hne
  constructor
  · rintro ⟨-, hstates⟩
    by_contra hmany
    have hframes : 0 < dense.numFrames := by omega
    obtain ⟨-, -, hone⟩ := hstates 0 (by rw [numStates_toFst]; omega)
    have hlength := hone ((hfinal 0).mpr (by omega))
    rw [VectorFst.numArcs_eq, length_arcs hframes] at hlength
    omega
  · intro hfew
    refine ⟨fun start hstart => (Option.some.inj hstart).symm, fun s hs => ⟨?_, ?_, ?_⟩⟩
    · intro arc harc
      exact (nextstate_eq harc).2
    · intro hne
      rw [numStates_toFst, not_not.mp (mt (hfinal s).mpr hne)]
    · intro hzero
      rw [numStates_toFst] at hs
      have hne := (hfinal s).mp hzero
      have hlt : s < dense.numFrames := by omega
      have hpos := dense.numSymbols_pos (by omega)
      rw [VectorFst.numArcs_eq, length_arcs hlt]
      omega

/- The labels of a state's arcs go up by one. -/
theorem pairwise_arcs (t : ℕ) : (dense.toFst.arcs t).Pairwise fun arc arc' =>
    arc.olabel = arc.ilabel ∧ arc'.olabel = arc'.ilabel ∧
      ∃ key key', key < key' ∧ toI64 arc.ilabel = some key ∧ toI64 arc'.ilabel = some key' := by
  rw [List.pairwise_iff_getElem]
  intro i j hi hj hij
  obtain ⟨-, hlabel, holabel, -⟩ := getElem?_arcs.mp (List.getElem?_eq_getElem hi)
  obtain ⟨-, hlabel', holabel', -⟩ := getElem?_arcs.mp (List.getElem?_eq_getElem hj)
  rw [ArcLabel.fromI64_eq_some] at hlabel hlabel'
  exact ⟨holabel, holabel', _, _, by omega, hlabel, hlabel'⟩

theorem uniqueLabels_toFst (byOutput : Bool) : UniqueLabels (sideLabel byOutput) dense.toFst := by
  intro t
  rw [List.Nodup, List.pairwise_map]
  refine (pairwise_arcs t).imp ?_
  rintro arc arc' ⟨holabel, holabel', key, key', hlt, hkey, hkey'⟩ heq
  have hsame : arc.ilabel = arc'.ilabel := by
    cases byOutput with
    | false => exact heq
    | true => rwa [sideLabel, sideLabel, if_pos rfl, if_pos rfl, holabel, holabel'] at heq
  rw [hsame, hkey'] at hkey
  have := Option.some.inj hkey
  omega

/- Labels are ordered as their keys are. -/
def KeysOrdered (L : Type) [ArcLabel L] : Prop :=
  ∀ (label label' : L) (key key' : ℤ), toI64 label = some key → toI64 label' = some key' →
    key ≤ key' → label ≤ label'

theorem sortedLabels_toFst (hkeys : KeysOrdered L) (byOutput : Bool) :
    SortedLabels (sideLabel byOutput) dense.toFst := by
  intro t
  apply List.Pairwise.isChain
  rw [List.pairwise_map]
  refine (pairwise_arcs t).imp ?_
  rintro arc arc' ⟨holabel, holabel', key, key', hlt, hkey, hkey'⟩
  have hle := hkeys _ _ _ _ hkey hkey' hlt.le
  cases byOutput with
  | false => exact hle
  | true => rwa [sideLabel, sideLabel, if_pos rfl, if_pos rfl, holabel, holabel']

end Meaning

section Bits

def reportedBits (eps string unweighted : Bool) : BitVec 64 :=
  let props := kExpanded ||| kAcceptor ||| kIDeterministic ||| kODeterministic ||| kILabelSorted |||
    kOLabelSorted ||| kAcyclic ||| kInitialAcyclic ||| kTopSorted ||| kAccessible |||
    kCoAccessible ||| kUnweightedCycles
  let props :=
    if eps then props ||| (kEpsilons ||| kIEpsilons ||| kOEpsilons)
    else props ||| (kNoEpsilons ||| kNoIEpsilons ||| kNoOEpsilons)
  let props := if string then props ||| kString else props ||| kNotString
  if unweighted then props ||| kUnweighted else props ||| kWeighted

/- What is said of each property. -/
def reported (eps string unweighted : Bool) : TrinaryProperty → Bool
  | .epsilons | .iEpsilons | .oEpsilons => eps
  | .string => string
  | .weighted => !unweighted
  | .cyclic | .initialCyclic | .weightedCycles => false
  | _ => true

theorem held_reportedBits (eps string unweighted : Bool) (p : TrinaryProperty) :
    (Held (reportedBits eps string unweighted) p.positive ↔
      reported eps string unweighted p = true) ∧
    (Held (reportedBits eps string unweighted) p.negative ↔
      reported eps string unweighted p = false) := by
  cases p <;> revert eps string unweighted <;> decide

theorem computeProperties_eq (scores : List C) (numFrames numSymbols : ℕ) (labelOffset : ℤ) :
    DenseFst.computeProperties scores numFrames numSymbols labelOffset =
      reportedBits (decide (labelOffset = 0 ∧ 0 < numSymbols ∧ 0 < numFrames))
        (decide (numSymbols ≤ 1 ∨ numFrames = 0)) (decide (∀ score ∈ scores, score = 0)) := by
  unfold DenseFst.computeProperties reportedBits
  simp only [decide_eq_true_eq]

end Bits

section Agreement

variable {dense : DenseFst L C} {isMember : Tropical C → Bool} {scores : ScoreSlice C}
  {numFrames numSymbols : ℕ} {labelOffset : ℤ}

/- Every bit that is set is one that looking at the arcs finds, whatever else is looked for. -/
def ReportsTruly (isMember : Tropical C → Bool) (dense : DenseFst L C) : Prop :=
  ∀ mask p, Named mask p →
    (Held dense.properties p.positive →
      Held (computeProperties isMember dense.toFst mask) p.positive) ∧
    (Held dense.properties p.negative →
      Held (computeProperties isMember dense.toFst mask) p.negative)

/- Infinite scores alone do not make the matrix weighted. -/
def WeightsAgree (scores : List C) : Prop :=
  (∀ score ∈ scores, score = 0) ∨ ∃ score ∈ scores, score ≠ 0 ∧ score ≠ ⊤

theorem is_iff_reported (hone : isMember 1 = true) (htop : (0 : C) ≠ ⊤) (hkeys : KeysOrdered L)
    {p : TrinaryProperty} (hp : p ≠ .weighted) (unweighted : Bool) :
    Is isMember dense.toFst p ↔
      reported (decide (dense.labelOffset = 0 ∧ 0 < dense.numSymbols ∧ 0 < dense.numFrames))
        (decide (dense.numSymbols ≤ 1 ∨ dense.numFrames = 0)) unweighted p = true := by
  cases p with
  | acceptor =>
    refine iff_of_true ?_ rfl
    intro t arc harc
    obtain ⟨-, column, -, holabel, -⟩ := mem_arcs.mp harc
    exact holabel.symm
  | iDeterministic => exact iff_of_true (uniqueLabels_toFst false) rfl
  | oDeterministic => exact iff_of_true (uniqueLabels_toFst true) rfl
  | epsilons =>
    exact (someArc_epsilon fun arc h => by rw [h, and_self]).trans decide_eq_true_iff.symm
  | iEpsilons => exact (someArc_epsilon fun arc _ => Iff.rfl).trans decide_eq_true_iff.symm
  | oEpsilons => exact (someArc_epsilon fun arc h => by rw [h]).trans decide_eq_true_iff.symm
  | iLabelSorted => exact iff_of_true (sortedLabels_toFst hkeys false) rfl
  | oLabelSorted => exact iff_of_true (sortedLabels_toFst hkeys true) rfl
  | weighted => exact absurd rfl hp
  | cyclic => exact iff_of_false not_cyclic Bool.false_ne_true
  | initialCyclic =>
    refine iff_of_false ?_ Bool.false_ne_true
    rintro ⟨s, -, hcycle⟩
    exact not_cyclic ⟨s, hcycle⟩
  | topSorted =>
    refine iff_of_true ?_ rfl
    intro t arc harc
    rw [(nextstate_eq harc).2]
    exact Nat.lt_succ_self t
  | accessible => exact iff_of_true accessible_toFst rfl
  | coAccessible => exact iff_of_true (coAccessible_toFst hone htop) rfl
  | string => exact (holds_string htop).trans decide_eq_true_iff.symm
  | weightedCycles => exact iff_of_false not_weightedCycles Bool.false_ne_true

theorem weighted_iff_reported (eps string : Bool) : (Is isMember dense.toFst .weighted ↔
    reported eps string (decide (∀ score ∈ dense.scores, score = 0)) .weighted = true) ↔
      WeightsAgree dense.scores := by
  have hreported :
      reported eps string (decide (∀ score ∈ dense.scores, score = 0)) .weighted = true ↔
        ¬ ∀ score ∈ dense.scores, score = 0 := by
    rw [reported, Bool.not_eq_true', decide_eq_false_iff_not]
  rw [hreported]
  change (Holds dense.toFst .weighted ↔ _) ↔ _
  rw [holds_weighted]
  constructor
  · intro h
    by_cases hall : ∀ score ∈ dense.scores, score = 0
    · exact Or.inl hall
    · exact Or.inr (h.mpr hall)
  · rintro (hall | hsome)
    · exact iff_of_false (fun ⟨score, hmem, hne, _⟩ => hne (hall score hmem)) (not_not.mpr hall)
    · obtain ⟨score, hmem, hne, -⟩ := id hsome
      exact iff_of_true hsome fun hall => hne (hall score hmem)

theorem reportsTruly_iff (hone : isMember 1 = true) (htop : (0 : C) ≠ ⊤) (hkeys : KeysOrdered L)
    (hprops : dense.properties = DenseFst.computeProperties dense.scores dense.numFrames
      dense.numSymbols dense.labelOffset) :
    ReportsTruly isMember dense ↔ WeightsAgree dense.scores := by
  have hstart : dense.toFst.start = some 0 := rfl
  have hsettled : ∀ mask p, Named mask p → Settled isMember dense.toFst
      (Sicada.computeProperties isMember dense.toFst mask) p := fun mask p hnamed =>
    (computed_settles (inRange_toFst dense) hstart mask p).resolve_right fun hnone =>
      hnone.1 hnamed
  unfold ReportsTruly
  rw [hprops, computeProperties_eq]
  constructor
  · intro h
    apply (weighted_iff_reported false false).mp
    obtain ⟨hpos, hneg⟩ := hsettled kWeighted .weighted (Or.inl (by decide))
    obtain ⟨htrue, hfalse⟩ := h kWeighted .weighted (Or.inl (by decide))
    rw [(held_reportedBits _ _ _ _).1, hpos] at htrue
    rw [(held_reportedBits _ _ _ _).2, hneg] at hfalse
    refine ⟨fun his => ?_, htrue⟩
    by_contra hne
    exact hfalse (Bool.not_eq_true _ ▸ hne) his
  · intro hagree mask p hnamed
    obtain ⟨hpos, hneg⟩ := hsettled mask p hnamed
    have his : Is isMember dense.toFst p ↔ reported
        (decide (dense.labelOffset = 0 ∧ 0 < dense.numSymbols ∧ 0 < dense.numFrames))
        (decide (dense.numSymbols ≤ 1 ∨ dense.numFrames = 0))
        (decide (∀ score ∈ dense.scores, score = 0)) p = true := by
      by_cases hp : p = .weighted
      · subst hp
        exact (weighted_iff_reported _ _).mpr hagree
      · exact is_iff_reported hone htop hkeys hp _
    rw [(held_reportedBits _ _ _ _).1, (held_reportedBits _ _ _ _).2, hpos, hneg, his]
    exact ⟨id, fun hfalse htrue => Bool.false_ne_true (hfalse.symm.trans htrue)⟩

/- Construction does not panic, and what it reports is true. -/
def Honoured (L : Type) [ArcLabel L] (isMember : Tropical C → Bool) (scores : ScoreSlice C)
    (numFrames numSymbols : ℕ) (labelOffset : ℤ) : Prop :=
  ∃ result, withLabelOffset (L := L) scores numFrames numSymbols labelOffset = some result ∧
    ∀ dense, result = .ok dense → ReportsTruly isMember dense

/- What is refused before the last label is worked out. -/
def Refused (scores : ScoreSlice C) (numFrames numSymbols : ℕ) (labelOffset : ℤ) : Prop :=
  2 ^ 64 ≤ numFrames * numSymbols ∨ scores.val.length ≠ numFrames * numSymbols ∨
    (numSymbols = 0 ∧ 0 < numFrames) ∨ labelOffset < 0

theorem honoured_of_error {e : String}
    (h : withLabelOffset (L := L) scores numFrames numSymbols labelOffset = some (.error e)) :
    Honoured L isMember scores numFrames numSymbols labelOffset :=
  ⟨_, h, fun _ hok => nomatch hok⟩

theorem honoured_of_refused (h : Refused scores numFrames numSymbols labelOffset) :
    Honoured L isMember scores numFrames numSymbols labelOffset := by
  by_cases hsize : 2 ^ 64 ≤ numFrames * numSymbols
  · exact honoured_of_error (dif_pos hsize)
  by_cases hlength : scores.val.length ≠ numFrames * numSymbols
  · exact honoured_of_error ((dif_neg hsize).trans (dif_pos hlength))
  by_cases hsymbols : numSymbols = 0 ∧ 0 < numFrames
  · exact honoured_of_error ((dif_neg hsize).trans ((dif_neg hlength).trans (dif_pos hsymbols)))
  have hoffset : labelOffset < 0 :=
    ((h.resolve_left hsize).resolve_left hlength).resolve_left hsymbols
  exact honoured_of_error ((dif_neg hsize).trans ((dif_neg hlength).trans
    ((dif_neg hsymbols).trans (dif_pos hoffset))))

/- What is left to the last label: a panic, a refusal or a matrix. -/
theorem withLabelOffset_cases (h : ¬ Refused scores numFrames numSymbols labelOffset) :
    (lastLabel numSymbols labelOffset = none ∧
      withLabelOffset (L := L) scores numFrames numSymbols labelOffset = none) ∨
    ∃ last, lastLabel numSymbols labelOffset = some last ∧
      ((0 < numSymbols ∧ (fromI64 (L := L) last).isNone) ∧
        (∃ e, withLabelOffset (L := L) scores numFrames numSymbols labelOffset = some (.error e)) ∨
      ¬ (0 < numSymbols ∧ (fromI64 (L := L) last).isNone) ∧
        ∃ dense : DenseFst L C,
          withLabelOffset scores numFrames numSymbols labelOffset = some (.ok dense) ∧
          dense.scores = scores.val ∧ dense.properties = DenseFst.computeProperties dense.scores
            dense.numFrames dense.numSymbols dense.labelOffset) := by
  unfold Refused at h
  obtain ⟨hsize, hlength, hsymbols, hoffset⟩ := by simpa only [not_or] using h
  unfold withLabelOffset
  rw [dif_neg hsize, dif_neg hlength, dif_neg hsymbols, dif_neg hoffset]
  split
  · next hnone => exact Or.inl ⟨hnone, rfl⟩
  · next last hsome =>
    refine Or.inr ⟨last, hsome, ?_⟩
    by_cases hfits : 0 < numSymbols ∧ (fromI64 (L := L) last).isNone
    · rw [dif_pos hfits]
      exact Or.inl ⟨hfits, _, rfl⟩
    · rw [dif_neg hfits]
      exact Or.inr ⟨hfits, _, rfl, rfl, rfl⟩

theorem not_honoured_of_panic
    (h : withLabelOffset (L := L) scores numFrames numSymbols labelOffset = none) :
    ¬ Honoured L isMember scores numFrames numSymbols labelOffset := by
  rintro ⟨result, hresult, -⟩
  rw [h] at hresult
  cases hresult

theorem honoured_of_built {dense : DenseFst L C}
    (h : withLabelOffset scores numFrames numSymbols labelOffset = some (.ok dense)) :
    Honoured L isMember scores numFrames numSymbols labelOffset ↔ ReportsTruly isMember dense := by
  constructor
  · rintro ⟨result, hresult, hall⟩
    rw [h] at hresult
    exact hall dense (Option.some.inj hresult).symm
  · intro htruly
    refine ⟨_, h, fun dense' heq => ?_⟩
    cases heq
    exact htruly

/- The bits are true and nothing panics where the sums for the last label do not overflow, and
where not all scores that differ from zero are infinite. -/
theorem honoured_iff (hone : isMember 1 = true) (htop : (0 : C) ≠ ⊤) (hkeys : KeysOrdered L) :
    Honoured L isMember scores numFrames numSymbols labelOffset ↔
      Refused scores numFrames numSymbols labelOffset ∨
      FitsI64 (labelOffset + asI64 numSymbols) ∧ FitsI64 (labelOffset + asI64 numSymbols - 1) ∧
        ((0 < numSymbols ∧ (fromI64 (L := L) (labelOffset + asI64 numSymbols - 1)).isNone) ∨
          WeightsAgree scores.val) := by
  by_cases hrefused : Refused scores numFrames numSymbols labelOffset
  · exact iff_of_true (honoured_of_refused hrefused) (Or.inl hrefused)
  rw [or_iff_right hrefused]
  rcases withLabelOffset_cases (L := L) hrefused with
    ⟨hnone, hpanic⟩ | ⟨last, hlast, ⟨hfits, e, herror⟩ | ⟨hfits, dense, hok, hscores, hprops⟩⟩
  · refine iff_of_false (not_honoured_of_panic hpanic) fun ⟨hsum, hless, _⟩ => ?_
    rw [lastLabel, if_pos ⟨hsum, hless⟩] at hnone
    cases hnone
  · unfold lastLabel at hlast
    split at hlast
    · next hsums =>
      obtain rfl := Option.some.inj hlast
      exact iff_of_true (honoured_of_error herror) ⟨hsums.1, hsums.2, Or.inl hfits⟩
    · cases hlast
  · unfold lastLabel at hlast
    split at hlast
    · next hsums =>
      obtain rfl := Option.some.inj hlast
      rw [honoured_of_built hok, reportsTruly_iff hone htop hkeys hprops, hscores,
        and_iff_right hsums.1, and_iff_right hsums.2, or_iff_right hfits]
    · cases hlast

theorem keysOrdered_int : KeysOrdered ℤ := by
  intro label label' key key' hkey hkey' hle
  rwa [Option.some.inj hkey, Option.some.inj hkey']

theorem honoured_iff_one_frame :
    Honoured ℤ (fun _ => true) (⟨[3, ⊤], by decide⟩ : ScoreSlice (WithTop ℤ)) 1 2 0 :=
  (honoured_iff rfl (by decide) keysOrdered_int).mpr
    (Or.inr ⟨by decide, by decide, Or.inr (Or.inr ⟨3, by decide, by decide, by decide⟩)⟩)

/- A matrix whose one score is infinite is said to be weighted, and a column on the largest label
there is cannot be placed. -/
theorem infinite_score_and_largest_label :
    ¬ Honoured ℤ (fun _ => true) (⟨[⊤], by decide⟩ : ScoreSlice (WithTop ℤ)) 1 1 1 ∧
      ¬ Honoured ℤ (fun _ => true) (⟨[0], by decide⟩ : ScoreSlice (WithTop ℤ)) 1 1
        9223372036854775807 := by
  constructor
  · obtain ⟨dense, hok, hscores, hprops⟩ : ∃ dense : DenseFst ℤ (WithTop ℤ),
        withLabelOffset ⟨[⊤], by decide⟩ 1 1 1 = some (.ok dense) ∧ dense.scores = [⊤] ∧
        dense.properties = DenseFst.computeProperties dense.scores dense.numFrames
          dense.numSymbols dense.labelOffset := ⟨_, rfl, rfl, rfl⟩
    rw [honoured_of_built hok, reportsTruly_iff rfl (by decide) keysOrdered_int hprops, hscores]
    rintro (hall | ⟨score, hmem, -, hne⟩)
    · exact absurd (hall ⊤ (by simp)) (by decide)
    · exact hne (List.mem_singleton.mp hmem)
  · exact not_honoured_of_panic rfl

end Agreement

end Sicada.DenseProperties
