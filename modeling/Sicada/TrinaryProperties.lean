import Sicada.VectorFst

namespace Sicada.PropertyBits

open Relation

variable {L W : Type} [ArcLabel L] [Zero W] [One W]

inductive TrinaryProperty where
  | acceptor
  | iDeterministic
  | oDeterministic
  | epsilons
  | iEpsilons
  | oEpsilons
  | iLabelSorted
  | oLabelSorted
  | weighted
  | cyclic
  | initialCyclic
  | topSorted
  | accessible
  | coAccessible
  | string
  | weightedCycles
deriving DecidableEq

namespace TrinaryProperty

/- The bit that says the property holds. -/
def positive : TrinaryProperty → BitVec 64
  | acceptor => kAcceptor
  | iDeterministic => kIDeterministic
  | oDeterministic => kODeterministic
  | epsilons => kEpsilons
  | iEpsilons => kIEpsilons
  | oEpsilons => kOEpsilons
  | iLabelSorted => kILabelSorted
  | oLabelSorted => kOLabelSorted
  | weighted => kWeighted
  | cyclic => kCyclic
  | initialCyclic => kInitialCyclic
  | topSorted => kTopSorted
  | accessible => kAccessible
  | coAccessible => kCoAccessible
  | string => kString
  | weightedCycles => kWeightedCycles

/- The bit that says it does not. -/
def negative : TrinaryProperty → BitVec 64
  | acceptor => kNotAcceptor
  | iDeterministic => kNonIDeterministic
  | oDeterministic => kNonODeterministic
  | epsilons => kNoEpsilons
  | iEpsilons => kNoIEpsilons
  | oEpsilons => kNoOEpsilons
  | iLabelSorted => kNotILabelSorted
  | oLabelSorted => kNotOLabelSorted
  | weighted => kUnweighted
  | cyclic => kAcyclic
  | initialCyclic => kInitialAcyclic
  | topSorted => kNotTopSorted
  | accessible => kNotAccessible
  | coAccessible => kNotCoAccessible
  | string => kNotString
  | weightedCycles => kUnweightedCycles

end TrinaryProperty

def Step (fst : VectorFst L W) (s t : ℕ) : Prop := ∃ arc ∈ fst.arcs s, arc.nextstate = t

def EveryArc (P : Arc L W → Prop) (fst : VectorFst L W) : Prop := ∀ s, ∀ arc ∈ fst.arcs s, P arc

def SomeArc (P : Arc L W → Prop) (fst : VectorFst L W) : Prop := ∃ s, ∃ arc ∈ fst.arcs s, P arc

def UniqueLabels (label : Arc L W → L) (fst : VectorFst L W) : Prop :=
  ∀ s, ((fst.arcs s).map label).Nodup

def SortedLabels (label : Arc L W → L) (fst : VectorFst L W) : Prop :=
  ∀ s, ((fst.arcs s).map label).IsChain (· ≤ ·)

def Nontrivial (weight : W) : Prop := weight ≠ 0 ∧ weight ≠ 1

/- The definition of each property, as a scan of the FST settles it. -/
def Holds (fst : VectorFst L W) : TrinaryProperty → Prop
  | .acceptor => EveryArc (fun arc => arc.ilabel = arc.olabel) fst
  | .iDeterministic => UniqueLabels (·.ilabel) fst
  | .oDeterministic => UniqueLabels (·.olabel) fst
  | .epsilons => SomeArc (fun arc => arc.ilabel = epsilon ∧ arc.olabel = epsilon) fst
  | .iEpsilons => SomeArc (fun arc => arc.ilabel = epsilon) fst
  | .oEpsilons => SomeArc (fun arc => arc.olabel = epsilon) fst
  | .iLabelSorted => SortedLabels (·.ilabel) fst
  | .oLabelSorted => SortedLabels (·.olabel) fst
  | .weighted => SomeArc (fun arc => Nontrivial arc.weight) fst ∨
      ∃ s, Nontrivial (fst.finalWeight s)
  | .cyclic => ∃ s, TransGen (Step fst) s s
  | .initialCyclic => ∃ s, fst.start = some s ∧ TransGen (Step fst) s s
  | .topSorted => ∀ s, ∀ arc ∈ fst.arcs s, s < arc.nextstate
  | .accessible => ∀ s < fst.numStates, ∃ start, fst.start = some start ∧
      ReflTransGen (Step fst) start s
  | .coAccessible => ∀ s < fst.numStates, ∃ t, ReflTransGen (Step fst) s t ∧
      fst.finalWeight t ≠ 0
  | .string => (∀ start, fst.start = some start → start = 0) ∧ ∀ s < fst.numStates,
      (∀ arc ∈ fst.arcs s, arc.nextstate = s + 1) ∧
        (fst.finalWeight s ≠ 0 → s + 1 = fst.numStates) ∧
        (fst.finalWeight s = 0 → fst.numArcs s = 1)
  | .weightedCycles => ∃ s, ∃ arc ∈ fst.arcs s, Nontrivial arc.weight ∧
      ReflTransGen (Step fst) arc.nextstate s

variable {fst fst' : VectorFst L W}

/- `small` sits in `big`: its states go to states of `big` by `f`, which moves no arc out of the
order of the state numbers. -/
structure Embeds (f : ℕ → ℕ) (small big : VectorFst L W) : Prop where
  arcs : ∀ s, ((small.arcs s).map fun arc => { arc with nextstate := f arc.nextstate }).Sublist
    (big.arcs (f s))
  order : ∀ s, ∀ arc ∈ small.arcs s, arc.nextstate ≤ s → f arc.nextstate ≤ f s
  final : ∀ s, Nontrivial (small.finalWeight s) → Nontrivial (big.finalWeight (f s))
  start : ∀ s, small.start = some s → big.start = some (f s)

namespace Embeds

variable {f : ℕ → ℕ} (h : Embeds f fst fst')
include h

theorem mem {s : ℕ} {arc : Arc L W} (harc : arc ∈ fst.arcs s) :
    { arc with nextstate := f arc.nextstate } ∈ fst'.arcs (f s) :=
  (h.arcs s).subset (List.mem_map_of_mem harc)

theorem step {s t : ℕ} (hst : Step fst s t) : Step fst' (f s) (f t) := by
  obtain ⟨arc, harc, rfl⟩ := hst
  exact ⟨_, h.mem harc, rfl⟩

theorem reaches {s t : ℕ} (hst : ReflTransGen (Step fst) s t) :
    ReflTransGen (Step fst') (f s) (f t) :=
  ReflTransGen.lift f (fun _ _ => h.step) s t hst

theorem cycles {s : ℕ} (hst : TransGen (Step fst) s s) : TransGen (Step fst') (f s) (f s) :=
  TransGen.lift f (fun _ _ => h.step) s s hst

theorem someArc {P : Arc L W → Prop} (hP : ∀ arc s, P { arc with nextstate := s } ↔ P arc)
    (hsome : SomeArc P fst) : SomeArc P fst' := by
  obtain ⟨s, arc, harc, hp⟩ := hsome
  exact ⟨f s, _, h.mem harc, (hP arc _).mpr hp⟩

theorem everyArc {P : Arc L W → Prop} (hP : ∀ arc s, P { arc with nextstate := s } ↔ P arc)
    (hevery : EveryArc P fst') : EveryArc P fst := by
  intro s arc harc
  exact (hP arc _).mp (hevery (f s) _ (h.mem harc))

theorem labels {label : Arc L W → L} (hl : ∀ arc s, label { arc with nextstate := s } = label arc)
    (s : ℕ) : ((fst.arcs s).map label).Sublist ((fst'.arcs (f s)).map label) := by
  have hmap := (h.arcs s).map label
  rw [List.map_map] at hmap
  have hcongr : (label ∘ fun arc : Arc L W => { arc with nextstate := f arc.nextstate }) = label :=
    funext fun arc => hl arc _
  rwa [hcongr] at hmap

theorem uniqueLabels {label : Arc L W → L}
    (hl : ∀ arc s, label { arc with nextstate := s } = label arc)
    (hu : UniqueLabels label fst') : UniqueLabels label fst :=
  fun s => (hu (f s)).sublist (h.labels hl s)

theorem sortedLabels {label : Arc L W → L}
    (hl : ∀ arc s, label { arc with nextstate := s } = label arc)
    (hs : SortedLabels label fst') : SortedLabels label fst :=
  fun s => (hs (f s)).sublist (h.labels hl s)

/- What an FST may have, it has when a part of it has. -/
theorem holds_big {p : TrinaryProperty} (hp : p ∈ [.epsilons, .iEpsilons, .oEpsilons, .weighted,
    .cyclic, .initialCyclic, .weightedCycles]) (hholds : Holds fst p) : Holds fst' p := by
  fin_cases hp
  · exact h.someArc (fun _ _ => Iff.rfl) hholds
  · exact h.someArc (fun _ _ => Iff.rfl) hholds
  · exact h.someArc (fun _ _ => Iff.rfl) hholds
  · rcases hholds with harc | ⟨s, hs⟩
    · exact Or.inl (h.someArc (fun _ _ => Iff.rfl) harc)
    · exact Or.inr ⟨f s, h.final s hs⟩
  · obtain ⟨s, hs⟩ := hholds
    exact ⟨f s, h.cycles hs⟩
  · obtain ⟨s, hstart, hs⟩ := hholds
    exact ⟨f s, h.start s hstart, h.cycles hs⟩
  · obtain ⟨s, arc, harc, hw, hback⟩ := hholds
    exact ⟨f s, _, h.mem harc, hw, h.reaches hback⟩

/- What holds of every arc, it keeps in each of its parts. -/
theorem holds_small {p : TrinaryProperty} (hp : p ∈ [.acceptor, .iDeterministic, .oDeterministic,
    .iLabelSorted, .oLabelSorted, .topSorted]) (hholds : Holds fst' p) : Holds fst p := by
  fin_cases hp
  · exact h.everyArc (fun _ _ => Iff.rfl) hholds
  · exact h.uniqueLabels (fun _ _ => rfl) hholds
  · exact h.uniqueLabels (fun _ _ => rfl) hholds
  · exact h.sortedLabels (fun _ _ => rfl) hholds
  · exact h.sortedLabels (fun _ _ => rfl) hholds
  · intro s arc harc
    by_contra hle
    have hback := hholds (f s) _ (h.mem harc)
    have hforth := h.order s arc harc (by omega)
    simp only at hback
    omega

end Embeds

theorem topSorted_lt (h : Holds fst .topSorted) {s t : ℕ} (hst : TransGen (Step fst) s t) :
    s < t := by
  have hstep : ∀ {s t : ℕ}, Step fst s t → s < t := by
    rintro s t ⟨arc, harc, rfl⟩
    exact h s arc harc
  induction hst with
  | single hst => exact hstep hst
  | tail _ hst ih => exact ih.trans (hstep hst)

theorem acyclic_of_topSorted (h : Holds fst .topSorted) : ¬ Holds fst .cyclic := by
  rintro ⟨s, hs⟩
  exact absurd (topSorted_lt h hs) (lt_irrefl s)

end Sicada.PropertyBits
