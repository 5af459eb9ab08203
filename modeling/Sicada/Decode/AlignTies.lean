import Sicada.Decode.AlignExact

namespace Sicada.AlignTies

open AlignExact BestPathExact

variable {L C : Type} [ArcLabel L] [LinearOrderedAddCommMonoidWithTop C]

/- The sequences of transitions that lead past every phone in all the frames. -/
def Complete (tr : ChainTrellis L C) (moves : List (Fin 4 × ℕ)) : Prop :=
  tr.toTrellis.PathTo (· ≠ ⊤) tr.dense.numFrames tr.chain.phones.length moves

def Cheapest (tr : ChainTrellis L C) (moves : List (Fin 4 × ℕ)) : Prop :=
  Complete tr moves ∧ ∀ moves', Complete tr moves' →
    pathCost tr.toTrellis moves ≤ pathCost tr.toTrellis moves'

def Sounds (p : ℕ) (moves : List (Fin 4 × ℕ)) : Prop := ∃ move ∈ moves, soundOf move = p + 1

/- A position is skipped into and its phone held later on; positions are compared in 32 bits. -/
def SkipsThenHolds (codes positions : List ℕ) : Prop :=
  ∃ s t i : ℕ, s < t ∧ codes[s]? = some 3 ∧ positions[s]? = some i ∧ codes[t]? = some 1 ∧
    positions[t]? = some i

/- What is documented of skip costs: a phone is given up only when keeping it costs strictly more,
and no phone is held whose position was skipped into. -/
def Thresholds (chain : AlignChain C) (dense : DenseFst L C) : Prop :=
  ∀ tr : ChainTrellis L C, chain.against dense = .ok tr →
    (∀ alignment, align chain dense = some (.ok (some alignment)) →
      ∀ p, p + 1 ∉ alignment.sounding → ∀ moves, Complete tr moves → Sounds p moves →
        alignment.cost < pathCost tr.toTrellis moves) ∧
    ∀ path, tr.toTrellis.bestPath = some (.ok (some path)) →
      ¬ SkipsThenHolds path.codes path.positions

/- What a path is not to do: give up a phone that another path of the same cost sounds, or hold one
that it has skipped. -/
def Slips (tr : ChainTrellis L C) (moves : List (Fin 4 × ℕ)) : Prop :=
  (∃ p, p + 1 ∉ moves.map writtenSound ∧ ∃ moves', Cheapest tr moves' ∧ Sounds p moves') ∨
    SkipsThenHolds (moves.map fun move => (move.1 : ℕ)) (moves.map fun move => move.2 % 2 ^ 32)

/- Of the cheapest paths no slip comes first in the order of the tie-break. -/
def TiesKeep (tr : ChainTrellis L C) : Prop :=
  ∀ moves, Cheapest tr moves → Slips tr moves →
    ∃ moves', Cheapest tr moves' ∧ Preferred moves' moves

section Answers

variable [Nontrivial C] {tr : ChainTrellis L C}

/- What the search answers. -/
inductive Answers (tr : ChainTrellis L C) : Prop
  | unfit (hsize : usizeMax < tr.dense.numFrames * (tr.chain.phones.length / 4 + 1)) (e : String)
      (hpath : tr.toTrellis.bestPath = some (.error e))
  | none (hno : ∀ moves, ¬ Complete tr moves) (hpath : tr.toTrellis.bestPath = some (.ok none))
  | some (moves : List (Fin 4 × ℕ)) (hcheapest : Cheapest tr moves)
      (hsize : tr.dense.numFrames * (tr.chain.phones.length / 4 + 1) ≤ usizeMax)
      (hfirst : ∀ moves', Cheapest tr moves' → moves = moves' ∨ Preferred moves moves')
      (hpath : tr.toTrellis.bestPath = some (.ok (some ⟨moves.map fun move => (move.1 : ℕ),
        moves.map fun move => move.2 % 2 ^ 32, pathCost tr.toTrellis moves⟩)))

theorem answers (tr : ChainTrellis L C) : Answers tr := by
  have hlawful := @lawful_toTrellis L C _ _ tr
  rcases Nat.lt_or_ge (tr.toTrellis.band 0).1 (tr.toTrellis.band 0).2 with hband | hband
  · rcases Nat.lt_or_ge usizeMax (traceSize tr.toTrellis) with hsize | hsize
    · obtain ⟨e, hpath⟩ := bestPath_of_unfit (by decide) (by decide) hsize hband
      exact .unfit hsize e hpath
    · rcases bestPath_of_trace hlawful padded_toTrellis (by decide) (by decide) hband hsize with
        ⟨htop, hpath⟩ | ⟨moves, hchosen, hmoves, hsum, hpath⟩
      · refine .none (fun moves hmoves => ?_) hpath
        have hle := htop.ge.trans (value_le_pathCost hmoves)
        rw [top_le_iff] at hle
        exact pathCost_ne_top hmoves hle
      · have hleast : ∀ moves', Complete tr moves' →
            pathCost tr.toTrellis moves ≤ pathCost tr.toTrellis moves' := by
          intro moves' hmoves'
          rw [hsum]
          exact value_le_pathCost hmoves'
        refine .some moves ⟨hmoves, hleast⟩ hsize (fun moves' hcheapest => ?_) hpath
        have hne := pathCost_ne_top hmoves
        rw [hsum] at hne
        apply hchosen.first hne hcheapest.1
        rw [← hsum]
        exact le_antisymm (hcheapest.2 moves hmoves) (hleast moves' hcheapest.1)
  · obtain ⟨r, hpath, hnone, -⟩ := solvesExactly_of_band hlawful (by decide) (by decide) hband
    have hno : ∀ moves, ¬ Complete tr moves := fun moves => Trellis.not_pathTo_of_band hlawful hband
    obtain rfl := hnone.mpr fun hall => hno _ hall.choose_spec
    exact .none hno hpath

/- The alignment of a path that is found. -/
theorem align_of_path {chain : AlignChain C} {dense : DenseFst L C}
    (hagainst : chain.against dense = .ok tr) {moves : List (Fin 4 × ℕ)} {cost : C}
    (hpath : tr.toTrellis.bestPath = some (.ok (some ⟨moves.map fun move => (move.1 : ℕ),
      moves.map fun move => move.2 % 2 ^ 32, cost⟩))) :
    align chain dense = some (.ok (some ⟨moves.map writtenSound, chain.phones.length, cost⟩)) := by
  unfold align
  rw [hagainst]
  dsimp only
  rw [hpath, Option.map_some, alignmentOf, fromPath_written]
  rfl

theorem not_preferred_of_preferred {moves moves' : List (Fin 4 × ℕ)}
    (h : Preferred moves moves') : ¬ Preferred moves' moves := lt_asymm h

end Answers

variable [Nontrivial C]

section Tie

/- A phone worth as much as it costs to give up, which starts in the second frame. -/
def optional : AlignChain (WithTop ℕ) where
  phones := [1]
  skips := [(2 : ℕ)]
  blank := 0
  length_phones_le := by decide
  length_skips := rfl
  skips_nonneg := by decide

def lateFrames : DenseFst ℤ (WithTop ℕ) where
  scores := [0, (5 : ℕ), 0, (2 : ℕ)]
  numFrames := 2
  numSymbols := 2
  labelOffset := 1
  properties := DenseFst.computeProperties [(0 : WithTop ℕ), (5 : ℕ), 0, (2 : ℕ)] 2 2 1
  size_lt := by decide
  length_scores := rfl
  numSymbols_pos := by decide
  labelOffset_nonneg := Int.one_nonneg
  last_label := fun _ => rfl

def lateTrellis : ChainTrellis ℤ (WithTop ℕ) := ⟨optional, lateFrames, by decide⟩

end Tie

end Sicada.AlignTies
