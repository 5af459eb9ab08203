import Sicada.Decode.Viterbi

namespace Sicada

/- One transition: how far it moves, and what it costs. -/
structure Trellis.Step (C : Type) where
  advance : ℕ
  cost : C
deriving DecidableEq

/- Every cell has `degree` transitions into it, those that do not exist at an infinite cost. What a
frame's transitions are read from is left to `stepsInto`. -/
structure Trellis (C : Type) (degree : ℕ) where
  reach : ℕ
  numFrames : ℕ
  numPositions : ℕ
  stepsInto : ℕ → ℕ → Fin degree → Trellis.Step C
  numFrames_le : numFrames ≤ usizeMax
  numPositions_le : numPositions ≤ usizeMax

theorem one_le_usizeMax : 1 ≤ usizeMax := by decide

theorem two_le_usizeMax : 2 ≤ usizeMax := by decide

theorem three_le_usizeMax : 3 ≤ usizeMax := by decide

def saturatingMul (a b : ℕ) : ℕ := min usizeMax (a * b)

/- The cells a complete path can stand in after `frame` frames, the first and the one past the
last. -/
def band (frame numFrames numPositions reach : ℕ) : ℕ × ℕ :=
  let left := numFrames - min frame numFrames
  let lo := numPositions - saturatingMul reach left
  let hi := min (saturatingMul reach frame) numPositions
  (lo, hi + 1)

def checkDegree (degree : ℕ) : Except String Unit :=
  if degree = 0 ∨ 256 < degree then
    .error s!"trellis: a degree of {degree} cannot be named by a code"
  else .ok ()

theorem checkDegree_eq {degree : ℕ} (hdegree : 0 < degree) (hfits : degree ≤ 256) :
    checkDegree degree = .ok () := by
  unfold checkDegree
  rw [if_neg (by omega)]

namespace Trellis

variable {C : Type} {degree : ℕ}

/- The reach the solvers work with. -/
def width (tr : Trellis C degree) : ℕ := max tr.reach 1

def band (tr : Trellis C degree) (t : ℕ) : ℕ × ℕ :=
  Sicada.band t tr.numFrames tr.numPositions tr.width

def cells (tr : Trellis C degree) (t : ℕ) : List ℕ :=
  List.range' (tr.band t).1 ((tr.band t).2 - (tr.band t).1)

theorem mem_cells {tr : Trellis C degree} {t i : ℕ} (ht : t ≤ tr.numFrames) :
    i ∈ tr.cells t ↔
      tr.numPositions ≤ i + tr.width * (tr.numFrames - t) ∧ i ≤ tr.width * t ∧
        i ≤ tr.numPositions := by
  have hle := tr.numPositions_le
  unfold cells
  rw [List.mem_range'_1]
  unfold band Sicada.band saturatingMul
  dsimp only
  rw [Nat.min_eq_left ht]
  generalize tr.width * (tr.numFrames - t) = left
  generalize tr.width * t = done
  omega

section Paths

variable (tr : Trellis C degree) (Present : C → Prop)

/- The transitions taken from position 0 in the first frames, each with the position it lands in,
every one of them there. -/
inductive PathTo : ℕ → ℕ → List (Fin degree × ℕ) → Prop
  | start : PathTo 0 0 []
  | step {t j i : ℕ} {moves : List (Fin degree × ℕ)} (k : Fin degree) (h : PathTo t j moves)
      (hpresent : Present (tr.stepsInto t i k).cost)
      (hlands : j + (tr.stepsInto t i k).advance = i) : PathTo (t + 1) i (moves ++ [(k, i)])

def stepCosts (moves : List (Fin degree × ℕ)) : List C :=
  moves.zipIdx.map fun entry => (tr.stepsInto entry.2 entry.1.2 entry.1.1).cost

/- What the solvers rely on of the transitions that are there. -/
structure Lawful : Prop where
  reach_honest : ∀ t < tr.numFrames, ∀ i ≤ tr.numPositions, ∀ k,
    Present (tr.stepsInto t i k).cost → (tr.stepsInto t i k).advance ≤ tr.reach
  from_start : ∀ t < tr.numFrames, ∀ i ≤ tr.numPositions, ∀ k,
    Present (tr.stepsInto t i k).cost → (tr.stepsInto t i k).advance ≤ i

/- No transition into a cell, there or not, is read from before the padding in front of the row. -/
def Padded : Prop :=
  ∀ t < tr.numFrames, ∀ i ≤ tr.numPositions, ∀ k, (tr.stepsInto t i k).advance ≤ tr.width + i

end Paths

variable {tr : Trellis C degree} {Present : C → Prop}

variable {moves : List (Fin degree × ℕ)}

theorem PathTo.length {t i : ℕ} (h : tr.PathTo Present t i moves) :
    moves.length = t := by
  induction h with
  | start => rfl
  | step k h hpresent hlands ih => rw [List.length_append, ih, List.length_singleton]

theorem stepCosts_append (moves : List (Fin degree × ℕ)) (move : Fin degree × ℕ) :
    tr.stepCosts (moves ++ [move]) =
      tr.stepCosts moves ++ [(tr.stepsInto moves.length move.2 move.1).cost] := by
  unfold stepCosts
  rw [List.zipIdx_append, List.map_append]
  simp

/- The last transition of a path. -/
theorem pathTo_succ {t i : ℕ} :
    tr.PathTo Present (t + 1) i moves ↔
      ∃ j k before, moves = before ++ [(k, i)] ∧ tr.PathTo Present t j before ∧
        Present (tr.stepsInto t i k).cost ∧ j + (tr.stepsInto t i k).advance = i := by
  constructor
  · rintro (_ | ⟨k, h, hpresent, hlands⟩)
    exact ⟨_, k, _, rfl, h, hpresent, hlands⟩
  · rintro ⟨j, k, before, rfl, h, hpresent, hlands⟩
    exact .step k h hpresent hlands

theorem PathTo.le_width (hlawful : tr.Lawful Present) {t i : ℕ} (h : tr.PathTo Present t i moves)
    (ht : t ≤ tr.numFrames) (hi : i ≤ tr.numPositions) :
    i ≤ tr.width * t := by
  induction h with
  | start => omega
  | step k h hpresent hlands ih =>
    rename_i t j i moves
    have hadvance := hlawful.reach_honest t (by omega) i hi k hpresent
    have hwidth : tr.reach ≤ tr.width := Nat.le_max_left _ _
    have hbefore := ih (by omega) (by omega)
    rw [Nat.mul_add, Nat.mul_one]
    omega

theorem not_pathTo_of_band (hlawful : tr.Lawful Present) (hband : (tr.band 0).2 ≤ (tr.band 0).1) :
    ¬ tr.PathTo Present tr.numFrames tr.numPositions moves := by
  intro h
  have hle := h.le_width hlawful le_rfl le_rfl
  have hmax := tr.numPositions_le
  unfold Trellis.band Sicada.band saturatingMul at hband
  dsimp only at hband
  rw [Nat.zero_min, Nat.sub_zero, Nat.mul_zero] at hband
  omega

end Trellis

end Sicada

namespace Sicada

variable {degree : ℕ} {K : Type} [Semifield K] [LinearOrder K]

/- A transition as it is visited: the frame it consumed, the position it landed in, its code. -/
structure Trellis.Transition where
  frame : ℕ
  position : ℕ
  code : ℕ
deriving DecidableEq

/- Costs are negative logarithms, and each is read as the weight it stands for: an infinite cost
is the weight 0, a sum of costs a product of weights, and a smaller cost a larger weight. -/
structure Folded (K : Type) (degree : ℕ) where
  sum : K
  pivot : K
  shares : Fin degree → K

def pivotOf (terms : Fin degree → K) : K :=
  (List.finRange degree).foldl (fun pivot k => if pivot < terms k then terms k else pivot) 0

/- Only one term at the pivot is taken for the one that the logarithm sets apart; no term is too
small to be counted. -/
def restOf (terms : Fin degree → K) (pivot : K) : K × Bool :=
  (List.finRange degree).foldl (fun rest k =>
    if terms k / pivot = 1 ∧ ¬ rest.2 then (rest.1, true) else (rest.1 + terms k / pivot, rest.2))
    (0, false)

def logSum (terms : Fin degree → K) : Folded K degree :=
  let pivot := pivotOf terms
  if pivot = 0 then ⟨0, 0, fun _ => 0⟩
  else ⟨pivot * (1 + (restOf terms pivot).1), pivot, fun k => terms k / pivot⟩

namespace Trellis

variable (tr : Trellis K degree)

/- The transitions out of a cell, read off those into the cells that they could reach. -/
def deriveStepsOutOf (t position : ℕ) : Fin degree → Step K :=
  (List.range (tr.reach + 1)).foldl (fun out advance =>
    if tr.numPositions < position + advance then out
    else fun code =>
      let step := tr.stepsInto t (position + advance) code
      if step.advance = advance ∧ step.cost ≠ 0 then step else out code) fun _ => ⟨0, 0⟩

/- The terms of a cell; `none` is an index before the row. -/
def termsInto (t : ℕ) (prev : ℕ → K) (i : ℕ) : Option (Fin degree → K) :=
  if ∀ k, (tr.stepsInto t i k).advance ≤ tr.width + i then
    some fun k => prev (tr.width + i - (tr.stepsInto t i k).advance) * (tr.stepsInto t i k).cost
  else none

def forwardCell (t : ℕ) (prev row : ℕ → K) (i : ℕ) : Option (ℕ → K) :=
  (tr.termsInto t prev i).map fun terms => Function.update row (tr.width + i) (logSum terms).sum

/- One row of the plane from the one before it. -/
def forwardFrame (alpha : ℕ → ℕ → K) (t : ℕ) : Option (ℕ → ℕ → K) :=
  ((tr.cells (t + 1)).foldlM (tr.forwardCell t (alpha t)) (alpha (t + 1))).map fun row =>
    Function.update alpha (t + 1) row

/- The two rows of the backward pass, which are swapped and not cleared, and what was visited. -/
structure BackwardRows (K : Type) where
  betaNext : ℕ → K
  betaCur : ℕ → K
  visits : List (Transition × K)

section Reversed

/- How the transitions out of a cell are found. -/
variable (stepsOutOf : ℕ → ℕ → Fin degree → Step K)

def termsOutOf (t : ℕ) (betaNext : ℕ → K) (i : ℕ) (k : Fin degree) : K :=
  let step := stepsOutOf t i k
  let target := i + step.advance
  if (tr.band (t + 1)).1 ≤ target ∧ target < (tr.band (t + 1)).2 then step.cost * betaNext target
  else 0

def visitCell (t : ℕ) (alphaRow : ℕ → K) (total : K) (i : ℕ) (folded : Folded K degree) :
    List (Transition × K) :=
  let scale := alphaRow (tr.width + i) * folded.pivot / total
  if scale = 0 then []
  else (List.finRange degree).filterMap fun code =>
    if folded.shares code = 0 then none
    else some (⟨t, i + (stepsOutOf t i code).advance, code⟩, scale * folded.shares code)

def backwardCell (t : ℕ) (alphaRow : ℕ → K) (total : K) (rows : BackwardRows K) (i : ℕ) :
    BackwardRows K :=
  let folded := logSum (tr.termsOutOf stepsOutOf t rows.betaNext i)
  { rows with
    betaCur := Function.update rows.betaCur i folded.sum
    visits := rows.visits ++ tr.visitCell stepsOutOf t alphaRow total i folded }

def backwardFrame (alpha : ℕ → ℕ → K) (total : K) (rows : BackwardRows K) (t : ℕ) :
    BackwardRows K :=
  let rows := (tr.cells t).foldl (tr.backwardCell stepsOutOf t (alpha t) total) rows
  { rows with betaNext := rows.betaCur, betaCur := rows.betaNext }

def startPlane : ℕ → ℕ → K :=
  Function.update (fun _ _ => 0) 0 (Function.update (fun _ => 0) tr.width 1)

/- The total and the transitions visited; the outer `none` is a panic. -/
def posteriorsBy : Option (Except String (Option (K × List (Transition × K)))) :=
  match checkDegree degree with
  | .error e => some (.error e)
  | .ok () =>
    if (tr.band 0).2 ≤ (tr.band 0).1 then some (.ok none)
    else if usizeMax < (tr.numFrames + 1) * (tr.numPositions + 1 + tr.width) then
      some (.error (s!"posteriors: a forward plane for {tr.numFrames} frames of " ++
        s!"{tr.numPositions} positions does not fit"))
    else
      ((List.range tr.numFrames).foldlM tr.forwardFrame tr.startPlane).map fun alpha =>
        let total := alpha tr.numFrames (tr.width + tr.numPositions)
        if total = 0 then .ok none
        else
          let rows := (List.range tr.numFrames).reverse.foldl (tr.backwardFrame stepsOutOf alpha total)
            ⟨Function.update (fun _ => 0) tr.numPositions 1, fun _ => 0, []⟩
          .ok (some (total, rows.visits))

end Reversed

/- The posteriors of a trellis whose own description says all there is of the way back. -/
def posteriors : Option (Except String (Option (K × List (Transition × K)))) :=
  tr.posteriorsBy tr.deriveStepsOutOf

end Trellis

end Sicada
