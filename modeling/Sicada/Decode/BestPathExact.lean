import Sicada.Decode.Traceback
import Sicada.Library.PathSemiring

namespace Sicada.BestPathExact

open Trellis ListLemmas Costs

variable {C : Type} {degree : ℕ} [LinearOrderedAddCommMonoidWithTop C]

/- What a transition into a cell makes of the row before it. -/
def total (before : ℕ → C) (steps : Fin degree → Step C) (i : ℕ) (k : Fin degree) : C :=
  if (steps k).advance ≤ i then before (i - (steps k).advance) + (steps k).cost else ⊤

def better (before : ℕ → C) (steps : Fin degree → Step C) (i : ℕ) (best : C × ℕ) (k : Fin degree) :
    C × ℕ :=
  if total before steps i k < best.1 then (total before steps i k, (k : ℕ)) else best

def bestOf (before : ℕ → C) (steps : Fin degree → Step C) (i : ℕ) : C × ℕ :=
  (List.finRange degree).foldl (better before steps i) (⊤, 0)

/- The recursion the solver is built on, over every cell and without a band. -/
def value (tr : Trellis C degree) : ℕ → ℕ → C
  | 0, i => if i = 0 then 0 else ⊤
  | t + 1, i => (bestOf (value tr t) (tr.stepsInto t i) i).1

section Recursion

variable {before : ℕ → C} {steps : Fin degree → Step C} {i : ℕ}

variable (before steps i) in
theorem foldl_better_le (l : List (Fin degree)) (best : C × ℕ) :
    (l.foldl (better before steps i) best).1 ≤ best.1 ∧
      ∀ k ∈ l, (l.foldl (better before steps i) best).1 ≤ total before steps i k := by
  induction l generalizing best with
  | nil => exact ⟨le_rfl, fun k hk => by cases hk⟩
  | cons a l ih =>
    obtain ⟨hbest, hall⟩ := ih (better before steps i best a)
    have hstep : (better before steps i best a).1 ≤ best.1 ∧
        (better before steps i best a).1 ≤ total before steps i a := by
      unfold better
      split
      · next hlt => exact ⟨hlt.le, le_rfl⟩
      · next hge => exact ⟨le_rfl, le_of_not_gt hge⟩
    refine ⟨hbest.trans hstep.1, ?_⟩
    intro k hk
    rcases List.mem_cons.mp hk with rfl | hk
    · exact hbest.trans hstep.2
    · exact hall k hk

theorem foldl_better_eq (l : List (Fin degree)) {best : C × ℕ}
    (h : (l.foldl (better before steps i) best).1 = best.1) :
    l.foldl (better before steps i) best = best := by
  induction l generalizing best with
  | nil => rfl
  | cons a l ih =>
    rw [List.foldl_cons] at h ⊢
    have hle := (foldl_better_le before steps i l (better before steps i best a)).1
    rw [h] at hle
    have hstays : better before steps i best a = best := by
      unfold better at hle ⊢
      split at hle
      · next hlt => exact absurd hle (not_le.mpr hlt)
      · next hge => rw [if_neg hge]
    rw [hstays] at h ⊢
    exact ih h

variable (before steps i) in
theorem foldl_better_mem (l : List (Fin degree)) (best : C × ℕ) :
    l.foldl (better before steps i) best = best ∨
      ∃ k : Fin degree, l.foldl (better before steps i) best = (total before steps i k, (k : ℕ)) := by
  induction l generalizing best with
  | nil => exact Or.inl rfl
  | cons a l ih =>
    rcases ih (better before steps i best a) with heq | hk
    · rw [List.foldl_cons, heq]
      unfold better
      split
      · exact Or.inr ⟨a, rfl⟩
      · exact Or.inl rfl
    · exact Or.inr hk

theorem bestOf_le (k : Fin degree) : (bestOf before steps i).1 ≤ total before steps i k :=
  (foldl_better_le before steps i _ _).2 k (List.mem_finRange k)

theorem bestOf_attained (h : (bestOf before steps i).1 ≠ ⊤) :
    ∃ k : Fin degree, bestOf before steps i = (total before steps i k, (k : ℕ)) := by
  rcases foldl_better_mem before steps i (List.finRange degree) (⊤, 0) with heq | hk
  · exact absurd (congrArg Prod.fst heq) h
  · exact hk

theorem bestOf_code_lt (hdegree : 0 < degree) : (bestOf before steps i).2 < degree := by
  rcases foldl_better_mem before steps i (List.finRange degree) (⊤, 0) with heq | ⟨k, hk⟩
  · rw [bestOf, heq]
    exact hdegree
  · rw [bestOf, hk]
    exact k.isLt

end Recursion

variable {i : ℕ} {moves : List (Fin degree × ℕ)}

variable {t : ℕ}

section Values

variable {tr : Trellis C degree}

/- The cost of the transitions of a path. -/
def pathCost (tr : Trellis C degree) (moves : List (Fin degree × ℕ)) : C := (tr.stepCosts moves).sum

theorem pathCost_append (h : tr.PathTo (· ≠ ⊤) t i moves) (move : Fin degree × ℕ) :
    pathCost tr (moves ++ [move]) = pathCost tr moves + (tr.stepsInto t move.2 move.1).cost := by
  unfold pathCost
  rw [stepCosts_append, h.length, List.sum_append, List.sum_singleton]

theorem value_le_pathCost (h : tr.PathTo (· ≠ ⊤) t i moves) :
    value tr t i ≤ pathCost tr moves := by
  induction h with
  | start => simp [value, pathCost, stepCosts]
  | step k h hpresent hlands ih =>
    rename_i t j i moves
    rw [pathCost_append h, value]
    refine (bestOf_le k).trans ?_
    unfold total
    rw [if_pos (by omega), show i - (tr.stepsInto t i k).advance = j by omega]
    exact add_le_add_left ih _

/- A finite value is that of a path, whose last transition is the one the code names. -/
theorem value_step (h : value tr (t + 1) i ≠ ⊤) :
    ∃ k : Fin degree, (bestOf (value tr t) (tr.stepsInto t i) i).2 = k ∧
      (tr.stepsInto t i k).advance ≤ i ∧ (tr.stepsInto t i k).cost ≠ ⊤ ∧
      value tr t (i - (tr.stepsInto t i k).advance) ≠ ⊤ ∧
      value tr (t + 1) i =
        value tr t (i - (tr.stepsInto t i k).advance) + (tr.stepsInto t i k).cost := by
  rw [value] at h
  obtain ⟨k, hk⟩ := bestOf_attained h
  rw [hk] at h
  have htotal : total (value tr t) (tr.stepsInto t i) i k ≠ ⊤ := h
  unfold total at htotal
  split at htotal
  · next hle =>
    refine ⟨k, congrArg Prod.snd hk, hle, ?_, ?_, ?_⟩
    · intro htop
      rw [htop, add_top] at htotal
      exact htotal rfl
    · intro htop
      rw [htop, top_add] at htotal
      exact htotal rfl
    · rw [value, hk]
      dsimp only
      unfold total
      rw [if_pos hle]
  · exact absurd rfl htotal

theorem exists_path (h : value tr t i ≠ ⊤) :
    ∃ moves, tr.PathTo (· ≠ ⊤) t i moves ∧ pathCost tr moves = value tr t i := by
  induction t generalizing i with
  | zero =>
    by_cases hi : i = 0
    · subst hi
      exact ⟨[], .start, by simp [value, pathCost, stepCosts]⟩
    · rw [value, if_neg hi] at h
      exact absurd rfl h
  | succ t ih =>
    obtain ⟨k, -, hle, hcost, hbefore, hvalue⟩ := value_step h
    obtain ⟨moves, hmoves, hsum⟩ := ih hbefore
    refine ⟨_, .step k hmoves hcost (Nat.sub_add_cancel hle), ?_⟩
    rw [pathCost_append hmoves, hsum, hvalue]

/- The path whose transitions are those that the codes of its cells name. -/
inductive Chosen (tr : Trellis C degree) : ℕ → ℕ → List (Fin degree × ℕ) → Prop
  | start : Chosen tr 0 0 []
  | step {t j i : ℕ} {moves : List (Fin degree × ℕ)} (k : Fin degree) (h : Chosen tr t j moves)
      (hcode : (bestOf (value tr t) (tr.stepsInto t i) i).2 = k)
      (hlands : j + (tr.stepsInto t i k).advance = i) : Chosen tr (t + 1) i (moves ++ [(k, i)])

theorem pathCost_ne_top [Nontrivial C] (h : tr.PathTo (· ≠ ⊤) t i moves) :
    pathCost tr moves ≠ ⊤ := by
  induction h with
  | start => exact zero_ne_top
  | step k h hpresent hlands ih =>
    rw [pathCost_append h]
    exact add_ne_top ih hpresent

theorem le_of_value_ne_top (hlawful : tr.Lawful (· ≠ ⊤)) (ht : t ≤ tr.numFrames)
    (hi : i ≤ tr.numPositions) (h : value tr t i ≠ ⊤) : i ≤ tr.width * t := by
  obtain ⟨moves, hmoves, -⟩ := exists_path h
  exact hmoves.le_width hlawful ht hi

end Values

section Rows

variable {tr : Trellis C degree} {t : ℕ}

/- The rows after `t` frames: exact in the band, untouched above it, and the codes of each frame
where its band was. -/
structure Filled (tr : Trellis C degree) (trace : Traceback) (t : ℕ) (rows : BestRows C) : Prop where
  exact : ∀ i, i ∈ tr.cells t → rows.cur (tr.width + i) = value tr t i
  above : ∀ i, tr.width * t < i → rows.cur (tr.width + i) = ⊤ ∧ rows.next (tr.width + i) = ⊤
  stride : rows.trace.stride = trace.stride
  bits : rows.trace.bits = trace.bits
  perByte : rows.trace.perByte = trace.perByte
  codes : ∀ s < t, ∀ i ∈ tr.cells (s + 1),
    rows.trace.get s i = BitVec.ofNat 8 (bestOf (value tr s) (tr.stepsInto s i) i).2

variable {trace : Traceback}

variable {rows : BestRows C}

theorem bestInto_eq (hlawful : tr.Lawful (· ≠ ⊤)) (hpadded : tr.Padded) (h : Filled tr trace t rows)
    (ht : t < tr.numFrames) (hi : i ∈ tr.cells (t + 1)) :
    bestInto tr.width rows.cur (tr.stepsInto t i) i =
      some (bestOf (value tr t) (tr.stepsInto t i) i) := by
  obtain ⟨hlo, hhi, hlast⟩ := (mem_cells (show t + 1 ≤ tr.numFrames from ht)).mp hi
  refine foldlM_eq_pure (fun k _ best => ?_) (⊤, 0)
  dsimp only
  rw [if_neg (Nat.not_lt.mpr (hpadded t ht i hlast k))]
  have htotal : rows.cur (tr.width + i - (tr.stepsInto t i k).advance) + (tr.stepsInto t i k).cost =
      total (value tr t) (tr.stepsInto t i) i k := by
    unfold total
    by_cases hcost : (tr.stepsInto t i k).cost = ⊤
    · rw [hcost, add_top, add_top, ite_self]
    · have hreach := hlawful.reach_honest t ht i hlast k hcost
      have hstart := hlawful.from_start t ht i hlast k hcost
      have hwidth : tr.reach ≤ tr.width := Nat.le_max_left _ _
      rw [if_pos hstart, Nat.add_sub_assoc hstart]
      congr 1
      by_cases hband : i - (tr.stepsInto t i k).advance ≤ tr.width * t
      · refine h.exact _ ((mem_cells ht.le).mpr ⟨?_, hband, by omega⟩)
        have hsplit : tr.width * (tr.numFrames - t) =
            tr.width * (tr.numFrames - (t + 1)) + tr.width := by
          rw [← Nat.mul_succ]
          congr 1
          omega
        omega
      · rw [(h.above _ (by omega)).1]
        by_contra hne
        exact hband (le_of_value_ne_top hlawful ht.le (by omega) (Ne.symm hne))
  rw [htotal]
  rfl

theorem bestOf_toNat (hdegree : 0 < degree) (hfits : degree ≤ 256) (t i : ℕ) :
    (BitVec.ofNat 8 (bestOf (value tr t) (tr.stepsInto t i) i).2).toNat =
      (bestOf (value tr t) (tr.stepsInto t i) i).2 := by
  have hlt : (bestOf (value tr t) (tr.stepsInto t i) i).2 < degree := bestOf_code_lt hdegree
  rw [BitVec.toNat_ofNat, Nat.mod_eq_of_lt (by omega)]

/- The cells of a frame, filled one after the other. -/
def filledCell (tr : Trellis C degree) (t : ℕ) (l : (ℕ → C) × RowWriter) (i : ℕ) :
    (ℕ → C) × RowWriter :=
  let best := bestOf (value tr t) (tr.stepsInto t i) i
  (Function.update l.1 (tr.width + i) best.1, l.2.put i (BitVec.ofNat 8 best.2))

variable (tr t) in
theorem filledCells_spec {tb : Traceback} (hpacks : Traceback.Packs tb.bits tb.perByte)
    (hcode : ∀ i, (BitVec.ofNat 8 (bestOf (value tr t) (tr.stepsInto t i) i).2).toNat < 2 ^ tb.bits)
    (next : ℕ → C) (lo n : ℕ) :
    (∀ x, ((List.range' lo n).foldl (filledCell tr t) (next, tb.row t)).1 x =
      if tr.width + lo ≤ x ∧ x < tr.width + lo + n then value tr (t + 1) (x - tr.width)
      else next x) ∧
    Traceback.Written tb.plane (t * tb.stride) tb.bits tb.perByte lo
      (fun i => BitVec.ofNat 8 (bestOf (value tr t) (tr.stepsInto t i) i).2) (lo + n)
      ((List.range' lo n).foldl (filledCell tr t) (next, tb.row t)).2 := by
  induction n with
  | zero =>
    refine ⟨fun x => ?_, Traceback.written_row t lo _⟩
    rw [if_neg (by omega)]
    rfl
  | succ n ih =>
    obtain ⟨hrow, hwritten⟩ := ih
    rw [List.range'_1_concat, List.foldl_append]
    refine ⟨fun x => ?_, Traceback.written_put hpacks hcode (Nat.le_add_right lo n) hwritten⟩
    simp only [List.foldl_cons, List.foldl_nil, filledCell]
    by_cases hx : x = tr.width + (lo + n)
    · subst hx
      rw [Function.update_self, if_pos (by omega), Nat.add_sub_cancel_left, value]
    · rw [Function.update_of_ne hx, hrow]
      by_cases hin : tr.width + lo ≤ x ∧ x < tr.width + lo + n
      · rw [if_pos hin, if_pos (by omega)]
      · rw [if_neg hin, if_neg (by omega)]

/- One frame. -/
theorem fillFrame_spec (hlawful : tr.Lawful (· ≠ ⊤)) (hpadded : tr.Padded) (hdegree : 0 < degree)
    (hfits : degree ≤ 256) (hbits : trace.bits = codeBits degree)
    (hper : trace.perByte = 8 / codeBits degree)
    (hstride : trace.stride = tr.numPositions / trace.perByte + 1) (h : Filled tr trace t rows)
    (ht : t < tr.numFrames) :
    ∃ rows', tr.fillFrame rows t = some rows' ∧ Filled tr trace (t + 1) rows' := by
  have hpacks : Traceback.Packs rows.trace.bits rows.trace.perByte := by
    rw [h.bits, h.perByte, hbits, hper]
    exact Traceback.packs_codeBits degree
  have hcode : ∀ i, (BitVec.ofNat 8 (bestOf (value tr t) (tr.stepsInto t i) i).2).toNat <
      2 ^ rows.trace.bits := by
    intro i
    rw [bestOf_toNat hdegree hfits, h.bits, hbits]
    exact (bestOf_code_lt hdegree).trans_le (Traceback.degree_le_of_codeBits hfits)
  have hrun : (tr.cells (t + 1)).foldlM (tr.fillCell t rows.cur) (rows.next, rows.trace.row t) =
      some ((tr.cells (t + 1)).foldl (filledCell tr t) (rows.next, rows.trace.row t)) := by
    refine foldlM_eq_pure (fun i hi l => ?_) _
    unfold fillCell
    rw [bestInto_eq hlawful hpadded h ht hi]
    rfl
  obtain ⟨hrow, hwritten⟩ := filledCells_spec tr t hpacks hcode rows.next
    (tr.band (t + 1)).1 ((tr.band (t + 1)).2 - (tr.band (t + 1)).1)
  have hmem : ∀ i, i ∈ tr.cells (t + 1) ↔ _ := fun i =>
    mem_cells (show t + 1 ≤ tr.numFrames from ht)
  have hrange : ∀ i, i ∈ tr.cells (t + 1) ↔ (tr.band (t + 1)).1 ≤ i ∧
      i < (tr.band (t + 1)).1 + ((tr.band (t + 1)).2 - (tr.band (t + 1)).1) :=
    fun i => List.mem_range'_1
  have hmono : tr.width * t ≤ tr.width * (t + 1) := Nat.mul_le_mul_left _ (Nat.le_succ t)
  have hquot : ∀ i, i ≤ tr.numPositions → i / rows.trace.perByte < rows.trace.stride := by
    intro i hi
    rw [h.stride, hstride, h.perByte]
    exact Nat.lt_succ_of_le (Nat.div_le_div_right hi)
  have hlast : ∀ i, i < (tr.band (t + 1)).1 + ((tr.band (t + 1)).2 - (tr.band (t + 1)).1) →
      i ≤ tr.numPositions := by
    intro i hi
    unfold Trellis.band Sicada.band at hi
    dsimp only at hi
    omega
  change ∀ x, ((tr.cells (t + 1)).foldl (filledCell tr t) (rows.next, rows.trace.row t)).1 x = _
    at hrow
  change Traceback.Written _ _ _ _ _ _ _
    ((tr.cells (t + 1)).foldl (filledCell tr t) (rows.next, rows.trace.row t)).2 at hwritten
  generalize (tr.cells (t + 1)).foldl (filledCell tr t) (rows.next, rows.trace.row t) = l
    at hrun hrow hwritten
  refine ⟨⟨l.1, rows.cur, { rows.trace with plane := l.2.finish }⟩, by rw [fillFrame, hrun]; rfl,
    ?_, ?_, h.stride, h.bits, h.perByte, ?_⟩
  · intro i hi
    have hi' := (hrange i).mp hi
    change l.1 (tr.width + i) = _
    rw [hrow, if_pos (by omega), Nat.add_sub_cancel_left]
  · intro i hi
    have hnot : ¬ i ∈ tr.cells (t + 1) := fun hmem' => by
      have hle := ((hmem i).mp hmem').2.1
      omega
    rw [hrange] at hnot
    refine ⟨?_, (h.above i (by omega)).1⟩
    change l.1 (tr.width + i) = _
    rw [hrow, if_neg (by omega)]
    exact (h.above i (by omega)).2
  · intro s hs i hi
    rcases Nat.lt_or_eq_of_le (Nat.le_of_lt_succ hs) with hlt | rfl
    · have hi' := (mem_cells (show s + 1 ≤ tr.numFrames by omega)).mp hi
      rw [← h.codes s hlt i hi]
      exact Traceback.get_finish_of_ne hwritten (fun j hj => hquot j (hlast j hj))
        (Nat.ne_of_lt hlt) (hquot i hi'.2.2)
    · have hi' := (hrange i).mp hi
      exact Traceback.get_finish hwritten hi'.1 hi'.2

theorem fillFrames_spec (hlawful : tr.Lawful (· ≠ ⊤)) (hpadded : tr.Padded) (hdegree : 0 < degree)
    (hfits : degree ≤ 256) (hbits : trace.bits = codeBits degree)
    (hper : trace.perByte = 8 / codeBits degree)
    (hstride : trace.stride = tr.numPositions / trace.perByte + 1) (ht : t ≤ tr.numFrames) :
    ∃ rows, (List.range t).foldlM tr.fillFrame ⟨tr.startRow, fun _ => ⊤, trace⟩ = some rows ∧
      Filled tr trace t rows := by
  induction t with
  | zero =>
    refine ⟨⟨tr.startRow, fun _ => ⊤, trace⟩, rfl, ?_, ?_, rfl, rfl, rfl, ?_⟩
    · intro i hi
      change tr.startRow (tr.width + i) = _
      unfold startRow
      rw [value]
      by_cases hi0 : i = 0
      · subst hi0
        rw [Nat.add_zero, Function.update_self, if_pos rfl]
      · rw [Function.update_of_ne (by omega), if_neg hi0]
    · intro i hi
      refine ⟨?_, rfl⟩
      change tr.startRow (tr.width + i) = _
      unfold startRow
      exact Function.update_of_ne (by omega) _ _
    · intro s hs
      omega
  | succ t ih =>
    obtain ⟨rows, hrun, hfilled⟩ := ih (by omega)
    obtain ⟨rows', hrun', hfilled'⟩ :=
      fillFrame_spec hlawful hpadded hdegree hfits hbits hper hstride hfilled ht
    refine ⟨rows', ?_, hfilled'⟩
    rw [List.range_succ, List.foldlM_append, hrun]
    simpa using hrun'

/- On the way back from a cell of finite value lies a path of that value, the one chosen. -/
theorem readBack_spec (hlawful : tr.Lawful (· ≠ ⊤)) (hdegree : 0 < degree) (hfits : degree ≤ 256)
    (h : Filled tr trace tr.numFrames rows) (ht : t ≤ tr.numFrames)
    (hlo : tr.numPositions ≤ i + tr.width * (tr.numFrames - t)) (hlast : i ≤ tr.numPositions)
    (hvalue : value tr t i ≠ ⊤) :
    ∃ moves, Chosen tr t i moves ∧ tr.PathTo (· ≠ ⊤) t i moves ∧
      pathCost tr moves = value tr t i ∧
      tr.readBack rows.trace t i = some (moves.map fun move => ((move.1 : ℕ), move.2)) := by
  induction t generalizing i with
  | zero =>
    obtain ⟨moves, hmoves, hcost⟩ := exists_path hvalue
    obtain rfl := List.length_eq_zero_iff.mp hmoves.length
    cases hmoves
    exact ⟨[], .start, .start, hcost, rfl⟩
  | succ t ih =>
    obtain ⟨k, hcode, hle, hcost, hbefore, hsum⟩ := value_step hvalue
    have hreach := hlawful.reach_honest t ht i hlast k hcost
    have hwidth : tr.reach ≤ tr.width := Nat.le_max_left _ _
    have hsplit : tr.width * (tr.numFrames - t) =
        tr.width * (tr.numFrames - (t + 1)) + tr.width := by
      rw [← Nat.mul_succ]
      congr 1
      omega
    obtain ⟨moves, hchosen, hmoves, hcost', hback⟩ :=
      ih (by omega) (by omega) (by omega) hbefore
    refine ⟨_, .step k hchosen hcode (Nat.sub_add_cancel hle),
      .step k hmoves hcost (Nat.sub_add_cancel hle), ?_, ?_⟩
    · rw [pathCost_append hmoves, hcost', hsum]
    · have hcell : i ∈ tr.cells (t + 1) :=
        (mem_cells ht).mpr ⟨hlo, le_of_value_ne_top hlawful ht hlast hvalue, hlast⟩
      have hget : (rows.trace.get t i).toNat = k := by
        rw [h.codes t ht i hcell, bestOf_toNat hdegree hfits, hcode]
      rw [readBack, hget, dif_pos k.isLt, if_neg (Nat.not_lt.mpr hle), hback]
      simp

end Rows

section Solving

/- The answer is the cheapest of the sequences of transitions that lead from the first position to
the last, and there is none exactly when there is no such sequence. -/
def SolvesExactly (tr : Trellis C degree) : Prop :=
  ∃ r, tr.bestPath = some (.ok r) ∧
    (r = none ↔ ¬ ∃ moves, tr.PathTo (· ≠ ⊤) tr.numFrames tr.numPositions moves) ∧
    ∀ path, r = some path →
      (∃ moves, tr.PathTo (· ≠ ⊤) tr.numFrames tr.numPositions moves ∧
        path.codes = moves.map (fun move => (move.1 : ℕ)) ∧
        path.positions = moves.map (fun move => move.2 % 2 ^ 32) ∧ path.cost = (tr.stepCosts moves).sum) ∧
      ∀ moves, tr.PathTo (· ≠ ⊤) tr.numFrames tr.numPositions moves →
        path.cost ≤ (tr.stepCosts moves).sum

/- The bytes that the codes of all the frames take. -/
def traceSize (tr : Trellis C degree) : ℕ :=
  tr.numFrames * (tr.numPositions / (8 / codeBits degree) + 1)

variable [Nontrivial C] {tr : Trellis C degree}

theorem solvesExactly_of_band (hlawful : tr.Lawful (· ≠ ⊤)) (hdegree : 0 < degree)
    (hfits : degree ≤ 256) (hband : (tr.band 0).2 ≤ (tr.band 0).1) : SolvesExactly tr := by
  refine ⟨none, by simp only [bestPath, checkDegree_eq hdegree hfits, if_pos hband], ?_, ?_⟩
  · refine iff_of_true rfl ?_
    rintro ⟨moves, hmoves⟩
    exact not_pathTo_of_band hlawful hband hmoves
  · rintro path ⟨⟩

/- What the solver answers when the traceback fits: the path chosen, if there is one at all. -/
theorem bestPath_of_trace (hlawful : tr.Lawful (· ≠ ⊤)) (hpadded : tr.Padded)
    (hdegree : 0 < degree) (hfits : degree ≤ 256) (hband : (tr.band 0).1 < (tr.band 0).2)
    (htrace : traceSize tr ≤ usizeMax) :
    (value tr tr.numFrames tr.numPositions = ⊤ ∧ tr.bestPath = some (.ok none)) ∨
      ∃ moves, Chosen tr tr.numFrames tr.numPositions moves ∧
        tr.PathTo (· ≠ ⊤) tr.numFrames tr.numPositions moves ∧
        pathCost tr moves = value tr tr.numFrames tr.numPositions ∧
        tr.bestPath = some (.ok (some ⟨moves.map fun move => (move.1 : ℕ),
          moves.map fun move => move.2 % 2 ^ 32, pathCost tr moves⟩)) := by
  obtain ⟨trace, hnew, hbits, hper, hstride⟩ : ∃ trace,
      Traceback.new tr.numFrames tr.numPositions degree = .ok trace ∧
        trace.bits = codeBits degree ∧ trace.perByte = 8 / codeBits degree ∧
        trace.stride = tr.numPositions / trace.perByte + 1 := by
    refine ⟨_, if_neg ?_, rfl, rfl, rfl⟩
    exact Nat.not_lt.mpr htrace
  obtain ⟨rows, hrun, hfilled⟩ :=
    fillFrames_spec hlawful hpadded hdegree hfits hbits hper hstride le_rfl
  have hcost : rows.cur (tr.width + tr.numPositions) = value tr tr.numFrames tr.numPositions := by
    by_cases hle : tr.numPositions ≤ tr.width * tr.numFrames
    · exact hfilled.exact _ ((mem_cells le_rfl).mpr ⟨by omega, hle, le_rfl⟩)
    · rw [(hfilled.above _ (Nat.lt_of_not_le hle)).1]
      by_contra hne
      exact hle (le_of_value_ne_top hlawful le_rfl le_rfl (Ne.symm hne))
  have hpath : tr.bestPath = if value tr tr.numFrames tr.numPositions = ⊤ then some (.ok none)
      else (tr.readBack rows.trace tr.numFrames tr.numPositions).map fun moves =>
        .ok (some ⟨moves.map Prod.fst, moves.map (fun move => move.2 % 2 ^ 32),
          value tr tr.numFrames tr.numPositions⟩) := by
    simp only [bestPath, checkDegree_eq hdegree hfits, if_neg (Nat.not_le.mpr hband), hnew, hrun,
      Option.bind_some, hcost]
  by_cases htop : value tr tr.numFrames tr.numPositions = ⊤
  · rw [if_pos htop] at hpath
    exact Or.inl ⟨htop, hpath⟩
  · obtain ⟨moves, hchosen, hmoves, hsum, hback⟩ :=
      readBack_spec hlawful hdegree hfits hfilled le_rfl (by omega) le_rfl htop
    rw [if_neg htop, hback, Option.map_some, List.map_map, List.map_map, ← hsum] at hpath
    exact Or.inr ⟨moves, hchosen, hmoves, hsum, hpath⟩

theorem solvesExactly_of_trace (hlawful : tr.Lawful (· ≠ ⊤)) (hpadded : tr.Padded)
    (hdegree : 0 < degree) (hfits : degree ≤ 256) (hband : (tr.band 0).1 < (tr.band 0).2)
    (htrace : traceSize tr ≤ usizeMax) : SolvesExactly tr := by
  rcases bestPath_of_trace hlawful hpadded hdegree hfits hband htrace with
    ⟨htop, hpath⟩ | ⟨moves, -, hmoves, hsum, hpath⟩
  · refine ⟨none, hpath, iff_of_true rfl ?_, ?_⟩
    · rintro ⟨moves, hmoves⟩
      have hle := value_le_pathCost hmoves
      rw [htop, top_le_iff] at hle
      exact pathCost_ne_top hmoves hle
    · rintro path ⟨⟩
  · refine ⟨_, hpath, iff_of_false (by simp) (not_not.mpr ⟨moves, hmoves⟩), ?_⟩
    rintro path ⟨⟩
    refine ⟨⟨moves, hmoves, rfl, rfl, rfl⟩, fun moves' hmoves' => ?_⟩
    dsimp only
    rw [hsum]
    exact value_le_pathCost hmoves'

section Ties

/- What a cell takes is the first of the cheapest transitions into it. -/
theorem foldl_better_first {before : ℕ → C} {steps : Fin degree → Step C} {l : List (Fin degree)}
    (hsorted : l.Pairwise (· < ·)) {best : C × ℕ} {k : Fin degree} (hk : k ∈ l)
    (hless : (l.foldl (better before steps i) best).1 < best.1)
    (htotal : total before steps i k = (l.foldl (better before steps i) best).1) :
    (l.foldl (better before steps i) best).2 ≤ k := by
  induction l generalizing best with
  | nil => cases hk
  | cons a l ih =>
    rw [List.foldl_cons] at hless htotal ⊢
    have hpairs := List.pairwise_cons.mp hsorted
    have hle := (foldl_better_le before steps i l (better before steps i best a)).1
    by_cases hlater : (l.foldl (better before steps i) (better before steps i best a)).1 <
        (better before steps i best a).1
    · rcases List.mem_cons.mp hk with rfl | hk
      · have hmem : (better before steps i best k).1 ≤ total before steps i k := by
          unfold better
          split
          · exact le_rfl
          · next hge => exact le_of_not_gt hge
        rw [htotal] at hmem
        exact absurd hlater (not_lt.mpr hmem)
      · exact ih hpairs.2 hk hlater htotal
    · have hstays := foldl_better_eq l (le_antisymm hle (le_of_not_gt hlater))
      rw [hstays] at hless htotal ⊢
      unfold better at hless ⊢
      split at hless
      · next hlt =>
        rw [if_pos hlt]
        rcases List.mem_cons.mp hk with rfl | hk
        · exact le_rfl
        · exact (hpairs.1 k hk).le
      · exact absurd hless (lt_irrefl _)

theorem bestOf_first {before : ℕ → C} {steps : Fin degree → Step C} {k : Fin degree}
    (hne : (bestOf before steps i).1 ≠ ⊤)
    (htotal : total before steps i k = (bestOf before steps i).1) :
    (bestOf before steps i).2 ≤ k :=
  foldl_better_first (List.pairwise_lt_finRange degree) (List.mem_finRange k)
    (lt_top_iff_ne_top.mpr hne) htotal

/- The order the tie-break puts paths in: by the transition of the last frame they differ in. -/
def Preferred (moves moves' : List (Fin degree × ℕ)) : Prop :=
  (moves.map Prod.fst).reverse < (moves'.map Prod.fst).reverse

theorem preferred_append {moves' : List (Fin degree × ℕ)} {k k' : Fin degree} :
    Preferred (moves ++ [(k, i)]) (moves' ++ [(k', i)]) ↔
      k < k' ∨ k = k' ∧ Preferred moves moves' := by
  unfold Preferred
  rw [List.map_append, List.map_append, List.reverse_append, List.reverse_append]
  exact List.cons_lt_cons_iff

/- Of the cheapest paths to a cell the one chosen comes first. -/
theorem Chosen.first {moves' : List (Fin degree × ℕ)} (h : Chosen tr t i moves)
    (hne : value tr t i ≠ ⊤) (h' : tr.PathTo (· ≠ ⊤) t i moves')
    (hcost : pathCost tr moves' = value tr t i) : moves = moves' ∨ Preferred moves moves' := by
  induction h generalizing moves' with
  | start =>
    cases h'
    exact Or.inl rfl
  | @step t j i moves k h hcode hlands ih =>
    obtain ⟨j', k', before', rfl, hbefore', hpresent', hlands'⟩ := pathTo_succ.mp h'
    rw [pathCost_append hbefore'] at hcost
    have htotal' : total (value tr t) (tr.stepsInto t i) i k' =
        value tr t j' + (tr.stepsInto t i k').cost := by
      unfold total
      rw [if_pos (by omega), show i - (tr.stepsInto t i k').advance = j' by omega]
    have hle : value tr t j' + (tr.stepsInto t i k').cost ≤ value tr (t + 1) i := by
      rw [← hcost]
      exact add_le_add_left (value_le_pathCost hbefore') _
    have hbest : total (value tr t) (tr.stepsInto t i) i k' = value tr (t + 1) i :=
      le_antisymm (htotal'.trans_le hle) (bestOf_le k')
    have hfirst : k ≤ k' := by
      have hcodes := bestOf_first hne hbest
      rw [hcode] at hcodes
      exact hcodes
    rcases hfirst.lt_or_eq with hlt | rfl
    · exact Or.inr (preferred_append.mpr (Or.inl hlt))
    · obtain rfl : j = j' := by omega
      have hsame : pathCost tr before' = value tr t j := by
        have hsums := hcost.trans (hbest.symm.trans htotal')
        exact (add_left_inj_of_ne_top hpresent').mp hsums
      have hbefore : value tr t j ≠ ⊤ := by
        intro htop
        rw [htop, top_add] at htotal'
        exact hne (hbest.symm.trans htotal')
      rcases ih hbefore hbefore' hsame with rfl | hpreferred
      · exact Or.inl rfl
      · exact Or.inr (preferred_append.mpr (Or.inr ⟨rfl, hpreferred⟩))

end Ties

/- A traceback that does not fit is reported, before any of it is built. -/
theorem bestPath_of_unfit (hdegree : 0 < degree) (hfits : degree ≤ 256)
    (htrace : usizeMax < traceSize tr) (hband : (tr.band 0).1 < (tr.band 0).2) :
    ∃ e, tr.bestPath = some (.error e) := by
  obtain ⟨e, hnew⟩ : ∃ e, Traceback.new tr.numFrames tr.numPositions degree = .error e :=
    ⟨_, if_pos htrace⟩
  exact ⟨e, by simp only [bestPath, checkDegree_eq hdegree hfits,
    if_neg (Nat.not_le.mpr hband), hnew]⟩

theorem solves_or_reports (hlawful : tr.Lawful (· ≠ ⊤)) (hpadded : tr.Padded) (hdegree : 0 < degree)
    (hfits : degree ≤ 256) :
    SolvesExactly tr ∨ (usizeMax < traceSize tr ∧ ∃ e, tr.bestPath = some (.error e)) := by
  rcases Nat.lt_or_ge (tr.band 0).1 (tr.band 0).2 with hband | hband
  · rcases Nat.lt_or_ge usizeMax (traceSize tr) with htrace | htrace
    · exact Or.inr ⟨htrace, bestPath_of_unfit hdegree hfits htrace hband⟩
    · exact Or.inl (solvesExactly_of_trace hlawful hpadded hdegree hfits hband htrace)
  · exact Or.inl (solvesExactly_of_band hlawful hdegree hfits hband)

/- Two positions to be held or moved on to, in three frames. -/
def rigid : Trellis (WithTop ℕ) 2 where
  reach := 1
  numFrames := 3
  numPositions := 2
  stepsInto t i k := if i = 0 then ⟨0, ⊤⟩ else ⟨k, (t + i : ℕ)⟩
  numFrames_le := three_le_usizeMax
  numPositions_le := two_le_usizeMax

/- A transition that is not there, but says that it advances further than the padding is wide. -/
def straying : Trellis (WithTop ℕ) 1 where
  reach := 1
  numFrames := 1
  numPositions := 0
  stepsInto _ _ _ := ⟨5, ⊤⟩
  numFrames_le := one_le_usizeMax
  numPositions_le := Nat.zero_le usizeMax

end Solving

end Sicada.BestPathExact
