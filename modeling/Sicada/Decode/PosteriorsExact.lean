import Sicada.Decode.TrellisSums

namespace Sicada.PosteriorsExact

open Trellis TrellisSums ListLemmas

variable {degree : ℕ} {K : Type} [Semifield K] [LinearOrder K] [IsStrictOrderedRing K]
  [CanonicallyOrderedAdd K]

section Folding

variable {terms : Fin degree → K}

theorem foldl_pivot (terms : Fin degree → K) (l : List (Fin degree)) (pivot : K) :
    let result := l.foldl (fun pivot k => if pivot < terms k then terms k else pivot) pivot
    pivot ≤ result ∧ (∀ k ∈ l, terms k ≤ result) ∧ (result = pivot ∨ ∃ k ∈ l, result = terms k) := by
  induction l generalizing pivot with
  | nil => exact ⟨le_rfl, by simp, Or.inl rfl⟩
  | cons a l ih =>
    obtain ⟨hle, hall, hmem⟩ := ih (if pivot < terms a then terms a else pivot)
    have hstep : pivot ≤ (if pivot < terms a then terms a else pivot) ∧
        terms a ≤ (if pivot < terms a then terms a else pivot) := by
      split
      · next hlt => exact ⟨hlt.le, le_rfl⟩
      · next hge => exact ⟨le_rfl, le_of_not_gt hge⟩
    refine ⟨hstep.1.trans hle, ?_, ?_⟩
    · intro k hk
      rcases List.mem_cons.mp hk with rfl | hk
      · exact hstep.2.trans hle
      · exact hall k hk
    · rcases hmem with heq | ⟨k, hk, heq⟩
      · rw [List.foldl_cons, heq]
        split
        · exact Or.inr ⟨a, List.mem_cons_self, rfl⟩
        · exact Or.inl rfl
      · exact Or.inr ⟨k, List.mem_cons_of_mem _ hk, heq⟩

theorem le_pivotOf (k : Fin degree) : terms k ≤ pivotOf terms :=
  (foldl_pivot _ _ _).2.1 k (List.mem_finRange k)

theorem pivotOf_attained (h : pivotOf terms ≠ 0) : ∃ k, pivotOf terms = terms k := by
  rcases (foldl_pivot terms (List.finRange degree) 0).2.2 with heq | ⟨k, -, hk⟩
  · exact absurd heq h
  · exact ⟨k, hk⟩

theorem foldl_rest (terms : Fin degree → K) (pivot : K) (l : List (Fin degree))
    (rest : K × Bool) :
    let result := l.foldl (fun rest k =>
      if terms k / pivot = 1 ∧ ¬ rest.2 then (rest.1, true)
      else (rest.1 + terms k / pivot, rest.2)) rest
    result.1 + (if result.2 then 1 else 0) =
        rest.1 + (if rest.2 then 1 else 0) + (l.map fun k => terms k / pivot).sum ∧
      (rest.2 = true ∨ (∃ k ∈ l, terms k / pivot = 1) → result.2 = true) := by
  induction l generalizing rest with
  | nil => simp
  | cons a l ih =>
    rw [List.foldl_cons, List.map_cons, List.sum_cons]
    by_cases hclaim : terms a / pivot = 1 ∧ ¬ rest.2
    · rw [if_pos hclaim]
      obtain ⟨hsum, hclaimed⟩ := ih (rest.1, true)
      refine ⟨?_, fun _ => hclaimed (Or.inl rfl)⟩
      rw [hsum, hclaim.1, if_pos rfl, if_neg hclaim.2, add_zero, add_assoc]
    · rw [if_neg hclaim]
      obtain ⟨hsum, hclaimed⟩ := ih (rest.1 + terms a / pivot, rest.2)
      refine ⟨?_, fun hany => hclaimed ?_⟩
      · rw [hsum]
        ring
      · rcases hany with htrue | ⟨k, hk, hone⟩
        · exact Or.inl htrue
        · rcases List.mem_cons.mp hk with rfl | hk
          · refine Or.inl ?_
            by_contra hfalse
            exact hclaim ⟨hone, hfalse⟩
          · exact Or.inr ⟨k, hk, hone⟩

/- The fold on the largest term is the sum, and the shares are measured against that term. -/
theorem logSum_sum : (logSum terms).sum = ∑ k, terms k := by
  unfold logSum
  dsimp only
  by_cases hpivot : pivotOf terms = 0
  · rw [if_pos hpivot]
    refine (Finset.sum_eq_zero fun k _ => ?_).symm
    exact le_antisymm (hpivot ▸ le_pivotOf k) zero_le
  · obtain ⟨k, hk⟩ := pivotOf_attained hpivot
    have hone : terms k / pivotOf terms = 1 := by rw [← hk, div_self hpivot]
    obtain ⟨hsum, hclaimed⟩ := foldl_rest terms (pivotOf terms) (List.finRange degree)
      (0, false)
    have htrue := hclaimed (Or.inr ⟨k, List.mem_finRange k, hone⟩)
    rw [if_pos htrue, if_neg (by simp), add_zero, zero_add, sum_finRange] at hsum
    rw [if_neg hpivot]
    dsimp only
    rw [add_comm, restOf, hsum, ← Finset.sum_div, mul_div_cancel₀ _ hpivot]

theorem pivot_mul_share (k : Fin degree) :
    (logSum terms).pivot * (logSum terms).shares k = terms k := by
  unfold logSum
  dsimp only
  by_cases hpivot : pivotOf terms = 0
  · rw [if_pos hpivot]
    dsimp only
    rw [mul_zero]
    exact (le_antisymm (hpivot ▸ le_pivotOf k) zero_le).symm
  · rw [if_neg hpivot]
    exact mul_div_cancel₀ _ hpivot

end Folding

section Forward

variable {tr : Trellis K degree} {t : ℕ}

theorem forward_eq_zero (hlawful : tr.Lawful (· ≠ 0)) (ht : t ≤ tr.numFrames) {i : ℕ}
    (hi : i ≤ tr.numPositions) (h : tr.width * t < i) : forward tr t i = 0 := by
  have hnil : pathsTo tr t i = [] := List.eq_nil_iff_forall_not_mem.mpr fun moves hmoves => by
    have hle := (mem_pathsTo.mp hmoves).le_width hlawful ht hi
    omega
  rw [forward, hnil]
  rfl

/- The rows of the plane that are filled hold the sums over the paths to their cells. -/
def Filled (tr : Trellis K degree) (t : ℕ) (alpha : ℕ → ℕ → K) : Prop :=
  ∀ s x, alpha s x = if s ≤ t ∧ tr.width ≤ x ∧ x - tr.width ∈ tr.cells s then
    forward tr s (x - tr.width) else 0

theorem termsInto_spec (hlawful : tr.Lawful (· ≠ 0)) (hpadded : tr.Padded)
    {alpha : ℕ → ℕ → K} (h : Filled tr t alpha) (ht : t < tr.numFrames) {i : ℕ}
    (hi : i ∈ tr.cells (t + 1)) :
    ∃ terms, tr.termsInto t (alpha t) i = some terms ∧
      (logSum terms).sum = forward tr (t + 1) i := by
  obtain ⟨hlo, hhi, hlast⟩ := (mem_cells (show t + 1 ≤ tr.numFrames from ht)).mp hi
  refine ⟨_, if_pos (hpadded t ht i hlast), ?_⟩
  rw [logSum_sum, forward_succ]
  refine Finset.sum_congr rfl fun k _ => ?_
  by_cases hcost : (tr.stepsInto t i k).cost = 0
  · rw [hcost, mul_zero, mul_zero, ite_self]
  · have hreach := hlawful.reach_honest t ht i hlast k hcost
    have hstart := hlawful.from_start t ht i hlast k hcost
    have hwidth : tr.reach ≤ tr.width := Nat.le_max_left _ _
    have hsplit : tr.width * (tr.numFrames - t) =
        tr.width * (tr.numFrames - (t + 1)) + tr.width := by
      rw [← Nat.mul_succ]
      congr 1
      omega
    rw [if_pos hstart, Nat.add_sub_assoc hstart, h, Nat.add_sub_cancel_left]
    congr 1
    by_cases hband : i - (tr.stepsInto t i k).advance ≤ tr.width * t
    · rw [if_pos ⟨le_rfl, by omega, (mem_cells ht.le).mpr ⟨by omega, hband, by omega⟩⟩]
    · rw [if_neg fun hmem => hband ((mem_cells ht.le).mp hmem.2.2).2.1]
      exact (forward_eq_zero hlawful ht.le (by omega) (by omega)).symm

theorem foldl_update {f : ℕ → K} (c : ℕ) (l : List ℕ) (row : ℕ → K) (x : ℕ) :
    l.foldl (fun row i => Function.update row (c + i) (f i)) row x =
      if c ≤ x ∧ x - c ∈ l then f (x - c) else row x := by
  induction l generalizing row with
  | nil => simp
  | cons a l ih =>
    rw [List.foldl_cons, ih]
    by_cases hmem : c ≤ x ∧ x - c ∈ l
    · rw [if_pos hmem, if_pos ⟨hmem.1, List.mem_cons_of_mem _ hmem.2⟩]
    · rw [if_neg hmem]
      by_cases hx : x = c + a
      · subst hx
        rw [Function.update_self, Nat.add_sub_cancel_left, if_pos ⟨by omega, List.mem_cons_self⟩]
      · rw [Function.update_of_ne hx, if_neg]
        rintro ⟨hle, hin⟩
        rcases List.mem_cons.mp hin with heq | hin
        · omega
        · exact hmem ⟨hle, hin⟩

theorem forwardFrame_spec (hlawful : tr.Lawful (· ≠ 0)) (hpadded : tr.Padded)
    {alpha : ℕ → ℕ → K} (h : Filled tr t alpha) (ht : t < tr.numFrames) :
    ∃ alpha', tr.forwardFrame alpha t = some alpha' ∧ Filled tr (t + 1) alpha' := by
  have hrun : (tr.cells (t + 1)).foldlM (tr.forwardCell t (alpha t)) (alpha (t + 1)) =
      some ((tr.cells (t + 1)).foldl (fun row i =>
        Function.update row (tr.width + i) (forward tr (t + 1) i)) (alpha (t + 1))) := by
    refine foldlM_eq_pure (fun i hi row => ?_) _
    obtain ⟨terms, hterms, hsum⟩ := termsInto_spec hlawful hpadded h ht hi
    rw [forwardCell, hterms, Option.map_some, hsum]
    rfl
  refine ⟨Function.update alpha (t + 1) _, by rw [forwardFrame, hrun]; rfl, ?_⟩
  intro s x
  by_cases hs : s = t + 1
  · subst hs
    have hblank : alpha (t + 1) x = 0 := by rw [h, if_neg (by omega)]
    rw [Function.update_self, foldl_update, hblank]
    simp
  · have hiff : s ≤ t ↔ s ≤ t + 1 := by omega
    rw [Function.update_of_ne hs, h]
    simp only [hiff]

theorem forwardFrames_spec (hlawful : tr.Lawful (· ≠ 0)) (hpadded : tr.Padded)
    (hband : (tr.band 0).1 < (tr.band 0).2) (ht : t ≤ tr.numFrames) :
    ∃ alpha, (List.range t).foldlM tr.forwardFrame tr.startPlane = some alpha ∧
      Filled tr t alpha := by
  induction t with
  | zero =>
    refine ⟨_, rfl, ?_⟩
    have hcells : ∀ i, i ∈ tr.cells 0 ↔ i = 0 := by
      intro i
      have hmax := tr.numPositions_le
      unfold Trellis.band Sicada.band saturatingMul at hband
      dsimp only at hband
      rw [mem_cells (Nat.zero_le _)]
      rw [Nat.zero_min, Nat.sub_zero, Nat.mul_zero] at hband
      rw [Nat.sub_zero, Nat.mul_zero]
      omega
    intro s x
    unfold startPlane
    by_cases hs : s = 0
    · subst hs
      simp only [Function.update_self, hcells]
      by_cases hx : x = tr.width
      · subst hx
        rw [Function.update_self, if_pos ⟨le_rfl, le_rfl, Nat.sub_self _⟩, Nat.sub_self,
          forward_zero, if_pos rfl]
      · rw [Function.update_of_ne hx, if_neg (by omega)]
    · rw [Function.update_of_ne hs, if_neg (by omega)]
  | succ t ih =>
    obtain ⟨alpha, hrun, hfilled⟩ := ih (by omega)
    obtain ⟨alpha', hrun', hfilled'⟩ := forwardFrame_spec hlawful hpadded hfilled ht
    refine ⟨alpha', ?_, hfilled'⟩
    rw [List.range_succ, List.foldlM_append, hrun]
    simpa using hrun'

end Forward

section Backward

variable {tr : Trellis K degree} {t : ℕ}

theorem pathFrom_le_width (hlawful : tr.Lawful (· ≠ 0)) {j : ℕ} {moves : List (Fin degree × ℕ)}
    (h : PathFrom tr t j moves) : tr.numPositions ≤ j + tr.width * (tr.numFrames - t) := by
  induction h with
  | done => omega
  | step k ht hpresent hlands h ih =>
    rename_i t j i moves
    have hreach := hlawful.reach_honest t ht i h.le k hpresent
    have hwidth : tr.reach ≤ tr.width := Nat.le_max_left _ _
    have hsplit : tr.width * (tr.numFrames - t) =
        tr.width * (tr.numFrames - (t + 1)) + tr.width := by
      rw [← Nat.mul_succ]
      congr 1
      omega
    omega

theorem exists_pathFrom (hlawful : tr.Lawful (· ≠ 0)) (hunambiguous : Unambiguous tr)
    {left j : ℕ} (hleft : t + left = tr.numFrames) (h : backward tr left j ≠ 0) :
    ∃ moves, PathFrom tr t j moves := by
  by_contra hnone
  refine h ?_
  have hnil : pathsFrom tr left j = [] := List.eq_nil_iff_forall_not_mem.mpr fun moves hmoves => by
    have hpath := (mem_pathsFrom hlawful hunambiguous (by omega)).mp hmoves
    rw [show tr.numFrames - left = t by omega] at hpath
    exact hnone ⟨moves, hpath⟩
  rw [backward, hnil]
  rfl

/- What a transition out of a cell makes of the sums behind it. -/
def termOut (tr : Trellis K degree) (t left j : ℕ) (k : Fin degree) : K :=
  (tr.deriveStepsOutOf t j k).cost *
    backward tr left (j + (tr.deriveStepsOutOf t j k).advance)

/- The transitions of a frame in the order they are visited. -/
def visitsAt (tr : Trellis K degree) (alpha : ℕ → ℕ → K) (total : K) (t : ℕ) :
    List (Trellis.Transition × K) :=
  (tr.cells t).flatMap fun j =>
    tr.visitCell tr.deriveStepsOutOf t (alpha t) total j (logSum (termOut tr t (tr.numFrames - (t + 1)) j))

theorem termsOutOf_eq (hlawful : tr.Lawful (· ≠ 0)) (hunambiguous : Unambiguous tr) {left : ℕ}
    (hleft : t + left + 1 = tr.numFrames) {betaNext : ℕ → K}
    (hbeta : ∀ i ∈ tr.cells (t + 1), betaNext i = backward tr left i) {j : ℕ}
    (hj : j ∈ tr.cells t) : tr.termsOutOf tr.deriveStepsOutOf t betaNext j = termOut tr t left j := by
  funext k
  have ht : t < tr.numFrames := by omega
  have hjle := ((mem_cells ht.le).mp hj).2.1
  unfold termsOutOf termOut
  dsimp only
  rcases derive_cases tr t j k with hzero | ⟨i, hi, hlands, hpresent, heq⟩
  · rw [hzero, zero_mul, zero_mul, ite_self]
  · rw [heq, hlands]
    have hreach := hlawful.reach_honest t ht i hi k hpresent
    have hwidth : tr.reach ≤ tr.width := Nat.le_max_left _ _
    have hsplit : tr.width * (t + 1) = tr.width * t + tr.width := Nat.mul_succ _ _
    have hrange : i ∈ tr.cells (t + 1) ↔ (tr.band (t + 1)).1 ≤ i ∧ i < (tr.band (t + 1)).2 := by
      unfold cells
      rw [List.mem_range'_1]
      omega
    by_cases hmem : i ∈ tr.cells (t + 1)
    · rw [if_pos (hrange.mp hmem), hbeta i hmem]
    · rw [if_neg fun hband => hmem (hrange.mpr hband)]
      have hback : backward tr left i = 0 := by
        by_contra hne
        obtain ⟨moves, hmoves⟩ :=
          exists_pathFrom hlawful hunambiguous (show t + 1 + left = tr.numFrames by omega) hne
        exact hmem ((mem_cells (show t + 1 ≤ tr.numFrames from ht)).mpr
          ⟨pathFrom_le_width hlawful hmoves, by omega, hi⟩)
      rw [hback, mul_zero]

theorem foldl_backwardCell (alphaRow : ℕ → K) (total : K) (l : List ℕ) (rows : BackwardRows K) :
    l.foldl (tr.backwardCell tr.deriveStepsOutOf t alphaRow total) rows =
      ⟨rows.betaNext, l.foldl (fun row i => Function.update row (0 + i)
          (logSum (tr.termsOutOf tr.deriveStepsOutOf t rows.betaNext i)).sum) rows.betaCur,
        rows.visits ++ l.flatMap fun i =>
          tr.visitCell tr.deriveStepsOutOf t alphaRow total i (logSum (tr.termsOutOf tr.deriveStepsOutOf t rows.betaNext i))⟩ := by
  induction l generalizing rows with
  | nil => simp
  | cons i l ih =>
    rw [List.foldl_cons, ih]
    simp [backwardCell]

/- The rows after the frames from `t` on. -/
structure Backed (tr : Trellis K degree) (alpha : ℕ → ℕ → K) (total : K) (left : ℕ)
    (rows : BackwardRows K) : Prop where
  beta : ∀ i ∈ tr.cells (tr.numFrames - left), rows.betaNext i = backward tr left i
  visits : rows.visits =
    (List.range' (tr.numFrames - left) left).reverse.flatMap (visitsAt tr alpha total)

theorem backwardFrame_spec (hlawful : tr.Lawful (· ≠ 0)) (hunambiguous : Unambiguous tr)
    {alpha : ℕ → ℕ → K} {total : K} {left : ℕ} {rows : BackwardRows K}
    (h : Backed tr alpha total left rows) (hleft : t + left + 1 = tr.numFrames) :
    Backed tr alpha total (left + 1) (tr.backwardFrame tr.deriveStepsOutOf alpha total rows t) := by
  have htime : tr.numFrames - (left + 1) = t := by omega
  have hnext : tr.numFrames - left = t + 1 := by omega
  have hbeta := h.beta
  have hvisits := h.visits
  rw [hnext] at hbeta hvisits
  have hterms := fun j hj => termsOutOf_eq hlawful hunambiguous hleft hbeta (j := j) hj
  unfold backwardFrame
  rw [foldl_backwardCell]
  constructor
  · intro i hi
    rw [htime] at hi
    dsimp only
    rw [foldl_update, if_pos ⟨Nat.zero_le _, by rwa [Nat.sub_zero]⟩, Nat.sub_zero, hterms i hi,
      logSum_sum, backward_succ hleft]
    rfl
  · dsimp only
    rw [hvisits, htime, List.range'_succ, List.reverse_cons, List.flatMap_append]
    congr 1
    rw [List.flatMap_singleton, visitsAt, show tr.numFrames - (t + 1) = left by omega]
    refine List.flatMap_congr fun i hi => ?_
    rw [hterms i hi]

theorem backwardFrames_spec (hlawful : tr.Lawful (· ≠ 0)) (hunambiguous : Unambiguous tr)
    {alpha : ℕ → ℕ → K} {total : K} {left : ℕ} (hleft : left ≤ tr.numFrames) :
    Backed tr alpha total left
      ((List.range' (tr.numFrames - left) left).reverse.foldl (tr.backwardFrame tr.deriveStepsOutOf alpha total)
        ⟨Function.update (fun _ => 0) tr.numPositions 1, fun _ => 0, []⟩) := by
  induction left with
  | zero =>
    refine ⟨?_, rfl⟩
    intro i hi
    have hi' := (mem_cells (Nat.sub_le _ _)).mp hi
    rw [Nat.sub_zero, Nat.sub_self, Nat.mul_zero] at hi'
    obtain rfl : i = tr.numPositions := by omega
    rw [backward_zero, if_pos rfl]
    simp
  | succ left ih =>
    have hstep := backwardFrame_spec (t := tr.numFrames - (left + 1)) hlawful hunambiguous
      (ih (by omega)) (by omega)
    rw [List.range'_succ, List.reverse_cons, List.foldl_append]
    rwa [show tr.numFrames - (left + 1) + 1 = tr.numFrames - left by omega]

end Backward

section Visits

variable (tr : Trellis K degree)

/- The weight of all the complete paths. -/
noncomputable def totalWeight : K := ∑ᶠ moves ∈ {moves | Complete tr moves}, (tr.stepCosts moves).prod

/- The path takes the transition in its frame. -/
def Uses (moves : List (Fin degree × ℕ)) (x : Trellis.Transition) : Prop :=
  ∃ k : Fin degree, (k : ℕ) = x.code ∧ moves[x.frame]? = some (k, x.position)

/- The share that the paths which take a transition have of the weight of all. -/
noncomputable def mass (x : Trellis.Transition) : K :=
  (∑ᶠ moves ∈ {moves | Complete tr moves ∧ Uses moves x}, (tr.stepCosts moves).prod) / totalWeight tr

variable {tr} {t : ℕ}

theorem uses_iff {moves : List (Fin degree × ℕ)} {f i : ℕ} {k : Fin degree} :
    Uses moves ⟨f, i, k⟩ ↔ moves[f]? = some (k, i) := by
  constructor
  · rintro ⟨k', hk, hget⟩
    rw [← Fin.ext hk]
    exact hget
  · intro hget
    exact ⟨k, rfl, hget⟩

theorem mass_eq (hlawful : tr.Lawful (· ≠ 0)) (hunambiguous : Unambiguous tr) {f left i j : ℕ}
    {k : Fin degree} (hf : f + left + 1 = tr.numFrames) (hpresent : (tr.stepsInto f i k).cost ≠ 0)
    (hlands : j + (tr.stepsInto f i k).advance = i) :
    mass tr ⟨f, i, k⟩ = forward tr f j * (tr.stepsInto f i k).cost * backward tr left i /
      totalWeight tr := by
  unfold mass
  rw [← sum_through hlawful hunambiguous hf hpresent hlands]
  simp only [uses_iff]

/- Each transition visited at a cell is one that is there, with its share of the total. -/
theorem mem_visitCell {alphaRow : ℕ → K} {total : K} {j : ℕ} {terms : Fin degree → K}
    {entry : Trellis.Transition × K} :
    entry ∈ tr.visitCell tr.deriveStepsOutOf t alphaRow total j (logSum terms) ↔
      ∃ k, alphaRow (tr.width + j) * terms k / total ≠ 0 ∧
        entry = (⟨t, j + (tr.deriveStepsOutOf t j k).advance, k⟩,
          alphaRow (tr.width + j) * terms k / total) := by
  have hvalue : ∀ k, alphaRow (tr.width + j) * (logSum terms).pivot / total *
      (logSum terms).shares k = alphaRow (tr.width + j) * terms k / total := by
    intro k
    rw [div_mul_eq_mul_div, mul_assoc, pivot_mul_share]
  unfold visitCell
  dsimp only
  constructor
  · intro h
    split at h
    · cases h
    · next hscale =>
      obtain ⟨k, -, hk⟩ := List.mem_filterMap.mp h
      split at hk
      · cases hk
      · next hshare =>
        obtain rfl := Option.some.inj hk
        refine ⟨k, ?_, by rw [hvalue]⟩
        rw [← hvalue]
        exact mul_ne_zero hscale hshare
  · rintro ⟨k, hne, rfl⟩
    rw [← hvalue] at hne
    rw [if_neg (left_ne_zero_of_mul hne)]
    refine List.mem_filterMap.mpr ⟨k, List.mem_finRange k, ?_⟩
    rw [if_neg (right_ne_zero_of_mul hne), hvalue]

theorem mem_visitsAt (hlawful : tr.Lawful (· ≠ 0)) (hunambiguous : Unambiguous tr)
    {alpha : ℕ → ℕ → K} (halpha : Filled tr tr.numFrames alpha) (ht : t < tr.numFrames)
    {entry : Trellis.Transition × K} :
    entry ∈ visitsAt tr alpha (totalWeight tr) t ↔
      ∃ i, ∃ k : Fin degree, mass tr ⟨t, i, k⟩ ≠ 0 ∧ entry = (⟨t, i, k⟩, mass tr ⟨t, i, k⟩) := by
  have hleft : t + (tr.numFrames - (t + 1)) + 1 = tr.numFrames := by omega
  have hrow : ∀ j ∈ tr.cells t, alpha t (tr.width + j) = forward tr t j := by
    intro j hj
    rw [halpha, Nat.add_sub_cancel_left, if_pos ⟨ht.le, Nat.le_add_right _ _, hj⟩]
  have hmass : ∀ {i j : ℕ} {k : Fin degree}, (tr.stepsInto t i k).cost ≠ 0 →
      j + (tr.stepsInto t i k).advance = i → tr.deriveStepsOutOf t j k = tr.stepsInto t i k →
      forward tr t j * termOut tr t (tr.numFrames - (t + 1)) j k / totalWeight tr =
        mass tr ⟨t, i, k⟩ := by
    intro i j k hpresent hlands heq
    rw [mass_eq hlawful hunambiguous hleft hpresent hlands, termOut, heq, hlands, mul_assoc]
  unfold visitsAt
  rw [List.mem_flatMap]
  constructor
  · rintro ⟨j, hj, hentry⟩
    obtain ⟨k, hne, rfl⟩ := mem_visitCell.mp hentry
    rw [hrow j hj] at hne ⊢
    rcases derive_cases tr t j k with hzero | ⟨i, -, hlands, hpresent, heq⟩
    · rw [termOut, hzero, zero_mul, mul_zero, zero_div] at hne
      exact absurd rfl hne
    · rw [hmass hpresent hlands heq] at hne ⊢
      rw [heq, hlands]
      exact ⟨i, k, hne, rfl⟩
  · rintro ⟨i, k, hne, rfl⟩
    obtain ⟨moves, ⟨hcomplete, huses⟩, -⟩ : ∃ moves ∈ {moves | Complete tr moves ∧
        Uses moves ⟨t, i, k⟩}, (tr.stepCosts moves).prod ≠ 0 := by
      by_contra hnone
      push Not at hnone
      refine hne ?_
      rw [mass, finsum_mem_eq_zero_of_forall_eq_zero hnone, zero_div]
    obtain ⟨before, after, j, -, hbefore, hpresent, hlands, hafter⟩ :=
      (complete_through ht).mp ⟨hcomplete, uses_iff.mp huses⟩
    have heq := derive_eq hlawful hunambiguous ht hafter.le hpresent hlands
    have hjlast : j ≤ tr.numPositions := by
      have hilast := hafter.le
      omega
    have hj : j ∈ tr.cells t := (mem_cells ht.le).mpr
      ⟨pathFrom_le_width hlawful (.step k ht hpresent hlands hafter),
        hbefore.le_width hlawful ht.le hjlast, hjlast⟩
    refine ⟨j, hj, mem_visitCell.mpr ⟨k, ?_, ?_⟩⟩
    · rwa [hrow j hj, hmass hpresent hlands heq]
    · rw [hrow j hj, hmass hpresent hlands heq, heq, hlands]

end Visits

section Shares

variable {tr : Trellis K degree} {t : ℕ}

theorem weight_ne_zero {i : ℕ} {moves : List (Fin degree × ℕ)}
    (h : tr.PathTo (· ≠ 0) t i moves) : (tr.stepCosts moves).prod ≠ 0 := by
  induction h with
  | start => exact one_ne_zero
  | step k h hpresent hlands ih =>
    rw [stepCosts_append, List.prod_append, h.length, List.prod_singleton]
    exact mul_ne_zero ih hpresent

theorem completes_eq : {moves | Complete tr moves} =
    (((pathsTo tr tr.numFrames tr.numPositions).toFinset : Finset _) : Set _) :=
  Set.ext fun moves => by
    rw [Finset.mem_coe, List.mem_toFinset, mem_pathsTo]
    rfl

theorem totalWeight_eq : totalWeight tr =
    ∑ moves ∈ (pathsTo tr tr.numFrames tr.numPositions).toFinset, (tr.stepCosts moves).prod := by
  rw [totalWeight, completes_eq, finsum_mem_coe_finset]

theorem mass_eq_sum (x : Trellis.Transition)
    [DecidablePred fun moves : List (Fin degree × ℕ) => Uses moves x] :
    mass tr x = (∑ moves ∈ (pathsTo tr tr.numFrames tr.numPositions).toFinset with Uses moves x,
      (tr.stepCosts moves).prod) / totalWeight tr := by
  have hset : {moves | Complete tr moves ∧ Uses moves x} =
      (((pathsTo tr tr.numFrames tr.numPositions).toFinset.filter fun moves => Uses moves x :
        Finset _) : Set _) := by
    rw [Finset.coe_filter]
    refine Set.ext fun moves => ?_
    simp only [Set.mem_ofPred_eq, List.mem_toFinset, mem_pathsTo]
    rfl
  rw [mass, hset, finsum_mem_coe_finset]

theorem mass_ne_zero_iff (htotal : totalWeight tr ≠ 0) {x : Trellis.Transition} :
    mass tr x ≠ 0 ↔ ∃ moves, Complete tr moves ∧ Uses moves x := by
  classical
  rw [mass_eq_sum, Ne, div_eq_zero_iff, or_iff_left htotal, Finset.sum_eq_zero_iff]
  simp only [Finset.mem_filter, List.mem_toFinset, mem_pathsTo]
  push Not
  constructor
  · rintro ⟨moves, ⟨hmoves, huses⟩, -⟩
    exact ⟨moves, hmoves, huses⟩
  · rintro ⟨moves, hmoves, huses⟩
    exact ⟨moves, ⟨hmoves, huses⟩, weight_ne_zero hmoves⟩

/- The transition that a path takes in a frame. -/
def takenAt (t : ℕ) (moves : List (Fin degree × ℕ)) : Trellis.Transition :=
  match moves[t]? with
  | some move => ⟨t, move.2, move.1⟩
  | none => ⟨t, 0, 0⟩

theorem uses_iff_takenAt {moves : List (Fin degree × ℕ)} (hmoves : Complete tr moves)
    (ht : t < tr.numFrames) {x : Trellis.Transition} (hx : x.frame = t) :
    Uses moves x ↔ takenAt t moves = x := by
  obtain ⟨frame, position, code⟩ := x
  subst hx
  have hlen : frame < moves.length := by rwa [PathTo.length hmoves]
  unfold Uses takenAt
  rw [List.getElem?_eq_getElem hlen]
  dsimp only
  rw [Trellis.Transition.mk.injEq]
  constructor
  · rintro ⟨k, rfl, hget⟩
    rw [Option.some.inj hget]
    exact ⟨rfl, rfl, rfl⟩
  · rintro ⟨-, rfl, rfl⟩
    exact ⟨_, rfl, rfl⟩

/- Each complete path takes one transition in each frame, so the shares add up. -/
theorem sum_mass_eq_one (htotal : totalWeight tr ≠ 0) (ht : t < tr.numFrames)
    {taken : Finset Trellis.Transition} (htaken : ∀ x, x ∈ taken ↔ x.frame = t ∧ mass tr x ≠ 0) :
    ∑ x ∈ taken, mass tr x = 1 := by
  classical
  have hfiber : ∀ x ∈ taken, mass tr x =
      (∑ moves ∈ (pathsTo tr tr.numFrames tr.numPositions).toFinset with takenAt t moves = x,
        (tr.stepCosts moves).prod) / totalWeight tr := by
    intro x hx
    rw [mass_eq_sum]
    congr 1
    refine Finset.sum_congr (Finset.filter_congr fun moves hmoves => ?_) fun _ _ => rfl
    exact uses_iff_takenAt (mem_pathsTo.mp (List.mem_toFinset.mp hmoves)) ht
      ((htaken x).mp hx).1
  rw [Finset.sum_congr rfl hfiber, ← Finset.sum_div, Finset.sum_fiberwise_of_maps_to,
    ← totalWeight_eq, div_self htotal]
  intro moves hmoves
  have hcomplete : Complete tr moves := mem_pathsTo.mp (List.mem_toFinset.mp hmoves)
  have hframe : (takenAt t moves).frame = t := by
    unfold takenAt
    split <;> rfl
  exact (htaken _).mpr ⟨hframe, (mass_ne_zero_iff htotal).mpr
    ⟨moves, hcomplete, (uses_iff_takenAt hcomplete ht hframe).mpr rfl⟩⟩

end Shares

section Keys

variable {tr : Trellis K degree} {t : ℕ} {alpha : ℕ → ℕ → K} {total : K}

theorem nodup_visitCell (alphaRow : ℕ → K) (j : ℕ) (folded : Folded K degree) :
    ((tr.visitCell tr.deriveStepsOutOf t alphaRow total j folded).map Prod.fst).Nodup := by
  unfold visitCell
  dsimp only
  split
  · exact List.nodup_nil
  · rw [List.map_filterMap]
    refine (List.nodup_finRange degree).filterMap ?_
    intro k k' x hk hk'
    rw [Option.mem_def, Option.map_eq_some_iff] at hk hk'
    obtain ⟨entry, hentry, rfl⟩ := hk
    obtain ⟨entry', hentry', hsame⟩ := hk'
    split at hentry
    · cases hentry
    · split at hentry'
      · cases hentry'
      · obtain rfl := Option.some.inj hentry
        obtain rfl := Option.some.inj hentry'
        exact Fin.ext (congrArg Trellis.Transition.code hsame).symm

theorem nodup_visitsAt : ((visitsAt tr alpha total t).map Prod.fst).Nodup := by
  unfold visitsAt
  rw [List.map_flatMap]
  refine List.nodup_flatMap.mpr ⟨fun j _ => nodup_visitCell _ _ _, ?_⟩
  have hnodup : (tr.cells t).Nodup := List.nodup_range'
  refine hnodup.imp ?_
  intro j j' hne x hx hx'
  refine hne ?_
  obtain ⟨entry, hentry, rfl⟩ := List.mem_map.mp hx
  obtain ⟨entry', hentry', hsame⟩ := List.mem_map.mp hx'
  obtain ⟨k, hk, rfl⟩ := mem_visitCell.mp hentry
  obtain ⟨k', hk', rfl⟩ := mem_visitCell.mp hentry'
  obtain rfl : k' = k := Fin.ext (congrArg Trellis.Transition.code hsame)
  have hposition := congrArg Trellis.Transition.position hsame
  dsimp only at hposition
  have hthere : ∀ {i : ℕ}, alpha t (tr.width + i) *
      termOut tr t (tr.numFrames - (t + 1)) i k' / total ≠ 0 →
      ∃ p, i + (tr.stepsInto t p k').advance = p ∧
        tr.deriveStepsOutOf t i k' = tr.stepsInto t p k' := by
    intro i hi
    rcases derive_cases tr t i k' with hzero | ⟨p, -, hlands, -, heq⟩
    · rw [termOut, hzero, zero_mul, mul_zero, zero_div] at hi
      exact absurd rfl hi
    · exact ⟨p, hlands, heq⟩
  obtain ⟨p, hp, heq⟩ := hthere hk
  obtain ⟨p', hp', heq'⟩ := hthere hk'
  rw [heq, heq', hp, hp'] at hposition
  subst hposition
  omega

theorem frame_of_mem_visitsAt {entry : Trellis.Transition × K}
    (h : entry ∈ visitsAt tr alpha total t) : entry.1.frame = t := by
  obtain ⟨j, -, hentry⟩ := List.mem_flatMap.mp h
  obtain ⟨k, -, rfl⟩ := mem_visitCell.mp hentry
  rfl

theorem nodup_visits {frames : List ℕ} (h : frames.Nodup) :
    ((frames.flatMap (visitsAt tr alpha total)).map Prod.fst).Nodup := by
  rw [List.map_flatMap]
  refine List.nodup_flatMap.mpr ⟨fun t _ => nodup_visitsAt, h.imp ?_⟩
  intro t t' hne x hx hx'
  obtain ⟨entry, hentry, rfl⟩ := List.mem_map.mp hx
  obtain ⟨entry', hentry', hsame⟩ := List.mem_map.mp hx'
  rw [← frame_of_mem_visitsAt hentry, ← frame_of_mem_visitsAt hentry', hsame] at hne
  exact hne rfl

end Keys

section Posteriors

/- The answer is the weight of all the complete paths, and each transition is visited with the share
that the paths through it have, or else has none. -/
structure Shared (tr : Trellis K degree) (total : K) (visits : List (Trellis.Transition × K)) :
    Prop where
  total_eq : total = totalWeight tr
  once : (visits.map Prod.fst).Nodup
  visited : ∀ entry ∈ visits, entry.2 = mass tr entry.1
  unvisited : ∀ x, x ∉ visits.map Prod.fst → mass tr x = 0
  normalized : ∀ t < tr.numFrames,
    ((visits.filter fun entry => entry.1.frame = t).map Prod.snd).sum = 1

def SharesExactly (tr : Trellis K degree) : Prop :=
  ∃ r, tr.posteriors = some (.ok r) ∧ (r = none ↔ totalWeight tr = 0) ∧
    ∀ total visits, r = some (total, visits) → Shared tr total visits

/- The cells of the forward plane. -/
def planeSize (tr : Trellis K degree) : ℕ :=
  (tr.numFrames + 1) * (tr.numPositions + 1 + tr.width)

variable {tr : Trellis K degree}

theorem mem_visits (hlawful : tr.Lawful (· ≠ 0)) (hunambiguous : Unambiguous tr)
    {alpha : ℕ → ℕ → K} (halpha : Filled tr tr.numFrames alpha)
    (htotal : totalWeight tr ≠ 0) {entry : Trellis.Transition × K} :
    entry ∈ (List.range tr.numFrames).reverse.flatMap (visitsAt tr alpha (totalWeight tr)) ↔
      mass tr entry.1 ≠ 0 ∧ entry.2 = mass tr entry.1 := by
  simp only [List.mem_flatMap, List.mem_reverse, List.mem_range]
  constructor
  · rintro ⟨t, ht, hentry⟩
    obtain ⟨i, k, hne, rfl⟩ := (mem_visitsAt hlawful hunambiguous halpha ht).mp hentry
    exact ⟨hne, rfl⟩
  · rintro ⟨hne, hmass⟩
    obtain ⟨moves, hcomplete, k, hk, hget⟩ := (mass_ne_zero_iff htotal).mp hne
    have hframe : entry.1.frame < tr.numFrames := by
      have hlt := (List.getElem?_eq_some_iff.mp hget).1
      rwa [PathTo.length hcomplete] at hlt
    have hentry : entry.1 = ⟨entry.1.frame, entry.1.position, k⟩ := by rw [hk]
    refine ⟨_, hframe, (mem_visitsAt hlawful hunambiguous halpha hframe).mpr
      ⟨entry.1.position, k, ?_, ?_⟩⟩
    · rwa [← hentry]
    · rw [← hentry, ← hmass]

theorem shared_of_filled (hlawful : tr.Lawful (· ≠ 0)) (hunambiguous : Unambiguous tr)
    {alpha : ℕ → ℕ → K} (halpha : Filled tr tr.numFrames alpha)
    (htotal : totalWeight tr ≠ 0) : Shared tr (totalWeight tr)
      ((List.range tr.numFrames).reverse.flatMap (visitsAt tr alpha (totalWeight tr))) := by
  have hmem := fun entry : Trellis.Transition × K =>
    @mem_visits _ _ _ _ _ _ _ hlawful hunambiguous _ halpha htotal entry
  generalize hvisits : (List.range tr.numFrames).reverse.flatMap
    (visitsAt tr alpha (totalWeight tr)) = visits at hmem ⊢
  have hnodup : (visits.map Prod.fst).Nodup := by
    rw [← hvisits]
    exact nodup_visits (List.nodup_reverse.mpr List.nodup_range)
  have hmass : ∀ entry ∈ visits, entry.2 = mass tr entry.1 := fun entry h => ((hmem entry).mp h).2
  refine ⟨rfl, hnodup, hmass, ?_, ?_⟩
  · intro x hx
    by_contra hne
    exact hx (List.mem_map.mpr ⟨(x, mass tr x), (hmem _).mpr ⟨hne, rfl⟩, rfl⟩)
  · intro t ht
    have hvalues : (visits.filter fun entry => entry.1.frame = t).map Prod.snd =
        ((visits.filter fun entry => entry.1.frame = t).map Prod.fst).map (mass tr) := by
      rw [List.map_map]
      refine List.map_congr_left fun entry h => ?_
      exact hmass entry (List.mem_of_mem_filter h)
    have hsub := (List.filter_sublist (p := fun entry : Trellis.Transition × K =>
      decide (entry.1.frame = t)) (l := visits)).map Prod.fst
    rw [hvalues, ← List.sum_toFinset _ (hnodup.sublist hsub)]
    refine sum_mass_eq_one htotal ht fun x => ?_
    simp only [List.mem_toFinset, List.mem_map, List.mem_filter, decide_eq_true_eq]
    constructor
    · rintro ⟨entry, ⟨hentry, hframe⟩, rfl⟩
      exact ⟨hframe, ((hmem entry).mp hentry).1⟩
    · rintro ⟨hframe, hne⟩
      exact ⟨(x, mass tr x), ⟨(hmem _).mpr ⟨hne, rfl⟩, hframe⟩, rfl⟩

theorem totalWeight_eq_zero_of_band (hlawful : tr.Lawful (· ≠ 0))
    (hband : (tr.band 0).2 ≤ (tr.band 0).1) : totalWeight tr = 0 := by
  refine finsum_mem_eq_zero_of_forall_eq_zero fun moves (hmoves : Complete tr moves) => ?_
  exact absurd hmoves (not_pathTo_of_band hlawful hband)

theorem sharesExactly_of_plane (hlawful : tr.Lawful (· ≠ 0)) (hpadded : tr.Padded)
    (hunambiguous : Unambiguous tr) (hdegree : 0 < degree) (hfits : degree ≤ 256)
    (hband : (tr.band 0).1 < (tr.band 0).2) (hplane : planeSize tr ≤ usizeMax) :
    SharesExactly tr := by
  obtain ⟨alpha, hrun, hfilled⟩ := forwardFrames_spec hlawful hpadded hband le_rfl
  have htotal : alpha tr.numFrames (tr.width + tr.numPositions) = totalWeight tr := by
    rw [totalWeight, sum_complete, hfilled, Nat.add_sub_cancel_left]
    by_cases hle : tr.numPositions ≤ tr.width * tr.numFrames
    · rw [if_pos ⟨le_rfl, Nat.le_add_right _ _, (mem_cells le_rfl).mpr ⟨by omega, hle, le_rfl⟩⟩]
    · rw [forward_eq_zero hlawful le_rfl le_rfl (Nat.lt_of_not_le hle), ite_self]
  have hposteriors : tr.posteriors = if totalWeight tr = 0 then some (.ok none) else
      some (.ok (some (totalWeight tr, ((List.range tr.numFrames).reverse.foldl
        (tr.backwardFrame tr.deriveStepsOutOf alpha (totalWeight tr))
        ⟨Function.update (fun _ => 0) tr.numPositions 1, fun _ => 0, []⟩).visits))) := by
    unfold planeSize at hplane
    simp only [posteriors, posteriorsBy, checkDegree_eq hdegree hfits, if_neg (Nat.not_le.mpr hband),
      if_neg (Nat.not_lt.mpr hplane), hrun, Option.map_some, htotal]
    split <;> rfl
  by_cases hzero : totalWeight tr = 0
  · refine ⟨none, by rw [hposteriors, if_pos hzero], iff_of_true rfl hzero, ?_⟩
    rintro total visits ⟨⟩
  · have hbacked : Backed tr alpha (totalWeight tr) tr.numFrames _ :=
      backwardFrames_spec hlawful hunambiguous le_rfl
    rw [Nat.sub_self, ← List.range_eq_range'] at hbacked
    have hvisits := hbacked.visits
    rw [Nat.sub_self, ← List.range_eq_range'] at hvisits
    rw [if_neg hzero, hvisits] at hposteriors
    refine ⟨_, hposteriors, by simp [hzero], ?_⟩
    rintro total visits ⟨⟩
    exact shared_of_filled hlawful hunambiguous hfilled hzero

/- Either the plane can be laid out, or it is refused. -/
theorem shares_or_refused (hlawful : tr.Lawful (· ≠ 0)) (hpadded : tr.Padded)
    (hunambiguous : Unambiguous tr) (hdegree : 0 < degree) (hfits : degree ≤ 256) :
    SharesExactly tr ∨ (usizeMax < planeSize tr ∧ ∃ e, tr.posteriors = some (.error e)) := by
  rcases Nat.lt_or_ge (tr.band 0).1 (tr.band 0).2 with hband | hband
  · rcases Nat.lt_or_ge usizeMax (planeSize tr) with hplane | hplane
    · refine Or.inr ⟨hplane, ?_⟩
      unfold planeSize at hplane
      simp only [posteriors, posteriorsBy, checkDegree_eq hdegree hfits, if_neg (Nat.not_le.mpr hband),
        if_pos hplane]
      exact ⟨_, rfl⟩
    · exact Or.inl (sharesExactly_of_plane hlawful hpadded hunambiguous hdegree hfits hband hplane)
  · refine Or.inl ⟨none, ?_, iff_of_true rfl (totalWeight_eq_zero_of_band hlawful hband), ?_⟩
    · simp only [posteriors, posteriorsBy, checkDegree_eq hdegree hfits, if_pos hband]
    · rintro total visits ⟨⟩

/- Two positions to be held or moved on to, in three frames. -/
def hold : Trellis ℚ≥0 2 where
  reach := 1
  numFrames := 3
  numPositions := 2
  stepsInto t i k := if i = 0 then ⟨0, 0⟩ else ⟨k, (t + i : ℕ)⟩
  numFrames_le := three_le_usizeMax
  numPositions_le := two_le_usizeMax

theorem hold_present {t i : ℕ} {k : Fin 2} (h : (hold.stepsInto t i k).cost ≠ 0) :
    i ≠ 0 ∧ (hold.stepsInto t i k).advance = k := by
  have hi : i ≠ 0 := by
    rintro rfl
    exact h rfl
  refine ⟨hi, ?_⟩
  unfold hold
  dsimp only
  rw [if_neg hi]

/- A transition of no weight that says that it advances further than the padding is wide. -/
def stray : Trellis ℚ≥0 1 where
  reach := 1
  numFrames := 1
  numPositions := 0
  stepsInto _ _ _ := ⟨5, 0⟩
  numFrames_le := one_le_usizeMax
  numPositions_le := Nat.zero_le usizeMax

end Posteriors

end Sicada.PosteriorsExact
