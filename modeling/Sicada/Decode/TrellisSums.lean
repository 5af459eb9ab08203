import Sicada.Decode.Trellis

set_option linter.unusedSectionVars false

namespace Sicada.TrellisSums

open Trellis

variable {degree : ℕ} {K : Type} [Semifield K] [LinearOrder K] [IsStrictOrderedRing K]
  [CanonicallyOrderedAdd K] (tr : Trellis K degree)

/- The weight of transitions taken from a frame on. -/
def weightAlong (t : ℕ) (moves : List (Fin degree × ℕ)) : K :=
  ((moves.zipIdx t).map fun entry => (tr.stepsInto entry.2 entry.1.2 entry.1.1).cost).prod

/- No code names two transitions out of one cell. -/
def Unambiguous : Prop :=
  ∀ t < tr.numFrames, ∀ j k i i', i ≤ tr.numPositions → i' ≤ tr.numPositions →
    (tr.stepsInto t i k).cost ≠ 0 → (tr.stepsInto t i' k).cost ≠ 0 →
    j + (tr.stepsInto t i k).advance = i → j + (tr.stepsInto t i' k).advance = i' → i = i'

/- The transitions from a cell to the last one. -/
inductive PathFrom : ℕ → ℕ → List (Fin degree × ℕ) → Prop
  | done : PathFrom tr.numFrames tr.numPositions []
  | step {t j i : ℕ} {moves : List (Fin degree × ℕ)} (k : Fin degree) (ht : t < tr.numFrames)
      (hpresent : (tr.stepsInto t i k).cost ≠ 0) (hlands : j + (tr.stepsInto t i k).advance = i)
      (h : PathFrom (t + 1) i moves) : PathFrom t j ((k, i) :: moves)

def pathsTo : ℕ → ℕ → List (List (Fin degree × ℕ))
  | 0, i => if i = 0 then [[]] else []
  | t + 1, i => (List.finRange degree).flatMap fun k =>
      if (tr.stepsInto t i k).cost ≠ 0 ∧ (tr.stepsInto t i k).advance ≤ i then
        (pathsTo t (i - (tr.stepsInto t i k).advance)).map fun moves => moves ++ [(k, i)]
      else []

/- By how many frames are left. -/
def pathsFrom : ℕ → ℕ → List (List (Fin degree × ℕ))
  | 0, j => if j = tr.numPositions then [[]] else []
  | left + 1, j => (List.finRange degree).flatMap fun k =>
      let step := tr.deriveStepsOutOf (tr.numFrames - (left + 1)) j k
      if step.cost ≠ 0 then
        (pathsFrom left (j + step.advance)).map fun moves => (k, j + step.advance) :: moves
      else []

def forward (t i : ℕ) : K := ((pathsTo tr t i).map (weightAlong tr 0)).sum

def backward (left j : ℕ) : K :=
  ((pathsFrom tr left j).map (weightAlong tr (tr.numFrames - left))).sum

variable {tr}

section Weights

theorem weightAlong_nil (t : ℕ) : weightAlong tr t [] = 1 := rfl

theorem weightAlong_cons (t : ℕ) (move : Fin degree × ℕ) (moves : List (Fin degree × ℕ)) :
    weightAlong tr t (move :: moves) =
      (tr.stepsInto t move.2 move.1).cost * weightAlong tr (t + 1) moves := by
  simp [weightAlong]

theorem weightAlong_append (t : ℕ) (before after : List (Fin degree × ℕ)) :
    weightAlong tr t (before ++ after) =
      weightAlong tr t before * weightAlong tr (t + before.length) after := by
  simp [weightAlong, List.zipIdx_append]

theorem prod_stepCosts (moves : List (Fin degree × ℕ)) :
    (tr.stepCosts moves).prod = weightAlong tr 0 moves := rfl

end Weights

section Derived

variable {t j : ℕ}

variable (tr t j) in
theorem foldl_derive (k : Fin degree) (l : List ℕ) (out : Fin degree → Step K) :
    let f := fun (out : Fin degree → Step K) advance =>
      if tr.numPositions < j + advance then out
      else fun code =>
        let step := tr.stepsInto t (j + advance) code
        if step.advance = advance ∧ step.cost ≠ 0 then step else out code
    (∃ a ∈ l, j + a ≤ tr.numPositions ∧ (tr.stepsInto t (j + a) k).advance = a ∧
        (tr.stepsInto t (j + a) k).cost ≠ 0 ∧ l.foldl f out k = tr.stepsInto t (j + a) k) ∨
      ((∀ a ∈ l, j + a ≤ tr.numPositions → (tr.stepsInto t (j + a) k).advance = a →
          (tr.stepsInto t (j + a) k).cost = 0) ∧ l.foldl f out k = out k) := by
  intro f
  induction l generalizing out with
  | nil =>
    refine Or.inr ⟨?_, rfl⟩
    intro a ha
    cases ha
  | cons a l ih =>
    rcases ih (f out a) with ⟨b, hb, hrest⟩ | ⟨hnone, heq⟩
    · exact Or.inl ⟨b, List.mem_cons_of_mem _ hb, hrest⟩
    · rw [List.foldl_cons, heq]
      by_cases hfits : j + a ≤ tr.numPositions
      · have hstep : f out a k = if (tr.stepsInto t (j + a) k).advance = a ∧
            (tr.stepsInto t (j + a) k).cost ≠ 0 then tr.stepsInto t (j + a) k else out k := by
          simp only [f, if_neg (Nat.not_lt.mpr hfits)]
        by_cases hthere : (tr.stepsInto t (j + a) k).advance = a ∧
            (tr.stepsInto t (j + a) k).cost ≠ 0
        · rw [if_pos hthere] at hstep
          exact Or.inl ⟨a, List.mem_cons_self, hfits, hthere.1, hthere.2, hstep⟩
        · rw [if_neg hthere] at hstep
          refine Or.inr ⟨?_, hstep⟩
          intro b hb hle hadvance
          rcases List.mem_cons.mp hb with rfl | hb
          · by_contra hcost
            exact hthere ⟨hadvance, hcost⟩
          · exact hnone b hb hle hadvance
      · have hstep : f out a k = out k := by
          simp only [f, if_pos (Nat.lt_of_not_le hfits)]
        refine Or.inr ⟨?_, hstep⟩
        intro b hb hle hadvance
        rcases List.mem_cons.mp hb with rfl | hb
        · exact absurd hle hfits
        · exact hnone b hb hle hadvance

variable (tr) in
/- What is read backwards is a transition that is there, or none. -/
theorem derive_cases (t j : ℕ) (k : Fin degree) :
    (tr.deriveStepsOutOf t j k).cost = 0 ∨
      ∃ i ≤ tr.numPositions, j + (tr.stepsInto t i k).advance = i ∧ (tr.stepsInto t i k).cost ≠ 0 ∧
        tr.deriveStepsOutOf t j k = tr.stepsInto t i k := by
  rcases foldl_derive tr t j k (List.range (tr.reach + 1)) fun _ => ⟨0, 0⟩ with
    ⟨a, -, hle, hadvance, hcost, heq⟩ | ⟨-, heq⟩
  · exact Or.inr ⟨j + a, hle, by rw [hadvance], hcost, heq⟩
  · refine Or.inl ?_
    unfold deriveStepsOutOf
    rw [heq]

/- and each transition that is there is read backwards. -/
theorem derive_eq (hlawful : tr.Lawful (· ≠ 0)) (hunambiguous : Unambiguous tr)
    (ht : t < tr.numFrames) {i : ℕ} (hi : i ≤ tr.numPositions) {k : Fin degree}
    (hcost : (tr.stepsInto t i k).cost ≠ 0) (hlands : j + (tr.stepsInto t i k).advance = i) :
    tr.deriveStepsOutOf t j k = tr.stepsInto t i k := by
  have hreach := hlawful.reach_honest t ht i hi k hcost
  rcases foldl_derive tr t j k (List.range (tr.reach + 1)) fun _ => ⟨0, 0⟩ with
    ⟨a, -, hle, hadvance, hcost', heq⟩ | ⟨hnone, -⟩
  · have hsame := hunambiguous t ht j k i (j + a) hi hle hcost hcost' hlands (by rw [hadvance])
    rw [hsame]
    exact heq
  · exfalso
    have hzero := hnone (tr.stepsInto t i k).advance (List.mem_range.mpr (by omega))
    rw [hlands] at hzero
    exact hcost (hzero hi rfl)

end Derived

variable {moves : List (Fin degree × ℕ)}

section Enumerations

theorem mem_pathsTo {t i : ℕ} :
    moves ∈ pathsTo tr t i ↔ tr.PathTo (· ≠ 0) t i moves := by
  induction t generalizing i moves with
  | zero =>
    unfold pathsTo
    constructor
    · intro h
      split at h
      · next hi =>
        subst hi
        rw [List.mem_singleton.mp h]
        exact .start
      · cases h
    · intro h
      cases h
      simp
  | succ t ih =>
    rw [pathTo_succ]
    simp only [pathsTo, List.mem_flatMap, List.mem_finRange, true_and]
    constructor
    · rintro ⟨k, hk⟩
      split at hk
      · next hthere =>
        obtain ⟨before, hbefore, rfl⟩ := List.mem_map.mp hk
        exact ⟨_, k, before, rfl, ih.mp hbefore, hthere.1, Nat.sub_add_cancel hthere.2⟩
      · cases hk
    · rintro ⟨j, k, before, rfl, hbefore, hpresent, hlands⟩
      refine ⟨k, ?_⟩
      rw [if_pos ⟨hpresent, by omega⟩, show i - (tr.stepsInto t i k).advance = j by omega]
      exact List.mem_map_of_mem (ih.mpr hbefore)

theorem nodup_branches {X : Type} {taken : Fin degree → Prop} [DecidablePred taken]
    {paths : Fin degree → List X} (hnodup : ∀ k, (paths k).Nodup)
    (happart : ∀ k k' p, p ∈ paths k → p ∈ paths k' → k = k') :
    ((List.finRange degree).flatMap fun k => if taken k then paths k else []).Nodup := by
  refine List.nodup_flatMap.mpr ⟨fun k _ => ?_, ?_⟩
  · split
    · exact hnodup k
    · exact List.nodup_nil
  · refine (List.nodup_finRange degree).imp ?_
    intro k k' hne p hp hp'
    dsimp only at hp hp'
    split at hp
    · split at hp'
      · exact hne (happart k k' p hp hp')
      · cases hp'
    · cases hp

theorem nodup_pathsTo (t i : ℕ) : (pathsTo tr t i).Nodup := by
  induction t generalizing i with
  | zero =>
    unfold pathsTo
    split
    · exact List.nodup_singleton _
    · exact List.nodup_nil
  | succ t ih =>
    refine nodup_branches (fun k => (ih _).map fun p q h => List.append_cancel_right h) ?_
    intro k k' moves hmoves hmoves'
    obtain ⟨p, -, rfl⟩ := List.mem_map.mp hmoves
    obtain ⟨q, -, heq⟩ := List.mem_map.mp hmoves'
    exact (Prod.mk.inj (List.cons.inj (List.append_inj_right' heq rfl)).1).1.symm

theorem PathFrom.le {t j : ℕ} (h : PathFrom tr t j moves) :
    j ≤ tr.numPositions := by
  induction h with
  | done => exact le_rfl
  | step k ht hpresent hlands h ih => omega

theorem mem_pathsFrom (hlawful : tr.Lawful (· ≠ 0)) (hunambiguous : Unambiguous tr) {left j : ℕ}
    (hleft : left ≤ tr.numFrames) :
    moves ∈ pathsFrom tr left j ↔ PathFrom tr (tr.numFrames - left) j moves := by
  induction left generalizing j moves with
  | zero =>
    unfold pathsFrom
    rw [Nat.sub_zero]
    constructor
    · intro h
      split at h
      · next hj =>
        rw [hj, List.mem_singleton.mp h]
        exact .done
      · cases h
    · intro h
      cases h with
      | done => simp
      | step k ht hpresent hlands h => exact absurd ht (Nat.lt_irrefl _)
  | succ left ih =>
    simp only [pathsFrom, List.mem_flatMap, List.mem_finRange, true_and]
    obtain ⟨t, ht, hnext, htime⟩ : ∃ t, t < tr.numFrames ∧ tr.numFrames - left = t + 1 ∧
        tr.numFrames - (left + 1) = t := ⟨tr.numFrames - (left + 1), by omega, by omega, rfl⟩
    rw [hnext] at ih
    rw [htime]
    constructor
    · rintro ⟨k, hk⟩
      split at hk
      · next hcost =>
        obtain ⟨rest, hrest, rfl⟩ := List.mem_map.mp hk
        rcases derive_cases tr t j k with hzero | ⟨i, -, hlands, hpresent, heq⟩
        · exact absurd hzero hcost
        · rw [heq, hlands] at hrest ⊢
          exact .step k ht hpresent hlands ((ih (by omega)).mp hrest)
      · cases hk
    · intro h
      cases h with
      | done => exact absurd ht (Nat.lt_irrefl _)
      | step k _ hpresent hlands h =>
        refine ⟨k, ?_⟩
        rw [derive_eq hlawful hunambiguous ht h.le hpresent hlands, if_pos hpresent, hlands]
        exact List.mem_map_of_mem ((ih (by omega)).mpr h)

theorem nodup_pathsFrom (left j : ℕ) : (pathsFrom tr left j).Nodup := by
  induction left generalizing j with
  | zero =>
    unfold pathsFrom
    split
    · exact List.nodup_singleton _
    · exact List.nodup_nil
  | succ left ih =>
    refine nodup_branches (fun k => (ih _).map fun p q h => (List.cons.inj h).2) ?_
    intro k k' moves hmoves hmoves'
    obtain ⟨p, -, rfl⟩ := List.mem_map.mp hmoves
    obtain ⟨q, -, heq⟩ := List.mem_map.mp hmoves'
    exact (Prod.mk.inj (List.cons.inj heq).1).1.symm

end Enumerations

section Recursions

theorem weight_of_pathTo {t i : ℕ} {before after : List (Fin degree × ℕ)}
    (h : tr.PathTo (· ≠ 0) t i before) :
    weightAlong tr 0 (before ++ after) = weightAlong tr 0 before * weightAlong tr t after := by
  rw [weightAlong_append, h.length, Nat.zero_add]

theorem sum_finRange (f : Fin degree → K) : ((List.finRange degree).map f).sum = ∑ k, f k := by
  rw [Fin.sum_univ_def]

theorem forward_zero (i : ℕ) : forward tr 0 i = if i = 0 then 1 else 0 := by
  unfold forward pathsTo
  split
  · simp [weightAlong_nil]
  · rfl

theorem forward_succ (t i : ℕ) :
    forward tr (t + 1) i = ∑ k, if (tr.stepsInto t i k).advance ≤ i then
      forward tr t (i - (tr.stepsInto t i k).advance) * (tr.stepsInto t i k).cost else 0 := by
  rw [forward, pathsTo, List.map_flatMap, List.flatMap_def, List.sum_flatten, List.map_map,
    ← sum_finRange]
  refine congrArg List.sum (List.map_congr_left fun k _ => ?_)
  dsimp only [Function.comp]
  by_cases hthere : (tr.stepsInto t i k).cost ≠ 0 ∧ (tr.stepsInto t i k).advance ≤ i
  · rw [if_pos hthere, if_pos hthere.2, List.map_map, forward, ← List.sum_map_mul_right]
    refine congrArg List.sum (List.map_congr_left fun moves hmoves => ?_)
    dsimp only [Function.comp]
    rw [weight_of_pathTo (mem_pathsTo.mp hmoves), weightAlong_cons, weightAlong_nil, mul_one]
  · rw [if_neg hthere]
    by_cases hle : (tr.stepsInto t i k).advance ≤ i
    · have hcost : (tr.stepsInto t i k).cost = 0 := by
        by_contra hcost
        exact hthere ⟨hcost, hle⟩
      rw [if_pos hle, hcost, mul_zero]
      rfl
    · rw [if_neg hle]
      rfl

theorem backward_zero (j : ℕ) : backward tr 0 j = if j = tr.numPositions then 1 else 0 := by
  unfold backward pathsFrom
  split
  · simp [weightAlong_nil]
  · rfl

theorem backward_succ {t left : ℕ} (ht : t + left + 1 = tr.numFrames) (j : ℕ) :
    backward tr (left + 1) j = ∑ k, (tr.deriveStepsOutOf t j k).cost *
      backward tr left (j + (tr.deriveStepsOutOf t j k).advance) := by
  have htime : tr.numFrames - (left + 1) = t := by omega
  have hnext : tr.numFrames - left = t + 1 := by omega
  rw [backward, pathsFrom, htime, List.map_flatMap, List.flatMap_def, List.sum_flatten,
    List.map_map, ← sum_finRange]
  refine congrArg List.sum (List.map_congr_left fun k _ => ?_)
  dsimp only [Function.comp]
  rcases derive_cases tr t j k with hzero | ⟨i, -, hlands, hpresent, heq⟩
  · rw [hzero, if_neg (not_not.mpr rfl), zero_mul]
    rfl
  · rw [heq, if_pos hpresent, hlands, List.map_map, backward, hnext, ← List.sum_map_mul_left]
    exact congrArg List.sum (List.map_congr_left fun moves _ => weightAlong_cons t _ moves)

end Recursions

section Through

/- The complete paths. -/
def Complete (tr : Trellis K degree) (moves : List (Fin degree × ℕ)) : Prop :=
  tr.PathTo (· ≠ 0) tr.numFrames tr.numPositions moves

theorem complete_append {t j : ℕ} {before after : List (Fin degree × ℕ)}
    (hbefore : tr.PathTo (· ≠ 0) t j before) (hafter : PathFrom tr t j after) :
    Complete tr (before ++ after) := by
  induction hafter generalizing before with
  | done => rwa [List.append_nil]
  | step k ht hpresent hlands h ih =>
    rw [← List.singleton_append, ← List.append_assoc]
    exact ih (.step k hbefore hpresent hlands)

theorem split_complete (h : Complete tr moves) {left : ℕ} (hleft : left ≤ tr.numFrames) :
    ∃ before after j, moves = before ++ after ∧
      tr.PathTo (· ≠ 0) (tr.numFrames - left) j before ∧
      PathFrom tr (tr.numFrames - left) j after := by
  induction left with
  | zero => exact ⟨moves, [], _, (List.append_nil _).symm, h, .done⟩
  | succ left ih =>
    obtain ⟨before, after, i, rfl, hbefore, hafter⟩ := ih (by omega)
    obtain ⟨t, ht, hnext, htime⟩ : ∃ t, t < tr.numFrames ∧ tr.numFrames - left = t + 1 ∧
        tr.numFrames - (left + 1) = t := ⟨tr.numFrames - (left + 1), by omega, by omega, rfl⟩
    rw [hnext] at hbefore hafter
    obtain ⟨j, k, before, rfl, hbefore, hpresent, hlands⟩ := pathTo_succ.mp hbefore
    refine ⟨before, (k, i) :: after, j, by simp, ?_, ?_⟩
    · rwa [htime]
    · rw [htime]
      exact .step k ht hpresent hlands hafter

/- The complete paths through one transition: any way to it, and any way on. -/
theorem complete_through {f i : ℕ} {k : Fin degree} (hf : f < tr.numFrames) :
    Complete tr moves ∧ moves[f]? = some (k, i) ↔
      ∃ before after j, moves = before ++ (k, i) :: after ∧ tr.PathTo (· ≠ 0) f j before ∧
        (tr.stepsInto f i k).cost ≠ 0 ∧ j + (tr.stepsInto f i k).advance = i ∧
        PathFrom tr (f + 1) i after := by
  constructor
  · rintro ⟨hmoves, hget⟩
    obtain ⟨before, after, j, rfl, hbefore, hafter⟩ :=
      split_complete hmoves (show tr.numFrames - f ≤ tr.numFrames by omega)
    rw [show tr.numFrames - (tr.numFrames - f) = f by omega] at hbefore hafter
    rw [List.getElem?_append_right (by rw [hbefore.length]), hbefore.length, Nat.sub_self] at hget
    cases hafter with
    | done => exact absurd hf (Nat.lt_irrefl _)
    | step k' ht hpresent hlands h =>
      rw [List.getElem?_cons_zero] at hget
      obtain ⟨rfl, rfl⟩ := Prod.mk.inj (Option.some.inj hget)
      exact ⟨before, _, j, rfl, hbefore, hpresent, hlands, h⟩
  · rintro ⟨before, after, j, rfl, hbefore, hpresent, hlands, hafter⟩
    refine ⟨complete_append hbefore (.step k hf hpresent hlands hafter), ?_⟩
    rw [List.getElem?_append_right (by rw [hbefore.length]), hbefore.length, Nat.sub_self]
    rfl

theorem finsum_eq_sum {S : Set (List (Fin degree × ℕ))} {l : List (List (Fin degree × ℕ))}
    (hnodup : l.Nodup) (hmem : ∀ moves, moves ∈ l ↔ moves ∈ S)
    (f : List (Fin degree × ℕ) → K) : ∑ᶠ moves ∈ S, f moves = (l.map f).sum := by
  classical
  rw [← List.sum_toFinset _ hnodup]
  have hset : S = ↑l.toFinset := Set.ext fun moves => by
    rw [Finset.mem_coe, List.mem_toFinset, hmem]
  rw [hset, finsum_mem_coe_finset]

theorem sum_complete : ∑ᶠ moves ∈ {moves | Complete tr moves}, (tr.stepCosts moves).prod =
    forward tr tr.numFrames tr.numPositions :=
  finsum_eq_sum (nodup_pathsTo _ _) (fun _ => mem_pathsTo) _

theorem sum_through (hlawful : tr.Lawful (· ≠ 0)) (hunambiguous : Unambiguous tr) {f left i j : ℕ}
    {k : Fin degree} (hf : f + left + 1 = tr.numFrames) (hpresent : (tr.stepsInto f i k).cost ≠ 0)
    (hlands : j + (tr.stepsInto f i k).advance = i) :
    ∑ᶠ moves ∈ {moves | Complete tr moves ∧ moves[f]? = some (k, i)}, (tr.stepCosts moves).prod =
      forward tr f j * (tr.stepsInto f i k).cost * backward tr left i := by
  have hnext : tr.numFrames - left = f + 1 := by omega
  let through := (pathsTo tr f j).flatMap fun before =>
    (pathsFrom tr left i).map fun after => before ++ (k, i) :: after
  have hnodup : through.Nodup := by
    refine List.nodup_flatMap.mpr ⟨fun before _ => (nodup_pathsFrom _ _).map fun p q h =>
      (List.cons.inj (List.append_cancel_left h)).2, ?_⟩
    refine (List.pairwise_iff_forall_sublist.mpr ?_)
    intro before before' hsub moves hmoves hmoves'
    have hmem : ∀ p ∈ [before, before'], p ∈ pathsTo tr f j := fun p hp => hsub.subset hp
    obtain ⟨p, -, rfl⟩ := List.mem_map.mp hmoves
    obtain ⟨q, -, heq⟩ := List.mem_map.mp hmoves'
    have hlen := (mem_pathsTo.mp (hmem before (by simp))).length
    have hlen' := (mem_pathsTo.mp (hmem before' (by simp))).length
    have hsame := List.append_inj_left heq (by rw [hlen, hlen'])
    have hnd := hsub.nodup (nodup_pathsTo f j)
    rw [hsame] at hnd
    simp at hnd
  have hmem : ∀ moves, moves ∈ through ↔
      moves ∈ {moves | Complete tr moves ∧ moves[f]? = some (k, i)} := by
    intro moves
    rw [Set.mem_ofPred_eq, complete_through (by omega)]
    simp only [through, List.mem_flatMap, List.mem_map, mem_pathsTo,
      mem_pathsFrom hlawful hunambiguous (show left ≤ tr.numFrames by omega), hnext]
    constructor
    · rintro ⟨before, hbefore, after, hafter, rfl⟩
      exact ⟨before, after, j, rfl, hbefore, hpresent, hlands, hafter⟩
    · rintro ⟨before, after, j', rfl, hbefore, -, hlands', hafter⟩
      obtain rfl : j = j' := by omega
      exact ⟨before, hbefore, after, hafter, rfl⟩
  rw [finsum_eq_sum hnodup hmem, List.map_flatMap, List.flatMap_def, List.sum_flatten, List.map_map,
    forward, mul_assoc, ← List.sum_map_mul_right]
  refine congrArg List.sum (List.map_congr_left fun before hbefore => ?_)
  dsimp only [Function.comp]
  rw [List.map_map, backward, hnext, ← List.sum_map_mul_left, ← List.sum_map_mul_left]
  refine congrArg List.sum (List.map_congr_left fun after _ => ?_)
  dsimp only [Function.comp]
  rw [prod_stepCosts, weight_of_pathTo (mem_pathsTo.mp hbefore), weightAlong_cons]

end Through

end Sicada.TrellisSums
