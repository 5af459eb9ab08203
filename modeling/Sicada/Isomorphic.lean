import Sicada.VectorFst

namespace Sicada

namespace Isomorphic

variable {L W : Type} [ArcLabel L]

/- Orders arcs for equality checking; weights that are not equal are told apart by their order. -/
def cmpFunc [LinearOrder W] (a1 a2 : Arc L W) : Ordering :=
  match compare a1.ilabel a2.ilabel with
  | .eq =>
    match compare a1.olabel a2.olabel with
    | .eq =>
      if a1.weight = a2.weight then compare a1.nextstate a2.nextstate
      else compare a1.weight a2.weight
    | other => other
  | other => other

def sortArcs [LinearOrder W] (arcs : List (Arc L W)) : List (Arc L W) :=
  arcs.mergeSort fun a1 a2 => (cmpFunc a1 a2).isLE

structure Isomorphism where
  statePairs : ℕ → Option ℕ
  queue : List (ℕ × ℕ)
  nondet : Bool

namespace Isomorphism

variable (iso : Isomorphism)

def new : Isomorphism := ⟨fun _ => none, [], false⟩

def pairState (s1 s2 : ℕ) : Bool × Isomorphism :=
  match iso.statePairs s1 with
  | some existing => (existing = s2, iso)
  | none => (true, { iso with
      statePairs := Function.update iso.statePairs s1 (some s2)
      queue := iso.queue ++ [(s1, s2)] })

/- The loop over the two sorted lists; `previous` is the arc of the first that came before. -/
def compareArcs [DecidableEq W] :
    List (Arc L W × Arc L W) → Option (Arc L W) → Isomorphism → Bool × Isomorphism
  | [], _, iso => (true, iso)
  | (arc1, arc2) :: arcs, previous, iso =>
    if arc1.ilabel ≠ arc2.ilabel ∨ arc1.olabel ≠ arc2.olabel ∨ arc1.weight ≠ arc2.weight then
      (false, iso)
    else
      match iso.pairState arc1.nextstate arc2.nextstate with
      | (false, iso) => (false, iso)
      | (true, iso) =>
        let repeated := previous.any fun arc0 =>
          arc1.ilabel = arc0.ilabel ∧ arc1.olabel = arc0.olabel ∧ arc1.weight = arc0.weight
        compareArcs arcs (some arc1) { iso with nondet := iso.nondet || repeated }

variable [Zero W] [LinearOrder W] (fst1 fst2 : VectorFst L W)

def isIsomorphicState (s1 s2 : ℕ) : Bool × Isomorphism :=
  if fst1.finalWeight s1 ≠ fst2.finalWeight s2 then (false, iso)
  else if fst1.numArcs s1 ≠ fst2.numArcs s2 then (false, iso)
  else compareArcs ((sortArcs (fst1.arcs s1)).zip (sortArcs (fst2.arcs s2))) none iso

/- A `none` is a loop that was cut off by the fuel. -/
def search : ℕ → Isomorphism → Option (Except String Bool)
  | 0, _ => none
  | fuel + 1, iso =>
    match iso.queue with
    | [] => some (.ok true)
    | (state1, state2) :: queue =>
      match isIsomorphicState { iso with queue := queue } fst1 fst2 state1 state2 with
      | (true, iso) => search fuel iso
      | (false, iso) =>
        if iso.nondet then some (.error
          s!"Isomorphic: Non-determinism as an unweighted automaton. state1: {state1} state2: {state2}")
        else some (.ok false)

end Isomorphism

def isomorphic [Zero W] [LinearOrder W] (fst1 fst2 : VectorFst L W) (fuel : ℕ) :
    Option (Except String Bool) :=
  match fst1.start, fst2.start with
  | none, none => some (.ok true)
  | none, some _ => some (.ok false)
  | some _, none => some (.ok false)
  | some s1, some s2 => Isomorphism.search fst1 fst2 fuel (Isomorphism.new.pairState s1 s2).2

end Isomorphic

namespace IsomorphicExact

open Isomorphic

variable {L W : Type} [ArcLabel L]

section Order

variable [LinearOrder W]

/- The order of the arcs as one of tuples. -/
def arcKey (arc : Arc L W) : L ×ₗ L ×ₗ W ×ₗ ℕ :=
  toLex (arc.ilabel, toLex (arc.olabel, toLex (arc.weight, arc.nextstate)))

theorem arcKey_injective : Function.Injective (arcKey : Arc L W → _) := by
  intro a b h
  have hi := congrArg (fun x => (ofLex x).1) h
  have hrest := congrArg (fun x => ofLex (ofLex x).2) h
  have ho := congrArg Prod.fst hrest
  have hrest' := congrArg (fun x => ofLex x.2) hrest
  exact Arc.ext hi ho (congrArg Prod.fst hrest') (congrArg Prod.snd hrest')

theorem isLE_compare {α : Type} [LinearOrder α] (x y : α) : (compare x y).isLE = true ↔ x ≤ y := by
  rw [← Ordering.ne_gt_iff_isLE]
  exact compare_le_iff_le

/- One field decides, or the fields after it do. -/
theorem isLE_then {α : Type} [LinearOrder α] (x y : α) (rest : Ordering) :
    ((compare x y).then rest).isLE = true ↔ x < y ∨ x = y ∧ rest.isLE = true := by
  rcases lt_trichotomy x y with h | h | h
  · simp [compare_lt_iff_lt.mpr h, h, Ordering.then]
  · simp [h, Ordering.then]
  · simp [compare_gt_iff_gt.mpr h, h.ne', h.not_gt, Ordering.then]

theorem cmpFunc_eq (a b : Arc L W) :
    cmpFunc a b = (compare a.ilabel b.ilabel).then ((compare a.olabel b.olabel).then
      (if a.weight = b.weight then compare a.nextstate b.nextstate
        else compare a.weight b.weight)) := by
  unfold cmpFunc
  cases compare a.ilabel b.ilabel <;> cases compare a.olabel b.olabel <;> rfl

theorem isLE_cmpFunc (a b : Arc L W) : (cmpFunc a b).isLE = true ↔ arcKey a ≤ arcKey b := by
  have hlast : (if a.weight = b.weight then compare a.nextstate b.nextstate
      else compare a.weight b.weight).isLE = true ↔
        a.weight < b.weight ∨ a.weight = b.weight ∧ a.nextstate ≤ b.nextstate := by
    by_cases h : a.weight = b.weight
    · simp [h, isLE_compare]
    · simp only [h, if_false, isLE_compare, false_and, or_false, le_iff_lt_or_eq]
  rw [cmpFunc_eq, isLE_then, isLE_then, hlast]
  unfold arcKey
  simp only [Prod.Lex.toLex_le_toLex]

theorem pairwise_sortArcs (arcs : List (Arc L W)) :
    (sortArcs arcs).Pairwise fun a b => arcKey a ≤ arcKey b := by
  have htrans : ∀ a b c : Arc L W,
      (cmpFunc a b).isLE → (cmpFunc b c).isLE → (cmpFunc a c).isLE := by
    intro a b c hab hbc
    rw [isLE_cmpFunc] at hab hbc ⊢
    exact le_trans hab hbc
  have htotal : ∀ a b : Arc L W, (cmpFunc a b).isLE || (cmpFunc b a).isLE := by
    intro a b
    rw [Bool.or_eq_true, isLE_cmpFunc, isLE_cmpFunc]
    exact le_total _ _
  exact (List.pairwise_mergeSort htrans htotal arcs).imp fun h => (isLE_cmpFunc _ _).mp h

/- Arcs are sorted in one way only. -/
theorem sortArcs_eq_of_perm {arcs arcs' : List (Arc L W)} (hperm : arcs.Perm arcs')
    (hsorted : arcs.Pairwise fun a b => arcKey a ≤ arcKey b) : arcs = sortArcs arcs' := by
  apply List.Perm.eq_of_pairwise _ hsorted (pairwise_sortArcs arcs')
    (hperm.trans (List.mergeSort_perm _ _).symm)
  intro a b _ _ hab hba
  exact arcKey_injective (le_antisymm hab hba)

theorem sortArcs_perm (arcs : List (Arc L W)) : (sortArcs arcs).Perm arcs := List.mergeSort_perm _ _

theorem mem_sortArcs {arcs : List (Arc L W)} {arc : Arc L W} : arc ∈ sortArcs arcs ↔ arc ∈ arcs :=
  (sortArcs_perm arcs).mem_iff

end Order

section Spec

variable [Zero W]

/- The states that arcs lead to from the start. -/
inductive Reachable (fst : VectorFst L W) : ℕ → Prop
  | start {s : ℕ} (h : fst.start = some s) : Reachable fst s
  | arc {s : ℕ} {arc : Arc L W} (hs : Reachable fst s) (harc : arc ∈ fst.arcs s) :
      Reachable fst arc.nextstate

/- The arc between the states that `f` maps its states to. -/
def moveArc (f : ℕ → ℕ) (arc : Arc L W) : Arc L W := { arc with nextstate := f arc.nextstate }

/- A bijection between the states that can be reached that keeps the start, the final weights and
the arcs. -/
structure IsIsomorphism (fst1 fst2 : VectorFst L W) (g : ℕ → ℕ) : Prop where
  bijOn : Set.BijOn g {s | Reachable fst1 s} {s | Reachable fst2 s}
  start : fst2.start = fst1.start.map g
  final : ∀ s, Reachable fst1 s → fst2.finalWeight (g s) = fst1.finalWeight s
  arcs : ∀ s, Reachable fst1 s → ((fst1.arcs s).map (moveArc g)).Perm (fst2.arcs (g s))

/- A map that keeps the start, the final weights and the arcs, each taken in the order it is sorted
in; two states may be mapped to one. -/
structure Folds [LinearOrder W] (fst1 fst2 : VectorFst L W) (f : ℕ → ℕ) : Prop where
  start : fst2.start = fst1.start.map f
  final : ∀ s, Reachable fst1 s → fst2.finalWeight (f s) = fst1.finalWeight s
  arcs : ∀ s, Reachable fst1 s →
    (sortArcs (fst1.arcs s)).map (moveArc f) = sortArcs (fst2.arcs (f s))

def labelsWeight (arc : Arc L W) : L × L × W := (arc.ilabel, arc.olabel, arc.weight)

/- No state has two arcs with equal labels and weight. -/
def Deterministic (fst : VectorFst L W) : Prop :=
  ∀ s, ((fst.arcs s).map labelsWeight).Nodup

variable {fst1 fst2 : VectorFst L W} {f g : ℕ → ℕ}

/- There are finitely many states that can be reached. -/
theorem finite_reachable (fst : VectorFst L W) : {s | Reachable fst s}.Finite := by
  let targets := (fst.states.flatMap fun state => state.arcs.map Arc.nextstate).toFinset
  apply Set.Finite.subset (targets ∪ fst.start.toFinset).finite_toSet
  intro s hs
  rw [Finset.coe_union, Set.mem_union]
  cases hs with
  | start h => exact .inr (by simp [h])
  | @arc t arc ht harc =>
    refine .inl ?_
    unfold VectorFst.arcs at harc
    cases hstate : fst.states[t]? with
    | none => simp [hstate] at harc
    | some state =>
      rw [hstate] at harc
      rw [Finset.mem_coe, List.mem_toFinset, List.mem_flatMap]
      exact ⟨state, List.mem_of_getElem? hstate, List.mem_map_of_mem harc⟩

section Folding

variable [LinearOrder W]

theorem Folds.mem_arcs (h : Folds fst1 fst2 f) {s : ℕ} (hs : Reachable fst1 s) :
    ((fst1.arcs s).map (moveArc f)).Perm (fst2.arcs (f s)) := by
  have hperm := ((sortArcs_perm (fst1.arcs s)).map (moveArc f)).symm
  rw [h.arcs s hs] at hperm
  exact hperm.trans (sortArcs_perm _)

theorem Folds.mapsTo (h : Folds fst1 fst2 f) {s : ℕ} (hs : Reachable fst1 s) :
    Reachable fst2 (f s) := by
  induction hs with
  | start hstart => exact .start (by rw [h.start, hstart]; rfl)
  | @arc s arc hs harc ih =>
    have hmoved : moveArc f arc ∈ fst2.arcs (f s) :=
      (h.mem_arcs hs).mem_iff.mp (List.mem_map_of_mem harc)
    exact .arc ih hmoved

theorem Folds.surjOn (h : Folds fst1 fst2 f) :
    Set.SurjOn f {s | Reachable fst1 s} {s | Reachable fst2 s} := by
  intro t ht
  induction ht with
  | @start t hstart =>
    rw [h.start] at hstart
    obtain ⟨s, hs, rfl⟩ := Option.map_eq_some_iff.mp hstart
    exact ⟨s, .start hs, rfl⟩
  | @arc t arc ht harc ih =>
    obtain ⟨s, hs, rfl⟩ := ih
    obtain ⟨arc', harc', rfl⟩ := List.mem_map.mp ((h.mem_arcs hs).mem_iff.mpr harc)
    exact ⟨arc'.nextstate, .arc hs harc', rfl⟩

/- A map that keeps states apart is a bijection. -/
theorem Folds.isIsomorphism (h : Folds fst1 fst2 f)
    (hinj : Set.InjOn f {s | Reachable fst1 s}) : IsIsomorphism fst1 fst2 f :=
  ⟨⟨fun _ hs => h.mapsTo hs, hinj, h.surjOn⟩, h.start, h.final, fun _ hs => h.mem_arcs hs⟩

/- And it keeps states apart when there is a bijection at all, since the states are finitely many. -/
theorem Folds.injOn (h : Folds fst1 fst2 f) (hg : IsIsomorphism fst1 fst2 g) :
    Set.InjOn f {s | Reachable fst1 s} := by
  have himage : f '' {s | Reachable fst1 s} = {s | Reachable fst2 s} :=
    Set.Subset.antisymm (Set.image_subset_iff.mpr fun _ hs => h.mapsTo hs) h.surjOn
  apply Set.injOn_of_ncard_image_eq _ (finite_reachable fst1)
  rw [himage, hg.bijOn.ncard_eq]

theorem arcKey_moveArc_le (g : ℕ → ℕ) {a b : Arc L W} (hle : arcKey a ≤ arcKey b)
    (hne : labelsWeight a ≠ labelsWeight b) : arcKey (moveArc g a) ≤ arcKey (moveArc g b) := by
  unfold arcKey at hle ⊢
  simp only [Prod.Lex.toLex_le_toLex] at hle ⊢
  rcases hle with hi | ⟨hi, ho | ⟨ho, hw | ⟨hw, -⟩⟩⟩
  · exact .inl hi
  · exact .inr ⟨hi, .inl ho⟩
  · exact .inr ⟨hi, .inr ⟨ho, .inl hw⟩⟩
  · exact absurd (Prod.ext hi (Prod.ext ho hw)) hne

/- Where arcs are told apart by labels and weight they are sorted alike on both sides. -/
theorem IsIsomorphism.folds (hg : IsIsomorphism fst1 fst2 g) (hdet : Deterministic fst1) :
    Folds fst1 fst2 g := by
  refine ⟨hg.start, hg.final, fun s hs => ?_⟩
  apply sortArcs_eq_of_perm
  · exact ((sortArcs_perm _).map _).trans (hg.arcs s hs)
  · have hnodup : (sortArcs (fst1.arcs s)).Pairwise fun a b => labelsWeight a ≠ labelsWeight b := by
      rw [← List.pairwise_map]
      exact ((sortArcs_perm (fst1.arcs s)).map labelsWeight).nodup_iff.mpr (hdet s)
    rw [List.pairwise_map]
    exact ((pairwise_sortArcs _).and hnodup).imp fun h => arcKey_moveArc_le g h.1 h.2

end Folding

end Spec

section Search

open Isomorphism

variable [Zero W] [LinearOrder W] {fst1 fst2 : VectorFst L W} {iso iso' iso'' : Isomorphism}

variable {arcs : List (Arc L W × Arc L W)} {previous : Option (Arc L W)} {f : ℕ → ℕ}

section Pairing

/- Pairs are only added, and those that are new wait in the queue. -/
structure Extends (iso iso' : Isomorphism) : Prop where
  pairs : ∀ s t, iso.statePairs s = some t → iso'.statePairs s = some t
  queue : ∀ p ∈ iso.queue, p ∈ iso'.queue
  waiting : ∀ s t, iso'.statePairs s = some t → iso.statePairs s = some t ∨ (s, t) ∈ iso'.queue
  paired : ∀ p ∈ iso'.queue, p ∈ iso.queue ∨ iso'.statePairs p.1 = some p.2

theorem Extends.refl (iso : Isomorphism) : Extends iso iso :=
  ⟨fun _ _ => id, fun _ => id, fun _ _ => .inl, fun _ => .inl⟩

theorem Extends.trans (h : Extends iso iso') (h' : Extends iso' iso'') : Extends iso iso'' := by
  refine ⟨fun s t hs => h'.pairs s t (h.pairs s t hs), fun p hp => h'.queue p (h.queue p hp), ?_, ?_⟩
  · intro s t hs
    rcases h'.waiting s t hs with hold | hnew
    · exact (h.waiting s t hold).imp_right (h'.queue _)
    · exact .inr hnew
  · intro p hp
    rcases h'.paired p hp with hold | hnew
    · exact (h.paired p hold).imp_right (h'.pairs _ _)
    · exact .inr hnew

theorem pairState_extends {s1 s2 : ℕ} (h : iso.pairState s1 s2 = (true, iso')) :
    Extends iso iso' ∧ iso'.statePairs s1 = some s2 ∧
      (∀ s t, iso'.statePairs s = some t → iso.statePairs s = some t ∨ s = s1) := by
  unfold Isomorphism.pairState at h
  split at h
  · next existing hexisting =>
    obtain ⟨hsame, rfl⟩ := Prod.mk.inj h
    refine ⟨.refl _, ?_, fun _ _ => .inl⟩
    rw [hexisting, of_decide_eq_true hsame]
  · next hnone =>
    obtain ⟨-, rfl⟩ := Prod.mk.inj h
    refine ⟨⟨?_, ?_, ?_, ?_⟩, by simp, ?_⟩
    · intro s t hs
      have hne : s ≠ s1 := fun heq => by rw [heq, hnone] at hs; cases hs
      dsimp only
      rwa [Function.update_of_ne hne]
    · exact fun p hp => List.mem_append_left _ hp
    · intro s t hs
      dsimp only at hs ⊢
      rw [Function.update_apply] at hs
      split at hs
      · next heq =>
        cases hs
        rw [heq]
        exact .inr (List.mem_append_right _ List.mem_cons_self)
      · exact .inl hs
    · intro p hp
      rcases List.mem_append.mp hp with hold | hnew
      · exact .inl hold
      · rw [List.mem_singleton.mp hnew]
        exact .inr (by simp)
    · intro s t hs
      dsimp only at hs
      rw [Function.update_apply] at hs
      split at hs
      · next heq => exact .inr heq
      · exact .inl hs

/- Two arcs that may be taken for each other. -/
structure Matched (pairs : ℕ → Option ℕ) (a1 a2 : Arc L W) : Prop where
  ilabel : a1.ilabel = a2.ilabel
  olabel : a1.olabel = a2.olabel
  weight : a1.weight = a2.weight
  nextstate : pairs a1.nextstate = some a2.nextstate

theorem compareArcs_extends (h : compareArcs arcs previous iso = (true, iso')) :
    Extends iso iso' ∧ (∀ p ∈ arcs, Matched iso'.statePairs p.1 p.2) ∧
      (∀ s t, iso'.statePairs s = some t →
        iso.statePairs s = some t ∨ ∃ p ∈ arcs, s = p.1.nextstate) := by
  induction arcs generalizing previous iso with
  | nil =>
    cases h
    exact ⟨.refl _, fun p hp => (by cases hp), fun _ _ => .inl⟩
  | cons p arcs ih =>
    obtain ⟨arc1, arc2⟩ := p
    unfold compareArcs at h
    split at h
    · cases h
    next hsame =>
    push Not at hsame
    split at h
    · cases h
    · next iso1 hpair =>
      obtain ⟨hextends, hpaired, hdomain⟩ := pairState_extends hpair
      obtain ⟨hextends', hmatched, hdomain'⟩ := ih h
      have hall : Extends iso iso' :=
        hextends.trans ⟨hextends'.pairs, hextends'.queue, hextends'.waiting, hextends'.paired⟩
      refine ⟨hall, ?_, ?_⟩
      · intro q hq
        rcases List.mem_cons.mp hq with rfl | hq
        · exact ⟨hsame.1, hsame.2.1, hsame.2.2, hextends'.pairs _ _ hpaired⟩
        · exact hmatched q hq
      · intro s t hs
        rcases hdomain' s t hs with hold | ⟨q, hq, heq⟩
        · rcases hdomain s t hold with hold | heq
          · exact .inl hold
          · exact .inr ⟨_, List.mem_cons_self, heq⟩
        · exact .inr ⟨q, List.mem_cons_of_mem _ hq, heq⟩

/- What is paired by a map stays so, and arcs that are mapped to each other are matched. -/
theorem pairState_of_map (hpairs : ∀ s t, iso.statePairs s = some t → t = f s) (s : ℕ) :
    ∃ iso', iso.pairState s (f s) = (true, iso') ∧
      ∀ u t, iso'.statePairs u = some t → t = f u := by
  unfold Isomorphism.pairState
  split
  · next existing hexisting =>
    refine ⟨iso, ?_, hpairs⟩
    rw [decide_eq_true (hpairs s existing hexisting)]
  · refine ⟨_, rfl, ?_⟩
    intro u t hu
    dsimp only at hu
    rw [Function.update_apply] at hu
    split at hu
    · next heq =>
      cases hu
      rw [heq]
    · exact hpairs u t hu

theorem compareArcs_of_map (hpairs : ∀ s t, iso.statePairs s = some t → t = f s)
    (harcs : ∀ p ∈ arcs, p.2 = moveArc f p.1) :
    ∃ iso', compareArcs arcs previous iso = (true, iso') ∧
      ∀ u t, iso'.statePairs u = some t → t = f u := by
  induction arcs generalizing previous iso with
  | nil => exact ⟨iso, rfl, hpairs⟩
  | cons p arcs ih =>
    obtain ⟨arc1, arc2⟩ := p
    obtain rfl : arc2 = moveArc f arc1 := harcs _ List.mem_cons_self
    obtain ⟨iso1, hpair, hpairs1⟩ := pairState_of_map hpairs arc1.nextstate
    have hpair' : iso.pairState arc1.nextstate (moveArc f arc1).nextstate = (true, iso1) := hpair
    unfold compareArcs
    rw [if_neg (by simp [moveArc]), hpair']
    exact ih hpairs1 fun q hq => harcs q (List.mem_cons_of_mem _ hq)

end Pairing

section States

/- The two states agree as far as the pairs go. -/
structure Checked (fst1 fst2 : VectorFst L W) (pairs : ℕ → Option ℕ) (s1 s2 : ℕ) : Prop where
  final : fst1.finalWeight s1 = fst2.finalWeight s2
  arcs : List.Forall₂ (Matched pairs) (sortArcs (fst1.arcs s1)) (sortArcs (fst2.arcs s2))

theorem length_sortArcs (fst : VectorFst L W) (s : ℕ) :
    (sortArcs (fst.arcs s)).length = fst.numArcs s :=
  (sortArcs_perm _).length_eq.trans (VectorFst.numArcs_eq fst s).symm

theorem isIsomorphicState_checked {s1 s2 : ℕ}
    (h : isIsomorphicState iso fst1 fst2 s1 s2 = (true, iso')) :
    Extends iso iso' ∧ Checked fst1 fst2 iso'.statePairs s1 s2 := by
  unfold isIsomorphicState at h
  split at h
  · cases h
  next hfinal =>
  split at h
  · cases h
  next hnumArcs =>
  obtain ⟨hextends, hmatched, -⟩ := compareArcs_extends h
  refine ⟨hextends, not_not.mp hfinal, ?_⟩
  rw [List.forall₂_iff_zip]
  refine ⟨?_, fun hp => hmatched _ hp⟩
  rw [length_sortArcs, length_sortArcs, not_not.mp hnumArcs]

theorem isIsomorphicState_extends {s1 s2 : ℕ}
    (h : isIsomorphicState iso fst1 fst2 s1 s2 = (true, iso')) :
    Extends iso iso' ∧ ∀ s t, iso'.statePairs s = some t →
      iso.statePairs s = some t ∨ ∃ arc ∈ fst1.arcs s1, s = arc.nextstate := by
  unfold isIsomorphicState at h
  split at h
  · cases h
  split at h
  · cases h
  obtain ⟨hextends, -, hdomain⟩ := compareArcs_extends h
  refine ⟨hextends, fun s t hs => (hdomain s t hs).imp_right ?_⟩
  rintro ⟨p, hp, heq⟩
  exact ⟨p.1, mem_sortArcs.mp (List.of_mem_zip hp).1, heq⟩

variable (iso) in
theorem isIsomorphicState_of_folds {f : ℕ → ℕ} (hf : Folds fst1 fst2 f) {s : ℕ}
    (hs : Reachable fst1 s) (hpairs : ∀ u t, iso.statePairs u = some t → t = f u) :
    ∃ iso', isIsomorphicState iso fst1 fst2 s (f s) = (true, iso') ∧
      ∀ u t, iso'.statePairs u = some t → t = f u := by
  have harcs := hf.arcs s hs
  have hlength := congrArg List.length harcs
  rw [List.length_map, length_sortArcs, length_sortArcs] at hlength
  unfold isIsomorphicState
  rw [if_neg (not_not.mpr (hf.final s hs).symm), if_neg (not_not.mpr hlength), ← harcs]
  apply compareArcs_of_map hpairs
  intro p hp
  rw [← List.map_id (sortArcs (fst1.arcs s)), List.map_map, List.zip_map'] at hp
  obtain ⟨arc, -, rfl⟩ := List.mem_map.mp hp
  rfl

end States

section Fuel

variable {states : Finset ℕ}

/- What is waiting, in the queue or to be paired. -/
def waiting (states : Finset ℕ) (iso : Isomorphism) : ℕ :=
  iso.queue.length + (states.filter fun s => iso.statePairs s = none).card

theorem waiting_pairState {s1 s2 : ℕ} (hs : s1 ∈ states)
    (h : iso.pairState s1 s2 = (true, iso')) : waiting states iso' = waiting states iso := by
  unfold Isomorphism.pairState at h
  split at h
  · obtain ⟨-, rfl⟩ := Prod.mk.inj h
    rfl
  · next hnone =>
    obtain ⟨-, rfl⟩ := Prod.mk.inj h
    have herase : (states.filter fun s => Function.update iso.statePairs s1 (some s2) s = none) =
        (states.filter fun s => iso.statePairs s = none).erase s1 := by
      ext s
      rw [Finset.mem_erase, Finset.mem_filter, Finset.mem_filter, Function.update_apply]
      by_cases heq : s = s1 <;> simp [heq]
    have hmem : s1 ∈ states.filter fun s => iso.statePairs s = none :=
      Finset.mem_filter.mpr ⟨hs, hnone⟩
    have hpos := Finset.card_pos.mpr ⟨s1, hmem⟩
    unfold waiting
    dsimp only
    rw [herase, Finset.card_erase_of_mem hmem, List.length_append, List.length_singleton]
    omega

theorem waiting_compareArcs (harcs : ∀ p ∈ arcs, p.1.nextstate ∈ states)
    (h : compareArcs arcs previous iso = (true, iso')) :
    waiting states iso' = waiting states iso := by
  induction arcs generalizing previous iso with
  | nil =>
    cases h
    rfl
  | cons p arcs ih =>
    obtain ⟨arc1, arc2⟩ := p
    unfold compareArcs at h
    split at h
    · cases h
    split at h
    · cases h
    · next iso1 hpair =>
      have hrest := ih (fun q hq => harcs q (List.mem_cons_of_mem _ hq)) h
      have hfirst : waiting states iso1 = waiting states iso :=
        waiting_pairState (harcs _ List.mem_cons_self) hpair
      exact hrest.trans hfirst

theorem waiting_isIsomorphicState {s1 s2 : ℕ} (hstates : ∀ s, Reachable fst1 s → s ∈ states)
    (hs : Reachable fst1 s1) (h : isIsomorphicState iso fst1 fst2 s1 s2 = (true, iso')) :
    waiting states iso' = waiting states iso := by
  unfold isIsomorphicState at h
  split at h
  · cases h
  split at h
  · cases h
  exact waiting_compareArcs
    (fun p hp => hstates _ (.arc hs (mem_sortArcs.mp (List.of_mem_zip hp).1))) h

/- A pair is taken from the queue in each round, so the loop comes to its end. -/
variable (fst2) in
theorem search_terminates (hstates : ∀ s, Reachable fst1 s → s ∈ states)
    (hpairs : ∀ s t, iso.statePairs s = some t → Reachable fst1 s)
    (hqueue : ∀ p ∈ iso.queue, Reachable fst1 p.1) {fuel : ℕ} (hfuel : waiting states iso < fuel) :
    ∃ r, search fst1 fst2 fuel iso = some r := by
  induction fuel generalizing iso with
  | zero => omega
  | succ fuel ih =>
    unfold search
    cases hnext : iso.queue with
    | nil => exact ⟨_, rfl⟩
    | cons p queue =>
      obtain ⟨s1, s2⟩ := p
      have hs1 : Reachable fst1 s1 := hqueue (s1, s2) (by rw [hnext]; exact List.mem_cons_self)
      dsimp only
      cases hcheck : isIsomorphicState { iso with queue := queue } fst1 fst2 s1 s2 with
      | mk ok iso1 =>
        cases ok with
        | false =>
          dsimp only
          split <;> exact ⟨_, rfl⟩
        | true =>
          obtain ⟨hextends, hdomain⟩ := isIsomorphicState_extends hcheck
          have hsame := waiting_isIsomorphicState hstates hs1 hcheck
          have hless : waiting states { iso with queue := queue } + 1 = waiting states iso := by
            unfold waiting
            rw [hnext, List.length_cons]
            dsimp only
            omega
          have hpairs1 : ∀ s t, iso1.statePairs s = some t → Reachable fst1 s := by
            intro s t hst
            rcases hdomain s t hst with hold | ⟨arc, harc, rfl⟩
            · exact hpairs s t hold
            · exact .arc hs1 harc
          apply ih hpairs1 _ (by omega)
          intro q hq
          rcases hextends.paired q hq with hold | hpaired
          · exact hqueue q (by rw [hnext]; exact List.mem_cons_of_mem _ hold)
          · exact hpairs1 _ _ hpaired

theorem search_mono {fuel fuel' : ℕ} (hle : fuel ≤ fuel') {r : Except String Bool}
    (h : search fst1 fst2 fuel iso = some r) : search fst1 fst2 fuel' iso = some r := by
  induction fuel generalizing iso fuel' with
  | zero => cases h
  | succ fuel ih =>
    obtain ⟨fuel', rfl⟩ : ∃ n, fuel' = n + 1 := ⟨fuel' - 1, by omega⟩
    unfold search at h ⊢
    cases hnext : iso.queue with
    | nil => rwa [hnext] at h
    | cons p queue =>
      rw [hnext] at h
      dsimp only at h ⊢
      cases hcheck : isIsomorphicState { iso with queue := queue } fst1 fst2 p.1 p.2 with
      | mk ok iso1 =>
        rw [hcheck] at h
        cases ok with
        | false => exact h
        | true => exact ih (by omega) h

end Fuel

section Results

theorem forall₂_getElem?_left {A B : Type} {R : A → B → Prop} {xs : List A} {ys : List B}
    (h : List.Forall₂ R xs ys) {i : ℕ} {x : A} (hx : xs[i]? = some x) :
    ∃ y, ys[i]? = some y ∧ R x y := by
  induction h generalizing i with
  | nil => simp at hx
  | cons hfirst _ ih =>
    cases i with
    | zero =>
      obtain rfl := Option.some.inj hx
      exact ⟨_, rfl, hfirst⟩
    | succ i => exact ih hx

theorem Matched.mono {pairs pairs' : ℕ → Option ℕ} {a1 a2 : Arc L W} (h : Matched pairs a1 a2)
    (hpairs : ∀ s t, pairs s = some t → pairs' s = some t) : Matched pairs' a1 a2 :=
  ⟨h.ilabel, h.olabel, h.weight, hpairs _ _ h.nextstate⟩

theorem Checked.mono {pairs pairs' : ℕ → Option ℕ} {s1 s2 : ℕ} (h : Checked fst1 fst2 pairs s1 s2)
    (hpairs : ∀ s t, pairs s = some t → pairs' s = some t) : Checked fst1 fst2 pairs' s1 s2 :=
  ⟨h.final, h.arcs.imp fun _ _ hmatched => hmatched.mono hpairs⟩

/- A pair is checked, or waits for it. -/
structure Pairing (fst1 fst2 : VectorFst L W) (iso : Isomorphism) : Prop where
  checked : ∀ s t, iso.statePairs s = some t →
    (s, t) ∈ iso.queue ∨ Checked fst1 fst2 iso.statePairs s t
  paired : ∀ p ∈ iso.queue, iso.statePairs p.1 = some p.2

theorem pairing_of_true {s1 s2 : ℕ} {queue : List (ℕ × ℕ)} (h : Pairing fst1 fst2 iso)
    (hqueue : iso.queue = (s1, s2) :: queue)
    (hcheck : isIsomorphicState { iso with queue := queue } fst1 fst2 s1 s2 = (true, iso')) :
    Pairing fst1 fst2 iso' := by
  obtain ⟨hextends, hchecked⟩ := isIsomorphicState_checked hcheck
  constructor
  · intro s t hs
    rcases hextends.waiting s t hs with hold | hnew
    · rcases h.checked s t hold with hwaits | hdone
      · rw [hqueue] at hwaits
        rcases List.mem_cons.mp hwaits with heq | hrest
        · cases heq
          exact .inr hchecked
        · exact .inl (hextends.queue _ hrest)
      · exact .inr (hdone.mono hextends.pairs)
    · exact .inl hnew
  · intro p hp
    rcases hextends.paired p hp with hold | hnew
    · exact hextends.pairs _ _ (h.paired p (by rw [hqueue]; exact List.mem_cons_of_mem _ hold))
    · exact hnew

theorem search_true {fuel : ℕ} (h : Pairing fst1 fst2 iso)
    (hsearch : search fst1 fst2 fuel iso = some (.ok true)) :
    ∃ pairs : ℕ → Option ℕ, (∀ s t, iso.statePairs s = some t → pairs s = some t) ∧
      ∀ s t, pairs s = some t → Checked fst1 fst2 pairs s t := by
  induction fuel generalizing iso with
  | zero => cases hsearch
  | succ fuel ih =>
    unfold search at hsearch
    cases hqueue : iso.queue with
    | nil =>
      refine ⟨iso.statePairs, fun _ _ => id, fun s t hs => ?_⟩
      rcases h.checked s t hs with hwaits | hdone
      · rw [hqueue] at hwaits
        cases hwaits
      · exact hdone
    | cons p queue =>
      rw [hqueue] at hsearch
      dsimp only at hsearch
      cases hcheck : isIsomorphicState { iso with queue := queue } fst1 fst2 p.1 p.2 with
      | mk ok iso1 =>
        rw [hcheck] at hsearch
        cases ok with
        | false =>
          dsimp only at hsearch
          split at hsearch <;> cases hsearch
        | true =>
          obtain ⟨pairs, hextends, hchecked⟩ := ih (pairing_of_true h hqueue hcheck) hsearch
          have hfirst := (isIsomorphicState_checked hcheck).1
          exact ⟨pairs, fun s t hs => hextends s t (hfirst.pairs s t hs), hchecked⟩

theorem search_of_folds (hf : Folds fst1 fst2 f) {fuel : ℕ} {r : Except String Bool}
    (hpairs : ∀ u t, iso.statePairs u = some t → t = f u)
    (hreach : ∀ u t, iso.statePairs u = some t → Reachable fst1 u)
    (hpaired : ∀ p ∈ iso.queue, iso.statePairs p.1 = some p.2)
    (hsearch : search fst1 fst2 fuel iso = some r) : r = .ok true := by
  induction fuel generalizing iso with
  | zero => cases hsearch
  | succ fuel ih =>
    unfold search at hsearch
    cases hqueue : iso.queue with
    | nil =>
      rw [hqueue] at hsearch
      exact (Option.some.inj hsearch).symm
    | cons p queue =>
      obtain ⟨s1, s2⟩ := p
      have hp := hpaired (s1, s2) (by rw [hqueue]; exact List.mem_cons_self)
      have hs1 := hreach _ _ hp
      obtain rfl : s2 = f s1 := hpairs _ _ hp
      obtain ⟨iso1, hcheck, hpairs1⟩ :=
        isIsomorphicState_of_folds { iso with queue := queue } hf hs1 hpairs
      obtain ⟨hextends, hdomain⟩ := isIsomorphicState_extends hcheck
      rw [hqueue] at hsearch
      dsimp only at hsearch
      rw [hcheck] at hsearch
      apply ih hpairs1 _ _ hsearch
      · intro u t hu
        rcases hdomain u t hu with hold | ⟨arc, harc, rfl⟩
        · exact hreach u t hold
        · exact .arc hs1 harc
      · intro q hq
        rcases hextends.paired q hq with hold | hnew
        · exact hextends.pairs _ _ (hpaired q (by rw [hqueue]; exact List.mem_cons_of_mem _ hold))
        · exact hnew

/- What is returned, with fuel enough. -/
def Returns (fst1 fst2 : VectorFst L W) (r : Except String Bool) : Prop :=
  ∃ bound, ∀ fuel, bound ≤ fuel → isomorphic fst1 fst2 fuel = some r

theorem new_pairState (s1 s2 : ℕ) : (Isomorphism.new.pairState s1 s2).2 =
    ⟨Function.update (fun _ => none) s1 (some s2), [(s1, s2)], false⟩ := rfl

theorem new_pairs {s1 s2 s t : ℕ}
    (h : (Isomorphism.new.pairState s1 s2).2.statePairs s = some t) : s = s1 ∧ t = s2 := by
  rw [new_pairState] at h
  dsimp only at h
  rw [Function.update_apply] at h
  split at h
  · next heq => exact ⟨heq, (Option.some.inj h).symm⟩
  · cases h

theorem isomorphic_terminates (fst1 fst2 : VectorFst L W) : ∃ r, Returns fst1 fst2 r := by
  unfold Returns isomorphic
  cases h1 : fst1.start with
  | none => cases h2 : fst2.start <;> exact ⟨_, 0, fun _ _ => rfl⟩
  | some s1 =>
    cases h2 : fst2.start with
    | none => exact ⟨_, 0, fun _ _ => rfl⟩
    | some s2 =>
      have hs1 : Reachable fst1 s1 := .start h1
      have hstates : ∀ s, Reachable fst1 s → s ∈ (finite_reachable fst1).toFinset := fun s hs =>
        (Set.Finite.mem_toFinset _).mpr hs
      obtain ⟨r, hr⟩ := search_terminates fst2 hstates
        (fun s t hs => (new_pairs hs).1 ▸ hs1)
        (fun p hp => by rw [new_pairState] at hp; rw [List.mem_singleton.mp hp]; exact hs1)
        (Nat.lt_succ_self _)
      exact ⟨r, _, fun fuel hle => search_mono hle hr⟩

theorem returns_true_of_folds (hf : Folds fst1 fst2 f) :
    Returns fst1 fst2 (.ok true) := by
  obtain ⟨r, bound, hr⟩ := isomorphic_terminates fst1 fst2
  suffices htrue : r = .ok true by
    subst htrue
    exact ⟨bound, hr⟩
  have hlast := hr bound (Nat.le_refl _)
  unfold isomorphic at hlast
  cases h1 : fst1.start with
  | none =>
    have h2 := hf.start
    rw [h1] at h2
    rw [h1, h2] at hlast
    exact (Option.some.inj hlast).symm
  | some s1 =>
    have h2 := hf.start
    rw [h1] at h2
    rw [h1, h2] at hlast
    apply search_of_folds hf _ _ _ hlast
    · intro u t hu
      obtain ⟨rfl, rfl⟩ := new_pairs hu
      rfl
    · intro u t hu
      obtain ⟨rfl, -⟩ := new_pairs hu
      exact .start h1
    · intro p hp
      rw [new_pairState] at hp ⊢
      rw [List.mem_singleton.mp hp]
      simp

theorem folds_of_returns_true (h : Returns fst1 fst2 (.ok true)) : ∃ f, Folds fst1 fst2 f := by
  obtain ⟨bound, hbound⟩ := h
  have hlast := hbound bound (Nat.le_refl _)
  unfold isomorphic at hlast
  cases h1 : fst1.start with
  | none =>
    have hnot : ∀ s, ¬ Reachable fst1 s := by
      intro s hs
      induction hs with
      | start h =>
        rw [h1] at h
        cases h
      | arc _ _ ih => exact ih
    cases h2 : fst2.start with
    | none =>
      exact ⟨id, by rw [h1, h2]; rfl, fun s hs => absurd hs (hnot s), fun s hs => absurd hs (hnot s)⟩
    | some s2 =>
      rw [h1, h2] at hlast
      cases hlast
  | some s1 =>
    cases h2 : fst2.start with
    | none =>
      rw [h1, h2] at hlast
      cases hlast
    | some s2 =>
      rw [h1, h2] at hlast
      have hpairing : Pairing fst1 fst2 (Isomorphism.new.pairState s1 s2).2 := by
        constructor
        · intro s t hs
          obtain ⟨rfl, rfl⟩ := new_pairs hs
          exact .inl List.mem_cons_self
        · intro p hp
          rw [new_pairState] at hp ⊢
          rw [List.mem_singleton.mp hp]
          simp
      obtain ⟨pairs, hextends, hchecked⟩ := search_true hpairing hlast
      have hstart : pairs s1 = some s2 := hextends s1 s2 (by rw [new_pairState]; simp)
      have hsome : ∀ s, Reachable fst1 s → ∃ t, pairs s = some t := by
        intro s hs
        induction hs with
        | start h =>
          rw [h1] at h
          cases h
          exact ⟨s2, hstart⟩
        | @arc s arc hs harc ih =>
          obtain ⟨t, ht⟩ := ih
          obtain ⟨i, hi⟩ := List.mem_iff_getElem?.mp (mem_sortArcs.mpr harc)
          obtain ⟨arc', -, hmatched⟩ := forall₂_getElem?_left (hchecked s t ht).arcs hi
          exact ⟨_, hmatched.nextstate⟩
      refine ⟨fun s => (pairs s).getD 0, ?_, ?_, ?_⟩
      · rw [h1, h2, Option.map_some, hstart]
        rfl
      · intro s hs
        obtain ⟨t, ht⟩ := hsome s hs
        rw [ht]
        exact (hchecked s t ht).final.symm
      · intro s hs
        obtain ⟨t, ht⟩ := hsome s hs
        rw [ht]
        have harcs := (hchecked s t ht).arcs
        rw [Option.getD_some, ← List.forall₂_eq_eq_eq, List.forall₂_map_left_iff]
        apply harcs.imp
        intro a1 a2 hmatched
        have hnext : (moveArc (fun s => (pairs s).getD 0) a1).nextstate = a2.nextstate := by
          change (pairs a1.nextstate).getD 0 = a2.nextstate
          rw [hmatched.nextstate]
          rfl
        exact Arc.ext hmatched.ilabel hmatched.olabel hmatched.weight hnext

end Results

end Search

section Claim

variable [Zero W] [LinearOrder W]

/- There are no false positives, and the answer is right for deterministic FSTs, when no two states
are folded into one. -/
theorem isomorphic_iff (fst1 fst2 : VectorFst L W) :
    (∃ r, Returns fst1 fst2 r) ∧
      (((Returns fst1 fst2 (.ok true) → ∃ g, IsIsomorphism fst1 fst2 g) ∧
          (Deterministic fst1 → Deterministic fst2 →
            (Returns fst1 fst2 (.ok true) ↔ ∃ g, IsIsomorphism fst1 fst2 g))) ↔
        ∀ f, Folds fst1 fst2 f → Set.InjOn f {s | Reachable fst1 s}) := by
  refine ⟨isomorphic_terminates fst1 fst2, ?_⟩
  constructor
  · rintro ⟨hpositive, -⟩ f hf
    obtain ⟨g, hg⟩ := hpositive (returns_true_of_folds hf)
    exact hf.injOn hg
  · intro hinj
    have hpositive : Returns fst1 fst2 (.ok true) → ∃ g, IsIsomorphism fst1 fst2 g := by
      intro htrue
      obtain ⟨f, hf⟩ := folds_of_returns_true htrue
      exact ⟨f, hf.isIsomorphism (hinj f hf)⟩
    refine ⟨hpositive, fun hdet _ => ⟨hpositive, ?_⟩⟩
    rintro ⟨g, hg⟩
    exact returns_true_of_folds (hg.folds hdet)

/- Two final states, each by an arc of its own. -/
def forkFst : VectorFst ℤ ℕ :=
  ⟨[⟨0, [⟨1, 1, 1, 1⟩, ⟨2, 2, 1, 2⟩], 0, 0⟩, ⟨1, [], 0, 0⟩, ⟨1, [], 0, 0⟩], some 0, 0⟩

/- One final state that both arcs lead to. -/
def joinFst : VectorFst ℤ ℕ :=
  ⟨[⟨0, [⟨1, 1, 1, 1⟩, ⟨2, 2, 1, 1⟩], 0, 0⟩, ⟨1, [], 0, 0⟩], some 0, 0⟩

/- Arcs that are sorted already. -/
theorem sortArcs_arcs (fst : VectorFst ℤ ℕ)
    (h : ∀ s < fst.numStates, (fst.arcs s).Pairwise fun a b => arcKey a ≤ arcKey b) (s : ℕ) :
    sortArcs (fst.arcs s) = fst.arcs s := by
  symm
  apply sortArcs_eq_of_perm (List.Perm.refl _)
  by_cases hs : s < fst.numStates
  · exact h s hs
  · rw [VectorFst.arcs_of_le (Nat.le_of_not_lt hs)]
    exact List.Pairwise.nil

theorem folds_fork_join : Folds forkFst joinFst fun s => min s 1 := by
  have hfork := sortArcs_arcs forkFst (by decide)
  have hjoin := sortArcs_arcs joinFst (by decide)
  have hlt : ∀ s, Reachable forkFst s → s < 3 := by
    intro s hs
    induction hs with
    | start h =>
      cases h
      decide
    | @arc s arc hs harc ih =>
      have hnext : ∀ s < 3, ∀ arc ∈ forkFst.arcs s, arc.nextstate < 3 := by decide
      exact hnext s ih arc harc
  refine ⟨rfl, ?_, ?_⟩
  · intro s hs
    have hall : ∀ s < 3, joinFst.finalWeight (min s 1) = forkFst.finalWeight s := by decide
    exact hall s (hlt s hs)
  · intro s hs
    rw [hfork, hjoin]
    have hall : ∀ s < 3, (forkFst.arcs s).map (moveArc fun s => min s 1) =
        joinFst.arcs (min s 1) := by decide
    exact hall s (hlt s hs)

/- Two states of the one are paired with the same state of the other. -/
theorem isomorphic_fork_join :
    Returns forkFst joinFst (.ok true) ∧ Deterministic forkFst ∧ Deterministic joinFst ∧
      ¬ ∃ g, IsIsomorphism forkFst joinFst g := by
  have hdet : ∀ fst : VectorFst ℤ ℕ, (∀ s < fst.numStates,
      ((fst.arcs s).map labelsWeight).Nodup) → Deterministic fst := by
    intro fst h s
    by_cases hs : s < fst.numStates
    · exact h s hs
    · rw [VectorFst.arcs_of_le (Nat.le_of_not_lt hs)]
      exact List.nodup_nil
  refine ⟨returns_true_of_folds folds_fork_join, hdet _ (by decide), hdet _ (by decide), ?_⟩
  rintro ⟨g, hg⟩
  have hstart := hg.start
  have hzero : g 0 = 0 := (Option.some.inj hstart).symm
  have hs : Reachable forkFst 0 := .start rfl
  have hperm := hg.arcs 0 hs
  rw [hzero] at hperm
  have harc1 : (⟨1, 1, 1, 1⟩ : Arc ℤ ℕ) ∈ forkFst.arcs 0 := by decide
  have harc2 : (⟨2, 2, 1, 2⟩ : Arc ℤ ℕ) ∈ forkFst.arcs 0 := by decide
  have h1 : Reachable forkFst 1 := .arc hs harc1
  have h2 : Reachable forkFst 2 := .arc hs harc2
  have hall : ∀ arc ∈ joinFst.arcs 0, arc.nextstate = 1 := by decide
  have hone : ∀ arc ∈ forkFst.arcs 0, g arc.nextstate = 1 := fun arc harc =>
    hall (moveArc g arc) (hperm.mem_iff.mp (List.mem_map_of_mem harc))
  have hg1 : g 1 = 1 := hone ⟨1, 1, 1, 1⟩ (by decide)
  have hg2 : g 2 = 1 := hone ⟨2, 2, 1, 2⟩ (by decide)
  exact absurd (hg.bijOn.injOn h1 h2 (hg1.trans hg2.symm)) (by decide)

end Claim

end IsomorphicExact

end Sicada
