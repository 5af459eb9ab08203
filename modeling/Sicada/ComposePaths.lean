import Sicada.ComposeInterleave
import Sicada.PropertyBits

set_option linter.unusedSectionVars false

namespace Sicada.ComposePaths

open PropertyBits Paths Walk ComposeMoves ComposeInterleave ListLemmas

variable {L W : Type} [ArcLabel L]

/- An arc of the result with the id of the tuple it was to lead to. -/
def Stands (states : List ComposeStateTuple) (p : Proto L W) (arc : Arc L W) : Prop :=
  arc.ilabel = p.ilabel ∧ arc.olabel = p.olabel ∧ arc.weight = p.weight ∧
    states[arc.nextstate]? = some p.tuple

theorem Stands.mono {states states' : List ComposeStateTuple} (h : states <+: states')
    {p : Proto L W} {arc : Arc L W} (hs : Stands states p arc) : Stands states' p arc :=
  ⟨hs.1, hs.2.1, hs.2.2.1, getElem?_of_grow h hs.2.2.2⟩

theorem foldl_internArc {states : List ComposeStateTuple} (hnodup : states.Nodup)
    (done : List (Arc L W)) (protos : List (Proto L W)) :
    ∃ states' arcs, protos.foldl internArc (states, done) = (states', done ++ arcs) ∧
      states <+: states' ∧ states'.Nodup ∧ List.Forall₂ (Stands states') protos arcs ∧
      ∀ t ∈ states', t ∈ states ∨ ∃ p ∈ protos, p.tuple = t := by
  induction protos generalizing states done with
  | nil => exact ⟨states, [], by simp, List.prefix_rfl, hnodup, List.Forall₂.nil,
      fun t ht => Or.inl ht⟩
  | cons p protos ih =>
    obtain ⟨hgrow, hnodup', hid, hnew⟩ := BiTable.findId_spec hnodup p.tuple
    obtain ⟨states', arcs, hfold, hgrow', hnodup'', hall, hnew'⟩ := ih hnodup'
      (done ++ [⟨p.ilabel, p.olabel, p.weight, (BiTable.findId states p.tuple).1⟩])
    refine ⟨states', ⟨p.ilabel, p.olabel, p.weight, (BiTable.findId states p.tuple).1⟩ :: arcs, ?_,
      hgrow.trans hgrow', hnodup'', ?_, ?_⟩
    · rw [List.foldl_cons]
      have hstep : internArc (states, done) p = ((BiTable.findId states p.tuple).2,
          done ++ [⟨p.ilabel, p.olabel, p.weight, (BiTable.findId states p.tuple).1⟩]) := rfl
      rw [hstep, hfold, List.append_assoc]
      rfl
    · exact List.Forall₂.cons ⟨rfl, rfl, rfl, getElem?_of_grow hgrow' hid⟩ hall
    · intro t ht
      rcases hnew' t ht with hold | ⟨q, hq, hqt⟩
      · rcases hnew t hold with hold | rfl
        · exact Or.inl hold
        · exact Or.inr ⟨p, List.mem_cons_self, rfl⟩
      · exact Or.inr ⟨q, List.mem_cons_of_mem p hq, hqt⟩

/- Every id given out on the way is the destination of an arc. -/
theorem mem_nextstates {states states' : List ComposeStateTuple} {protos : List (Proto L W)}
    {arcs : List (Arc L W)} (hgrow : states <+: states') (hnodup : states'.Nodup)
    (hall : List.Forall₂ (Stands states') protos arcs)
    (hnew : ∀ t ∈ states', t ∈ states ∨ ∃ p ∈ protos, p.tuple = t) {i : ℕ}
    (hle : states.length ≤ i) (hlt : i < states'.length) : ∃ arc ∈ arcs, arc.nextstate = i := by
  have hi : states'[i]? = some states'[i] := List.getElem?_eq_getElem hlt
  have hinj : ∀ j, states'[j]? = some states'[i] → j = i := by
    intro j hj
    obtain ⟨hjlt, hj⟩ := List.getElem?_eq_some_iff.mp hj
    exact (List.Nodup.getElem_inj_iff hnodup).mp hj
  rcases hnew _ (List.getElem_mem hlt) with hold | ⟨p, hp, htuple⟩
  · obtain ⟨j, hj⟩ := List.mem_iff_getElem?.mp hold
    have hji := hinj j (getElem?_of_grow hgrow hj)
    have hjlt := (List.getElem?_eq_some_iff.mp hj).1
    omega
  · obtain ⟨arc, harc, hstands⟩ := forall₂_mem_left hall hp
    exact ⟨arc, harc, hinj _ (htuple ▸ hstands.2.2.2)⟩

variable [CommSemiring W] [DecidableEq W]

theorem foldl_composeAddArc (q : ℕ) (arcs : List (Arc L W)) (l : ComposeLoop L W) :
    (arcs.foldl (composeAddArc q) l).states = l.states ∧
      (arcs.foldl (composeAddArc q) l).ofst = arcs.foldl (fun f arc => f.addArc q arc) l.ofst ∧
      (∀ x, x ∈ (arcs.foldl (composeAddArc q) l).done ↔
        x ∈ l.done ∨ ∃ arc ∈ arcs, arc.nextstate = x) ∧
      (∀ x, x ∈ (arcs.foldl (composeAddArc q) l).pending ↔
        x ∈ l.pending ∨ x ∉ l.done ∧ ∃ arc ∈ arcs, arc.nextstate = x) ∧
      (l.pending.Nodup → (∀ x ∈ l.pending, x ∈ l.done) →
        (arcs.foldl (composeAddArc q) l).pending.Nodup) ∧
      (arcs.foldl (composeAddArc q) l).pending.length + l.done.card =
        l.pending.length + (arcs.foldl (composeAddArc q) l).done.card := by
  induction arcs generalizing l with
  | nil => exact ⟨rfl, rfl, by simp, by simp, fun h _ => h, rfl⟩
  | cons arc arcs ih =>
    obtain ⟨hstates, hofst, hdone, hpending, hnodup, hcard⟩ := ih (composeAddArc q l arc)
    rw [List.foldl_cons, List.foldl_cons]
    by_cases hmem : arc.nextstate ∈ l.done
    · have hstep : composeAddArc q l arc = { l with ofst := l.ofst.addArc q arc } := by
        simp [composeAddArc, hmem]
      rw [hstep] at hstates hofst hdone hpending hnodup hcard ⊢
      refine ⟨hstates, hofst, ?_, ?_, hnodup, hcard⟩
      · intro x
        rw [hdone]
        simp only [List.mem_cons, exists_eq_or_imp]
        constructor
        · rintro (h | h)
          · exact Or.inl h
          · exact Or.inr (Or.inr h)
        · rintro (h | rfl | h)
          · exact Or.inl h
          · exact Or.inl hmem
          · exact Or.inr h
      · intro x
        rw [hpending]
        simp only [List.mem_cons, exists_eq_or_imp]
        constructor
        · rintro (h | ⟨hx, h⟩)
          · exact Or.inl h
          · exact Or.inr ⟨hx, Or.inr h⟩
        · rintro (h | ⟨hx, rfl | h⟩)
          · exact Or.inl h
          · exact absurd hmem hx
          · exact Or.inr ⟨hx, h⟩
    · have hstep : composeAddArc q l arc = { l with
          done := insert arc.nextstate l.done
          pending := arc.nextstate :: l.pending
          ofst := l.ofst.addArc q arc } := by
        simp [composeAddArc, hmem]
      rw [hstep] at hstates hofst hdone hpending hnodup hcard ⊢
      refine ⟨hstates, hofst, ?_, ?_, ?_, ?_⟩
      · intro x
        rw [hdone]
        simp only [List.mem_cons, exists_eq_or_imp, Finset.mem_insert]
        constructor
        · rintro ((rfl | h) | h)
          · exact Or.inr (Or.inl rfl)
          · exact Or.inl h
          · exact Or.inr (Or.inr h)
        · rintro (h | rfl | h)
          · exact Or.inl (Or.inr h)
          · exact Or.inl (Or.inl rfl)
          · exact Or.inr h
      · intro x
        rw [hpending]
        simp only [List.mem_cons, exists_eq_or_imp, Finset.mem_insert, not_or]
        constructor
        · rintro ((rfl | h) | ⟨⟨-, hx⟩, h⟩)
          · exact Or.inr ⟨hmem, Or.inl rfl⟩
          · exact Or.inl h
          · exact Or.inr ⟨hx, Or.inr h⟩
        · rintro (h | ⟨hx, rfl | h⟩)
          · exact Or.inl (Or.inr h)
          · exact Or.inl (Or.inl rfl)
          · by_cases hxe : x = arc.nextstate
            · exact Or.inl (Or.inl hxe)
            · exact Or.inr ⟨⟨hxe, hx⟩, h⟩
      · intro hnd hsub
        apply hnodup
        · exact List.nodup_cons.mpr ⟨fun h => hmem (hsub _ h), hnd⟩
        · intro x hx
          rcases List.mem_cons.mp hx with rfl | hx
          · exact Finset.mem_insert_self _ _
          · exact Finset.mem_insert_of_mem (hsub x hx)
      · simp only [Finset.card_insert_of_notMem hmem, List.length_cons] at hcard
        omega

variable {q : ℕ} {tuple : ComposeStateTuple}

/- The final weight set is the product in every case: a product with zero is the weight of a state
that is not final. -/
theorem composeFinal_eq (left right : VectorFst L W) {ofst : VectorFst L W}
    (tuple : ComposeStateTuple) (hq : q < ofst.numStates) (hzero : ofst.finalWeight q = 0) :
    (composeFinal left right tuple q ofst).arcs = ofst.arcs ∧
      (composeFinal left right tuple q ofst).start = ofst.start ∧
      (composeFinal left right tuple q ofst).numStates = ofst.numStates ∧
      (composeFinal left right tuple q ofst).finalWeight = Function.update ofst.finalWeight q
        (left.finalWeight tuple.s1 * right.finalWeight tuple.s2) := by
  have hkeep : left.finalWeight tuple.s1 * right.finalWeight tuple.s2 = 0 →
      ofst.finalWeight = Function.update ofst.finalWeight q
        (left.finalWeight tuple.s1 * right.finalWeight tuple.s2) := by
    intro h
    rw [h, ← hzero, Function.update_eq_self]
  unfold composeFinal
  dsimp only
  split
  next hboth =>
    split
    next hne =>
      exact ⟨VectorFst.arcs_setFinal _ _ _, VectorFst.start_setFinal _ _ _,
        VectorFst.numStates_setFinal _ _ _, VectorFst.finalWeight_setFinal _ hq⟩
    next hne => exact ⟨rfl, rfl, rfl, hkeep (not_not.mp hne)⟩
  next hboth =>
    refine ⟨rfl, rfl, rfl, hkeep ?_⟩
    by_cases h1 : left.finalWeight tuple.s1 = 0
    · rw [h1, zero_mul]
    · have h2 : right.finalWeight tuple.s2 = 0 := not_not.mp fun h2 => hboth ⟨h1, h2⟩
      rw [h2, mul_zero]

/- The states a run may come to in an FST. -/
def targets (fst : VectorFst L W) (s : ℕ) : Finset ℕ :=
  insert s ((fst.states.flatMap (·.arcs)).map (·.nextstate)).toFinset

theorem nextstate_mem_targets {fst : VectorFst L W} {s t : ℕ} {arc : Arc L W}
    (h : arc ∈ fst.arcs t) : arc.nextstate ∈ targets fst s := by
  apply Finset.mem_insert_of_mem
  rw [List.mem_toFinset, List.mem_map]
  refine ⟨arc, ?_, rfl⟩
  rw [List.mem_flatMap]
  cases hstate : fst.states[t]? with
  | none => simp [VectorFst.arcs, hstate] at h
  | some vs => exact ⟨vs, List.mem_of_getElem? hstate, VectorFst.arcs_of_getElem? hstate ▸ h⟩

theorem of_mem_targets {fst : VectorFst L W} {s t : ℕ} (h : t ∈ targets fst s) :
    t = s ∨ ∃ u, ∃ arc ∈ fst.arcs u, arc.nextstate = t := by
  rcases Finset.mem_insert.mp h with rfl | h
  · exact Or.inl rfl
  · obtain ⟨arc, harc, rfl⟩ := List.mem_map.mp (List.mem_toFinset.mp h)
    obtain ⟨vs, hvs, harc⟩ := List.mem_flatMap.mp harc
    obtain ⟨u, hu⟩ := List.mem_iff_getElem?.mp hvs
    exact Or.inr ⟨u, arc, VectorFst.arcs_of_getElem? hu ▸ harc, rfl⟩

def tuples (left right : VectorFst L W) (start : ComposeStateTuple) :
    Finset ComposeStateTuple :=
  (targets left start.s1 ×ˢ targets right start.s2 ×ˢ {.default, .eps1, .eps2}).image
    fun x => ⟨x.1, x.2.1, x.2.2⟩

variable {start : ComposeStateTuple}

theorem mem_tuples {left right : VectorFst L W} :
    tuple ∈ tuples left right start ↔
      tuple.s1 ∈ targets left start.s1 ∧ tuple.s2 ∈ targets right start.s2 := by
  obtain ⟨s1, s2, fs⟩ := tuple
  have hfs : fs = .default ∨ fs = .eps1 ∨ fs = .eps2 := by
    cases fs <;> simp
  simp only [tuples, Finset.mem_image, Finset.mem_product, Finset.mem_insert,
    Finset.mem_singleton, Prod.exists, ComposeStateTuple.mk.injEq]
  constructor
  · rintro ⟨a, b, c, ⟨ha, hb, -⟩, rfl, rfl, rfl⟩
    exact ⟨ha, hb⟩
  · rintro ⟨ha, hb⟩
    exact ⟨s1, s2, fs, ⟨ha, hb, hfs⟩, rfl, rfl, rfl⟩

theorem nextTuple_mem {left right : VectorFst L W} {m : Move L W} (filter : ArcFilter L W)
    (h : tuple ∈ tuples left right start) (hm : Meets left right tuple m) :
    nextTuple filter tuple m ∈ tuples left right start := by
  rw [mem_tuples] at h ⊢
  obtain ⟨_ | e1, _ | e2⟩ := m
  · exact hm.elim
  · exact ⟨h.1, nextstate_mem_targets (mem_of_leaves hm.1)⟩
  · exact ⟨nextstate_mem_targets (mem_of_leaves hm.1), h.2⟩
  · exact ⟨nextstate_mem_targets (mem_of_leaves hm.1),
      nextstate_mem_targets (mem_of_leaves hm.2.1)⟩

section Invariant

variable (filter : ArcFilter L W) (left right : VectorFst L W)
  (matchInput : ComposeStateTuple → Bool)

/- The state `q` of the result has the arcs and the final weight its tuple calls for. -/
def Expanded (l : ComposeLoop L W) (q : ℕ) (tuple : ComposeStateTuple) : Prop :=
  List.Forall₂ (Stands l.states)
      ((movesOf filter left right tuple (matchInput tuple)).map (protoOf filter tuple)) (l.ofst.arcs q) ∧
    l.ofst.finalWeight q = left.finalWeight tuple.s1 * right.finalWeight tuple.s2

structure ComposeInv (start : ComposeStateTuple) (l : ComposeLoop L W) : Prop where
  nodup : l.states.Nodup
  known : ∀ tuple ∈ l.states, tuple ∈ tuples left right start
  first : l.states[0]? = some start
  numStates : l.ofst.numStates = l.states.length
  start : l.ofst.start = some 0
  done : l.done = Finset.range l.states.length
  pendingNodup : l.pending.Nodup
  pending : ∀ q ∈ l.pending, q < l.states.length
  untouched : ∀ q, q ∈ l.pending → l.ofst.arcs q = [] ∧ l.ofst.finalWeight q = 0
  expanded : ∀ q tuple, l.states[q]? = some tuple → q ∉ l.pending →
    Expanded filter left right matchInput l q tuple

variable {filter left right matchInput}

variable {l : ComposeLoop L W}

theorem composeStep_inv (h : Prepared left right) {l' : ComposeLoop L W}
    (hinv : ComposeInv filter left right matchInput start l)
    (hstep : composeStepThrough filter ⟨left, true⟩ ⟨right, false⟩ matchInput l = some l') :
    ComposeInv filter left right matchInput start l' ∧
      l'.pending.length + l.states.length + 1 = l.pending.length + l'.states.length := by
  obtain ⟨states, pending, done, ofst⟩ := l
  cases pending with
  | nil => simp [composeStepThrough] at hstep
  | cons q pending =>
    obtain ⟨hnodup, hknown, hfirst, hnum, hstart, hdone, hpnodup, hpending, huntouched, hexpanded⟩ :=
      hinv
    dsimp only at hnodup hknown hfirst hnum hstart hdone hpnodup hpending huntouched hexpanded
    have hqlt : q < states.length := hpending q List.mem_cons_self
    obtain ⟨tuple, htuple⟩ : ∃ tuple, states[q]? = some tuple :=
      ⟨states[q], List.getElem?_eq_getElem hqlt⟩
    have hgetD : states.getD q ⟨0, 0, .default⟩ = tuple := by
      rw [List.getD_eq_getElem?_getD, htuple, Option.getD_some]
    obtain ⟨hqarcs, hqfinal⟩ := huntouched q List.mem_cons_self
    obtain ⟨hfarcs, hfstart, hfnum, hffinal⟩ :=
      composeFinal_eq left right tuple (hnum ▸ hqlt) hqfinal
    obtain ⟨states', arcs, hfold, hgrow, hnodup', hall, hnew⟩ := foldl_internArc hnodup []
      ((movesOf filter left right tuple (matchInput tuple)).map (protoOf filter tuple))
    rw [List.nil_append] at hfold
    have heq : l' = arcs.foldl (composeAddArc q)
        ⟨states', pending, done, (composeFinal left right tuple q ofst).growTo states'.length⟩ := by
      have hrun := foldl_matchArc h filter tuple (matchInput tuple) (states, [])
      simp only [composeStepThrough, hgetD, hrun, hfold] at hstep
      exact (Option.some.inj hstep).symm
    obtain ⟨hstates, hofst, hdone', hpending', hnodup'', hcard⟩ := foldl_composeAddArc q arcs
      ⟨states', pending, done, (composeFinal left right tuple q ofst).growTo states'.length⟩
    rw [← heq] at hstates hofst hdone' hpending' hnodup'' hcard
    dsimp only at hstates hofst hdone' hpending' hnodup'' hcard
    obtain ⟨hgarcs, hgfinal, hgstart, hgnum⟩ :=
      VectorFst.growTo_eq (composeFinal left right tuple q ofst) states'.length
    have hlen : states.length ≤ states'.length := hgrow.length_le
    have hgnum' : ((composeFinal left right tuple q ofst).growTo states'.length).numStates =
        states'.length := by
      rw [hgnum, hfnum, hnum]
      omega
    have harcslt : ∀ arc ∈ arcs, arc.nextstate < states'.length := by
      intro arc harc
      obtain ⟨p, -, hstands⟩ := forall₂_mem_right hall harc
      exact (List.getElem?_eq_some_iff.mp hstands.2.2.2).1
    have hfresh : ∀ x, states.length ≤ x → x < states'.length → ∃ arc ∈ arcs, arc.nextstate = x :=
      fun x hle hlt => mem_nextstates hgrow hnodup' hall hnew hle hlt
    have hrange : l'.done = Finset.range states'.length := by
      ext x
      rw [hdone', hdone, Finset.mem_range, Finset.mem_range]
      constructor
      · rintro (hx | ⟨arc, harc, rfl⟩)
        · omega
        · exact harcslt arc harc
      · intro hx
        by_cases hlt : x < states.length
        · exact Or.inl hlt
        · exact Or.inr (hfresh x (by omega) hx)
    have harcs' : l'.ofst.arcs = Function.update ofst.arcs q arcs := by
      rw [hofst, VectorFst.arcs_addArcs (by omega), hgarcs, hfarcs, hqarcs, List.nil_append]
    have hfinal' : l'.ofst.finalWeight = Function.update ofst.finalWeight q
        (left.finalWeight tuple.s1 * right.finalWeight tuple.s2) := by
      rw [hofst, VectorFst.finalWeight_addArcs, hgfinal, hffinal]
    have hqnot : q ∉ pending := (List.nodup_cons.mp hpnodup).1
    have hpending_ne : ∀ x ∈ l'.pending, x ≠ q := by
      rintro x hx rfl
      rcases (hpending' x).mp hx with hx | ⟨hx, -⟩
      · exact hqnot hx
      · rw [hdone, Finset.mem_range] at hx
        exact hx hqlt
    constructor
    · refine ⟨?_, ?_, ?_, ?_, ?_, ?_, ?_, ?_, ?_, ?_⟩
      · rwa [hstates]
      · rw [hstates]
        intro t ht
        rcases hnew t ht with hold | ⟨p, hp, rfl⟩
        · exact hknown t hold
        · obtain ⟨m, hm, rfl⟩ := List.mem_map.mp hp
          exact nextTuple_mem filter (hknown tuple (List.mem_of_getElem? htuple))
            ((mem_movesOf h).mp hm).1
      · rw [hstates]
        exact getElem?_of_grow hgrow hfirst
      · rw [hstates, hofst, VectorFst.numStates_addArcs, hgnum']
      · rw [hofst, VectorFst.start_addArcs, hgstart, hfstart, hstart]
      · rw [hrange, hstates]
      · apply hnodup'' (List.nodup_cons.mp hpnodup).2
        intro x hx
        rw [hdone, Finset.mem_range]
        exact hpending x (List.mem_cons_of_mem q hx)
      · intro x hx
        rw [hstates]
        rcases (hpending' x).mp hx with hx | ⟨-, arc, harc, rfl⟩
        · have hlt := hpending x (List.mem_cons_of_mem q hx)
          omega
        · exact harcslt arc harc
      · intro x hx
        rw [harcs', hfinal', Function.update_of_ne (hpending_ne x hx),
          Function.update_of_ne (hpending_ne x hx)]
        rcases (hpending' x).mp hx with hx | ⟨hx, -⟩
        · exact huntouched x (List.mem_cons_of_mem q hx)
        · rw [hdone, Finset.mem_range] at hx
          have hle : ofst.numStates ≤ x := by omega
          exact ⟨VectorFst.arcs_of_le hle, VectorFst.finalWeight_of_le hle⟩
      · intro x t ht hx
        rw [hstates] at ht
        unfold Expanded
        rw [hstates, harcs', hfinal']
        by_cases hxq : x = q
        · subst hxq
          obtain rfl : tuple = t :=
            Option.some.inj ((getElem?_of_grow hgrow htuple).symm.trans ht)
          rw [Function.update_self, Function.update_self]
          exact ⟨hall, rfl⟩
        · rw [Function.update_of_ne hxq, Function.update_of_ne hxq]
          have hxlt : x < states.length := by
            by_contra hge
            have hnot : x ∉ done := by
              rw [hdone, Finset.mem_range]
              exact hge
            have hlt := (List.getElem?_eq_some_iff.mp ht).1
            exact hx ((hpending' x).mpr (Or.inr ⟨hnot, hfresh x (by omega) hlt⟩))
          have hxt : states[x]? = some t := by
            obtain ⟨rest, rfl⟩ := hgrow
            rwa [List.getElem?_append_left hxlt] at ht
          have hxnot : x ∉ q :: pending := by
            intro hmem
            rcases List.mem_cons.mp hmem with rfl | hmem
            · exact hxq rfl
            · exact hx ((hpending' x).mpr (Or.inl hmem))
          obtain ⟨harcsx, hfinalx⟩ := hexpanded x t hxt hxnot
          exact ⟨harcsx.imp fun _ _ hs => hs.mono hgrow, hfinalx⟩
    · rw [hrange, hdone, Finset.card_range, Finset.card_range] at hcard
      rw [hstates]
      simp only [List.length_cons]
      omega

theorem length_le_of_inv (hinv : ComposeInv filter left right matchInput start l) :
    l.states.length ≤ (tuples left right start).card := by
  rw [← List.toFinset_card_of_nodup hinv.nodup]
  apply Finset.card_le_card
  intro tuple ht
  exact hinv.known tuple (List.mem_toFinset.mp ht)

def remaining (left right : VectorFst L W) (start : ComposeStateTuple) (l : ComposeLoop L W) : ℕ :=
  (tuples left right start).card - l.states.length + l.pending.length

/- Every round takes one state off the list, and no tuple is put on it twice. -/
theorem composeLoop_terminates (h : Prepared left right)
    (hinv : ComposeInv filter left right matchInput start l) :
    ∃ fuel l', Loop.runLoop (composeStepThrough filter ⟨left, true⟩ ⟨right, false⟩ matchInput) fuel l = some l' ∧
      ComposeInv filter left right matchInput start l' ∧ l'.pending = [] := by
  have hstep : ∀ l l', ComposeInv filter left right matchInput start l →
      composeStepThrough filter ⟨left, true⟩ ⟨right, false⟩ matchInput l = some l' →
        ComposeInv filter left right matchInput start l' := fun l l' hl hs => (composeStep_inv h hl hs).1
  have hdown : ∀ l l', ComposeInv filter left right matchInput start l →
      composeStepThrough filter ⟨left, true⟩ ⟨right, false⟩ matchInput l = some l' →
        remaining left right start l' < remaining left right start l := by
    intro l l' hl hs
    obtain ⟨hl', hlength⟩ := composeStep_inv h hl hs
    have hle := length_le_of_inv hl
    have hle' := length_le_of_inv hl'
    unfold remaining
    omega
  obtain ⟨l', hrun, hinv', hstop⟩ := Loop.runLoop_terminates hstep hdown hinv (Nat.lt_succ_self _)
  refine ⟨_, l', hrun, hinv', ?_⟩
  cases hp : l'.pending with
  | nil => rfl
  | cons q pending => simp [composeStepThrough, hp] at hstop

/- The tuple a state of the result stands for. -/
def tupleOf (l : ComposeLoop L W) (q : ℕ) : ComposeStateTuple := l.states.getD q ⟨0, 0, .default⟩

theorem tupleOf_eq (h : l.states[q]? = some tuple) :
    tupleOf l q = tuple := by
  rw [tupleOf, List.getD_eq_getElem?_getD, h, Option.getD_some]

def moveOf (filter : ArcFilter L W) (left right : VectorFst L W) (matchInput : ComposeStateTuple → Bool)
    (l : ComposeLoop L W) (q : ℕ) (e : ℕ × Arc L W) : Move L W :=
  (movesOf filter left right (tupleOf l q) (matchInput (tupleOf l q))).getD e.1 (none, none)

section Finished

variable {start : ComposeStateTuple} {l : ComposeLoop L W}
  (hinv : ComposeInv filter left right matchInput start l) (hpending : l.pending = [])
include hinv hpending

theorem expanded_of_finished (hq : q < l.states.length) :
    Expanded filter left right matchInput l q (tupleOf l q) := by
  have htuple : l.states[q]? = some l.states[q] := List.getElem?_eq_getElem hq
  rw [tupleOf_eq htuple]
  exact hinv.expanded q _ htuple (by simp [hpending])

/- The arc at a place of a state of the result is the one of the move at that place. -/
theorem move_of_leaves {e : ℕ × Arc L W} (hq : q < l.states.length) (he : Leaves l.ofst q e) :
    (movesOf filter left right (tupleOf l q) (matchInput (tupleOf l q)))[e.1]? =
        some (moveOf filter left right matchInput l q e) ∧
      Stands l.states (protoOf filter (tupleOf l q) (moveOf filter left right matchInput l q e)) e.2 := by
  obtain ⟨hall, -⟩ := expanded_of_finished hinv hpending hq
  obtain ⟨p, hp, hstands⟩ := forall₂_right hall he
  rw [List.getElem?_map] at hp
  obtain ⟨m, hm, rfl⟩ := Option.map_eq_some_iff.mp hp
  have hmove : moveOf filter left right matchInput l q e = m := by
    rw [moveOf, List.getD_eq_getElem?_getD, hm, Option.getD_some]
  rw [hmove]
  exact ⟨hm, hstands⟩

theorem covers_moves (h : Prepared left right) :
    Covers (Leaves l.ofst) follow (Enabled filter left right) (nextTuple filter) (tupleOf l)
      (moveOf filter left right matchInput l) fun q => q < l.states.length := by
  refine covers_of_moves (fun q e hq he => ?_) (fun q hq => ?_)
    (fun q => nodup_movesOf (matchInput (tupleOf l q))) fun q m _ => mem_movesOf h
  · obtain ⟨hm, hstands⟩ := move_of_leaves hinv hpending hq he
    have hget := hstands.2.2.2
    exact ⟨hm, (List.getElem?_eq_some_iff.mp hget).1, tupleOf_eq hget⟩
  · obtain ⟨hall, -⟩ := expanded_of_finished hinv hpending hq
    have hlength := hall.length_eq
    rw [List.length_map] at hlength
    exact hlength.le

end Finished

/- What a move reads, writes and weighs. -/
def moveILabel (m : Move L W) : L := (m.1.map (·.2.ilabel)).getD epsilon

def moveOLabel (m : Move L W) : L := (m.2.map (·.2.olabel)).getD epsilon

def moveWeight (m : Move L W) : W :=
  (m.1.map (·.2.weight)).getD 1 * (m.2.map (·.2.weight)).getD 1

theorem filter_moveILabel (p : List (Move L W)) :
    (p.map moveILabel).filter (· ≠ epsilon) = istring (firsts p) := by
  induction p with
  | nil => rfl
  | cons m p ih =>
    rw [List.map_cons, List.filter_cons, ih]
    obtain ⟨_ | e1, o2⟩ := m
    · have hlabel : moveILabel ((none, o2) : Move L W) = epsilon := rfl
      rw [hlabel]
      simp [firsts]
    · have hlabel : moveILabel ((some e1, o2) : Move L W) = e1.2.ilabel := rfl
      rw [hlabel]
      simp [firsts, istring, List.filter_cons]

theorem filter_moveOLabel (p : List (Move L W)) :
    (p.map moveOLabel).filter (· ≠ epsilon) = ostring (seconds p) := by
  induction p with
  | nil => rfl
  | cons m p ih =>
    rw [List.map_cons, List.filter_cons, ih]
    obtain ⟨o1, _ | e2⟩ := m
    · have hlabel : moveOLabel ((o1, none) : Move L W) = epsilon := rfl
      rw [hlabel]
      simp [seconds]
    · have hlabel : moveOLabel ((o1, some e2) : Move L W) = e2.2.olabel := rfl
      rw [hlabel]
      simp [seconds, ostring, List.filter_cons]

theorem prod_moveWeight (p : List (Move L W)) : (p.map moveWeight).prod =
    ((firsts p).map (·.2.weight)).prod * ((seconds p).map (·.2.weight)).prod := by
  induction p with
  | nil => simp [firsts, seconds]
  | cons m p ih =>
    rw [List.map_cons, List.prod_cons, ih]
    obtain ⟨_ | e1, _ | e2⟩ := m <;>
      simp only [moveWeight, firsts_cons_none, firsts_cons_some, seconds_cons_none,
        seconds_cons_some, Option.map_none, Option.map_some, Option.getD_none, Option.getD_some,
        List.map_cons, List.prod_cons] <;>
      ring

theorem walkEnd_moves {p : List (Move L W)} (hp : p ∈ movesFrom filter left right tuple) :
    (walkEnd (nextTuple filter) tuple p).s1 = walkEnd follow tuple.s1 (firsts p) ∧
      (walkEnd (nextTuple filter) tuple p).s2 = walkEnd follow tuple.s2 (seconds p) := by
  induction p generalizing tuple with
  | nil => exact ⟨rfl, rfl⟩
  | cons m p ih =>
    obtain ⟨hm, hp⟩ := cons_mem_acceptedFrom.mp hp
    obtain ⟨_ | e1, _ | e2⟩ := m
    · exact hm.1.elim
    · exact ih hp
    · exact ih hp
    · exact ih hp

/- What a path of a composition is to the pair of paths it is made of. -/
def Agrees (ofst fst1 fst2 : VectorFst L W) (p : List (ℕ × Arc L W))
    (pq : List (ℕ × Arc L W) × List (ℕ × Arc L W)) : Prop :=
  istring p = istring pq.1 ∧ ostring p = ostring pq.2 ∧
    pathWeight ofst p = pathWeight fst1 pq.1 * pathWeight fst2 pq.2

/- The pairs of accepting paths that meet in one string. -/
def meetingPaths (fst1 fst2 : VectorFst L W) :
    Set (List (ℕ × Arc L W) × List (ℕ × Arc L W)) :=
  {pq | pq.1 ∈ acceptingPaths fst1 ∧ pq.2 ∈ acceptingPaths fst2 ∧ ostring pq.1 = istring pq.2}

/- No two final weights multiply to zero. -/
def FinalsMultiply (left right : VectorFst L W) : Prop :=
  ∀ s1 s2, left.finalWeight s1 * right.finalWeight s2 ≠ 0 ↔
    left.finalWeight s1 ≠ 0 ∧ right.finalWeight s2 ≠ 0

theorem finalsMultiply [NoZeroDivisors W] (left right : VectorFst L W) :
    FinalsMultiply left right := fun _ _ => mul_ne_zero_iff

/- Where the filter takes every pair of paths that meet apart in one way, so does the result. -/
theorem finished_bijOn (h : Prepared left right) (hfinals : FinalsMultiply left right)
    (hinv : ComposeInv filter left right matchInput start l) (hpending : l.pending = [])
    (hsplit : Set.BijOn (fun p => (firsts p, seconds p)) (movesFrom filter left right start)
      {pq | pq.1 ∈ acceptingFrom left start.s1 ∧ pq.2 ∈ acceptingFrom right start.s2 ∧
        ostring pq.1 = istring pq.2}) (hstart1 : left.start = some start.s1)
    (hstart2 : right.start = some start.s2) :
    ∃ F, Set.BijOn F (acceptingPaths l.ofst) (meetingPaths left right) ∧
      ∀ p ∈ acceptingPaths l.ofst, Agrees l.ofst left right p (F p) := by
  have hcovers := covers_moves hinv hpending h
  have hzero : (0 : ℕ) < l.states.length := (List.getElem?_eq_some_iff.mp hinv.first).1
  have htuple : tupleOf l 0 = start := tupleOf_eq hinv.first
  have hfinalWeight : ∀ q < l.states.length, l.ofst.finalWeight q =
      left.finalWeight (tupleOf l q).s1 * right.finalWeight (tupleOf l q).s2 :=
    fun q hq => (expanded_of_finished hinv hpending hq).2
  have hfinal : ∀ q, q < l.states.length →
      (l.ofst.finalWeight q ≠ 0 ↔ BothFinal left right (tupleOf l q)) := by
    intro q hq
    rw [hfinalWeight q hq]
    exact hfinals _ _
  have hbij := hcovers.bijOn_project hfinal hzero
  rw [htuple] at hbij
  have hpairs := hsplit.comp hbij
  have hpaths : _ = acceptedFrom _ _ _ _ := acceptingPaths_of_some hinv.start
  have hmeeting : meetingPaths left right = {pq | pq.1 ∈ acceptingFrom left start.s1 ∧
      pq.2 ∈ acceptingFrom right start.s2 ∧ ostring pq.1 = istring pq.2} := by
    ext pq
    simp only [meetingPaths, Set.mem_ofPred_eq, mem_acceptingPaths hstart1,
      mem_acceptingPaths hstart2]
  refine ⟨_, hpaths ▸ hmeeting ▸ hpairs, ?_⟩
  intro p hp
  rw [hpaths] at hp
  have hmoves : Covers.project follow (moveOf filter left right matchInput l) 0 p ∈
      movesFrom filter left right start := hbij.mapsTo hp
  have hread : ∀ q e, q < l.states.length → Leaves l.ofst q e →
      moveILabel (moveOf filter left right matchInput l q e) = e.2.ilabel ∧
        moveOLabel (moveOf filter left right matchInput l q e) = e.2.olabel ∧
        moveWeight (moveOf filter left right matchInput l q e) = e.2.weight := by
    intro q e hq he
    obtain ⟨-, hilabel, holabel, hweight, -⟩ := move_of_leaves hinv hpending hq he
    rw [hilabel, holabel, hweight]
    obtain ⟨_ | e1, _ | e2⟩ := moveOf filter left right matchInput l q e <;> exact ⟨rfl, rfl, rfl⟩
  have hilabels := hcovers.map_project (fun q e hq he => (hread q e hq he).1) hzero hp
  have holabels := hcovers.map_project (fun q e hq he => (hread q e hq he).2.1) hzero hp
  have hweights := hcovers.map_project (fun q e hq he => (hread q e hq he).2.2) hzero hp
  have hend := hcovers.walkEnd_project hzero hp
  have hendlt : walkEnd follow 0 p < l.states.length := hcovers.known_walkEnd hzero hp
  rw [htuple] at hend
  obtain ⟨hend1, hend2⟩ := walkEnd_moves hmoves
  simp only [Function.comp_apply]
  refine ⟨?_, ?_, ?_⟩
  · dsimp only
    rw [← filter_moveILabel, hilabels]
    rfl
  · dsimp only
    rw [← filter_moveOLabel, holabels]
    rfl
  · unfold pathWeight weightFrom
    dsimp only
    rw [hinv.start, hstart1, hstart2, Option.getD_some, Option.getD_some, Option.getD_some,
      ← hweights, prod_moveWeight, hfinalWeight _ hendlt, ← hend, hend1, hend2]
    ring

end Invariant

end Sicada.ComposePaths
