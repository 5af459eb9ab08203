import Sicada.ConnectExact

namespace Sicada

section Removing

open DfsVisit CcVisitors

variable {L W : Type} [ArcLabel L] [Zero W] [One W] [Add W] [Mul W] [DecidableEq W]

namespace RmFinalEpsilon

/- The loop over the arcs of a state: what its final weight comes to and the arcs kept. -/
def foldArcs (removable : ℕ → Bool) (leftDistributive : Bool) (finalWeight : ℕ → W) :
    List (Arc L W) → W → List (Arc L W) → W × List (Arc L W)
  | [], weight, kept => (weight, kept)
  | arc :: arcs, weight, kept =>
    if removable arc.nextstate = true ∧ arc.ilabel = epsilon ∧ arc.olabel = epsilon ∧
        (weight = 0 ∨ leftDistributive = true) then
      foldArcs removable leftDistributive finalWeight arcs
        (arc.weight * finalWeight arc.nextstate + weight) kept
    else foldArcs removable leftDistributive finalWeight arcs weight (kept ++ [arc])

def foldState (removable : ℕ → Bool) (leftDistributive : Bool) (fst : VectorFst L W) (s : ℕ) :
    VectorFst L W :=
  let (weight, kept) :=
    foldArcs removable leftDistributive fst.finalWeight (fst.arcs s) (fst.finalWeight s) []
  if kept.length < fst.numArcs s then
    kept.foldl (fun f arc => f.addArc s arc) ((fst.deleteArcs s).setFinal s weight)
  else fst

/- A final state no arc of which leads on to a final state. -/
def removable (isMember : W → Bool) (fst : VectorFst L W) (s : ℕ) : Bool :=
  let visitor := dfsVisitAny fst (sccVisitor isMember true fst) (SccVisitor.new 0)
  fst.finalWeight s ≠ 0 && !(fst.arcs s).any fun arc => visitor.coaccess arc.nextstate

end RmFinalEpsilon

open RmFinalEpsilon

def VectorFst.rmFinalEpsilon (isMember : W → Bool) (leftDistributive : Bool)
    (fst : VectorFst L W) : Option (VectorFst L W) :=
  ((List.range fst.numStates).foldl (foldState (removable isMember fst) leftDistributive)
    fst).connect isMember

end Removing

namespace RmFinalEpsilonExact

open Paths Walk Relations Regroup RmFinalEpsilon DfsVisit CcVisitors SccExact SccMarks SccRuns
  ConnectExact Relation

variable {L W : Type} [ArcLabel L] [PreSemiring W] [DecidableEq W]

/- What the loop over the arcs of a state makes of them: each is kept or, where it ends in a
removable state, goes into the final weight. -/
structure Split (removable : ℕ → Bool) (finalWeight : ℕ → W)
    (edges kept folded : List (ℕ × Arc L W)) (weight weight' : W) : Prop where
  perm : edges.Perm (kept ++ folded)
  ends : ∀ e ∈ folded,
    removable e.2.nextstate = true ∧ e.2.ilabel = epsilon ∧ e.2.olabel = epsilon
  weight : ∀ a, a * weight' = a * weight +
    (folded.map fun e => a * (e.2.weight * finalWeight e.2.nextstate)).sum

section Arcs

variable {removable : ℕ → Bool} {leftDistributive : Bool} {finalWeight : ℕ → W}

theorem foldArcs_split
    (hdist : leftDistributive = true → ∀ a b c : W, a * (b + c) = a * b + a * c)
    (edges : List (ℕ × Arc L W)) (weight : W) (done : List (Arc L W)) :
    ∃ weight' kept folded, foldArcs removable leftDistributive finalWeight (edges.map (·.2)) weight
        done = (weight', done ++ kept.map (·.2)) ∧
      Split removable finalWeight edges kept folded weight weight' := by
  induction edges generalizing weight done with
  | nil => exact ⟨weight, [], [], by simp [foldArcs], by simp, by simp, by simp⟩
  | cons e edges ih =>
    rw [List.map_cons, foldArcs]
    split
    next hfolds =>
      obtain ⟨hremovable, hi, ho, hsum⟩ := hfolds
      obtain ⟨weight', kept, folded, heq, hsplit⟩ :=
        ih (e.2.weight * finalWeight e.2.nextstate + weight) done
      refine ⟨weight', kept, e :: folded, heq, ?_, ?_, ?_⟩
      · exact (hsplit.perm.cons e).trans List.perm_middle.symm
      · intro e' he'
        rcases List.mem_cons.mp he' with rfl | he'
        · exact ⟨hremovable, hi, ho⟩
        · exact hsplit.ends e' he'
      · intro a
        have hstep : a * (e.2.weight * finalWeight e.2.nextstate + weight) =
            a * (e.2.weight * finalWeight e.2.nextstate) + a * weight := by
          rcases hsum with rfl | hleft
          · simp
          · exact hdist hleft _ _ _
        rw [hsplit.weight a, hstep, List.map_cons, List.sum_cons, ← add_assoc,
          add_comm (a * weight)]
    next =>
      obtain ⟨weight', kept, folded, heq, hsplit⟩ := ih weight (done ++ [e.2])
      refine ⟨weight', e :: kept, folded, ?_, hsplit.perm.cons e, hsplit.ends, hsplit.weight⟩
      rw [heq, List.append_assoc]
      rfl

theorem Split.eq_of_keeps {edges kept folded : List (ℕ × Arc L W)} {weight weight' : W}
    (h : Split removable finalWeight edges kept folded weight weight')
    (hkeeps : ∀ e ∈ edges, removable e.2.nextstate = false) : folded = [] := by
  refine List.eq_nil_iff_forall_not_mem.mpr fun e he => ?_
  have hmem : e ∈ edges := h.perm.mem_iff.mpr (List.mem_append_right _ he)
  simpa [hkeeps e hmem] using (h.ends e he).1

end Arcs

variable {start t : ℕ}

section Loop

variable {removable : ℕ → Bool} {leftDistributive : Bool}

/- The state a turn of the loop is about, split, and the others, left. -/
structure Turn (removable : ℕ → Bool) (fst fst' : VectorFst L W) (s : ℕ) : Prop where
  numStates : fst'.numStates = fst.numStates
  start : fst'.start = fst.start
  others : ∀ t, t ≠ s → fst'.arcs t = fst.arcs t ∧ fst'.finalWeight t = fst.finalWeight t
  split : ∃ kept folded, fst'.arcs s = kept.map (·.2) ∧ Split removable fst.finalWeight
    (enumArcs (fst.arcs s)) kept folded (fst.finalWeight s) (fst'.finalWeight s)

variable {fst : VectorFst L W}

theorem foldState_turn (hdist : leftDistributive = true → ∀ a b c : W, a * (b + c) = a * b + a * c)
    {s : ℕ} (hs : s < fst.numStates) :
    Turn removable fst (foldState removable leftDistributive fst s) s := by
  obtain ⟨weight, kept, folded, heq, hsplit⟩ := @foldArcs_split _ _ _ _ _
    removable leftDistributive fst.finalWeight hdist (enumArcs (fst.arcs s)) (fst.finalWeight s) []
  rw [map_snd_enumArcs, List.nil_append] at heq
  have hlength := hsplit.perm.length_eq
  unfold foldState
  simp only [heq]
  split
  next =>
    obtain ⟨harcs, hfinal, hnum, hstart⟩ := VectorFst.deleteArcs_reads hs
    have hlt : s < (fst.deleteArcs s).numStates := hnum.symm ▸ hs
    have hlt' : s < ((fst.deleteArcs s).setFinal s weight).numStates := by
      rwa [VectorFst.numStates_setFinal]
    have harcs' := VectorFst.arcs_addArcs hlt' (kept.map (·.2))
    rw [VectorFst.arcs_setFinal, harcs, Function.update_self, Function.update_idem,
      List.nil_append] at harcs'
    have hfinal' : (List.foldl (fun f arc => f.addArc s arc)
        ((fst.deleteArcs s).setFinal s weight) (kept.map (·.2))).finalWeight =
          ((fst.deleteArcs s).setFinal s weight).finalWeight := VectorFst.finalWeight_addArcs _
    rw [VectorFst.finalWeight_setFinal weight hlt, hfinal] at hfinal'
    constructor
    · rw [VectorFst.numStates_addArcs, VectorFst.numStates_setFinal, hnum]
    · rw [VectorFst.start_addArcs, VectorFst.start_setFinal, hstart]
    · intro t ht
      rw [harcs', hfinal', Function.update_of_ne ht, Function.update_of_ne ht]
      exact ⟨rfl, rfl⟩
    · refine ⟨kept, folded, ?_, ?_⟩
      · rw [harcs', Function.update_self]
      · rw [hfinal', Function.update_self]
        exact hsplit
  next hshort =>
    have hnil : folded = [] := by
      rw [VectorFst.numArcs_eq, ← map_snd_enumArcs (fst.arcs s), List.length_map,
        List.length_map, hlength, List.length_append] at hshort
      exact List.length_eq_zero_iff.mp (by omega)
    refine ⟨rfl, rfl, fun t _ => ⟨rfl, rfl⟩, enumArcs (fst.arcs s), [], ?_, ?_, ?_, ?_⟩
    · rw [map_snd_enumArcs]
    · rw [List.append_nil]
    · simp
    · simp

theorem Split.congr {finalWeight finalWeight' : ℕ → W} {edges kept folded : List (ℕ × Arc L W)}
    {weight weight' : W} (h : Split removable finalWeight edges kept folded weight weight')
    (hsame : ∀ t, removable t = true → finalWeight t = finalWeight' t) :
    Split removable finalWeight' edges kept folded weight weight' := by
  refine ⟨h.perm, h.ends, fun a => ?_⟩
  have hmap : (folded.map fun e => a * (e.2.weight * finalWeight e.2.nextstate)) =
      folded.map fun e => a * (e.2.weight * finalWeight' e.2.nextstate) :=
    List.map_congr_left fun e he => by rw [hsame _ (h.ends e he).1]
  rw [h.weight a, hmap]

/- The states below `k` split and the others as they were. -/
structure Folded (removable : ℕ → Bool) (fst fst' : VectorFst L W) (k : ℕ) : Prop where
  numStates : fst'.numStates = fst.numStates
  start : fst'.start = fst.start
  others : ∀ t, k ≤ t → fst'.arcs t = fst.arcs t ∧ fst'.finalWeight t = fst.finalWeight t
  split : ∀ s < k, ∃ kept folded, fst'.arcs s = kept.map (·.2) ∧ Split removable fst.finalWeight
    (enumArcs (fst.arcs s)) kept folded (fst.finalWeight s) (fst'.finalWeight s)

theorem Folded.finalWeight_of_removable {fst' : VectorFst L W} {k : ℕ}
    (h : Folded removable fst fst' k)
    (hends : ∀ t, removable t = true → ∀ arc ∈ fst.arcs t, removable arc.nextstate = false)
    (ht : removable t = true) : fst'.finalWeight t = fst.finalWeight t := by
  by_cases hk : k ≤ t
  · exact (h.others t hk).2
  · obtain ⟨kept, folded, -, hsplit⟩ := h.split t (by omega)
    have hnil := hsplit.eq_of_keeps fun e he =>
      hends t ht e.2 (List.mem_of_getElem? (mem_enumArcs.mp he))
    have hweight := hsplit.weight 1
    rw [hnil] at hweight
    simpa using hweight

theorem folded_step (hdist : leftDistributive = true → ∀ a b c : W, a * (b + c) = a * b + a * c)
    {fst' : VectorFst L W} {k : ℕ}
    (hends : ∀ t, removable t = true → ∀ arc ∈ fst.arcs t, removable arc.nextstate = false)
    (h : Folded removable fst fst' k) (hk : k < fst.numStates) :
    Folded removable fst (foldState removable leftDistributive fst' k) (k + 1) := by
  have hturn : Turn removable fst' (foldState removable leftDistributive fst' k) k :=
    foldState_turn hdist (h.numStates.symm ▸ hk)
  constructor
  · exact hturn.numStates.trans h.numStates
  · exact hturn.start.trans h.start
  · intro t ht
    obtain ⟨harcs, hfinal⟩ := hturn.others t (by omega)
    obtain ⟨harcs', hfinal'⟩ := h.others t (by omega)
    exact ⟨harcs.trans harcs', hfinal.trans hfinal'⟩
  · intro s hs
    by_cases hsk : s = k
    · subst hsk
      obtain ⟨kept, folded, harcs, hsplit⟩ := hturn.split
      obtain ⟨harcs', hfinal'⟩ := h.others s le_rfl
      rw [harcs', hfinal'] at hsplit
      exact ⟨kept, folded, harcs, hsplit.congr fun t ht => h.finalWeight_of_removable hends ht⟩
    · obtain ⟨harcs, hfinal⟩ := hturn.others s hsk
      rw [harcs, hfinal]
      exact h.split s (by omega)

theorem folded_loop (hdist : leftDistributive = true → ∀ a b c : W, a * (b + c) = a * b + a * c)
    (hends : ∀ t, removable t = true → ∀ arc ∈ fst.arcs t, removable arc.nextstate = false) {k : ℕ}
    (hk : k ≤ fst.numStates) : Folded removable fst
      ((List.range k).foldl (foldState removable leftDistributive) fst) k := by
  induction k with
  | zero => exact ⟨rfl, rfl, fun t _ => ⟨rfl, rfl⟩, fun s hs => absurd hs (by omega)⟩
  | succ k ih =>
    rw [List.range_succ, List.foldl_append]
    exact folded_step hdist hends (ih (by omega)) (by omega)

end Loop

section Sums

variable {removable : ℕ → Bool} {fst fst' : VectorFst L W}

/- Every state of the FST split, those there are not into nothing. -/
theorem Folded.lists (h : Folded removable fst fst' fst.numStates) :
    ∃ kept folded : ℕ → List (ℕ × Arc L W), ∀ s, fst'.arcs s = (kept s).map (·.2) ∧
      Split removable fst.finalWeight (enumArcs (fst.arcs s)) (kept s) (folded s)
        (fst.finalWeight s) (fst'.finalWeight s) := by
  have hsplit : ∀ s, ∃ kept folded : List (ℕ × Arc L W), fst'.arcs s = kept.map (·.2) ∧
      Split removable fst.finalWeight (enumArcs (fst.arcs s)) kept folded (fst.finalWeight s)
        (fst'.finalWeight s) := by
    intro s
    by_cases hs : s < fst.numStates
    · exact h.split s hs
    · have hle : fst.numStates ≤ s := by omega
      have hle' : fst'.numStates ≤ s := h.numStates.symm ▸ hle
      refine ⟨[], [], VectorFst.arcs_of_le hle', ?_, by simp, ?_⟩
      · rw [VectorFst.arcs_of_le hle]
        exact List.Perm.refl _
      · intro a
        rw [VectorFst.finalWeight_of_le hle, VectorFst.finalWeight_of_le hle']
        simp
  choose kept folded hlists using hsplit
  exact ⟨kept, folded, hlists⟩

/- The part of a path before it ends in a removable state. -/
def stem (folded : ℕ → List (ℕ × Arc L W)) : ℕ → List (ℕ × Arc L W) → List (ℕ × Arc L W)
  | _, [] => []
  | s, e :: p => if e ∈ folded s then [] else e :: stem folded e.2.nextstate p

/- The paths that have the stem `b`, which ends in `u`. -/
def withStem (fst : VectorFst L W) (folded : ℕ → List (ℕ × Arc L W)) (u : ℕ)
    (b : List (ℕ × Arc L W)) : List (List (ℕ × Arc L W)) :=
  (if fst.finalWeight u ≠ 0 then [b] else []) ++ (folded u).map fun e => b ++ [e]

def keptFrom (kept : ℕ → List (ℕ × Arc L W)) (s : ℕ) : Set (List (ℕ × Arc L W)) :=
  {b | ∃ t, IsWalk (fun s e => e ∈ kept s) follow s b t}

variable {kept folded : ℕ → List (ℕ × Arc L W)} {weight' : ℕ → W}

variable {b : List (ℕ × Arc L W)}

theorem mem_withStem {u : ℕ} {a : List (ℕ × Arc L W)} : a ∈ withStem fst folded u b ↔
    (a = b ∧ fst.finalWeight u ≠ 0) ∨ ∃ e ∈ folded u, a = b ++ [e] := by
  unfold withStem
  by_cases hfinal : fst.finalWeight u = 0
  · simp [hfinal, eq_comm]
  · simp [hfinal, eq_comm]

theorem cons_mem_withStem {u : ℕ} {e : ℕ × Arc L W} {a : List (ℕ × Arc L W)} :
    a ∈ withStem fst folded u (e :: b) ↔ ∃ a', a = e :: a' ∧ a' ∈ withStem fst folded u b := by
  rw [mem_withStem]
  constructor
  · rintro (⟨rfl, hfinal⟩ | ⟨e', he', rfl⟩)
    · exact ⟨b, rfl, mem_withStem.mpr (Or.inl ⟨rfl, hfinal⟩)⟩
    · exact ⟨b ++ [e'], rfl, mem_withStem.mpr (Or.inr ⟨e', he', rfl⟩)⟩
  · rintro ⟨a', rfl, ha'⟩
    rcases mem_withStem.mp ha' with ⟨rfl, hfinal⟩ | ⟨e', he', rfl⟩
    · exact Or.inl ⟨rfl, hfinal⟩
    · exact Or.inr ⟨e', he', rfl⟩

variable (hsplit : ∀ s, Split removable fst.finalWeight (enumArcs (fst.arcs s)) (kept s)
    (folded s) (fst.finalWeight s) (weight' s))
  (hends : ∀ t, removable t = true → fst.finalWeight t ≠ 0 ∧ ∀ p ∈ acceptingFrom fst t, p = [])

include hsplit

theorem leaves_iff {s : ℕ} {e : ℕ × Arc L W} : Leaves fst s e ↔ e ∈ kept s ∨ e ∈ folded s := by
  have hmem : Leaves fst s e ↔ e ∈ enumArcs (fst.arcs s) := mem_enumArcs.symm
  rw [hmem, (hsplit s).perm.mem_iff, List.mem_append]

theorem nodup_lists (s : ℕ) : (kept s).Nodup ∧ (folded s).Nodup ∧ ∀ e ∈ kept s, e ∉ folded s := by
  have hnodup := (hsplit s).perm.nodup_iff.mp (nodup_enumArcs (fst.arcs s))
  obtain ⟨hkept, hfolded, hdisjoint⟩ := List.nodup_append.mp hnodup
  exact ⟨hkept, hfolded, fun e he he' => hdisjoint e he e he' rfl⟩

theorem stem_mem {s : ℕ} {p : List (ℕ × Arc L W)} (hp : p ∈ acceptingFrom fst s) :
    stem folded s p ∈ keptFrom kept s := by
  induction p generalizing s with
  | nil => exact ⟨s, rfl⟩
  | cons e p ih =>
    obtain ⟨he, hp⟩ := cons_mem_acceptedFrom.mp hp
    rw [stem]
    split
    · exact ⟨s, rfl⟩
    next hkept =>
      obtain ⟨t, ht⟩ := ih hp
      exact ⟨t, ((leaves_iff hsplit).mp he).resolve_right hkept, ht⟩

include hends

theorem withStem_iff {s u : ℕ} (hb : IsWalk (fun s e => e ∈ kept s) follow s b u)
    (a : List (ℕ × Arc L W)) :
    a ∈ withStem fst folded u b ↔ a ∈ acceptingFrom fst s ∧ stem folded s a = b := by
  induction b generalizing s a with
  | nil =>
    obtain rfl : s = u := hb
    rw [mem_withStem]
    cases a with
    | nil => simp [stem, nil_mem_acceptingFrom]
    | cons e p =>
      rw [cons_mem_acceptingFrom, stem]
      constructor
      · rintro (⟨hnil, -⟩ | ⟨e', he', heq⟩)
        · cases hnil
        · obtain ⟨rfl, rfl⟩ := List.cons.inj heq
          have hfinal := (hends _ ((hsplit s).ends e he').1).1
          exact ⟨⟨(leaves_iff hsplit).mpr (Or.inr he'), nil_mem_acceptingFrom.mpr hfinal⟩,
            if_pos he'⟩
      · rintro ⟨⟨-, hp⟩, hstem⟩
        by_cases hfolded : e ∈ folded s
        · have hnil := (hends _ ((hsplit s).ends e hfolded).1).2 p hp
          exact Or.inr ⟨e, hfolded, by rw [hnil]; rfl⟩
        · rw [if_neg hfolded] at hstem
          cases hstem
  | cons e b ih =>
    obtain ⟨he, hb⟩ := hb
    have hnot := (nodup_lists hsplit s).2.2 e he
    rw [cons_mem_withStem]
    constructor
    · rintro ⟨p, rfl, hp⟩
      obtain ⟨hp, hstem⟩ := (ih hb p).mp hp
      refine ⟨cons_mem_acceptingFrom.mpr ⟨(leaves_iff hsplit).mpr (Or.inl he), hp⟩, ?_⟩
      rw [stem, if_neg hnot]
      exact congrArg _ hstem
    · rintro ⟨hp, hstem⟩
      cases a with
      | nil => simp [stem] at hstem
      | cons e' p =>
        obtain ⟨-, hp⟩ := cons_mem_acceptingFrom.mp hp
        rw [stem] at hstem
        split at hstem
        · cases hstem
        · obtain ⟨rfl, hrest⟩ := List.cons.inj hstem
          exact ⟨p, rfl, (ih hb p).mpr ⟨hp, hrest⟩⟩

theorem weight_withStem {u : ℕ} (hstart : fst.start = some start)
    (hb : IsWalk (fun s e => e ∈ kept s) follow start b u) :
    (withStem fst folded u b).Nodup ∧
      ((withStem fst folded u b).map (weightOf fst)).sum = arcsWeight b * weight' u := by
  have hend : walkEnd follow start b = u := walkEnd_eq hb
  constructor
  · have hinj : ((folded u).map fun e => b ++ [e]).Nodup :=
      (nodup_lists hsplit u).2.1.map fun e e' h => by simpa using h
    refine List.nodup_append.mpr ⟨by split <;> simp, hinj, ?_⟩
    rintro x hx y hy rfl
    obtain ⟨e, -, rfl⟩ := List.mem_map.mp hy
    split at hx <;> simp at hx
  · have hfirst : ((if fst.finalWeight u ≠ 0 then [b] else []).map (weightOf fst)).sum =
        arcsWeight b * fst.finalWeight u := by
      by_cases hzero : fst.finalWeight u = 0
      · simp [hzero]
      · simp [hzero, weightOf, lastWeight, hstart, hend]
    have hrest : ∀ e : ℕ × Arc L W, weightOf fst (b ++ [e]) =
        arcsWeight b * (e.2.weight * fst.finalWeight e.2.nextstate) := by
      intro e
      simp [weightOf, lastWeight, arcsWeight, hstart, walkEnd, follow, mul_assoc]
    unfold withStem
    rw [List.map_append, List.sum_append, hfirst, List.map_map, (hsplit u).weight]
    congr 2
    exact List.map_congr_left fun e _ => hrest e

omit hends in
theorem strings_of_withStem {u : ℕ} {a b : List (ℕ × Arc L W)}
    (ha : a ∈ withStem fst folded u b) : istring a = istring b ∧ ostring a = ostring b := by
  rcases mem_withStem.mp ha with ⟨rfl, -⟩ | ⟨e, he, rfl⟩
  · exact ⟨rfl, rfl⟩
  · obtain ⟨-, hi, ho⟩ := (hsplit u).ends e he
    simp [istring, ostring, hi, ho]

omit hsplit hends in
/- The kept paths that spell the two strings, wherever they end. -/
def keptRelated (kept : ℕ → List (ℕ × Arc L W)) (s : ℕ) (i o : List L) :
    Set (List (ℕ × Arc L W)) :=
  {b | b ∈ keptFrom kept s ∧ istring b = i ∧ ostring b = o}

/- The kept part of the graph gives the strings the weights the FST gives them. -/
theorem hasSum_kept [TopologicalSpace W] [ContinuousAdd W] [RegularSpace W]
    (hstart : fst.start = some start) {i o : List L} {w : W} (h : Gives fst i o w) :
    HasSum (fun b : keptRelated kept start i o =>
      arcsWeight b.1 * weight' (walkEnd follow start b.1)) w := by
  classical
  have hmaps : Set.MapsTo (stem folded start) (related fst i o) (keptRelated kept start i o) := by
    rintro p ⟨hp, hi, ho⟩
    have hp' := (mem_acceptingPaths hstart).mp hp
    obtain ⟨u, hu⟩ := stem_mem hsplit hp'
    have hstem := (withStem_iff hsplit hends hu p).mpr ⟨hp', rfl⟩
    obtain ⟨hi', ho'⟩ := strings_of_withStem hsplit hstem
    exact ⟨⟨u, hu⟩, hi'.symm.trans hi, ho'.symm.trans ho⟩
  let group : List (ℕ × Arc L W) → Finset (List (ℕ × Arc L W)) := fun b =>
    (withStem fst folded (walkEnd follow start b) b).toFinset
  have hgroup : ∀ b ∈ keptRelated kept start i o, ∀ p, p ∈ group b ↔
      p ∈ related fst i o ∧ stem folded start p = b := by
    rintro b ⟨⟨u, hu⟩, hi, ho⟩ p
    have hmem : p ∈ group b ↔ p ∈ withStem fst folded u b := by
      rw [← walkEnd_eq hu]
      exact List.mem_toFinset
    rw [hmem, withStem_iff hsplit hends hu]
    constructor
    · rintro ⟨hp, hstem⟩
      have hmem := (withStem_iff hsplit hends hu p).mpr ⟨hp, hstem⟩
      obtain ⟨hi', ho'⟩ := strings_of_withStem hsplit hmem
      exact ⟨⟨(mem_acceptingPaths hstart).mpr hp, hi'.trans hi, ho'.trans ho⟩, hstem⟩
    · rintro ⟨⟨hp, -⟩, hstem⟩
      exact ⟨(mem_acceptingPaths hstart).mp hp, hstem⟩
  have hsum : ∀ b ∈ keptRelated kept start i o, ∑ p ∈ group b, weightOf fst p =
      arcsWeight b * weight' (walkEnd follow start b) := by
    rintro b ⟨⟨u, hu⟩, -⟩
    obtain ⟨hnodup, hsum⟩ := weight_withStem hsplit hends hstart hu
    have hfinset : ∑ p ∈ group b, weightOf fst p =
        ((withStem fst folded u b).map (weightOf fst)).sum := by
      rw [← List.sum_toFinset _ hnodup, ← walkEnd_eq hu]
    rw [hfinset, hsum, walkEnd_eq hu]
  exact hasSum_regroup hmaps group hgroup hsum h

end Sums

section Folding

variable {removable : ℕ → Bool} {fst fst' : VectorFst L W}

theorem Folded.gives [TopologicalSpace W] [ContinuousAdd W] [RegularSpace W]
    (h : Folded removable fst fst' fst.numStates)
    (hends : ∀ t, removable t = true → fst.finalWeight t ≠ 0 ∧ ∀ p ∈ acceptingFrom fst t, p = [])
    (hstart : fst.start = some start) {i o : List L} {w : W} (hgives : Gives fst i o w) :
    Gives fst' i o w := by
  obtain ⟨kept, folded, hlists⟩ := h.lists
  have hsplit := fun s => (hlists s).2
  have hsum := hasSum_kept hsplit hends hstart hgives
  have hcovers : Covers (Leaves fst') follow (fun s e => e ∈ kept s) follow id (listed kept)
      fun _ => True :=
    covers_of_lists (fun k _ => (hlists k).1) (fun k => (nodup_lists hsplit k).1)
      (fun _ _ _ => Iff.rfl) fun _ _ _ _ => ⟨trivial, rfl⟩
  have hstart' : fst'.start = some start := h.start.trans hstart
  let F := Covers.project follow (listed kept) start
  have hbij : Set.BijOn F (acceptingFrom fst' start) (acceptedFrom (fun s e => e ∈ kept s) follow
      (fun t => fst'.finalWeight t ≠ 0) start) :=
    hcovers.bijOn_project (fun _ _ => Iff.rfl) trivial
  have hread : ∀ p ∈ acceptingFrom fst' start, (F p).map reading = p.map reading := fun p hp =>
    hcovers.map_project (reading_listed (fun k _ => (hlists k).1) fun _ _ => rfl) trivial hp
  have hend : ∀ p ∈ acceptingFrom fst' start,
      walkEnd follow start (F p) = walkEnd follow start p := fun p hp =>
    hcovers.walkEnd_project trivial hp
  let B : Set (List (ℕ × Arc L W)) := {b | b ∈ acceptedFrom (fun s e => e ∈ kept s) follow
    (fun t => fst'.finalWeight t ≠ 0) start ∧ istring b = i ∧ ostring b = o}
  let g : List (ℕ × Arc L W) → W := fun b =>
    arcsWeight b * fst'.finalWeight (walkEnd follow start b)
  have hsub : B ⊆ keptRelated kept start i o := by
    rintro b ⟨⟨t, hb, -⟩, hi, ho⟩
    exact ⟨⟨t, hb⟩, hi, ho⟩
  have hzero : ∀ b ∈ keptRelated kept start i o, b ∉ B → g b = 0 := by
    rintro b ⟨⟨t, hb⟩, hi, ho⟩ hnot
    have hfinal : fst'.finalWeight t = 0 := by
      by_contra hne
      exact hnot ⟨⟨t, hb, hne⟩, hi, ho⟩
    change arcsWeight b * fst'.finalWeight (walkEnd follow start b) = 0
    rw [walkEnd_eq hb, hfinal, mul_zero]
  have hB : HasSum (fun b : B => g b) w := hasSum_restrict hsub hzero hsum
  have hrelated : Set.BijOn F (related fst' i o) B := by
    refine ⟨?_, ?_, ?_⟩
    · rintro p ⟨hp, hi, ho⟩
      have hp' := (mem_acceptingPaths hstart').mp hp
      exact ⟨hbij.mapsTo hp', (istring_eq_of_reading (hread p hp')).trans hi,
        (ostring_eq_of_reading (hread p hp')).trans ho⟩
    · exact hbij.injOn.mono fun p hp => (mem_acceptingPaths hstart').mp hp.1
    · rintro b ⟨hb, hi, ho⟩
      obtain ⟨p, hp, rfl⟩ := hbij.surjOn hb
      exact ⟨p, ⟨(mem_acceptingPaths hstart').mpr hp,
        (istring_eq_of_reading (hread p hp)).symm.trans hi,
        (ostring_eq_of_reading (hread p hp)).symm.trans ho⟩, rfl⟩
  have hweight : ∀ p ∈ related fst' i o, g (F p) = weightOf fst' p := by
    rintro p ⟨hp, -⟩
    have hp' := (mem_acceptingPaths hstart').mp hp
    change arcsWeight (F p) * fst'.finalWeight (walkEnd follow start (F p)) = _
    unfold weightOf lastWeight
    rw [arcsWeight_eq_of_reading (hread p hp'), hend p hp', hstart', Option.getD_some]
  exact (hasSum_bijOn hrelated hweight).mp hB

theorem Folded.inRange (h : Folded removable fst fst' fst.numStates) (hrange : fst.InRange) :
    fst'.InRange := by
  obtain ⟨kept, folded, hlists⟩ := h.lists
  constructor
  · intro s hs
    rw [h.numStates]
    exact hrange.start s (h.start ▸ hs)
  · intro s arc harc
    rw [(hlists s).1] at harc
    obtain ⟨e, he, rfl⟩ := List.mem_map.mp harc
    have hleaves := (leaves_iff fun s => (hlists s).2).mpr (Or.inl he)
    rw [h.numStates]
    exact hrange.arcs s e.2 (List.mem_of_getElem? hleaves)

end Folding

section Removing

variable {isMember : W → Bool} {fst : VectorFst L W}

/- From a removable state no arc leads on to a final state. -/
theorem removable_iff (h : fst.InRange) (hstart : fst.start = some start) :
    removable isMember fst t = true ↔ fst.finalWeight t ≠ 0 ∧
      ∀ arc ∈ fst.arcs t, ¬ CoAccessible isMember fst anyArc arc.nextstate := by
  have hmark : ∀ arc ∈ fst.arcs t, ((dfsVisitAny fst (sccVisitor isMember true fst)
      (SccVisitor.new 0)).coaccess arc.nextstate = true ↔
        CoAccessible isMember fst anyArc arc.nextstate) := fun arc harc =>
    (marks_exact hstart (h.start start hstart) (SccVisitor.new 0) arc.nextstate).2
      (h.arcs t arc harc)
  unfold removable
  simp only [Bool.and_eq_true, decide_eq_true_eq, Bool.not_eq_true', List.any_eq_false]
  refine and_congr_right fun _ => forall₂_congr fun arc harc => ?_
  rw [hmark arc harc]

variable (h : fst.InRange) (hmember : ∀ w, isMember w = true) {start : ℕ}
  (hstart : fst.start = some start)

include h hmember hstart

theorem removable_next (ht : removable isMember fst t = true) :
    ∀ arc ∈ fst.arcs t, removable isMember fst arc.nextstate = false := by
  intro arc harc
  rw [Bool.eq_false_iff]
  intro hnext
  have hfinal := ((removable_iff h hstart).mp hnext).1
  exact ((removable_iff h hstart).mp ht).2 arc harc
    ⟨arc.nextstate, ReflTransGen.refl, hmember _, hfinal⟩

theorem accepting_removable (ht : removable isMember fst t = true) :
    ∀ p ∈ acceptingFrom fst t, p = [] := by
  intro p hp
  cases p with
  | nil => rfl
  | cons e p =>
    obtain ⟨he, hp⟩ := cons_mem_acceptingFrom.mp hp
    exact absurd (coAccessible_of_accepted (finals_of_member fun s => hmember _) hp)
      (((removable_iff h hstart).mp ht).2 e.2 (List.mem_of_getElem? he))

variable {leftDistributive : Bool}
  (hdist : leftDistributive = true → ∀ a b c : W, a * (b + c) = a * b + a * c)

include hdist

/- Folding final states away changes no weight the FST gives to a pair of strings. -/
theorem rmFinalEpsilon_gives [TopologicalSpace W] [ContinuousAdd W] [RegularSpace W] :
    ∃ fst', fst.rmFinalEpsilon isMember leftDistributive = some fst' ∧
      ∀ i o w, Gives fst i o w → Gives fst' i o w := by
  have hfolded : Folded (removable isMember fst) fst ((List.range fst.numStates).foldl
      (foldState (removable isMember fst) leftDistributive) fst) fst.numStates :=
    folded_loop hdist (fun t ht => removable_next h hmember hstart ht) le_rfl
  obtain ⟨fst', hconnect, -, hsame⟩ :=
    connect_samePaths (hfolded.inRange h) fun s => hmember _
  refine ⟨fst', hconnect, fun i o w hgives => hsame.gives.mp ?_⟩
  exact hfolded.gives (fun t ht => ⟨((removable_iff h hstart).mp ht).1,
    accepting_removable h hmember hstart ht⟩) hstart hgives

end Removing

end RmFinalEpsilonExact

end Sicada
