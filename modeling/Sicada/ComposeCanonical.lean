import Sicada.ComposeInterleave

set_option linter.unusedSectionVars false

namespace Sicada.ComposeCanonical

open PropertyBits Paths Walk ComposeMoves ComposeInterleave

variable {L W : Type} [ArcLabel L] [Semiring W] [DecidableEq W] {left right : VectorFst L W}
  {tuple : ComposeStateTuple}

section Heads

/- Whether a path of the first FST goes on with an epsilon, and one of the second. -/
def LeadsOut (p : List (ℕ × Arc L W)) : Prop := ∃ e ∈ p.head?, e.2.olabel = epsilon

def LeadsIn (p : List (ℕ × Arc L W)) : Prop := ∃ e ∈ p.head?, e.2.ilabel = epsilon

variable {p : List (ℕ × Arc L W)}

theorem leadsOut_cons {e : ℕ × Arc L W} :
    LeadsOut (e :: p) ↔ e.2.olabel = epsilon := by
  simp [LeadsOut]

theorem leadsIn_cons {e : ℕ × Arc L W} :
    LeadsIn (e :: p) ↔ e.2.ilabel = epsilon := by
  simp [LeadsIn]

theorem not_leadsOut_nil : ¬ LeadsOut ([] : List (ℕ × Arc L W)) := by
  simp [LeadsOut]

theorem not_leadsIn_nil : ¬ LeadsIn ([] : List (ℕ × Arc L W)) := by
  simp [LeadsIn]

theorem exists_of_leadsOut (h : LeadsOut p) :
    ∃ e q, p = e :: q ∧ e.2.olabel = epsilon := by
  obtain ⟨e, he, heps⟩ := h
  obtain ⟨q, rfl⟩ := List.head?_eq_some_iff.mp he
  exact ⟨e, q, rfl, heps⟩

theorem exists_of_leadsIn (h : LeadsIn p) :
    ∃ e q, p = e :: q ∧ e.2.ilabel = epsilon := by
  obtain ⟨e, he, heps⟩ := h
  obtain ⟨q, rfl⟩ := List.head?_eq_some_iff.mp he
  exact ⟨e, q, rfl, heps⟩

/- With no epsilon to take, two paths that meet go on with one label. -/
theorem heads_of_labels {p1 p2 : List (ℕ × Arc L W)} (hout : ¬ LeadsOut p1) (hin : ¬ LeadsIn p2)
    (hmeet : ostring p1 = istring p2) (hne : p1 ≠ [] ∨ p2 ≠ []) :
    ∃ e1 q1 e2 q2, p1 = e1 :: q1 ∧ p2 = e2 :: q2 ∧ e1.2.olabel = e2.2.ilabel ∧
      e1.2.olabel ≠ epsilon := by
  cases p1 with
  | nil =>
    cases p2 with
    | nil => simp at hne
    | cons e2 q2 =>
      rw [istring_cons_of_ne (fun heps => hin (leadsIn_cons.mpr heps))] at hmeet
      exact absurd hmeet (by simp [ostring])
  | cons e1 q1 =>
    have hne1 : e1.2.olabel ≠ epsilon := fun heps => hout (leadsOut_cons.mpr heps)
    rw [ostring_cons_of_ne hne1] at hmeet
    cases p2 with
    | nil => exact absurd hmeet (by simp [istring])
    | cons e2 q2 =>
      rw [istring_cons_of_ne (fun heps => hin (leadsIn_cons.mpr heps))] at hmeet
      exact ⟨e1, q1, e2, q2, rfl, rfl, (List.cons.inj hmeet).1, hne1⟩

/- A state none of whose arcs is an epsilon, and one that has nothing else to go on with. -/
def NoEps1 (left : VectorFst L W) (s1 : ℕ) : Prop := left.numOutputEpsilons s1 = 0

def NoEps2 (right : VectorFst L W) (s2 : ℕ) : Prop := right.numInputEpsilons s2 = 0

def AllEps1 (left : VectorFst L W) (s1 : ℕ) : Prop :=
  left.numArcs s1 = left.numOutputEpsilons s1 ∧ left.finalWeight s1 = 0

def AllEps2 (right : VectorFst L W) (s2 : ℕ) : Prop :=
  right.numArcs s2 = right.numInputEpsilons s2 ∧ right.finalWeight s2 = 0

instance (s1 : ℕ) : Decidable (NoEps1 left s1) := inferInstanceAs (Decidable (_ = _))

instance (s2 : ℕ) : Decidable (NoEps2 right s2) := inferInstanceAs (Decidable (_ = _))

instance (s1 : ℕ) : Decidable (AllEps1 left s1) := inferInstanceAs (Decidable (_ ∧ _))

instance (s2 : ℕ) : Decidable (AllEps2 right s2) := inferInstanceAs (Decidable (_ ∧ _))

variable (h : Prepared left right)

include h

theorem not_leadsOut {s1 : ℕ} (hno : NoEps1 left s1) (hp : p ∈ acceptingFrom left s1) :
    ¬ LeadsOut p := by
  intro hout
  obtain ⟨e, q, rfl, heps⟩ := exists_of_leadsOut hout
  have hzero : left.numOutputEpsilons s1 = 0 := hno
  rw [h.counts1, List.countP_eq_zero] at hzero
  exact hzero e.2 (mem_of_leaves (cons_mem_acceptingFrom.mp hp).1) (by simpa using heps)

theorem not_leadsIn {s2 : ℕ} (hno : NoEps2 right s2) (hp : p ∈ acceptingFrom right s2) :
    ¬ LeadsIn p := by
  intro hin
  obtain ⟨e, q, rfl, heps⟩ := exists_of_leadsIn hin
  have hzero : right.numInputEpsilons s2 = 0 := hno
  rw [h.counts2, List.countP_eq_zero] at hzero
  exact hzero e.2 (mem_of_leaves (cons_mem_acceptingFrom.mp hp).1) (by simpa using heps)

theorem leadsOut_of_all {s1 : ℕ} (hall : AllEps1 left s1) (hp : p ∈ acceptingFrom left s1) :
    LeadsOut p := by
  cases p with
  | nil => exact absurd hall.2 (nil_mem_acceptingFrom.mp hp)
  | cons e q =>
    have hcount := hall.1
    rw [VectorFst.numArcs_eq, h.counts1, eq_comm, List.countP_eq_length] at hcount
    have heps := hcount e.2 (mem_of_leaves (cons_mem_acceptingFrom.mp hp).1)
    exact leadsOut_cons.mpr (by simpa using heps)

theorem leadsIn_of_all {s2 : ℕ} (hall : AllEps2 right s2) (hp : p ∈ acceptingFrom right s2) :
    LeadsIn p := by
  cases p with
  | nil => exact absurd hall.2 (nil_mem_acceptingFrom.mp hp)
  | cons e q =>
    have hcount := hall.1
    rw [VectorFst.numArcs_eq, h.counts2, eq_comm, List.countP_eq_length] at hcount
    have heps := hcount e.2 (mem_of_leaves (cons_mem_acceptingFrom.mp hp).1)
    exact leadsIn_cons.mpr (by simpa using heps)

end Heads

section HeadMoves

open Classical in
/- An epsilon of the first FST, then one of the second, then a label of both. -/
noncomputable def outFirst (p1 p2 : List (ℕ × Arc L W)) : Option (Move L W) :=
  if LeadsOut p1 then p1.head?.map fun e1 => (some e1, none)
  else if LeadsIn p2 then p2.head?.map fun e2 => (none, some e2)
  else Option.map₂ (fun e1 e2 => (some e1, some e2)) p1.head? p2.head?

open Classical in
noncomputable def inFirst (p1 p2 : List (ℕ × Arc L W)) : Option (Move L W) :=
  if LeadsIn p2 then p2.head?.map fun e2 => (none, some e2)
  else if LeadsOut p1 then p1.head?.map fun e1 => (some e1, none)
  else Option.map₂ (fun e1 e2 => (some e1, some e2)) p1.head? p2.head?

open Classical in
/- An epsilon of both, then one of either, then a label of both. -/
noncomputable def together (p1 p2 : List (ℕ × Arc L W)) : Option (Move L W) :=
  if LeadsOut p1 ∧ LeadsIn p2 then Option.map₂ (fun e1 e2 => (some e1, some e2)) p1.head? p2.head?
  else outFirst p1 p2

theorem outFirst_nil : outFirst ([] : List (ℕ × Arc L W)) [] = none := by
  simp [outFirst, not_leadsOut_nil, not_leadsIn_nil]

theorem inFirst_nil : inFirst ([] : List (ℕ × Arc L W)) [] = none := by
  simp [inFirst, not_leadsOut_nil, not_leadsIn_nil]

theorem together_nil : together ([] : List (ℕ × Arc L W)) [] = none := by
  simp [together, not_leadsOut_nil, outFirst_nil]

end HeadMoves

section Sequence

variable {e1 e2 : ℕ × Arc L W}

theorem sequence_alleps1 (s1 : ℕ) (fs : CharFilterState) :
    (SequenceComposeFilter.setState left s1 fs).alleps1 = true ↔ AllEps1 left s1 := by
  simp [SequenceComposeFilter.setState, AllEps1]

theorem sequence_noeps1 (s1 : ℕ) (fs : CharFilterState) :
    (SequenceComposeFilter.setState left s1 fs).noeps1 = true ↔ NoEps1 left s1 := by
  simp [SequenceComposeFilter.setState, NoEps1]

theorem sequence_second : answer (sequenceFilter left) tuple (none, some e2) =
    if AllEps1 left tuple.s1 then none
    else if NoEps1 left tuple.s1 then some .default else some .eps1 := by
  simp only [answer, sequenceFilter, SequenceComposeFilter.filterArc, arcOf1, if_true,
    sequence_alleps1, sequence_noeps1]

theorem sequence_first (hne : e1.2.olabel ≠ noLabel) :
    answer (sequenceFilter left) tuple (some e1, none) =
      if tuple.fs = .default then some .default else none := by
  change (if e1.2.olabel = noLabel then _ else if (noLabel : L) = noLabel then
    (if tuple.fs ≠ .default then none else some CharFilterState.default) else _) = _
  rw [if_neg hne, if_pos rfl, ite_not]

theorem sequence_both (hne1 : e1.2.olabel ≠ noLabel) (hne2 : e2.2.ilabel ≠ noLabel) :
    answer (sequenceFilter left) tuple (some e1, some e2) =
      if e1.2.olabel = epsilon then none else some .default := by
  change (if e1.2.olabel = noLabel then _ else if e2.2.ilabel = noLabel then _
    else if e1.2.olabel = epsilon then none else some CharFilterState.default) = _
  rw [if_neg hne1, if_neg hne2]

/- Once the second FST has gone first, the first takes no epsilon from where it stands. -/
def SequenceAllows (fs : CharFilterState) (p1 _ : List (ℕ × Arc L W)) : Prop :=
  fs = .default ∨ ¬ LeadsOut p1

theorem sequence_step (h : Prepared left right) {m : Move L W} {p1 p2 : List (ℕ × Arc L W)}
    (hm : Enabled (sequenceFilter left) left right tuple m)
    (h1 : p1 ∈ acceptingFrom left (nextTuple (sequenceFilter left) tuple m).s1)
    (hallows : SequenceAllows (nextFilter (sequenceFilter left) tuple m) p1 p2) :
    SequenceAllows tuple.fs (m.1.toList ++ p1) (m.2.toList ++ p2) ∧
      outFirst (m.1.toList ++ p1) (m.2.toList ++ p2) = some m := by
  obtain ⟨hmeets, henabled⟩ := hm
  obtain ⟨_ | e1, _ | e2⟩ := m
  · exact hmeets.elim
  · obtain ⟨-, heps⟩ := hmeets
    have hout : ¬ LeadsOut p1 := by
      rw [nextFilter, sequence_second] at hallows
      rw [sequence_second] at henabled
      by_cases hall : AllEps1 left tuple.s1
      · simp [hall] at henabled
      · by_cases hno : NoEps1 left tuple.s1
        · exact not_leadsOut h hno h1
        · rw [if_neg hall, if_neg hno] at hallows
          exact hallows.resolve_left (by simp)
    refine ⟨Or.inr hout, ?_⟩
    change outFirst p1 (e2 :: p2) = some (none, some e2)
    rw [outFirst, if_neg hout, if_pos (leadsIn_cons.mpr heps)]
    rfl
  · obtain ⟨he1, heps⟩ := hmeets
    rw [sequence_first (h.labels1 _ _ (mem_of_leaves he1))] at henabled
    have hfs : tuple.fs = .default := by
      by_contra hfs
      simp [hfs] at henabled
    refine ⟨Or.inl hfs, ?_⟩
    change outFirst (e1 :: p1) p2 = some (some e1, none)
    rw [outFirst, if_pos (leadsOut_cons.mpr heps)]
    rfl
  · obtain ⟨he1, he2, hlabel⟩ := hmeets
    rw [sequence_both (h.labels1 _ _ (mem_of_leaves he1)) (h.labels2 _ _ (mem_of_leaves he2))]
      at henabled
    have hne : e1.2.olabel ≠ epsilon := by
      intro heps
      simp [heps] at henabled
    have hout : ¬ LeadsOut (e1 :: p1) := fun hout => hne (leadsOut_cons.mp hout)
    have hin : ¬ LeadsIn (e2 :: p2) := fun hin => hne (hlabel.trans (leadsIn_cons.mp hin))
    refine ⟨Or.inr hout, ?_⟩
    change outFirst (e1 :: p1) (e2 :: p2) = some (some e1, some e2)
    rw [outFirst, if_neg hout, if_neg hin]
    rfl

theorem sequence_take (h : Prepared left right) {p1 p2 : List (ℕ × Arc L W)}
    (h1 : p1 ∈ acceptingFrom left tuple.s1) (h2 : p2 ∈ acceptingFrom right tuple.s2)
    (hmeet : ostring p1 = istring p2) (hallows : SequenceAllows tuple.fs p1 p2)
    (hne : p1 ≠ [] ∨ p2 ≠ []) :
    ∃ m q1 q2, p1 = m.1.toList ++ q1 ∧ p2 = m.2.toList ++ q2 ∧
      Enabled (sequenceFilter left) left right tuple m ∧
        SequenceAllows (nextFilter (sequenceFilter left) tuple m) q1 q2 := by
  by_cases hout : LeadsOut p1
  · obtain ⟨e1, q1, rfl, heps⟩ := exists_of_leadsOut hout
    have he1 := (cons_mem_acceptingFrom.mp h1).1
    have hfs : tuple.fs = .default := hallows.resolve_right fun hno => hno hout
    have hanswer : answer (sequenceFilter left) tuple (some e1, none) = some .default := by
      rw [sequence_first (h.labels1 _ _ (mem_of_leaves he1)), if_pos hfs]
    refine ⟨(some e1, none), q1, p2, rfl, rfl, ⟨⟨he1, heps⟩, ?_⟩, Or.inl ?_⟩
    · rw [hanswer]
      rfl
    · rw [nextFilter, hanswer]
      rfl
  · by_cases hin : LeadsIn p2
    · obtain ⟨e2, q2, rfl, heps⟩ := exists_of_leadsIn hin
      have he2 := (cons_mem_acceptingFrom.mp h2).1
      have hanswer : (answer (sequenceFilter left) tuple (none, some e2)).isSome := by
        rw [sequence_second, if_neg fun hall => hout (leadsOut_of_all h hall h1)]
        split <;> rfl
      exact ⟨(none, some e2), p1, q2, rfl, rfl, ⟨⟨he2, heps⟩, hanswer⟩, Or.inr hout⟩
    · obtain ⟨e1, q1, e2, q2, rfl, rfl, hlabel, hlabelne⟩ := heads_of_labels hout hin hmeet hne
      have he1 := (cons_mem_acceptingFrom.mp h1).1
      have he2 := (cons_mem_acceptingFrom.mp h2).1
      have hanswer : answer (sequenceFilter left) tuple (some e1, some e2) = some .default := by
        rw [sequence_both (h.labels1 _ _ (mem_of_leaves he1)) (h.labels2 _ _ (mem_of_leaves he2)),
          if_neg hlabelne]
      refine ⟨(some e1, some e2), q1, q2, rfl, rfl, ⟨⟨he1, he2, hlabel⟩, ?_⟩, Or.inl ?_⟩
      · rw [hanswer]
        rfl
      · rw [nextFilter, hanswer]
        rfl

noncomputable def sequenceCanonical (h : Prepared left right) :
    Canonical (sequenceFilter left) left right where
  headMove := outFirst
  Allows := SequenceAllows
  headMove_nil := outFirst_nil
  allows_nil _ := Or.inr not_leadsOut_nil
  allows_default _ _ := Or.inl rfl
  step hm h1 _ hallows := sequence_step h hm h1 hallows
  take h1 h2 hmeet hallows hne := sequence_take h h1 h2 hmeet hallows hne

end Sequence

section AltSequence

variable {e1 e2 : ℕ × Arc L W}

theorem altSequence_alleps2 (s2 : ℕ) (fs : CharFilterState) :
    (AltSequenceComposeFilter.setState right s2 fs).alleps2 = true ↔ AllEps2 right s2 := by
  simp [AltSequenceComposeFilter.setState, AllEps2]

theorem altSequence_noeps2 (s2 : ℕ) (fs : CharFilterState) :
    (AltSequenceComposeFilter.setState right s2 fs).noeps2 = true ↔ NoEps2 right s2 := by
  simp [AltSequenceComposeFilter.setState, NoEps2]

theorem altSequence_first : answer (altSequenceFilter right) tuple (some e1, none) =
    if AllEps2 right tuple.s2 then none
    else if NoEps2 right tuple.s2 then some .default else some .eps1 := by
  simp only [answer, altSequenceFilter, AltSequenceComposeFilter.filterArc, arcOf2, if_true,
    altSequence_alleps2, altSequence_noeps2]

theorem altSequence_second (hne : e2.2.ilabel ≠ noLabel) :
    answer (altSequenceFilter right) tuple (none, some e2) =
      if tuple.fs = .eps1 then none else some .default := by
  change (if e2.2.ilabel = noLabel then _ else if (noLabel : L) = noLabel then
    (if tuple.fs = .eps1 then none else some CharFilterState.default) else _) = _
  rw [if_neg hne, if_pos rfl]

theorem altSequence_both (hne1 : e1.2.olabel ≠ noLabel) (hne2 : e2.2.ilabel ≠ noLabel) :
    answer (altSequenceFilter right) tuple (some e1, some e2) =
      if e1.2.olabel = epsilon then none else some .default := by
  change (if e2.2.ilabel = noLabel then _ else if e1.2.olabel = noLabel then _
    else if e1.2.olabel = epsilon then none else some CharFilterState.default) = _
  rw [if_neg hne2, if_neg hne1]

/- Once the first FST has gone first, the second takes no epsilon from where it stands. -/
def AltSequenceAllows (fs : CharFilterState) (_ p2 : List (ℕ × Arc L W)) : Prop :=
  fs ≠ .eps1 ∨ ¬ LeadsIn p2

theorem altSequence_step (h : Prepared left right) {m : Move L W} {p1 p2 : List (ℕ × Arc L W)}
    (hm : Enabled (altSequenceFilter right) left right tuple m)
    (h2 : p2 ∈ acceptingFrom right (nextTuple (altSequenceFilter right) tuple m).s2)
    (hallows : AltSequenceAllows (nextFilter (altSequenceFilter right) tuple m) p1 p2) :
    AltSequenceAllows tuple.fs (m.1.toList ++ p1) (m.2.toList ++ p2) ∧
      inFirst (m.1.toList ++ p1) (m.2.toList ++ p2) = some m := by
  obtain ⟨hmeets, henabled⟩ := hm
  obtain ⟨_ | e1, _ | e2⟩ := m
  · exact hmeets.elim
  · obtain ⟨he2, heps⟩ := hmeets
    rw [altSequence_second (h.labels2 _ _ (mem_of_leaves he2))] at henabled
    have hfs : tuple.fs ≠ .eps1 := by
      intro hfs
      simp [hfs] at henabled
    refine ⟨Or.inl hfs, ?_⟩
    change inFirst p1 (e2 :: p2) = some (none, some e2)
    rw [inFirst, if_pos (leadsIn_cons.mpr heps)]
    rfl
  · obtain ⟨-, heps⟩ := hmeets
    have hin : ¬ LeadsIn p2 := by
      rw [nextFilter, altSequence_first] at hallows
      rw [altSequence_first] at henabled
      by_cases hall : AllEps2 right tuple.s2
      · simp [hall] at henabled
      · by_cases hno : NoEps2 right tuple.s2
        · exact not_leadsIn h hno h2
        · rw [if_neg hall, if_neg hno] at hallows
          exact hallows.resolve_left (by simp)
    refine ⟨Or.inr hin, ?_⟩
    change inFirst (e1 :: p1) p2 = some (some e1, none)
    rw [inFirst, if_neg hin, if_pos (leadsOut_cons.mpr heps)]
    rfl
  · obtain ⟨he1, he2, hlabel⟩ := hmeets
    rw [altSequence_both (h.labels1 _ _ (mem_of_leaves he1)) (h.labels2 _ _ (mem_of_leaves he2))]
      at henabled
    have hne : e1.2.olabel ≠ epsilon := by
      intro heps
      simp [heps] at henabled
    have hout : ¬ LeadsOut (e1 :: p1) := fun hout => hne (leadsOut_cons.mp hout)
    have hin : ¬ LeadsIn (e2 :: p2) := fun hin => hne (hlabel.trans (leadsIn_cons.mp hin))
    refine ⟨Or.inr hin, ?_⟩
    change inFirst (e1 :: p1) (e2 :: p2) = some (some e1, some e2)
    rw [inFirst, if_neg hin, if_neg hout]
    rfl

theorem altSequence_take (h : Prepared left right) {p1 p2 : List (ℕ × Arc L W)}
    (h1 : p1 ∈ acceptingFrom left tuple.s1) (h2 : p2 ∈ acceptingFrom right tuple.s2)
    (hmeet : ostring p1 = istring p2) (hallows : AltSequenceAllows tuple.fs p1 p2)
    (hne : p1 ≠ [] ∨ p2 ≠ []) :
    ∃ m q1 q2, p1 = m.1.toList ++ q1 ∧ p2 = m.2.toList ++ q2 ∧
      Enabled (altSequenceFilter right) left right tuple m ∧
        AltSequenceAllows (nextFilter (altSequenceFilter right) tuple m) q1 q2 := by
  by_cases hin : LeadsIn p2
  · obtain ⟨e2, q2, rfl, heps⟩ := exists_of_leadsIn hin
    have he2 := (cons_mem_acceptingFrom.mp h2).1
    have hfs : tuple.fs ≠ .eps1 := hallows.resolve_right fun hno => hno hin
    have hanswer : answer (altSequenceFilter right) tuple (none, some e2) = some .default := by
      rw [altSequence_second (h.labels2 _ _ (mem_of_leaves he2)), if_neg hfs]
    refine ⟨(none, some e2), p1, q2, rfl, rfl, ⟨⟨he2, heps⟩, ?_⟩, Or.inl ?_⟩
    · rw [hanswer]
      rfl
    · rw [nextFilter, hanswer]
      simp
  · by_cases hout : LeadsOut p1
    · obtain ⟨e1, q1, rfl, heps⟩ := exists_of_leadsOut hout
      have he1 := (cons_mem_acceptingFrom.mp h1).1
      have hanswer : (answer (altSequenceFilter right) tuple (some e1, none)).isSome := by
        rw [altSequence_first, if_neg fun hall => hin (leadsIn_of_all h hall h2)]
        split <;> rfl
      exact ⟨(some e1, none), q1, p2, rfl, rfl, ⟨⟨he1, heps⟩, hanswer⟩, Or.inr hin⟩
    · obtain ⟨e1, q1, e2, q2, rfl, rfl, hlabel, hlabelne⟩ := heads_of_labels hout hin hmeet hne
      have he1 := (cons_mem_acceptingFrom.mp h1).1
      have he2 := (cons_mem_acceptingFrom.mp h2).1
      have hanswer : answer (altSequenceFilter right) tuple (some e1, some e2) = some .default := by
        rw [altSequence_both (h.labels1 _ _ (mem_of_leaves he1))
          (h.labels2 _ _ (mem_of_leaves he2)), if_neg hlabelne]
      refine ⟨(some e1, some e2), q1, q2, rfl, rfl, ⟨⟨he1, he2, hlabel⟩, ?_⟩, Or.inl ?_⟩
      · rw [hanswer]
        rfl
      · rw [nextFilter, hanswer]
        simp

noncomputable def altSequenceCanonical (h : Prepared left right) :
    Canonical (altSequenceFilter right) left right where
  headMove := inFirst
  Allows := AltSequenceAllows
  headMove_nil := inFirst_nil
  allows_nil _ := Or.inr not_leadsIn_nil
  allows_default _ _ := Or.inl (by simp)
  step hm _ h2 hallows := altSequence_step h hm h2 hallows
  take h1 h2 hmeet hallows hne := altSequence_take h h1 h2 hmeet hallows hne

end AltSequence

section Match

variable {e1 e2 : ℕ × Arc L W}

theorem match_alleps1 (s1 s2 : ℕ) (fs : CharFilterState) :
    (MatchComposeFilter.setState left right s1 s2 fs).alleps1 = true ↔ AllEps1 left s1 := by
  simp [MatchComposeFilter.setState, AllEps1]

theorem match_noeps1 (s1 s2 : ℕ) (fs : CharFilterState) :
    (MatchComposeFilter.setState left right s1 s2 fs).noeps1 = true ↔ NoEps1 left s1 := by
  simp [MatchComposeFilter.setState, NoEps1]

theorem match_alleps2 (s1 s2 : ℕ) (fs : CharFilterState) :
    (MatchComposeFilter.setState left right s1 s2 fs).alleps2 = true ↔ AllEps2 right s2 := by
  simp [MatchComposeFilter.setState, AllEps2]

theorem match_noeps2 (s1 s2 : ℕ) (fs : CharFilterState) :
    (MatchComposeFilter.setState left right s1 s2 fs).noeps2 = true ↔ NoEps2 right s2 := by
  simp [MatchComposeFilter.setState, NoEps2]

theorem match_fs (s1 s2 : ℕ) (fs : CharFilterState) :
    (MatchComposeFilter.setState left right s1 s2 fs).fs = fs := rfl

theorem match_first : answer (matchFilter left right) tuple (some e1, none) =
    match tuple.fs with
    | .default =>
      if NoEps2 right tuple.s2 then some .default
      else if AllEps2 right tuple.s2 then none else some .eps1
    | .eps1 => some .eps1
    | .eps2 => none := by
  obtain ⟨s1, s2, fs⟩ := tuple
  cases fs <;> simp [answer, matchFilter, MatchComposeFilter.filterArc, arcOf2, match_fs,
    match_alleps2, match_noeps2]

theorem match_second (hne : e2.2.ilabel ≠ noLabel) :
    answer (matchFilter left right) tuple (none, some e2) =
      match tuple.fs with
      | .default =>
        if NoEps1 left tuple.s1 then some .default
        else if AllEps1 left tuple.s1 then none else some .eps2
      | .eps2 => some .eps2
      | .eps1 => none := by
  obtain ⟨s1, s2, fs⟩ := tuple
  cases fs <;> simp [answer, matchFilter, MatchComposeFilter.filterArc, arcOf1, arcOf2, hne,
    match_fs, match_alleps1, match_noeps1]

theorem match_both (hne1 : e1.2.olabel ≠ noLabel) (hne2 : e2.2.ilabel ≠ noLabel) :
    answer (matchFilter left right) tuple (some e1, some e2) =
      if e1.2.olabel = epsilon then (if tuple.fs = .default then some .default else none)
      else some .default := by
  change (if e2.2.ilabel = noLabel then _ else if e1.2.olabel = noLabel then _
    else if e1.2.olabel = epsilon then
      (if tuple.fs = .default then some .default else none) else some CharFilterState.default) = _
  rw [if_neg hne2, if_neg hne1]

/- Once one of the two has gone alone, the other takes no epsilon from where it stands. -/
def MatchAllows (fs : CharFilterState) (p1 p2 : List (ℕ × Arc L W)) : Prop :=
  (fs = .eps1 → ¬ LeadsIn p2) ∧ (fs = .eps2 → ¬ LeadsOut p1)

theorem match_step (h : Prepared left right) {m : Move L W} {p1 p2 : List (ℕ × Arc L W)}
    (hm : Enabled (matchFilter left right) left right tuple m)
    (h1 : p1 ∈ acceptingFrom left (nextTuple (matchFilter left right) tuple m).s1)
    (h2 : p2 ∈ acceptingFrom right (nextTuple (matchFilter left right) tuple m).s2)
    (hallows : MatchAllows (nextFilter (matchFilter left right) tuple m) p1 p2) :
    MatchAllows tuple.fs (m.1.toList ++ p1) (m.2.toList ++ p2) ∧
      together (m.1.toList ++ p1) (m.2.toList ++ p2) = some m := by
  obtain ⟨hmeets, henabled⟩ := hm
  obtain ⟨_ | e1, _ | e2⟩ := m
  · exact hmeets.elim
  · obtain ⟨he2, heps⟩ := hmeets
    have hanswer := @match_second _ _ _ _ _ left right tuple _ (h.labels2 _ _ (mem_of_leaves he2))
    rw [nextFilter, hanswer] at hallows
    rw [hanswer] at henabled
    have hout : ¬ LeadsOut p1 := by
      cases hfs : tuple.fs with
      | default =>
        rw [hfs] at hallows henabled
        by_cases hno : NoEps1 left tuple.s1
        · exact not_leadsOut h hno h1
        · by_cases hall : AllEps1 left tuple.s1
          · simp [hno, hall] at henabled
          · exact hallows.2 (by simp [hno, hall])
      | eps1 => simp [hfs] at henabled
      | eps2 =>
        rw [hfs] at hallows
        exact hallows.2 rfl
    refine ⟨⟨fun hfs => ?_, fun _ => hout⟩, ?_⟩
    · simp [hfs] at henabled
    · change together p1 (e2 :: p2) = some (none, some e2)
      rw [together, if_neg fun hboth => hout hboth.1, outFirst, if_neg hout,
        if_pos (leadsIn_cons.mpr heps)]
      rfl
  · obtain ⟨he1, heps⟩ := hmeets
    rw [nextFilter, match_first] at hallows
    rw [match_first] at henabled
    have hin : ¬ LeadsIn p2 := by
      cases hfs : tuple.fs with
      | default =>
        rw [hfs] at hallows henabled
        by_cases hno : NoEps2 right tuple.s2
        · exact not_leadsIn h hno h2
        · by_cases hall : AllEps2 right tuple.s2
          · simp [hno, hall] at henabled
          · exact hallows.1 (by simp [hno, hall])
      | eps1 =>
        rw [hfs] at hallows
        exact hallows.1 rfl
      | eps2 => simp [hfs] at henabled
    refine ⟨⟨fun _ => hin, fun hfs => ?_⟩, ?_⟩
    · simp [hfs] at henabled
    · change together (e1 :: p1) p2 = some (some e1, none)
      rw [together, if_neg fun hboth => hin hboth.2, outFirst, if_pos (leadsOut_cons.mpr heps)]
      rfl
  · obtain ⟨he1, he2, hlabel⟩ := hmeets
    have hanswer := @match_both _ _ _ _ _ left right tuple _ _
      (h.labels1 _ _ (mem_of_leaves he1)) (h.labels2 _ _ (mem_of_leaves he2))
    rw [hanswer] at henabled
    change MatchAllows tuple.fs (e1 :: p1) (e2 :: p2) ∧
      together (e1 :: p1) (e2 :: p2) = some (some e1, some e2)
    by_cases heps : e1.2.olabel = epsilon
    · have hfs : tuple.fs = .default := by
        by_contra hfs
        rw [if_pos heps, if_neg hfs] at henabled
        cases henabled
      rw [hfs]
      refine ⟨⟨by rintro ⟨⟩, by rintro ⟨⟩⟩, ?_⟩
      rw [together, if_pos ⟨leadsOut_cons.mpr heps, leadsIn_cons.mpr (hlabel ▸ heps)⟩]
      rfl
    · have hout : ¬ LeadsOut (e1 :: p1) := fun hout => heps (leadsOut_cons.mp hout)
      have hin : ¬ LeadsIn (e2 :: p2) := fun hin => heps (hlabel.trans (leadsIn_cons.mp hin))
      refine ⟨⟨fun _ => hin, fun _ => hout⟩, ?_⟩
      rw [together, if_neg fun hboth => hout hboth.1, outFirst, if_neg hout, if_neg hin]
      rfl

theorem match_take (h : Prepared left right) {p1 p2 : List (ℕ × Arc L W)}
    (h1 : p1 ∈ acceptingFrom left tuple.s1) (h2 : p2 ∈ acceptingFrom right tuple.s2)
    (hmeet : ostring p1 = istring p2) (hallows : MatchAllows tuple.fs p1 p2)
    (hne : p1 ≠ [] ∨ p2 ≠ []) :
    ∃ m q1 q2, p1 = m.1.toList ++ q1 ∧ p2 = m.2.toList ++ q2 ∧
      Enabled (matchFilter left right) left right tuple m ∧
        MatchAllows (nextFilter (matchFilter left right) tuple m) q1 q2 := by
  by_cases hout : LeadsOut p1
  · obtain ⟨e1, q1, rfl, heps⟩ := exists_of_leadsOut hout
    have he1 := (cons_mem_acceptingFrom.mp h1).1
    have hfs2 : tuple.fs ≠ .eps2 := fun hfs => hallows.2 hfs hout
    by_cases hin : LeadsIn p2
    · obtain ⟨e2, q2, rfl, heps2⟩ := exists_of_leadsIn hin
      have he2 := (cons_mem_acceptingFrom.mp h2).1
      have hfs : tuple.fs = .default := by
        cases hfs : tuple.fs with
        | default => rfl
        | eps1 => exact absurd hin (hallows.1 hfs)
        | eps2 => exact absurd hfs hfs2
      have hanswer : answer (matchFilter left right) tuple (some e1, some e2) = some .default := by
        rw [match_both (h.labels1 _ _ (mem_of_leaves he1)) (h.labels2 _ _ (mem_of_leaves he2)),
          if_pos heps, if_pos hfs]
      refine ⟨(some e1, some e2), q1, q2, rfl, rfl, ⟨⟨he1, he2, heps.trans heps2.symm⟩, ?_⟩, ?_⟩
      · rw [hanswer]
        rfl
      · rw [nextFilter, hanswer]
        exact ⟨by rintro ⟨⟩, by rintro ⟨⟩⟩
    · have hanswer : ∃ fs, answer (matchFilter left right) tuple (some e1, none) = some fs ∧
          fs ≠ .eps2 := by
        rw [match_first]
        cases hfs : tuple.fs with
        | default =>
          by_cases hno : NoEps2 right tuple.s2
          · exact ⟨.default, by simp [hno], by simp⟩
          · have hall : ¬ AllEps2 right tuple.s2 := fun hall => hin (leadsIn_of_all h hall h2)
            exact ⟨.eps1, by simp [hno, hall], by simp⟩
        | eps1 => exact ⟨.eps1, rfl, by simp⟩
        | eps2 => exact absurd hfs hfs2
      obtain ⟨fs, hanswer, hfs⟩ := hanswer
      refine ⟨(some e1, none), q1, p2, rfl, rfl, ⟨⟨he1, heps⟩, ?_⟩, fun _ => hin, fun heq => ?_⟩
      · rw [hanswer]
        rfl
      · rw [nextFilter, hanswer] at heq
        exact absurd heq hfs
  · by_cases hin : LeadsIn p2
    · obtain ⟨e2, q2, rfl, heps⟩ := exists_of_leadsIn hin
      have he2 := (cons_mem_acceptingFrom.mp h2).1
      have hfs1 : tuple.fs ≠ .eps1 := fun hfs => hallows.1 hfs hin
      have hanswer : ∃ fs, answer (matchFilter left right) tuple (none, some e2) = some fs ∧
          fs ≠ .eps1 := by
        rw [match_second (h.labels2 _ _ (mem_of_leaves he2))]
        cases hfs : tuple.fs with
        | default =>
          by_cases hno : NoEps1 left tuple.s1
          · exact ⟨.default, by simp [hno], by simp⟩
          · have hall : ¬ AllEps1 left tuple.s1 := fun hall => hout (leadsOut_of_all h hall h1)
            exact ⟨.eps2, by simp [hno, hall], by simp⟩
        | eps1 => exact absurd hfs hfs1
        | eps2 => exact ⟨.eps2, rfl, by simp⟩
      obtain ⟨fs, hanswer, hfs⟩ := hanswer
      refine ⟨(none, some e2), p1, q2, rfl, rfl, ⟨⟨he2, heps⟩, ?_⟩, fun heq => ?_, fun _ => hout⟩
      · rw [hanswer]
        rfl
      · rw [nextFilter, hanswer] at heq
        exact absurd heq hfs
    · obtain ⟨e1, q1, e2, q2, rfl, rfl, hlabel, hlabelne⟩ := heads_of_labels hout hin hmeet hne
      have he1 := (cons_mem_acceptingFrom.mp h1).1
      have he2 := (cons_mem_acceptingFrom.mp h2).1
      have hanswer : answer (matchFilter left right) tuple (some e1, some e2) = some .default := by
        rw [match_both (h.labels1 _ _ (mem_of_leaves he1)) (h.labels2 _ _ (mem_of_leaves he2)),
          if_neg hlabelne]
      refine ⟨(some e1, some e2), q1, q2, rfl, rfl, ⟨⟨he1, he2, hlabel⟩, ?_⟩, ?_⟩
      · rw [hanswer]
        rfl
      · rw [nextFilter, hanswer]
        exact ⟨by rintro ⟨⟩, by rintro ⟨⟩⟩

noncomputable def matchCanonical (h : Prepared left right) :
    Canonical (matchFilter left right) left right where
  headMove := together
  Allows := MatchAllows
  headMove_nil := together_nil
  allows_nil _ := ⟨fun _ => not_leadsIn_nil, fun _ => not_leadsOut_nil⟩
  allows_default _ _ := ⟨by rintro ⟨⟩, by rintro ⟨⟩⟩
  step hm h1 h2 hallows := match_step h hm h1 h2 hallows
  take h1 h2 hmeet hallows hne := match_take h h1 h2 hmeet hallows hne

end Match

end Sicada.ComposeCanonical
