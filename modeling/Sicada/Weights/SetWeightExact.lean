import Sicada.Weights.SetWeight

namespace Sicada.SetWeightExact

open SetLabel SetWeight WeightLaws

variable {L : Type} [SetLabel L] {S : SetKind}

section Sets

def Listed (labels : List L) : Prop :=
  labels.Pairwise (· < ·) ∧ ∀ label ∈ labels, 0 < toI64 label

/- The empty set, the universal set or increasing positive labels. -/
def Proper (w : SetWeight L S) : Prop :=
  w = emptySet ∨ w = univSet ∨ ∃ labels, labels ≠ [] ∧ Listed labels ∧ w = ⟨labels⟩

def elements (w : SetWeight L S) : Set L :=
  if w.isUnivSet then Set.univ
  else if w.isEmptySet then ∅
  else {label | label ∈ w.labels}

theorem setUniv_lt {label : L} (h : 0 < toI64 label) : setUniv < label := by
  rw [← toI64_lt, toI64_setUniv]
  omega

@[simp] theorem isEmptySet_emptySet : (emptySet : SetWeight L S).isEmptySet = true := by
  simp [isEmptySet, emptySet, firstVal, toI64_setEmpty]

@[simp] theorem isUnivSet_emptySet : (emptySet : SetWeight L S).isUnivSet = false := by
  simp [isUnivSet, emptySet, firstVal, toI64_setEmpty]

@[simp] theorem isBadSet_emptySet : (emptySet : SetWeight L S).isBadSet = false := by
  simp [isBadSet, emptySet, firstVal, toI64_setEmpty]

@[simp] theorem isEmptySet_univSet : (univSet : SetWeight L S).isEmptySet = false := by
  simp [isEmptySet, univSet, firstVal, toI64_setUniv]

@[simp] theorem isUnivSet_univSet : (univSet : SetWeight L S).isUnivSet = true := by
  simp [isUnivSet, univSet, firstVal, toI64_setUniv]

@[simp] theorem isBadSet_univSet : (univSet : SetWeight L S).isBadSet = false := by
  simp [isBadSet, univSet, firstVal, toI64_setUniv]

@[simp] theorem isBadSet_badSet : (badSet : SetWeight L S).isBadSet = true := by
  simp [isBadSet, badSet, firstVal, toI64_setBad]

variable {labels labels' : List L}

theorem firstVal_pos (hne : labels ≠ []) (h : Listed labels) :
    0 < (⟨labels⟩ : SetWeight L S).firstVal := by
  cases labels with
  | nil => exact absurd rfl hne
  | cons label labels => exact h.2 label List.mem_cons_self

theorem isEmptySet_listed (hne : labels ≠ []) (h : Listed labels) :
    (⟨labels⟩ : SetWeight L S).isEmptySet = false := by
  have hpos := firstVal_pos (S := S) hne h
  simp only [isEmptySet, Bool.and_eq_false_imp, decide_eq_true_eq, decide_eq_false_iff_not]
  omega

theorem isUnivSet_listed (hne : labels ≠ []) (h : Listed labels) :
    (⟨labels⟩ : SetWeight L S).isUnivSet = false := by
  have hpos := firstVal_pos (S := S) hne h
  simp only [isUnivSet, Bool.and_eq_false_imp, decide_eq_true_eq, decide_eq_false_iff_not]
  omega

theorem isBadSet_listed (hne : labels ≠ []) (h : Listed labels) :
    (⟨labels⟩ : SetWeight L S).isBadSet = false := by
  have hpos := firstVal_pos (S := S) hne h
  simp only [isBadSet, Bool.and_eq_false_imp, decide_eq_true_eq, decide_eq_false_iff_not]
  omega

@[simp] theorem elements_emptySet : elements (emptySet : SetWeight L S) = ∅ := by
  simp [elements]

@[simp] theorem elements_univSet : elements (univSet : SetWeight L S) = Set.univ := by
  simp [elements]

theorem elements_listed (hne : labels ≠ []) (h : Listed labels) :
    elements (⟨labels⟩ : SetWeight L S) = {label | label ∈ labels} := by
  simp [elements, isUnivSet_listed hne h, isEmptySet_listed hne h]

theorem proper_emptySet : Proper (emptySet : SetWeight L S) := Or.inl rfl

theorem proper_univSet : Proper (univSet : SetWeight L S) := Or.inr (Or.inl rfl)

theorem proper_listed (hne : labels ≠ []) (h : Listed labels) :
    Proper (⟨labels⟩ : SetWeight L S) := Or.inr (Or.inr ⟨labels, hne, h, rfl⟩)

variable {w w' : SetWeight L S}

theorem isMember_of_proper (h : Proper w) : w.isMember = true := by
  unfold isMember
  rcases h with rfl | rfl | ⟨labels, hne, h, rfl⟩
  · simp
  · simp
  · simp [isBadSet_listed hne h]

/- The universal set has a label that no other set has. -/
theorem mem_elements_setUniv (h : Proper w) : setUniv ∈ elements w ↔ w = univSet := by
  constructor
  · intro hmem
    rcases h with rfl | rfl | ⟨labels, hne, h, rfl⟩
    · simp at hmem
    · rfl
    · rw [elements_listed hne h] at hmem
      have hpos := h.2 _ hmem
      rw [toI64_setUniv] at hpos
      omega
  · rintro rfl
    simp

theorem elements_injective (h : Proper w) (h' : Proper w') (heq : elements w = elements w') :
    w = w' := by
  have huniv := (mem_elements_setUniv h).symm.trans (heq ▸ mem_elements_setUniv h')
  rcases h with rfl | rfl | ⟨labels, hne, h, rfl⟩
  · rcases h' with rfl | rfl | ⟨labels', hne', h', rfl⟩
    · rfl
    · exact huniv.mpr rfl
    · rw [elements_emptySet, elements_listed hne' h'] at heq
      cases labels' with
      | nil => exact absurd rfl hne'
      | cons label labels' =>
        exact absurd (heq ▸ List.mem_cons_self : label ∈ (∅ : Set L)) (Set.notMem_empty label)
  · exact (huniv.mp rfl).symm
  · rcases h' with rfl | rfl | ⟨labels', hne', h', rfl⟩
    · rw [elements_emptySet, elements_listed hne h] at heq
      cases labels with
      | nil => exact absurd rfl hne
      | cons label labels =>
        exact absurd (heq ▸ List.mem_cons_self : label ∈ (∅ : Set L)) (Set.notMem_empty label)
    · exact huniv.mpr rfl
    · rw [elements_listed hne h, elements_listed hne' h'] at heq
      have hlabels : labels = labels' :=
        h.1.eq_of_mem_iff h'.1 (Set.ext_iff.mp heq)
      rw [hlabels]

theorem fromSortedVec_spec (h : Listed labels) :
    Proper (fromSortedVec labels : SetWeight L S) ∧
      elements (fromSortedVec labels : SetWeight L S) = {label | label ∈ labels} := by
  unfold fromSortedVec
  cases labels with
  | nil => exact ⟨proper_emptySet, by simp⟩
  | cons label labels =>
    have hne := List.cons_ne_nil label labels
    exact ⟨Or.inr (Or.inr ⟨_, hne, h, rfl⟩), elements_listed hne h⟩

end Sets

section Operations

variable {w w' : SetWeight L S}

theorem listed_of_sublist {labels result : List L} (h : Listed labels)
    (hsub : result.Sublist labels) : Listed result :=
  ⟨h.1.sublist hsub, fun label hlabel => h.2 label (hsub.subset hlabel)⟩

theorem unionSets_spec (h : Proper w) (h' : Proper w') :
    Proper (unionSets w w') ∧ elements (unionSets w w') = elements w ∪ elements w' := by
  have hmember := isMember_of_proper h
  have hmember' := isMember_of_proper h'
  unfold unionSets
  rw [if_neg (by simp [hmember, hmember'])]
  rcases h with rfl | rfl | ⟨labels, hne, h, rfl⟩
  · simpa using h'
  · rcases h' with rfl | rfl | ⟨labels', hne', h', rfl⟩
    · simpa using proper_univSet
    · simpa using proper_univSet
    · simpa [isEmptySet_listed hne' h'] using proper_univSet
  · rcases h' with rfl | rfl | ⟨labels', hne', h', rfl⟩
    · simpa [isEmptySet_listed hne h] using proper_listed hne h
    · simpa [isEmptySet_listed hne h, isUnivSet_listed hne h] using proper_univSet
    · have hlisted : Listed (SortedMerge.union labels labels') := by
        refine ⟨SortedMerge.pairwise_union h.1 h'.1, fun label hlabel => ?_⟩
        exact (SortedMerge.mem_union.mp hlabel).elim (h.2 label) (h'.2 label)
      obtain ⟨hproper, helements⟩ := fromSortedVec_spec (S := S) hlisted
      simp only [isEmptySet_listed hne h, isEmptySet_listed hne' h', isUnivSet_listed hne h,
        isUnivSet_listed hne' h', Bool.false_eq_true, if_false]
      refine ⟨hproper, ?_⟩
      rw [helements, elements_listed hne h, elements_listed hne' h']
      exact Set.ext fun label => SortedMerge.mem_union

/- A list that may have become empty. -/
theorem result_eq (result : List L) :
    (if result.isEmpty then emptySet else fromSortedVec result : SetWeight L S) =
      fromSortedVec result := by
  cases result with
  | nil => rfl
  | cons label labels => rfl

theorem intersectSets_spec (h : Proper w) (h' : Proper w') :
    Proper (intersectSets w w') ∧ elements (intersectSets w w') = elements w ∩ elements w' := by
  have hmember := isMember_of_proper h
  have hmember' := isMember_of_proper h'
  unfold intersectSets
  rw [if_neg (by simp [hmember, hmember'])]
  rcases h with rfl | rfl | ⟨labels, hne, h, rfl⟩
  · simpa using proper_emptySet
  · rcases h' with rfl | rfl | ⟨labels', hne', h', rfl⟩
    · simpa using proper_emptySet
    · simpa using proper_univSet
    · simpa [isEmptySet_listed hne' h'] using proper_listed hne' h'
  · rcases h' with rfl | rfl | ⟨labels', hne', h', rfl⟩
    · simpa [isEmptySet_listed hne h] using proper_emptySet
    · simpa [isEmptySet_listed hne h, isUnivSet_listed hne h] using
        proper_listed hne h
    · obtain ⟨hproper, helements⟩ := fromSortedVec_spec (S := S)
        (listed_of_sublist h (SortedMerge.sublist_inter labels labels'))
      simp only [isEmptySet_listed hne h, isEmptySet_listed hne' h', isUnivSet_listed hne h,
        isUnivSet_listed hne' h', Bool.false_eq_true, if_false, result_eq]
      refine ⟨hproper, ?_⟩
      rw [helements, elements_listed hne h, elements_listed hne' h']
      exact Set.ext fun label => SortedMerge.mem_inter h.1 h'.1

theorem diff_univ {labels : List L} (h : Listed labels) :
    SortedMerge.diff [setUniv] labels = [setUniv] := by
  cases labels with
  | nil => rw [SortedMerge.diff]; simp
  | cons label labels =>
    rw [SortedMerge.diff, if_pos (setUniv_lt (h.2 label List.mem_cons_self)), SortedMerge.diff]

theorem differenceSets_univ (h' : Proper w') (hne : w' ≠ univSet) :
    differenceSets univSet w' = univSet := by
  have hmember' := isMember_of_proper h'
  unfold differenceSets
  rw [if_neg (by simp [hmember', isMember_of_proper proper_univSet])]
  rcases h' with rfl | rfl | ⟨labels', hne', h', rfl⟩
  · simp
  · exact absurd rfl hne
  · have hdiff : SortedMerge.diff (univSet : SetWeight L S).labels labels' = [setUniv] :=
      diff_univ h'
    simp only [isEmptySet_univSet, isEmptySet_listed hne' h', isUnivSet_listed hne' h',
      Bool.false_eq_true, if_false, hdiff]
    rfl

theorem differenceSets_spec (h : Proper w) (h' : Proper w') (huniv : w ≠ univSet ∨ w' = univSet) :
    Proper (differenceSets w w') ∧ elements (differenceSets w w') = elements w \ elements w' := by
  have hmember := isMember_of_proper h
  have hmember' := isMember_of_proper h'
  unfold differenceSets
  rw [if_neg (by simp [hmember, hmember'])]
  rcases h with rfl | rfl | ⟨labels, hne, h, rfl⟩
  · simpa using proper_emptySet
  · obtain rfl := huniv.resolve_left (not_not_intro rfl)
    simpa using proper_emptySet
  · rcases h' with rfl | rfl | ⟨labels', hne', h', rfl⟩
    · simpa [isEmptySet_listed hne h] using proper_listed hne h
    · simpa [isEmptySet_listed hne h] using proper_emptySet
    · obtain ⟨hproper, helements⟩ := fromSortedVec_spec (S := S)
        (listed_of_sublist h (SortedMerge.sublist_diff labels labels'))
      simp only [isEmptySet_listed hne h, isEmptySet_listed hne' h', isUnivSet_listed hne' h',
        Bool.false_eq_true, if_false, result_eq]
      refine ⟨hproper, ?_⟩
      rw [helements, elements_listed hne h, elements_listed hne' h']
      exact Set.ext fun label => SortedMerge.mem_diff h.1 h'.1

end Operations

section Laws

theorem not_path (S : SetKind) : ¬ Declares (SetWeight L S) path := by
  have hbits : (idempotent ||| leftSemiring ||| rightSemiring ||| commutative) &&& path = 0 := by
    decide
  exact fun h => h hbits

theorem elements_eq_iff {a b : SetWeight L S} (ha : Proper a) (hb : Proper b) :
    a = b ↔ elements a = elements b :=
  ⟨congrArg elements, elements_injective ha hb⟩

theorem unionIntersect_laws : LawsFor (SetWeight L .unionIntersect) Proper Eq :=
  LawsFor.of_lattice elements (fun _ _ => elements_eq_iff)
    ⟨proper_emptySet, elements_emptySet⟩ ⟨proper_univSet, elements_univSet⟩
    (fun _ _ => unionSets_spec) (fun _ _ => intersectSets_spec) (not_path _)

/- The same lattice upside down. -/
theorem intersectUnion_laws : LawsFor (SetWeight L .intersectUnion) Proper Eq :=
  LawsFor.of_lattice (fun w => OrderDual.toDual (elements w)) (fun _ _ => elements_eq_iff)
    ⟨proper_univSet, elements_univSet⟩ ⟨proper_emptySet, elements_emptySet⟩
    (fun _ _ => intersectSets_spec) (fun _ _ => unionSets_spec) (not_path _)

section Boolean

variable {a b : SetWeight L .boolean}

theorem isBadSet_of_proper {w : SetWeight L S} (h : Proper w) : w.isBadSet = false := by
  have hmember := isMember_of_proper h
  unfold isMember at hmember
  simpa using hmember

theorem boolean_eq (ha : Proper a) (hb : Proper b) : a.eq b = (a.isUnivSet == b.isUnivSet) := by
  unfold SetWeight.eq
  rw [if_pos rfl, isBadSet_of_proper ha, isBadSet_of_proper hb, beq_self_eq_true, Bool.and_true]

theorem eq_one (ha : Proper a) : a.eq one = !a.isUnivSet := by
  rw [show (one : SetWeight L .boolean) = emptySet from rfl, boolean_eq ha proper_emptySet,
    isUnivSet_emptySet]
  cases a.isUnivSet <;> rfl

theorem eq_zero (ha : Proper a) : a.eq zero = a.isUnivSet := by
  rw [show (zero : SetWeight L .boolean) = univSet from rfl, boolean_eq ha proper_univSet,
    isUnivSet_univSet]
  cases a.isUnivSet <;> rfl

/- Everything but the universal set is true. -/
theorem boolean_plus (ha : Proper a) (hb : Proper b) :
    Proper (a.plus b) ∧ (a.plus b).isUnivSet = (a.isUnivSet && b.isUnivSet) := by
  unfold SetWeight.plus
  dsimp only
  rw [if_neg (by simp [isMember_of_proper ha, isMember_of_proper hb]), eq_one ha, eq_one hb]
  cases hua : a.isUnivSet <;> cases hub : b.isUnivSet
  · exact ⟨ha, hua⟩
  · exact ⟨ha, hua⟩
  · exact ⟨hb, hub⟩
  · exact ⟨proper_univSet, isUnivSet_univSet⟩

theorem boolean_times (ha : Proper a) (hb : Proper b) :
    Proper (a.times b) ∧ (a.times b).isUnivSet = (a.isUnivSet || b.isUnivSet) := by
  unfold SetWeight.times
  dsimp only
  rw [if_neg (by simp [isMember_of_proper ha, isMember_of_proper hb]), eq_one ha]
  cases hua : a.isUnivSet
  · exact ⟨hb, rfl⟩
  · exact ⟨ha, hua⟩

def truth (w : SetWeight L .boolean) : Prop := w.isUnivSet = false

theorem boolean_laws :
    LawsFor (SetWeight L .boolean) Proper fun a b => a.eq b = true := by
  refine LawsFor.of_lattice truth (fun a b ha hb => ?_) ⟨proper_univSet, ?_⟩ ⟨proper_emptySet, ?_⟩
    (fun a b ha hb => ⟨(boolean_plus ha hb).1, ?_⟩)
    (fun a b ha hb => ⟨(boolean_times ha hb).1, ?_⟩) (not_path _)
  · rw [boolean_eq ha hb, beq_iff_eq, eq_iff_iff]
    unfold truth
    cases a.isUnivSet <;> cases b.isUnivSet <;> simp
  · have huniv : (univSet : SetWeight L .boolean).isUnivSet = true := isUnivSet_univSet
    exact eq_false (ne_of_eq_of_ne huniv (by decide))
  · exact eq_true isUnivSet_emptySet
  · change ((a.plus b).isUnivSet = false) = (a.isUnivSet = false ∨ b.isUnivSet = false)
    rw [(boolean_plus ha hb).2, Bool.and_eq_false_iff]
  · change ((a.times b).isUnivSet = false) = (a.isUnivSet = false ∧ b.isUnivSet = false)
    rw [(boolean_times ha hb).2, Bool.or_eq_false_iff]

end Boolean

section Restricted

variable {a b c : SetWeight L .intersectUnionRestrict}

theorem eq_iff (hS : S ≠ .boolean) (w w' : SetWeight L S) : w.eq w' = true ↔ w = w' := by
  unfold SetWeight.eq
  rw [if_neg hS, decide_eq_true_eq]
  exact ⟨fun h => by cases w; cases w'; cases h; rfl, congrArg labels⟩

theorem restrict_plus (ha : Proper a) (hb : Proper b) : a.plus b =
    if a = univSet then b else if b = univSet then a else if a = b then a else badSet := by
  have heq := eq_iff (L := L) (S := .intersectUnionRestrict) (by decide)
  unfold SetWeight.plus
  dsimp only
  rw [if_neg (by simp [isMember_of_proper ha, isMember_of_proper hb])]
  simp only [Bool.not_eq_true', ← Bool.not_eq_true, heq, ite_not]
  rfl

theorem plus_badSet (a : SetWeight L .intersectUnionRestrict) : a.plus badSet = badSet := by
  unfold SetWeight.plus
  dsimp only
  rw [if_pos (by simp [isMember])]

theorem badSet_plus (a : SetWeight L .intersectUnionRestrict) : badSet.plus a = badSet := by
  unfold SetWeight.plus
  dsimp only
  rw [if_pos (by simp [isMember])]

theorem isMember_badSet : (badSet : SetWeight L S).isMember = false := by
  simp [isMember]

/- A sum that is defined is one of a zero or of equal sets. -/
theorem restrict_defined (ha : Proper a) (hb : Proper b) (h : (a.plus b).isMember = true) :
    a = univSet ∧ a.plus b = b ∨ b = univSet ∧ a.plus b = a ∨ a = b ∧ a.plus b = a := by
  rw [restrict_plus ha hb] at h ⊢
  by_cases hau : a = univSet
  · exact Or.inl ⟨hau, if_pos hau⟩
  · rw [if_neg hau] at h ⊢
    by_cases hbu : b = univSet
    · exact Or.inr (Or.inl ⟨hbu, if_pos hbu⟩)
    · rw [if_neg hbu] at h ⊢
      by_cases hab : a = b
      · exact Or.inr (Or.inr ⟨hab, if_pos hab⟩)
      · rw [if_neg hab, isMember_badSet] at h
        cases h

theorem restrict_plus_comm (ha : Proper a) (hb : Proper b) : a.plus b = b.plus a := by
  rw [restrict_plus ha hb, restrict_plus hb ha]
  by_cases hab : a = b
  · rw [hab]
  · rw [if_neg hab, if_neg (Ne.symm hab)]
    by_cases hau : a = univSet <;> by_cases hbu : b = univSet <;> simp_all

theorem univ_plus (hb : Proper b) : univSet.plus b = b := by
  rw [restrict_plus proper_univSet hb, if_pos rfl]

theorem plus_univ (ha : Proper a) : a.plus univSet = a := by
  rw [restrict_plus_comm ha proper_univSet, univ_plus ha]

theorem plus_self (ha : Proper a) : a.plus a = a := by
  rw [restrict_plus ha ha, if_pos rfl, ite_self, ite_self]

theorem plus_ne (ha : Proper a) (hb : Proper b) (hau : a ≠ univSet) (hbu : b ≠ univSet)
    (hne : a ≠ b) : a.plus b = badSet := by
  rw [restrict_plus ha hb, if_neg hau, if_neg hbu, if_neg hne]

theorem restrict_proper (ha : Proper a) (hb : Proper b) (h : (a.plus b).isMember = true) :
    Proper (a.plus b) := by
  rcases restrict_defined ha hb h with ⟨-, h⟩ | ⟨-, h⟩ | ⟨-, h⟩ <;> rw [h] <;> assumption

theorem restrict_bad_or (ha : Proper a) (hb : Proper b) :
    a.plus b = badSet ∨ Proper (a.plus b) := by
  by_cases hmember : (a.plus b).isMember = true
  · exact Or.inr (restrict_proper ha hb hmember)
  · rw [restrict_plus ha hb] at hmember ⊢
    split_ifs at hmember ⊢
    · exact absurd (isMember_of_proper hb) hmember
    · exact absurd (isMember_of_proper ha) hmember
    · exact absurd (isMember_of_proper ha) hmember
    · exact Or.inl rfl

theorem restrict_plus_assoc (ha : Proper a) (hb : Proper b) (hc : Proper c) :
    (a.plus b).plus c = a.plus (b.plus c) := by
  by_cases hau : a = univSet
  · rw [hau, univ_plus hb]
    rcases restrict_bad_or hb hc with h | h
    · rw [h, plus_badSet]
    · rw [univ_plus h]
  by_cases hbu : b = univSet
  · rw [hbu, plus_univ ha, univ_plus hc]
  by_cases hcu : c = univSet
  · rw [hcu, plus_univ hb]
    rcases restrict_bad_or ha hb with h | h
    · rw [h, badSet_plus]
    · rw [plus_univ h]
  by_cases hab : a = b
  · rw [← hab, plus_self ha]
    by_cases hac : a = c
    · rw [← hac, plus_self ha, plus_self ha]
    · rw [plus_ne ha hc hau hcu hac, plus_badSet]
  · rw [plus_ne ha hb hau hbu hab, badSet_plus]
    by_cases hbc : b = c
    · rw [← hbc, plus_self hb, plus_ne ha hb hau hbu hab]
    · rw [plus_ne hb hc hbu hcu hbc, plus_badSet]

/- What multiplies is the union, with the universal set for a zero. -/
theorem restrict_times (a b : SetWeight L .intersectUnionRestrict) :
    a.times b = unionSets a b := rfl

theorem unionSets_univ {w : SetWeight L S} (h : Proper w) :
    unionSets w univSet = univSet ∧ unionSets univSet w = univSet := by
  have hleft := unionSets_spec h (proper_univSet (S := S))
  have hright := unionSets_spec (proper_univSet (S := S)) h
  constructor
  · exact elements_injective hleft.1 proper_univSet (by simp [hleft.2])
  · exact elements_injective hright.1 proper_univSet (by simp [hright.2])

theorem restrict_distrib (ha : Proper a) (hb : Proper b) (hc : Proper c)
    (h : (b.plus c).isMember = true) :
    a.times (b.plus c) = (a.times b).plus (a.times c) ∧
      (b.plus c).times a = (b.times a).plus (c.times a) := by
  simp only [restrict_times]
  obtain ⟨huniv, huniv'⟩ := unionSets_univ ha
  have hab := (unionSets_spec ha hb).1
  have hac := (unionSets_spec ha hc).1
  have hba := (unionSets_spec hb ha).1
  have hca := (unionSets_spec hc ha).1
  rcases restrict_defined hb hc h with ⟨rfl, h⟩ | ⟨rfl, h⟩ | ⟨rfl, h⟩ <;> rw [h]
  · rw [huniv, huniv', univ_plus hac, univ_plus hca]
    exact ⟨rfl, rfl⟩
  · rw [huniv, huniv', plus_univ hab, plus_univ hba]
    exact ⟨rfl, rfl⟩
  · rw [plus_self hab, plus_self hba]
    exact ⟨rfl, rfl⟩

/- The laws of the restricted kind: sums may be undefined, and products are those of the kind that
is not restricted. -/
structure RestrictedLaws (a b c : SetWeight L .intersectUnionRestrict) : Prop where
  plus_proper : (a.plus b).isMember = true → Proper (a.plus b)
  plus_assoc : (a.plus b).plus c = a.plus (b.plus c)
  plus_comm : a.plus b = b.plus a
  zero_plus : zero.plus a = a
  plus_idem : a.plus a = a
  times_proper : Proper (a.times b)
  times_assoc : (a.times b).times c = a.times (b.times c)
  times_comm : a.times b = b.times a
  one_times : one.times a = a
  zero_times : zero.times a = zero
  distrib : (b.plus c).isMember = true → a.times (b.plus c) = (a.times b).plus (a.times c) ∧
    (b.plus c).times a = (b.times a).plus (c.times a)

theorem restricted_laws (ha : Proper a) (hb : Proper b) (hc : Proper c) : RestrictedLaws a b c where
  plus_proper := restrict_proper ha hb
  plus_assoc := restrict_plus_assoc ha hb hc
  plus_comm := restrict_plus_comm ha hb
  zero_plus := univ_plus ha
  plus_idem := plus_self ha
  times_proper := (unionSets_spec ha hb).1
  times_assoc := by
    obtain ⟨hab, heab⟩ := unionSets_spec ha hb
    obtain ⟨hbc, hebc⟩ := unionSets_spec hb hc
    refine elements_injective (unionSets_spec hab hc).1 (unionSets_spec ha hbc).1 ?_
    rw [restrict_times, restrict_times, restrict_times, restrict_times, (unionSets_spec hab hc).2,
      (unionSets_spec ha hbc).2, heab, hebc, Set.union_assoc]
  times_comm := by
    refine elements_injective (unionSets_spec ha hb).1 (unionSets_spec hb ha).1 ?_
    rw [restrict_times, restrict_times, (unionSets_spec ha hb).2, (unionSets_spec hb ha).2,
      Set.union_comm]
  one_times := by
    have hspec := unionSets_spec (proper_emptySet (L := L)) ha
    refine elements_injective hspec.1 ha (hspec.2.trans ?_)
    rw [elements_emptySet, Set.empty_union]
  zero_times := (unionSets_univ ha).2
  distrib := restrict_distrib ha hb hc

end Restricted

end Laws

section Dividing

theorem difference_recovers {a b c : SetWeight L S} (ha : Proper a) (hb : Proper b) (hc : Proper c)
    (h : a = unionSets b c) :
    Proper (differenceSets a b) ∧ unionSets b (differenceSets a b) = a := by
  obtain ⟨-, hea⟩ := unionSets_spec hb hc
  rw [← h] at hea
  by_cases huniv : a ≠ univSet ∨ b = univSet
  · obtain ⟨hproper, hediff⟩ := differenceSets_spec ha hb huniv
    obtain ⟨hunion, heunion⟩ := unionSets_spec hb hproper
    refine ⟨hproper, elements_injective hunion ha ?_⟩
    rw [heunion, hediff, Set.union_sdiff_cancel (hea ▸ Set.subset_union_left)]
  · push Not at huniv
    obtain ⟨rfl, hne⟩ := huniv
    rw [differenceSets_univ hb hne]
    exact ⟨proper_univSet, (unionSets_univ hb).1⟩

/- Whatever a product is divided by is a factor of it again. -/
theorem divide_spec {a b c : SetWeight L S} (side : DivideType) (ha : Proper a) (hb : Proper b)
    (hc : Proper c) (h : a.eq (b.times c) = true) :
    Proper (a.divide b side) ∧ (b.times (a.divide b side)).eq a = true := by
  cases S with
  | unionIntersect =>
    have heq := eq_iff (L := L) (S := .unionIntersect) (by decide)
    rw [heq] at h ⊢
    change a = intersectSets b c at h
    change Proper (a.divide b side) ∧ intersectSets b (a.divide b side) = a
    obtain ⟨-, hea⟩ := intersectSets_spec hb hc
    rw [← h] at hea
    -- the quotient is the universal set or the product itself
    have hquotient : a.divide b side = if a = b then univSet else a := by
      unfold SetWeight.divide
      dsimp only
      rw [if_neg (by simp [isMember_of_proper ha, isMember_of_proper hb])]
      simp only [heq]
    rw [hquotient]
    by_cases hab : a = b
    · rw [if_pos hab]
      obtain ⟨hinter, heinter⟩ := intersectSets_spec hb (proper_univSet (S := .unionIntersect))
      refine ⟨proper_univSet, elements_injective hinter ha ?_⟩
      rw [heinter, elements_univSet, Set.inter_univ, hab]
    · rw [if_neg hab]
      obtain ⟨hinter, heinter⟩ := intersectSets_spec hb ha
      refine ⟨ha, elements_injective hinter ha ?_⟩
      rw [heinter, hea, Set.inter_eq_right]
      exact Set.inter_subset_left
  | boolean =>
    obtain ⟨hprod, hbits⟩ := boolean_times hb hc
    rw [boolean_eq ha hprod, hbits, beq_iff_eq] at h
    have hquotient : a.divide b side =
        if !a.isUnivSet || b.isUnivSet then emptySet else univSet := by
      unfold SetWeight.divide
      dsimp only
      rw [if_neg (by simp [isMember_of_proper ha, isMember_of_proper hb]), eq_one ha, eq_zero hb]
      rfl
    have hproper : Proper (a.divide b side) := by
      rw [hquotient]
      split
      · exact proper_emptySet
      · exact proper_univSet
    obtain ⟨hback, hbits'⟩ := boolean_times hb hproper
    refine ⟨hproper, ?_⟩
    rw [boolean_eq hback ha, hbits', hquotient, beq_iff_eq, h]
    cases b.isUnivSet <;> cases c.isUnivSet <;> simp
  | intersectUnion =>
    rw [eq_iff (by decide)] at h ⊢
    exact difference_recovers ha hb hc h
  | intersectUnionRestrict =>
    rw [eq_iff (by decide)] at h ⊢
    exact difference_recovers ha hb hc h

end Dividing

section Main

/- The sets that the weights stand for are joined, met and taken from one another, and each kind
has the laws of the operations it is made of. -/
theorem set_algebra :
    (∀ (S : SetKind) (w w' : SetWeight L S), Proper w → Proper w' →
      (Proper (unionSets w w') ∧ elements (unionSets w w') = elements w ∪ elements w') ∧
      (Proper (intersectSets w w') ∧
        elements (intersectSets w w') = elements w ∩ elements w') ∧
      (Proper (differenceSets w w') ∧ elements (differenceSets w w') =
        if w = univSet ∧ w' ≠ univSet then Set.univ else elements w \ elements w')) ∧
    LawsFor (SetWeight L .unionIntersect) Proper Eq ∧
    LawsFor (SetWeight L .intersectUnion) Proper Eq ∧
    LawsFor (SetWeight L .boolean) Proper (fun a b => a.eq b = true) ∧
    (∀ a b c : SetWeight L .intersectUnionRestrict, Proper a → Proper b → Proper c →
      RestrictedLaws a b c) ∧
    ∀ (S : SetKind) (side : DivideType) (a b c : SetWeight L S), Proper a → Proper b → Proper c →
      a.eq (b.times c) = true →
      Proper (a.divide b side) ∧ (b.times (a.divide b side)).eq a = true := by
  refine ⟨fun S w w' h h' => ⟨unionSets_spec h h', intersectSets_spec h h', ?_⟩,
    unionIntersect_laws, intersectUnion_laws, boolean_laws,
    fun a b c ha hb hc => restricted_laws ha hb hc,
    fun S side a b c ha hb hc heq => divide_spec side ha hb hc heq⟩
  by_cases huniv : w = univSet ∧ w' ≠ univSet
  · obtain ⟨rfl, hne⟩ := huniv
    rw [if_pos ⟨rfl, hne⟩, differenceSets_univ h' hne]
    exact ⟨proper_univSet, elements_univSet⟩
  · rw [if_neg huniv]
    refine differenceSets_spec h h' ?_
    by_cases hw : w = univSet
    · exact Or.inr (not_not.mp fun hne => huniv ⟨hw, hne⟩)
    · exact Or.inl hw

end Main

end Sicada.SetWeightExact
