import Sicada.DeterminizeRuns

namespace Sicada.DeterminizeGroups

open DeterminizeRuns

variable {L K : Type} [ArcLabel L]

theorem flatMap_labelGroups (ts : List (Transition L K)) :
    (labelGroups ts).flatMap (·.2) = ts := by
  induction ts with
  | nil => rfl
  | cons t ts ih =>
    unfold labelGroups
    split
    next hnil =>
      rw [hnil] at ih
      rw [← ih]
      rfl
    next label destinations groups hcons =>
      rw [hcons] at ih
      split
      · rw [← ih]
        rfl
      · rw [← ih]
        rfl

theorem label_of_mem_group {ts : List (Transition L K)} {group : L × List (Transition L K)}
    (hg : group ∈ labelGroups ts) {t : Transition L K} (ht : t ∈ group.2) : t.label = group.1 := by
  induction ts generalizing group t with
  | nil => cases hg
  | cons u ts ih =>
    unfold labelGroups at hg
    split at hg
    next hnil =>
      obtain rfl := List.mem_singleton.mp hg
      obtain rfl := List.mem_singleton.mp ht
      rfl
    next label destinations groups hcons =>
      have hrest : ∀ g ∈ (label, destinations) :: groups, ∀ x ∈ g.2, x.label = g.1 :=
        fun g hmem x hx => ih (hcons ▸ hmem) hx
      split at hg
      next heq =>
        rcases List.mem_cons.mp hg with rfl | hg
        · rcases List.mem_cons.mp ht with rfl | ht
          · exact heq.symm
          · exact hrest _ List.mem_cons_self t ht
        · exact hrest group (List.mem_cons_of_mem _ hg) t ht
      next hne =>
        rcases List.mem_cons.mp hg with rfl | hg
        · obtain rfl := List.mem_singleton.mp ht
          rfl
        · exact hrest group hg t ht

/- Every label of a group is that of one of the transitions. -/
theorem exists_label {ts : List (Transition L K)} {label : L}
    (hl : label ∈ (labelGroups ts).map Prod.fst) : ∃ t ∈ ts, t.label = label := by
  induction ts generalizing label with
  | nil => cases hl
  | cons u ts ih =>
    unfold labelGroups at hl
    split at hl
    next hnil =>
      obtain rfl := List.mem_singleton.mp hl
      exact ⟨u, List.mem_cons_self, rfl⟩
    next label' destinations groups hcons =>
      rw [hcons] at ih
      split at hl
      next heq =>
        obtain ⟨t, ht, htl⟩ := ih hl
        exact ⟨t, List.mem_cons_of_mem u ht, htl⟩
      next hne =>
        rcases List.mem_cons.mp hl with rfl | hl
        · exact ⟨u, List.mem_cons_self, rfl⟩
        · obtain ⟨t, ht, htl⟩ := ih hl
          exact ⟨t, List.mem_cons_of_mem u ht, htl⟩

/- On sorted transitions no label makes two groups. -/
theorem labelGroups_sorted {ts : List (Transition L K)}
    (hsorted : ts.Pairwise fun a b => a.label ≤ b.label) :
    ((labelGroups ts).map Prod.fst).Pairwise (· < ·) := by
  induction ts with
  | nil => exact List.Pairwise.nil
  | cons t ts ih =>
    obtain ⟨hle, hsorted⟩ := List.pairwise_cons.mp hsorted
    have hrest := ih hsorted
    unfold labelGroups
    split
    next hnil => exact List.pairwise_singleton _ _
    next label destinations groups hcons =>
      rw [hcons] at hrest
      split
      next heq => exact hrest
      next hne =>
        have hlabel : t.label < label := by
          have hmem : label ∈ (labelGroups ts).map Prod.fst := by simp [hcons]
          obtain ⟨u, hu, hul⟩ := exists_label hmem
          exact lt_of_le_of_ne (hul ▸ hle u hu) (Ne.symm hne)
        refine List.pairwise_cons.mpr ⟨?_, hrest⟩
        intro l hl
        rcases List.mem_cons.mp hl with rfl | hl
        · exact hlabel
        · exact hlabel.trans ((List.pairwise_cons.mp hrest).1 l hl)

theorem perm_sortTransitions (ts : List (Transition L K)) : (sortTransitions ts).Perm ts :=
  List.perm_insertionSort _ ts

theorem sorted_sortTransitions (ts : List (Transition L K)) :
    (sortTransitions ts).Pairwise fun a b => a.label ≤ b.label := by
  have htotal : Std.Total fun a b : Transition L K =>
      a.label < b.label ∨ (a.label = b.label ∧ a.member ≤ b.member) := by
    constructor
    intro a b
    rcases lt_trichotomy a.label b.label with h | h | h
    · exact Or.inl (Or.inl h)
    · rcases le_total a.member b.member with h' | h'
      · exact Or.inl (Or.inr ⟨h, h'⟩)
      · exact Or.inr (Or.inr ⟨h.symm, h'⟩)
    · exact Or.inr (Or.inl h)
  have htrans : IsTrans (Transition L K) fun a b : Transition L K =>
      a.label < b.label ∨ (a.label = b.label ∧ a.member ≤ b.member) := by
    constructor
    rintro a b c (hab | ⟨hab, hab'⟩) (hbc | ⟨hbc, hbc'⟩)
    · exact Or.inl (hab.trans hbc)
    · exact Or.inl (hbc ▸ hab)
    · exact Or.inl (hab ▸ hbc)
    · exact Or.inr ⟨hab.trans hbc, hab'.trans hbc'⟩
  apply (List.pairwise_insertionSort _ ts).imp
  rintro a b (h | ⟨h, -⟩) <;> exact h.le

theorem sum_groups {X : Type} [AddCommMonoid X] (F : Transition L K → X) (label : L)
    {groups : List (L × List (Transition L K))}
    (hgroups : ∀ group ∈ groups, ∀ t ∈ group.2, t.label = group.1) :
    ((groups.filter fun group => group.1 = label).map fun group => (group.2.map F).sum).sum =
      (((groups.flatMap (·.2)).filter fun t => t.label = label).map F).sum := by
  induction groups with
  | nil => rfl
  | cons group groups ih =>
    have hrest := ih fun g hg => hgroups g (List.mem_cons_of_mem group hg)
    have hgroup := hgroups group List.mem_cons_self
    rw [List.flatMap_cons, List.filter_append, List.map_append, List.sum_append, ← hrest]
    by_cases hl : group.1 = label
    · have hall : (group.2.filter fun t => t.label = label) = group.2 := by
        apply List.filter_eq_self.mpr
        intro t ht
        simp [hgroup t ht, hl]
      rw [List.filter_cons_of_pos (by simpa using hl), hall, List.map_cons, List.sum_cons]
    · have hnone : (group.2.filter fun t => t.label = label) = [] := by
        apply List.filter_eq_nil_iff.mpr
        intro t ht
        simp [hgroup t ht, hl]
      rw [List.filter_cons_of_neg (by simpa using hl), hnone]
      simp

end Sicada.DeterminizeGroups
