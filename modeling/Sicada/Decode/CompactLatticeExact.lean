import Sicada.Decode.LatticeWeight

set_option linter.unusedSectionVars false

namespace Sicada.CompactLatticeExact

open CompactLatticeWeight Selection WeightLaws

section Strings

variable {L : Type} [LinearOrder L] {u v w : List L}

theorem append_lt_append_left (w u v : List L) : w ++ u < w ++ v ↔ u < v := by
  induction w with
  | nil => rfl
  | cons l w ih => simp [ih]

theorem append_lt_append_right (hlen : u.length = v.length) (w : List L) :
    u ++ w < v ++ w ↔ u < v := by
  induction u generalizing v with
  | nil =>
    obtain rfl := List.length_eq_zero_iff.mp hlen.symm
    simp
  | cons l u ih =>
    cases v with
    | nil => cases hlen
    | cons l' v => simp [List.cons_lt_cons_iff, ih (Nat.succ.inj hlen)]

theorem append_le_append_left (w u v : List L) : w ++ u ≤ w ++ v ↔ u ≤ v := by
  rw [← not_lt, ← not_lt]
  exact not_congr (append_lt_append_left w v u)

theorem append_le_append_right (hlen : u.length = v.length) (w : List L) :
    u ++ w ≤ v ++ w ↔ u ≤ v := by
  rw [← not_lt, ← not_lt]
  exact not_congr (append_lt_append_right hlen.symm w)

end Strings

variable {K L : Type} [AddCommGroup K] [LinearOrder K] [ArcLabel L]
  {w w' : CompactLatticeWeight K L} {g a g' a' : K} {labels labels' : List L}

section Keys

/- The order of the members, the best first. -/
abbrev Key (K L : Type) : Type := WithTop (K ×ₗ K ×ₗ ℕ ×ₗ List L)

def key (w : CompactLatticeWeight K L) : Key K L :=
  match w.weight with
  | ⟨.finite g, .finite a⟩ =>
    ↑(toLex (g + a, toLex (g, toLex (w.alignment.length, w.alignment))))
  | _ => ⊤

theorem key_zero : key (zero : CompactLatticeWeight K L) = ⊤ := rfl

theorem key_aligned (g a : K) (labels : List L) : key (aligned g a labels) =
    ↑(toLex (g + a, toLex (g, toLex (labels.length, labels)))) := rfl

theorem key_aligned_le : key (aligned g a labels) ≤ key (aligned g' a' labels') ↔
    g + a < g' + a' ∨ g + a = g' + a' ∧ (g < g' ∨ g = g' ∧ (labels.length < labels'.length ∨
      labels.length = labels'.length ∧ labels ≤ labels')) := by
  rw [key_aligned, key_aligned, WithTop.coe_le_coe]
  simp only [Prod.Lex.toLex_le_toLex]

theorem key_injective (hw : w.isMember) (hw' : w'.isMember) (h : key w = key w') : w = w' := by
  rcases isMember_iff.mp hw with rfl | ⟨g, a, labels, rfl⟩ <;>
    rcases isMember_iff.mp hw' with rfl | ⟨g', a', labels', rfl⟩
  · rfl
  · exact absurd h.symm (WithTop.coe_ne_top)
  · exact absurd h (WithTop.coe_ne_top)
  · rw [key_aligned, key_aligned, WithTop.coe_inj] at h
    simp only [EmbeddingLike.apply_eq_iff_eq, Prod.mk.injEq] at h
    obtain ⟨htotal, rfl, -, rfl⟩ := h
    rw [add_left_cancel htotal]

theorem isGE_then {X : Type} [LinearOrder X] (x y : X) (o : Ordering) :
    ((cmp y x).then o).isGE = true ↔ x < y ∨ x = y ∧ o.isGE = true := by
  rcases lt_trichotomy x y with h | rfl | h
  · simp [(cmp_eq_gt_iff y x).mpr h, h]
  · simp
  · simp [(cmp_eq_lt_iff y x).mpr h, h.ne', h.asymm]

theorem isGE_cmp (u v : List L) : (cmp v u).isGE = true ↔ u ≤ v := by
  rw [← not_lt]
  unfold cmp cmpUsing
  split_ifs with h h'
  · exact iff_of_false (by decide) (not_not_intro h)
  · exact iff_of_true rfl h
  · exact iff_of_true rfl h

theorem compare_aligned : (aligned g a labels).compare (aligned g' a' labels') =
    (cmp (g' + a') (g + a)).then ((cmp g' g).then
      ((cmp labels'.length labels.length).then (cmp labels' labels))) := by
  unfold CompactLatticeWeight.compare compareLatticeWeights aligned
  rw [LatticeWeight.compare_ofCosts, Ordering.then_assoc, Ordering.then_assoc]

theorem compare_isGE (hw : w.isMember) (hw' : w'.isMember) :
    (w.compare w').isGE = true ↔ key w ≤ key w' := by
  rcases isMember_iff.mp hw with rfl | ⟨g, a, labels, rfl⟩ <;>
    rcases isMember_iff.mp hw' with rfl | ⟨g', a', labels', rfl⟩
  · exact ⟨fun _ => le_rfl, fun _ => rfl⟩
  · refine iff_of_false (fun h => Bool.false_ne_true h) fun h => ?_
    exact WithTop.coe_ne_top (top_le_iff.mp h)
  · exact ⟨fun _ => le_top, fun _ => rfl⟩
  · rw [compare_aligned, key_aligned_le, isGE_then, isGE_then, isGE_then, isGE_cmp]

/- The sum is the better one. -/
theorem plus_eq (hw : w.isMember) (hw' : w'.isMember) : w.plus w' = minBy key w w' := by
  unfold CompactLatticeWeight.plus minBy
  rw [if_neg (by simp [hw, hw'])]
  simp only [compare_isGE hw hw']

theorem isMember_minBy (hw : w.isMember) (hw' : w'.isMember) : (minBy key w w').isMember := by
  rcases minBy_choice key w w' with h | h <;> rw [h]
  · exact hw
  · exact hw'

end Keys

section Laws

variable [IsOrderedAddMonoid K] {u v : CompactLatticeWeight K L}

/- Multiplying by a member other than the zero keeps the order, on either side. -/
theorem key_times_left (hw : w.isMember) (hw' : w'.isMember) :
    key ((aligned g a labels).times w) ≤ key ((aligned g a labels).times w') ↔ key w ≤ key w' := by
  have htop := times_zero (isMember_aligned g a labels)
  rcases isMember_iff.mp hw with rfl | ⟨g₁, a₁, labels₁, rfl⟩ <;>
    rcases isMember_iff.mp hw' with rfl | ⟨g₂, a₂, labels₂, rfl⟩
  · exact Iff.rfl
  · rw [htop, times_aligned, key_zero]
    exact iff_of_false (fun h => WithTop.coe_ne_top (top_le_iff.mp h))
      fun h => WithTop.coe_ne_top (top_le_iff.mp h)
  · rw [htop, key_zero]
    exact iff_of_true le_top le_top
  · simp only [times_aligned, key_aligned_le, List.length_append, add_add_add_comm g _ a,
      add_lt_add_iff_left, add_right_inj, append_le_append_left]

theorem key_times_right (hw : w.isMember) (hw' : w'.isMember) :
    key (w.times (aligned g a labels)) ≤ key (w'.times (aligned g a labels)) ↔ key w ≤ key w' := by
  have htop := zero_times (isMember_aligned g a labels)
  rcases isMember_iff.mp hw with rfl | ⟨g₁, a₁, labels₁, rfl⟩ <;>
    rcases isMember_iff.mp hw' with rfl | ⟨g₂, a₂, labels₂, rfl⟩
  · exact Iff.rfl
  · rw [htop, times_aligned, key_zero]
    exact iff_of_false (fun h => WithTop.coe_ne_top (top_le_iff.mp h))
      fun h => WithTop.coe_ne_top (top_le_iff.mp h)
  · rw [htop, key_zero]
    exact iff_of_true le_top le_top
  · simp only [times_aligned, key_aligned_le, List.length_append, add_add_add_comm _ g _ a,
      add_lt_add_iff_right, add_left_inj]
    have hlists : labels₁.length = labels₂.length →
        (labels₁ ++ labels ≤ labels₂ ++ labels ↔ labels₁ ≤ labels₂) :=
      fun hlen => append_le_append_right hlen labels
    rw [and_congr_right hlists]

theorem isMember_times (hw : w.isMember) (hw' : w'.isMember) : (w.times w').isMember := by
  rcases isMember_iff.mp hw with rfl | ⟨g, a, labels, rfl⟩
  · rw [zero_times hw']
    exact isMember_zero
  · rcases isMember_iff.mp hw' with rfl | ⟨g', a', labels', rfl⟩
    · rw [times_zero hw]
      exact isMember_zero
    · rw [times_aligned]
      exact isMember_aligned _ _ _

theorem times_plus (hw : w.isMember) (hu : u.isMember) (hv : v.isMember) :
    w.times (u.plus v) = (w.times u).plus (w.times v) := by
  rw [plus_eq hu hv, plus_eq (isMember_times hw hu) (isMember_times hw hv)]
  rcases isMember_iff.mp hw with rfl | ⟨g, a, labels, rfl⟩
  · rw [zero_times hu, zero_times hv, minBy_self, zero_times (isMember_minBy hu hv)]
  · exact map_minBy (key_times_left hu hv)

theorem plus_times (hw : w.isMember) (hu : u.isMember) (hv : v.isMember) :
    (u.plus v).times w = (u.times w).plus (v.times w) := by
  rw [plus_eq hu hv, plus_eq (isMember_times hu hw) (isMember_times hv hw)]
  rcases isMember_iff.mp hw with rfl | ⟨g, a, labels, rfl⟩
  · rw [times_zero hu, times_zero hv, minBy_self, times_zero (isMember_minBy hu hv)]
  · exact map_minBy (f := fun x : CompactLatticeWeight K L => x.times _) (key_times_right hu hv)

theorem times_assoc (hu : u.isMember) (hv : v.isMember) (hw : w.isMember) :
    (u.times v).times w = u.times (v.times w) := by
  rcases isMember_iff.mp hu with rfl | ⟨g₁, a₁, labels₁, rfl⟩
  · rw [zero_times hv, zero_times hw, zero_times (isMember_times hv hw)]
  rcases isMember_iff.mp hv with rfl | ⟨g₂, a₂, labels₂, rfl⟩
  · rw [times_zero hu, zero_times hw, times_zero hu]
  rcases isMember_iff.mp hw with rfl | ⟨g₃, a₃, labels₃, rfl⟩
  · rw [times_zero hv, times_zero hu, times_zero (isMember_times hu hv)]
  · simp only [times_aligned, add_assoc, List.append_assoc]

theorem one_times (hw : w.isMember) : one.times w = w := by
  rcases isMember_iff.mp hw with rfl | ⟨g, a, labels, rfl⟩
  · exact times_zero (isMember_aligned 0 0 [])
  · rw [one_eq, times_aligned, zero_add, zero_add, List.nil_append]

theorem times_one (hw : w.isMember) : w.times one = w := by
  rcases isMember_iff.mp hw with rfl | ⟨g, a, labels, rfl⟩
  · exact zero_times (isMember_aligned 0 0 [])
  · rw [one_eq, times_aligned, add_zero, add_zero, List.append_nil]

theorem plus_comm (hu : u.isMember) (hv : v.isMember) : u.plus v = v.plus u := by
  rw [plus_eq hu hv, plus_eq hv hu]
  exact minBy_comm (key_injective hu hv)

theorem plus_assoc (hu : u.isMember) (hv : v.isMember) (hw : w.isMember) :
    (u.plus v).plus w = u.plus (v.plus w) := by
  rw [plus_eq hu hv, plus_eq hv hw, plus_eq (isMember_minBy hu hv) hw,
    plus_eq hu (isMember_minBy hv hw)]
  exact minBy_assoc key u v w

theorem zero_plus (hw : w.isMember) : zero.plus w = w := by
  rw [plus_comm isMember_zero hw, plus_eq hw isMember_zero]
  exact minBy_of_le le_top

theorem plus_choice (hu : u.isMember) (hv : v.isMember) : u.plus v = u ∨ u.plus v = v := by
  rw [plus_eq hu hv]
  exact minBy_choice key u v

/- The two orders of a product differ, and no bit says otherwise. -/
theorem not_commutative : ¬ Declares (CompactLatticeWeight K L) commutative := by
  have hbits : (leftSemiring ||| rightSemiring ||| path ||| idempotent) &&& commutative = 0 := by
    decide
  exact fun h => h hbits

theorem laws : Laws (CompactLatticeWeight K L) where
  zero_member := isMember_zero
  one_member := isMember_aligned 0 0 []
  plus_member u v hu hv := by
    change (u.plus v).isMember
    rw [plus_eq hu hv]
    exact isMember_minBy hu hv
  times_member u v hu hv := isMember_times hu hv
  plus_assoc u v w hu hv hw := plus_assoc hu hv hw
  plus_comm u v hu hv := plus_comm hu hv
  zero_plus w hw := zero_plus hw
  times_assoc u v w hu hv hw := times_assoc hu hv hw
  one_times w hw := one_times hw
  times_one w hw := times_one hw
  zero_times w hw := zero_times hw
  times_zero w hw := times_zero hw
  left_distrib _ w u v hw hu hv := times_plus hw hu hv
  right_distrib _ w u v hw hu hv := plus_times hw hu hv
  times_comm h := absurd h not_commutative
  plus_idem _ w hw := by
    change w.plus w = w
    rw [plus_eq hw hw, minBy_self]
  plus_path _ u v hu hv := plus_choice hu hv

end Laws

section Reversing

variable [IsOrderedAddMonoid K] {u v : CompactLatticeWeight K L}

theorem reverse_reverse (w : CompactLatticeWeight K L) : w.reverse.reverse = w := by
  simp [CompactLatticeWeight.reverse, LatticeWeight.reverse]

theorem reverse_times (hu : u.isMember) (hv : v.isMember) :
    (u.times v).reverse = v.reverse.times u.reverse := by
  rcases isMember_iff.mp hu with rfl | ⟨g₁, a₁, labels₁, rfl⟩
  · rw [zero_times hv, reverse_zero, times_zero (isMember_reverse hv)]
  rcases isMember_iff.mp hv with rfl | ⟨g₂, a₂, labels₂, rfl⟩
  · rw [times_zero hu, reverse_zero, zero_times (isMember_reverse hu)]
  · simp only [times_aligned, reverse_aligned, List.reverse_append, add_comm g₁, add_comm a₁]

/- The same alignment wins read backwards. -/
def Agree (u v : CompactLatticeWeight K L) : Prop :=
  u.weight = v.weight → u.alignment.length = v.alignment.length →
    (u.alignment ≤ v.alignment ↔ u.alignment.reverse ≤ v.alignment.reverse)

theorem agree_iff (hu : u.isMember) (hv : v.isMember) :
    Agree u v ↔ (key u.reverse ≤ key v.reverse ↔ key u ≤ key v) := by
  rcases isMember_iff.mp hu with rfl | ⟨g, a, labels, rfl⟩ <;>
    rcases isMember_iff.mp hv with rfl | ⟨g', a', labels', rfl⟩
  · exact iff_of_true (fun _ _ => Iff.rfl) Iff.rfl
  · refine iff_of_true (fun hweight => ?_) ?_
    · exact absurd hweight.symm (LatticeWeight.ofCosts_ne_zero g' a')
    · rw [reverse_zero, reverse_aligned, key_zero, top_le_iff, top_le_iff]
      exact iff_of_false WithTop.coe_ne_top WithTop.coe_ne_top
  · refine iff_of_true (fun hweight => ?_) ?_
    · exact absurd hweight (LatticeWeight.ofCosts_ne_zero g a)
    · rw [reverse_zero, key_zero]
      exact iff_of_true le_top le_top
  · rw [reverse_aligned, reverse_aligned, key_aligned_le, key_aligned_le, List.length_reverse,
      List.length_reverse]
    by_cases htie : g + a = g' + a' ∧ g = g' ∧ labels.length = labels'.length
    · obtain ⟨htotal, rfl, hlen⟩ := htie
      obtain rfl := add_left_cancel htotal
      simp [Agree, aligned, hlen, iff_comm]
    · refine iff_of_true (fun hweight hlen => ?_) (by tauto)
      have hcosts : g = g' ∧ a = a' := by simpa [aligned, LatticeWeight.ofCosts] using hweight
      exact absurd ⟨by rw [hcosts.1, hcosts.2], hcosts.1, hlen⟩ htie

theorem reverse_injective {u v : CompactLatticeWeight K L} (h : u.reverse = v.reverse) : u = v := by
  rw [← reverse_reverse u, h, reverse_reverse]

/- Sums are preserved exactly where the same alignment wins read backwards. -/
theorem reverse_plus (hu : u.isMember) (hv : v.isMember) :
    (u.plus v).reverse = u.reverse.plus v.reverse ↔ Agree u v := by
  rw [agree_iff hu hv, plus_eq hu hv, plus_eq (isMember_reverse hu) (isMember_reverse hv)]
  refine ⟨fun h => ?_, map_minBy⟩
  unfold minBy at h
  by_cases hkey : key u ≤ key v
  · refine iff_of_true ?_ hkey
    rw [if_pos hkey] at h
    by_contra hnot
    rw [if_neg hnot] at h
    exact hnot (by rw [h])
  · refine iff_of_false (fun hrev => ?_) hkey
    rw [if_neg hkey, if_pos hrev] at h
    exact hkey (by rw [reverse_injective h])

end Reversing

section Dividing

variable [IsOrderedAddMonoid K] {u v : CompactLatticeWeight K L}

theorem new_ofCosts (g a : K) (labels : List L) :
    new (LatticeWeight.ofCosts g a) labels = aligned g a labels :=
  if_neg (LatticeWeight.ofCosts_ne_zero g a)

theorem weight_aligned_ne (g a : K) (labels : List L) :
    (aligned g a labels).weight ≠ LatticeWeight.zero := LatticeWeight.ofCosts_ne_zero g a

theorem zero_divide (g a : K) (labels : List L) (side : DivideType) :
    zero.divide (aligned g a labels) side = zero := by
  rw [CompactLatticeWeight.divide, if_neg (by simp), if_neg (weight_aligned_ne g a labels)]
  exact if_pos rfl

/- What is left of a product without its left factor. -/
theorem divide_left (hu : u.isMember) (hne : u ≠ zero) (hv : v.isMember) :
    (u.times v).divide u .left = v := by
  rcases isMember_iff.mp hu with rfl | ⟨g, a, labels, rfl⟩
  · exact absurd rfl hne
  rcases isMember_iff.mp hv with rfl | ⟨g', a', labels', rfl⟩
  · rw [times_zero hu, zero_divide]
  · rw [times_aligned, CompactLatticeWeight.divide, if_neg (by simp),
      if_neg (weight_aligned_ne _ _ _), if_neg (weight_aligned_ne _ _ _)]
    simp only [aligned, LatticeWeight.divide_ofCosts]
    simp [new_ofCosts, aligned]

theorem divide_right (hu : u.isMember) (hne : u ≠ zero) (hv : v.isMember) :
    (v.times u).divide u .right = v := by
  rcases isMember_iff.mp hu with rfl | ⟨g, a, labels, rfl⟩
  · exact absurd rfl hne
  rcases isMember_iff.mp hv with rfl | ⟨g', a', labels', rfl⟩
  · rw [zero_times hu, zero_divide]
  · rw [times_aligned, CompactLatticeWeight.divide, if_neg (by simp),
      if_neg (weight_aligned_ne _ _ _), if_neg (weight_aligned_ne _ _ _)]
    simp only [aligned, LatticeWeight.divide_ofCosts]
    simp [new_ofCosts, aligned]

end Dividing

section Main

/- The semiring that is declared, where sums are reversed exactly when the same alignment wins
read backwards. -/
theorem semiring [IsOrderedAddMonoid K] :
    Laws (CompactLatticeWeight K L) ∧
      (∀ u v : CompactLatticeWeight K L, u.isMember → v.isMember →
        (u.plus v = u ∨ u.plus v = v) ∧ u.plus u = u ∧
        (∀ w : CompactLatticeWeight K L, w.isMember → w.times (u.plus v) =
          (w.times u).plus (w.times v) ∧ (u.plus v).times w = (u.times w).plus (v.times w)) ∧
        u.reverse.isMember ∧ u.reverse.reverse = u ∧
        (u.times v).reverse = v.reverse.times u.reverse ∧
        ((u.plus v).reverse = u.reverse.plus v.reverse ↔ Agree u v) ∧
        (u ≠ zero → (u.times v).divide u .left = v ∧ (v.times u).divide u .right = v)) := by
  refine ⟨laws, fun u v hu hv => ⟨plus_choice hu hv, ?_, fun w hw => ?_, isMember_reverse hu,
    reverse_reverse u, reverse_times hu hv, reverse_plus hu hv, fun hne => ?_⟩⟩
  · rw [plus_eq hu hu, minBy_self]
  · exact ⟨times_plus hw hu hv, plus_times hw hu hv⟩
  · exact ⟨divide_left hu hne hv, divide_right hu hne hv⟩

theorem semiring_integers :
    Laws (CompactLatticeWeight ℤ ℤ) ∧
      (∀ u v : CompactLatticeWeight ℤ ℤ, u.isMember → v.isMember →
        (u.plus v = u ∨ u.plus v = v) ∧ u.plus u = u ∧
        (∀ w : CompactLatticeWeight ℤ ℤ, w.isMember → w.times (u.plus v) =
          (w.times u).plus (w.times v) ∧ (u.plus v).times w = (u.times w).plus (v.times w)) ∧
        u.reverse.isMember ∧ u.reverse.reverse = u ∧
        (u.times v).reverse = v.reverse.times u.reverse ∧
        ((u.plus v).reverse = u.reverse.plus v.reverse ↔ Agree u v) ∧
        (u ≠ zero → (u.times v).divide u .left = v ∧ (v.times u).divide u .right = v)) :=
  semiring

/- Two alignments of one length and one cost: backwards the other one wins. -/
theorem reverse_plus_differs :
    ((aligned 0 0 [1, 2]).plus (aligned 0 0 [2, 1]) : CompactLatticeWeight ℤ ℤ).reverse ≠
      (aligned 0 0 [1, 2]).reverse.plus (aligned 0 0 [2, 1]).reverse := by
  decide +kernel

end Main

end Sicada.CompactLatticeExact
