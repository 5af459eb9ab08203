import Mathlib

namespace Costs

variable {C : Type*} [LinearOrderedAddCommMonoidWithTop C]

theorem zero_ne_top [Nontrivial C] : (0 : C) ≠ ⊤ := by
  intro htop
  have hall : ∀ c : C, c = ⊤ := fun c => by rw [← add_zero c, htop, add_top]
  obtain ⟨a, b, hab⟩ := exists_pair_ne C
  exact hab ((hall a).trans (hall b).symm)

theorem add_eq_top {a b : C} : a + b = ⊤ ↔ a = ⊤ ∨ b = ⊤ := by
  constructor
  · intro h
    by_cases ha : a = ⊤
    · exact Or.inl ha
    · refine Or.inr ((add_right_inj_of_ne_top ha).mp ?_)
      rw [h, add_top]
  · rintro (rfl | rfl)
    · exact top_add b
    · exact add_top a

theorem add_ne_top {a b : C} (ha : a ≠ ⊤) (hb : b ≠ ⊤) : a + b ≠ ⊤ := by
  rw [ne_eq, add_eq_top, not_or]
  exact ⟨ha, hb⟩

end Costs

namespace Sicada

namespace Regroup

variable {α β W : Type*} [AddCommMonoid W] [TopologicalSpace W] [ContinuousAdd W]
  [RegularSpace W]

/- A sum is the sum of the sums of its groups, when each group is finite. -/
theorem hasSum_regroup {A : Set α} {B : Set β} {f : α → W} {g : β → W} {π : α → β}
    (hmaps : Set.MapsTo π A B) (group : β → Finset α)
    (hgroup : ∀ b ∈ B, ∀ a, a ∈ group b ↔ a ∈ A ∧ π a = b)
    (hsum : ∀ b ∈ B, ∑ a ∈ group b, f a = g b) {w : W}
    (h : HasSum (fun a : A => f a) w) : HasSum (fun b : B => g b) w := by
  let stem : A → B := fun a => ⟨π a, hmaps a.2⟩
  have hsigma : HasSum (fun x : Σ b : B, { a : A // stem a = b } => f x.2.1) w :=
    (Equiv.sigmaFiberEquiv stem).hasSum_iff.mpr h
  refine hsigma.sigma fun b => ?_
  have hfiber : ∀ a ∈ group b, ∃ hA : a ∈ A, stem ⟨a, hA⟩ = b := by
    intro a ha
    obtain ⟨hA, hπ⟩ := (hgroup b b.2 a).mp ha
    exact ⟨hA, Subtype.ext hπ⟩
  let enter : { a // a ∈ group b } ≃ { a : A // stem a = b } :=
    { toFun := fun a => ⟨⟨a, (hfiber a a.2).choose⟩, (hfiber a a.2).choose_spec⟩
      invFun := fun a => ⟨a.1, (hgroup b b.2 a.1).mpr ⟨a.1.2, congrArg Subtype.val a.2⟩⟩
      left_inv := fun _ => rfl
      right_inv := fun _ => rfl }
  have hfinite : HasSum (fun a : { a // a ∈ group b } => f a) (g b) := by
    have hgb := hsum b b.2
    have hfin := (group (b : β)).hasSum f
    rw [hgb] at hfin
    exact hfin
  exact (Equiv.hasSum_iff enter).mp hfinite

/- What is zero may be left out. -/
theorem hasSum_restrict {W : Type*} [AddCommMonoid W] [TopologicalSpace W] {A B : Set α}
    {f : α → W} (hsub : B ⊆ A) (hzero : ∀ a ∈ A, a ∉ B → f a = 0) {w : W}
    (h : HasSum (fun a : A => f a) w) : HasSum (fun b : B => f b) w := by
  have hindicator : A.indicator f = B.indicator f := by
    funext a
    by_cases hB : a ∈ B
    · rw [Set.indicator_of_mem hB, Set.indicator_of_mem (hsub hB)]
    · rw [Set.indicator_of_notMem hB]
      by_cases hA : a ∈ A
      · rw [Set.indicator_of_mem hA, hzero a hA hB]
      · rw [Set.indicator_of_notMem hA]
  have hA : HasSum (A.indicator f) w := hasSum_subtype_iff_indicator.mp h
  rw [hindicator] at hA
  exact hasSum_subtype_iff_indicator.mpr hA

theorem hasSum_bijOn {W : Type*} [AddCommMonoid W] [TopologicalSpace W] {A : Set α} {B : Set β}
    {F : β → α} {f : α → W} {g : β → W} (hbij : Set.BijOn F B A) (hsame : ∀ b ∈ B, f (F b) = g b)
    {w : W} : HasSum (fun a : A => f a) w ↔ HasSum (fun b : B => g b) w := by
  have heq : (fun b : B => g b) = (fun a : A => f a) ∘ hbij.equiv F := by
    funext b
    exact (hsame b b.2).symm
  rw [heq, Equiv.hasSum_iff]

end Regroup

end Sicada

/- The paths of a weighted graph whose inner vertices lie in a set, summed up as vertices are added
to it one by one. -/
