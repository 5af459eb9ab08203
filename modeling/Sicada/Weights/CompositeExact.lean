import Sicada.Weights.StringWeightExact

namespace Sicada

namespace LexicographicLaws

open WeightOps WeightLaws NaturalOrder Selection CompositeLaws

variable {W₁ W₂ : Type} [WeightOps W₁] [WeightOps W₂] [DecidableEq W₁] [DecidableEq W₂]

theorem isMember_iff {w : LexicographicWeight W₁ W₂} :
    isMember w = true ↔ isMember w.value1 = true ∧ isMember w.value2 = true ∧
      (w.value1 = zero ↔ w.value2 = zero) := by
  change w.isMember = true ↔ _
  unfold LexicographicWeight.isMember
  by_cases h₁ : isMember w.value1 = true <;> by_cases h₂ : isMember w.value2 = true <;>
    simp [h₁, h₂]

section Order

variable [PathWeight W₁] [PathWeight W₂] {a b c : Member (LexicographicWeight W₁ W₂)}

def first (w : Member (LexicographicWeight W₁ W₂)) : Member W₁ :=
  ⟨w.1.value1, (isMember_iff.mp w.2).1⟩

def second (w : Member (LexicographicWeight W₁ W₂)) : Member W₂ :=
  ⟨w.1.value2, (isMember_iff.mp w.2).2.1⟩

def key (w : Member (LexicographicWeight W₁ W₂)) : Member W₁ ×ₗ Member W₂ :=
  toLex (first w, second w)

theorem key_le : key a ≤ key b ↔ first a < first b ∨ first a = first b ∧ second a ≤ second b :=
  Prod.Lex.toLex_le_toLex

theorem key_lt : key a < key b ↔ first a < first b ∨ first a = first b ∧ second a < second b :=
  Prod.Lex.toLex_lt_toLex

theorem eq_of_parts (h₁ : first a = first b) (h₂ : second a = second b) : a = b :=
  Subtype.ext (LexicographicWeight.ext (congrArg Subtype.val h₁) (congrArg Subtype.val h₂))

theorem key_injective (h : key a = key b) : a = b := by
  have hpair := toLex.injective h
  exact eq_of_parts (congrArg Prod.fst hpair) (congrArg Prod.snd hpair)

theorem plus_eq (a b : Member (LexicographicWeight W₁ W₂)) :
    plus a.1 b.1 = (minBy key a b).1 := by
  have ha : a.1.isMember = true := a.2
  have hb : b.1.isMember = true := b.2
  change a.1.plus b.1 = _
  unfold LexicographicWeight.plus
  rw [if_neg (by simp [ha, hb])]
  rcases lt_trichotomy (first a) (first b) with h | h | h
  · rw [if_pos ⟨fun heq => h.ne (Subtype.ext heq), plus_of_le h.le⟩,
      minBy_of_le (key_le.mpr (Or.inl h))]
  · have heq : a.1.value1 = b.1.value1 := congrArg Subtype.val h
    rw [if_neg fun hne => hne.1 heq, if_neg fun hne => hne.1 heq]
    rcases lt_trichotomy (second a) (second b) with h' | h' | h'
    · rw [if_pos ⟨fun heq' => h'.ne (Subtype.ext heq'), plus_of_le h'.le⟩,
        minBy_of_le (key_le.mpr (Or.inr ⟨h, h'.le⟩))]
    · have heq' : a.1.value2 = b.1.value2 := congrArg Subtype.val h'
      rw [if_neg fun hne => hne.1 heq', if_neg fun hne => hne.1 heq',
        minBy_of_le (key_le.mpr (Or.inr ⟨h, h'.le⟩))]
    · rw [if_neg fun hsum => absurd (le_iff.mpr hsum.2) (not_le.mpr h'),
        if_pos ⟨fun heq' => h'.ne (Subtype.ext heq').symm, plus_of_ge h'.le⟩,
        minBy_of_lt (key_lt.mpr (Or.inr ⟨h.symm, h'⟩))]
  · rw [if_neg fun hsum => absurd (le_iff.mpr hsum.2) (not_le.mpr h),
      if_pos ⟨fun heq => h.ne (Subtype.ext heq).symm, plus_of_ge h.le⟩,
      minBy_of_lt (key_lt.mpr (Or.inl h))]

end Order

section Product

variable [PathWeight W₁] [PathWeight W₂] (h₁ : Cancellative W₁) (h₂ : Cancellative W₂)
  {a b c : Member (LexicographicWeight W₁ W₂)}

theorem zero_member : isMember (zero : LexicographicWeight W₁ W₂) = true :=
  isMember_iff.mpr
    ⟨PathWeight.laws.zero_member, PathWeight.laws.zero_member, fun _ => rfl, fun _ => rfl⟩

/- A member is zero in both components or in none. -/
theorem parts_ne_zero (ha : a.1 ≠ zero) : (first a).1 ≠ zero ∧ (second a).1 ≠ zero := by
  obtain ⟨-, -, hzero⟩ := isMember_iff.mp a.2
  constructor
  · exact fun h => ha (LexicographicWeight.ext h (hzero.mp h))
  · exact fun h => ha (LexicographicWeight.ext (hzero.mpr h) h)

theorem zero_times (a : Member (LexicographicWeight W₁ W₂)) : times zero a.1 = zero :=
  LexicographicWeight.ext (PathWeight.laws.zero_times _ (first a).2)
    (PathWeight.laws.zero_times _ (second a).2)

theorem times_zero (a : Member (LexicographicWeight W₁ W₂)) : times a.1 zero = zero :=
  LexicographicWeight.ext (PathWeight.laws.times_zero _ (first a).2)
    (PathWeight.laws.times_zero _ (second a).2)

include h₁ h₂ in
theorem times_member (a b : Member (LexicographicWeight W₁ W₂)) :
    isMember (times a.1 b.1) = true := by
  by_cases ha : a.1 = zero
  · rw [ha, zero_times]
    exact zero_member
  · obtain ⟨hne₁, hne₂⟩ := parts_ne_zero ha
    refine isMember_iff.mpr ⟨(product (first a) (first b)).2, (product (second a) (second b)).2, ?_⟩
    exact (product_ne_zero (b := first b) h₁ hne₁).trans
      ((isMember_iff.mp b.2).2.2.trans (product_ne_zero (b := second b) h₂ hne₂).symm)

def mul (a b : Member (LexicographicWeight W₁ W₂)) : Member (LexicographicWeight W₁ W₂) :=
  ⟨times a.1 b.1, times_member h₁ h₂ a b⟩

theorem first_mul (a b : Member (LexicographicWeight W₁ W₂)) :
    first (mul h₁ h₂ a b) = product (first a) (first b) := rfl

theorem second_mul (a b : Member (LexicographicWeight W₁ W₂)) :
    second (mul h₁ h₂ a b) = product (second a) (second b) := rfl

theorem key_mul_left (hleft : Declares (LexicographicWeight W₁ W₂) leftSemiring)
    (ha : a.1 ≠ zero) : key (mul h₁ h₂ a b) ≤ key (mul h₁ h₂ a c) ↔ key b ≤ key c := by
  obtain ⟨hleft₁, hleft₂⟩ := ne_zero_of_and (ne_zero_of_and hleft).1
  obtain ⟨hne₁, hne₂⟩ := parts_ne_zero ha
  rw [key_le, key_le, first_mul, first_mul, second_mul, second_mul]
  exact or_congr (product_lt_left h₁ hleft₁ hne₁) (and_congr (product_inj_left h₁ hne₁)
    (product_le_left_iff h₂ hleft₂ hne₂))

theorem key_mul_right (hright : Declares (LexicographicWeight W₁ W₂) rightSemiring)
    (ha : a.1 ≠ zero) : key (mul h₁ h₂ b a) ≤ key (mul h₁ h₂ c a) ↔ key b ≤ key c := by
  obtain ⟨hright₁, hright₂⟩ := ne_zero_of_and (ne_zero_of_and hright).1
  obtain ⟨hne₁, hne₂⟩ := parts_ne_zero ha
  rw [key_le, key_le, first_mul, first_mul, second_mul, second_mul]
  exact or_congr (product_lt_right h₁ hright₁ hne₁) (and_congr (product_inj_right h₁ hne₁)
    (product_le_right_iff h₂ hright₂ hne₂))

include h₁ h₂ in
theorem left_distrib (hleft : Declares (LexicographicWeight W₁ W₂) leftSemiring)
    (a b c : Member (LexicographicWeight W₁ W₂)) :
    times a.1 (plus b.1 c.1) = plus (times a.1 b.1) (times a.1 c.1) := by
  by_cases ha : a.1 = zero
  · have hzero := plus_eq (⟨zero, zero_member⟩ : Member (LexicographicWeight W₁ W₂))
      ⟨zero, zero_member⟩
    rw [minBy_self] at hzero
    rw [ha, plus_eq, zero_times, zero_times, zero_times, hzero]
  · have hmap := map_minBy (f := mul h₁ h₂ a) (key_mul_left h₁ h₂ hleft ha (b := b) (c := c))
    calc times a.1 (plus b.1 c.1) = (mul h₁ h₂ a (minBy key b c)).1 := by rw [plus_eq]; rfl
      _ = (minBy key (mul h₁ h₂ a b) (mul h₁ h₂ a c)).1 := by rw [hmap]
      _ = plus (times a.1 b.1) (times a.1 c.1) :=
        (plus_eq (mul h₁ h₂ a b) (mul h₁ h₂ a c)).symm

include h₁ h₂ in
theorem right_distrib (hright : Declares (LexicographicWeight W₁ W₂) rightSemiring)
    (a b c : Member (LexicographicWeight W₁ W₂)) :
    times (plus b.1 c.1) a.1 = plus (times b.1 a.1) (times c.1 a.1) := by
  by_cases ha : a.1 = zero
  · have hzero := plus_eq (⟨zero, zero_member⟩ : Member (LexicographicWeight W₁ W₂))
      ⟨zero, zero_member⟩
    rw [minBy_self] at hzero
    rw [ha, plus_eq, times_zero, times_zero, times_zero, hzero]
  · have hmap := map_minBy (f := fun x => mul h₁ h₂ x a)
      (key_mul_right h₁ h₂ hright ha (b := b) (c := c))
    calc times (plus b.1 c.1) a.1 = (mul h₁ h₂ (minBy key b c) a).1 := by rw [plus_eq]; rfl
      _ = (minBy key (mul h₁ h₂ b a) (mul h₁ h₂ c a)).1 := by rw [hmap]
      _ = plus (times b.1 a.1) (times c.1 a.1) :=
        (plus_eq (mul h₁ h₂ b a) (mul h₁ h₂ c a)).symm

include h₁ h₂ in
theorem lexicographic_laws :
    LawsFor (LexicographicWeight W₁ W₂) (fun w => isMember w = true) Eq where
  zero_member := zero_member
  plus_member a b ha hb := by
    rw [plus_eq ⟨a, ha⟩ ⟨b, hb⟩]
    exact (minBy key _ _).2
  times_member a b ha hb := times_member h₁ h₂ ⟨a, ha⟩ ⟨b, hb⟩
  plus_assoc a b c ha hb hc := by
    rw [plus_eq ⟨a, ha⟩ ⟨b, hb⟩, plus_eq ⟨b, hb⟩ ⟨c, hc⟩, plus_eq _ ⟨c, hc⟩, plus_eq ⟨a, ha⟩,
      minBy_assoc]
  plus_comm a b ha hb := by
    rw [plus_eq ⟨a, ha⟩ ⟨b, hb⟩, plus_eq ⟨b, hb⟩ ⟨a, ha⟩, minBy_comm key_injective]
  zero_plus a ha := by
    have hle : key ⟨a, ha⟩ ≤ key ⟨zero, zero_member⟩ := by
      rw [key_le]
      rcases (le_zero (first ⟨a, ha⟩)).lt_or_eq with hlt | heq
      · exact Or.inl hlt
      · exact Or.inr ⟨heq, le_zero (second ⟨a, ha⟩)⟩
    rw [plus_eq ⟨zero, zero_member⟩ ⟨a, ha⟩, minBy_comm key_injective, minBy_of_le hle]
  times_assoc a b c ha hb hc :=
    LexicographicWeight.ext
      (PathWeight.laws.times_assoc _ _ _ (first ⟨a, ha⟩).2 (first ⟨b, hb⟩).2 (first ⟨c, hc⟩).2)
      (PathWeight.laws.times_assoc _ _ _ (second ⟨a, ha⟩).2 (second ⟨b, hb⟩).2 (second ⟨c, hc⟩).2)
  one_times a ha := LexicographicWeight.ext (PathWeight.laws.one_times _ (first ⟨a, ha⟩).2)
    (PathWeight.laws.one_times _ (second ⟨a, ha⟩).2)
  times_one a ha := LexicographicWeight.ext (PathWeight.laws.times_one _ (first ⟨a, ha⟩).2)
    (PathWeight.laws.times_one _ (second ⟨a, ha⟩).2)
  zero_times a ha := zero_times ⟨a, ha⟩
  times_zero a ha := times_zero ⟨a, ha⟩
  left_distrib hbit a b c ha hb hc := left_distrib h₁ h₂ hbit ⟨a, ha⟩ ⟨b, hb⟩ ⟨c, hc⟩
  right_distrib hbit a b c ha hb hc := right_distrib h₁ h₂ hbit ⟨a, ha⟩ ⟨b, hb⟩ ⟨c, hc⟩
  times_comm hbit a b ha hb := by
    obtain ⟨hbit₁, hbit₂⟩ := ne_zero_of_and (ne_zero_of_and hbit).1
    exact LexicographicWeight.ext
      (PathWeight.laws.times_comm hbit₁ _ _ (first ⟨a, ha⟩).2 (first ⟨b, hb⟩).2)
      (PathWeight.laws.times_comm hbit₂ _ _ (second ⟨a, ha⟩).2 (second ⟨b, hb⟩).2)
  plus_idem _ a ha := by rw [plus_eq ⟨a, ha⟩ ⟨a, ha⟩, minBy_self]
  plus_path _ a b ha hb := by
    rw [plus_eq ⟨a, ha⟩ ⟨b, hb⟩]
    rcases minBy_choice key (⟨a, ha⟩ : Member (LexicographicWeight W₁ W₂)) ⟨b, hb⟩ with h | h
    · exact Or.inl (by rw [h])
    · exact Or.inr (by rw [h])

end Product

end LexicographicLaws

end Sicada

namespace Sicada

namespace CompositeExact

open WeightOps WeightLaws CompositeLaws NaturalOrder StringWeightExact

variable {W₁ W₂ K : Type} [WeightOps W₁] [WeightOps W₂] [DecidableEq W₁] [DecidableEq W₂]
  [LinearOrder K]

/- The laws the composites of two weight types declare, and the division of an expectation. -/
structure Honours (W₁ W₂ K : Type) [WeightOps W₁] [WeightOps W₂] [DecidableEq W₁] [DecidableEq W₂]
    [LinearOrder K] : Prop where
  product : Laws (ProductWeight W₁ W₂)
  power (n : ℕ) : Laws (PowerWeight W₁ n)
  sparsePower : LawsFor (SparsePowerWeight W₁ K) Proper Eq
  sparsePower_one : Proper (one : SparsePowerWeight W₁ K)
  expectation : Laws (ExpectationWeight W₁)
  expectation_left (_ : DivideOps W₁) (_ : MinusOps W₁) : DividesLeft W₁ → Subtracts W₁ →
    ∀ u v : ExpectationWeight W₁, isMember u = true → isMember v = true → u.value1 ≠ zero →
      DivideOps.divide (times u v) u .left = v
  expectation_right (_ : DivideOps W₁) (_ : MinusOps W₁) : DividesRight W₁ → Subtracts W₁ →
    ∀ u v : ExpectationWeight W₁, isMember u = true → isMember v = true → v.value1 ≠ zero →
      DivideOps.divide (times u v) v .right = u
  lexicographic : Declares W₁ path → Declares W₂ path → Cancellative W₁ → Cancellative W₂ →
    LawsFor (LexicographicWeight W₁ W₂) (fun w => isMember w = true) Eq

/- The composites honour their laws where the component of an expectation distributes on both
sides, whatever side it declares. -/
theorem honours_iff (h₁ : Laws W₁) (h₂ : Laws W₂) : Honours W₁ W₂ K ↔ Distributes W₁ := by
  constructor
  · intro h
    exact distributes_of_assoc h₁ fun u v w hu hv hw => h.expectation.times_assoc u v w hu hv hw
  · intro hd
    refine ⟨product_laws h₁ h₂, fun n => power_laws h₁, sparse_laws h₁, sparse_one h₁,
      expectation_laws h₁ hd, ?_, ?_, ?_⟩
    · exact fun _ _ hdivides hsub u v hu hv hne =>
        expectation_divides_left h₁ hdivides hsub hu hv hne
    · exact fun _ _ hdivides hsub u v hu hv hne =>
        expectation_divides_right h₁ hdivides hsub hu hv hne
    · intro hpath₁ hpath₂ hcancel₁ hcancel₂
      have : PathWeight W₁ := ⟨h₁, hpath₁⟩
      have : PathWeight W₂ := ⟨h₂, hpath₂⟩
      exact LexicographicLaws.lexicographic_laws hcancel₁ hcancel₂

theorem left_strings_not_distributes : ¬ Distributes (StringWeight ℤ .left) := by
  intro h
  have hright := (h (spell [2]) (spell []) (spell [1]) rfl rfl rfl).2
  exact absurd hright (by decide)

theorem honours_iff_strings : ¬ Honours (StringWeight ℤ .left) (StringWeight ℤ .left) ℤ :=
  fun h => left_strings_not_distributes
    ((honours_iff (joins_laws joins_left) (joins_laws joins_left)).mp h)

/- An expectation over left strings, whose product distributes on the left only. -/
theorem expectation_of_strings_not_assoc :
    Laws (StringWeight ℤ .left) ∧
      Declares (ExpectationWeight (StringWeight ℤ .left)) leftSemiring ∧
      ¬ ∀ u v w : ExpectationWeight (StringWeight ℤ .left), isMember u = true →
        isMember v = true → isMember w = true → times (times u v) w = times u (times v w) := by
  refine ⟨joins_laws joins_left, by decide, fun h => ?_⟩
  have hassoc := h ⟨spell [], spell [1]⟩ ⟨spell [], spell []⟩ ⟨spell [2], zero⟩ rfl rfl rfl
  exact absurd hassoc (by decide)

end CompositeExact

end Sicada
