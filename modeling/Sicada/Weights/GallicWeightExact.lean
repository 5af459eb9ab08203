import Sicada.Weights.StringWeightExact

namespace Sicada.GallicWeightExact

open WeightOps WeightLaws CompositeLaws NaturalOrder Selection StringWeightExact

section Reversing

variable {L : Type} [DecidableEq L] {S : StringType} {a b : StringWeight L S}

theorem reverse_zero : (zero : StringWeight L S).reverse = zero := rfl

theorem reverse_spell (s : List L) : (spell s : StringWeight L S).reverse = spell s.reverse := rfl

theorem reverse_noWeight : (noWeight : StringWeight L S).reverse = noWeight := rfl

theorem reverse_times (ha : isMember a = true) (hb : isMember b = true) :
    (times a b).reverse = times b.reverse a.reverse := by
  obtain rfl | ⟨s, rfl⟩ := member_cases ha
  · obtain rfl | ⟨t, rfl⟩ := member_cases hb <;> rfl
  obtain rfl | ⟨t, rfl⟩ := member_cases hb
  · rfl
  · rw [spell_times, reverse_spell, reverse_spell, reverse_spell, spell_times, List.reverse_append]

theorem reverse_plus (ha : isMember a = true) (hb : isMember b = true) :
    (plus a b).reverse = plus a.reverse b.reverse := by
  obtain rfl | ⟨s, rfl⟩ := member_cases ha
  · rw [zero_plus, reverse_zero, zero_plus]
  obtain rfl | ⟨t, rfl⟩ := member_cases hb
  · rw [plus_zero, reverse_zero, plus_zero]
  rw [reverse_spell, reverse_spell]
  cases S with
  | left =>
    rw [joins_left.spell_plus, reverse_spell, CommonPrefix.reverse_commonPrefix]
    exact (joins_right.spell_plus _ _).symm
  | right =>
    rw [joins_right.spell_plus, reverse_spell, CommonPrefix.reverse_commonSuffix]
    exact (joins_left.spell_plus _ _).symm
  | restrict =>
    have hplus := restrict_plus s.reverse t.reverse
    rw [restrict_plus]
    by_cases hst : s = t
    · rw [if_pos (congrArg List.reverse hst)] at hplus
      rw [if_pos hst, reverse_spell]
      exact hplus.symm
    · rw [if_neg fun h => hst (List.reverse_injective h)] at hplus
      rw [if_neg hst, reverse_noWeight]
      exact hplus.symm

end Reversing

section Dividing

variable {L : Type} [DecidableEq L] {S : StringType} {a b : StringWeight L S}

theorem divide_zero (ha : isMember a = true) (typ : DivideType) :
    DivideOps.divide a zero typ = noWeight := by
  obtain rfl | ⟨s, rfl⟩ := member_cases ha <;> rfl

theorem zero_divide (s : List L) (typ : DivideType) :
    DivideOps.divide (zero : StringWeight L S) (spell s) typ = zero := rfl

theorem divide_left (hS : S ≠ .right) (ha : isMember a = true) (hb : isMember b = true) :
    DivideOps.divide (times a b) a .left = b ↔ a ≠ zero := by
  obtain rfl | ⟨s, rfl⟩ := member_cases ha
  · rw [divide_zero (times_member ha hb)]
    refine ⟨?_, fun h => absurd rfl h⟩
    rintro rfl
    cases hb
  refine ⟨fun _ => spell_ne_zero s, fun _ => ?_⟩
  obtain rfl | ⟨t, rfl⟩ := member_cases hb
  · rw [times_zero ha, zero_divide]
  · change (if S = .right then _
      else if s.length ≤ (s ++ t).length ∧ (s ++ t).take s.length = s then
      spell ((s ++ t).drop s.length) else noWeight) = spell t
    rw [if_neg hS, if_pos ⟨by simp, List.take_left⟩, List.drop_left]

theorem divide_right (hS : S ≠ .left) (ha : isMember a = true) (hb : isMember b = true) :
    DivideOps.divide (times a b) b .right = a ↔ b ≠ zero := by
  obtain rfl | ⟨t, rfl⟩ := member_cases hb
  · rw [divide_zero (times_member ha hb)]
    refine ⟨?_, fun h => absurd rfl h⟩
    rintro rfl
    cases ha
  refine ⟨fun _ => spell_ne_zero t, fun _ => ?_⟩
  obtain rfl | ⟨s, rfl⟩ := member_cases ha
  · rw [zero_times hb, zero_divide]
  · have hlength : (s ++ t).length - t.length = s.length := by simp
    change (if S = .left then _ else if t.length ≤ (s ++ t).length ∧
      (s ++ t).drop ((s ++ t).length - t.length) = t then
      spell ((s ++ t).take ((s ++ t).length - t.length)) else noWeight) = spell s
    rw [if_neg hS, hlength, if_pos ⟨by simp, List.drop_left⟩, List.take_left]

end Dividing

section Componentwise

variable {L W : Type} [DecidableEq L] [WeightOps W] [DecidableEq W] {G : GallicType}

theorem plus_of_ne_min (hG : G ≠ .min) (a b : GallicWeight L W G) :
    (plus a b).product = plus a.product b.product := by
  change (GallicWeight.plus a b).product = _
  rw [GallicWeight.plus, if_neg hG]

theorem gallic_laws (hG : G ≠ .min) (hstrings : Laws (StringWeight L G.stringType)) (h : Laws W) :
    Laws (GallicWeight L W G) where
  toLawsFor := by
    have hproduct := product_laws hstrings h
    refine LawsFor.of_components (I := Unit)
      (V := fun _ => ProductWeight (StringWeight L G.stringType) W) (fun _ w => w.product)
      (fun _ _ _ _ hread => GallicWeight.ext (hread ())) (fun _ ha _ => ha)
      ⟨hproduct.zero_member, fun _ => rfl⟩ ⟨hproduct.one_member, fun _ => rfl⟩
      (fun a b ha hb => ⟨?_, fun _ => plus_of_ne_min hG a b⟩)
      (fun _ _ ha hb => ⟨hproduct.times_member _ _ ha hb, fun _ => rfl⟩)
      (fun _ => hproduct) (fun _ hbit _ => hbit) not_path_of_mask
    change isMember (plus a b).product = true
    rw [plus_of_ne_min hG]
    exact hproduct.plus_member _ _ ha hb
  one_member := (product_laws hstrings h).one_member

end Componentwise

section Lightest

variable {L W : Type} [DecidableEq L] [WeightOps W] [DecidableEq W] {S : StringType}
  {a b c : GallicWeight L W .min}

theorem isMember_gallic :
    isMember a = true ↔ isMember a.labels = true ∧ isMember a.weight = true :=
  isMember_product

theorem eq_of_parts (hlabels : a.labels = b.labels) (hweight : a.weight = b.weight) : a = b :=
  GallicWeight.ext (ProductWeight.ext hlabels hweight)

variable [PathWeight W]

def key (w : Member (GallicWeight L W .min)) : Member W :=
  ⟨w.1.weight, (isMember_gallic.mp w.2).2⟩

/- The lighter of two, the second where they are equally light. -/
theorem plus_eq (a b : Member (GallicWeight L W .min)) : plus a.1 b.1 = (minBy key b a).1 := by
  change GallicWeight.plus a.1 b.1 = _
  rw [GallicWeight.plus, if_pos rfl]
  rcases lt_or_ge (key a) (key b) with h | h
  · rw [minBy_of_lt h, if_pos ⟨plus_of_le h.le, fun heq => h.ne (Subtype.ext heq)⟩]
  · rw [minBy_of_le h, if_neg]
    rintro ⟨hle, hne⟩
    exact hne (congrArg Subtype.val (le_antisymm (le_iff.mpr hle) h : key a = key b))

theorem min_plus_assoc (a b c : Member (GallicWeight L W .min)) :
    plus (plus a.1 b.1) c.1 = plus a.1 (plus b.1 c.1) := by
  rw [plus_eq a b, plus_eq b c, plus_eq _ c, plus_eq a, minBy_assoc]

theorem zero_member : isMember (zero : GallicWeight L W .min) = true :=
  isMember_gallic.mpr ⟨rfl, PathWeight.laws.zero_member⟩

theorem key_le_zero (a : Member (GallicWeight L W .min)) :
    key a ≤ key (⟨zero, zero_member⟩ : Member (GallicWeight L W .min)) := le_zero (key a)

theorem min_zero_plus (a : Member (GallicWeight L W .min)) : plus zero a.1 = a.1 := by
  rw [plus_eq ⟨zero, zero_member⟩ a, minBy_of_le (key_le_zero a)]

/- Two weights are added the same either way unless they weigh the same and spell differently. -/
theorem min_plus_comm_iff (a b : Member (GallicWeight L W .min)) :
    plus a.1 b.1 = plus b.1 a.1 ↔ (a.1.weight = b.1.weight → a.1.labels = b.1.labels) := by
  rw [plus_eq a b, plus_eq b a]
  constructor
  · intro heq hweight
    have hkey : key a = key b := Subtype.ext hweight
    rw [minBy_of_le hkey.ge, minBy_of_le hkey.le] at heq
    rw [heq]
  · intro hlabels
    have hinj : key b = key a → b = a := fun hkey =>
      have hweight : a.1.weight = b.1.weight := (congrArg Subtype.val hkey).symm
      (Subtype.ext (eq_of_parts (hlabels hweight) hweight)).symm
    rw [minBy_comm hinj]

theorem min_plus_zero_iff (a : Member (GallicWeight L W .min)) :
    plus a.1 zero = a.1 ↔ (a.1.weight = zero → a.1.labels = zero) := by
  have hcomm := min_plus_comm_iff a ⟨zero, zero_member⟩
  rwa [min_zero_plus] at hcomm

/- A weight is strictly lighter than another. -/
def Lighter (w w' : W) : Prop := w ≠ w' ∧ plus w w' = w

theorem key_lt (a b : Member (GallicWeight L W .min)) :
    key a < key b ↔ Lighter a.1.weight b.1.weight := by
  constructor
  · exact fun h => ⟨fun heq => h.ne (Subtype.ext heq), plus_of_le h.le⟩
  · exact fun h => lt_of_le_of_ne (le_iff.mpr h.2) fun heq => h.1 (congrArg Subtype.val heq)

theorem min_times_member (a b : Member (GallicWeight L W .min)) :
    isMember (times a.1 b.1) = true := by
  obtain ⟨ha₁, ha₂⟩ := isMember_gallic.mp a.2
  obtain ⟨hb₁, hb₂⟩ := isMember_gallic.mp b.2
  exact isMember_gallic.mpr ⟨times_member ha₁ hb₁, PathWeight.laws.times_member _ _ ha₂ hb₂⟩

def mul (a b : Member (GallicWeight L W .min)) : Member (GallicWeight L W .min) :=
  ⟨times a.1 b.1, min_times_member a b⟩

theorem key_mul (a b : Member (GallicWeight L W .min)) : key (mul a b) = product (key a) (key b) :=
  rfl

theorem labels_mul (a b : Member (GallicWeight L W .min)) :
    (mul a b).1.labels = times a.1.labels b.1.labels := rfl

theorem times_left_inj {a b c : StringWeight L S} (ha : isMember a = true)
    (hb : isMember b = true) (hc : isMember c = true) :
    times a b = times a c ↔ a = zero ∨ b = c := by
  obtain rfl | ⟨s, rfl⟩ := member_cases ha
  · simp [zero_times hb, zero_times hc]
  obtain rfl | ⟨t, rfl⟩ := member_cases hb <;> obtain rfl | ⟨u, rfl⟩ := member_cases hc
  · simp
  · simp [times_zero ha, spell_times, spell_ne_zero, (spell_ne_zero _).symm]
  · simp [times_zero ha, spell_times, spell_ne_zero]
  · simp [spell_times, spell_inj, spell_ne_zero]

theorem times_right_inj {a b c : StringWeight L S} (ha : isMember a = true)
    (hb : isMember b = true) (hc : isMember c = true) :
    times b a = times c a ↔ a = zero ∨ b = c := by
  obtain rfl | ⟨s, rfl⟩ := member_cases ha
  · simp [times_zero hb, times_zero hc]
  obtain rfl | ⟨t, rfl⟩ := member_cases hb <;> obtain rfl | ⟨u, rfl⟩ := member_cases hc
  · simp
  · simp [zero_times ha, spell_times, spell_ne_zero, (spell_ne_zero _).symm]
  · simp [zero_times ha, spell_times, spell_ne_zero]
  · simp [spell_times, spell_inj, spell_ne_zero]

/- What keeps the order of the weights keeps the choice of the lighter, unless it makes two equally
light that spell differently. -/
theorem map_plus_iff {f : Member (GallicWeight L W .min) → Member (GallicWeight L W .min)}
    (hf : ∀ b c, key b ≤ key c → key (f b) ≤ key (f c)) (b c : Member (GallicWeight L W .min)) :
    (f (minBy key c b)).1 = plus (f b).1 (f c).1 ↔
      (key b < key c → key (f b) = key (f c) → (f b).1.labels = (f c).1.labels) := by
  rw [plus_eq]
  rcases lt_or_ge (key b) (key c) with hlt | hle
  · rw [minBy_of_lt hlt]
    rcases (hf b c hlt.le).lt_or_eq with hlt' | heq'
    · rw [minBy_of_lt hlt']
      exact ⟨fun _ _ heq => absurd heq hlt'.ne, fun _ => rfl⟩
    · rw [minBy_of_le heq'.ge]
      constructor
      · exact fun heq _ _ => by rw [heq]
      · exact fun hlabels => eq_of_parts (hlabels hlt heq') (congrArg Subtype.val heq')
  · rw [minBy_of_le hle, minBy_of_le (hf c b hle)]
    exact ⟨fun _ hlt => absurd hlt (not_lt.mpr hle), fun _ => rfl⟩

theorem min_left_distrib_iff (hleft : Declares (GallicWeight L W .min) leftSemiring)
    (a b c : Member (GallicWeight L W .min)) :
    times a.1 (plus b.1 c.1) = plus (times a.1 b.1) (times a.1 c.1) ↔
      (Lighter b.1.weight c.1.weight →
        times a.1.weight b.1.weight = times a.1.weight c.1.weight →
          a.1.labels = zero ∨ b.1.labels = c.1.labels) := by
  obtain ⟨-, hbit⟩ := declares_product hleft
  have hmap := map_plus_iff (f := mul a) (fun _ _ => product_le_left (a := key a) hbit) b c
  rw [key_lt, labels_mul, labels_mul, times_left_inj (isMember_gallic.mp a.2).1
    (isMember_gallic.mp b.2).1 (isMember_gallic.mp c.2).1, key_mul, key_mul,
    Subtype.ext_iff] at hmap
  rw [plus_eq b c]
  exact hmap

theorem min_right_distrib_iff (hright : Declares (GallicWeight L W .min) rightSemiring)
    (a b c : Member (GallicWeight L W .min)) :
    times (plus b.1 c.1) a.1 = plus (times b.1 a.1) (times c.1 a.1) ↔
      (Lighter b.1.weight c.1.weight →
        times b.1.weight a.1.weight = times c.1.weight a.1.weight →
          a.1.labels = zero ∨ b.1.labels = c.1.labels) := by
  obtain ⟨-, hbit⟩ := declares_product hright
  have hmap :=
    map_plus_iff (f := fun x => mul x a) (fun _ _ => product_le_right (a := key a) hbit) b c
  rw [key_lt, labels_mul, labels_mul, times_right_inj (isMember_gallic.mp a.2).1
    (isMember_gallic.mp b.2).1 (isMember_gallic.mp c.2).1, key_mul, key_mul,
    Subtype.ext_iff] at hmap
  rw [plus_eq b c]
  exact hmap

end Lightest

section Exact

/- The string weights of every flavour. -/
structure StringLaws (L : Type) [DecidableEq L] : Prop where
  left : Laws (StringWeight L .left)
  right : Laws (StringWeight L .right)
  restrict : LawsWhereDefined (StringWeight L .restrict)
  declares (S : StringType) : Declares (StringWeight L S) idempotent ∧
    (S ≠ .right → Declares (StringWeight L S) leftSemiring) ∧
    (S ≠ .left → Declares (StringWeight L S) rightSemiring)
  reverse (S : StringType) (a b : StringWeight L S) : isMember a = true → isMember b = true →
    (times a b).reverse = times b.reverse a.reverse ∧
      (plus a b).reverse = plus a.reverse b.reverse
  divide_left (S : StringType) (a b : StringWeight L S) : S ≠ .right → isMember a = true →
    isMember b = true → (DivideOps.divide (times a b) a .left = b ↔ a ≠ zero)
  divide_right (S : StringType) (a b : StringWeight L S) : S ≠ .left → isMember a = true →
    isMember b = true → (DivideOps.divide (times a b) b .right = a ↔ b ≠ zero)

theorem string_laws {L : Type} [DecidableEq L] : StringLaws L where
  left := joins_laws joins_left
  right := joins_laws joins_right
  restrict := restrict_laws
  declares S := by
    have hbits : ∀ S : StringType, StringWeight.properties S &&& idempotent ≠ 0 ∧
        (S ≠ .right → StringWeight.properties S &&& leftSemiring ≠ 0) ∧
        (S ≠ .left → StringWeight.properties S &&& rightSemiring ≠ 0) := by
      rintro (_ | _ | _) <;> decide
    exact hbits S
  reverse _ _ _ ha hb := ⟨reverse_times ha hb, reverse_plus ha hb⟩
  divide_left _ _ _ hS ha hb := divide_left hS ha hb
  divide_right _ _ _ hS ha hb := divide_right hS ha hb

variable {L W : Type} [DecidableEq L] [WeightOps W] [DecidableEq W]

/- The sum of the lighter of two, for the members: which of its laws hold where. -/
structure MinLaws (a b c : GallicWeight L W .min) : Prop where
  plus_member : isMember (plus a b) = true
  plus_assoc : plus (plus a b) c = plus a (plus b c)
  zero_plus : plus zero a = a
  plus_comm : plus a b = plus b a ↔ (a.weight = b.weight → a.labels = b.labels)
  plus_zero : plus a zero = a ↔ (a.weight = zero → a.labels = zero)
  left_distrib : Declares (GallicWeight L W .min) leftSemiring →
    (times a (plus b c) = plus (times a b) (times a c) ↔
      (Lighter b.weight c.weight → times a.weight b.weight = times a.weight c.weight →
        a.labels = zero ∨ b.labels = c.labels))
  right_distrib : Declares (GallicWeight L W .min) rightSemiring →
    (times (plus b c) a = plus (times b a) (times c a) ↔
      (Lighter b.weight c.weight → times b.weight a.weight = times c.weight a.weight →
        a.labels = zero ∨ b.labels = c.labels))

/- The strings and the Gallic weights of the two sides are the semirings they declare; the lightest
Gallic weight is one but for ties between different strings. -/
theorem string_and_gallic (h : Laws W) :
    StringLaws L ∧ Laws (GallicWeight L W .left) ∧ Laws (GallicWeight L W .right) ∧
      (Declares W path → ∀ a b c : GallicWeight L W .min, isMember a = true → isMember b = true →
        isMember c = true → MinLaws a b c) := by
  refine ⟨string_laws, gallic_laws (by decide) string_laws.left h,
    gallic_laws (by decide) string_laws.right h, fun hpath a b c ha hb hc => ?_⟩
  have : PathWeight W := ⟨h, hpath⟩
  exact {
    plus_member := by
      rw [plus_eq ⟨a, ha⟩ ⟨b, hb⟩]
      exact (minBy key _ _).2
    plus_assoc := min_plus_assoc ⟨a, ha⟩ ⟨b, hb⟩ ⟨c, hc⟩
    zero_plus := min_zero_plus ⟨a, ha⟩
    plus_comm := min_plus_comm_iff ⟨a, ha⟩ ⟨b, hb⟩
    plus_zero := min_plus_zero_iff ⟨a, ha⟩
    left_distrib := fun hleft => min_left_distrib_iff hleft ⟨a, ha⟩ ⟨b, hb⟩ ⟨c, hc⟩
    right_distrib := fun hright => min_right_distrib_iff hright ⟨a, ha⟩ ⟨b, hb⟩ ⟨c, hc⟩ }

theorem string_and_gallic_integers :
    Laws (GallicWeight ℤ (TropicalWeight ℤ) .left) ∧
      ∀ a b c : GallicWeight ℤ (TropicalWeight ℤ) .min, isMember a = true → isMember b = true →
        isMember c = true → MinLaws a b c :=
  ⟨(string_and_gallic TropicalWeight.laws).2.1,
    (string_and_gallic TropicalWeight.laws).2.2.2 TropicalWeight.declares_path⟩

/- Two equally light weights with different strings are added differently either way. -/
theorem min_plus_not_comm :
    ¬ ∀ a b : GallicWeight ℤ (TropicalWeight ℤ) .min, isMember a = true → isMember b = true →
      plus a b = plus b a := by
  intro h
  have hcomm := h (.fromParts (spell [1]) (.ofCost 1)) (.fromParts (spell [2]) (.ofCost 1)) rfl rfl
  exact absurd hcomm (by decide)

end Exact

end Sicada.GallicWeightExact
