import Sicada.Weights.StringWeightExact
import Sicada.Weights.UnionSums

namespace Sicada

/- The members of a lawful weight type whose product distributes on both sides are a semiring. -/
namespace MemberSemiring

open WeightOps WeightLaws CompositeLaws NaturalOrder

class SemiringWeight (W : Type) [WeightOps W] : Prop where
  laws : Laws W
  distributes : Distributes W

variable {W : Type} [WeightOps W] [SemiringWeight W] (a b c : Member W)

instance : Add (Member W) :=
  ⟨fun a b => ⟨plus a.1 b.1, SemiringWeight.laws.plus_member _ _ a.2 b.2⟩⟩

instance : Mul (Member W) :=
  ⟨fun a b => ⟨times a.1 b.1, SemiringWeight.laws.times_member _ _ a.2 b.2⟩⟩

instance : Zero (Member W) := ⟨⟨zero, SemiringWeight.laws.zero_member⟩⟩

instance : One (Member W) := ⟨⟨one, SemiringWeight.laws.one_member⟩⟩

theorem val_add : (a + b).1 = plus a.1 b.1 := rfl

theorem member_plus_comm : a + b = b + a :=
  Subtype.ext (SemiringWeight.laws.plus_comm _ _ a.2 b.2)

theorem member_zero_plus : 0 + a = a := Subtype.ext (SemiringWeight.laws.zero_plus _ a.2)

instance : Semiring (Member W) where
  add_assoc a b c := Subtype.ext (SemiringWeight.laws.plus_assoc _ _ _ a.2 b.2 c.2)
  zero_add := member_zero_plus
  add_zero a := by rw [member_plus_comm, member_zero_plus]
  add_comm := member_plus_comm
  nsmul := nsmulRec
  left_distrib a b c := Subtype.ext (SemiringWeight.distributes a.1 b.1 c.1 a.2 b.2 c.2).1
  right_distrib a b c := Subtype.ext (SemiringWeight.distributes c.1 a.1 b.1 c.2 a.2 b.2).2
  zero_mul a := Subtype.ext (SemiringWeight.laws.zero_times _ a.2)
  mul_zero a := Subtype.ext (SemiringWeight.laws.times_zero _ a.2)
  mul_assoc a b c := Subtype.ext (SemiringWeight.laws.times_assoc _ _ _ a.2 b.2 c.2)
  one_mul a := Subtype.ext (SemiringWeight.laws.one_times _ a.2)
  mul_one a := Subtype.ext (SemiringWeight.laws.times_one _ a.2)
  npow := npowRec

end MemberSemiring

end Sicada

namespace Sicada

namespace UnionWeightExact

open WeightOps WeightLaws CompositeLaws NaturalOrder MemberSemiring StringWeightExact UnionSums

variable {L W : Type} [LinearOrder L] [WeightOps W] [DecidableEq W]

section Keys

variable {e e' : GallicWeight L W .restrict} {u v s : List L}

/- The labels of an element, none where it has no string. -/
def labelsOf (e : GallicWeight L W .restrict) : List L :=
  match e.product.value1.value with
  | .labels v => v
  | _ => []

/- Shorter strings first. -/
def key (e : GallicWeight L W .restrict) : ℕ ×ₗ List L :=
  toLex ((labelsOf e).length, labelsOf e)

theorem key_inj (h : key e = key e') : labelsOf e = labelsOf e' :=
  congrArg (fun p => (ofLex p).2) h

theorem size_eq (e : GallicWeight L W .restrict) :
    e.product.value1.size = (labelsOf e).length := by
  unfold StringWeight.size labelsOf
  cases e.product.value1.value <;> rfl

theorem labelsBefore_eq (h : u.length = v.length) : labelsBefore u v = decide (u < v) := by
  induction u generalizing v with
  | nil =>
    obtain rfl := List.length_eq_zero_iff.mp h.symm
    simp [labelsBefore]
  | cons a u ih =>
    cases v with
    | nil => cases h
    | cons b v =>
      rw [labelsBefore, ih (Nat.succ.inj h)]
      rcases lt_trichotomy a b with hlt | rfl | hgt
      · simp [List.cons_lt_cons_iff, hlt]
      · simp
      · simp [List.cons_lt_cons_iff, hgt, hgt.asymm, hgt.ne']

theorem compare_eq (e e' : GallicWeight L W .restrict) :
    gallicUnionWeightOptions.compare e e' = decide (key e < key e') := by
  have hkey : key e < key e' ↔ (labelsOf e).length < (labelsOf e').length ∨
      (labelsOf e).length = (labelsOf e').length ∧ labelsOf e < labelsOf e' :=
    Prod.Lex.toLex_lt_toLex
  unfold gallicUnionWeightOptions
  dsimp only
  rw [size_eq, size_eq]
  rcases lt_trichotomy (labelsOf e).length (labelsOf e').length with hlt | heq | hgt
  · rw [if_pos hlt, eq_comm, decide_eq_true_eq, hkey]
    exact Or.inl hlt
  · rw [if_neg heq.not_lt, if_neg heq.not_gt]
    have hless : decide (key e < key e') = decide (labelsOf e < labelsOf e') := by
      rw [decide_eq_decide, hkey]
      simp [heq]
    rw [hless]
    have hempty (h : labelsOf e = [] ∨ labelsOf e' = []) :
        false = decide (labelsOf e < labelsOf e') := by
      have hnil : labelsOf e' = [] := by
        rcases h with h | h
        · rw [h] at heq
          exact List.length_eq_zero_iff.mp heq.symm
        · exact h
      simp [hnil]
    split
    · next hv hv' =>
      unfold labelsOf at heq ⊢
      simp only [hv, hv'] at heq ⊢
      exact labelsBefore_eq heq
    · next hnot =>
      refine hempty ?_
      unfold labelsOf
      cases hv : e.product.value1.value with
      | labels v =>
        cases hv' : e'.product.value1.value with
        | labels v' => exact absurd hv' (hnot v v' hv)
        | zero => exact Or.inr rfl
        | noWeight => exact Or.inr rfl
      | zero => exact Or.inl rfl
      | noWeight => exact Or.inl rfl
  · rw [if_neg hgt.asymm, if_pos hgt, eq_comm, decide_eq_false_iff_not, hkey]
    simp [hgt.asymm, hgt.ne']

end Keys

section Readings

variable {e e' : GallicWeight L W .restrict}

def Spelled (e : GallicWeight L W .restrict) : Prop :=
  (∃ s, e.product.value1 = spell s) ∧ isMember e.product.value2 = true

theorem isMember_element :
    isMember e = true ↔ isMember e.product.value1 = true ∧ isMember e.product.value2 = true :=
  isMember_product

theorem spelled_member (h : Spelled e) : isMember e = true := by
  obtain ⟨⟨s, hs⟩, hw⟩ := h
  exact isMember_element.mpr ⟨hs ▸ spell_member s, hw⟩

theorem labelsOf_spell {s : List L} (h : e.product.value1 = spell s) : labelsOf e = s := by
  unfold labelsOf
  rw [h]
  rfl

theorem spelled_eq (h : Spelled e) (h' : Spelled e') (hlabels : labelsOf e = labelsOf e')
    (hweight : e.product.value2 = e'.product.value2) : e = e' := by
  obtain ⟨⟨s, hs⟩, -⟩ := h
  obtain ⟨⟨s', hs'⟩, -⟩ := h'
  rw [labelsOf_spell hs, labelsOf_spell hs'] at hlabels
  exact GallicWeight.ext (ProductWeight.ext (by rw [hs, hs', hlabels]) hweight)

/- Whatever the strings, the elements are kept in order. -/
theorem reads_members (h : Laws W) :
    Reads (gallicUnionWeightOptions : UnionWeightOptions (GallicWeight L W .restrict))
      (fun e => isMember e = true) key fun _ => PUnit.unit where
  compare := compare_eq
  key_merge _ _ := rfl
  member _ he := he
  merge e e' he he' _ := by
    obtain ⟨hs, hw⟩ := isMember_element.mp he
    exact ⟨isMember_element.mpr ⟨hs, h.plus_member _ _ hw (isMember_element.mp he').2⟩, rfl⟩
  times e e' he he' := by
    obtain ⟨hs, hw⟩ := isMember_element.mp he
    obtain ⟨hs', hw'⟩ := isMember_element.mp he'
    exact ⟨isMember_element.mpr ⟨times_member hs hs', h.times_member _ _ hw hw'⟩, rfl⟩
  normalize _ := rfl

variable [SemiringWeight W]

/- The strings that have a weight, and the sum of the strings with their weights. -/
abbrev Series (L W : Type) [WeightOps W] [SemiringWeight W] : Type :=
  Language L × MonoidAlgebra (Member W) (FreeMonoid L)

noncomputable def term (e : GallicWeight L W .restrict) : MonoidAlgebra (Member W) (FreeMonoid L) :=
  if h : isMember e.product.value2 = true then
    MonoidAlgebra.single (FreeMonoid.ofList (labelsOf e)) ⟨e.product.value2, h⟩
  else 0

noncomputable def series (e : GallicWeight L W .restrict) : Series L W :=
  (({labelsOf e} : Set (List L)), term e)

theorem term_eq (h : isMember e.product.value2 = true) :
    term e = MonoidAlgebra.single (FreeMonoid.ofList (labelsOf e)) ⟨e.product.value2, h⟩ :=
  dif_pos h

theorem reads_spelled :
    Reads (gallicUnionWeightOptions : UnionWeightOptions (GallicWeight L W .restrict))
      Spelled key series where
  compare := compare_eq
  key_merge _ _ := rfl
  member _ := spelled_member
  merge e e' he he' hkey := by
    have hsum := SemiringWeight.laws.plus_member _ _ he.2 he'.2
    refine ⟨⟨he.1, hsum⟩, Prod.ext ?_ ?_⟩
    · have hlabels := key_inj hkey
      change ({labelsOf e} : Set (List L)) = {labelsOf e} ∪ {labelsOf e'}
      rw [hlabels, Set.union_self]
    · change term (gallicUnionWeightOptions.merge e e') = term e + term e'
      rw [term_eq he.2, term_eq he'.2, term_eq hsum, ← key_inj hkey, ← MonoidAlgebra.single_add]
      rfl
  times e e' he he' := by
    have hprod := SemiringWeight.laws.times_member _ _ he.2 he'.2
    obtain ⟨s, hs⟩ := he.1
    obtain ⟨s', hs'⟩ := he'.1
    have hspell : (times e e').product.value1 = spell (s ++ s') := by
      change times e.product.value1 e'.product.value1 = _
      rw [hs, hs', spell_times]
    have hlabels : labelsOf (times e e') = labelsOf e ++ labelsOf e' := by
      rw [labelsOf_spell hspell, labelsOf_spell hs, labelsOf_spell hs']
    refine ⟨⟨⟨_, hspell⟩, hprod⟩, Prod.ext ?_ ?_⟩
    · change ({labelsOf (times e e')} : Set (List L)) =
        Set.image2 (· ++ ·) {labelsOf e} {labelsOf e'}
      rw [Set.image2_singleton, hlabels]
    · change term (times e e') = term e * term e'
      rw [term_eq he.2, term_eq he'.2, MonoidAlgebra.single_mul_single]
      refine (term_eq hprod).trans ?_
      rw [hlabels]
      rfl
  normalize _ := rfl

end Readings

section Series

variable [SemiringWeight W] {elems elems' : List (GallicWeight L W .restrict)}
  {e : GallicWeight L W .restrict} {s : List L}

theorem mem_language : s ∈ (total series elems).1 ↔ ∃ e ∈ elems, labelsOf e = s := by
  induction elems with
  | nil => simp [total_nil]
  | cons e elems ih =>
    rw [total_cons, Prod.fst_add, Language.mem_add, ih]
    simp only [List.mem_cons, exists_eq_or_imp]
    exact or_congr_left eq_comm

theorem coeff_term_self (h : isMember e.product.value2 = true) :
    (term e).coeff (FreeMonoid.ofList (labelsOf e)) = ⟨e.product.value2, h⟩ := by
  rw [term_eq h, MonoidAlgebra.coeff_single, Finsupp.single_eq_same]

theorem coeff_term_ne (h : labelsOf e ≠ s) : (term e).coeff (FreeMonoid.ofList s) = 0 := by
  unfold term
  split
  · rw [MonoidAlgebra.coeff_single]
    exact Finsupp.single_eq_of_ne' fun heq => h (FreeMonoid.ofList.injective heq)
  · rfl

theorem coeff_none (h : ∀ e ∈ elems, labelsOf e ≠ s) :
    (total series elems).2.coeff (FreeMonoid.ofList s) = 0 := by
  induction elems with
  | nil => rfl
  | cons e elems ih =>
    rw [total_cons, Prod.snd_add, MonoidAlgebra.coeff_add, Finsupp.add_apply,
      ih fun e he => h e (List.mem_cons_of_mem _ he), add_zero]
    exact coeff_term_ne (h e List.mem_cons_self)

/- Every string stands once. -/
theorem nodup_labels (hs : Sorted key elems) : (elems.map labelsOf).Nodup := by
  refine List.pairwise_map.mpr (hs.imp fun {x y} hlt heq => ?_)
  rw [key, key, heq] at hlt
  exact lt_irrefl _ hlt

theorem coeff_nodup (hnodup : (elems.map labelsOf).Nodup) (hgood : ∀ e ∈ elems, Spelled e)
    (he : e ∈ elems) :
    ((total series elems).2.coeff (FreeMonoid.ofList (labelsOf e))).1 = e.product.value2 := by
  induction elems with
  | nil => cases he
  | cons x elems ih =>
    obtain ⟨hhead, htail⟩ := List.nodup_cons.mp hnodup
    have hne : ∀ y ∈ elems, labelsOf y ≠ labelsOf x :=
      fun y hy heq => hhead (List.mem_map.mpr ⟨y, hy, heq⟩)
    rw [total_cons, Prod.snd_add, MonoidAlgebra.coeff_add, Finsupp.add_apply]
    rcases List.mem_cons.mp he with rfl | he
    · rw [coeff_none hne, add_zero]
      exact congrArg Subtype.val (coeff_term_self (hgood e List.mem_cons_self).2)
    · rw [← ih htail (fun y hy => hgood y (List.mem_cons_of_mem _ hy)) he]
      change ((term x).coeff (FreeMonoid.ofList (labelsOf e)) + _).1 = _
      rw [coeff_term_ne (hne e he).symm, zero_add]

theorem coeff_mem (hn : Normal Spelled key elems) (he : e ∈ elems) :
    ((total series elems).2.coeff (FreeMonoid.ofList (labelsOf e))).1 = e.product.value2 :=
  coeff_nodup (nodup_labels hn.1) hn.2 he

theorem eq_of_mem_iff (hn : Normal Spelled key elems) (hn' : Normal Spelled key elems')
    (h : ∀ e, e ∈ elems ↔ e ∈ elems') : elems = elems' := by
  have hanti : Std.Antisymm fun e e' : GallicWeight L W .restrict => key e < key e' :=
    ⟨fun e e' hlt hlt' => absurd hlt' hlt.asymm⟩
  have hirrefl : Std.Irrefl fun e e' : GallicWeight L W .restrict => key e < key e' :=
    ⟨fun e => lt_irrefl (key e)⟩
  exact hn.1.eq_of_mem_iff hn'.1 h

theorem mem_of_series (hn : Normal Spelled key elems) (hn' : Normal Spelled key elems')
    (hlanguage : labelsOf e ∈ (total series elems').1)
    (hcoeff : (total series elems).2 = (total series elems').2) (he : e ∈ elems) : e ∈ elems' := by
  obtain ⟨e', he', hlabels⟩ := mem_language.mp hlanguage
  have hweight := coeff_mem hn he
  rw [hcoeff, ← hlabels, coeff_mem hn' he'] at hweight
  rwa [← spelled_eq (hn'.2 e' he') (hn.2 e he) hlabels hweight]

/- A sorted list is determined by its series. -/
theorem series_inj (hn : Normal Spelled key elems) (hn' : Normal Spelled key elems')
    (h : total series elems = total series elems') : elems = elems' := by
  refine eq_of_mem_iff hn hn' fun e => ⟨fun he => ?_, fun he => ?_⟩
  · exact mem_of_series hn hn' (h ▸ mem_language.mpr ⟨e, he, rfl⟩) (congrArg Prod.snd h) he
  · exact mem_of_series hn' hn (h ▸ mem_language.mpr ⟨e, he, rfl⟩) (congrArg Prod.snd h).symm he

/- Without zero weights it is determined by the weights. -/
theorem coeff_inj (hn : Normal Spelled key elems) (hn' : Normal Spelled key elems')
    (hzero : ∀ e ∈ elems, e.product.value2 ≠ zero)
    (hzero' : ∀ e ∈ elems', e.product.value2 ≠ zero)
    (h : (total series elems).2 = (total series elems').2) : elems = elems' := by
  have hlanguage {elems elems' : List (GallicWeight L W .restrict)} {e : GallicWeight L W .restrict}
      (hn : Normal Spelled key elems) (hzero : ∀ e ∈ elems, e.product.value2 ≠ zero)
      (h : (total series elems).2 = (total series elems').2) (he : e ∈ elems) :
      labelsOf e ∈ (total series elems').1 := by
    by_contra hnot
    have habsent : ∀ e' ∈ elems', labelsOf e' ≠ labelsOf e :=
      fun e' he' heq => hnot (mem_language.mpr ⟨e', he', heq⟩)
    have hnone := coeff_none habsent
    have hweight := coeff_mem hn he
    rw [h, hnone] at hweight
    exact hzero e he hweight.symm
  refine eq_of_mem_iff hn hn' fun e => ⟨fun he => ?_, fun he => ?_⟩
  · exact mem_of_series hn hn' (hlanguage hn hzero h he) h he
  · exact mem_of_series hn' hn (hlanguage hn' hzero' h.symm he) h.symm he

end Series

end UnionWeightExact

end Sicada
