import Sicada.Weights.UnionWeightExact

namespace Sicada.UnionWeightRuns

open WeightOps WeightLaws CompositeLaws NaturalOrder MemberSemiring StringWeightExact UnionSums
open UnionWeightExact

variable {L W : Type} [LinearOrder L] [WeightOps W] [DecidableEq W]

section Runs

/- The reverse of a restricted element is one. -/
def reversed (reverseWeight : W → W) (e : GallicWeight L W .restrict) :
    GallicWeight L W .restrict :=
  GallicWeight.reverse reverseWeight e

/- The values built by the operations: which elements are started from, and which values are added
and multiplied. -/
inductive Built (reverseWeight : W → W) (start : GallicWeight L W .restrict → Prop)
    (sums products : GeneralGallicWeight L W → GeneralGallicWeight L W → Prop) :
    GeneralGallicWeight L W → Prop
  | zero : Built reverseWeight start sums products zero
  | one : start one → Built reverseWeight start sums products one
  | noWeight : Built reverseWeight start sums products noWeight
  | new (e : GallicWeight L W .restrict) : isMember e = true → start e →
      Built reverseWeight start sums products (UnionWeight.new e)
  | plus {a b : GeneralGallicWeight L W} : Built reverseWeight start sums products a →
      Built reverseWeight start sums products b → sums a b →
      Built reverseWeight start sums products (plus a b)
  | times {a b : GeneralGallicWeight L W} : Built reverseWeight start sums products a →
      Built reverseWeight start sums products b → products a b →
      Built reverseWeight start sums products (times a b)
  | reverse {a : GeneralGallicWeight L W} : Built reverseWeight start sums products a →
      Built reverseWeight start sums products (UnionWeight.reverse (reversed reverseWeight) a)
  | quantize {a : GeneralGallicWeight L W} : Built reverseWeight start sums products a →
      Built reverseWeight start sums products (UnionWeight.quantize id a)

variable {reverseWeight : W → W} {start : GallicWeight L W .restrict → Prop}
  {sums products : GeneralGallicWeight L W → GeneralGallicWeight L W → Prop}
  {a b : GeneralGallicWeight L W} {R : Type} [Semiring R]
  {good : GallicWeight L W .restrict → Prop} {val : GallicWeight L W .restrict → R}

theorem noWeight_plus (a : GeneralGallicWeight L W) : plus noWeight a = noWeight := rfl

theorem plus_noWeight (a : GeneralGallicWeight L W) : plus a noWeight = noWeight := by
  change UnionWeight.plus a UnionWeight.noWeight = _
  unfold UnionWeight.plus
  rw [if_pos (by simp [UnionWeight.isMember, UnionWeight.noWeight, UnionWeight.newBad])]
  rfl

theorem noWeight_times (a : GeneralGallicWeight L W) : times noWeight a = noWeight := rfl

theorem times_noWeight (a : GeneralGallicWeight L W) : times a noWeight = noWeight := by
  change UnionWeight.times a UnionWeight.noWeight = _
  unfold UnionWeight.times
  rw [if_pos (by simp [UnionWeight.isMember, UnionWeight.noWeight, UnionWeight.newBad])]
  rfl

/- A kind of element that the operations keep is the kind of every element of a value. -/
theorem built_value (h : Reads gallicUnionWeightOptions good key val)
    (hstart : ∀ e, isMember e = true → start e → good e)
    (hone : isMember (one : GallicWeight L W .restrict) = true)
    (hreverse : ∀ e, good e → good (reversed reverseWeight e))
    (ha : Built reverseWeight start sums products a) :
    a = noWeight ∨ Value gallicUnionWeightOptions good key a := by
  induction ha with
  | zero => exact Or.inr ⟨[], rfl, normal_nil⟩
  | one hs =>
    obtain ⟨hnew, hn, -⟩ := new_reads h (hstart _ hone hs)
    exact Or.inr ⟨_, hnew, hn⟩
  | noWeight => exact Or.inl rfl
  | new e he hs =>
    obtain ⟨hnew, hn, -⟩ := new_reads h (hstart e he hs)
    exact Or.inr ⟨_, hnew, hn⟩
  | plus _ _ _ iha ihb =>
    obtain rfl | ⟨elems, rfl, hn⟩ := iha
    · exact Or.inl (noWeight_plus _)
    obtain rfl | ⟨elems', rfl, hn'⟩ := ihb
    · exact Or.inl (plus_noWeight _)
    obtain ⟨sum, heq, hsum, -⟩ := plus_reads h hn hn'
    exact Or.inr ⟨sum, heq, hsum⟩
  | times _ _ _ iha ihb =>
    obtain rfl | ⟨elems, rfl, hn⟩ := iha
    · exact Or.inl (noWeight_times _)
    obtain rfl | ⟨elems', rfl, hn'⟩ := ihb
    · exact Or.inl (times_noWeight _)
    obtain ⟨prod, heq, hprod, -⟩ := times_reads h hn hn'
    exact Or.inr ⟨prod, heq, hprod⟩
  | reverse _ ih =>
    obtain rfl | ⟨elems, rfl, hn⟩ := ih
    · exact Or.inl rfl
    have hgood : ∀ e ∈ elems, good (reversed reverseWeight e) := fun e he => hreverse e (hn.2 e he)
    obtain ⟨rev, heq, hrev, -⟩ := reverse_reads (O := gallicUnionWeightOptions) h hgood
    exact Or.inr ⟨rev, heq, hrev⟩
  | quantize _ ih =>
    obtain rfl | ⟨elems, rfl, hn⟩ := ih
    · exact Or.inl rfl
    obtain ⟨quantized, heq, hquantized, -⟩ := quantize_reads h hn
    exact Or.inr ⟨quantized, heq, hquantized⟩

end Runs

variable {e : GallicWeight L W .restrict}

section Maps

variable {a b : GeneralGallicWeight L W} {s : List L} {elems : List (GallicWeight L W .restrict)}

/- The strings a value lists. -/
def Spells (a : GeneralGallicWeight L W) (s : List L) : Prop :=
  ∃ e ∈ a.elements.getD [], labelsOf e = s

/- The weight a value gives to a string. -/
def weightOf (a : GeneralGallicWeight L W) (s : List L) : W :=
  ((a.elements.getD []).find? fun e => labelsOf e = s).elim zero fun e => e.product.value2

def splits (s : List L) : List (List L × List L) :=
  (List.range (s.length + 1)).map fun i => (s.take i, s.drop i)

/- The sum over the ways to cut a string in two. -/
def convolution (a b : GeneralGallicWeight L W) (s : List L) : W :=
  ((splits s).map fun p => times (weightOf a p.1) (weightOf b p.2)).foldr plus zero

theorem mem_splits {p : List L × List L} : p ∈ splits s ↔ p.1 ++ p.2 = s := by
  unfold splits
  rw [List.mem_map]
  constructor
  · rintro ⟨i, -, rfl⟩
    exact List.take_append_drop i s
  · rintro rfl
    exact ⟨p.1.length, List.mem_range.mpr (by simp), by simp⟩

theorem nodup_splits (s : List L) : (splits s).Nodup := by
  refine List.Nodup.map_on (fun i hi j hj heq => ?_) List.nodup_range
  have hlength := congrArg List.length (congrArg Prod.fst heq)
  rw [List.mem_range] at hi hj
  simp only [List.length_take] at hlength
  omega

variable [SemiringWeight W]

theorem spells_iff : Spells (⟨some elems⟩ : GeneralGallicWeight L W) s ↔
    s ∈ (total series elems).1 := mem_language.symm

theorem weightOf_eq (hn : Normal Spelled key elems) (s : List L) :
    weightOf (⟨some elems⟩ : GeneralGallicWeight L W) s =
      ((total series elems).2.coeff (FreeMonoid.ofList s)).1 := by
  unfold weightOf
  dsimp only [Option.getD_some]
  cases hfind : elems.find? fun e => labelsOf e = s with
  | none =>
    have hnone := List.find?_eq_none.mp hfind
    rw [coeff_none fun e he heq => hnone e he (decide_eq_true heq)]
    rfl
  | some e =>
    have hs := List.find?_some (p := fun e => decide (labelsOf e = s)) hfind
    obtain rfl : labelsOf e = s := of_decide_eq_true hs
    rw [coeff_mem hn (List.mem_of_find?_eq_some hfind)]
    rfl

theorem weightOf_mem (hn : Normal Spelled key elems) (he : e ∈ elems) :
    weightOf (⟨some elems⟩ : GeneralGallicWeight L W) (labelsOf e) = e.product.value2 := by
  rw [weightOf_eq hn, coeff_mem hn he]

theorem weightOf_none (h : ¬ Spells a s) : weightOf a s = zero := by
  unfold weightOf
  have hfind : ((a.elements.getD []).find? fun e => labelsOf e = s) = none :=
    List.find?_eq_none.mpr fun e he heq => h ⟨e, he, of_decide_eq_true heq⟩
  rw [hfind]
  rfl

theorem weightOf_member (ha : Value gallicUnionWeightOptions Spelled key a) (s : List L) :
    isMember (weightOf a s) = true := by
  obtain ⟨elems, rfl, hn⟩ := ha
  rw [weightOf_eq hn]
  exact ((total series elems).2.coeff (FreeMonoid.ofList s)).2

/- The sum of two values is the sum at every string. -/
theorem plus_map (ha : Value gallicUnionWeightOptions Spelled key a)
    (hb : Value gallicUnionWeightOptions Spelled key b) (s : List L) :
    weightOf (plus a b) s = plus (weightOf a s) (weightOf b s) ∧
      (Spells (plus a b) s ↔ Spells a s ∨ Spells b s) := by
  obtain ⟨elems, rfl, hn⟩ := ha
  obtain ⟨elems', rfl, hn'⟩ := hb
  obtain ⟨sum, heq, hsum, htotal⟩ := plus_reads reads_spelled hn hn'
  rw [heq, weightOf_eq hsum, weightOf_eq hn, weightOf_eq hn', spells_iff, spells_iff, spells_iff,
    htotal, Prod.snd_add, Prod.fst_add, MonoidAlgebra.coeff_add]
  exact ⟨rfl, Iff.rfl⟩

theorem val_sum (ws : List (Member W)) : ws.sum.1 = (ws.map (·.1)).foldr plus zero := by
  induction ws with
  | nil => rfl
  | cons w ws ih => rw [List.sum_cons, val_add, ih, List.map_cons, List.foldr_cons]

theorem coeff_mul (x y : MonoidAlgebra (Member W) (FreeMonoid L)) (s : List L) :
    (x * y).coeff (FreeMonoid.ofList s) = ((splits s).map fun p =>
      x.coeff (FreeMonoid.ofList p.1) * y.coeff (FreeMonoid.ofList p.2)).sum := by
  classical
  let pairs : List (FreeMonoid L × FreeMonoid L) :=
    (splits s).map fun p => (FreeMonoid.ofList p.1, FreeMonoid.ofList p.2)
  have hmem : ∀ {p}, p ∈ pairs.toFinset ↔ p.1 * p.2 = FreeMonoid.ofList s := by
    rintro ⟨u, v⟩
    rw [List.mem_toFinset, List.mem_map]
    constructor
    · rintro ⟨p, hp, heq⟩
      obtain ⟨rfl, rfl⟩ := Prod.mk.inj heq
      rw [← mem_splits.mp hp]
      rfl
    · intro heq
      exact ⟨(FreeMonoid.toList u, FreeMonoid.toList v), mem_splits.mpr heq, rfl⟩
  have hnodup : pairs.Nodup := (nodup_splits s).map fun p q heq => by
    obtain ⟨h₁, h₂⟩ := Prod.mk.inj heq
    exact Prod.ext (FreeMonoid.ofList.injective h₁) (FreeMonoid.ofList.injective h₂)
  rw [MonoidAlgebra.coeff_mul_antidiag x y _ _ hmem, List.sum_toFinset _ hnodup, List.map_map]
  rfl

/- The product of two values is their convolution at every string. -/
theorem times_map (ha : Value gallicUnionWeightOptions Spelled key a)
    (hb : Value gallicUnionWeightOptions Spelled key b) (s : List L) :
    weightOf (times a b) s = convolution a b s ∧
      (Spells (times a b) s ↔ ∃ u v, u ++ v = s ∧ Spells a u ∧ Spells b v) := by
  obtain ⟨elems, rfl, hn⟩ := ha
  obtain ⟨elems', rfl, hn'⟩ := hb
  obtain ⟨prod, heq, hprod, htotal⟩ := times_reads reads_spelled hn hn'
  constructor
  · unfold convolution
    rw [heq, weightOf_eq hprod, htotal, Prod.snd_mul, coeff_mul, val_sum, List.map_map]
    congr 1
    refine List.map_congr_left fun p _ => ?_
    rw [weightOf_eq hn, weightOf_eq hn']
    rfl
  · rw [heq, spells_iff, htotal, Prod.fst_mul, Language.mem_mul]
    simp only [spells_iff]
    constructor
    · rintro ⟨u, hu, v, hv, huv⟩
      exact ⟨u, v, huv, hu, hv⟩
    · rintro ⟨u, v, huv, hu, hv⟩
      exact ⟨u, hu, v, hv, huv⟩

end Maps

section Reversing

variable {a : GeneralGallicWeight L W} {reverseWeight : W → W} {e : GallicWeight L W .restrict}

/- A weight type that is its own reverse. -/
structure SelfReverse (reverseWeight : W → W) : Prop where
  member (w : W) : isMember w = true → isMember (reverseWeight w) = true
  reverse_zero : reverseWeight zero = zero
  reverse_reverse (w : W) : isMember w = true → reverseWeight (reverseWeight w) = w

theorem labelsOf_reverse (e : GallicWeight L W .restrict) :
    labelsOf (reversed reverseWeight e) = (labelsOf e).reverse := by
  obtain ⟨⟨⟨value⟩, w⟩⟩ := e
  cases value <;> rfl

theorem member_reverse (h : SelfReverse reverseWeight) (he : isMember e = true) :
    isMember (reversed reverseWeight e) = true := by
  obtain ⟨hs, hw⟩ := isMember_element.mp he
  refine isMember_element.mpr ⟨?_, h.member _ hw⟩
  obtain ⟨⟨⟨value⟩, w⟩⟩ := e
  cases value with
  | noWeight => cases hs
  | zero => rfl
  | labels v => rfl

theorem spelled_reverse (h : SelfReverse reverseWeight) (he : Spelled e) :
    Spelled (reversed reverseWeight e) := by
  obtain ⟨⟨s, hs⟩, hw⟩ := he
  refine ⟨⟨s.reverse, ?_⟩, h.member _ hw⟩
  change e.product.value1.reverse = _
  rw [hs]
  rfl

variable [SemiringWeight W]

/- The reverse of a value gives the reversed weights to the reversed strings. -/
theorem reverse_map (h : SelfReverse reverseWeight)
    (ha : Value gallicUnionWeightOptions Spelled key a) (s : List L) :
    weightOf (UnionWeight.reverse (reversed reverseWeight) a : GeneralGallicWeight L W)
        s = reverseWeight (weightOf a s.reverse) ∧
      (Spells (UnionWeight.reverse (reversed reverseWeight) a :
        GeneralGallicWeight L W) s ↔ Spells a s.reverse) := by
  obtain ⟨elems, rfl, hn⟩ := ha
  have hgood : ∀ e ∈ elems, Spelled (reversed reverseWeight e) :=
    fun e he => spelled_reverse h (hn.2 e he)
  obtain ⟨rev, heq, hrev, htotal⟩ :=
    reverse_reads (O := gallicUnionWeightOptions) reads_spelled hgood
  have hspells : ∀ s, Spells (⟨some rev⟩ : GeneralGallicWeight L W) s ↔
      Spells (⟨some elems⟩ : GeneralGallicWeight L W) s.reverse := by
    intro s
    rw [spells_iff, htotal, mem_language]
    constructor
    · rintro ⟨x, hx, rfl⟩
      obtain ⟨e, he, rfl⟩ := List.mem_map.mp hx
      exact ⟨e, he, by rw [labelsOf_reverse, List.reverse_reverse]⟩
    · rintro ⟨e, he, hlabels⟩
      exact ⟨_, List.mem_map_of_mem he, by rw [labelsOf_reverse, hlabels, List.reverse_reverse]⟩
  rw [heq]
  refine ⟨?_, hspells s⟩
  by_cases hs : Spells (⟨some elems⟩ : GeneralGallicWeight L W) s.reverse
  · obtain ⟨e, he, hlabels⟩ := hs
    have hnodup : ((elems.map (reversed reverseWeight)).map labelsOf).Nodup := by
      rw [List.map_map]
      have hmap := (nodup_labels hn.1).map List.reverse_injective
      rw [List.map_map] at hmap
      convert hmap using 2
      exact funext labelsOf_reverse
    have hcoeff := coeff_nodup hnodup (by simpa using hgood) (List.mem_map_of_mem he)
    rw [labelsOf_reverse, hlabels, List.reverse_reverse] at hcoeff
    rw [weightOf_eq hrev, htotal, ← hlabels, weightOf_mem hn he]
    exact hcoeff
  · rw [weightOf_none hs, weightOf_none fun hspell => hs ((hspells s).mp hspell), h.reverse_zero]

end Reversing

section Zeros

variable {a b : GeneralGallicWeight L W} {reverseWeight : W → W}

/- An element with a string and a weight that is not zero. -/
def ProperStart (e : GallicWeight L W .restrict) : Prop :=
  (∃ s, e.product.value1 = spell s) ∧ e.product.value2 ≠ zero

/- No two weights of one string add up to zero. -/
def ProperSum (a b : GeneralGallicWeight L W) : Prop :=
  ∀ s, Spells a s → Spells b s → plus (weightOf a s) (weightOf b s) ≠ zero

/- The weights of no string of the product add up to zero. -/
def ProperProduct (a b : GeneralGallicWeight L W) : Prop :=
  ∀ u v, Spells a u → Spells b v → convolution a b (u ++ v) ≠ zero

variable [SemiringWeight W]

theorem properStart_spelled (he : isMember e = true) (hs : ProperStart e) :
    Spelled e := ⟨hs.1, (isMember_element.mp he).2⟩

theorem one_member : isMember (one : GallicWeight L W .restrict) = true :=
  isMember_element.mpr ⟨rfl, SemiringWeight.laws.one_member⟩

theorem built_spelled (h : SelfReverse reverseWeight)
    (ha : Built reverseWeight ProperStart ProperSum ProperProduct a) :
    a = noWeight ∨ Value gallicUnionWeightOptions Spelled key a :=
  built_value reads_spelled (fun _ => properStart_spelled) one_member
    (fun _ => spelled_reverse h) ha

theorem not_spells_noWeight (s : List L) : ¬ Spells (noWeight : GeneralGallicWeight L W) s := by
  rintro ⟨e, he, -⟩
  cases he

theorem new_nonzero (he : isMember e = true) (hs : ProperStart e) {s : List L}
    (hspells : Spells (UnionWeight.new e : GeneralGallicWeight L W) s) :
    weightOf (UnionWeight.new e : GeneralGallicWeight L W) s ≠ zero := by
  obtain ⟨hnew, hn, -⟩ := new_reads reads_spelled (properStart_spelled he hs)
  rw [hnew] at hspells ⊢
  obtain ⟨x, hx, rfl⟩ := hspells
  rw [weightOf_mem hn hx, List.mem_singleton.mp hx]
  exact hs.2

/- No value lists a string with the weight zero. -/
theorem built_nonzero (h : SelfReverse reverseWeight)
    (ha : Built reverseWeight ProperStart ProperSum ProperProduct a) :
    ∀ s, Spells a s → weightOf a s ≠ zero := by
  induction ha with
  | zero =>
    rintro s ⟨e, he, -⟩
    cases he
  | one hs => exact fun s => new_nonzero one_member hs
  | noWeight => exact fun s hspells => absurd hspells (not_spells_noWeight s)
  | new e he hs => exact fun s => new_nonzero he hs
  | @plus a b ha hb hproper iha ihb =>
    intro s hspells
    obtain rfl | hva := built_spelled h ha
    · rw [noWeight_plus] at hspells
      exact absurd hspells (not_spells_noWeight s)
    obtain rfl | hvb := built_spelled h hb
    · rw [plus_noWeight] at hspells
      exact absurd hspells (not_spells_noWeight s)
    obtain ⟨hweight, hiff⟩ := plus_map hva hvb s
    rw [hweight]
    by_cases hsa : Spells a s
    · by_cases hsb : Spells b s
      · exact hproper s hsa hsb
      · rw [weightOf_none hsb, SemiringWeight.laws.plus_zero (weightOf_member hva s)]
        exact iha s hsa
    · rw [weightOf_none hsa, SemiringWeight.laws.zero_plus _ (weightOf_member hvb s)]
      exact ihb s ((hiff.mp hspells).resolve_left hsa)
  | @times a b ha hb hproper iha ihb =>
    intro s hspells
    obtain rfl | hva := built_spelled h ha
    · rw [noWeight_times] at hspells
      exact absurd hspells (not_spells_noWeight s)
    obtain rfl | hvb := built_spelled h hb
    · rw [times_noWeight] at hspells
      exact absurd hspells (not_spells_noWeight s)
    obtain ⟨hweight, hiff⟩ := times_map hva hvb s
    obtain ⟨u, v, rfl, hu, hv⟩ := hiff.mp hspells
    rw [hweight]
    exact hproper u v hu hv
  | @reverse a ha ih =>
    intro s hspells
    obtain rfl | hva := built_spelled h ha
    · exact absurd hspells (not_spells_noWeight s)
    obtain ⟨hweight, hiff⟩ := reverse_map h hva s
    rw [hweight]
    intro hzero
    refine ih s.reverse (hiff.mp hspells) ?_
    rw [← h.reverse_reverse _ (weightOf_member hva _), hzero, h.reverse_zero]
  | @quantize a ha ih =>
    intro s hspells
    obtain rfl | ⟨elems, rfl, hn⟩ := built_spelled h ha
    · exact absurd hspells (not_spells_noWeight s)
    obtain ⟨quantized, heq, hquantized, htotal⟩ := quantize_reads reads_spelled hn
    rw [heq, series_inj hquantized hn htotal] at hspells ⊢
    exact ih s hspells

end Zeros

section Exact

variable {a b : GeneralGallicWeight L W} {reverseWeight : W → W}

/- The comparison panics between the bad value and the empty one, whose sizes are the same. -/
theorem approxEqual_iff
    (approx : GallicWeight L W .restrict → GallicWeight L W .restrict → Bool) :
    UnionWeight.approxEqual approx a b = none ↔
      a = noWeight ∧ b = zero ∨ a = zero ∧ b = noWeight := by
  obtain ⟨elems⟩ := a
  obtain ⟨elems'⟩ := b
  have hbad : (noWeight : GeneralGallicWeight L W) = ⟨none⟩ := rfl
  have hempty : (zero : GeneralGallicWeight L W) = ⟨some []⟩ := rfl
  rw [hbad, hempty]
  unfold UnionWeight.approxEqual UnionWeight.size UnionWeight.isBadSet
  cases elems with
  | none =>
    cases elems' with
    | none => simp
    | some e₂ => cases e₂ <;> simp
  | some e₁ =>
    cases elems' with
    | none => cases e₁ <;> simp
    | some e₂ =>
      by_cases hlength : e₁.length = e₂.length <;> simp [hlength]

theorem properties_of_general {bit : BitVec 64} (h : Declares (GeneralGallicWeight L W) bit) :
    Declares (StringWeight L .restrict) bit ∧ Declares W bit :=
  declares_product (ne_zero_of_and h).1

section Semiring

variable [SemiringWeight W]

theorem series_one : series (one : GallicWeight L W .restrict) = 1 := by
  refine Prod.ext rfl ?_
  change term (one : GallicWeight L W .restrict) = 1
  rw [term_eq SemiringWeight.laws.one_member, MonoidAlgebra.one_def]
  rfl

theorem series_idem (h : Declares W idempotent) (he : Spelled e) :
    series e + series e = series e := by
  refine Prod.ext (Set.union_self _) ?_
  change term e + term e = term e
  have hidem : (⟨e.product.value2, he.2⟩ : Member W) + ⟨e.product.value2, he.2⟩ =
      ⟨e.product.value2, he.2⟩ := Subtype.ext (SemiringWeight.laws.plus_idem h _ he.2)
  rw [term_eq he.2, ← MonoidAlgebra.single_add, hidem]

theorem general_laws :
    LawsFor (GeneralGallicWeight L W) (Value gallicUnionWeightOptions Spelled key) Eq :=
  UnionSums.laws reads_spelled (fun _ _ => series_inj)
    ⟨⟨⟨[], rfl⟩, SemiringWeight.laws.one_member⟩, series_one⟩
    (fun hbit => not_declares (by decide) (properties_of_general hbit).1)
    fun hbit _ he => series_idem (properties_of_general hbit).2 he

end Semiring

/- The operations read off the maps of their operands, and equal maps are of equal values. -/
structure MapLaws (reverseWeight : W → W) (a b : GeneralGallicWeight L W) : Prop where
  plus_map (s : List L) : weightOf (plus a b) s = plus (weightOf a s) (weightOf b s)
  times_map (s : List L) : weightOf (times a b) s = convolution a b s
  reverse_map (s : List L) :
    weightOf (UnionWeight.reverse (reversed reverseWeight) a : GeneralGallicWeight L W) s =
      reverseWeight (weightOf a s.reverse)
  quantize_eq : UnionWeight.quantize id a = a
  eq_of_map : (∀ s, weightOf a s = weightOf b s) → a = b

/- The general Gallic weight keeps its elements in order whatever it is built from, and is a finite
map from strings to weights where no weight of a string is zero. -/
theorem finite_map (h : Laws W) (hd : Distributes W) (hrev : SelfReverse reverseWeight) :
    (∀ a : GeneralGallicWeight L W,
      Built reverseWeight (fun _ => True) (fun _ _ => True) (fun _ _ => True) a →
        a = noWeight ∨ Value gallicUnionWeightOptions (fun e => isMember e = true) key a) ∧
    (∀ a : GeneralGallicWeight L W, Built reverseWeight ProperStart ProperSum ProperProduct a →
      a = noWeight ∨ Value gallicUnionWeightOptions Spelled key a) ∧
    (∀ a b : GeneralGallicWeight L W, Built reverseWeight ProperStart ProperSum ProperProduct a →
      Built reverseWeight ProperStart ProperSum ProperProduct b → a ≠ noWeight → b ≠ noWeight →
        MapLaws reverseWeight a b) ∧
    LawsFor (GeneralGallicWeight L W) (Value gallicUnionWeightOptions Spelled key) Eq ∧
    ∀ (approx : GallicWeight L W .restrict → GallicWeight L W .restrict → Bool)
      (a b : GeneralGallicWeight L W), UnionWeight.approxEqual approx a b ≠ none ↔
        ¬ (a = noWeight ∧ b = zero ∨ a = zero ∧ b = noWeight) := by
  have : SemiringWeight W := ⟨h, hd⟩
  refine ⟨fun a ha => ?_, fun a ha => built_spelled hrev ha, fun a b ha hb hna hnb => ?_,
    general_laws, fun approx a b => not_congr (approxEqual_iff approx)⟩
  · exact built_value (reads_members h) (fun e he _ => he) one_member
      (fun e he => member_reverse hrev he) ha
  · have hva := (built_spelled hrev ha).resolve_left hna
    have hvb := (built_spelled hrev hb).resolve_left hnb
    have hnonzero := built_nonzero hrev ha
    have hnonzero' := built_nonzero hrev hb
    refine ⟨fun s => (plus_map hva hvb s).1, fun s => (times_map hva hvb s).1,
      fun s => (reverse_map hrev hva s).1, ?_, fun hmap => ?_⟩
    · obtain ⟨elems, rfl, hn⟩ := hva
      obtain ⟨quantized, heq, hquantized, htotal⟩ := quantize_reads reads_spelled hn
      rw [heq, series_inj hquantized hn htotal]
    · obtain ⟨elems, rfl, hn⟩ := hva
      obtain ⟨elems', rfl, hn'⟩ := hvb
      have hzero : ∀ e ∈ elems, e.product.value2 ≠ zero := fun e he =>
        weightOf_mem hn he ▸ hnonzero _ ⟨e, he, rfl⟩
      have hzero' : ∀ e ∈ elems', e.product.value2 ≠ zero := fun e he =>
        weightOf_mem hn' he ▸ hnonzero' _ ⟨e, he, rfl⟩
      have hcoeff : (total series elems).2 = (total series elems').2 := by
        refine MonoidAlgebra.ext (Finsupp.ext fun s => Subtype.ext ?_)
        have hs := hmap (FreeMonoid.toList s)
        rwa [weightOf_eq hn, weightOf_eq hn'] at hs
      rw [coeff_inj hn hn' hzero hzero' hcoeff]

theorem tropical_distributes : Distributes (TropicalWeight ℤ) := fun a b c ha hb hc =>
  ⟨TropicalWeight.laws.left_distrib (by decide) a b c ha hb hc,
    TropicalWeight.laws.right_distrib (by decide) a b c ha hb hc⟩

theorem finite_map_integers :
    plus one (UnionWeight.new one) = (noWeight : GeneralGallicWeight ℤ (TropicalWeight ℤ)) ∨
      Value gallicUnionWeightOptions (fun e => isMember e = true) key
        (plus one (UnionWeight.new one) : GeneralGallicWeight ℤ (TropicalWeight ℤ)) :=
  (finite_map TropicalWeight.laws tropical_distributes
    ⟨fun _ hw => hw, rfl, fun _ _ => rfl⟩).1 _
      (.plus (.one trivial) (.new one rfl trivial) trivial)

/- Comparing zero to no weight at all panics. -/
theorem approxEqual_panics :
    UnionWeight.approxEqual (fun e e' => decide (e = e'))
      (zero : GeneralGallicWeight ℤ (TropicalWeight ℤ)) noWeight = none := rfl

end Exact

end Sicada.UnionWeightRuns
