import Mathlib

namespace Sicada

/- What a weight type computes, and the bits of the laws it declares. -/
class WeightOps (W : Type) where
  zero : W
  one : W
  noWeight : W
  plus : W → W → W
  times : W → W → W
  isMember : W → Bool
  properties : BitVec 64

inductive DivideType where
  | left
  | right
  | any
deriving DecidableEq, Repr

class DivideOps (W : Type) where
  divide : W → W → DivideType → W

namespace WeightLaws

open WeightOps

def leftSemiring : BitVec 64 := 0x1

def rightSemiring : BitVec 64 := 0x2

def commutative : BitVec 64 := 0x4

def idempotent : BitVec 64 := 0x8

def path : BitVec 64 := 0x10

def Declares (W : Type) [WeightOps W] (bit : BitVec 64) : Prop := properties W &&& bit ≠ 0

instance (W : Type) [WeightOps W] (bit : BitVec 64) : Decidable (Declares W bit) :=
  inferInstanceAs (Decidable (_ ≠ _))

/- The laws of a weight type, for the values that are in it and up to what it calls equal: those
of every weight, and the declared ones. -/
structure LawsFor (W : Type) [WeightOps W] (member : W → Prop) (same : W → W → Prop) : Prop where
  zero_member : member zero
  plus_member (a b : W) : member a → member b → member (plus a b)
  times_member (a b : W) : member a → member b → member (times a b)
  plus_assoc (a b c : W) : member a → member b → member c →
    same (plus (plus a b) c) (plus a (plus b c))
  plus_comm (a b : W) : member a → member b → same (plus a b) (plus b a)
  zero_plus (a : W) : member a → same (plus zero a) a
  times_assoc (a b c : W) : member a → member b → member c →
    same (times (times a b) c) (times a (times b c))
  one_times (a : W) : member a → same (times one a) a
  times_one (a : W) : member a → same (times a one) a
  zero_times (a : W) : member a → same (times zero a) zero
  times_zero (a : W) : member a → same (times a zero) zero
  left_distrib : Declares W leftSemiring → ∀ a b c : W, member a → member b → member c →
    same (times a (plus b c)) (plus (times a b) (times a c))
  right_distrib : Declares W rightSemiring → ∀ a b c : W, member a → member b → member c →
    same (times (plus b c) a) (plus (times b a) (times c a))
  times_comm : Declares W commutative → ∀ a b : W, member a → member b →
    same (times a b) (times b a)
  plus_idem : Declares W idempotent → ∀ a : W, member a → same (plus a a) a
  plus_path : Declares W path → ∀ a b : W, member a → member b →
    same (plus a b) a ∨ same (plus a b) b

/- The laws of a weight type, for its members. -/
structure Laws (W : Type) [WeightOps W] : Prop extends
    LawsFor W (fun a => isMember a = true) Eq where
  one_member : isMember (one : W) = true

namespace LawsFor

variable {W : Type} [WeightOps W] {member : W → Prop}

theorem plus_zero (h : LawsFor W member Eq) {a : W} (ha : member a) : plus a zero = a := by
  rw [h.plus_comm a zero ha h.zero_member, h.zero_plus a ha]

/- Weights that read as those of another type, with the operations of that type. -/
theorem of_read {V : Type} [WeightOps V] {member' : V → Prop} {same : W → W → Prop}
    {same' : V → V → Prop} (read : W → V) (h : LawsFor V member' same')
    (hsame : ∀ a b, member a → member b → same' (read a) (read b) → same a b)
    (hread : ∀ a, member a → member' (read a))
    (hzero : member zero ∧ read zero = zero) (hone : member one ∧ read one = one)
    (hplus : ∀ a b, member a → member b →
      member (plus a b) ∧ read (plus a b) = plus (read a) (read b))
    (htimes : ∀ a b, member a → member b →
      member (times a b) ∧ read (times a b) = times (read a) (read b))
    (hbits : ∀ bit, Declares W bit → Declares V bit) : LawsFor W member same where
  zero_member := hzero.1
  plus_member a b ha hb := (hplus a b ha hb).1
  times_member a b ha hb := (htimes a b ha hb).1
  plus_assoc a b c ha hb hc := by
    obtain ⟨hab, heab⟩ := hplus a b ha hb
    obtain ⟨hbc, hebc⟩ := hplus b c hb hc
    obtain ⟨hleft, hel⟩ := hplus _ c hab hc
    obtain ⟨hright, her⟩ := hplus a _ ha hbc
    apply hsame _ _ hleft hright
    rw [hel, her, heab, hebc]
    exact h.plus_assoc _ _ _ (hread a ha) (hread b hb) (hread c hc)
  plus_comm a b ha hb := by
    obtain ⟨hab, heab⟩ := hplus a b ha hb
    obtain ⟨hba, heba⟩ := hplus b a hb ha
    apply hsame _ _ hab hba
    rw [heab, heba]
    exact h.plus_comm _ _ (hread a ha) (hread b hb)
  zero_plus a ha := by
    obtain ⟨hsum, hesum⟩ := hplus zero a hzero.1 ha
    apply hsame _ _ hsum ha
    rw [hesum, hzero.2]
    exact h.zero_plus _ (hread a ha)
  times_assoc a b c ha hb hc := by
    obtain ⟨hab, heab⟩ := htimes a b ha hb
    obtain ⟨hbc, hebc⟩ := htimes b c hb hc
    obtain ⟨hleft, hel⟩ := htimes _ c hab hc
    obtain ⟨hright, her⟩ := htimes a _ ha hbc
    apply hsame _ _ hleft hright
    rw [hel, her, heab, hebc]
    exact h.times_assoc _ _ _ (hread a ha) (hread b hb) (hread c hc)
  one_times a ha := by
    obtain ⟨hprod, heprod⟩ := htimes one a hone.1 ha
    apply hsame _ _ hprod ha
    rw [heprod, hone.2]
    exact h.one_times _ (hread a ha)
  times_one a ha := by
    obtain ⟨hprod, heprod⟩ := htimes a one ha hone.1
    apply hsame _ _ hprod ha
    rw [heprod, hone.2]
    exact h.times_one _ (hread a ha)
  zero_times a ha := by
    obtain ⟨hprod, heprod⟩ := htimes zero a hzero.1 ha
    apply hsame _ _ hprod hzero.1
    rw [heprod, hzero.2]
    exact h.zero_times _ (hread a ha)
  times_zero a ha := by
    obtain ⟨hprod, heprod⟩ := htimes a zero ha hzero.1
    apply hsame _ _ hprod hzero.1
    rw [heprod, hzero.2]
    exact h.times_zero _ (hread a ha)
  left_distrib hbit a b c ha hb hc := by
    obtain ⟨hbc, hebc⟩ := hplus b c hb hc
    obtain ⟨hab, heab⟩ := htimes a b ha hb
    obtain ⟨hac, heac⟩ := htimes a c ha hc
    obtain ⟨hleft, hel⟩ := htimes a _ ha hbc
    obtain ⟨hright, her⟩ := hplus _ _ hab hac
    apply hsame _ _ hleft hright
    rw [hel, her, hebc, heab, heac]
    exact h.left_distrib (hbits _ hbit) _ _ _ (hread a ha) (hread b hb) (hread c hc)
  right_distrib hbit a b c ha hb hc := by
    obtain ⟨hbc, hebc⟩ := hplus b c hb hc
    obtain ⟨hba, heba⟩ := htimes b a hb ha
    obtain ⟨hca, heca⟩ := htimes c a hc ha
    obtain ⟨hleft, hel⟩ := htimes _ a hbc ha
    obtain ⟨hright, her⟩ := hplus _ _ hba hca
    apply hsame _ _ hleft hright
    rw [hel, her, hebc, heba, heca]
    exact h.right_distrib (hbits _ hbit) _ _ _ (hread a ha) (hread b hb) (hread c hc)
  times_comm hbit a b ha hb := by
    obtain ⟨hab, heab⟩ := htimes a b ha hb
    obtain ⟨hba, heba⟩ := htimes b a hb ha
    apply hsame _ _ hab hba
    rw [heab, heba]
    exact h.times_comm (hbits _ hbit) _ _ (hread a ha) (hread b hb)
  plus_idem hbit a ha := by
    obtain ⟨hsum, hesum⟩ := hplus a a ha ha
    apply hsame _ _ hsum ha
    rw [hesum]
    exact h.plus_idem (hbits _ hbit) _ (hread a ha)
  plus_path hbit a b ha hb := by
    obtain ⟨hab, heab⟩ := hplus a b ha hb
    have hone := h.plus_path (hbits _ hbit) _ _ (hread a ha) (hread b hb)
    rw [← heab] at hone
    exact hone.imp (hsame _ _ hab ha) (hsame _ _ hab hb)

variable (W) in
/- A type with the given operations that declares what the weights declare. -/
@[reducible] def opsOf {A : Type} (zero one : A) (plus times : A → A → A) : WeightOps A :=
  ⟨zero, one, zero, plus, times, fun _ => true, properties W⟩

/- Weights that stand for the elements of a distributive lattice, added and multiplied as these are
joined and met. -/
theorem of_lattice {same : W → W → Prop} {A : Type} [DistribLattice A] [BoundedOrder A] (e : W → A)
    (hsame : ∀ a b, member a → member b → (same a b ↔ e a = e b))
    (hzero : member zero ∧ e zero = ⊥) (hone : member one ∧ e one = ⊤)
    (hplus : ∀ a b, member a → member b → member (plus a b) ∧ e (plus a b) = e a ⊔ e b)
    (htimes : ∀ a b, member a → member b → member (times a b) ∧ e (times a b) = e a ⊓ e b)
    (hpath : ¬ Declares W path) : LawsFor W member same := by
  letI := opsOf W (⊥ : A) ⊤ (· ⊔ ·) (· ⊓ ·)
  have hlattice : LawsFor A (fun _ => True) Eq :=
    { zero_member := trivial
      plus_member _ _ _ _ := trivial
      times_member _ _ _ _ := trivial
      plus_assoc a b c _ _ _ := sup_assoc a b c
      plus_comm a b _ _ := sup_comm a b
      zero_plus a _ := bot_sup_eq a
      times_assoc a b c _ _ _ := inf_assoc a b c
      one_times a _ := top_inf_eq a
      times_one a _ := inf_top_eq a
      zero_times a _ := bot_inf_eq a
      times_zero a _ := inf_bot_eq a
      left_distrib _ a b c _ _ _ := inf_sup_left a b c
      right_distrib _ a b c _ _ _ := inf_sup_right b c a
      times_comm _ a b _ _ := inf_comm a b
      plus_idem _ a _ := sup_idem a
      plus_path h := absurd h hpath }
  exact of_read e hlattice (fun a b ha hb => (hsame a b ha hb).mpr) (fun _ _ => trivial) hzero hone
    hplus htimes fun _ hbit => hbit

/- Weights that read as a family of weights, with the operations applied to each of it. -/
theorem of_components {I : Type} {V : I → Type} [∀ i, WeightOps (V i)] (read : ∀ i, W → V i)
    (hext : ∀ a b, member a → member b → (∀ i, read i a = read i b) → a = b)
    (hmember : ∀ a, member a → ∀ i, isMember (read i a) = true)
    (hzero : member zero ∧ ∀ i, read i zero = zero) (hone : member one ∧ ∀ i, read i one = one)
    (hplus : ∀ a b, member a → member b →
      member (plus a b) ∧ ∀ i, read i (plus a b) = plus (read i a) (read i b))
    (htimes : ∀ a b, member a → member b →
      member (times a b) ∧ ∀ i, read i (times a b) = times (read i a) (read i b))
    (hlaws : ∀ i, Laws (V i)) (hbits : ∀ bit, Declares W bit → ∀ i, Declares (V i) bit)
    (hpath : ¬ Declares W path) : LawsFor W member Eq := by
  letI := opsOf W (fun i => zero : ∀ i, V i) (fun i => one) (fun a b i => plus (a i) (b i))
    fun a b i => times (a i) (b i)
  have hfamily : LawsFor (∀ i, V i) (fun a => ∀ i, isMember (a i) = true) fun a b => ∀ i, a i = b i :=
    { zero_member i := (hlaws i).zero_member
      plus_member a b ha hb i := (hlaws i).plus_member _ _ (ha i) (hb i)
      times_member a b ha hb i := (hlaws i).times_member _ _ (ha i) (hb i)
      plus_assoc a b c ha hb hc i := (hlaws i).plus_assoc _ _ _ (ha i) (hb i) (hc i)
      plus_comm a b ha hb i := (hlaws i).plus_comm _ _ (ha i) (hb i)
      zero_plus a ha i := (hlaws i).zero_plus _ (ha i)
      times_assoc a b c ha hb hc i := (hlaws i).times_assoc _ _ _ (ha i) (hb i) (hc i)
      one_times a ha i := (hlaws i).one_times _ (ha i)
      times_one a ha i := (hlaws i).times_one _ (ha i)
      zero_times a ha i := (hlaws i).zero_times _ (ha i)
      times_zero a ha i := (hlaws i).times_zero _ (ha i)
      left_distrib hbit a b c ha hb hc i :=
        (hlaws i).left_distrib (hbits _ hbit i) _ _ _ (ha i) (hb i) (hc i)
      right_distrib hbit a b c ha hb hc i :=
        (hlaws i).right_distrib (hbits _ hbit i) _ _ _ (ha i) (hb i) (hc i)
      times_comm hbit a b ha hb i := (hlaws i).times_comm (hbits _ hbit i) _ _ (ha i) (hb i)
      plus_idem hbit a ha i := (hlaws i).plus_idem (hbits _ hbit i) _ (ha i)
      plus_path h := absurd h hpath }
  exact of_read (fun a i => read i a) hfamily hext hmember ⟨hzero.1, funext hzero.2⟩
    ⟨hone.1, funext hone.2⟩ (fun a b ha hb => (hplus a b ha hb).imp_right funext)
    (fun a b ha hb => (htimes a b ha hb).imp_right funext) fun _ hbit => hbit

/- Weights that stand for the elements of a semiring. -/
theorem of_semiring {A : Type} [Semiring A] (read : W → A)
    (hext : ∀ a b, member a → member b → read a = read b → a = b)
    (hzero : member zero ∧ read zero = 0) (hone : member one ∧ read one = 1)
    (hplus : ∀ a b, member a → member b → member (plus a b) ∧ read (plus a b) = read a + read b)
    (htimes : ∀ a b, member a → member b → member (times a b) ∧ read (times a b) = read a * read b)
    (hcomm : Declares W commutative → ∀ a b, member a → member b →
      read a * read b = read b * read a)
    (hidem : Declares W idempotent → ∀ a, member a → read a + read a = read a)
    (hpath : ¬ Declares W path) : LawsFor W member Eq := by
  letI := opsOf W (0 : A) 1 (· + ·) (· * ·)
  have hsemiring : LawsFor A (fun x => ∃ a, member a ∧ read a = x) Eq :=
    { zero_member := ⟨zero, hzero⟩
      plus_member := by
        rintro _ _ ⟨a, ha, rfl⟩ ⟨b, hb, rfl⟩
        exact ⟨plus a b, hplus a b ha hb⟩
      times_member := by
        rintro _ _ ⟨a, ha, rfl⟩ ⟨b, hb, rfl⟩
        exact ⟨times a b, htimes a b ha hb⟩
      plus_assoc a b c _ _ _ := add_assoc a b c
      plus_comm a b _ _ := add_comm a b
      zero_plus a _ := zero_add a
      times_assoc a b c _ _ _ := mul_assoc a b c
      one_times a _ := one_mul a
      times_one a _ := mul_one a
      zero_times a _ := zero_mul a
      times_zero a _ := mul_zero a
      left_distrib _ a b c _ _ _ := mul_add a b c
      right_distrib _ a b c _ _ _ := add_mul b c a
      times_comm := by
        rintro hbit _ _ ⟨a, ha, rfl⟩ ⟨b, hb, rfl⟩
        exact hcomm hbit a b ha hb
      plus_idem := by
        rintro hbit _ ⟨a, ha, rfl⟩
        exact hidem hbit a ha
      plus_path h := absurd h hpath }
  exact of_read read hsemiring hext (fun a ha => ⟨a, ha, rfl⟩) hzero hone hplus htimes
    fun _ hbit => hbit

end LawsFor

end WeightLaws

end Sicada
