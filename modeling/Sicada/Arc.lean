import Mathlib

namespace Sicada

/- The kinds of `io::Error` the readers and writers meet; the texts are the standard library's. -/
inductive IoErrorKind where
  | unexpectedEof
  | invalidData
  | invalidInput
deriving DecidableEq, Repr

inductive MatchType where
  | input
  | output
  | both
  | none
  | unknown
deriving DecidableEq, Repr

inductive OpenFstError where
  | invalidOperation (message : String)
  | symbolTable (message : String)
  | io (kind : IoErrorKind)
  | invalidMagicNumber (expected found : ℤ)
  | invalidFstHeader (message : String)
  | matcherInvalidMatchType (matcherName : String) (matchType : MatchType)
  | matcherInvalidConfiguration (matcherName reason : String)
deriving DecidableEq, Repr

end Sicada

namespace Sicada

/- A weight is a member of its semiring or `no_weight`, which every operation hands on. -/
inductive Weight (K : Type) where
  | member (value : K)
  | noWeight
deriving DecidableEq

/- Left division, `noWeight` where it is undefined. -/
class Divide (K : Type) where
  divide : K → K → Weight K

namespace Weight

variable {K : Type}

def map₂ (f : K → K → Weight K) : Weight K → Weight K → Weight K
  | member a, member b => f a b
  | _, _ => noWeight

def isMember : Weight K → Bool
  | member _ => true
  | noWeight => false

instance [Zero K] : Zero (Weight K) := ⟨member 0⟩

instance [One K] : One (Weight K) := ⟨member 1⟩

instance [Add K] : Add (Weight K) := ⟨map₂ fun a b => member (a + b)⟩

instance [Mul K] : Mul (Weight K) := ⟨map₂ fun a b => member (a * b)⟩

def divide [Divide K] : Weight K → Weight K → Weight K := map₂ Divide.divide

def value [Zero K] : Weight K → K
  | member a => a
  | noWeight => 0

theorem one_eq [One K] : (1 : Weight K) = member 1 := rfl

@[simp] theorem isMember_member (a : K) : (member a).isMember = true := rfl

@[simp] theorem isMember_noWeight : (noWeight : Weight K).isMember = false := rfl

@[simp] theorem isMember_zero [Zero K] : (0 : Weight K).isMember = true := rfl

@[simp] theorem isMember_one [One K] : (1 : Weight K).isMember = true := rfl

@[simp] theorem value_member [Zero K] (a : K) : (member a).value = a := rfl

@[simp] theorem value_zero [Zero K] : (0 : Weight K).value = 0 := rfl

@[simp] theorem value_one [Zero K] [One K] : (1 : Weight K).value = 1 := rfl

@[simp] theorem isMember_add [Add K] (a b : Weight K) :
    (a + b).isMember = (a.isMember && b.isMember) := by
  cases a <;> cases b <;> rfl

@[simp] theorem isMember_mul [Mul K] (a b : Weight K) :
    (a * b).isMember = (a.isMember && b.isMember) := by
  cases a <;> cases b <;> rfl

theorem value_add [Zero K] [Add K] {a b : Weight K} (ha : a.isMember) (hb : b.isMember) :
    (a + b).value = a.value + b.value := by
  cases a <;> cases b <;> simp at ha hb
  rfl

theorem value_mul [Zero K] [Mul K] {a b : Weight K} (ha : a.isMember) (hb : b.isMember) :
    (a * b).value = a.value * b.value := by
  cases a <;> cases b <;> simp at ha hb
  rfl

theorem eq_member [Zero K] {a : Weight K} (ha : a.isMember) : a = member a.value := by
  cases a <;> simp at ha
  rfl

theorem divide_of_members [Zero K] [Divide K] {a b : Weight K} (ha : a.isMember) (hb : b.isMember) :
    a.divide b = Divide.divide a.value b.value := by
  rw [eq_member ha, eq_member hb]
  rfl

section Folds

variable {X : Type*} [AddMonoid K] (f : X → Weight K)

theorem isMember_foldl_add (l : List X) (a : Weight K) :
    (l.foldl (fun acc x => acc + f x) a).isMember = (a.isMember && l.all fun x => (f x).isMember) := by
  induction l generalizing a with
  | nil => simp
  | cons x l ih => rw [List.foldl_cons, ih, isMember_add, List.all_cons, Bool.and_assoc]

theorem value_foldl_add {l : List X} {a : Weight K} (ha : a.isMember)
    (hl : ∀ x ∈ l, (f x).isMember) :
    (l.foldl (fun acc x => acc + f x) a).value = a.value + (l.map fun x => (f x).value).sum := by
  induction l generalizing a with
  | nil => simp
  | cons x l ih =>
    have hx := hl x List.mem_cons_self
    have hstep : (a + f x).isMember := by simp [ha, hx]
    rw [List.foldl_cons, ih hstep fun y hy => hl y (List.mem_cons_of_mem x hy), value_add ha hx,
      List.map_cons, List.sum_cons, add_assoc]

end Folds

end Weight

end Sicada

namespace Sicada

class ArcLabel (L : Type) extends LinearOrder L where
  epsilon : L
  noLabel : L
  epsilon_ne_noLabel : epsilon ≠ noLabel
  toI64 : L → Option ℤ
  fromI64 : ℤ → Option L
  fromI64_eq_some : ∀ key label, fromI64 key = some label ↔ toI64 label = some key
  toI64_epsilon : toI64 epsilon = some 0
  fromI64_isSome_of_le : ∀ key key', 0 ≤ key → key ≤ key' → (fromI64 key').isSome →
    (fromI64 key).isSome

export ArcLabel (epsilon noLabel)

instance ArcLabel.lawfulBEq {L : Type} [ArcLabel L] : LawfulBEq L := inferInstance

/- Labels of the signed types; the integers stand for every width of them. -/
instance : ArcLabel ℤ where
  epsilon := 0
  noLabel := -1
  epsilon_ne_noLabel := by decide
  toI64 label := some label
  fromI64 key := some key
  fromI64_eq_some key label := by
    constructor <;> intro h <;> injection h with h <;> rw [h]
  toI64_epsilon := rfl
  fromI64_isSome_of_le _ _ _ _ _ := rfl

@[ext]
structure Arc (L W : Type) where
  ilabel : L
  olabel : L
  weight : W
  nextstate : ℕ
deriving DecidableEq, Repr

end Sicada
