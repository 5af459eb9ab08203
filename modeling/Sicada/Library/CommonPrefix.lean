import Mathlib

/- The longest common prefix of two lists is their greatest lower bound in the prefix order. -/
namespace CommonPrefix

variable {A : Type*} [DecidableEq A] {s t u p : List A}

def commonPrefix : List A → List A → List A
  | a :: s, b :: t => if a = b then a :: commonPrefix s t else []
  | _, _ => []

def commonSuffix (s t : List A) : List A := (commonPrefix s.reverse t.reverse).reverse

theorem below_iff : p <+: commonPrefix s t ↔ p <+: s ∧ p <+: t := by
  induction p generalizing s t with
  | nil => simp
  | cons x p ih =>
    cases s with
    | nil => simp [commonPrefix]
    | cons a s =>
      cases t with
      | nil => simp [commonPrefix]
      | cons b t =>
        by_cases hab : a = b
        · subst hab
          rw [commonPrefix, if_pos rfl, List.cons_prefix_cons, List.cons_prefix_cons,
            List.cons_prefix_cons, ih]
          tauto
        · rw [commonPrefix, if_neg hab, List.cons_prefix_cons, List.cons_prefix_cons]
          constructor
          · intro h
            simp at h
          · rintro ⟨⟨rfl, -⟩, rfl, -⟩
            exact absurd rfl hab

omit [DecidableEq A] in
theorem eq_of_below (h : ∀ p, p <+: s ↔ p <+: t) : s = t :=
  ((h s).mp (List.prefix_refl s)).eq_of_length_le ((h t).mpr (List.prefix_refl t)).length_le

theorem commonPrefix_self (s : List A) : commonPrefix s s = s :=
  eq_of_below fun p => by rw [below_iff, and_self_iff]

theorem commonPrefix_comm (s t : List A) : commonPrefix s t = commonPrefix t s :=
  eq_of_below fun p => by rw [below_iff, below_iff, and_comm]

theorem commonPrefix_assoc (s t u : List A) :
    commonPrefix (commonPrefix s t) u = commonPrefix s (commonPrefix t u) :=
  eq_of_below fun p => by rw [below_iff, below_iff, below_iff, below_iff, and_assoc]

theorem append_commonPrefix (u s t : List A) :
    u ++ commonPrefix s t = commonPrefix (u ++ s) (u ++ t) := by
  induction u with
  | nil => rfl
  | cons x u ih => rw [List.cons_append, ih, List.cons_append, List.cons_append, commonPrefix,
      if_pos rfl]

theorem reverse_commonPrefix (s t : List A) :
    (commonPrefix s t).reverse = commonSuffix s.reverse t.reverse := by
  rw [commonSuffix, List.reverse_reverse, List.reverse_reverse]

theorem reverse_commonSuffix (s t : List A) :
    (commonSuffix s t).reverse = commonPrefix s.reverse t.reverse := List.reverse_reverse _

theorem commonSuffix_self (s : List A) : commonSuffix s s = s := by
  rw [commonSuffix, commonPrefix_self, List.reverse_reverse]

theorem commonSuffix_comm (s t : List A) : commonSuffix s t = commonSuffix t s := by
  rw [commonSuffix, commonPrefix_comm, commonSuffix]

theorem commonSuffix_assoc (s t u : List A) :
    commonSuffix (commonSuffix s t) u = commonSuffix s (commonSuffix t u) := by
  rw [commonSuffix, reverse_commonSuffix, commonPrefix_assoc, commonSuffix, reverse_commonSuffix]

theorem commonSuffix_append (u s t : List A) :
    commonSuffix s t ++ u = commonSuffix (s ++ u) (t ++ u) := by
  rw [commonSuffix, commonSuffix, List.reverse_append, List.reverse_append, ← append_commonPrefix,
    List.reverse_append, List.reverse_reverse]

end CommonPrefix
