import Sicada.Weights.CompositeLaws
import Sicada.Weights.TropicalWeight
import Sicada.Weights.StringWeight

namespace Sicada.StringWeightExact

open WeightOps WeightLaws CommonPrefix CompositeLaws

section Strings

variable {L : Type} [DecidableEq L] {S : StringType} {a b c : StringWeight L S} {s t u : List L}

def spell (s : List L) : StringWeight L S := StringWeight.new s

theorem member_cases (h : isMember a = true) : a = zero ∨ ∃ s, a = spell s := by
  obtain ⟨value⟩ := a
  cases value with
  | zero => exact Or.inl rfl
  | noWeight => cases h
  | labels v => exact Or.inr ⟨v, rfl⟩

theorem spell_member (s : List L) : isMember (spell s : StringWeight L S) = true := rfl

theorem noWeight_not_member : isMember (noWeight : StringWeight L S) = false := rfl

theorem spell_ne_zero (s : List L) : (spell s : StringWeight L S) ≠ zero :=
  fun h => nomatch congrArg StringWeight.value h

theorem spell_inj : (spell s : StringWeight L S) = spell t ↔ s = t := by
  constructor
  · intro h
    exact StringWeightValue.labels.inj (congrArg StringWeight.value h)
  · rintro rfl
    rfl

theorem eq_noWeight (h : ¬ isMember a = true) : a = noWeight := by
  obtain ⟨value⟩ := a
  cases value with
  | noWeight => rfl
  | zero => exact absurd rfl h
  | labels v => exact absurd rfl h

@[simp] theorem zero_plus (a : StringWeight L S) : plus zero a = a := by
  obtain ⟨value⟩ := a
  cases value <;> rfl

@[simp] theorem plus_zero (a : StringWeight L S) : plus a zero = a := by
  obtain ⟨value⟩ := a
  cases value <;> rfl

@[simp] theorem noWeight_plus (a : StringWeight L S) : plus noWeight a = noWeight := rfl

@[simp] theorem plus_noWeight (a : StringWeight L S) : plus a noWeight = noWeight := by
  obtain ⟨value⟩ := a
  cases value <;> rfl

theorem zero_times (h : isMember a = true) : times zero a = zero := by
  obtain rfl | ⟨s, rfl⟩ := member_cases h <;> rfl

theorem times_zero (h : isMember a = true) : times a zero = zero := by
  obtain rfl | ⟨s, rfl⟩ := member_cases h <;> rfl

theorem spell_times (s t : List L) :
    times (spell s : StringWeight L S) (spell t) = spell (s ++ t) := rfl

theorem one_eq : (one : StringWeight L S) = spell [] := rfl

theorem times_member (ha : isMember a = true) (hb : isMember b = true) :
    isMember (times a b) = true := by
  obtain rfl | ⟨s, rfl⟩ := member_cases ha
  · rw [zero_times hb]
    rfl
  · obtain rfl | ⟨t, rfl⟩ := member_cases hb <;> rfl

theorem times_assoc (ha : isMember a = true) (hb : isMember b = true) (hc : isMember c = true) :
    times (times a b) c = times a (times b c) := by
  obtain rfl | ⟨s, rfl⟩ := member_cases ha
  · rw [zero_times hb, zero_times hc, zero_times (times_member hb hc)]
  obtain rfl | ⟨t, rfl⟩ := member_cases hb
  · rw [times_zero ha, zero_times hc, times_zero ha]
  obtain rfl | ⟨u, rfl⟩ := member_cases hc
  · rw [times_zero (times_member ha hb), times_zero hb, times_zero ha]
  · rw [spell_times, spell_times, spell_times, spell_times, List.append_assoc]

theorem one_times (ha : isMember a = true) : times one a = a := by
  obtain rfl | ⟨s, rfl⟩ := member_cases ha <;> rfl

theorem times_one (ha : isMember a = true) : times a one = a := by
  obtain rfl | ⟨s, rfl⟩ := member_cases ha
  · rfl
  · rw [one_eq, spell_times, List.append_nil]

end Strings

section Joined

variable {L : Type} [DecidableEq L] {S : StringType}

/- How a flavour that adds any two strings adds them. -/
structure Joins (S : StringType) (join : List L → List L → List L) : Prop where
  spell_plus (s t : List L) : plus (spell s : StringWeight L S) (spell t) = spell (join s t)
  self (s : List L) : join s s = s
  comm (s t : List L) : join s t = join t s
  assoc (s t u : List L) : join (join s t) u = join s (join t u)
  left : Declares (StringWeight L S) leftSemiring →
    ∀ s t u : List L, u ++ join s t = join (u ++ s) (u ++ t)
  right : Declares (StringWeight L S) rightSemiring →
    ∀ s t u : List L, join s t ++ u = join (s ++ u) (t ++ u)
  not_comm : ¬ Declares (StringWeight L S) commutative
  not_path : ¬ Declares (StringWeight L S) path

theorem not_declares {bit : BitVec 64} (h : StringWeight.properties S &&& bit = 0) :
    ¬ Declares (StringWeight L S) bit := fun hbit => hbit h

theorem joins_left : Joins (L := L) .left commonPrefix where
  spell_plus _ _ := rfl
  self := commonPrefix_self
  comm := commonPrefix_comm
  assoc := commonPrefix_assoc
  left _ s t u := append_commonPrefix u s t
  right h := absurd h (not_declares (by decide))
  not_comm := not_declares (by decide)
  not_path := not_declares (by decide)

theorem joins_right : Joins (L := L) .right commonSuffix where
  spell_plus _ _ := rfl
  self := commonSuffix_self
  comm := commonSuffix_comm
  assoc := commonSuffix_assoc
  left h := absurd h (not_declares (by decide))
  right _ s t u := commonSuffix_append u s t
  not_comm := not_declares (by decide)
  not_path := not_declares (by decide)

variable {join : List L → List L → List L} {a b c : StringWeight L S}

theorem joins_member (h : Joins S join) (ha : isMember a = true) (hb : isMember b = true) :
    isMember (plus a b) = true := by
  obtain rfl | ⟨s, rfl⟩ := member_cases ha
  · rwa [zero_plus]
  obtain rfl | ⟨t, rfl⟩ := member_cases hb
  · rwa [plus_zero]
  · rw [h.spell_plus]
    rfl

theorem joins_laws (h : Joins S join) : Laws (StringWeight L S) where
  zero_member := rfl
  one_member := rfl
  plus_member _ _ ha hb := joins_member h ha hb
  times_member _ _ ha hb := times_member ha hb
  plus_assoc a b c ha hb hc := by
    obtain rfl | ⟨s, rfl⟩ := member_cases ha
    · rw [zero_plus, zero_plus]
    obtain rfl | ⟨t, rfl⟩ := member_cases hb
    · rw [plus_zero, zero_plus]
    obtain rfl | ⟨u, rfl⟩ := member_cases hc
    · rw [plus_zero, plus_zero]
    · rw [h.spell_plus, h.spell_plus, h.spell_plus, h.spell_plus, h.assoc]
  plus_comm a b ha hb := by
    obtain rfl | ⟨s, rfl⟩ := member_cases ha
    · rw [zero_plus, plus_zero]
    obtain rfl | ⟨t, rfl⟩ := member_cases hb
    · rw [plus_zero, zero_plus]
    · rw [h.spell_plus, h.spell_plus, h.comm]
  zero_plus a _ := zero_plus a
  times_assoc _ _ _ ha hb hc := times_assoc ha hb hc
  one_times _ ha := one_times ha
  times_one _ ha := times_one ha
  zero_times _ ha := zero_times ha
  times_zero _ ha := times_zero ha
  left_distrib hbit a b c ha hb hc := by
    obtain rfl | ⟨u, rfl⟩ := member_cases ha
    · rw [zero_times (joins_member h hb hc), zero_times hb, zero_times hc, zero_plus]
    obtain rfl | ⟨s, rfl⟩ := member_cases hb
    · rw [zero_plus, times_zero ha, zero_plus]
    obtain rfl | ⟨t, rfl⟩ := member_cases hc
    · rw [plus_zero, times_zero ha, plus_zero]
    · rw [h.spell_plus, spell_times, spell_times, spell_times, h.spell_plus, h.left hbit]
  right_distrib hbit a b c ha hb hc := by
    obtain rfl | ⟨u, rfl⟩ := member_cases ha
    · rw [times_zero (joins_member h hb hc), times_zero hb, times_zero hc, zero_plus]
    obtain rfl | ⟨s, rfl⟩ := member_cases hb
    · rw [zero_plus, zero_times ha, zero_plus]
    obtain rfl | ⟨t, rfl⟩ := member_cases hc
    · rw [plus_zero, zero_times ha, plus_zero]
    · rw [h.spell_plus, spell_times, spell_times, spell_times, h.spell_plus, h.right hbit]
  times_comm hbit := absurd hbit h.not_comm
  plus_idem _ a ha := by
    obtain rfl | ⟨s, rfl⟩ := member_cases ha
    · rw [zero_plus]
    · rw [h.spell_plus, h.self]
  plus_path hbit := absurd hbit h.not_path

end Joined

section Restricted

variable {L : Type} [DecidableEq L] {a b c : StringWeight L .restrict} {s t : List L}

/- The laws of a weight type whose sums need not be in it. -/
structure LawsWhereDefined (W : Type) [WeightOps W] : Prop where
  zero_member : isMember (zero : W) = true
  one_member : isMember (one : W) = true
  times_member (a b : W) : isMember a = true → isMember b = true → isMember (times a b) = true
  plus_assoc (a b c : W) : isMember a = true → isMember b = true → isMember c = true →
    plus (plus a b) c = plus a (plus b c)
  plus_comm (a b : W) : isMember a = true → isMember b = true → plus a b = plus b a
  zero_plus (a : W) : isMember a = true → plus zero a = a
  times_assoc (a b c : W) : isMember a = true → isMember b = true → isMember c = true →
    times (times a b) c = times a (times b c)
  one_times (a : W) : isMember a = true → times one a = a
  times_one (a : W) : isMember a = true → times a one = a
  zero_times (a : W) : isMember a = true → times zero a = zero
  times_zero (a : W) : isMember a = true → times a zero = zero
  left_distrib (a b c : W) : isMember a = true → isMember (plus b c) = true →
    times a (plus b c) = plus (times a b) (times a c)
  right_distrib (a b c : W) : isMember a = true → isMember (plus b c) = true →
    times (plus b c) a = plus (times b a) (times c a)
  plus_idem (a : W) : isMember a = true → plus a a = a

theorem restrict_plus (s t : List L) :
    plus (spell s : StringWeight L .restrict) (spell t) = if s = t then spell s else noWeight := by
  change (if (spell s : StringWeight L .restrict) = spell t then spell s else noWeight) = _
  simp only [spell_inj]

/- The sums that are defined. -/
theorem restrict_member :
    isMember (plus a b) = true ↔
      isMember a = true ∧ isMember b = true ∧ (a = zero ∨ b = zero ∨ a = b) := by
  by_cases ha : isMember a = true
  · by_cases hb : isMember b = true
    · obtain rfl | ⟨s, rfl⟩ := member_cases ha
      · simp [ha, hb]
      obtain rfl | ⟨t, rfl⟩ := member_cases hb
      · simp [ha, hb]
      · rw [restrict_plus, spell_inj]
        by_cases hst : s = t
        · simp [hst, spell_member]
        · simp [hst, spell_member, spell_ne_zero, noWeight_not_member]
    · rw [eq_noWeight hb, plus_noWeight]
      simp [noWeight_not_member]
  · rw [eq_noWeight ha, noWeight_plus]
    simp [noWeight_not_member]

theorem restrict_self (ha : isMember a = true) : plus a a = a := by
  obtain rfl | ⟨s, rfl⟩ := member_cases ha
  · rfl
  · rw [restrict_plus, if_pos rfl]

theorem restrict_laws : LawsWhereDefined (StringWeight L .restrict) where
  zero_member := rfl
  one_member := rfl
  times_member _ _ ha hb := times_member ha hb
  plus_assoc a b c ha hb hc := by
    obtain rfl | ⟨s, rfl⟩ := member_cases ha
    · rw [zero_plus, zero_plus]
    obtain rfl | ⟨t, rfl⟩ := member_cases hb
    · rw [plus_zero, zero_plus]
    obtain rfl | ⟨u, rfl⟩ := member_cases hc
    · rw [plus_zero, plus_zero]
    · rw [restrict_plus, restrict_plus]
      by_cases hst : s = t <;> by_cases htu : t = u
      · rw [if_pos hst, if_pos htu, restrict_plus, restrict_plus, hst, htu]
      · rw [if_pos hst, if_neg htu, restrict_plus, hst, if_neg htu, plus_noWeight]
      · rw [if_neg hst, if_pos htu, restrict_plus, if_neg hst, noWeight_plus]
      · rw [if_neg hst, if_neg htu, noWeight_plus, plus_noWeight]
  plus_comm a b ha hb := by
    obtain rfl | ⟨s, rfl⟩ := member_cases ha
    · rw [zero_plus, plus_zero]
    obtain rfl | ⟨t, rfl⟩ := member_cases hb
    · rw [plus_zero, zero_plus]
    · rw [restrict_plus, restrict_plus]
      by_cases hst : s = t
      · rw [if_pos hst, if_pos hst.symm, hst]
      · rw [if_neg hst, if_neg (Ne.symm hst)]
  zero_plus a _ := zero_plus a
  times_assoc _ _ _ ha hb hc := times_assoc ha hb hc
  one_times _ ha := one_times ha
  times_one _ ha := times_one ha
  zero_times _ ha := zero_times ha
  times_zero _ ha := times_zero ha
  left_distrib a b c ha hbc := by
    obtain ⟨hb, hc, rfl | rfl | rfl⟩ := restrict_member.mp hbc
    · rw [zero_plus, times_zero ha, zero_plus]
    · rw [plus_zero, times_zero ha, plus_zero]
    · rw [restrict_self hb, restrict_self (times_member ha hb)]
  right_distrib a b c ha hbc := by
    obtain ⟨hb, hc, rfl | rfl | rfl⟩ := restrict_member.mp hbc
    · rw [zero_plus, zero_times ha, zero_plus]
    · rw [plus_zero, zero_times ha, plus_zero]
    · rw [restrict_self hb, restrict_self (times_member hb ha)]
  plus_idem _ ha := restrict_self ha

end Restricted

end Sicada.StringWeightExact
