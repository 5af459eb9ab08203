import Mathlib

namespace Container

variable {S Q : Type*} [DecidableEq S]

/- A collection that hands out again what is put into it, in an order of its own; `none` is a
panic. -/
structure Discipline (S Q : Type*) where
  enqueue : S → Q → Option Q
  dequeue : Q → Option (Option S × Q)
  update : S → Q → Option Q
  clear : Q → Q

/- Nothing is lost and nothing handed out twice, as long as nothing is put in that is there. -/
structure Faithful (d : Discipline S Q) (Known : S → Prop) (Holds : Q → Finset S → Prop) :
    Prop where
  enqueue : ∀ q A s, Holds q A → Known s → s ∉ A →
    ∃ q', d.enqueue s q = some q' ∧ Holds q' (insert s A)
  update : ∀ q A s, Holds q A → s ∈ A → ∃ q', d.update s q = some q' ∧ Holds q' A
  empty : ∀ q, Holds q ∅ → ∃ q', d.dequeue q = some (none, q') ∧ Holds q' ∅
  dequeue : ∀ q A, Holds q A → A.Nonempty →
    ∃ s q', d.dequeue q = some (some s, q') ∧ s ∈ A ∧ Holds q' (A.erase s)
  clear : ∀ q A, Holds q A → Holds (d.clear q) ∅

section Listed

/- The elements of a list, each of which is there once. -/
structure Lists (xs : List S) (A : Finset S) : Prop where
  nodup : xs.Nodup
  mem : ∀ s, s ∈ xs ↔ s ∈ A

variable {xs ys : List S} {A : Finset S} {s : S}

omit [DecidableEq S] in
theorem lists_nil : Lists ([] : List S) ∅ := ⟨List.nodup_nil, fun s => by simp⟩

omit [DecidableEq S] in
theorem Lists.perm (h : Lists xs A) (hperm : ys.Perm xs) : Lists ys A :=
  ⟨hperm.nodup_iff.mpr h.nodup, fun s => (hperm.mem_iff).trans (h.mem s)⟩

theorem Lists.cons (h : Lists xs A) (hs : s ∉ A) : Lists (s :: xs) (insert s A) := by
  refine ⟨List.nodup_cons.mpr ⟨fun hmem => hs ((h.mem s).mp hmem), h.nodup⟩, ?_⟩
  intro t
  rw [List.mem_cons, Finset.mem_insert, h.mem]

theorem Lists.tail (h : Lists (s :: xs) A) : s ∈ A ∧ Lists xs (A.erase s) := by
  obtain ⟨hnot, hnodup⟩ := List.nodup_cons.mp h.nodup
  refine ⟨(h.mem s).mp List.mem_cons_self, hnodup, ?_⟩
  intro t
  rw [Finset.mem_erase, ← h.mem, List.mem_cons]
  constructor
  · intro ht
    refine ⟨?_, Or.inr ht⟩
    rintro rfl
    exact hnot ht
  · rintro ⟨hne, rfl | ht⟩
    · exact absurd rfl hne
    · exact ht

omit [DecidableEq S] in
theorem Lists.nil_of_empty (h : Lists xs ∅) : xs = [] := by
  apply List.eq_nil_iff_forall_not_mem.mpr
  intro s hs
  exact absurd ((h.mem s).mp hs) (Finset.notMem_empty s)

omit [DecidableEq S] in
theorem Lists.ne_nil (h : Lists xs A) (hA : A.Nonempty) : xs ≠ [] := by
  rintro rfl
  obtain ⟨s, hs⟩ := hA
  exact absurd ((h.mem s).mpr hs) List.not_mem_nil

end Listed

section Windows

/- The first number from `front` up to `back` at which something is. -/
def nextIn (p : ℕ → Bool) (front back : ℕ) : ℕ :=
  ((List.range' front (back - front)).find? p).getD (max front back)

variable {p : ℕ → Bool} {front back : ℕ}

variable (p front back) in
theorem nextIn_spec : front ≤ nextIn p front back ∧ (∀ i, front ≤ i → i < nextIn p front back →
    p i = false) ∧ (nextIn p front back < back → p (nextIn p front back) = true) := by
  unfold nextIn
  cases hfind : (List.range' front (back - front)).find? p with
  | none =>
    rw [Option.getD_none]
    refine ⟨le_max_left _ _, ?_, fun h => absurd h (not_lt.mpr (le_max_right _ _))⟩
    intro i hfront hback
    have hnone := List.find?_eq_none.mp hfind i (by
      rw [List.mem_range'_1]
      omega)
    simpa using hnone
  | some j =>
    rw [Option.getD_some]
    obtain ⟨hj, before, after, hsplit, hbefore⟩ := List.find?_eq_some_iff_append.mp hfind
    have hmem : j ∈ List.range' front (back - front) := by
      rw [hsplit]
      simp
    have hmem' := List.mem_range'_1.mp hmem
    refine ⟨hmem'.1, ?_, fun _ => hj⟩
    intro i hfront hlt
    have hi : i ∈ before ++ j :: after := by
      rw [← hsplit, List.mem_range'_1]
      omega
    have hsorted : (before ++ j :: after).Pairwise (· < ·) := hsplit ▸ List.pairwise_lt_range'
    rcases List.mem_append.mp hi with hi | hi
    · simpa using hbefore i hi
    · rcases List.mem_cons.mp hi with rfl | hi
      · exact absurd hlt (lt_irrefl _)
      · have hafter := (List.pairwise_cons.mp (List.pairwise_append.mp hsorted).2.1).1 i hi
        omega

theorem nextIn_le (hle : front ≤ back) : nextIn p front back ≤ back := by
  unfold nextIn
  cases hfind : (List.range' front (back - front)).find? p with
  | none => exact (max_eq_right hle).le
  | some j =>
    have hmem := List.mem_range'_1.mp (List.mem_of_find?_eq_some hfind)
    rw [Option.getD_some]
    omega

end Windows

end Container

namespace LinkedList

variable {κ α : Type*} {node node' : κ → Option α} {next prev : α → Option κ}

/- A stretch of a doubly linked list: the nodes in order, what comes before the first of them and
what comes after the last. -/
def Segment (node : κ → Option α) (next prev : α → Option κ) :
    Option κ → List κ → Option κ → Prop
  | _, [], _ => True
  | before, k :: ks, after =>
    (∃ a, node k = some a ∧ prev a = before ∧ next a = ks.head?.or after) ∧
      Segment node next prev (some k) ks after

theorem segment_append {before after : Option κ} {xs ys : List κ} :
    Segment node next prev before (xs ++ ys) after ↔
      Segment node next prev before xs (ys.head?.or after) ∧
        Segment node next prev (xs.getLast?.or before) ys after := by
  induction xs generalizing before with
  | nil => simp [Segment]
  | cons x xs ih =>
    rw [List.cons_append, Segment, Segment, ih, List.head?_append, Option.or_assoc, and_assoc]
    cases xs with
    | nil => simp
    | cons y ys =>
      have hlast := List.getLast?_eq_some_getLast (List.cons_ne_nil y ys)
      rw [List.getLast?_cons_cons, hlast, Option.some_or, Option.some_or]

/- Nothing but the links of its own nodes matters to a stretch. -/
theorem segment_congr {before after : Option κ} {ks : List κ}
    (hsame : ∀ k ∈ ks, ∀ a, node k = some a → ∃ b, node' k = some b ∧ prev b = prev a ∧
      next b = next a)
    (h : Segment node next prev before ks after) : Segment node' next prev before ks after := by
  induction ks generalizing before with
  | nil => trivial
  | cons k ks ih =>
    obtain ⟨⟨a, ha, hprev, hnext⟩, hrest⟩ := h
    obtain ⟨b, hb, hprev', hnext'⟩ := hsame k List.mem_cons_self a ha
    refine ⟨⟨b, hb, hprev'.trans hprev, hnext'.trans hnext⟩, ?_⟩
    exact ih (fun x hx => hsame x (List.mem_cons_of_mem _ hx)) hrest

/- The last node is hung on to something else. -/
theorem segment_relink_last {before after after' : Option κ} {ks : List κ} {k : κ}
    (hothers : ∀ x ∈ ks, node' x = node x)
    (hlast : ∀ a, node k = some a → ∃ b, node' k = some b ∧ prev b = prev a ∧ next b = after')
    (h : Segment node next prev before (ks ++ [k]) after) :
    Segment node' next prev before (ks ++ [k]) after' := by
  rw [segment_append] at h ⊢
  obtain ⟨hks, ⟨a, ha, hprev, -⟩, -⟩ := h
  refine ⟨?_, ?_, trivial⟩
  · refine segment_congr ?_ hks
    intro x hx a ha
    exact ⟨a, (hothers x hx).trans ha, rfl, rfl⟩
  · obtain ⟨b, hb, hprev', hnext⟩ := hlast a ha
    exact ⟨b, hb, hprev'.trans hprev, by simpa using hnext⟩

/- The first node is hung on to something else. -/
theorem segment_relink_first {before before' after : Option κ} {ks : List κ} {k : κ}
    (hothers : ∀ x ∈ ks, node' x = node x)
    (hfirst : ∀ a, node k = some a → ∃ b, node' k = some b ∧ prev b = before' ∧ next b = next a)
    (h : Segment node next prev before (k :: ks) after) :
    Segment node' next prev before' (k :: ks) after := by
  obtain ⟨⟨a, ha, -, hnext⟩, hrest⟩ := h
  obtain ⟨b, hb, hprev, hnext'⟩ := hfirst a ha
  refine ⟨⟨b, hb, hprev, hnext'.trans hnext⟩, segment_congr ?_ hrest⟩
  intro x hx a ha
  exact ⟨a, (hothers x hx).trans ha, rfl, rfl⟩

end LinkedList
