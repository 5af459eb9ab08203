import Sicada.ComposeMoves

set_option linter.unusedSectionVars false

namespace Sicada.ComposeInterleave

open PropertyBits Paths Walk ComposeMoves

variable {L W : Type} [ArcLabel L] [Semiring W] [DecidableEq W] {filter : ArcFilter L W}
  {left right : VectorFst L W}

/- What a sequence of moves takes of the first FST, and what of the second. -/
def firsts (p : List (Move L W)) : List (ℕ × Arc L W) := p.filterMap Prod.fst

def seconds (p : List (Move L W)) : List (ℕ × Arc L W) := p.filterMap Prod.snd

@[simp] theorem firsts_cons_none (o2 : Option (ℕ × Arc L W)) (p : List (Move L W)) :
    firsts ((none, o2) :: p) = firsts p := rfl

@[simp] theorem firsts_cons_some (e1 : ℕ × Arc L W) (o2 : Option (ℕ × Arc L W))
    (p : List (Move L W)) : firsts ((some e1, o2) :: p) = e1 :: firsts p := rfl

@[simp] theorem seconds_cons_none (o1 : Option (ℕ × Arc L W)) (p : List (Move L W)) :
    seconds ((o1, none) :: p) = seconds p := rfl

@[simp] theorem seconds_cons_some (o1 : Option (ℕ × Arc L W)) (e2 : ℕ × Arc L W)
    (p : List (Move L W)) : seconds ((o1, some e2) :: p) = e2 :: seconds p := rfl

def BothFinal (left right : VectorFst L W) (tuple : ComposeStateTuple) : Prop :=
  left.finalWeight tuple.s1 ≠ 0 ∧ right.finalWeight tuple.s2 ≠ 0

/- The sequences of moves the filter allows from a state of the composition to a final one. -/
def movesFrom (filter : ArcFilter L W) (left right : VectorFst L W) (tuple : ComposeStateTuple) :
    Set (List (Move L W)) :=
  acceptedFrom (Enabled filter left right) (nextTuple filter) (BothFinal left right) tuple

variable {e : ℕ × Arc L W} {tuple : ComposeStateTuple}

theorem ostring_cons_of_eps (he : e.2.olabel = epsilon) (p : List (ℕ × Arc L W)) :
    ostring (e :: p) = ostring p := by
  simp [ostring, he]

theorem ostring_cons_of_ne (he : e.2.olabel ≠ epsilon) (p : List (ℕ × Arc L W)) :
    ostring (e :: p) = e.2.olabel :: ostring p := by
  simp [ostring, he]

theorem istring_cons_of_eps (he : e.2.ilabel = epsilon) (p : List (ℕ × Arc L W)) :
    istring (e :: p) = istring p := by
  simp [istring, he]

theorem istring_cons_of_ne (he : e.2.ilabel ≠ epsilon) (p : List (ℕ × Arc L W)) :
    istring (e :: p) = e.2.ilabel :: istring p := by
  simp [istring, he]

theorem firsts_cons (m : Move L W) (p : List (Move L W)) :
    firsts (m :: p) = m.1.toList ++ firsts p := by
  obtain ⟨_ | e1, o2⟩ := m <;> rfl

theorem seconds_cons (m : Move L W) (p : List (Move L W)) :
    seconds (m :: p) = m.2.toList ++ seconds p := by
  obtain ⟨o1, _ | e2⟩ := m <;> rfl

/- A move takes an arc of each path, or stays; what is left meets if all of it does. -/
theorem paths_of_meets (filter : ArcFilter L W) {m : Move L W} (hm : Meets left right tuple m)
    (q1 q2 : List (ℕ × Arc L W)) :
    (m.1.toList ++ q1 ∈ acceptingFrom left tuple.s1 ↔
        q1 ∈ acceptingFrom left (nextTuple filter tuple m).s1) ∧
      (m.2.toList ++ q2 ∈ acceptingFrom right tuple.s2 ↔
        q2 ∈ acceptingFrom right (nextTuple filter tuple m).s2) ∧
      (ostring (m.1.toList ++ q1) = istring (m.2.toList ++ q2) ↔ ostring q1 = istring q2) := by
  obtain ⟨_ | e1, _ | e2⟩ := m
  · exact hm.elim
  · obtain ⟨he2, heps⟩ := hm
    refine ⟨Iff.rfl, ?_, ?_⟩
    · exact cons_mem_acceptingFrom.trans (and_iff_right he2)
    · change ostring q1 = istring (e2 :: q2) ↔ _
      rw [istring_cons_of_eps heps]
  · obtain ⟨he1, heps⟩ := hm
    refine ⟨?_, Iff.rfl, ?_⟩
    · exact cons_mem_acceptingFrom.trans (and_iff_right he1)
    · change ostring (e1 :: q1) = istring q2 ↔ _
      rw [ostring_cons_of_eps heps]
  · obtain ⟨he1, he2, hlabel⟩ := hm
    refine ⟨?_, ?_, ?_⟩
    · exact cons_mem_acceptingFrom.trans (and_iff_right he1)
    · exact cons_mem_acceptingFrom.trans (and_iff_right he2)
    · change ostring (e1 :: q1) = istring (e2 :: q2) ↔ _
      by_cases heps : e1.2.olabel = epsilon
      · rw [ostring_cons_of_eps heps, istring_cons_of_eps (hlabel ▸ heps)]
      · rw [ostring_cons_of_ne heps, istring_cons_of_ne (hlabel ▸ heps), hlabel]
        constructor
        · intro h
          exact (List.cons.inj h).2
        · intro h
          rw [h]

/- The moves of a composed path give a path of each FST, and the two agree on the string they
meet in. -/
theorem split_moves {p : List (Move L W)} (hp : p ∈ movesFrom filter left right tuple) :
    firsts p ∈ acceptingFrom left tuple.s1 ∧ seconds p ∈ acceptingFrom right tuple.s2 ∧
      ostring (firsts p) = istring (seconds p) := by
  induction p generalizing tuple with
  | nil =>
    obtain ⟨h1, h2⟩ := nil_mem_acceptedFrom.mp hp
    exact ⟨nil_mem_acceptingFrom.mpr h1, nil_mem_acceptingFrom.mpr h2, rfl⟩
  | cons m p ih =>
    obtain ⟨hm, hp⟩ := cons_mem_acceptedFrom.mp hp
    obtain ⟨hfirst, hsecond, hmeet⟩ := ih hp
    obtain ⟨h1, h2, hstring⟩ := paths_of_meets filter hm.1 (firsts p) (seconds p)
    rw [firsts_cons, seconds_cons]
    exact ⟨h1.mpr hfirst, h2.mpr hsecond, hstring.mpr hmeet⟩

section Canonical

/- A filter that picks one interleaving: two paths determine the move they must start with, and
what its state stands for never shuts a pair of paths out. -/
structure Canonical (filter : ArcFilter L W) (left right : VectorFst L W) where
  headMove : List (ℕ × Arc L W) → List (ℕ × Arc L W) → Option (Move L W)
  Allows : CharFilterState → List (ℕ × Arc L W) → List (ℕ × Arc L W) → Prop
  headMove_nil : headMove [] [] = none
  allows_nil : ∀ fs, Allows fs [] []
  allows_default : ∀ p1 p2, Allows .default p1 p2
  step : ∀ {tuple : ComposeStateTuple} {m : Move L W} {p1 p2 : List (ℕ × Arc L W)},
    Enabled filter left right tuple m →
      p1 ∈ acceptingFrom left (nextTuple filter tuple m).s1 →
      p2 ∈ acceptingFrom right (nextTuple filter tuple m).s2 →
      Allows (nextFilter filter tuple m) p1 p2 →
      Allows tuple.fs (m.1.toList ++ p1) (m.2.toList ++ p2) ∧
        headMove (m.1.toList ++ p1) (m.2.toList ++ p2) = some m
  take : ∀ {tuple : ComposeStateTuple} {p1 p2 : List (ℕ × Arc L W)},
    p1 ∈ acceptingFrom left tuple.s1 → p2 ∈ acceptingFrom right tuple.s2 →
      ostring p1 = istring p2 → Allows tuple.fs p1 p2 → p1 ≠ [] ∨ p2 ≠ [] →
      ∃ m q1 q2, p1 = m.1.toList ++ q1 ∧ p2 = m.2.toList ++ q2 ∧
        Enabled filter left right tuple m ∧ Allows (nextFilter filter tuple m) q1 q2

variable (canon : Canonical filter left right)

include canon

theorem headMove_eq {p : List (Move L W)} (hp : p ∈ movesFrom filter left right tuple) :
    canon.Allows tuple.fs (firsts p) (seconds p) ∧
      canon.headMove (firsts p) (seconds p) = p.head? := by
  induction p generalizing tuple with
  | nil => exact ⟨canon.allows_nil _, canon.headMove_nil⟩
  | cons m p ih =>
    obtain ⟨hm, hrest⟩ := cons_mem_acceptedFrom.mp hp
    obtain ⟨h1, h2, -⟩ := split_moves hrest
    rw [firsts_cons, seconds_cons]
    exact canon.step hm h1 h2 (ih hrest).1

/- Two paths are interleaved in one way only. -/
theorem split_injective {p q : List (Move L W)} (hp : p ∈ movesFrom filter left right tuple)
    (hq : q ∈ movesFrom filter left right tuple) (hfirst : firsts p = firsts q)
    (hsecond : seconds p = seconds q) : p = q := by
  induction p generalizing tuple q with
  | nil =>
    have hhead := (headMove_eq canon hp).2
    rw [hfirst, hsecond, (headMove_eq canon hq).2] at hhead
    exact (List.head?_eq_none_iff.mp hhead).symm
  | cons m p ih =>
    have hhead := (headMove_eq canon hp).2
    rw [hfirst, hsecond, (headMove_eq canon hq).2, List.head?_cons] at hhead
    obtain ⟨q, rfl⟩ := List.head?_eq_some_iff.mp hhead
    obtain ⟨-, hp⟩ := cons_mem_acceptedFrom.mp hp
    obtain ⟨-, hq⟩ := cons_mem_acceptedFrom.mp hq
    rw [firsts_cons, firsts_cons] at hfirst
    rw [seconds_cons, seconds_cons] at hsecond
    rw [ih hp hq (List.append_cancel_left hfirst) (List.append_cancel_left hsecond)]

theorem interleave_exists {n : ℕ} {p1 p2 : List (ℕ × Arc L W)} (hn : p1.length + p2.length = n)
    (h1 : p1 ∈ acceptingFrom left tuple.s1) (h2 : p2 ∈ acceptingFrom right tuple.s2)
    (hmeet : ostring p1 = istring p2) (hallows : canon.Allows tuple.fs p1 p2) :
    ∃ p ∈ movesFrom filter left right tuple, firsts p = p1 ∧ seconds p = p2 := by
  induction n using Nat.strong_induction_on generalizing tuple p1 p2 with
  | _ n ih =>
    by_cases hne : p1 ≠ [] ∨ p2 ≠ []
    · obtain ⟨m, q1, q2, rfl, rfl, hm, hnext⟩ := canon.take h1 h2 hmeet hallows hne
      obtain ⟨h1', h2', hmeet'⟩ := paths_of_meets filter hm.1 q1 q2
      have hlt : q1.length + q2.length < n := by
        rw [← hn, List.length_append, List.length_append]
        obtain ⟨_ | e1, _ | e2⟩ := m
        · exact hm.1.elim
        · simp
        · simp
        · simp
          omega
      obtain ⟨p, hp, rfl, rfl⟩ := @ih _ hlt (nextTuple filter tuple m) q1 q2 rfl (h1'.mp h1)
        (h2'.mp h2) (hmeet'.mp hmeet) hnext
      exact ⟨m :: p, cons_mem_acceptedFrom.mpr ⟨hm, hp⟩, firsts_cons m p, seconds_cons m p⟩
    · obtain ⟨hnil1, hnil2⟩ := not_or.mp hne
      obtain rfl := not_not.mp hnil1
      obtain rfl := not_not.mp hnil2
      exact ⟨[], nil_mem_acceptedFrom.mpr ⟨nil_mem_acceptingFrom.mp h1,
        nil_mem_acceptingFrom.mp h2⟩, rfl, rfl⟩

/- Every pair of paths that meet is taken apart in one way. -/
theorem split_bijOn (hfs : tuple.fs = .default) :
    Set.BijOn (fun p => (firsts p, seconds p)) (movesFrom filter left right tuple)
      {pq | pq.1 ∈ acceptingFrom left tuple.s1 ∧ pq.2 ∈ acceptingFrom right tuple.s2 ∧
        ostring pq.1 = istring pq.2} := by
  refine ⟨fun p hp => split_moves hp, ?_, ?_⟩
  · intro p hp q hq heq
    obtain ⟨hfirst, hsecond⟩ := Prod.mk.inj heq
    exact split_injective canon hp hq hfirst hsecond
  · rintro ⟨p1, p2⟩ ⟨h1, h2, hmeet⟩
    obtain ⟨p, hp, hfirst, hsecond⟩ := interleave_exists canon rfl h1 h2 hmeet
      (hfs ▸ canon.allows_default p1 p2)
    exact ⟨p, hp, Prod.ext hfirst hsecond⟩

end Canonical

end Sicada.ComposeInterleave
