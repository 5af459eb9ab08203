import Sicada.ImplicitMatchers
import Sicada.MatcherExact

namespace Sicada.PhiExact

open Cursor Matcher MatcherExact

variable {L W M : Type} [ArcLabel L] [Monoid W]

/- The phi arc of a state. -/
def phiArc (fst : VectorFst L W) (matchType : MatchType) (phi : L) (s : ℕ) : Option (Arc L W) :=
  if phi = noLabel then none else (labelled fst matchType s phi).head?

variable {s : ℕ}

section Following

variable (fst : VectorFst L W) (matchType : MatchType) (phi : L) (phiLoop : Bool) (label : L)

/- The state has the label, or a phi self-loop that stands for it. -/
def Matches (s : ℕ) : Prop :=
  labelled fst matchType s label ≠ [] ∨
    phiLoop = true ∧ ∃ arc, phiArc fst matchType phi s = some arc ∧ arc.nextstate = s

/- No phi arc is followed from the state: it matches, or has none. -/
def Ends (s : ℕ) : Prop :=
  Matches fst matchType phi phiLoop label s ∨ phiArc fst matchType phi s = none

/- The phi arcs followed from one state to another, and the product of their weights. -/
inductive Followed : ℕ → ℕ → W → Prop
  | here (s : ℕ) : Followed s s 1
  | step {s t : ℕ} {arc : Arc L W} {w : W} (hs : ¬ Ends fst matchType phi phiLoop label s)
      (harc : phiArc fst matchType phi s = some arc) (hrest : Followed arc.nextstate t w) :
      Followed s t (arc.weight * w)

/- The arcs a state answers with, after phi arcs of weight `w`. -/
def handed (rewriteBoth : Bool) (t : ℕ) (w : W) : List (Arc L W) :=
  if labelled fst matchType t label = [] then
    (phiArc fst matchType phi t).toList.map fun arc =>
      { rewrite arc phi label rewriteBoth matchType with weight := w * arc.weight }
  else (labelled fst matchType t label).map fun arc => { arc with weight := w * arc.weight }

variable {fst matchType phi phiLoop label}

/- Where it ends is settled by where it starts. -/
theorem followed_unique {t t' : ℕ} {w w' : W} (h : Followed fst matchType phi phiLoop label s t w)
    (h' : Followed fst matchType phi phiLoop label s t' w')
    (ht : Ends fst matchType phi phiLoop label t) (ht' : Ends fst matchType phi phiLoop label t') :
    t = t' ∧ w = w' := by
  induction h generalizing w' with
  | here s =>
    cases h' with
    | here => exact ⟨rfl, rfl⟩
    | step hs => exact absurd ht hs
  | step hs harc hrest ih =>
    cases h' with
    | here => exact absurd ht' hs
    | step hs' harc' hrest' =>
      rw [harc] at harc'
      cases harc'
      obtain ⟨rfl, rfl⟩ := ih hrest' ht
      exact ⟨rfl, rfl⟩

end Following

section Search

variable [DecidableEq W] {fst : VectorFst L W} {matchType : MatchType}
  {h : Handle ℕ L (Arc L W) M} {Valid : M → Prop} {At : M → ℕ → Prop}
  {Left : M → ℕ → List (Arc L W) → Prop} {m : PhiMatcher L W M} {label : L}

/- The labels a phi arc may stand for. -/
structure Ordinary (phi label : L) : Prop where
  ne_epsilon : label ≠ epsilon
  ne_noLabel : label ≠ noLabel
  ne_phi : label ≠ phi

theorem answer_ordinary (hne : label ≠ epsilon) (hno : label ≠ noLabel) (s : ℕ) :
    answer fst matchType s label = labelled fst matchType s label := by
  unfold answer queried
  rw [if_neg hne, if_neg hno, List.nil_append]

theorem answer_searchPhi (hphi : m.phiLabel ≠ noLabel) (s : ℕ) :
    answer fst matchType s m.searchPhi = labelled fst matchType s m.phiLabel := by
  unfold PhiMatcher.searchPhi
  by_cases heps : m.phiLabel = epsilon
  · rw [if_pos heps, answer, if_neg (fun heq => ArcLabel.epsilon_ne_noLabel heq.symm), queried, if_pos rfl,
      heps, List.nil_append]
  · rw [if_neg heps, answer_ordinary heps hphi]

/- What a call says of a phi matcher that keeps to its options. -/
def scaled (w : W) (arc : Arc L W) : Arc L W := { arc with weight := w * arc.weight }

theorem value_scaled (hmatch : m.phiMatch = noLabel) :
    m.value h = (h.value m.matcher).map (scaled m.phiWeight) := by
  unfold PhiMatcher.value
  by_cases hone : m.phiWeight = 1
  · rw [if_pos ⟨hmatch, hone⟩]
    cases h.value m.matcher with
    | none => rfl
    | some arc => simp [scaled, hone]
  · have hne : ¬ m.phiMatch = epsilon := by
      rw [hmatch]
      exact ArcLabel.epsilon_ne_noLabel.symm
    rw [if_neg (fun hboth => hone hboth.2), if_neg hne]
    simp only [if_pos hmatch]
    rfl

theorem yields_scaled (hl : Lawful h (answer fst matchType) Valid At Left) {rest : List (Arc L W)}
    (hleft : Left m.matcher s rest) (hmatch : m.phiMatch = noLabel) :
    Yields (PhiMatcher.done h) (PhiMatcher.value h) (fun m => some (PhiMatcher.next h m)) m
      (rest.map (scaled m.phiWeight)) := by
  apply hl.yields_map (fun n => n.phiMatch = noLabel ∧ n.phiWeight = m.phiWeight) _ _ _
    ⟨hmatch, rfl⟩ hleft
  · exact fun n _ => rfl
  · intro n hn
    rw [value_scaled hn.1, hn.2]
  · exact fun n hn => ⟨_, rfl, hn, rfl⟩

@[simp] theorem orPanic_some {α : Type} (a : α) : orPanic (some a) = .ok a := rfl

@[simp] theorem ok_bind {α β : Type} (a : α) (f : α → Except Stop β) : (Except.ok a >>= f) = f a := rfl

/- At a state where no phi arc is followed the loop is left. -/
theorem follow_of_ends (hl : Lawful h (answer fst matchType) Valid At Left)
    (hphi : m.phiLabel ≠ noLabel) (hone : ∀ s, (labelled fst matchType s m.phiLabel).length ≤ 1)
    (hlabel : Ordinary m.phiLabel label) (htype : m.matchType = matchType)
    (hmatch : m.phiMatch = noLabel) (hat : At m.matcher s)
    (hends : Ends fst matchType m.phiLabel m.phiLoop label s) (fuel : ℕ) :
    ∃ r, PhiMatcher.follow h label (fuel + 1) s m = .ok r ∧
      (r.1 = true ↔ Matches fst matchType m.phiLabel m.phiLoop label s) ∧
      (Matches fst matchType m.phiLabel m.phiLoop label s →
        Yields (PhiMatcher.done h) (PhiMatcher.value h) (fun m => some (PhiMatcher.next h m)) r.2
          (handed fst matchType m.phiLabel label m.rewriteBoth s m.phiWeight)) := by
  obtain ⟨x, hfind, hleft⟩ := hl.find m.matcher s label hat
  rw [answer_ordinary hlabel.ne_epsilon hlabel.ne_noLabel] at hfind hleft
  unfold PhiMatcher.follow
  rw [hfind]
  by_cases hnone : labelled fst matchType s label = []
  · obtain ⟨y, hfind', hleft'⟩ := hl.find x s m.searchPhi (hl.left x s _ hleft)
    rw [answer_searchPhi hphi] at hfind' hleft'
    have harc : phiArc fst matchType m.phiLabel s =
        (labelled fst matchType s m.phiLabel).head? := if_neg hphi
    cases hphis : labelled fst matchType s m.phiLabel with
    | nil =>
      rw [hphis] at hfind' harc
      refine ⟨(false, { m with matcher := y }), ?_, ?_, ?_⟩
      · simp [hnone, hfind', pure, Except.pure]
      · have hnot : ¬ Matches fst matchType m.phiLabel m.phiLoop label s := by
          rintro (hsome | ⟨-, arc, hsome, -⟩)
          · exact hsome hnone
          · rw [harc] at hsome
            cases hsome
        simp [hnot]
      · rintro (hsome | ⟨-, arc, hsome, -⟩)
        · exact absurd hnone hsome
        · rw [harc] at hsome
          cases hsome
    | cons arc arcs =>
      have harcs : arcs = [] := by
        have hlength := hone s
        rw [hphis, List.length_cons] at hlength
        exact List.eq_nil_of_length_eq_zero (by omega)
      subst harcs
      rw [hphis] at hfind' harc hleft'
      have hmatches : Matches fst matchType m.phiLabel m.phiLoop label s := by
        rcases hends with hmatches | hno
        · exact hmatches
        · rw [harc] at hno
          cases hno
      have hloop : m.phiLoop = true ∧ arc.nextstate = s := by
        rcases hmatches with hsome | ⟨hloop, arc', hsome, hnext⟩
        · exact absurd hnone hsome
        · rw [harc] at hsome
          cases hsome
          exact ⟨hloop, hnext⟩
      have hvalue := hl.value y s arc [] hleft'
      refine ⟨(true, { m with matcher := y, phiMatch := label }), ?_, by simp [hmatches], ?_⟩
      · simp [hnone, hfind', hvalue, hloop.1, hloop.2, pure, Except.pure]
      · intro _
        rw [handed, if_pos hnone, harc]
        refine .cons (hl.done y s _ hleft') ?_ rfl (.nil (hl.done _ s [] (hl.next y s _ hleft')))
        unfold PhiMatcher.value
        dsimp only
        rw [if_neg (fun hboth => hlabel.ne_noLabel hboth.1), if_neg hlabel.ne_epsilon, hvalue, htype]
        simp only [if_neg hlabel.ne_noLabel]
        rfl
  · refine ⟨(true, { m with matcher := x }), ?_, ?_, ?_⟩
    · have hfound : (!(labelled fst matchType s label).isEmpty) = true := by
        simpa using hnone
      simp [hfound, pure, Except.pure]
    · simp [Matches, hnone]
    · intro _
      rw [handed, if_neg hnone]
      exact yields_scaled (m := { m with matcher := x }) hl hleft hmatch

/- Elsewhere the loop goes round, and its weight takes in that of the phi arc. -/
theorem follow_of_step (hl : Lawful h (answer fst matchType) Valid At Left)
    (hlabel : Ordinary m.phiLabel label) (hat : At m.matcher s)
    (hends : ¬ Ends fst matchType m.phiLabel m.phiLoop label s) {arc : Arc L W}
    (harc : phiArc fst matchType m.phiLabel s = some arc) :
    ∃ x e, At x arc.nextstate ∧ ∀ fuel, PhiMatcher.follow h label (fuel + 1) s m =
      PhiMatcher.follow h label fuel arc.nextstate
        { m with matcher := x, phiWeight := m.phiWeight * arc.weight, error := e } := by
  have hphi : m.phiLabel ≠ noLabel := by
    intro heq
    rw [phiArc, if_pos heq] at harc
    cases harc
  have hnone : labelled fst matchType s label = [] := by
    by_contra hsome
    exact hends (.inl (.inl hsome))
  have hnot : ¬ (m.phiLoop = true ∧ arc.nextstate = s) := by
    rintro ⟨hloop, hnext⟩
    exact hends (.inl (.inr ⟨hloop, arc, harc, hnext⟩))
  rw [phiArc, if_neg hphi] at harc
  obtain ⟨arcs, hphis⟩ := List.head?_eq_some_iff.mp harc
  obtain ⟨x, hfind, hleft⟩ := hl.find m.matcher s label hat
  rw [answer_ordinary hlabel.ne_epsilon hlabel.ne_noLabel] at hfind hleft
  obtain ⟨y, hfind', hleft'⟩ := hl.find x s m.searchPhi (hl.left x s _ hleft)
  rw [answer_searchPhi hphi, hphis] at hfind' hleft'
  have hvalue := hl.value y s arc arcs hleft'
  have hnext := hl.next y s _ hleft'
  have hdone := hl.done _ s _ hnext
  refine ⟨h.setState arc.nextstate (h.next y), m.error || !(arc :: arcs).tail.isEmpty,
    hl.setState _ _ (hl.valid _ s (hl.left _ s _ hnext)), fun fuel => ?_⟩
  rw [PhiMatcher.follow, hfind]
  simp [hnone, hfind', hvalue, hdone, hnot]

/- What the search comes to, when it comes to an end. -/
structure Outcome (fst : VectorFst L W) (matchType : MatchType) (h : Handle ℕ L (Arc L W) M)
    (m : PhiMatcher L W M) (label : L) (t : ℕ) (w : W) (r : Bool × PhiMatcher L W M) : Prop where
  ends : Ends fst matchType m.phiLabel m.phiLoop label t
  found : r.1 = true ↔ Matches fst matchType m.phiLabel m.phiLoop label t
  yields : Matches fst matchType m.phiLabel m.phiLoop label t →
    Yields (PhiMatcher.done h) (PhiMatcher.value h) (fun m => some (PhiMatcher.next h m)) r.2
      (handed fst matchType m.phiLabel label m.rewriteBoth t w)

theorem follow_spec (hl : Lawful h (answer fst matchType) Valid At Left)
    (hphi : m.phiLabel ≠ noLabel) (hone : ∀ s, (labelled fst matchType s m.phiLabel).length ≤ 1)
    (hlabel : Ordinary m.phiLabel label) (htype : m.matchType = matchType)
    (hmatch : m.phiMatch = noLabel) {t : ℕ} {w : W} (hat : At m.matcher s)
    (hfollowed : Followed fst matchType m.phiLabel m.phiLoop label s t w)
    (hends : Ends fst matchType m.phiLabel m.phiLoop label t) :
    ∃ fuel r, PhiMatcher.follow h label fuel s m = .ok r ∧
      Outcome fst matchType h m label t (m.phiWeight * w) r := by
  generalize hphiEq : m.phiLabel = phi at hfollowed
  generalize hloopEq : m.phiLoop = phiLoop at hfollowed
  induction hfollowed generalizing m with
  | here s =>
    obtain ⟨r, hrun, hfound, hyields⟩ :=
      follow_of_ends hl hphi hone hlabel htype hmatch hat hends 0
    refine ⟨1, r, hrun, hends, hfound, ?_⟩
    rw [mul_one]
    exact hyields
  | @step s t arc w hs harc hrest ih =>
    subst hphiEq hloopEq
    obtain ⟨x, e, hat', hnext⟩ := follow_of_step hl hlabel hat hs harc
    let m' : PhiMatcher L W M :=
      { m with matcher := x, phiWeight := m.phiWeight * arc.weight, error := e }
    obtain ⟨fuel, r, hrun, hends', hfound, hyields⟩ :=
      ih (m := m') hphi hone hlabel htype hmatch hat' hends rfl rfl
    refine ⟨fuel + 1, r, (hnext fuel).trans hrun, hends', hfound, ?_⟩
    rw [← mul_assoc]
    exact hyields

theorem ends_of_follow (hl : Lawful h (answer fst matchType) Valid At Left)
    (hlabel : Ordinary m.phiLabel label) {fuel : ℕ} (hat : At m.matcher s)
    {r : Bool × PhiMatcher L W M} (hrun : PhiMatcher.follow h label fuel s m = .ok r) :
    ∃ t w, Followed fst matchType m.phiLabel m.phiLoop label s t w ∧
      Ends fst matchType m.phiLabel m.phiLoop label t := by
  induction fuel generalizing s m with
  | zero => cases hrun
  | succ fuel ih =>
    by_cases hends : Ends fst matchType m.phiLabel m.phiLoop label s
    · exact ⟨s, 1, .here s, hends⟩
    · cases harc : phiArc fst matchType m.phiLabel s with
      | none => exact absurd (.inr harc) hends
      | some arc =>
        obtain ⟨x, e, hat', hnext⟩ := follow_of_step hl hlabel hat hends harc
        rw [hnext] at hrun
        let m' : PhiMatcher L W M :=
          { m with matcher := x, phiWeight := m.phiWeight * arc.weight, error := e }
        obtain ⟨t, w, hfollowed, ht⟩ := ih (m := m') hlabel hat' hrun
        exact ⟨t, _, .step hends harc hfollowed, ht⟩

/- Where the phi arcs have no end, neither has the loop. -/
theorem follow_endless (hl : Lawful h (answer fst matchType) Valid At Left)
    (hlabel : Ordinary m.phiLabel label) (hat : At m.matcher s)
    (hendless : ∀ t (w : W), Followed fst matchType m.phiLabel m.phiLoop label s t w →
      ¬ Ends fst matchType m.phiLabel m.phiLoop label t) (fuel : ℕ) :
    PhiMatcher.follow h label fuel s m = .error .endless := by
  induction fuel generalizing s m with
  | zero => rfl
  | succ fuel ih =>
    have hends := hendless s 1 (.here s)
    cases harc : phiArc fst matchType m.phiLabel s with
    | none => exact absurd (.inr harc) hends
    | some arc =>
      obtain ⟨x, e, hat', hnext⟩ := follow_of_step hl hlabel hat hends harc
      let m' : PhiMatcher L W M :=
        { m with matcher := x, phiWeight := m.phiWeight * arc.weight, error := e }
      rw [hnext]
      exact ih (m := m') hlabel hat' fun t w hrest => hendless t _ (.step hends harc hrest)

/- What a phi matcher keeps through its calls. -/
structure Kept (Valid : M → Prop) (m₀ m : PhiMatcher L W M) : Prop where
  valid : Valid m.matcher
  matchType : m.matchType = m₀.matchType
  phiLabel : m.phiLabel = m₀.phiLabel
  phiLoop : m.phiLoop = m₀.phiLoop
  rewriteBoth : m.rewriteBoth = m₀.rewriteBoth
  hasPhi : ∀ s, m.state = some s → m.hasPhi = decide (m.phiLabel ≠ noLabel)

/- The matchers there are after some calls. -/
inductive Reached (h : Handle ℕ L (Arc L W) M) (m₀ : PhiMatcher L W M) : PhiMatcher L W M → Prop
  | new : Reached h m₀ m₀
  | setState {m : PhiMatcher L W M} (state : ℕ) (hm : Reached h m₀ m) :
      Reached h m₀ (m.setState h state)
  | find {m m' : PhiMatcher L W M} {fuel : ℕ} {label : L} {found : Bool} (hm : Reached h m₀ m)
      (hfind : m.find h fuel label = .ok (found, m')) : Reached h m₀ m'
  | next {m : PhiMatcher L W M} (hm : Reached h m₀ m) : Reached h m₀ (m.next h)
  | priority {m m' : PhiMatcher L W M} {state : ℕ} {p : ℤ} (hm : Reached h m₀ m)
      (hpriority : m.priority h state = some (p, m')) : Reached h m₀ m'

theorem orPanic_bind {α β : Type} {x : Option α} {f : α → Except Stop β} {r : β}
    (hrun : (orPanic x >>= f) = .ok r) : ∃ a, x = some a ∧ f a = .ok r := by
  cases x with
  | none => cases hrun
  | some a => exact ⟨a, rfl, hrun⟩

variable {m₀ m' : PhiMatcher L W M}

theorem kept_follow (hl : Lawful h (answer fst matchType) Valid At Left) {fuel : ℕ}
    (hm : Kept Valid m₀ m) {found : Bool}
    (hrun : PhiMatcher.follow h label fuel s m = .ok (found, m')) :
    Kept Valid m₀ m' ∧ m'.state = m.state := by
  induction fuel generalizing s m with
  | zero => cases hrun
  | succ fuel ih =>
    obtain ⟨⟨first, x⟩, hfind, hrun⟩ := orPanic_bind hrun
    have hx := hl.findValid _ _ _ _ hm.valid hfind
    dsimp only at hrun
    split at hrun
    · cases hrun
      exact ⟨⟨hx, hm.matchType, hm.phiLabel, hm.phiLoop, hm.rewriteBoth, hm.hasPhi⟩, rfl⟩
    obtain ⟨⟨second, y⟩, hfind', hrun⟩ := orPanic_bind hrun
    have hy := hl.findValid _ _ _ _ hx hfind'
    dsimp only at hrun
    split at hrun
    · cases hrun
      exact ⟨⟨hy, hm.matchType, hm.phiLabel, hm.phiLoop, hm.rewriteBoth, hm.hasPhi⟩, rfl⟩
    obtain ⟨val, -, hrun⟩ := orPanic_bind hrun
    split at hrun
    · cases hrun
      exact ⟨⟨hy, hm.matchType, hm.phiLabel, hm.phiLoop, hm.rewriteBoth, hm.hasPhi⟩, rfl⟩
    obtain ⟨finished, -, hrun⟩ := orPanic_bind hrun
    have hz := hl.setValid val.nextstate (hl.nextValid y hy)
    let next : PhiMatcher L W M := { m with
      matcher := h.setState val.nextstate (h.next y)
      phiWeight := m.phiWeight * val.weight
      error := m.error || !finished }
    have hnext : Kept Valid m₀ next :=
      ⟨hz, hm.matchType, hm.phiLabel, hm.phiLoop, hm.rewriteBoth, hm.hasPhi⟩
    exact ih (m := next) hnext hrun

theorem kept_find (hl : Lawful h (answer fst matchType) Valid At Left) {fuel : ℕ}
    (hm : Kept Valid m₀ m) {found : Bool} (hrun : m.find h fuel label = .ok (found, m')) :
    Kept Valid m₀ m' := by
  unfold PhiMatcher.find at hrun
  split at hrun
  · cases hrun
    exact ⟨hm.valid, hm.matchType, hm.phiLabel, hm.phiLoop, hm.rewriteBoth, hm.hasPhi⟩
  obtain ⟨state, -, hrun⟩ := orPanic_bind hrun
  have hset := hl.setValid state hm.valid
  have hkept : ∀ x n, Valid x → Kept Valid m₀
      { m with matcher := x, phiMatch := n, phiWeight := 1 } := fun x n hx =>
    ⟨hx, hm.matchType, hm.phiLabel, hm.phiLoop, hm.rewriteBoth, hm.hasPhi⟩
  dsimp only at hrun
  split at hrun
  · cases hrun
    exact hkept _ _ hset
  split at hrun
  · obtain ⟨⟨first, x⟩, hfind, hrun⟩ := orPanic_bind hrun
    have hx := hl.findValid _ _ _ _ hset hfind
    dsimp only at hrun
    split at hrun
    · cases hrun
      exact hkept _ _ hx
    obtain ⟨⟨second, y⟩, hfind', hrun⟩ := orPanic_bind hrun
    cases hrun
    exact hkept _ _ (hl.findValid _ _ _ _ hx hfind')
  split at hrun
  · obtain ⟨⟨first, x⟩, hfind, hrun⟩ := orPanic_bind hrun
    cases hrun
    exact hkept _ _ (hl.findValid _ _ _ _ hset hfind)
  · exact (kept_follow hl (hkept _ noLabel hset) hrun).1

theorem kept_of_reached (hl : Lawful h (answer fst matchType) Valid At Left)
    (hm₀ : Kept Valid m₀ m₀) (hm : Reached h m₀ m) : Kept Valid m₀ m := by
  induction hm with
  | new => exact hm₀
  | setState state hm ih =>
    unfold PhiMatcher.setState
    split
    · exact ih
    · exact ⟨hl.setValid state ih.valid, ih.matchType, ih.phiLabel, ih.phiLoop,
        ih.rewriteBoth, fun _ _ => rfl⟩
  | find hm hfind ih => exact kept_find hl ih hfind
  | next hm ih =>
    exact ⟨hl.nextValid _ ih.valid, ih.matchType, ih.phiLabel, ih.phiLoop, ih.rewriteBoth, ih.hasPhi⟩
  | priority hm hpriority ih =>
    unfold PhiMatcher.priority at hpriority
    split at hpriority
    · cases hpriority
      exact ih
    · obtain ⟨⟨hasPhi, x⟩, hfind, hresult⟩ := Option.map_eq_some_iff.mp hpriority
      cases hresult
      exact ⟨hl.findValid _ _ _ _ (hl.setValid _ ih.valid) hfind, ih.matchType, ih.phiLabel, ih.phiLoop,
        ih.rewriteBoth, ih.hasPhi⟩

/- From a state a search for an ordinary label is the loop. -/
theorem find_eq_follow (hlabel : Ordinary m.phiLabel label) (hphi : m.phiLabel ≠ noLabel)
    (hstate : m.state = some s) (hhas : m.hasPhi = decide (m.phiLabel ≠ noLabel)) (fuel : ℕ) :
    m.find h fuel label = PhiMatcher.follow h label fuel s
      { m with matcher := h.setState s m.matcher, phiMatch := noLabel, phiWeight := 1 } := by
  unfold PhiMatcher.find
  rw [if_neg (fun hall => hlabel.ne_phi hall.1), hstate]
  have hgo : ¬ ((!m.hasPhi) = true ∨ label = epsilon ∨ label = noLabel) := by
    rintro (hnone | heq | heq)
    · rw [hhas] at hnone
      simp [hphi] at hnone
    · exact hlabel.ne_epsilon heq
    · exact hlabel.ne_noLabel heq
  simp only [orPanic_some, ok_bind, if_neg (fun hall : _ ∧ label = noLabel => hlabel.ne_noLabel hall.2),
    if_neg (fun hall : _ ∧ label = epsilon => hlabel.ne_epsilon hall.2), if_neg hgo]

/- Where no arc is a phi arc the inner matcher is asked. -/
theorem find_of_noLabel (hl : Lawful h (answer fst matchType) Valid At Left)
    (hlabel : Ordinary m.phiLabel label) (hphi : m.phiLabel = noLabel) (hstate : m.state = some s)
    (hhas : m.hasPhi = decide (m.phiLabel ≠ noLabel)) (hvalid : Valid m.matcher) (fuel : ℕ) :
    ∃ r, m.find h fuel label = .ok r ∧ Outcome fst matchType h m label s 1 r := by
  have hnophi : phiArc fst matchType m.phiLabel s = none := if_pos hphi
  have hmatches : Matches fst matchType m.phiLabel m.phiLoop label s ↔
      labelled fst matchType s label ≠ [] := by
    refine ⟨?_, .inl⟩
    rintro (hsome | ⟨-, arc, hsome, -⟩)
    · exact hsome
    · rw [hnophi] at hsome
      cases hsome
  obtain ⟨x, hfind, hleft⟩ := hl.find _ s label (hl.setState _ s hvalid)
  rw [answer_ordinary hlabel.ne_epsilon hlabel.ne_noLabel] at hfind hleft
  let m' : PhiMatcher L W M := { m with matcher := x, phiMatch := noLabel, phiWeight := 1 }
  refine ⟨(!(labelled fst matchType s label).isEmpty, m'), ?_, .inr hnophi, ?_, ?_⟩
  · have hstop : (!m.hasPhi) = true := by
      rw [hhas]
      simp [hphi]
    have hdirect : (!m.hasPhi) = true ∨ label = epsilon ∨ label = noLabel := .inl hstop
    unfold PhiMatcher.find
    rw [if_neg (fun hall => hlabel.ne_phi hall.1), hstate]
    simp only [orPanic_some, ok_bind, hfind,
      if_neg (fun hall : _ ∧ label = noLabel => hlabel.ne_noLabel hall.2),
      if_neg (fun hall : _ ∧ label = epsilon => hlabel.ne_epsilon hall.2), if_pos hdirect]
    change Except.ok (!(labelled fst matchType s label).isEmpty, { m' with state := some s }) = _
    rw [← hstate]
  · rw [hmatches]
    simp
  · intro hsome
    rw [handed, if_neg (hmatches.mp hsome)]
    exact yields_scaled (m := m') hl hleft rfl

/- A search that comes to an end, with what it should come to: it succeeds when the phi arcs
followed lead to a state that matches, and hands out that state's arcs. -/
def FindsRight (fst : VectorFst L W) (matchType : MatchType) (h : Handle ℕ L (Arc L W) M)
    (m : PhiMatcher L W M) (s : ℕ) (label : L) : Prop :=
  ∃ fuel r, m.find h fuel label = .ok r ∧
    (r.1 = true ↔ ∃ t w, Followed fst matchType m.phiLabel m.phiLoop label s t w ∧
      Matches fst matchType m.phiLabel m.phiLoop label t) ∧
    ∀ t w, Followed fst matchType m.phiLabel m.phiLoop label s t w →
      Matches fst matchType m.phiLabel m.phiLoop label t →
      Yields (PhiMatcher.done h) (PhiMatcher.value h) (fun m => some (PhiMatcher.next h m)) r.2
        (handed fst matchType m.phiLabel label m.rewriteBoth t w)

theorem findsRight_of_outcome {t fuel : ℕ} {w : W} {r : Bool × PhiMatcher L W M}
    (hrun : m.find h fuel label = .ok r)
    (hfollowed : Followed fst matchType m.phiLabel m.phiLoop label s t w)
    (ho : Outcome fst matchType h m label t w r) : FindsRight fst matchType h m s label := by
  refine ⟨fuel, r, hrun, ?_, ?_⟩
  · rw [ho.found]
    constructor
    · intro hmatches
      exact ⟨t, w, hfollowed, hmatches⟩
    · rintro ⟨t', w', hfollowed', hmatches⟩
      obtain ⟨rfl, rfl⟩ := followed_unique hfollowed hfollowed' ho.ends (.inl hmatches)
      exact hmatches
  · intro t' w' hfollowed' hmatches
    obtain ⟨rfl, rfl⟩ := followed_unique hfollowed hfollowed' ho.ends (.inl hmatches)
    exact ho.yields hmatches

theorem findsRight_iff (hl : Lawful h (answer fst matchType) Valid At Left)
    (hone : m.phiLabel ≠ noLabel → ∀ s, (labelled fst matchType s m.phiLabel).length ≤ 1)
    (hlabel : Ordinary m.phiLabel label) (htype : m.matchType = matchType)
    (hstate : m.state = some s) (hhas : m.hasPhi = decide (m.phiLabel ≠ noLabel))
    (hvalid : Valid m.matcher) :
    FindsRight fst matchType h m s label ↔
      ∃ t w, Followed fst matchType m.phiLabel m.phiLoop label s t w ∧
        Ends fst matchType m.phiLabel m.phiLoop label t := by
  by_cases hphi : m.phiLabel = noLabel
  · obtain ⟨r, hrun, ho⟩ := find_of_noLabel hl hlabel hphi hstate hhas hvalid 0
    exact ⟨fun _ => ⟨s, 1, .here s, ho.ends⟩, fun _ => findsRight_of_outcome hrun (.here s) ho⟩
  · have hfind := find_eq_follow hlabel hphi hstate hhas (h := h)
    let m' : PhiMatcher L W M :=
      { m with matcher := h.setState s m.matcher, phiMatch := noLabel, phiWeight := 1 }
    have hat : At m'.matcher s := hl.setState _ s hvalid
    constructor
    · rintro ⟨fuel, r, hrun, -⟩
      rw [hfind] at hrun
      exact ends_of_follow (m := m') hl hlabel hat hrun
    · rintro ⟨t, w, hfollowed, hends⟩
      obtain ⟨fuel, r, hrun, hends', hfound, hyields⟩ :=
        follow_spec (m := m') hl hphi (hone hphi) hlabel htype rfl hat hfollowed hends
      refine findsRight_of_outcome ((hfind fuel).trans hrun) hfollowed ⟨hends', hfound, ?_⟩
      intro hmatches
      have hgiven := hyields hmatches
      rwa [one_mul] at hgiven

end Search

section Claim

variable [Zero W] [DecidableEq W]

/- A phi matcher over a sorted one, whatever it was asked before, finds what it should exactly when
the phi arcs it would follow come to an end. -/
theorem phi_find_iff {fst : VectorFst L W} {matchType : MatchType} {phi : L} {phiLoop : Bool}
    {mode : MatcherRewriteMode} {noState : ℕ} (hsorted : SortedOn fst matchType)
    (hone : phi ≠ noLabel → ∀ s, (labelled fst matchType s phi).length ≤ 1)
    {m₀ m : PhiMatcher L W (Matcher.SortedMatcher L W)}
    (hnew : PhiMatcher.newWithOptions fst (Matcher.SortedMatcher.new fst matchType noState) matchType phi
      phiLoop mode = .ok m₀) (hreached : Reached Matcher.SortedMatcher.handle m₀ m) {s : ℕ}
    (hstate : m.state = some s) {label : L} (hlabel : Ordinary phi label) :
    FindsRight fst matchType Matcher.SortedMatcher.handle m s label ↔
      ∃ t w, Followed fst matchType phi phiLoop label s t w ∧
        Ends fst matchType phi phiLoop label t := by
  cases hinner : Matcher.SortedMatcher.new fst matchType noState with
  | error e =>
    rw [hinner] at hnew
    cases hnew
  | ok inner =>
    rw [hinner] at hnew
    cases hnew
    have hl := sorted_lawful hsorted
    have hkept := kept_of_reached hl
      ⟨sortedValid_new hinner, rfl, rfl, rfl, rfl, fun t ht => by cases ht⟩ hreached
    have hone' : m.phiLabel ≠ noLabel →
        ∀ s, (labelled fst matchType s m.phiLabel).length ≤ 1 := by
      rw [hkept.phiLabel]
      exact hone
    have hlabel' : Ordinary m.phiLabel label := by
      rw [hkept.phiLabel]
      exact hlabel
    have hiff := findsRight_iff hl hone' hlabel' hkept.matchType hstate (hkept.hasPhi s hstate)
      hkept.valid
    rw [hkept.phiLabel, hkept.phiLoop] at hiff
    exact hiff

end Claim

section Cycle

/- A phi arc to a state that has the label. -/
def chainFst : VectorFst ℤ ℕ := ⟨[⟨0, [⟨5, 5, 2, 1⟩], 0, 0⟩, ⟨1, [⟨1, 1, 3, 1⟩], 0, 0⟩], some 0, 0⟩

def chainMatcher (fst : VectorFst ℤ ℕ) : PhiMatcher ℤ ℕ (Matcher.SortedMatcher ℤ ℕ) :=
  ⟨⟨fst, .input, none, [], 0, 0, loopArc .input 9, false, noLabel, true, false⟩, .input, 5, false,
    true, false, noLabel, none, 1, false⟩

theorem phi_find_chain :
    FindsRight chainFst .input Matcher.SortedMatcher.handle
      ((chainMatcher chainFst).setState Matcher.SortedMatcher.handle 0) 0 1 := by
  have hsorted : SortedOn chainFst .input := sortedOn_of_lt (by decide)
  have hone : (5 : ℤ) ≠ noLabel → ∀ s, (labelled chainFst .input s 5).length ≤ 1 := by
    intro _ s
    have hlt : ∀ s < chainFst.numStates, (labelled chainFst .input s 5).length ≤ 1 := by decide
    by_cases hs : s < chainFst.numStates
    · exact hlt s hs
    · rw [labelled_of_le (Nat.le_of_not_lt hs)]
      exact Nat.zero_le 1
  have hnot : ¬ Ends chainFst .input 5 false 1 0 := by
    rintro ((hsome | ⟨hloop, -⟩) | hnone)
    · exact hsome (by decide)
    · cases hloop
    · cases hnone
  have harc : phiArc chainFst .input 5 0 = some ⟨5, 5, 2, 1⟩ := by decide
  have hnew : PhiMatcher.newWithOptions chainFst (Matcher.SortedMatcher.new chainFst .input 9)
      .input 5 false .always = .ok (chainMatcher chainFst) := rfl
  exact (phi_find_iff hsorted hone hnew (.setState 0 .new) rfl ⟨by decide, by decide, by decide⟩).mpr
    ⟨1, 2 * 1, .step hnot harc (.here 1), .inl (.inl (by decide))⟩

/- Two phi arcs that lead to each other's state. -/
def cycleFst : VectorFst ℤ ℕ := ⟨[⟨0, [⟨5, 5, 1, 1⟩], 0, 0⟩, ⟨1, [⟨5, 5, 1, 0⟩], 0, 0⟩], some 0, 0⟩

theorem phi_cycle_endless :
    SortedOn cycleFst .input ∧ (∀ s, (labelled cycleFst .input s 5).length ≤ 1) ∧
      PhiMatcher.newWithOptions cycleFst (Matcher.SortedMatcher.new cycleFst .input 9) .input 5 false
        .always = .ok (chainMatcher cycleFst) ∧
      ∀ fuel, ((chainMatcher cycleFst).setState Matcher.SortedMatcher.handle 0).find
        Matcher.SortedMatcher.handle fuel 1 = .error .endless := by
  have hsorted : SortedOn cycleFst .input := sortedOn_of_lt (by decide)
  have hnot : ∀ s < 2, ¬ Ends cycleFst .input 5 false 1 s := by
    intro s hs
    have hnone : ∀ s < 2, labelled cycleFst .input s 1 = [] ∧
        phiArc cycleFst .input 5 s ≠ none := by decide
    rintro ((hsome | ⟨hloop, -⟩) | hno)
    · exact hsome (hnone s hs).1
    · cases hloop
    · exact (hnone s hs).2 hno
  have hinside : ∀ s t (w : ℕ), Followed cycleFst .input 5 false 1 s t w → s < 2 → t < 2 := by
    intro s t w hfollowed
    induction hfollowed with
    | here s => exact id
    | @step s t arc w _ harc _ ih =>
      intro hs
      have hnext : ∀ s < 2, ∀ arc ∈ phiArc cycleFst .input 5 s, arc.nextstate < 2 := by decide
      exact ih (hnext s hs arc harc)
  refine ⟨hsorted, ?_, rfl, ?_⟩
  · intro s
    have hlt : ∀ s < cycleFst.numStates, (labelled cycleFst .input s 5).length ≤ 1 := by decide
    by_cases hs : s < cycleFst.numStates
    · exact hlt s hs
    · rw [labelled_of_le (Nat.le_of_not_lt hs)]
      exact Nat.zero_le 1
  · intro fuel
    have hl := sorted_lawful hsorted
    have hnew : Matcher.SortedMatcher.new cycleFst .input 9 = .ok (chainMatcher cycleFst).matcher :=
      rfl
    have hvalid := sortedValid_new hnew
    rw [find_eq_follow ⟨by decide, by decide, by decide⟩ (by decide) rfl rfl]
    apply follow_endless hl ⟨by decide, by decide, by decide⟩
    · exact hl.setState _ 0 (hl.setValid 0 hvalid)
    · exact fun t w hfollowed => hnot t (hinside 0 t w hfollowed (by decide))

end Cycle

end Sicada.PhiExact
