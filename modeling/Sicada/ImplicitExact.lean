import Sicada.PhiExact

namespace Sicada.Matcher

namespace ImplicitExact

open Cursor MatcherExact

variable {L W M : Type} [ArcLabel L] [One W] {fst : VectorFst L W} {matchType : MatchType}
  {h : Handle ℕ L (Arc L W) M} {Valid : M → Prop} {At : M → ℕ → Prop}
  {Left : M → ℕ → List (Arc L W) → Prop} {l : L} {s : ℕ}

theorem answer_implicit {implicit : L} (hne : implicit ≠ epsilon) (hno : implicit ≠ noLabel)
    (s : ℕ) : answer fst matchType s implicit = labelled fst matchType s implicit := by
  unfold answer queried
  rw [if_neg hne, if_neg hno, List.nil_append]

/- Where the inner matcher is, for one that was set to a state or not yet. -/
def Placed (Valid : M → Prop) (At : M → ℕ → Prop) (x : M) : Option ℕ → Prop
  | none => Valid x
  | some s => At x s

theorem placed_valid (hl : Lawful h (answer fst matchType) Valid At Left) {x : M} {cur : Option ℕ}
    (hx : Placed Valid At x cur) : Valid x := by
  cases cur with
  | none => exact hx
  | some s => exact hl.valid x s hx

theorem placed_next (hl : Lawful h (answer fst matchType) Valid At Left) {x : M} {cur : Option ℕ}
    (hx : Placed Valid At x cur) : Placed Valid At (h.next x) cur := by
  cases cur with
  | none => exact hl.nextValid x hx
  | some s => exact hl.nextAt x s hx

theorem placed_find (hl : Lawful h (answer fst matchType) Valid At Left) {x x' : M}
    {cur : Option ℕ} (hx : Placed Valid At x cur) {found : Bool}
    (hfind : h.find l x = some (found, x')) : Placed Valid At x' cur ∧
      ∀ s, cur = some s → found = !(answer fst matchType s l).isEmpty := by
  cases cur with
  | none => exact ⟨hl.findValid x l found x' hx hfind, fun s hs => by cases hs⟩
  | some s =>
    obtain ⟨y, hfind', hleft⟩ := hl.find x s l hx
    rw [hfind] at hfind'
    cases hfind'
    refine ⟨hl.left _ s _ hleft, fun t ht => ?_⟩
    cases ht
    rfl

/- The arcs of the implicit label, rewritten to the one that was asked for. -/
def standIns (fst : VectorFst L W) (matchType : MatchType) (implicit : L) (rewriteBoth : Bool)
    (s : ℕ) (l : L) : List (Arc L W) :=
  if implicit = noLabel then []
  else (labelled fst matchType s implicit).map fun arc =>
    rewrite arc implicit l rewriteBoth matchType

section Rho

variable {m m' m₀ : RhoMatcher L M} {cur : Option ℕ}

/- The matchers there are after some calls, and the state that was set last. -/
inductive RhoReached (h : Handle ℕ L (Arc L W) M) (m₀ : RhoMatcher L M) :
    Option ℕ → RhoMatcher L M → Prop
  | new : RhoReached h m₀ none m₀
  | setState {cur : Option ℕ} {m : RhoMatcher L M} (state : ℕ) (hm : RhoReached h m₀ cur m) :
      RhoReached h m₀ (some state) (m.setState h state)
  | find {cur : Option ℕ} {m m' : RhoMatcher L M} {label : L} {found : Bool}
      (hm : RhoReached h m₀ cur m) (hfind : m.find h label = some (found, m')) :
      RhoReached h m₀ cur m'
  | next {cur : Option ℕ} {m : RhoMatcher L M} (hm : RhoReached h m₀ cur m) :
      RhoReached h m₀ cur (m.next h)
  | priority {cur : Option ℕ} {m m' : RhoMatcher L M} {state : ℕ} {p : ℤ}
      (hm : RhoReached h m₀ cur m) (hpriority : m.priority h state = some (p, m')) :
      RhoReached h m₀ (if m₀.rhoLabel = noLabel then cur else some state) m'

/- `hasRho` is only off where there is no rho arc. -/
structure RhoKept (fst : VectorFst L W) (matchType : MatchType) (Valid : M → Prop)
    (At : M → ℕ → Prop) (m₀ : RhoMatcher L M) (cur : Option ℕ) (m : RhoMatcher L M) : Prop where
  inner : Placed Valid At m.matcher cur
  sameType : m.matchType = m₀.matchType
  rhoLabel : m.rhoLabel = m₀.rhoLabel
  rewriteBoth : m.rewriteBoth = m₀.rewriteBoth
  state : m.state = cur
  some_of_has : m.hasRho = true → m.rhoLabel ≠ noLabel
  none_of_not : m.hasRho = false → m.rhoLabel = noLabel ∨
    ∀ s, cur = some s → labelled fst matchType s m.rhoLabel = []

theorem rhoKept_of_reached (hl : Lawful h (answer fst matchType) Valid At Left)
    (hne : m₀.rhoLabel ≠ epsilon) (hm₀ : RhoKept fst matchType Valid At m₀ none m₀)
    (hm : RhoReached h m₀ cur m) : RhoKept fst matchType Valid At m₀ cur m := by
  have hlooked : ∀ {x x' : M} {cur : Option ℕ} {found : Bool} {m : RhoMatcher L M},
      Placed Valid At x cur → m.rhoLabel = m₀.rhoLabel → m.rhoLabel ≠ noLabel →
      h.find m.rhoLabel x = some (found, x') → Placed Valid At x' cur ∧
        (found = false → m.rhoLabel = noLabel ∨
          ∀ s, cur = some s → labelled fst matchType s m.rhoLabel = []) := by
    intro x x' cur found m hx hsame hno hfind
    obtain ⟨hx', hfound⟩ := placed_find hl hx hfind
    refine ⟨hx', fun hnone => .inr fun s hs => ?_⟩
    have hanswer := hfound s hs
    rw [hnone, answer_implicit (by rw [hsame]; exact hne) hno] at hanswer
    simpa using hanswer
  induction hm with
  | new => exact hm₀
  | @setState cur m state hm ih =>
    unfold RhoMatcher.setState
    split
    · next hs =>
      rw [ih.state] at hs
      subst hs
      exact ih
    · exact ⟨hl.setState _ state (placed_valid hl ih.inner), ih.sameType, ih.rhoLabel,
        ih.rewriteBoth, rfl, fun hhas => by simpa using hhas, fun hnot => .inl (by simpa using hnot)⟩
  | @find cur m m' label found hm hfind ih =>
    unfold RhoMatcher.find at hfind
    split at hfind
    · cases hfind
      exact ⟨ih.inner, ih.sameType, ih.rhoLabel, ih.rewriteBoth, ih.state, ih.some_of_has,
        ih.none_of_not⟩
    obtain ⟨⟨first, x⟩, hfirst, hfind⟩ := Option.bind_eq_some_iff.mp hfind
    have hx := (placed_find hl ih.inner hfirst).1
    dsimp only at hfind
    split at hfind
    · cases hfind
      exact ⟨hx, ih.sameType, ih.rhoLabel, ih.rewriteBoth, ih.state, ih.some_of_has, ih.none_of_not⟩
    split at hfind
    · next hhas =>
      obtain ⟨⟨second, y⟩, hsecond, hfind⟩ := Option.bind_eq_some_iff.mp hfind
      have hno := ih.some_of_has hhas.1
      obtain ⟨hy, hnone⟩ := hlooked hx ih.rhoLabel hno hsecond
      dsimp only at hfind
      split at hfind
      · cases hfind
        exact ⟨hy, ih.sameType, ih.rhoLabel, ih.rewriteBoth, ih.state, fun _ => hno,
          fun hnot => (by cases hnot)⟩
      · next hfalse =>
        cases hfind
        exact ⟨hy, ih.sameType, ih.rhoLabel, ih.rewriteBoth, ih.state, fun hhas => (by cases hhas),
          fun _ => hnone (by simpa using hfalse)⟩
    · cases hfind
      exact ⟨hx, ih.sameType, ih.rhoLabel, ih.rewriteBoth, ih.state, ih.some_of_has, ih.none_of_not⟩
  | next hm ih =>
    exact ⟨placed_next hl ih.inner, ih.sameType, ih.rhoLabel, ih.rewriteBoth, ih.state,
      ih.some_of_has, ih.none_of_not⟩
  | @priority cur m m' state p hm hpriority ih =>
    unfold RhoMatcher.priority at hpriority
    split at hpriority
    · next hno =>
      cases hpriority
      rw [if_pos (ih.rhoLabel.symm.trans hno)]
      exact ih
    · next hno =>
      obtain ⟨⟨hasRho, x⟩, hfind, hresult⟩ := Option.map_eq_some_iff.mp hpriority
      cases hresult
      have hset : Placed Valid At (h.setState state m.matcher) (some state) :=
        hl.setState _ state (placed_valid hl ih.inner)
      obtain ⟨hx, hnone⟩ := hlooked hset ih.rhoLabel hno hfind
      rw [if_neg (fun heq => hno (ih.rhoLabel.trans heq))]
      exact ⟨hx, ih.sameType, ih.rhoLabel, ih.rewriteBoth, rfl, fun _ => hno, hnone⟩

/- The arcs of a label, or when there are none the rho arcs that stand in. -/
def rhoAnswer (fst : VectorFst L W) (matchType : MatchType) (rho : L) (rewriteBoth : Bool) (s : ℕ)
    (l : L) : List (Arc L W) :=
  if labelled fst matchType s l = [] then standIns fst matchType rho rewriteBoth s l
  else labelled fst matchType s l

/- What the arcs the inner matcher has left are handed out as. -/
theorem rho_yields (hl : Lawful h (answer fst matchType) Valid At Left) {rest : List (Arc L W)}
    (hleft : Left m.matcher s rest) :
    Yields (RhoMatcher.done h) (RhoMatcher.value h) (fun m => some (RhoMatcher.next h m)) m
      (rest.map fun arc => if m.rhoMatch = noLabel then arc
        else rewrite arc m.rhoLabel m.rhoMatch m.rewriteBoth m.matchType) := by
  apply hl.yields_map (fun n => n.rhoMatch = m.rhoMatch ∧ n.rhoLabel = m.rhoLabel ∧
    n.rewriteBoth = m.rewriteBoth ∧ n.matchType = m.matchType) _ _ _ ⟨rfl, rfl, rfl, rfl⟩ hleft
  · exact fun n _ => rfl
  · rintro n ⟨hmatch, hlabel, hboth, htype⟩
    unfold RhoMatcher.value
    rw [hmatch, hlabel, hboth, htype]
  · exact fun n hn => ⟨_, rfl, hn, rfl⟩

theorem rho_find (hl : Lawful h (answer fst matchType) Valid At Left)
    (hrho : m.rhoLabel ≠ epsilon) (hkept : RhoKept fst matchType Valid At m₀ (some s) m)
    (hsame : m.matchType = matchType) (hlabel : PhiExact.Ordinary m.rhoLabel l) :
    ∃ m', m.find h l = some
        (!(rhoAnswer fst matchType m.rhoLabel m.rewriteBoth s l).isEmpty, m') ∧
      Yields (RhoMatcher.done h) (RhoMatcher.value h) (fun m => some (RhoMatcher.next h m)) m'
        (rhoAnswer fst matchType m.rhoLabel m.rewriteBoth s l) := by
  subst hsame
  obtain ⟨x, hfirst, hleft⟩ := hl.find m.matcher s l hkept.inner
  rw [answer_implicit hlabel.ne_epsilon hlabel.ne_noLabel] at hfirst hleft
  have hnot : ¬ (l = m.rhoLabel ∧ m.rhoLabel ≠ noLabel) := fun hboth => hlabel.ne_phi hboth.1
  unfold rhoAnswer
  by_cases hnone : labelled fst m.matchType s l = []
  · rw [if_pos hnone]
    rw [hnone] at hfirst hleft
    by_cases hhas : m.hasRho = true
    · have hno := hkept.some_of_has hhas
      obtain ⟨y, hsecond, hleft'⟩ := hl.find x s m.rhoLabel (hl.left x s _ hleft)
      rw [answer_implicit hrho hno] at hsecond hleft'
      unfold standIns
      rw [if_neg hno, List.isEmpty_map]
      by_cases hrhos : labelled fst m.matchType s m.rhoLabel = []
      · refine ⟨{ m with matcher := y, hasRho := false }, ?_, ?_⟩
        · simp [RhoMatcher.find, hnot, hfirst, hhas, hlabel.ne_epsilon, hlabel.ne_noLabel, hsecond,
            hrhos]
        · rw [hrhos] at hleft' ⊢
          exact .nil (hl.done y s [] hleft')
      · refine ⟨{ m with matcher := y, hasRho := true, rhoMatch := l }, ?_, ?_⟩
        · have hsome : (labelled fst m.matchType s m.rhoLabel).isEmpty = false := by simpa using hrhos
          simp [RhoMatcher.find, hnot, hfirst, hhas, hlabel.ne_epsilon, hlabel.ne_noLabel, hsecond,
            hsome]
        · have hyields := rho_yields
            (m := { m with matcher := y, hasRho := true, rhoMatch := l }) hl hleft'
          simp only [if_neg hlabel.ne_noLabel] at hyields
          exact hyields
    · have hempty : standIns fst m.matchType m.rhoLabel m.rewriteBoth s l = [] := by
        unfold standIns
        rcases hkept.none_of_not (by simpa using hhas) with hno | hrhos
        · rw [if_pos hno]
        · rw [hrhos s rfl]
          simp
      rw [hempty]
      refine ⟨{ m with matcher := x }, ?_, .nil (hl.done x s [] hleft)⟩
      simp [RhoMatcher.find, hnot, hfirst, hhas]
  · rw [if_neg hnone]
    refine ⟨{ m with matcher := x, rhoMatch := noLabel }, ?_, ?_⟩
    · have hsome : (labelled fst m.matchType s l).isEmpty = false := by simpa using hnone
      simp [RhoMatcher.find, hnot, hfirst, hsome]
    · have hyields := rho_yields (m := { m with matcher := x, rhoMatch := noLabel }) hl hleft
      simp only [if_true, List.map_id'] at hyields
      exact hyields

end Rho

section Sigma

variable {m m' m₀ : SigmaMatcher L M} {cur : Option ℕ}

inductive SigmaReached (h : Handle ℕ L (Arc L W) M) (m₀ : SigmaMatcher L M) :
    Option ℕ → SigmaMatcher L M → Prop
  | new : SigmaReached h m₀ none m₀
  | setState {cur : Option ℕ} {m m' : SigmaMatcher L M} {state : ℕ} (hm : SigmaReached h m₀ cur m)
      (hset : m.setState h state = some m') : SigmaReached h m₀ (some state) m'
  | find {cur : Option ℕ} {m m' : SigmaMatcher L M} {label : L} {found : Bool}
      (hm : SigmaReached h m₀ cur m) (hfind : m.find h label = some (found, m')) :
      SigmaReached h m₀ cur m'
  | next {cur : Option ℕ} {m m' : SigmaMatcher L M} (hm : SigmaReached h m₀ cur m)
      (hnext : m.next h = some m') : SigmaReached h m₀ cur m'
  | priority {cur : Option ℕ} {m m' : SigmaMatcher L M} {state : ℕ} {p : ℤ}
      (hm : SigmaReached h m₀ cur m) (hpriority : m.priority h state = some (p, m')) :
      SigmaReached h m₀ (if m₀.sigmaLabel = noLabel then cur else some state) m'

/- `hasSigma` says whether the state has a sigma arc. -/
structure SigmaKept (fst : VectorFst L W) (matchType : MatchType) (Valid : M → Prop)
    (At : M → ℕ → Prop) (m₀ : SigmaMatcher L M) (cur : Option ℕ) (m : SigmaMatcher L M) :
    Prop where
  inner : Placed Valid At m.matcher cur
  sameType : m.matchType = m₀.matchType
  sigmaLabel : m.sigmaLabel = m₀.sigmaLabel
  rewriteBoth : m.rewriteBoth = m₀.rewriteBoth
  state : m.state = cur
  has : ∀ s, cur = some s → m.hasSigma =
    (decide (m.sigmaLabel ≠ noLabel) && !(labelled fst matchType s m.sigmaLabel).isEmpty)

theorem sigmaKept_setState (hl : Lawful h (answer fst matchType) Valid At Left)
    (hne : m₀.sigmaLabel ≠ epsilon) (hm : SigmaKept fst matchType Valid At m₀ cur m) {state : ℕ}
    (hset : m.setState h state = some m') :
    SigmaKept fst matchType Valid At m₀ (some state) m' := by
  unfold SigmaMatcher.setState at hset
  split at hset
  · next hs =>
    cases hset
    rw [hm.state] at hs
    exact hs ▸ hm
  have hplaced : Placed Valid At (h.setState state m.matcher) (some state) :=
    hl.setState _ state (placed_valid hl hm.inner)
  dsimp only at hset
  split at hset
  · next hno =>
    cases hset
    refine ⟨hplaced, hm.sameType, hm.sigmaLabel, hm.rewriteBoth, rfl, fun s _ => ?_⟩
    simp [hno]
  · next hno =>
    obtain ⟨⟨hasSigma, x⟩, hfind, hresult⟩ := Option.map_eq_some_iff.mp hset
    cases hresult
    obtain ⟨hx, hfound⟩ := placed_find hl hplaced hfind
    refine ⟨hx, hm.sameType, hm.sigmaLabel, hm.rewriteBoth, rfl, fun s hs => ?_⟩
    have hanswer := hfound s hs
    rw [answer_implicit (by rw [hm.sigmaLabel]; exact hne) hno] at hanswer
    simp [hanswer, hno]

theorem sigmaKept_of_reached (hl : Lawful h (answer fst matchType) Valid At Left)
    (hne : m₀.sigmaLabel ≠ epsilon) (hm₀ : SigmaKept fst matchType Valid At m₀ none m₀)
    (hm : SigmaReached h m₀ cur m) : SigmaKept fst matchType Valid At m₀ cur m := by
  induction hm with
  | new => exact hm₀
  | setState hm hset ih => exact sigmaKept_setState hl hne ih hset
  | @find cur m m' label found hm hfind ih =>
    have hsame : ∀ x n k e, Placed Valid At x cur → SigmaKept fst matchType Valid At m₀ cur
        { m with matcher := x, matchLabel := n, sigmaMatch := k, error := e } := fun x n k e hx =>
      ⟨hx, ih.sameType, ih.sigmaLabel, ih.rewriteBoth, ih.state, ih.has⟩
    unfold SigmaMatcher.find at hfind
    dsimp only at hfind
    split at hfind
    · cases hfind
      exact hsame _ _ _ _ ih.inner
    obtain ⟨⟨first, x⟩, hfirst, hfind⟩ := Option.bind_eq_some_iff.mp hfind
    have hx := (placed_find hl ih.inner hfirst).1
    dsimp only at hfind
    split at hfind
    · cases hfind
      exact hsame _ _ _ _ hx
    split at hfind
    · obtain ⟨⟨second, y⟩, hsecond, hfind⟩ := Option.bind_eq_some_iff.mp hfind
      have hy := (placed_find hl hx hsecond).1
      dsimp only at hfind
      split at hfind
      · cases hfind
        exact hsame _ _ _ _ hy
      · cases hfind
        exact hsame _ _ _ _ hy
    · cases hfind
      exact hsame _ _ _ _ hx
  | @next cur m m' hm hnext ih =>
    have hinner := placed_next hl ih.inner
    obtain ⟨finished, -, hnext⟩ := Option.bind_eq_some_iff.mp hnext
    split at hnext
    · obtain ⟨⟨found, y⟩, hfind, hresult⟩ := Option.bind_eq_some_iff.mp hnext
      cases hresult
      exact ⟨(placed_find hl hinner hfind).1, ih.sameType, ih.sigmaLabel, ih.rewriteBoth, ih.state,
        ih.has⟩
    · cases hnext
      exact ⟨hinner, ih.sameType, ih.sigmaLabel, ih.rewriteBoth, ih.state, ih.has⟩
  | @priority cur m m' state p hm hpriority ih =>
    unfold SigmaMatcher.priority at hpriority
    split at hpriority
    · next hno =>
      cases hpriority
      rw [if_pos (ih.sigmaLabel.symm.trans hno)]
      exact ih
    · next hno =>
      obtain ⟨m'', hset, hresult⟩ := Option.map_eq_some_iff.mp hpriority
      cases hresult
      rw [if_neg (fun heq => hno (ih.sigmaLabel.trans heq))]
      exact sigmaKept_setState hl hne ih hset

/- The arcs of a label, and then the sigma arcs that stand in. -/
def sigmaAnswer (fst : VectorFst L W) (matchType : MatchType) (sigma : L) (rewriteBoth : Bool)
    (s : ℕ) (l : L) : List (Arc L W) :=
  labelled fst matchType s l ++ standIns fst matchType sigma rewriteBoth s l

/- While sigma arcs are handed out. -/
theorem sigma_yields (hl : Lawful h (answer fst matchType) Valid At Left) {rest : List (Arc L W)}
    (hmatch : m.sigmaMatch ≠ noLabel) (hleft : Left m.matcher s rest) :
    Yields (SigmaMatcher.done h) (SigmaMatcher.value h) (SigmaMatcher.next h) m
      (rest.map fun arc => rewrite arc m.sigmaLabel m.sigmaMatch m.rewriteBoth m.matchType) := by
  induction rest generalizing m with
  | nil => exact .nil (hl.done _ s [] hleft)
  | cons arc rest ih =>
    have hnext := hl.next _ s _ hleft
    have hdone := hl.done _ s _ hnext
    have hstep : m.next h = some { m with matcher := h.next m.matcher } := by
      simp [SigmaMatcher.next, hdone, hmatch]
    refine .cons (hl.done _ s _ hleft) ?_ hstep
      (ih (m := { m with matcher := h.next m.matcher }) hmatch hnext)
    unfold SigmaMatcher.value
    rw [hl.value _ s arc rest hleft, Option.map_some, if_neg hmatch]

/- After the last arc of a label come the sigma arcs. -/
theorem sigma_next_last (hl : Lawful h (answer fst matchType) Valid At Left)
    (hkept : SigmaKept fst matchType Valid At m₀ (some s) m) (hsame : m.matchType = matchType)
    (hsigma : m.sigmaLabel ≠ epsilon) (hlabel : PhiExact.Ordinary m.sigmaLabel l)
    (hmatch : m.sigmaMatch = noLabel) (hmatchLabel : m.matchLabel = l) {arc : Arc L W}
    (hleft : Left m.matcher s [arc]) :
    ∃ m', m.next h = some m' ∧
      Yields (SigmaMatcher.done h) (SigmaMatcher.value h) (SigmaMatcher.next h) m'
        (standIns fst matchType m.sigmaLabel m.rewriteBoth s l) := by
  subst hsame
  have hnext := hl.next _ s _ hleft
  have hdone := hl.done _ s _ hnext
  have hhas := hkept.has s rfl
  unfold standIns
  by_cases hno : m.sigmaLabel = noLabel
  · rw [if_pos hno]
    refine ⟨{ m with matcher := h.next m.matcher }, ?_, .nil hdone⟩
    simp [SigmaMatcher.next, hdone, hhas, hno]
  · rw [if_neg hno]
    obtain ⟨y, hfind, hleft'⟩ := hl.find _ s m.sigmaLabel (hl.left _ s _ hnext)
    rw [answer_implicit hsigma hno] at hfind hleft'
    by_cases hnone : labelled fst m.matchType s m.sigmaLabel = []
    · refine ⟨{ m with matcher := h.next m.matcher }, ?_, ?_⟩
      · simp [SigmaMatcher.next, hdone, hhas, hnone]
      · rw [hnone]
        exact .nil hdone
    · have hsome : (labelled fst m.matchType s m.sigmaLabel).isEmpty = false := by simpa using hnone
      refine ⟨{ m with matcher := y, sigmaMatch := l }, ?_, ?_⟩
      · simp [SigmaMatcher.next, hdone, hhas, hno, hsome, hmatch, hmatchLabel, hlabel.ne_epsilon,
          hlabel.ne_noLabel, hfind]
      · exact sigma_yields (m := { m with matcher := y, sigmaMatch := l }) hl hlabel.ne_noLabel
          hleft'

theorem sigma_find (hl : Lawful h (answer fst matchType) Valid At Left)
    (hsigma : m.sigmaLabel ≠ epsilon) (hkept : SigmaKept fst matchType Valid At m₀ (some s) m)
    (hsame : m.matchType = matchType) (hlabel : PhiExact.Ordinary m.sigmaLabel l) :
    ∃ m', m.find h l = some
        (!(sigmaAnswer fst matchType m.sigmaLabel m.rewriteBoth s l).isEmpty, m') ∧
      Yields (SigmaMatcher.done h) (SigmaMatcher.value h) (SigmaMatcher.next h) m'
        (sigmaAnswer fst matchType m.sigmaLabel m.rewriteBoth s l) := by
  subst hsame
  obtain ⟨x, hfirst, hleft⟩ := hl.find m.matcher s l hkept.inner
  rw [answer_implicit hlabel.ne_epsilon hlabel.ne_noLabel] at hfirst hleft
  have hnot : ¬ (l = m.sigmaLabel ∧ m.sigmaLabel ≠ noLabel) := fun hboth => hlabel.ne_phi hboth.1
  have hhas := hkept.has s rfl
  unfold sigmaAnswer
  by_cases hnone : labelled fst m.matchType s l = []
  · rw [hnone, List.nil_append]
    rw [hnone] at hfirst hleft
    unfold standIns
    by_cases hno : m.sigmaLabel = noLabel
    · rw [if_pos hno]
      refine ⟨{ m with matcher := x, matchLabel := l }, ?_, .nil (hl.done x s [] hleft)⟩
      simp [SigmaMatcher.find, hno, hlabel.ne_noLabel, hfirst, hhas]
    · rw [if_neg hno, List.isEmpty_map]
      by_cases hsigmas : labelled fst m.matchType s m.sigmaLabel = []
      · refine ⟨{ m with matcher := x, matchLabel := l }, ?_, ?_⟩
        · simp [SigmaMatcher.find, hnot, hfirst, hhas, hsigmas]
        · rw [hsigmas]
          exact .nil (hl.done x s [] hleft)
      · obtain ⟨y, hsecond, hleft'⟩ := hl.find x s m.sigmaLabel (hl.left x s _ hleft)
        rw [answer_implicit hsigma hno] at hsecond hleft'
        have hsome : (labelled fst m.matchType s m.sigmaLabel).isEmpty = false := by
          simpa using hsigmas
        refine ⟨{ m with matcher := y, matchLabel := l, sigmaMatch := l }, ?_, ?_⟩
        · simp [SigmaMatcher.find, hfirst, hhas, hno, hsome, hlabel.ne_epsilon, hlabel.ne_noLabel,
            hlabel.ne_phi, hsecond]
        · exact sigma_yields (m := { m with matcher := y, matchLabel := l, sigmaMatch := l }) hl
            hlabel.ne_noLabel hleft'
  · refine ⟨{ m with matcher := x, matchLabel := l, sigmaMatch := noLabel }, ?_, ?_⟩
    · have hsome : (labelled fst m.matchType s l).isEmpty = false := by simpa using hnone
      simp [SigmaMatcher.find, hnot, hfirst, hsome, hnone]
    · obtain ⟨arc, rest, harcs⟩ := List.exists_cons_of_ne_nil hnone
      rw [harcs] at hleft ⊢
      rw [← List.map_id (arc :: rest)]
      refine hl.yields_append SigmaMatcher.matcher (fun n => n.sigmaMatch = noLabel ∧
          n.matchLabel = l ∧ n.sigmaLabel = m.sigmaLabel ∧ n.rewriteBoth = m.rewriteBoth ∧
          n.matchType = m.matchType ∧ n.hasSigma = m.hasSigma ∧ n.state = m.state) ?_ ?_ ?_ ?_
        ⟨rfl, rfl, rfl, rfl, rfl, rfl, rfl⟩ hleft
      · exact fun n _ _ _ hleft => hl.done _ s _ hleft
      · rintro n ⟨hmatch, -⟩
        unfold SigmaMatcher.value
        rw [hmatch]
        simp
      · rintro n a b rest hn hleft
        have hdone := hl.done _ s _ (hl.next _ s _ hleft)
        refine ⟨{ n with matcher := h.next n.matcher }, ?_, hn, rfl⟩
        simp [SigmaMatcher.next, hdone]
      · rintro n a ⟨hmatch, hmatchLabel, hsigmaLabel, hboth, htype, hhasSigma, hstate⟩ hleft
        have hn : SigmaKept fst m.matchType Valid At n (some s) n := by
          refine ⟨hl.left _ s _ hleft, rfl, rfl, rfl, hstate.trans hkept.state, ?_⟩
          intro t ht
          rw [hhasSigma, hsigmaLabel]
          exact hkept.has t ht
        rw [← hsigmaLabel, ← hboth]
        rw [← hsigmaLabel] at hlabel hsigma
        exact sigma_next_last hl hn htype hsigma hlabel hmatch hmatchLabel hleft

end Sigma

end ImplicitExact

end Sicada.Matcher
