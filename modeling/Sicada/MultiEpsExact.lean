import Sicada.ImplicitExact

namespace Sicada.Matcher

namespace MultiEpsExact

open Cursor MatcherExact ImplicitExact

variable {L W M : Type} [ArcLabel L] [One W] {fst : VectorFst L W} {matchType : MatchType}
  {h : Handle ℕ L (Arc L W) M} {Valid : M → Prop} {At : M → ℕ → Prop}
  {Left : M → ℕ → List (Arc L W) → Prop} {s : ℕ} {m m' m₀ : MultiEpsMatcher L M} {cur : Option ℕ}

/- The matchers there are after some calls, and the state that was set last. -/
inductive MultiEpsReached (h : Handle ℕ L (Arc L W) M) (m₀ : MultiEpsMatcher L M) :
    Option ℕ → MultiEpsMatcher L M → Prop
  | new : MultiEpsReached h m₀ none m₀
  | addMultiEpsLabel {cur : Option ℕ} {m m' : MultiEpsMatcher L M} {label : L}
      (hm : MultiEpsReached h m₀ cur m) (hadd : m.addMultiEpsLabel label = .ok m') :
      MultiEpsReached h m₀ cur m'
  | removeMultiEpsLabel {cur : Option ℕ} {m : MultiEpsMatcher L M} (label : L)
      (hm : MultiEpsReached h m₀ cur m) : MultiEpsReached h m₀ cur (m.removeMultiEpsLabel label)
  | clearMultiEpsLabels {cur : Option ℕ} {m : MultiEpsMatcher L M}
      (hm : MultiEpsReached h m₀ cur m) : MultiEpsReached h m₀ cur m.clearMultiEpsLabels
  | setState {cur : Option ℕ} {m : MultiEpsMatcher L M} (state : ℕ)
      (hm : MultiEpsReached h m₀ cur m) : MultiEpsReached h m₀ (some state) (m.setState h state)
  | find {cur : Option ℕ} {m m' : MultiEpsMatcher L M} {label : L} {found : Bool}
      (hm : MultiEpsReached h m₀ cur m) (hfind : m.find h label = some (found, m')) :
      MultiEpsReached h m₀ cur m'
  | next {cur : Option ℕ} {m m' : MultiEpsMatcher L M} (hm : MultiEpsReached h m₀ cur m)
      (hnext : m.next h = some m') : MultiEpsReached h m₀ cur m'

structure MultiEpsKept (Valid : M → Prop) (At : M → ℕ → Prop) (flags : MultiEpsFlags)
    (cur : Option ℕ) (m : MultiEpsMatcher L M) : Prop where
  inner : Placed Valid At m.matcher cur
  sameFlags : m.flags = flags
  loopState : m.loopState = cur
  nodup : m.multiEpsLabels.Nodup
  ne_epsilon : epsilon ∉ m.multiEpsLabels

section Kept

variable {flags : MultiEpsFlags}

/- A search moves nothing but the inner matcher and where it stands. -/
theorem kept_seekIn (hl : Lawful h (answer fst matchType) Valid At Left) {labels : List L}
    {index : ℕ} {found : Bool} (hm : MultiEpsKept Valid At flags cur m)
    (hseek : MultiEpsMatcher.seekIn h labels index m = some (found, m')) :
    MultiEpsKept Valid At flags cur m' := by
  induction labels generalizing index m with
  | nil =>
    cases hseek
    exact ⟨hm.inner, hm.sameFlags, hm.loopState, hm.nodup, hm.ne_epsilon⟩
  | cons label labels ih =>
    obtain ⟨⟨hit, x⟩, hfind, hseek⟩ := Option.bind_eq_some_iff.mp hseek
    have hx := (placed_find hl hm.inner hfind).1
    dsimp only at hseek
    split at hseek
    · cases hseek
      exact ⟨hx, hm.sameFlags, hm.loopState, hm.nodup, hm.ne_epsilon⟩
    · exact ih (m := { m with matcher := x })
        ⟨hx, hm.sameFlags, hm.loopState, hm.nodup, hm.ne_epsilon⟩ hseek

theorem kept_findInner (hl : Lawful h (answer fst matchType) Valid At Left) {label : L}
    {found : Bool} (hm : MultiEpsKept Valid At flags cur m)
    (hfind : m.findInner h label = some (found, m')) : MultiEpsKept Valid At flags cur m' := by
  obtain ⟨⟨hit, x⟩, hinner, hresult⟩ := Option.map_eq_some_iff.mp hfind
  cases hresult
  exact ⟨(placed_find hl hm.inner hinner).1, hm.sameFlags, hm.loopState, hm.nodup, hm.ne_epsilon⟩

theorem kept_search (hl : Lawful h (answer fst matchType) Valid At Left) {label : L}
    {found : Bool} (hm : MultiEpsKept Valid At flags cur m)
    (hsearch : m.search h label = some (found, m')) : MultiEpsKept Valid At flags cur m' := by
  unfold MultiEpsMatcher.search at hsearch
  split at hsearch
  · exact kept_findInner hl hm hsearch
  split at hsearch
  · split at hsearch
    · obtain ⟨⟨hit, n⟩, hseek, hsearch⟩ := Option.bind_eq_some_iff.mp hsearch
      have hn := kept_seekIn hl hm hseek
      dsimp only at hsearch
      split at hsearch
      · cases hsearch
        exact hn
      · exact kept_findInner hl hn hsearch
    · exact kept_findInner hl hm hsearch
  split at hsearch
  · cases hsearch
    exact ⟨hm.inner, hm.sameFlags, hm.loopState, hm.nodup, hm.ne_epsilon⟩
  · exact kept_findInner hl hm hsearch

theorem kept_next (hl : Lawful h (answer fst matchType) Valid At Left)
    (hm : MultiEpsKept Valid At flags cur m) (hnext : m.next h = some m') :
    MultiEpsKept Valid At flags cur m' := by
  unfold MultiEpsMatcher.next at hnext
  split at hnext
  · cases hnext
    exact ⟨hm.inner, hm.sameFlags, hm.loopState, hm.nodup, hm.ne_epsilon⟩
  obtain ⟨finished, -, hnext⟩ := Option.bind_eq_some_iff.mp hnext
  have hmoved : MultiEpsKept Valid At flags cur
      { m with matcher := h.next m.matcher, finished := finished } :=
    ⟨placed_next hl hm.inner, hm.sameFlags, hm.loopState, hm.nodup, hm.ne_epsilon⟩
  dsimp only at hnext
  split at hnext
  · cases hnext
    exact hmoved
  split at hnext
  · cases hnext
    exact hmoved
  split at hnext
  · cases hnext
    exact hmoved
  obtain ⟨⟨found, n⟩, hseek, hnext⟩ := Option.bind_eq_some_iff.mp hnext
  have hn := kept_seekIn hl hmoved hseek
  dsimp only at hnext
  split at hnext
  · cases hnext
    exact ⟨hn.inner, hn.sameFlags, hn.loopState, hn.nodup, hn.ne_epsilon⟩
  · obtain ⟨⟨hit, k⟩, hfind, hnext⟩ := Option.bind_eq_some_iff.mp hnext
    have hk := kept_findInner hl hn hfind
    cases hnext
    exact ⟨hk.inner, hk.sameFlags, hk.loopState, hk.nodup, hk.ne_epsilon⟩

theorem kept_of_reached (hl : Lawful h (answer fst matchType) Valid At Left)
    (hm₀ : MultiEpsKept Valid At flags none m₀) (hm : MultiEpsReached h m₀ cur m) :
    MultiEpsKept Valid At flags cur m := by
  induction hm with
  | new => exact hm₀
  | @addMultiEpsLabel cur m m' label hm hadd ih =>
    unfold MultiEpsMatcher.addMultiEpsLabel at hadd
    split at hadd
    · cases hadd
    · next hne =>
      split at hadd
      · cases hadd
        exact ih
      · next hnot =>
        cases hadd
        have hperm := List.perm_orderedInsert (· ≤ ·) label m.multiEpsLabels
        refine ⟨ih.inner, ih.sameFlags, ih.loopState, ?_, ?_⟩
        · exact hperm.nodup_iff.mpr (List.nodup_cons.mpr ⟨hnot, ih.nodup⟩)
        · intro hmem
          rcases List.mem_cons.mp (hperm.mem_iff.mp hmem) with heq | hold
          · exact hne heq.symm
          · exact ih.ne_epsilon hold
  | removeMultiEpsLabel label hm ih =>
    exact ⟨ih.inner, ih.sameFlags, ih.loopState, ih.nodup.erase label,
      fun hmem => ih.ne_epsilon (List.mem_of_mem_erase hmem)⟩
  | clearMultiEpsLabels hm ih =>
    exact ⟨ih.inner, ih.sameFlags, ih.loopState, List.nodup_nil, List.not_mem_nil⟩
  | setState state hm ih =>
    exact ⟨hl.setState _ state (placed_valid hl ih.inner), ih.sameFlags, rfl, ih.nodup,
      ih.ne_epsilon⟩
  | @find cur m m' label found hm hfind ih =>
    obtain ⟨⟨hit, n⟩, hsearch, hresult⟩ := Option.map_eq_some_iff.mp hfind
    cases hresult
    have hstart : MultiEpsKept Valid At flags cur
        { m with multiEpsIndex := some m.multiEpsLabels.length, currentLoop := false } :=
      ⟨ih.inner, ih.sameFlags, ih.loopState, ih.nodup, ih.ne_epsilon⟩
    have hn := kept_search hl hstart hsearch
    exact ⟨hn.inner, hn.sameFlags, hn.loopState, hn.nodup, hn.ne_epsilon⟩
  | next hm hnext ih => exact kept_next hl ih hnext

end Kept

section Listing

/- The arcs of the labels from one on, one label after another, and those of epsilon. -/
def remaining (fst : VectorFst L W) (matchType : MatchType) (s : ℕ) (labels : List L) :
    List (Arc L W) :=
  labels.flatMap (answer fst matchType s) ++ labelled fst matchType s epsilon

/- What follows once the arcs at `index` are through. -/
def following (fst : VectorFst L W) (matchType : MatchType) (s : ℕ) (labels : List L)
    (index : ℕ) : List (Arc L W) :=
  if labels.length ≤ index then [] else remaining fst matchType s (labels.drop (index + 1))

/- Arcs are listed, of the label at `index` or past the labels of epsilon. -/
structure Listing (Left : M → ℕ → List (Arc L W) → Prop) (labels : List L) (s index : ℕ)
    (rest : List (Arc L W)) (m : MultiEpsMatcher L M) : Prop where
  left : Left m.matcher s rest
  index : m.multiEpsIndex = some index
  noLoop : m.currentLoop = false
  labels : m.multiEpsLabels = labels

theorem answer_noLabel (s : ℕ) :
    answer fst matchType s noLabel = labelled fst matchType s epsilon := by
  unfold answer queried
  rw [if_neg (fun heq => ArcLabel.epsilon_ne_noLabel heq.symm), if_pos rfl, List.nil_append]

/- A search over labels stops at the first that has arcs. -/
theorem seekIn_spec (hl : Lawful h (answer fst matchType) Valid At Left) (labels : List L)
    (index : ℕ) (hat : At m.matcher s) (hloop : m.currentLoop = false) :
    ∃ found m', MultiEpsMatcher.seekIn h labels index m = some (found, m') ∧
      if found then ∃ arcs k, arcs ≠ [] ∧ k < labels.length ∧
          Listing Left m.multiEpsLabels s (index + k) arcs m' ∧
          labels.flatMap (answer fst matchType s) =
            arcs ++ (labels.drop (k + 1)).flatMap (answer fst matchType s)
      else At m'.matcher s ∧ m'.currentLoop = false ∧ m'.multiEpsLabels = m.multiEpsLabels ∧
        m'.multiEpsIndex = some m.multiEpsLabels.length ∧
        labels.flatMap (answer fst matchType s) = [] := by
  induction labels generalizing index m with
  | nil =>
    refine ⟨false, { m with multiEpsIndex := some m.multiEpsLabels.length }, rfl, ?_⟩
    exact ⟨hat, hloop, rfl, rfl, rfl⟩
  | cons label labels ih =>
    obtain ⟨x, hfind, hleft⟩ := hl.find m.matcher s label hat
    by_cases hnone : answer fst matchType s label = []
    · obtain ⟨found, m', hseek, hspec⟩ :=
        ih (m := { m with matcher := x }) (index + 1) (hl.left x s _ hleft) hloop
      refine ⟨found, m', ?_, ?_⟩
      · simp [MultiEpsMatcher.seekIn, hfind, hnone, hseek]
      · cases found with
        | false =>
          obtain ⟨hat', hloop', hlabels, hindex, hempty⟩ := hspec
          exact ⟨hat', hloop', hlabels, hindex, by rw [List.flatMap_cons, hnone, hempty]; rfl⟩
        | true =>
          obtain ⟨arcs, k, hsome, hk, hlisting, heq⟩ := hspec
          refine ⟨arcs, k + 1, hsome, Nat.succ_lt_succ hk, ?_, ?_⟩
          · rw [← Nat.add_assoc, Nat.add_right_comm]
            exact hlisting
          · rw [List.flatMap_cons, hnone, List.nil_append, List.drop_succ_cons, heq]
    · refine ⟨true, { m with matcher := x, multiEpsIndex := some index }, ?_, ?_⟩
      · have hsome : (answer fst matchType s label).isEmpty = false := by simpa using hnone
        simp [MultiEpsMatcher.seekIn, hfind, hsome]
      · exact ⟨_, 0, hnone, Nat.zero_lt_succ _, ⟨hleft, rfl, hloop, rfl⟩, by simp⟩

/- The labels from `index` on are sought, and if they have no arcs those of epsilon. -/
def advance (h : Handle ℕ L (Arc L W) M) (m : MultiEpsMatcher L M) (index : ℕ) :
    Option (Bool × MultiEpsMatcher L M) := do
  let (found, m) ← m.seekMultiEps h index
  if found then return (true, m)
  m.findInner h noLabel

theorem advance_spec (hl : Lawful h (answer fst matchType) Valid At Left) (index : ℕ)
    (hindex : index ≤ m.multiEpsLabels.length) (hat : At m.matcher s)
    (hloop : m.currentLoop = false) :
    ∃ arcs k m', advance h m index = some (!arcs.isEmpty, m') ∧ index ≤ k ∧
      Listing Left m.multiEpsLabels s k arcs m' ∧
      remaining fst matchType s (m.multiEpsLabels.drop index) =
        arcs ++ following fst matchType s m.multiEpsLabels k ∧
      (arcs = [] → m.multiEpsLabels.length ≤ k) := by
  obtain ⟨found, m', hseek, hspec⟩ := seekIn_spec hl (m.multiEpsLabels.drop index) index
    hat hloop
  unfold advance MultiEpsMatcher.seekMultiEps
  rw [hseek]
  cases found with
  | true =>
    obtain ⟨arcs, k, hsome, hk, hlisting, heq⟩ := hspec
    rw [List.length_drop] at hk
    refine ⟨arcs, index + k, m', ?_, Nat.le_add_right _ _, hlisting, ?_, fun hnone => absurd hnone hsome⟩
    · have hempty : arcs.isEmpty = false := by simpa using hsome
      simp [hempty]
    · unfold remaining following remaining
      rw [if_neg (by omega), heq, List.append_assoc, List.drop_drop, Nat.add_assoc]
  | false =>
    obtain ⟨hat', hloop', hlabels, hindex', hempty⟩ := hspec
    obtain ⟨x, hfind, hleft⟩ := hl.find m'.matcher s noLabel hat'
    rw [answer_noLabel] at hfind hleft
    refine ⟨labelled fst matchType s epsilon, m.multiEpsLabels.length, { m' with matcher := x }, ?_,
      hindex, ⟨hleft, hindex', hloop', hlabels⟩, ?_, fun _ => Nat.le_refl _⟩
    · simp [MultiEpsMatcher.findInner, hfind]
    · unfold remaining following
      rw [if_pos (Nat.le_refl _), hempty, List.nil_append, List.append_nil]

theorem next_of_done {index : ℕ} (hloop : m.currentLoop = false)
    (hindex : m.multiEpsIndex = some index) (hdone : h.done (h.next m.matcher) = some true)
    (hlt : ¬ m.multiEpsLabels.length ≤ index) :
    m.next h = (advance h { m with matcher := h.next m.matcher, finished := true }
      (index + 1)).map fun (found, n) => { n with finished := !found } := by
  simp only [MultiEpsMatcher.next, advance, hloop, hindex, hdone, hlt, Bool.false_eq_true, if_false,
    Option.bind_eq_bind, Option.bind_some, Bool.not_true, Option.map_bind]
  apply congrArg
  funext ⟨found, n⟩
  cases found with
  | true => rfl
  | false =>
    change (n.findInner h noLabel).bind _ = (n.findInner h noLabel).map _
    rw [Option.map_eq_bind]
    rfl

theorem next_of_end {index : ℕ} {finished : Bool} (hloop : m.currentLoop = false)
    (hindex : m.multiEpsIndex = some index) (hdone : h.done (h.next m.matcher) = some finished)
    (hend : finished = true → m.multiEpsLabels.length ≤ index) :
    m.next h = some { m with matcher := h.next m.matcher, finished := finished } := by
  cases finished with
  | false => simp [MultiEpsMatcher.next, hloop, hdone]
  | true => simp [MultiEpsMatcher.next, hloop, hdone, hindex, hend rfl]

/- What is listed is handed out to its end. -/
theorem listing_yields (hl : Lawful h (answer fst matchType) Valid At Left) {labels : List L}
    (index : ℕ) {rest : List (Arc L W)} (hlisting : Listing Left labels s index rest m)
    (hfinished : m.finished = rest.isEmpty) (hend : rest = [] → labels.length ≤ index) :
    Yields MultiEpsMatcher.done (MultiEpsMatcher.value h ·) (MultiEpsMatcher.next h) m
      (rest ++ following fst matchType s labels index) := by
  induction hk : labels.length + 1 - index using Nat.strong_induction_on generalizing index rest m with
  | _ k ih =>
    subst hk
    induction rest generalizing m with
    | nil =>
      rw [following, if_pos (hend rfl)]
      exact .nil (congrArg some hfinished)
    | cons arc rest ihrest =>
      have hdone : MultiEpsMatcher.done m = some false := congrArg some hfinished
      have hvalue : m.value h = some arc := by
        unfold MultiEpsMatcher.value
        rw [hlisting.noLoop, if_neg Bool.false_ne_true]
        exact hl.value _ s arc rest hlisting.left
      have hleft := hl.next _ s _ hlisting.left
      have hinner := hl.done _ s _ hleft
      by_cases hmore : rest = [] ∧ index < labels.length
      · -- the arcs of one label are through
        obtain ⟨rfl, hlt⟩ := hmore
        have hlength : ¬ m.multiEpsLabels.length ≤ index := by
          rw [hlisting.labels]
          exact Nat.not_le_of_lt hlt
        have hindex : index + 1 ≤ m.multiEpsLabels.length := by omega
        obtain ⟨arcs, k, m', hadvance, hle, hlisting', hremaining, hend'⟩ := advance_spec
          (m := { m with matcher := h.next m.matcher, finished := true }) hl (index + 1) hindex
          (hl.left _ s _ hleft) hlisting.noLoop
        dsimp only at hlisting' hremaining hend'
        rw [hlisting.labels] at hlisting' hremaining hend'
        have hnext : m.next h = some { m' with finished := arcs.isEmpty } := by
          rw [next_of_done hlisting.noLoop hlisting.index hinner hlength, hadvance]
          simp
        refine .cons hdone hvalue hnext ?_
        rw [following, if_neg (Nat.not_le_of_lt hlt)]
        change Yields _ _ _ _ (remaining fst matchType s (labels.drop (index + 1)))
        rw [hremaining]
        exact ih _ (by omega) k ⟨hlisting'.left, hlisting'.index, hlisting'.noLoop, hlisting'.labels⟩
          rfl hend' rfl
      · have hend' : rest = [] → labels.length ≤ index :=
          fun hrest => Nat.le_of_not_lt fun hlt => hmore ⟨hrest, hlt⟩
        have hnext : m.next h =
            some { m with matcher := h.next m.matcher, finished := rest.isEmpty } := by
          apply next_of_end hlisting.noLoop hlisting.index hinner
          intro hempty
          rw [hlisting.labels]
          exact hend' (List.isEmpty_iff.mp hempty)
        refine .cons hdone hvalue hnext ?_
        exact ihrest (m := { m with matcher := h.next m.matcher, finished := rest.isEmpty })
          ⟨hleft, hlisting.index, hlisting.noLoop, hlisting.labels⟩ rfl hend'

theorem multiEps_find_list (hl : Lawful h (answer fst matchType) Valid At Left)
    (hat : At m.matcher s) (hlist : m.flags.list = true) :
    ∃ m', m.find h noLabel =
        some (!(remaining fst matchType s m.multiEpsLabels).isEmpty, m') ∧
      Yields MultiEpsMatcher.done (MultiEpsMatcher.value h ·) (MultiEpsMatcher.next h) m'
        (remaining fst matchType s m.multiEpsLabels) := by
  obtain ⟨arcs, k, m', hadvance, -, hlisting, hremaining, hend⟩ := advance_spec
    (m := { m with multiEpsIndex := some m.multiEpsLabels.length, currentLoop := false }) hl 0
    (Nat.zero_le _) hat rfl
  have hne : ¬ (noLabel : L) = epsilon := fun heq => ArcLabel.epsilon_ne_noLabel heq.symm
  dsimp only at hremaining hlisting hend
  rw [List.drop_zero] at hremaining
  have hempty : (remaining fst matchType s m.multiEpsLabels).isEmpty = arcs.isEmpty := by
    rw [hremaining]
    cases arcs with
    | nil =>
      rw [following, if_pos (hend rfl)]
      rfl
    | cons arc arcs => rfl
  refine ⟨{ m' with finished := arcs.isEmpty }, ?_, ?_⟩
  · unfold MultiEpsMatcher.find MultiEpsMatcher.search
    rw [if_neg hne, if_pos rfl]
    dsimp only
    rw [if_pos hlist]
    unfold advance at hadvance
    rw [hadvance, hempty]
    simp
  · rw [hremaining]
    exact listing_yields (m := { m' with finished := arcs.isEmpty }) hl k
      ⟨hlisting.left, hlisting.index, hlisting.noLoop, hlisting.labels⟩ rfl hend

/- Without the flag only the arcs of epsilon are listed. -/
theorem multiEps_find_noLabel (hl : Lawful h (answer fst matchType) Valid At Left)
    (hat : At m.matcher s) (hlist : ¬ m.flags.list = true) :
    ∃ found m', m.find h noLabel = some (found, m') ∧
      Yields MultiEpsMatcher.done (MultiEpsMatcher.value h ·) (MultiEpsMatcher.next h) m'
        (labelled fst matchType s epsilon) := by
  obtain ⟨x, hfind, hleft⟩ := hl.find m.matcher s noLabel hat
  rw [answer_noLabel] at hfind hleft
  have hne : ¬ (noLabel : L) = epsilon := fun heq => ArcLabel.epsilon_ne_noLabel heq.symm
  let m' : MultiEpsMatcher L M :=
    { m with
      matcher := x
      multiEpsIndex := some m.multiEpsLabels.length
      currentLoop := false
      finished := (labelled fst matchType s epsilon).isEmpty }
  refine ⟨!(labelled fst matchType s epsilon).isEmpty, m', ?_, ?_⟩
  · simp [MultiEpsMatcher.find, MultiEpsMatcher.search, MultiEpsMatcher.findInner, hne, hlist, hfind,
      m']
  · have hlisting : Listing Left m.multiEpsLabels s m.multiEpsLabels.length
        (labelled fst matchType s epsilon) m' := ⟨hleft, rfl, rfl, rfl⟩
    have hyields := listing_yields hl m.multiEpsLabels.length hlisting rfl fun _ => Nat.le_refl _
    rw [following, if_pos (Nat.le_refl _), List.append_nil] at hyields
    exact hyields

/- A multi-epsilon label is answered with a loop that has no label on either side. -/
theorem multiEps_find_loop {l : L} (hloop : m.flags.loop = true) (hmem : l ∈ m.multiEpsLabels)
    (hne : l ≠ epsilon) (hno : l ≠ noLabel) (hstate : m.loopState = some s) :
    ∃ m', m.find h l = some (true, m') ∧
      Yields MultiEpsMatcher.done (MultiEpsMatcher.value h ·) (MultiEpsMatcher.next h) m'
        [⟨noLabel, noLabel, 1, s⟩] := by
  let m' : MultiEpsMatcher L M :=
    { m with
      multiEpsIndex := some m.multiEpsLabels.length
      currentLoop := true
      finished := false }
  refine ⟨m', ?_, ?_⟩
  · simp [MultiEpsMatcher.find, MultiEpsMatcher.search, hne, hno, hloop, hmem, m']
  · have hvalue : m'.value h = some ⟨noLabel, noLabel, 1, s⟩ := congrArg (Option.map _) hstate
    exact .cons rfl hvalue rfl (.nil rfl)

end Listing

section Presented

variable {labels : List L}

/- What is picked key by key is what is picked by any of the keys. -/
theorem flatMap_filter_perm {A B : Type} [DecidableEq B] (f : A → B) (xs : List A) {keys : List B}
    (hkeys : keys.Nodup) :
    (keys.flatMap fun key => xs.filter fun x => f x = key).Perm
      (xs.filter fun x => f x ∈ keys) := by
  induction keys with
  | nil => simp
  | cons key keys ih =>
    obtain ⟨hnot, hkeys⟩ := List.nodup_cons.mp hkeys
    have hsplit := List.filter_append_perm (fun x => decide (f x = key))
      (xs.filter fun x => f x ∈ key :: keys)
    have hfirst : ((xs.filter fun x => f x ∈ key :: keys).filter fun x => decide (f x = key)) =
        xs.filter fun x => f x = key := by
      rw [List.filter_filter]
      apply List.filter_congr
      intro x _
      by_cases hx : f x = key <;> simp [hx]
    have hsecond : ((xs.filter fun x => f x ∈ key :: keys).filter fun x => !decide (f x = key)) =
        xs.filter fun x => f x ∈ keys := by
      rw [List.filter_filter]
      apply List.filter_congr
      intro x _
      by_cases hx : f x = key
      · simp [hx, hnot]
      · simp [hx]
    rw [hfirst, hsecond] at hsplit
    rw [List.flatMap_cons]
    exact ((ih hkeys).append_left _).trans hsplit

theorem matchedLabel_labelled {l : L} {arc : Arc L W} (harc : arc ∈ labelled fst matchType s l) :
    matchedLabel matchType arc = l := by
  simpa using (List.mem_filter.mp harc).2

variable (L W matchType) in
theorem matchedLabel_loopArc (s : ℕ) :
    matchedLabel matchType (loopArc matchType s : Arc L W) = noLabel := by
  unfold matchedLabel loopArc
  split <;> rfl

/- Nothing that is listed carries no label at all. -/
theorem matchedLabel_remaining_ne (hlabels : epsilon ∉ labels) {arc : Arc L W}
    (harc : arc ∈ remaining fst matchType s labels) : matchedLabel matchType arc ≠ noLabel := by
  rcases List.mem_append.mp harc with hlisted | heps
  · obtain ⟨l, hl, harc⟩ := List.mem_flatMap.mp hlisted
    have hne : l ≠ epsilon := fun heq => hlabels (heq ▸ hl)
    unfold answer at harc
    rw [if_neg hne, List.nil_append] at harc
    rw [matchedLabel_labelled harc, queried]
    split
    · exact ArcLabel.epsilon_ne_noLabel
    · next hno => exact hno
  · rw [matchedLabel_labelled heps]
    exact ArcLabel.epsilon_ne_noLabel

/- The arcs there are for a request for every non-consuming arc. -/
def nonConsuming (fst : VectorFst L W) (matchType : MatchType) (s : ℕ) (labels : List L) :
    List (Arc L W) :=
  (fst.arcs s).filter fun arc =>
    matchedLabel matchType arc ∈ labels ∨ matchedLabel matchType arc = epsilon

/- No label is not among the labels, or stands on no arc that is asked for. -/
def ListsOnce (fst : VectorFst L W) (matchType : MatchType) (s : ℕ) (labels : List L) : Prop :=
  noLabel ∉ labels ∨
    labelled fst matchType s epsilon = [] ∧ labelled fst matchType s noLabel = []

theorem remaining_perm (hnodup : labels.Nodup) (hlabels : epsilon ∉ labels)
    (honce : ListsOnce fst matchType s labels) :
    (remaining fst matchType s labels).Perm (nonConsuming fst matchType s labels) := by
  have hanswer : ∀ l ∈ labels, answer fst matchType s l = labelled fst matchType s l := by
    intro l hl
    have hne : l ≠ epsilon := fun heq => hlabels (heq ▸ hl)
    by_cases hno : l = noLabel
    · subst hno
      rcases honce with hnot | ⟨heps, hnone⟩
      · exact absurd hl hnot
      · rw [answer_noLabel, heps, hnone]
    · exact answer_implicit hne hno s
  have hflat : remaining fst matchType s labels =
      (labels ++ [epsilon]).flatMap (labelled fst matchType s) := by
    unfold remaining
    rw [List.flatMap_append, List.flatMap_singleton, List.flatMap_congr hanswer]
  have hall : (labels ++ [epsilon]).Nodup := by
    rw [List.nodup_append]
    refine ⟨hnodup, List.nodup_singleton _, fun l hl l' hl' heq => hlabels ?_⟩
    rw [List.mem_singleton.mp hl'] at heq
    exact heq ▸ hl
  rw [hflat]
  refine (flatMap_filter_perm (matchedLabel matchType) (fst.arcs s) hall).trans ?_
  unfold nonConsuming
  simp

theorem listsOnce_of_perm (hlabels : epsilon ∉ labels)
    (hperm : (remaining fst matchType s labels).Perm (nonConsuming fst matchType s labels)) :
    ListsOnce fst matchType s labels := by
  by_cases hmem : noLabel ∈ labels
  · refine .inr ⟨?_, ?_⟩
    · -- they would be listed twice
      have hcount := (hperm.countP_eq fun arc => matchedLabel matchType arc = epsilon)
      have hsecond : List.countP (fun arc => decide (matchedLabel matchType arc = epsilon))
          (labelled fst matchType s epsilon) = (labelled fst matchType s epsilon).length := by
        rw [List.countP_eq_length]
        intro arc harc
        exact decide_eq_true (matchedLabel_labelled harc)
      have hfirst := ((List.singleton_sublist.mpr hmem).flatMap (answer fst matchType s)).countP_le
        (p := fun arc => decide (matchedLabel matchType arc = epsilon))
      have hthere : List.countP (fun arc => decide (matchedLabel matchType arc = epsilon))
          (nonConsuming fst matchType s labels) = (labelled fst matchType s epsilon).length := by
        unfold nonConsuming labelled
        rw [List.countP_filter, List.countP_eq_length_filter]
        congr 1
        apply List.filter_congr
        intro arc _
        by_cases harc : matchedLabel matchType arc = epsilon <;> simp [harc]
      unfold remaining at hcount
      rw [List.countP_append, hsecond, hthere] at hcount
      rw [List.flatMap_singleton, answer_noLabel, hsecond] at hfirst
      exact List.length_eq_zero_iff.mp (by omega)
    · rw [List.eq_nil_iff_forall_not_mem]
      intro arc harc
      have hlabel := matchedLabel_labelled harc
      have hthere : arc ∈ nonConsuming fst matchType s labels := by
        unfold nonConsuming
        rw [List.mem_filter]
        exact ⟨(List.mem_filter.mp harc).1, by simp [hlabel, hmem]⟩
      exact matchedLabel_remaining_ne hlabels (hperm.mem_iff.mpr hthere) hlabel
  · exact .inl hmem

end Presented

section Claim

/- What a search for an ordinary label presents. -/
def RhoPresents (fst : VectorFst L W) (matchType : MatchType) (h : Handle ℕ L (Arc L W) M) (s : ℕ)
    (m : RhoMatcher L M) : Prop :=
  ∀ l, PhiExact.Ordinary m.rhoLabel l → ∃ m', m.find h l =
      some (!(rhoAnswer fst matchType m.rhoLabel m.rewriteBoth s l).isEmpty, m') ∧
    Yields (RhoMatcher.done h) (RhoMatcher.value h) (fun m => some (RhoMatcher.next h m)) m'
      (rhoAnswer fst matchType m.rhoLabel m.rewriteBoth s l)

def SigmaPresents (fst : VectorFst L W) (matchType : MatchType) (h : Handle ℕ L (Arc L W) M)
    (s : ℕ) (m : SigmaMatcher L M) : Prop :=
  ∀ l, PhiExact.Ordinary m.sigmaLabel l → ∃ m', m.find h l =
      some (!(sigmaAnswer fst matchType m.sigmaLabel m.rewriteBoth s l).isEmpty, m') ∧
    Yields (SigmaMatcher.done h) (SigmaMatcher.value h) (SigmaMatcher.next h) m'
      (sigmaAnswer fst matchType m.sigmaLabel m.rewriteBoth s l)

/- Every non-consuming arc once, and the implicit loop for a multi-epsilon label. -/
structure MultiEpsPresents (fst : VectorFst L W) (matchType : MatchType)
    (h : Handle ℕ L (Arc L W) M) (s : ℕ) (m : MultiEpsMatcher L M) : Prop where
  list : m.flags.list = true → ∃ m' arcs, m.find h noLabel = some (!arcs.isEmpty, m') ∧
    Yields MultiEpsMatcher.done (MultiEpsMatcher.value h ·) (MultiEpsMatcher.next h) m' arcs ∧
    arcs.Perm (nonConsuming fst matchType s m.multiEpsLabels)
  loop : m.flags.loop = true → ∀ l ∈ m.multiEpsLabels, ∃ m', m.find h l = some (true, m') ∧
    Yields MultiEpsMatcher.done (MultiEpsMatcher.value h ·) (MultiEpsMatcher.next h) m'
      [loopArc matchType s]

/- No multi-epsilon label is answered with the implicit loop. -/
theorem no_loop_presented (hl : Lawful h (answer fst matchType) Valid At Left)
    {flags : MultiEpsFlags} (hm : MultiEpsKept Valid At flags (some s) m)
    (hloop : m.flags.loop = true) {l : L} (hmem : l ∈ m.multiEpsLabels) :
    ¬ ∃ m', m.find h l = some (true, m') ∧
      Yields MultiEpsMatcher.done (MultiEpsMatcher.value h ·) (MultiEpsMatcher.next h) m'
        [loopArc matchType s] := by
  rintro ⟨m', hfind, hyields⟩
  have hloopArc := matchedLabel_loopArc L W matchType s
  by_cases hno : l = noLabel
  · subst hno
    by_cases hlist : m.flags.list = true
    · obtain ⟨n, hfind', hyields'⟩ := multiEps_find_list hl hm.inner hlist
      rw [hfind'] at hfind
      obtain ⟨-, rfl⟩ := Prod.mk.inj (Option.some.inj hfind)
      have hsame := hyields.unique hyields'
      have hthere : loopArc matchType s ∈ remaining fst matchType s m.multiEpsLabels := by
        rw [← hsame]
        exact List.mem_singleton_self _
      exact matchedLabel_remaining_ne hm.ne_epsilon hthere hloopArc
    · obtain ⟨found, n, hfind', hyields'⟩ := multiEps_find_noLabel hl hm.inner hlist
      rw [hfind'] at hfind
      obtain ⟨-, rfl⟩ := Prod.mk.inj (Option.some.inj hfind)
      have hsame := hyields.unique hyields'
      have hthere : loopArc matchType s ∈ labelled fst matchType s epsilon := by
        rw [← hsame]
        exact List.mem_singleton_self _
      exact ArcLabel.epsilon_ne_noLabel ((matchedLabel_labelled hthere).symm.trans hloopArc)
  · have hne : l ≠ epsilon := fun heq => hm.ne_epsilon (heq ▸ hmem)
    obtain ⟨n, hfind', hyields'⟩ := multiEps_find_loop (h := h) hloop hmem hne hno hm.loopState
    rw [hfind'] at hfind
    obtain ⟨-, rfl⟩ := Prod.mk.inj (Option.some.inj hfind)
    have hsame := List.singleton_inj.mp (hyields.unique hyields')
    unfold loopArc at hsame
    split at hsame
    · exact ArcLabel.epsilon_ne_noLabel (congrArg Arc.olabel hsame)
    · exact ArcLabel.epsilon_ne_noLabel (congrArg Arc.ilabel hsame)

theorem multiEps_presents_iff (hl : Lawful h (answer fst matchType) Valid At Left)
    {flags : MultiEpsFlags} (hm : MultiEpsKept Valid At flags (some s) m) :
    MultiEpsPresents fst matchType h s m ↔
      (m.flags.list = true → ListsOnce fst matchType s m.multiEpsLabels) ∧
        (m.flags.loop = true → m.multiEpsLabels = []) := by
  constructor
  · intro hpresents
    constructor
    · intro hlist
      obtain ⟨m', arcs, hfind, hyields, hperm⟩ := hpresents.list hlist
      obtain ⟨n, hfind', hyields'⟩ := multiEps_find_list hl hm.inner hlist
      rw [hfind'] at hfind
      obtain ⟨-, rfl⟩ := Prod.mk.inj (Option.some.inj hfind)
      rw [hyields.unique hyields'] at hperm
      exact listsOnce_of_perm hm.ne_epsilon hperm
    · intro hloop
      rw [List.eq_nil_iff_forall_not_mem]
      exact fun l hmem => no_loop_presented hl hm hloop hmem (hpresents.loop hloop l hmem)
  · rintro ⟨hlist, hloop⟩
    constructor
    · intro hflag
      obtain ⟨m', hfind, hyields⟩ := multiEps_find_list hl hm.inner hflag
      exact ⟨m', _, hfind, hyields, remaining_perm hm.nodup hm.ne_epsilon (hlist hflag)⟩
    · intro hflag l hmem
      rw [hloop hflag] at hmem
      cases hmem

variable [Zero W] [DecidableEq W]

/- The matchers present the arcs they stand for, save for the loop of a multi-epsilon label and for
a multi-epsilon label that is no label. -/
theorem implicit_matchers_present_iff {fst : VectorFst L W} {matchType : MatchType}
    (hsorted : SortedOn fst matchType) {noState : ℕ} {rhoLabel sigmaLabel : L}
    {rhoMode sigmaMode : MatcherRewriteMode} {flags : MultiEpsFlags}
    {rho₀ rho : RhoMatcher L (Matcher.SortedMatcher L W)}
    {sigma₀ sigma : SigmaMatcher L (Matcher.SortedMatcher L W)}
    {multiEps₀ multiEps : MultiEpsMatcher L (Matcher.SortedMatcher L W)} {s t u : ℕ}
    (hrhoNew : RhoMatcher.newWithOptions fst (Matcher.SortedMatcher.new fst matchType noState)
      matchType rhoLabel rhoMode = .ok rho₀)
    (hrho : RhoReached Matcher.SortedMatcher.handle rho₀ (some s) rho)
    (hsigmaNew : SigmaMatcher.newWithOptions fst (Matcher.SortedMatcher.new fst matchType noState)
      matchType sigmaLabel sigmaMode = .ok sigma₀)
    (hsigma : SigmaReached Matcher.SortedMatcher.handle sigma₀ (some t) sigma)
    (hmultiEpsNew : MultiEpsMatcher.newWithFlags (Matcher.SortedMatcher.new fst matchType noState)
      matchType flags = .ok multiEps₀)
    (hmultiEps : MultiEpsReached Matcher.SortedMatcher.handle multiEps₀ (some u) multiEps) :
    (rho.rhoLabel = rhoLabel ∧ RhoPresents fst matchType Matcher.SortedMatcher.handle s rho) ∧
        (sigma.sigmaLabel = sigmaLabel ∧
          SigmaPresents fst matchType Matcher.SortedMatcher.handle t sigma) ∧
        (multiEps.flags = flags ∧
          MultiEpsPresents fst matchType Matcher.SortedMatcher.handle u multiEps) ↔
      (flags.list = true → ListsOnce fst matchType u multiEps.multiEpsLabels) ∧
        (flags.loop = true → multiEps.multiEpsLabels = []) := by
  have hl := sorted_lawful hsorted
  have hrhoPresents : rho.rhoLabel = rhoLabel ∧
      RhoPresents fst matchType Matcher.SortedMatcher.handle s rho := by
    unfold RhoMatcher.newWithOptions at hrhoNew
    split at hrhoNew
    · cases hrhoNew
    split at hrhoNew
    · cases hrhoNew
    next hne =>
    cases hnew : Matcher.SortedMatcher.new fst matchType noState with
    | error e => simp [hnew, bind, Except.bind] at hrhoNew
    | ok x =>
      rw [hnew] at hrhoNew
      cases hrhoNew
      have hkept := rhoKept_of_reached hl hne
        ⟨sortedValid_new hnew, rfl, rfl, rfl, rfl, fun hhas => (by cases hhas),
          fun _ => .inr fun s hs => by cases hs⟩ hrho
      refine ⟨hkept.rhoLabel, fun l hlabel => ?_⟩
      exact rho_find hl (by rw [hkept.rhoLabel]; exact hne) hkept hkept.sameType hlabel
  have hsigmaPresents : sigma.sigmaLabel = sigmaLabel ∧
      SigmaPresents fst matchType Matcher.SortedMatcher.handle t sigma := by
    unfold SigmaMatcher.newWithOptions at hsigmaNew
    split at hsigmaNew
    · cases hsigmaNew
    split at hsigmaNew
    · cases hsigmaNew
    next hne =>
    cases hnew : Matcher.SortedMatcher.new fst matchType noState with
    | error e => simp [hnew, bind, Except.bind] at hsigmaNew
    | ok x =>
      rw [hnew] at hsigmaNew
      cases hsigmaNew
      have hkept := sigmaKept_of_reached hl hne
        ⟨sortedValid_new hnew, rfl, rfl, rfl, rfl, fun s hs => by cases hs⟩ hsigma
      refine ⟨hkept.sigmaLabel, fun l hlabel => ?_⟩
      exact sigma_find hl (by rw [hkept.sigmaLabel]; exact hne) hkept hkept.sameType hlabel
  cases hnew : Matcher.SortedMatcher.new fst matchType noState with
  | error e => simp [MultiEpsMatcher.newWithFlags, hnew, bind, Except.bind] at hmultiEpsNew
  | ok x =>
    rw [hnew] at hmultiEpsNew
    cases hmultiEpsNew
    have hkept := kept_of_reached hl
      ⟨sortedValid_new hnew, rfl, rfl, List.nodup_nil, List.not_mem_nil⟩ hmultiEps
    have hiff := multiEps_presents_iff hl hkept
    rw [hkept.sameFlags] at hiff
    exact ⟨fun hall => hiff.mp hall.2.2.2,
      fun hcond => ⟨hrhoPresents, hsigmaPresents, hkept.sameFlags, hiff.mpr hcond⟩⟩

end Claim

section Loops

/- A state with an arc of its own for a label, a rho or sigma arc and a multi-epsilon arc. -/
def implicitFst : VectorFst ℤ ℕ :=
  ⟨[⟨0, [⟨0, 0, 1, 1⟩, ⟨3, 3, 1, 1⟩, ⟨5, 5, 1, 1⟩, ⟨7, 7, 1, 1⟩], 0, 0⟩, ⟨1, [], 0, 0⟩], some 0, 0⟩

def innerMatcher : Matcher.SortedMatcher ℤ ℕ :=
  ⟨implicitFst, .input, none, [], 0, 0, loopArc .input 9, false, noLabel, true, false⟩

def multiEpsMatcher (labels : List ℤ) : MultiEpsMatcher ℤ (Matcher.SortedMatcher ℤ ℕ) :=
  ⟨innerMatcher, ⟨true, false⟩, labels, none, false, none, true, .input⟩

theorem implicit_matchers_present_list :
    (multiEpsMatcher []).addMultiEpsLabel 7 = .ok (multiEpsMatcher [7]) ∧
      MultiEpsPresents implicitFst .input Matcher.SortedMatcher.handle 0
        ((multiEpsMatcher [7]).setState Matcher.SortedMatcher.handle 0) := by
  have hsorted : SortedOn implicitFst .input := sortedOn_of_lt (by decide)
  have hrhoNew : RhoMatcher.newWithOptions implicitFst
      (Matcher.SortedMatcher.new implicitFst .input 9) .input 5 .always =
        .ok ⟨innerMatcher, .input, 5, true, noLabel, false, none, false⟩ := rfl
  have hsigmaNew : SigmaMatcher.newWithOptions implicitFst
      (Matcher.SortedMatcher.new implicitFst .input 9) .input 5 .always =
        .ok ⟨innerMatcher, .input, 5, true, noLabel, noLabel, false, none, false⟩ := rfl
  have hmultiEpsNew : MultiEpsMatcher.newWithFlags (L := ℤ)
      (Matcher.SortedMatcher.new implicitFst .input 9) .input ⟨true, false⟩ =
        .ok (multiEpsMatcher []) := rfl
  have hadd : (multiEpsMatcher []).addMultiEpsLabel 7 = .ok (multiEpsMatcher [7]) := rfl
  refine ⟨hadd, ((implicit_matchers_present_iff (t := 0) hsorted hrhoNew (.setState 0 .new)
    hsigmaNew (.setState .new rfl) hmultiEpsNew (.setState 0 (.addMultiEpsLabel .new hadd))).mpr
      ⟨fun _ => .inl ?_, fun hloop => ?_⟩).2.2.2⟩
  · decide
  · cases hloop

/- The loop that a multi-epsilon label is answered with has no label on the other side either. -/
theorem multiEps_loop_without_epsilon :
    SortedOn implicitFst .input ∧
      ∃ multiEps₀ multiEps found multiEps', MultiEpsMatcher.newWithFlags
          (Matcher.SortedMatcher.new implicitFst .input 9) .input ⟨true, true⟩ = .ok multiEps₀ ∧
        multiEps₀.addMultiEpsLabel 7 = .ok multiEps ∧
        (multiEps.setState Matcher.SortedMatcher.handle 0).find Matcher.SortedMatcher.handle 7 =
          some (found, multiEps') ∧
        found = true ∧ multiEps'.value Matcher.SortedMatcher.handle = some ⟨-1, -1, 1, 0⟩ ∧
        (loopArc .input 0 : Arc ℤ ℕ) = ⟨-1, 0, 1, 0⟩ :=
  ⟨sortedOn_of_lt (by decide), _, _, _, _, rfl, rfl, rfl, by decide, by decide, by decide⟩

end Loops

end MultiEpsExact

end Sicada.Matcher
