import Sicada.Library.ListLemmas
import Sicada.Matcher

namespace Sicada.MatcherExact

open Cursor Matcher ListLemmas

variable {L W : Type} [ArcLabel L]

/- The label a query is for. -/
def queried (label : L) : L := if label = noLabel then epsilon else label

/- The arcs of a state that carry a label. -/
def labelled (fst : VectorFst L W) (matchType : MatchType) (state : ℕ) (label : L) :
    List (Arc L W) :=
  (fst.arcs state).filter fun arc => matchedLabel matchType arc = label

/- The arcs a query should be answered with. -/
def answer [One W] (fst : VectorFst L W) (matchType : MatchType) (state : ℕ) (label : L) :
    List (Arc L W) :=
  (if label = epsilon then [loopArc matchType state] else []) ++
    labelled fst matchType state (queried label)

def SortedOn (fst : VectorFst L W) (matchType : MatchType) : Prop :=
  ∀ s, ((fst.arcs s).map (matchedLabel matchType)).Pairwise (· ≤ ·)

/- Only the states there are need be looked at. -/
theorem sortedOn_of_lt {fst : VectorFst L W} {matchType : MatchType}
    (h : ∀ s < fst.numStates, ((fst.arcs s).map (matchedLabel matchType)).Pairwise (· ≤ ·)) :
    SortedOn fst matchType := by
  intro s
  by_cases hs : s < fst.numStates
  · exact h s hs
  · rw [VectorFst.arcs_of_le (Nat.le_of_not_lt hs)]
    exact List.Pairwise.nil

theorem labelled_of_le {fst : VectorFst L W} {matchType : MatchType} {s : ℕ}
    (hs : fst.numStates ≤ s) (label : L) : labelled fst matchType s label = [] := by
  unfold labelled
  rw [VectorFst.arcs_of_le hs]
  rfl

variable [One W]

theorem isEmpty_answer (fst : VectorFst L W) (matchType : MatchType) (s : ℕ) (l : L) :
    (!(answer fst matchType s l).isEmpty) =
      (decide (0 < (labelled fst matchType s (queried l)).length) || decide (l = epsilon)) := by
  unfold answer
  by_cases hl : l = epsilon
  · simp [hl]
  · cases labelled fst matchType s (queried l) <;> simp [hl]

section Sorted

variable {fst : VectorFst L W} {matchType : MatchType} {m : Matcher.SortedMatcher L W} {s : ℕ}
  {rest : List (Arc L W)}

structure SortedValid (fst : VectorFst L W) (matchType : MatchType) (m : Matcher.SortedMatcher L W) :
    Prop where
  sameFst : m.fst = fst
  sameType : m.matchType = matchType
  noError : m.error = false
  loop : m.loopArc = loopArc matchType m.loopArc.nextstate
  here : ∀ s, m.state = some s → m.arcs = fst.arcs s ∧ m.loopArc.nextstate = s

structure SortedAt (fst : VectorFst L W) (matchType : MatchType) (m : Matcher.SortedMatcher L W) (s : ℕ) :
    Prop extends SortedValid fst matchType m where
  state : m.state = some s

/- The arcs from `pos` up to `stop` are left, after the loop. -/
structure SortedLeft (fst : VectorFst L W) (matchType : MatchType) (m : Matcher.SortedMatcher L W) (s : ℕ)
    (rest : List (Arc L W)) : Prop extends SortedAt fst matchType m s where
  exactly : m.exactMatch = true
  left : rest = (if m.currentLoop then [m.loopArc] else []) ++ (m.arcs.take m.stop).drop m.pos
  inside : m.stop ≤ m.arcs.length
  labels : ∀ arc ∈ (m.arcs.take m.stop).drop m.pos, matchedLabel matchType arc = m.matchLabel

theorem nextstate_loopArc (matchType : MatchType) (s : ℕ) :
    (loopArc matchType s : Arc L W).nextstate = s := by
  unfold loopArc
  split <;> rfl

theorem moved_loopArc {arc : Arc L W} {t : ℕ} (h : arc = loopArc matchType t) (s : ℕ) :
    { arc with nextstate := s } = (loopArc matchType s : Arc L W) := by
  rw [h]
  unfold loopArc
  split <;> rfl

theorem sortedAt_setState (h : SortedValid fst matchType m) (s : ℕ) :
    SortedAt fst matchType (m.setState s) s := by
  unfold Matcher.SortedMatcher.setState
  split
  · next hs => exact ⟨h, hs⟩
  · refine ⟨⟨h.sameFst, h.sameType, h.noError, moved_loopArc h.loop s, ?_⟩, rfl⟩
    intro t ht
    cases ht
    exact ⟨congrArg (VectorFst.arcs · s) h.sameFst, rfl⟩

theorem setState_of_at (h : SortedAt fst matchType m s) : m.setState s = m := by
  unfold Matcher.SortedMatcher.setState
  rw [if_pos h.state]

theorem partitionPoint_le (p : Arc L W → Bool) (arcs : List (Arc L W)) :
    Matcher.SortedMatcher.partitionPoint p arcs ≤ arcs.length := (List.takeWhile_prefix p).length_le

/- Between the two points stand the arcs that carry the label. -/
theorem slice_search {arcs : List (Arc L W)} (label : L)
    (hsorted : (arcs.map (matchedLabel matchType)).Pairwise (· ≤ ·)) (start width : ℕ)
    (hstart : start =
      Matcher.SortedMatcher.partitionPoint (fun arc => matchedLabel matchType arc < label) arcs)
    (hwidth : width = Matcher.SortedMatcher.partitionPoint
      (fun arc => matchedLabel matchType arc ≤ label) (arcs.drop start)) :
    (arcs.take (start + width)).drop start =
        (arcs.filter fun arc => matchedLabel matchType arc = label) ∧
      start + width ≤ arcs.length := by
  have hfirst := partitionPoint_le (fun arc => matchedLabel matchType arc < label) arcs
  have hsecond := partitionPoint_le (fun arc => matchedLabel matchType arc ≤ label)
    (arcs.drop start)
  rw [← hstart] at hfirst
  rw [← hwidth, List.length_drop] at hsecond
  refine ⟨?_, by omega⟩
  rw [List.drop_take, Nat.add_sub_cancel_left, hwidth, Matcher.SortedMatcher.partitionPoint,
    take_length_takeWhile, hstart, Matcher.SortedMatcher.partitionPoint, drop_length_takeWhile]
  exact takeWhile_dropWhile_of_sorted label hsorted

theorem sorted_find (hsorted : SortedOn fst matchType) (h : SortedAt fst matchType m s) (l : L) :
    (m.find l).1 = (!(answer fst matchType s l).isEmpty) ∧
      SortedLeft fst matchType (m.find l).2 s (answer fst matchType s l) := by
  obtain ⟨harcs, hnext⟩ := h.here s h.state
  let start := Matcher.SortedMatcher.partitionPoint
    (fun arc => matchedLabel matchType arc < queried l) (fst.arcs s)
  let width := Matcher.SortedMatcher.partitionPoint
    (fun arc => matchedLabel matchType arc ≤ queried l) ((fst.arcs s).drop start)
  obtain ⟨hslice, hinside⟩ := slice_search (queried l) (hsorted s) start width rfl rfl
  have hfind : m.find l = (decide (start < start + width) || decide (l = epsilon),
      { m with
        exactMatch := true
        currentLoop := l = epsilon
        matchLabel := queried l
        pos := start
        stop := start + width }) := by
    unfold Matcher.SortedMatcher.find Matcher.SortedMatcher.search
    simp only [h.noError, h.sameType, harcs, Bool.false_eq_true, if_false, if_true]
    rfl
  have hlength : (labelled fst matchType s (queried l)).length = width := by
    unfold labelled
    rw [← hslice, List.length_drop, List.length_take]
    omega
  rw [hfind]
  refine ⟨?_, ⟨⟨⟨h.sameFst, h.sameType, h.noError, h.loop, h.here⟩, h.state⟩, rfl, ?_, ?_, ?_⟩⟩
  · rw [isEmpty_answer, hlength]
    dsimp only
    rw [decide_eq_decide.mpr (by omega : start < start + width ↔ 0 < width)]
  · dsimp only
    rw [harcs, hslice, h.loop, hnext]
    unfold answer
    by_cases hl : l = epsilon
    · simp [hl, labelled]
    · simp [hl, labelled]
  · dsimp only
    rw [harcs]
    exact hinside
  · dsimp only
    rw [harcs, hslice]
    intro arc harc
    simpa using (List.mem_filter.mp harc).2

theorem sortedValid_find (h : SortedValid fst matchType m) (l : L) :
    SortedValid fst matchType (m.find l).2 := by
  unfold Matcher.SortedMatcher.find Matcher.SortedMatcher.search
  split
  · exact ⟨h.sameFst, h.sameType, h.noError, h.loop, h.here⟩
  · dsimp only
    split <;> exact ⟨h.sameFst, h.sameType, h.noError, h.loop, h.here⟩

theorem drop_eq_getElem_cons {xs : List (Arc L W)} {pos stop : ℕ} (hlt : pos < stop)
    (hstop : stop ≤ xs.length) : ∃ arc, xs[pos]? = some arc ∧
      (xs.take stop).drop pos = arc :: (xs.take stop).drop (pos + 1) := by
  have hpos : pos < (xs.take stop).length := by
    rw [List.length_take]
    omega
  refine ⟨xs.get ⟨pos, by omega⟩, List.getElem?_eq_getElem _, ?_⟩
  rw [List.drop_eq_getElem_cons hpos, List.getElem_take]
  rfl

theorem sorted_done (h : SortedLeft fst matchType m s rest) : m.done = some rest.isEmpty := by
  unfold Matcher.SortedMatcher.done
  rw [h.left]
  by_cases hloop : m.currentLoop
  · simp [hloop]
  · rw [if_neg hloop, if_neg hloop, List.nil_append, h.exactly]
    by_cases hend : m.stop ≤ m.pos
    · rw [if_pos hend, List.drop_eq_nil_of_le (by rw [List.length_take]; omega)]
      rfl
    · obtain ⟨arc, hget, hdrop⟩ := drop_eq_getElem_cons (Nat.lt_of_not_le hend) h.inside
      have hlabel := h.labels arc (by rw [hdrop]; exact List.mem_cons_self)
      rw [if_neg hend, hget, hdrop, h.sameType]
      simp [hlabel]

theorem sorted_value {arc : Arc L W} (h : SortedLeft fst matchType m s (arc :: rest)) :
    m.value = some arc := by
  unfold Matcher.SortedMatcher.value
  have hleft := h.left
  by_cases hloop : m.currentLoop
  · rw [if_pos hloop] at hleft ⊢
    rw [(List.cons.inj hleft).1]
  · rw [if_neg hloop, List.nil_append] at hleft
    rw [if_neg hloop]
    by_cases hend : m.stop ≤ m.pos
    · rw [List.drop_eq_nil_of_le (by rw [List.length_take]; omega)] at hleft
      cases hleft
    · obtain ⟨first, hget, hdrop⟩ := drop_eq_getElem_cons (Nat.lt_of_not_le hend) h.inside
      rw [hdrop] at hleft
      rw [hget, (List.cons.inj hleft).1]

theorem sorted_next (h : SortedLeft fst matchType m s rest) :
    SortedLeft fst matchType m.next s rest.tail := by
  unfold Matcher.SortedMatcher.next
  by_cases hloop : m.currentLoop
  · rw [if_pos hloop]
    refine ⟨⟨⟨h.sameFst, h.sameType, h.noError, h.loop, h.here⟩, h.state⟩, h.exactly, ?_, h.inside,
      h.labels⟩
    rw [h.left, if_pos hloop]
    rfl
  · have htail : ((m.arcs.take m.stop).drop m.pos).tail = (m.arcs.take m.stop).drop (m.pos + 1) := by
      rw [List.tail_drop]
    rw [if_neg hloop]
    refine ⟨⟨⟨h.sameFst, h.sameType, h.noError, h.loop, h.here⟩, h.state⟩, h.exactly, ?_, h.inside,
      ?_⟩
    · dsimp only
      rw [h.left, if_neg hloop, List.nil_append, List.nil_append, htail]
    · intro arc harc
      rw [← htail] at harc
      exact h.labels arc (List.mem_of_mem_tail harc)

theorem sortedValid_next (h : SortedValid fst matchType m) : SortedValid fst matchType m.next := by
  unfold Matcher.SortedMatcher.next
  split <;> exact ⟨h.sameFst, h.sameType, h.noError, h.loop, h.here⟩

theorem state_next : m.next.state = m.state := by
  unfold Matcher.SortedMatcher.next
  split <;> rfl

theorem sorted_lawful (hsorted : SortedOn fst matchType) :
    Lawful Matcher.SortedMatcher.handle (answer fst matchType) (SortedValid fst matchType)
      (SortedAt fst matchType) (SortedLeft fst matchType) := by
  constructor
  · intro m s h
    exact sortedAt_setState h s
  · intro m s rest h
    change SortedLeft fst matchType (m.setState s) s rest
    rw [setState_of_at h.toSortedAt]
    exact h
  · intro m s h
    exact h
  · intro m s t h
    exact h
  · intro m s t rest h
    exact h
  · intro m s l h
    obtain ⟨hfound, hleft⟩ := sorted_find hsorted h l
    exact ⟨(m.find l).2, congrArg (fun b => some (b, (m.find l).2)) hfound, hleft⟩
  · intro m l found m' h hfind
    obtain rfl : (m.find l).2 = m' := congrArg Prod.snd (Option.some.inj hfind)
    exact sortedValid_find h l
  · intro m s rest h
    exact sorted_done h
  · intro m s arc rest h
    exact sorted_value h
  · intro m s rest h
    exact sorted_next h
  · intro m s h
    exact ⟨sortedValid_next h.toSortedValid, state_next.trans h.state⟩
  · intro m h
    exact sortedValid_next h
  · intro m s rest h
    exact h.toSortedAt
  · intro m s h
    exact h.toSortedValid

theorem sortedValid_new {noState : ℕ}
    (hnew : Matcher.SortedMatcher.new fst matchType noState = .ok m) : SortedValid fst matchType m := by
  unfold Matcher.SortedMatcher.new at hnew
  split at hnew
  · cases hnew
  · cases hnew
    refine ⟨rfl, rfl, rfl, ?_, fun s hs => by cases hs⟩
    dsimp only
    rw [nextstate_loopArc]

end Sorted

section Hashed

variable {fst : VectorFst L W} {matchType : MatchType} {m : Matcher.HashMatcher L W} {s : ℕ}
  {rest : List (Arc L W)}

/- Every entry of the table, whichever copy made it, is that of its state. -/
structure HashValid (fst : VectorFst L W) (matchType : MatchType) (m : Matcher.HashMatcher L W) :
    Prop where
  sameFst : m.fst = fst
  sameType : m.matchType = matchType
  loop : m.loopArc = loopArc matchType m.loopArc.nextstate
  table : ∀ s table, m.stateTable s = some table →
    table = Matcher.HashMatcher.labelTable matchType (fst.arcs s)
  here : ∀ s, m.state = some s → (m.stateTable s).isSome = true ∧ m.loopArc.nextstate = s

structure HashAt (fst : VectorFst L W) (matchType : MatchType) (m : Matcher.HashMatcher L W) (s : ℕ) :
    Prop extends HashValid fst matchType m where
  state : m.state = some s

structure HashLeft (fst : VectorFst L W) (matchType : MatchType) (m : Matcher.HashMatcher L W) (s : ℕ)
    (rest : List (Arc L W)) : Prop extends HashAt fst matchType m s where
  left : rest = (if m.currentLoop then [m.loopArc] else []) ++
    (m.currentMatches.getD []).drop m.pos

theorem foldl_pushArc (arcs : List (Arc L W)) (table : L → Option (List (Arc L W))) (label : L) :
    (arcs.foldl (Matcher.HashMatcher.pushArc matchType) table label).getD [] =
      (table label).getD [] ++ arcs.filter fun arc => matchedLabel matchType arc = label := by
  induction arcs generalizing table with
  | nil => simp
  | cons arc arcs ih =>
    rw [List.foldl_cons, ih, Matcher.HashMatcher.pushArc, Function.update_apply]
    by_cases hlabel : matchedLabel matchType arc = label
    · subst hlabel
      simp
    · have hne : ¬ label = matchedLabel matchType arc := fun heq => hlabel heq.symm
      simp [hne, hlabel]

theorem foldl_pushArc_ne_nil (arcs : List (Arc L W)) {table : L → Option (List (Arc L W))}
    (htable : ∀ label, table label ≠ some []) (label : L) :
    arcs.foldl (Matcher.HashMatcher.pushArc matchType) table label ≠ some [] := by
  induction arcs generalizing table with
  | nil => exact htable label
  | cons arc arcs ih =>
    rw [List.foldl_cons]
    apply ih
    intro other
    rw [Matcher.HashMatcher.pushArc, Function.update_apply]
    split
    · simp
    · exact htable other

theorem labelTable_getD (matchType : MatchType) (arcs : List (Arc L W)) (label : L) :
    (Matcher.HashMatcher.labelTable matchType arcs label).getD [] =
      arcs.filter fun arc => matchedLabel matchType arc = label := foldl_pushArc arcs _ label

theorem labelTable_ne_nil (matchType : MatchType) (arcs : List (Arc L W)) (label : L) :
    Matcher.HashMatcher.labelTable matchType arcs label ≠ some [] :=
  foldl_pushArc_ne_nil arcs (fun _ heq => by cases heq) label

theorem hashValid_fill (h : HashValid fst matchType m) (s : ℕ) :
    HashValid fst matchType (m.fill s) ∧ ((m.fill s).stateTable s).isSome = true := by
  unfold Matcher.HashMatcher.fill
  split
  · next table htable => exact ⟨h, by rw [htable]; rfl⟩
  · refine ⟨⟨h.sameFst, h.sameType, h.loop, ?_, ?_⟩, by simp⟩
    · intro t table htable
      dsimp only at htable
      rw [Function.update_apply] at htable
      split at htable
      · next heq =>
        cases htable
        rw [heq, h.sameFst, h.sameType]
      · exact h.table t table htable
    · intro t ht
      obtain ⟨hsome, hnext⟩ := h.here t ht
      refine ⟨?_, hnext⟩
      dsimp only
      rw [Function.update_apply]
      split
      · rfl
      · exact hsome

theorem fill_eq (m : Matcher.HashMatcher L W) (s : ℕ) :
    m.fill s = { m with stateTable := (m.fill s).stateTable } := by
  unfold Matcher.HashMatcher.fill
  split <;> rfl

theorem hashAt_setState (h : HashValid fst matchType m) (s : ℕ) :
    HashAt fst matchType (m.setState s) s := by
  unfold Matcher.HashMatcher.setState
  split
  · next hs => exact ⟨h, hs⟩
  · have hmoved : HashValid fst matchType
        { m with state := none, loopArc := { m.loopArc with nextstate := s } } :=
      ⟨h.sameFst, h.sameType, moved_loopArc h.loop s, h.table, fun t ht => by cases ht⟩
    obtain ⟨hvalid, hsome⟩ := hashValid_fill hmoved s
    have heq : Matcher.HashMatcher.fill
          { m with state := some s, loopArc := { m.loopArc with nextstate := s } } s =
        { Matcher.HashMatcher.fill
          { m with state := none, loopArc := { m.loopArc with nextstate := s } } s with
          state := some s } := by
      unfold Matcher.HashMatcher.fill
      dsimp only
      split <;> rfl
    rw [heq]
    refine ⟨⟨hvalid.sameFst, hvalid.sameType, hvalid.loop, hvalid.table, ?_⟩, rfl⟩
    intro t ht
    cases ht
    refine ⟨hsome, ?_⟩
    dsimp only
    rw [fill_eq]

theorem hash_find (h : HashAt fst matchType m s) (l : L) :
    ∃ m', m.find l = some (!(answer fst matchType s l).isEmpty, m') ∧
      HashLeft fst matchType m' s (answer fst matchType s l) := by
  obtain ⟨hsome, hnext⟩ := h.here s h.state
  obtain ⟨table, htable⟩ := Option.isSome_iff_exists.mp hsome
  have hlabels := labelTable_getD matchType (fst.arcs s) (queried l)
  have hnonempty := labelTable_ne_nil matchType (fst.arcs s) (queried l)
  rw [← h.table s table htable] at hlabels hnonempty
  have hloop : m.loopArc = loopArc matchType s := by rw [h.loop, hnext]
  have hvalid := h.toHashValid
  cases hmatch : table (queried l) with
  | none =>
    rw [hmatch, Option.getD_none] at hlabels
    refine ⟨{ m with currentLoop := l = epsilon, currentMatches := none, pos := 0 }, ?_,
      ⟨⟨⟨hvalid.sameFst, hvalid.sameType, hvalid.loop, hvalid.table, hvalid.here⟩, h.state⟩, ?_⟩⟩
    · unfold Matcher.HashMatcher.find
      dsimp only
      rw [h.state, Option.map_some, htable, Option.bind_some]
      have hquery : table (if l = noLabel then epsilon else l) = none := hmatch
      simp only [hquery]
      rw [isEmpty_answer, labelled, ← hlabels]
      simp
    · dsimp only
      rw [answer, labelled, ← hlabels, hloop]
      simp
  | some arcs =>
    rw [hmatch, Option.getD_some] at hlabels
    have hpos : 0 < arcs.length := by
      rw [List.length_pos_iff]
      rintro rfl
      exact hnonempty hmatch
    refine ⟨{ m with currentLoop := l = epsilon, currentMatches := some arcs, pos := 0 }, ?_,
      ⟨⟨⟨hvalid.sameFst, hvalid.sameType, hvalid.loop, hvalid.table, hvalid.here⟩, h.state⟩, ?_⟩⟩
    · unfold Matcher.HashMatcher.find
      dsimp only
      rw [h.state, Option.map_some, htable, Option.bind_some]
      have hquery : table (if l = noLabel then epsilon else l) = some arcs := hmatch
      simp only [hquery]
      rw [isEmpty_answer, labelled, ← hlabels]
      simp [hpos]
    · dsimp only
      rw [answer, labelled, ← hlabels, hloop]
      simp

theorem hashValid_find {m' : Matcher.HashMatcher L W} {found : Bool} {l : L}
    (h : HashValid fst matchType m) (hfind : m.find l = some (found, m')) :
    HashValid fst matchType m' := by
  obtain ⟨s, -, hmatch⟩ := Option.map_eq_some_iff.mp hfind
  split at hmatch
  · cases hmatch
    exact ⟨h.sameFst, h.sameType, h.loop, h.table, h.here⟩
  · cases hmatch
    exact ⟨h.sameFst, h.sameType, h.loop, h.table, h.here⟩

theorem hash_done (h : HashLeft fst matchType m s rest) : some m.done = some rest.isEmpty := by
  unfold Matcher.HashMatcher.done
  rw [h.left]
  by_cases hloop : m.currentLoop
  · simp [hloop]
  · rw [if_neg hloop, if_neg hloop, List.nil_append]
    cases m.currentMatches with
    | none => simp
    | some arcs =>
      apply congrArg some
      apply Bool.eq_iff_iff.mpr
      rw [Option.getD_some, List.isEmpty_iff, List.drop_eq_nil_iff, decide_eq_true_iff]

theorem hash_value {arc : Arc L W} (h : HashLeft fst matchType m s (arc :: rest)) :
    m.value = some arc := by
  unfold Matcher.HashMatcher.value
  have hleft := h.left
  by_cases hloop : m.currentLoop
  · rw [if_pos hloop] at hleft ⊢
    rw [(List.cons.inj hleft).1]
  · rw [if_neg hloop, List.nil_append] at hleft
    rw [if_neg hloop]
    cases hmatches : m.currentMatches with
    | none => simp [hmatches] at hleft
    | some arcs =>
      rw [hmatches, Option.getD_some] at hleft
      have hhead := congrArg List.head? hleft
      rw [List.head?_drop, List.head?_cons] at hhead
      exact hhead.symm

theorem hash_next (h : HashLeft fst matchType m s rest) :
    HashLeft fst matchType m.next s rest.tail := by
  unfold Matcher.HashMatcher.next
  by_cases hloop : m.currentLoop
  · rw [if_pos hloop]
    refine ⟨⟨⟨h.sameFst, h.sameType, h.loop, h.table, h.here⟩, h.state⟩, ?_⟩
    rw [h.left, if_pos hloop]
    rfl
  · rw [if_neg hloop]
    refine ⟨⟨⟨h.sameFst, h.sameType, h.loop, h.table, h.here⟩, h.state⟩, ?_⟩
    dsimp only
    rw [h.left, if_neg hloop, List.nil_append, List.nil_append, List.tail_drop]

theorem hashValid_next (h : HashValid fst matchType m) : HashValid fst matchType m.next := by
  unfold Matcher.HashMatcher.next
  split <;> exact ⟨h.sameFst, h.sameType, h.loop, h.table, h.here⟩

theorem hash_lawful : Lawful Matcher.HashMatcher.handle (answer fst matchType)
    (HashValid fst matchType) (HashAt fst matchType) (HashLeft fst matchType) := by
  have hfillAt : ∀ (m : Matcher.HashMatcher L W) s t, HashAt fst matchType m t →
      HashAt fst matchType (m.fill s) t := by
    intro m s t h
    refine ⟨(hashValid_fill h.toHashValid s).1, ?_⟩
    rw [fill_eq]
    exact h.state
  constructor
  · intro m s h
    exact hashAt_setState h s
  · intro m s rest h
    change HashLeft fst matchType (m.setState s) s rest
    unfold Matcher.HashMatcher.setState
    rw [if_pos h.state]
    exact h
  · intro m s h
    exact (hashValid_fill h s).1
  · intro m s t h
    exact hfillAt m s t h
  · intro m s t rest h
    refine ⟨hfillAt m s t h.toHashAt, ?_⟩
    change rest = (if (m.fill s).currentLoop then [(m.fill s).loopArc] else []) ++
      ((m.fill s).currentMatches.getD []).drop (m.fill s).pos
    rw [fill_eq]
    exact h.left
  · intro m s l h
    exact hash_find h l
  · intro m l found m' h hfind
    exact hashValid_find h hfind
  · intro m s rest h
    exact hash_done h
  · intro m s arc rest h
    exact hash_value h
  · intro m s rest h
    exact hash_next h
  · intro m s h
    refine ⟨hashValid_next h.toHashValid, ?_⟩
    change m.next.state = some s
    unfold Matcher.HashMatcher.next
    split <;> exact h.state
  · intro m h
    exact hashValid_next h
  · intro m s rest h
    exact h.toHashAt
  · intro m s h
    exact h.toHashValid

theorem hashValid_new {noState : ℕ} (hnew : Matcher.HashMatcher.new fst matchType noState = .ok m) :
    HashValid fst matchType m := by
  unfold Matcher.HashMatcher.new at hnew
  split at hnew
  · cases hnew
  · cases hnew
    refine ⟨rfl, rfl, ?_, fun s table htable => (by cases htable), fun s hs => (by cases hs)⟩
    dsimp only
    rw [nextstate_loopArc]

end Hashed

/- Calls after a state is set are answered alike by the two matchers, and with the arcs they should
be; copies of the matchers may be set to other states in between. -/
theorem matchers_interchangeable {fst : VectorFst L W} {matchType : MatchType}
    (hsorted : SortedOn fst matchType) {noState : ℕ} {sorted : Matcher.SortedMatcher L W}
    {hash : Matcher.HashMatcher L W} (hsortedNew : Matcher.SortedMatcher.new fst matchType noState = .ok sorted)
    (hhashNew : Matcher.HashMatcher.new fst matchType noState = .ok hash) {calls : List (Call ℕ L)}
    {rs : List (Reply (Arc L W))}
    (hcalls : promises (answer fst matchType) calls ⟨none, none⟩ = some rs) :
    replies Matcher.SortedMatcher.handle calls sorted = some rs ∧
      replies Matcher.HashMatcher.handle calls hash = some rs :=
  ⟨replies_eq_of_valid (sorted_lawful hsorted) (sortedValid_new hsortedNew) hcalls,
    replies_eq_of_valid hash_lawful (hashValid_new hhashNew) hcalls⟩

section Moved

/- One arc at each of two states, under one label. -/
def twinFst : VectorFst ℤ ℕ :=
  ⟨[⟨1, [⟨1, 1, 2, 0⟩], 0, 0⟩, ⟨1, [⟨1, 1, 3, 1⟩], 0, 0⟩], some 0, 0⟩

def movedCalls : List (Call ℕ ℤ) := [.setState 0, .find 1, .setState 1, .done, .value]

theorem sortedOn_twin : SortedOn twinFst .input := sortedOn_of_lt (by decide)

theorem matchers_interchangeable_twin :
    ∃ sorted hash, Matcher.SortedMatcher.new twinFst .input 9 = .ok sorted ∧
      Matcher.HashMatcher.new twinFst .input 9 = .ok hash ∧
      replies Matcher.SortedMatcher.handle [.setState 0, .share 1, .find 1, .value, .next, .done] sorted =
        some [.moved, .moved, .found true, .value ⟨1, 1, 2, 0⟩, .moved, .done true] ∧
      replies Matcher.HashMatcher.handle [.setState 0, .share 1, .find 1, .value, .next, .done] hash =
        some [.moved, .moved, .found true, .value ⟨1, 1, 2, 0⟩, .moved, .done true] :=
  ⟨_, _, rfl, rfl, matchers_interchangeable sortedOn_twin rfl rfl (by decide)⟩

/- A state set in between leaves the one matcher among the arcs of the new state, the other among
those of the old. -/
theorem moved_apart :
    SortedOn twinFst .input ∧
      ∃ sorted hash rs rs', Matcher.SortedMatcher.new twinFst .input 9 = .ok sorted ∧
        Matcher.HashMatcher.new twinFst .input 9 = .ok hash ∧
        replies Matcher.SortedMatcher.handle movedCalls sorted = some rs ∧
        replies Matcher.HashMatcher.handle movedCalls hash = some rs' ∧
        rs = [.moved, .found true, .moved, .done false, .value ⟨1, 1, 3, 1⟩] ∧
        rs' = [.moved, .found true, .moved, .done false, .value ⟨1, 1, 2, 0⟩] ∧ rs ≠ rs' :=
  ⟨sortedOn_twin, _, _, _, _, rfl, rfl, rfl, rfl, by decide, by decide, by decide⟩

end Moved

end Sicada.MatcherExact
