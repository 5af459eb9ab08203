import Sicada.ComplementPaths
import Sicada.ComposeExact

namespace Sicada.ComplementRuns

open PropertyBits Paths Walk Relations ComplementPaths ComposeMoves ComposePaths ComposeExact SortedCopy

variable {L W : Type} [RhoLabel L] [CommSemiring W] [DecidableEq W]

/- The complement with an arc of its own for every label it may be asked for. -/
def expand (left : VectorFst L W) (complement : ComplementFst L W) : VectorFst L W where
  states := (List.range (complement.fst.numStates + 1)).map fun s =>
    ⟨complement.finalWeight s, (alphabet left).map (next complement.fst s), 0, 0⟩
  start := complement.start
  properties := complement.properties

section Expand

variable {left : VectorFst L W} {complement : ComplementFst L W} {s : ℕ}

theorem expand_state (hs : s ≤ complement.fst.numStates) :
    (expand left complement).states[s]? = some ⟨complement.finalWeight s,
      (alphabet left).map (next complement.fst s), 0, 0⟩ := by
  unfold expand
  simp [List.getElem?_range (Nat.lt_succ_of_le hs)]

theorem arcs_expand (hs : s ≤ complement.fst.numStates) :
    (expand left complement).arcs s = (alphabet left).map (next complement.fst s) :=
  VectorFst.arcs_of_getElem? (expand_state hs)

theorem finalWeight_expand (left : VectorFst L W) (hs : s ≤ complement.fst.numStates) :
    (expand left complement).finalWeight s = complement.finalWeight s :=
  VectorFst.finalWeight_of_getElem? (expand_state hs)

theorem numStates_expand : (expand left complement).numStates = complement.fst.numStates + 1 := by
  simp [VectorFst.numStates, expand]

theorem arc_of_expand {arc : Arc L W} (harc : arc ∈ (expand left complement).arcs s) :
    s ≤ complement.fst.numStates ∧ ∃ label ∈ alphabet left, next complement.fst s label = arc := by
  by_cases hs : s ≤ complement.fst.numStates
  · rw [arcs_expand hs] at harc
    exact ⟨hs, List.mem_map.mp harc⟩
  · rw [VectorFst.arcs_of_le (by rw [numStates_expand]; omega)] at harc
    exact absurd harc List.not_mem_nil

variable (h : Conforming complement.fst)
include h

theorem prepared_expand (hsorted : SortedLabels (sideLabel true) left)
    (hlabels : EveryArc (fun arc => arc.olabel ≠ noLabel) left)
    (hcounts : ∀ s, left.numOutputEpsilons s = (left.arcs s).countP (·.olabel = epsilon)) :
    Prepared left (expand left complement) := by
  refine ⟨hsorted, ?_, hlabels, ?_, hcounts, ?_⟩
  · intro s
    by_cases hs : s ≤ complement.fst.numStates
    · have hmap : ((alphabet left).map (next complement.fst s)).map (sideLabel false) =
          alphabet left := by
        rw [List.map_map]
        exact (List.map_congr_left fun label _ => (next_labels h s label).1).trans (List.map_id _)
      rw [arcs_expand hs, hmap]
      exact sorted_alphabet left
    · rw [VectorFst.arcs_of_le (by rw [numStates_expand]; omega)]
      exact List.isChain_nil
  · intro s arc harc
    obtain ⟨-, label, hlabel, rfl⟩ := arc_of_expand harc
    obtain ⟨t, arc', harc', rfl⟩ := exists_of_mem_alphabet hlabel
    rw [(next_labels h s _).1]
    exact hlabels t arc' harc'
  · intro s
    have hnone : ((expand left complement).arcs s).countP (·.ilabel = epsilon) = 0 := by
      rw [List.countP_eq_zero]
      intro arc harc
      obtain ⟨-, label, hlabel, rfl⟩ := arc_of_expand harc
      have hne : label ≠ epsilon := fun heps => epsilon_notMem_alphabet (heps ▸ hlabel)
      simpa [(next_labels h s label).1] using hne
    rw [hnone]
    by_cases hs : s ≤ complement.fst.numStates
    · simp [VectorFst.numInputEpsilons, expand_state hs]
    · have hnum : (expand left complement).states.length = complement.fst.numStates + 1 :=
        numStates_expand
      have hge : (expand left complement).states.length ≤ s := by omega
      simp [VectorFst.numInputEpsilons, List.getElem?_eq_none hge]

end Expand

variable {label : L} {start : ℕ}

section Matching

variable {complement : ComplementFst L W} (h : Conforming complement.fst)
  (hlabels : EveryArc (fun arc => Ordinary arc.ilabel) complement.fst)

def rhoMatcher (complement : ComplementFst L W) : RhoMatcher L W :=
  ⟨⟨complement.arcs, false⟩, rhoLabel, true⟩

theorem filter_label {arcs : List (Arc L W)} (hnodup : (arcs.map (·.ilabel)).Nodup) (label : L) :
    arcs.filter (fun arc => arc.ilabel = label) =
      (arcs.find? fun arc => arc.ilabel = label).toList := by
  induction arcs with
  | nil => rfl
  | cons arc arcs ih =>
    rw [List.map_cons, List.nodup_cons] at hnodup
    by_cases hlabel : arc.ilabel = label
    · have hrest : arcs.filter (fun arc => arc.ilabel = label) = [] := by
        rw [List.filter_eq_nil_iff]
        intro a ha heq
        have heq' : a.ilabel = label := by simpa using heq
        exact hnodup.1 (List.mem_map.mpr ⟨a, ha, heq'.trans hlabel.symm⟩)
      simp [hlabel, hrest]
    · simp [hlabel, ih hnodup.2]

include h hlabels

theorem filter_arcs (s : ℕ) (hlabel : label ≠ rhoLabel) :
    (complement.arcs s).filter (fun arc => arc.ilabel = label) =
      match s with
      | 0 => []
      | s + 1 => (((complement.fst.arcs s).find? fun arc => arc.ilabel = label).map fun arc =>
        { arc with nextstate := arc.nextstate + 1 }).toList := by
  have hrho : ∀ arcs : List (Arc L W), ((⟨rhoLabel, rhoLabel, 1, 0⟩ : Arc L W) :: arcs).filter
      (fun arc => arc.ilabel = label) = arcs.filter fun arc => arc.ilabel = label :=
    fun arcs => List.filter_cons_of_neg (by simpa using hlabel.symm)
  unfold ComplementFst.arcs
  rw [hrho]
  cases s with
  | zero => rfl
  | succ s =>
    rw [if_neg (Nat.succ_ne_zero s), Nat.add_sub_cancel, List.filter_map]
    have hfilter := filter_label (h.deterministic s) label
    simp only [Function.comp_def]
    rw [hfilter, Option.toList_map]

theorem find_rho (s : ℕ) : HashMatcher.find ⟨complement.arcs, false⟩ s rhoLabel =
    [(⟨rhoLabel, rhoLabel, 1, 0⟩ : Arc L W)] := by
  have hrest : (if s = 0 then [] else (complement.fst.arcs (s - 1)).map fun arc =>
      ({ arc with nextstate := arc.nextstate + 1 } : Arc L W)).filter
        (fun arc => arc.ilabel = rhoLabel) = [] := by
    rw [List.filter_eq_nil_iff]
    intro arc harc hrho
    split at harc
    · exact absurd harc List.not_mem_nil
    · obtain ⟨arc', harc', rfl⟩ := List.mem_map.mp harc
      exact (hlabels _ arc' harc').2 (by simpa using hrho)
  unfold HashMatcher.find HashMatcher.extractLabel ComplementFst.arcs
  simp only [if_neg (RhoLabel.rhoLabel_ne_noLabel (L := L)),
    if_neg (RhoLabel.rhoLabel_ne_epsilon (L := L)), Bool.false_eq_true, if_false]
  rw [List.filter_cons_of_pos (by simp), hrest]

theorem find_hash (s : ℕ) (hne : label ≠ epsilon) (hlabel : Ordinary label) :
    HashMatcher.find ⟨complement.arcs, false⟩ s label =
      match s with
      | 0 => ([] : List (Arc L W))
      | s + 1 => (((complement.fst.arcs s).find? fun arc => arc.ilabel = label).map fun arc =>
        { arc with nextstate := arc.nextstate + 1 }).toList := by
  rw [← filter_arcs h hlabels s hlabel.2]
  unfold HashMatcher.find HashMatcher.extractLabel
  simp only [if_neg hlabel.1, if_neg hne, Bool.false_eq_true, if_false]

/- No arc is an epsilon, so the loop is all there is to find. -/
theorem filter_epsilon (s : ℕ) :
    (complement.arcs s).filter (fun arc => arc.ilabel = epsilon) = ([] : List (Arc L W)) := by
  rw [filter_arcs h hlabels s RhoLabel.rhoLabel_ne_epsilon.symm]
  cases s with
  | zero => rfl
  | succ s =>
    have hnone : (complement.fst.arcs s).find? (fun arc => arc.ilabel = epsilon) = none := by
      rw [List.find?_eq_none]
      intro arc harc heps
      exact ilabel_ne_epsilon h harc (by simpa using heps)
    simp only [hnone]
    rfl

theorem find_epsilon (s : ℕ) : (rhoMatcher complement).find s epsilon =
    [(⟨noLabel, epsilon, 1, s⟩ : Arc L W)] := by
  have hhash : HashMatcher.find ⟨complement.arcs, false⟩ s epsilon =
      [(⟨noLabel, epsilon, 1, s⟩ : Arc L W)] := by
    unfold HashMatcher.find HashMatcher.extractLabel HashMatcher.loopArc
    simp only [if_neg (ArcLabel.epsilon_ne_noLabel (L := L)), Bool.false_eq_true, if_false, if_true]
    rw [filter_epsilon h hlabels]
  unfold RhoMatcher.find rhoMatcher
  rw [if_neg fun hrho => RhoLabel.rhoLabel_ne_epsilon hrho.1.symm]
  simp [hhash]

theorem find_noLabel (s : ℕ) : (rhoMatcher complement).find s noLabel = ([] : List (Arc L W)) := by
  have hhash : HashMatcher.find ⟨complement.arcs, false⟩ s noLabel = ([] : List (Arc L W)) := by
    unfold HashMatcher.find HashMatcher.extractLabel
    simp only [if_neg (ArcLabel.epsilon_ne_noLabel (L := L)).symm, Bool.false_eq_true, if_false,
      if_true]
    exact filter_epsilon h hlabels s
  unfold RhoMatcher.find rhoMatcher
  rw [if_neg fun hrho => RhoLabel.rhoLabel_ne_noLabel hrho.1.symm]
  simp [hhash]

/- What is found for a label is the arc it leads along, or the one that stands for the rest. -/
theorem find_ordinary (s : ℕ) (hne : label ≠ epsilon) (hlabel : Ordinary label) :
    (rhoMatcher complement).find s label = [next complement.fst s label] := by
  have hhash := find_hash h hlabels s hne hlabel
  have hrho := find_rho h hlabels s
  have hrest : (rhoMatcher complement).rhoLabel ≠ noLabel ∧ label ≠ epsilon ∧ label ≠ noLabel :=
    ⟨RhoLabel.rhoLabel_ne_noLabel, hne, hlabel.1⟩
  have hempty : HashMatcher.find ⟨complement.arcs, false⟩ s label = ([] : List (Arc L W)) →
      (rhoMatcher complement).find s label = [⟨label, label, 1, 0⟩] := by
    intro hnone
    unfold RhoMatcher.find
    rw [if_neg fun heq => hlabel.2 heq.1]
    simp only [rhoMatcher] at hrest ⊢
    simp [hnone, hrho, hrest, rewriteArc]
  cases s with
  | zero => exact hempty hhash
  | succ s =>
    cases hfind : (complement.fst.arcs s).find? fun arc => arc.ilabel = label with
    | none =>
      rw [next_of_none hfind]
      refine hempty ?_
      rw [hhash]
      simp [hfind]
    | some arc =>
      rw [next_of_some hfind]
      unfold RhoMatcher.find
      rw [if_neg fun heq => hlabel.2 heq.1]
      simp only [rhoMatcher, hhash, hfind]
      rfl

end Matching

section Steps

variable {left : VectorFst L W} {complement : ComplementFst L W} (h : Conforming complement.fst)
  (hlabels : EveryArc (fun arc => Ordinary arc.ilabel) complement.fst)
  (hleft : EveryArc (fun arc => Ordinary arc.olabel) left)

include h hlabels

/- The two matchers find the same for all the composition asks. -/
theorem find_expand {s : ℕ} (hs : s ≤ complement.fst.numStates)
    (hask : label = noLabel ∨ label = epsilon ∨ label ∈ alphabet left ∧ Ordinary label) :
    SortedMatcher.find ⟨expand left complement, false⟩ s label =
      (rhoMatcher complement).find s label := by
  have hextract : ∀ arc : Arc L W,
      SortedMatcher.extractLabel ⟨expand left complement, false⟩ arc = arc.ilabel := fun _ => rfl
  have hmap : ((alphabet left).map (next complement.fst s)).map (·.ilabel) = alphabet left := by
    rw [List.map_map]
    exact (List.map_congr_left fun l _ => (next_labels h s l).1).trans (List.map_id _)
  have hsorted : (((⟨expand left complement, false⟩ : SortedMatcher L W).fst.arcs s).map
      (SortedMatcher.extractLabel ⟨expand left complement, false⟩)).IsChain (· ≤ ·) := by
    change (((expand left complement).arcs s).map (·.ilabel)).IsChain (· ≤ ·)
    rw [arcs_expand hs, hmap]
    exact sorted_alphabet left
  have hfilter : ∀ m : L, ((expand left complement).arcs s).filter (fun arc => arc.ilabel = m) =
      ((alphabet left).filter (· = m)).map (next complement.fst s) := by
    intro m
    rw [arcs_expand hs, List.filter_map]
    refine congrArg (List.map _) (List.filter_congr fun l _ => ?_)
    simp [(next_labels h s l).1]
  have hnone : (alphabet left).filter (· = epsilon) = [] := by
    rw [List.filter_eq_nil_iff]
    intro l hl heps
    have heps' : l = epsilon := by simpa using heps
    exact epsilon_notMem_alphabet (heps' ▸ hl)
  rw [find_eq hsorted]
  simp only [hextract, hfilter]
  rcases hask with rfl | rfl | ⟨hmem, hordinary⟩
  · rw [find_noLabel h hlabels, if_neg ArcLabel.epsilon_ne_noLabel.symm, if_pos rfl, hnone]
    rfl
  · rw [find_epsilon h hlabels, if_pos rfl, if_neg ArcLabel.epsilon_ne_noLabel, hnone]
    rfl
  · have hne : label ≠ epsilon := fun heps => epsilon_notMem_alphabet (heps ▸ hmem)
    have honly : (alphabet left).filter (· = label) = [label] := by
      rw [List.filter_eq, List.count_eq_one_of_mem (nodup_alphabet left) hmem]
      rfl
    rw [find_ordinary h hlabels s hne hordinary, if_neg hne, if_neg hordinary.1, honly]
    rfl

include hleft

theorem composeStep_expand {l : ComposeLoop L W}
    (hstates : ∀ tuple ∈ l.states, tuple.s2 ≤ complement.fst.numStates)
    (hpending : ∀ q ∈ l.pending, q < l.states.length) :
    complement.composeStep ⟨left, true⟩ (rhoMatcher complement) l =
      .ok (composeStepThrough (sequenceFilter left) ⟨left, true⟩ ⟨expand left complement, false⟩
        (fun _ => true) l) := by
  obtain ⟨states, pending, done, ofst⟩ := l
  cases pending with
  | nil => rfl
  | cons q pending =>
    have hq : q < states.length := hpending q List.mem_cons_self
    have hs2 : (states.getD q ⟨0, 0, .default⟩).s2 ≤ complement.fst.numStates := by
      rw [List.getD_eq_getElem?_getD, List.getElem?_eq_getElem hq, Option.getD_some]
      exact hstates _ (List.getElem_mem hq)
    unfold ComplementFst.composeStep composeStepThrough
    dsimp only
    generalize states.getD q ⟨0, 0, .default⟩ = tuple at hs2 ⊢
    have hside : matchOnInput (⟨left, true⟩ : SortedMatcher L W) (rhoMatcher complement) tuple =
        .ok true := by
      have hpriority1 : ((SortedMatcher.priority ⟨left, true⟩ tuple.s1 : ℕ) : ℤ) ≠
          requirePriority := by
        unfold requirePriority
        omega
      have hpriority2 : (rhoMatcher complement).priority tuple.s2 = requirePriority := by
        have hrho := find_rho h hlabels tuple.s2
        unfold RhoMatcher.priority rhoMatcher
        dsimp only
        rw [if_neg RhoLabel.rhoLabel_ne_noLabel, hrho]
        rfl
      unfold matchOnInput
      dsimp only
      rw [if_neg fun hboth => hpriority1 hboth.1, if_neg hpriority1, if_pos hpriority2]
    have hfinal : complement.composeFinal ⟨left, true⟩ tuple q ofst =
        composeFinal left (expand left complement) tuple q ofst := by
      unfold ComplementFst.composeFinal composeFinal
      rw [finalWeight_expand left hs2]
    have hwalk : ∀ acc, (complement.walkedArcs ⟨left, true⟩ tuple.s1 tuple.s2 true).foldl
        (ComplementFst.matchArc ⟨left, true⟩ (rhoMatcher complement)
          (SequenceComposeFilter.setState left tuple.s1 tuple.fs) tuple.s1 tuple.s2 true) acc =
        (walkedArcs ⟨left, true⟩ ⟨expand left complement, false⟩ tuple.s1 tuple.s2 true).foldl
          (matchArcThrough ⟨left, true⟩ ⟨expand left complement, false⟩
            (sequenceFilter left tuple) tuple.s1 tuple.s2 true) acc := by
      intro acc
      change ((⟨epsilon, noLabel, 1, tuple.s1⟩ :: left.arcs tuple.s1).foldl _ acc) =
        ((⟨epsilon, noLabel, 1, tuple.s1⟩ :: left.arcs tuple.s1).foldl _ acc)
      refine List.foldl_ext _ _ _ fun acc arc harc => ?_
      have hask : arc.olabel = noLabel ∨ arc.olabel = epsilon ∨
          arc.olabel ∈ alphabet left ∧ Ordinary arc.olabel := by
        rcases List.mem_cons.mp harc with rfl | harc
        · exact Or.inl rfl
        · by_cases heps : arc.olabel = epsilon
          · exact Or.inr (Or.inl heps)
          · exact Or.inr (Or.inr ⟨mem_alphabet harc heps, hleft _ arc harc⟩)
      unfold ComplementFst.matchArc matchArcThrough
      simp only [if_true]
      rw [find_expand h hlabels hs2 hask]
      rfl
    rw [hside]
    dsimp only
    rw [hfinal, hwalk]

end Steps

section Paths

/- The one path of the expanded complement that spells a string. -/
def pathOn (left fst : VectorFst L W) : ℕ → List L → List (ℕ × Arc L W)
  | _, [] => []
  | s, label :: u => ((alphabet left).idxOf label, next fst s label) ::
      pathOn left fst (next fst s label).nextstate u

variable {left : VectorFst L W} {complement : ComplementFst L W}

theorem weights_pathOn (s : ℕ) (u : List L) :
    (pathOn left complement.fst s u).map (·.2.weight) = weightsOn complement.fst s u := by
  induction u generalizing s with
  | nil => rfl
  | cons label u ih => exact congrArg (List.cons _) (ih _)

variable {p : List (ℕ × Arc L W)}

theorem labels_mem {s t : ℕ} (hp : IsWalk (Leaves left) follow s p t) :
    ∀ label ∈ ostring p, label ∈ alphabet left := by
  induction p generalizing s with
  | nil => simp [ostring]
  | cons e p ih =>
    obtain ⟨he, hp⟩ := hp
    intro label hlabel
    by_cases heps : e.2.olabel = epsilon
    · rw [ComposeInterleave.ostring_cons_of_eps heps] at hlabel
      exact ih hp label hlabel
    · rw [ComposeInterleave.ostring_cons_of_ne heps] at hlabel
      rcases List.mem_cons.mp hlabel with rfl | hlabel
      · exact mem_alphabet (mem_of_leaves he) heps
      · exact ih hp label hlabel

variable (h : Conforming complement.fst) (hrange : complement.fst.InRange)

include h in
theorem strings_pathOn (left : VectorFst L W) {u : List L} (hu : ∀ label ∈ u, label ≠ epsilon) (s : ℕ) :
    istring (pathOn left complement.fst s u) = u ∧
      ostring (pathOn left complement.fst s u) = u := by
  induction u generalizing s with
  | nil => exact ⟨rfl, rfl⟩
  | cons label u ih =>
    obtain ⟨hne, hu⟩ := List.forall_mem_cons.mp hu
    obtain ⟨hin, hout⟩ := ih hu (next complement.fst s label).nextstate
    obtain ⟨hilabel, holabel⟩ := next_labels h s label
    rw [pathOn, ComposeInterleave.istring_cons_of_ne (by rw [hilabel]; exact hne),
      ComposeInterleave.ostring_cons_of_ne (by rw [holabel]; exact hne), hin, hout, hilabel,
      holabel]
    exact ⟨rfl, rfl⟩

include hrange

theorem walk_pathOn {s : ℕ} (hs : s ≤ complement.fst.numStates) {u : List L}
    (hu : ∀ label ∈ u, label ∈ alphabet left) :
    IsWalk (Leaves (expand left complement)) follow s (pathOn left complement.fst s u)
      (stateAfter complement.fst s u) := by
  induction u generalizing s with
  | nil => rfl
  | cons label u ih =>
    obtain ⟨hlabel, hu⟩ := List.forall_mem_cons.mp hu
    refine ⟨?_, ih (next_le hrange s label) hu⟩
    unfold Leaves
    rw [arcs_expand hs, List.getElem?_map, List.getElem?_idxOf hlabel]
    rfl

theorem start_le (hstart : complement.start = some start) :
    start ≤ complement.fst.numStates := by
  unfold ComplementFst.start at hstart
  split at hstart
  · cases hstart
  · obtain rfl := Option.some.inj hstart
    split
    next s hs => exact hrange.start s hs
    next => exact Nat.zero_le _

include h

/- A walk of the expanded complement is the one its string has. -/
theorem walk_expand {s t : ℕ} (hs : s ≤ complement.fst.numStates)
    (hp : IsWalk (Leaves (expand left complement)) follow s p t) :
    p = pathOn left complement.fst s (istring p) := by
  induction p generalizing s with
  | nil => rfl
  | cons e p ih =>
    obtain ⟨he, hp⟩ := hp
    unfold Leaves at he
    rw [arcs_expand hs, List.getElem?_map] at he
    obtain ⟨label, hlabel, hnext⟩ := Option.map_eq_some_iff.mp he
    obtain ⟨hilabel, -⟩ := next_labels h s label
    have hmem := List.mem_of_getElem? hlabel
    have hne : e.2.ilabel ≠ epsilon := by
      rw [← hnext, hilabel]
      exact fun heps => epsilon_notMem_alphabet (heps ▸ hmem)
    have hidx : (alphabet left).idxOf label = e.1 := by
      have hlt := (List.getElem?_eq_some_iff.mp hlabel).1
      have hget := List.getElem?_idxOf hmem
      exact (List.getElem?_inj hlt (nodup_alphabet left)).mp (hlabel.trans hget.symm) |>.symm
    have hle : e.2.nextstate ≤ complement.fst.numStates := hnext ▸ next_le hrange s label
    rw [ComposeInterleave.istring_cons_of_ne hne, pathOn, ← hnext, hilabel, hidx]
    refine congrArg₂ List.cons (Prod.ext rfl hnext.symm) ?_
    rw [hnext]
    exact ih hle hp

/- A path of the first FST meets the one path that spells its string, if that one is accepted. -/
theorem mem_meetingPaths (hstart : complement.start = some start) {q : List (ℕ × Arc L W)} :
    (p, q) ∈ meetingPaths left (expand left complement) ↔
      p ∈ acceptingPaths left ∧ q = pathOn left complement.fst start (ostring p) ∧
        complement.finalWeight (stateAfter complement.fst start (ostring p)) ≠ 0 := by
  have hle := start_le hrange hstart
  have hstart' : (expand left complement).start = some start := hstart
  have hstate := stateAfter_le hrange hle
  simp only [meetingPaths, Set.mem_ofPred_eq, mem_acceptingPaths hstart']
  constructor
  · rintro ⟨hp, ⟨t, hq, hfinal⟩, hmeet⟩
    have hpath := walk_expand h hrange hle hq
    rw [← hmeet] at hpath
    refine ⟨hp, hpath, ?_⟩
    obtain ⟨s, -, t', hwalk, -⟩ := hp
    have hend := walkEnd_eq (walk_pathOn hrange hle (labels_mem hwalk))
    rw [← hpath, walkEnd_eq hq] at hend
    rwa [← finalWeight_expand left (hstate _), ← hend]
  · rintro ⟨hp, rfl, hfinal⟩
    have hp' := hp
    obtain ⟨s, -, t, hwalk, -⟩ := hp'
    have hmem := labels_mem hwalk
    refine ⟨hp, ⟨_, walk_pathOn hrange hle hmem, ?_⟩, ?_⟩
    · change (expand left complement).finalWeight _ ≠ 0
      rwa [finalWeight_expand left (hstate _)]
    · exact (strings_pathOn h left (fun label hlabel heps =>
        epsilon_notMem_alphabet (heps ▸ hmem label hlabel)) start).1.symm

/- The composition keeps the paths whose string the complement accepts, each weighed by the arcs
of the complement it meets. -/
theorem composed_paths (hstart : complement.start = some start) {result : VectorFst L W}
    {F : List (ℕ × Arc L W) → List (ℕ × Arc L W) × List (ℕ × Arc L W)}
    (hbij : Set.BijOn F (acceptingPaths result) (meetingPaths left (expand left complement)))
    (hagrees : ∀ p ∈ acceptingPaths result, Agrees result left (expand left complement) p (F p)) :
    ∃ G, Set.BijOn G (acceptingPaths result) {p | p ∈ acceptingPaths left ∧
        complement.finalWeight (stateAfter complement.fst start (ostring p)) ≠ 0} ∧
      ∀ p ∈ acceptingPaths result, istring p = istring (G p) ∧ ostring p = ostring (G p) ∧
        pathWeight result p = pathWeight left (G p) *
          (weightsOn complement.fst start (ostring (G p))).prod := by
  have hle := start_le hrange hstart
  have hstart' : (expand left complement).start = some start := hstart
  have hmeet : ∀ p q, (p, q) ∈ meetingPaths left (expand left complement) ↔ _ :=
    fun p q => mem_meetingPaths h hrange hstart
  have hfst : Set.BijOn Prod.fst (meetingPaths left (expand left complement))
      {p | p ∈ acceptingPaths left ∧
        complement.finalWeight (stateAfter complement.fst start (ostring p)) ≠ 0} := by
    refine ⟨?_, ?_, ?_⟩
    · rintro ⟨p, q⟩ hpq
      obtain ⟨hp, -, hfinal⟩ := (hmeet p q).mp hpq
      exact ⟨hp, hfinal⟩
    · rintro ⟨p, q⟩ hpq ⟨p', q'⟩ hpq' heq
      obtain ⟨-, hq, -⟩ := (hmeet p q).mp hpq
      obtain ⟨-, hq', -⟩ := (hmeet p' q').mp hpq'
      dsimp only at heq
      rw [hq, hq', heq]
    · rintro p ⟨hp, hfinal⟩
      exact ⟨(p, _), (hmeet p _).mpr ⟨hp, rfl, hfinal⟩, rfl⟩
  refine ⟨Prod.fst ∘ F, hfst.comp hbij, ?_⟩
  intro p hp
  obtain ⟨hin, hout, hweight⟩ := hagrees p hp
  obtain ⟨hleft, hpath, hfinal⟩ := (hmeet _ _).mp (hbij.mapsTo hp)
  have hmem : ∀ label ∈ ostring (F p).1, label ∈ alphabet left := by
    obtain ⟨s, -, t, hwalk, -⟩ := hleft
    exact labels_mem hwalk
  have hone : complement.finalWeight (stateAfter complement.fst start (ostring (F p).1)) = 1 := by
    unfold ComplementFst.finalWeight at hfinal ⊢
    split at hfinal
    next hyes => exact if_pos hyes
    next => exact absurd rfl hfinal
  have hright : pathWeight (expand left complement) (F p).2 =
      (weightsOn complement.fst start (ostring (F p).1)).prod := by
    unfold pathWeight weightFrom
    rw [hpath, hstart', Option.getD_some, weights_pathOn, walkEnd_eq (walk_pathOn hrange hle hmem),
      finalWeight_expand left (stateAfter_le hrange hle _), hone, mul_one]
  have hstrings := strings_pathOn h left (fun label hlabel heps =>
    epsilon_notMem_alphabet (heps ▸ hmem label hlabel)) start
  refine ⟨hin, ?_, ?_⟩
  · rw [hout, hpath]
    exact hstrings.2
  · rw [hweight, hright]
    rfl

end Paths

section Gives

variable [TopologicalSpace W] {left result : VectorFst L W} {complement : ComplementFst L W}
  (h : Conforming complement.fst)

/- The strings of the first FST that the composition keeps. -/
def Keeps (complement : ComplementFst L W) (start : ℕ) (u : List L) : Prop :=
  complement.finalWeight (stateAfter complement.fst start u) ≠ 0 ∧
    0 ∉ weightsOn complement.fst start u

include h

theorem composed_gives {G : List (ℕ × Arc L W) → List (ℕ × Arc L W)}
    (hbij : Set.BijOn G (acceptingPaths result) {p | p ∈ acceptingPaths left ∧
      complement.finalWeight (stateAfter complement.fst start (ostring p)) ≠ 0})
    (hreads : ∀ p ∈ acceptingPaths result, istring p = istring (G p) ∧ ostring p = ostring (G p) ∧
      pathWeight result p = pathWeight left (G p) *
        (weightsOn complement.fst start (ostring (G p))).prod) {u : List L} {w : W}
    (hw : Gives left u u w) : (Keeps complement start u → Gives result u u w) ∧
      (¬ Keeps complement start u → Gives result u u 0) := by
  constructor
  · rintro ⟨hfinal, hzero⟩
    have hrelated : Set.BijOn G (related result u u) (related left u u) := by
      refine ⟨?_, hbij.injOn.mono fun p hp => hp.1, ?_⟩
      · rintro p ⟨hp, hi, ho⟩
        obtain ⟨hin, hout, -⟩ := hreads p hp
        exact ⟨(hbij.mapsTo hp).1, hin.symm.trans hi, hout.symm.trans ho⟩
      · rintro q ⟨hq, hi, ho⟩
        obtain ⟨p, hp, rfl⟩ := hbij.surjOn ⟨hq, ho ▸ hfinal⟩
        obtain ⟨hin, hout, -⟩ := hreads p hp
        exact ⟨p, ⟨hp, hin.trans hi, hout.trans ho⟩, rfl⟩
    refine (Regroup.hasSum_bijOn hrelated ?_).mp hw
    rintro p ⟨hp, -, ho⟩
    obtain ⟨-, hout, hweight⟩ := hreads p hp
    rw [← hout, ho, (prod_weightsOn h start u).2 hzero, mul_one] at hweight
    exact hweight.symm
  · intro hnot
    have hzero : ∀ p : related result u u, weightOf result (p : List (ℕ × Arc L W)) = 0 := by
      rintro ⟨p, hp, hi, ho⟩
      obtain ⟨-, hout, hweight⟩ := hreads p hp
      have hfinal := (hbij.mapsTo hp).2
      rw [← hout, ho] at hfinal hweight
      have hmem : 0 ∈ weightsOn complement.fst start u := by
        by_contra hmem
        exact hnot ⟨hfinal, hmem⟩
      rw [(prod_weightsOn h start u).1 hmem, mul_zero] at hweight
      exact hweight
    unfold Gives
    rw [funext hzero]
    exact hasSum_zero

end Gives

/- A string is kept when the acceptor does not accept it and it meets no arc of weight zero. -/
theorem keeps_iff {complement : ComplementFst L W} (h : Conforming complement.fst)
    (hone : (1 : W) ≠ 0) (hstart : complement.start = some start) (u : List L) :
    Keeps complement start u ↔ ¬ Accepts complement.fst u ∧ ¬ TakesZero complement.fst u := by
  unfold ComplementFst.start at hstart
  split at hstart
  · cases hstart
  have hfinal : ∀ s, complement.finalWeight s ≠ 0 ↔
      s = 0 ∨ complement.fst.finalWeight (s - 1) = 0 := by
    intro s
    unfold ComplementFst.finalWeight
    split
    next hyes => exact ⟨fun _ => hyes, fun _ => hone⟩
    next hno => exact ⟨fun hne => absurd rfl hne, fun hyes => absurd hyes hno⟩
  unfold Keeps
  rw [hfinal, accepts_iff h, takesZero_iff h hone]
  obtain rfl := Option.some.inj hstart
  cases hs : complement.fst.start with
  | none =>
    have hzero : (0 : W) ∉ weightsOn complement.fst 0 u := by
      intro hmem
      obtain ⟨u₁, label, u₂, -, hweight⟩ := exists_of_mem_weightsOn hmem
      rw [stateAfter_zero] at hweight
      exact hone hweight
    simp [stateAfter_zero, hzero]
  | some s =>
    simp only [Option.some.injEq, exists_eq_left']
    constructor
    · rintro ⟨hstate, hzero⟩
      refine ⟨?_, hzero⟩
      rintro ⟨t, ht, hne, -⟩
      rw [ht] at hstate
      exact hne (hstate.resolve_left (Nat.succ_ne_zero t))
    · rintro ⟨hnot, hzero⟩
      refine ⟨?_, hzero⟩
      cases ht : stateAfter complement.fst (s + 1) u with
      | zero => exact Or.inl rfl
      | succ t =>
        refine Or.inr ?_
        by_contra hne
        exact hnot ⟨t, ht, hne, hzero⟩

end Sicada.ComplementRuns
