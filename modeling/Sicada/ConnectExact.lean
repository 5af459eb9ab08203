import Sicada.Deletion
import Sicada.Relations
import Sicada.SccMarks

namespace Sicada.ConnectExact

open Relation PropertyBits Paths Walk ListLemmas Deletion DfsVisit CcVisitors SccRuns SccExact
  SccMarks Relations

variable {L W : Type} [ArcLabel L] [Zero W] [One W] [DecidableEq W]

variable {s : ℕ}

section Restriction

variable {fst fst' : VectorFst L W} {dstates : List ℕ}

def keptArcs (fst : VectorFst L W) (dstates : List ℕ) (s : ℕ) : List (ℕ × Arc L W) :=
  (enumArcs (fst.arcs s)).filter fun e => (newId fst dstates e.2.nextstate).isSome

def moved (fst : VectorFst L W) (dstates : List ℕ) (e : ℕ × Arc L W) : Arc L W :=
  { e.2 with nextstate := (newId fst dstates e.2.nextstate).getD 0 }

theorem arcs_restrict (h : Restricts fst fst' dstates) {k : ℕ}
    (hk : (kept fst dstates)[k]? = some s) :
    fst'.arcs k = (keptArcs fst dstates s).map (moved fst dstates) := by
  rw [h.arcs k s hk]
  conv_lhs => rw [← map_snd_enumArcs (fst.arcs s)]
  rw [List.filterMap_map]
  refine filterMap_eq_map_filter (fun e _ => ?_) fun e _ he => ?_
  · simp
  · obtain ⟨t, ht⟩ := Option.isSome_iff_exists.mp he
    simp [moved, ht]

theorem mem_keptArcs {e : ℕ × Arc L W} : e ∈ keptArcs fst dstates s ↔
    Leaves fst s e ∧ (newId fst dstates e.2.nextstate).isSome = true := by
  unfold keptArcs
  rw [List.mem_filter, mem_enumArcs]
  rfl

theorem kept_oldId {k : ℕ} (hk : k < (kept fst dstates).length) :
    (kept fst dstates)[k]? = some (oldId fst dstates k) := by
  have hkept : (kept fst dstates)[k]? = some (kept fst dstates)[k] := List.getElem?_eq_getElem hk
  have hold : oldId fst dstates k = ((kept fst dstates)[k]?).getD 0 := rfl
  rw [hold, hkept]
  rfl

theorem oldId_of_newId {k : ℕ} (h : newId fst dstates s = some k) :
    k < (kept fst dstates).length ∧ oldId fst dstates k = s := by
  rw [newId_eq_some] at h
  have hlt := (List.getElem?_eq_some_iff.mp h).1
  exact ⟨hlt, Option.some.inj ((kept_oldId hlt).symm.trans h)⟩

/- The edge of the FST an edge of what is left of it comes from. -/
def source (fst : VectorFst L W) (dstates : List ℕ) : ℕ → ℕ × Arc L W → ℕ × Arc L W :=
  listed fun k => keptArcs fst dstates (oldId fst dstates k)

theorem keptArcs_oldId (h : Restricts fst fst' dstates) {k : ℕ} (hk : k < fst'.numStates) :
    fst'.arcs k = (keptArcs fst dstates (oldId fst dstates k)).map (moved fst dstates) :=
  arcs_restrict h (kept_oldId (h.numStates ▸ hk))

theorem covers_restrict (h : Restricts fst fst' dstates) :
    Covers (Leaves fst') follow
      (fun s e => Leaves fst s e ∧ (newId fst dstates e.2.nextstate).isSome = true) follow
      (oldId fst dstates) (source fst dstates) (· < fst'.numStates) := by
  refine covers_of_lists (fun k hk => keptArcs_oldId h hk) (fun k => ?_) (fun k e _ => mem_keptArcs)
    fun k e _ he => ?_
  · exact (nodup_enumArcs _).filter _
  · obtain ⟨t, ht⟩ := Option.isSome_iff_exists.mp (mem_keptArcs.mp he).2
    have hnext : (moved fst dstates e).nextstate = t := by simp [moved, ht]
    rw [hnext, h.numStates]
    exact oldId_of_newId ht

end Restriction

section Trimming

variable {fst : VectorFst L W} {isMember : W → Bool}

abbrev anyArc : Arc L W → Bool := fun _ => true

variable {start : ℕ}

theorem mem_useless (hstart : fst.start = some start) (hlt : start < fst.numStates)
    (hs : s < fst.numStates) : s ∉ fst.uselessStates isMember ↔
      Reaches fst anyArc start s ∧ CoAccessible isMember fst anyArc s := by
  have hmarks : ((dfsVisitAny fst (sccVisitor isMember true fst) (SccVisitor.new 0)).access s =
      true ↔ Reaches fst (fun _ => true) start s) ∧ _ := marks_exact hstart hlt (SccVisitor.new 0) s
  obtain ⟨haccess, hcoaccess⟩ := hmarks
  rw [← haccess, ← hcoaccess hs]
  unfold VectorFst.uselessStates
  simp only [List.mem_filter, List.mem_range, hs, true_and, Bool.or_eq_true, Bool.not_eq_true',
    not_or, Bool.not_eq_false]

section Final

variable {final : W → Prop}

/- A weight that ends a path in the reading at hand is a member other than zero. -/
def Finals (isMember : W → Bool) (final : W → Prop) (fst : VectorFst L W) : Prop :=
  ∀ s, final (fst.finalWeight s) → isMember (fst.finalWeight s) = true ∧ fst.finalWeight s ≠ 0

theorem coAccessible_of_accepted (hfinal : Finals isMember final fst) {p : List (ℕ × Arc L W)}
    (hp : p ∈ acceptedFrom (Leaves fst) follow (fun t => final (fst.finalWeight t)) s) :
    CoAccessible isMember fst anyArc s := by
  induction p generalizing s with
  | nil =>
    rw [nil_mem_acceptedFrom] at hp
    exact ⟨s, ReflTransGen.refl, hfinal s hp⟩
  | cons e p ih =>
    obtain ⟨he, hp⟩ := cons_mem_acceptedFrom.mp hp
    obtain ⟨t, hreach, hfinal⟩ := ih hp
    exact ⟨t, ReflTransGen.head ⟨e.2, List.mem_of_getElem? he, rfl, rfl⟩ hreach, hfinal⟩

/- From a useful state the paths that are accepted never leave the useful ones. -/
theorem acceptedFrom_useful (h : fst.InRange) (hfinal : Finals isMember final fst)
    (hstart : fst.start = some start) (hreach : Reaches fst anyArc start s) :
    acceptedFrom (fun s e => Leaves fst s e ∧
        (newId fst (fst.uselessStates isMember) e.2.nextstate).isSome = true) follow
      (fun t => final (fst.finalWeight t)) s =
    acceptedFrom (Leaves fst) follow (fun t => final (fst.finalWeight t)) s := by
  have hlt := h.start start hstart
  ext p
  induction p generalizing s with
  | nil => rw [nil_mem_acceptedFrom, nil_mem_acceptedFrom]
  | cons e p ih =>
    rw [cons_mem_acceptedFrom, cons_mem_acceptedFrom]
    constructor
    · rintro ⟨⟨he, -⟩, hp⟩
      have hnext : Reaches fst anyArc start e.2.nextstate :=
        hreach.tail ⟨e.2, List.mem_of_getElem? he, rfl, rfl⟩
      exact ⟨he, (ih hnext).mp hp⟩
    · rintro ⟨he, hp⟩
      have hnext : Reaches fst anyArc start e.2.nextstate :=
        hreach.tail ⟨e.2, List.mem_of_getElem? he, rfl, rfl⟩
      have hin := h.arcs s e.2 (List.mem_of_getElem? he)
      refine ⟨⟨he, ?_⟩, (ih hnext).mpr hp⟩
      rw [newId_isSome]
      refine ⟨hin, (mem_useless hstart hlt hin).mpr ⟨hnext, ?_⟩⟩
      exact coAccessible_of_accepted hfinal hp

/- The paths from the start to a weight that ends one. -/
def pathsTo (final : W → Prop) (fst : VectorFst L W) : Set (List (ℕ × Arc L W)) :=
  {p | ∃ s, fst.start = some s ∧
    p ∈ acceptedFrom (Leaves fst) follow (fun t => final (fst.finalWeight t)) s}

theorem pathsTo_eq (hstart : fst.start = some start) : pathsTo final fst =
    acceptedFrom (Leaves fst) follow (fun t => final (fst.finalWeight t)) start := by
  ext p
  constructor
  · rintro ⟨s, hs, hp⟩
    obtain rfl := Option.some.inj (hstart.symm.trans hs)
    exact hp
  · exact fun hp => ⟨start, hstart, hp⟩

theorem pathsTo_of_none (hstart : fst.start = none) : pathsTo final fst = ∅ := by
  refine Set.eq_empty_iff_forall_notMem.mpr fun p hp => ?_
  obtain ⟨s, hs, -⟩ := hp
  rw [hstart] at hs
  cases hs

theorem pathsTo_of_useless (hfinal : Finals isMember final fst) (hstart : fst.start = some start)
    (hlt : start < fst.numStates) (huseless : start ∈ fst.uselessStates isMember) :
    pathsTo final fst = ∅ := by
  refine Set.eq_empty_iff_forall_notMem.mpr fun p hp => ?_
  rw [pathsTo_eq hstart] at hp
  exact (mem_useless hstart hlt hlt).mpr
    ⟨ReflTransGen.refl, coAccessible_of_accepted hfinal hp⟩ huseless

end Final

theorem finals_of_member (hmember : ∀ s, isMember (fst.finalWeight s) = true) :
    Finals isMember (· ≠ 0) fst := fun s hs => ⟨hmember s, hs⟩

end Trimming

theorem inRange_restrict {fst fst' : VectorFst L W} {dstates : List ℕ}
    (h : Restricts fst fst' dstates) : fst'.InRange := by
  constructor
  · intro k hk
    rw [h.start] at hk
    obtain ⟨s, -, hs⟩ := Option.bind_eq_some_iff.mp hk
    rw [h.numStates]
    exact (oldId_of_newId hs).1
  · intro k arc harc
    by_cases hk : k < fst'.numStates
    · obtain ⟨i, hi⟩ := List.mem_iff_getElem?.mp harc
      exact (covers_restrict h).known k (i, arc) hk hi
    · rw [VectorFst.arcs_of_le (by omega)] at harc
      cases harc

/- The paths of two FSTs to the weights that end one stand one to one and read the same. -/
def SamePathsTo (final : W → Prop) (fst fst' : VectorFst L W) : Prop :=
  ∃ F, Set.BijOn F (pathsTo final fst') (pathsTo final fst) ∧ ∀ p ∈ pathsTo final fst',
    (F p).map reading = p.map reading ∧ lastWeight fst (F p) = lastWeight fst' p

theorem samePathsTo_of_empty {final : W → Prop} {fst fst' : VectorFst L W}
    (h : pathsTo final fst = ∅) (h' : pathsTo final fst' = ∅) : SamePathsTo final fst fst' := by
  refine ⟨id, ?_, ?_⟩
  · rw [h, h']
    exact Set.bijOn_id ∅
  · rw [h']
    exact fun p hp => hp.elim

theorem samePathsTo_restrict {fst fst' : VectorFst L W} {isMember : W → Bool} {final : W → Prop}
    (h : fst.InRange) (hfinal : Finals isMember final fst)
    (hrestrict : Restricts fst fst' (fst.uselessStates isMember)) : SamePathsTo final fst fst' := by
  have hstart' := hrestrict.start
  cases hstart : fst.start with
  | none =>
    rw [hstart] at hstart'
    exact samePathsTo_of_empty (pathsTo_of_none hstart) (pathsTo_of_none hstart')
  | some start =>
    have hlt := h.start start hstart
    rw [hstart] at hstart'
    by_cases huseless : start ∈ fst.uselessStates isMember
    · have hnone : newId fst (fst.uselessStates isMember) start = none := by
        rw [← Option.not_isSome_iff_eq_none, newId_isSome]
        exact fun hkept => hkept.2 huseless
      exact samePathsTo_of_empty (pathsTo_of_useless hfinal hstart hlt huseless)
        (pathsTo_of_none (hstart'.trans hnone))
    · obtain ⟨k, hk⟩ := Option.isSome_iff_exists.mp (newId_isSome.mpr ⟨hlt, huseless⟩)
      have hstart'' : fst'.start = some k := hstart'.trans hk
      obtain ⟨hklt, hbase⟩ := oldId_of_newId hk
      have hknown : k < fst'.numStates := hrestrict.numStates ▸ hklt
      have hcovers := covers_restrict hrestrict
      have hweight : ∀ j < fst'.numStates, fst'.finalWeight j =
          fst.finalWeight (oldId fst (fst.uselessStates isMember) j) := fun j hj =>
        hrestrict.finalWeight j _ (kept_oldId (hrestrict.numStates ▸ hj))
      have hfinals : ∀ j < fst'.numStates, (final (fst'.finalWeight j) ↔
          final (fst.finalWeight (oldId fst (fst.uselessStates isMember) j))) :=
        fun j hj => by rw [hweight j hj]
      have hbij : Set.BijOn (Covers.project follow (source fst (fst.uselessStates isMember)) k)
          (acceptedFrom (Leaves fst') follow (fun t => final (fst'.finalWeight t)) k)
          (acceptedFrom _ follow (fun t => final (fst.finalWeight t)) _) :=
        hcovers.bijOn_project hfinals hknown
      rw [hbase, acceptedFrom_useful h hfinal hstart ReflTransGen.refl] at hbij
      have hset : pathsTo final fst' = _ := pathsTo_eq hstart''
      refine ⟨Covers.project follow (source fst (fst.uselessStates isMember)) k, ?_,
        fun p hp => ⟨?_, ?_⟩⟩
      · rw [hset, pathsTo_eq hstart]
        exact hbij
      · rw [hset] at hp
        exact hcovers.map_project
          (reading_listed (fun k hk => keptArcs_oldId hrestrict hk) fun _ _ => rfl) hknown hp
      · rw [hset] at hp
        have hend := hcovers.walkEnd_project hknown hp
        unfold lastWeight
        rw [hstart, hstart'', Option.getD_some, Option.getD_some, ← hbase, hend,
          hweight _ (hcovers.known_walkEnd hknown hp)]

/- Trimming takes no accepting path and adds none. -/
theorem connect_samePaths {fst : VectorFst L W} {isMember : W → Bool} (h : fst.InRange)
    (hmember : ∀ s, isMember (fst.finalWeight s) = true) : ∃ fst',
      fst.connect isMember = some fst' ∧ fst'.InRange ∧ SamePaths fst fst' := by
  obtain ⟨fst', hdelete, hrestrict⟩ := deleteStates_restricts h (fst.uselessStates isMember)
  have hrange := inRange_restrict hrestrict
  refine ⟨_, congrArg (Option.map _) hdelete, ⟨hrange.start, hrange.arcs⟩, ?_⟩
  have hsame := samePathsTo_restrict h (finals_of_member hmember) hrestrict
  exact hsame

end Sicada.ConnectExact
