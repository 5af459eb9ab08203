import Sicada.ArcMapRuns
import Sicada.Relations

namespace Sicada.LabelMaps

open Paths Walk Relations ArcMapRuns

variable {L W : Type} [ArcLabel L] {f : Arc L W → Arc L W} {ipairs opairs : List (L × L)}

/- An edge under its arc's new labels, at the place it had. -/
def rename (f : Arc L W → Arc L W) (e : ℕ × Arc L W) : ℕ × Arc L W := (e.1, f e.2)

/- `f` changes an arc's labels and nothing else. -/
def Relabels (f : Arc L W → Arc L W) : Prop :=
  ∀ arc, (f arc).weight = arc.weight ∧ (f arc).nextstate = arc.nextstate

theorem relabels_relabelArc : Relabels (relabelArc (W := W) ipairs opairs) := by
  intro arc
  unfold relabelArc
  dsimp only
  split <;> exact ⟨rfl, rfl⟩

theorem relabelArc_labels (arc : Arc L W) : (relabelArc ipairs opairs arc).ilabel =
      (relabelMap ipairs arc.ilabel).getD arc.ilabel ∧
    (relabelArc ipairs opairs arc).olabel = (relabelMap opairs arc.olabel).getD arc.olabel := by
  unfold relabelArc
  dsimp only
  split
  · exact ⟨rfl, rfl⟩
  next hsame =>
    rw [not_or, not_not, not_not] at hsame
    exact ⟨hsame.1.symm, hsame.2.symm⟩

theorem missingKey_eq_none (pairs : List (L × L)) :
    missingKey pairs = none ↔ ∀ label, relabelMap pairs label ≠ some noLabel := by
  unfold missingKey
  rw [List.find?_eq_none]
  constructor
  · intro h label hlabel
    obtain ⟨pair, hfind, -⟩ := Option.map_eq_some_iff.mp hlabel
    have hmem := List.mem_reverse.mp (List.mem_of_find?_eq_some hfind)
    obtain rfl : pair.1 = label := by simpa using List.find?_some hfind
    exact h _ (List.mem_map_of_mem hmem) (decide_eq_true hlabel)
  · intro h label _ hlabel
    exact h label (of_decide_eq_true hlabel)

theorem eq_map_of_forall₂ {arcs arcs' : List (Arc L W)}
    (h : List.Forall₂ (fun arc arc' => arc' = f arc) arcs arcs') : arcs' = arcs.map f := by
  have hmap : List.Forall₂ Eq (arcs.map f) arcs' :=
    List.forall₂_map_left_iff.mpr (h.imp fun _ _ => Eq.symm)
  rw [List.forall₂_eq_eq_eq] at hmap
  exact hmap.symm

theorem tracks_plain (mapper : ArcMapper Unit L W) (hmap : ∀ arc, (mapper.map arc ()).1 = f arc) :
    Tracks mapper (fun _ _ => True) fun _ arc arc' => arc' = f arc :=
  ⟨fun _ => trivial, fun _ _ _ _ _ => trivial, fun _ _ _ _ _ h => h, fun arc _ =>
    ⟨trivial, hmap arc⟩⟩

variable [DecidableEq W] [PreSemiring W] {fst fst' : VectorFst L W}

/- The accepting paths are those there were, arc by arc under their new labels, and weigh as
much. -/
def Renamed (f : Arc L W → Arc L W) (fst fst' : VectorFst L W) : Prop :=
  Set.BijOn (List.map (rename f)) (acceptingPaths fst) (acceptingPaths fst') ∧
    ∀ p ∈ acceptingPaths fst, weightOf fst' (p.map (rename f)) = weightOf fst p

theorem renamed_of_arcs (hf : Relabels f) (hstart : fst'.start = fst.start)
    (harcs : ∀ s, fst'.arcs s = (fst.arcs s).map f) (hfinal : fst'.finalWeight = fst.finalWeight) :
    Renamed f fst fst' := by
  have hcovers : Covers (Leaves fst) follow (Leaves fst') follow id (fun _ => rename f)
      fun _ => True := by
    refine ⟨?_, fun _ e _ _ => (hf e.2).2.symm, fun _ _ _ _ => trivial, ?_, ?_⟩
    · intro s e _ he
      change (fst'.arcs s)[e.1]? = some (f e.2)
      rw [harcs, List.getElem?_map, he, Option.map_some]
    · intro s e e' _ he he' heq
      obtain ⟨hplace, -⟩ := Prod.mk.inj heq
      have he'' : (fst.arcs s)[e.1]? = some e'.2 := hplace ▸ he'
      exact Prod.ext hplace (Option.some.inj (he.symm.trans he''))
    · intro s e _ he
      change (fst'.arcs s)[e.1]? = some e.2 at he
      rw [harcs, List.getElem?_map] at he
      obtain ⟨arc, harc, hmapped⟩ := Option.map_eq_some_iff.mp he
      exact ⟨(e.1, arc), harc, Prod.ext rfl hmapped⟩
  have hproject : ∀ s, Covers.project follow (fun _ => rename f) s = List.map (rename f) := by
    intro s
    funext p
    induction p generalizing s with
    | nil => rfl
    | cons e p ih => rw [Covers.project, ih, List.map_cons]
  have hbij := bijOn_of_covers hcovers hstart.symm hfinal.symm
  rw [hproject] at hbij
  refine ⟨hbij, fun p hp => ?_⟩
  have hend : walkEnd follow _ _ = walkEnd follow _ p :=
    hcovers.walkEnd_project trivial (acceptingFrom_start hp)
  rw [hproject, ← hstart] at hend
  unfold weightOf lastWeight arcsWeight
  rw [← hstart, hfinal, List.map_map]
  exact congrArg₂ (fun ws t => List.prod ws * fst.finalWeight t)
    (List.map_congr_left fun e _ => (hf e.2).1) hend

theorem arcMap_renamed (fst : VectorFst L W) (mapper : ArcMapper Unit L W)
    (hmap : ∀ arc, (mapper.map arc ()).1 = f arc) (haction : mapper.finalAction = .noSuperfinal)
    (hf : Relabels f) (hplain : ∀ w, f (finalAsArc w) = finalAsArc w) :
    (fst.arcMap mapper ()).2 = .ok () ∧ Renamed f fst (fst.arcMap mapper ()).1 := by
  cases hs : fst.start with
  | none =>
    have hunchanged : fst.arcMap mapper () = (fst, .ok ()) := if_pos hs
    rw [hunchanged]
    refine ⟨rfl, ?_⟩
    unfold Renamed
    rw [acceptingPaths_of_none hs]
    exact ⟨Set.bijOn_empty _, fun p hp => hp.elim⟩
  | some s =>
    have hsettled : Settled mapper (fun _ _ => True) (fun _ arc arc' => arc' = f arc) () := by
      refine Or.inr ⟨haction, ?_⟩
      rintro _ w mapped - rfl
      rw [hplain]
      simp [becameAnArc, finalAsArc]
    obtain ⟨hok, -, hmapped⟩ := arcMap_mapped (tracks_plain mapper hmap) hsettled (by rw [hs]; simp)
    have hnum : (fst.arcMap mapper ()).1.numStates = fst.numStates := by
      rw [hmapped.numStates, if_neg (by rw [haction]; simp)]
    have hstates : ∀ t, (fst.arcMap mapper ()).1.arcs t = (fst.arcs t).map f ∧
        (fst.arcMap mapper ()).1.finalWeight t = fst.finalWeight t := by
      intro t
      by_cases ht : t < fst.numStates
      · obtain ⟨arcs, mapped, hall, hfinal, harcs, hweight⟩ := hmapped.mapped t ht
        rw [harcs, hweight, haction, hfinal, hplain]
        exact ⟨eq_map_of_forall₂ hall, rfl⟩
      · rw [Nat.not_lt] at ht
        rw [VectorFst.arcs_of_le (hnum.trans_le ht), VectorFst.finalWeight_of_le (hnum.trans_le ht),
          VectorFst.arcs_of_le ht, VectorFst.finalWeight_of_le ht]
        exact ⟨rfl, rfl⟩
    exact ⟨hok, renamed_of_arcs hf hmapped.start (fun t => (hstates t).1)
      (funext fun t => (hstates t).2)⟩

/- Inverting turns the relation round: each path reads what it wrote and writes what it read. -/
theorem invert_exact (fst : VectorFst L W) : fst.invert.2 = .ok () ∧
    ∃ F, Set.BijOn F (acceptingPaths fst) (acceptingPaths fst.invert.1) ∧
      ∀ p ∈ acceptingPaths fst, istring (F p) = ostring p ∧ ostring (F p) = istring p ∧
        weightOf fst.invert.1 (F p) = weightOf fst p := by
  obtain ⟨hok, hbij, hweight⟩ := arcMap_renamed fst invertMapper (fun _ => rfl) rfl
    (fun _ => ⟨rfl, rfl⟩) fun _ => rfl
  refine ⟨hok, _, hbij, fun p hp => ⟨?_, ?_, hweight p hp⟩⟩
  · unfold istring ostring
    rw [List.map_map]
    rfl
  · unfold istring ostring
    rw [List.map_map]
    rfl

/- Projecting keeps what one side of each path spells, for both of its sides. -/
theorem project_exact (fst : VectorFst L W) (projectType : ProjectType) :
    (fst.project projectType).2 = .ok () ∧
      ∃ F, Set.BijOn F (acceptingPaths fst) (acceptingPaths (fst.project projectType).1) ∧
        ∀ p ∈ acceptingPaths fst, istring (F p) = ostring (F p) ∧
          istring (F p) = (if projectType = .input then istring p else ostring p) ∧
          weightOf (fst.project projectType).1 (F p) = weightOf fst p := by
  obtain ⟨hok, hbij, hweight⟩ := arcMap_renamed fst (projectMapper projectType)
    (fun _ => rfl) rfl (fun _ => ⟨rfl, rfl⟩) fun _ => by cases projectType <;> rfl
  refine ⟨hok, _, hbij, fun p hp => ⟨?_, ?_, hweight p hp⟩⟩
  · unfold istring ostring
    rw [List.map_map, List.map_map]
    rfl
  · unfold istring ostring
    rw [List.map_map]
    cases projectType <;> rfl

theorem relabelStates_reads (fst : VectorFst L W) (ipairs opairs : List (L × L)) {states : List ℕ}
    (hnodup : states.Nodup) (hstates : ∀ s ∈ states, s < fst.numStates) :
    (relabelStates ipairs opairs states fst).start = fst.start ∧
      (relabelStates ipairs opairs states fst).finalWeight = fst.finalWeight ∧
      ∀ s, (relabelStates ipairs opairs states fst).arcs s =
        if s ∈ states then (fst.arcs s).map (relabelArc ipairs opairs) else fst.arcs s := by
  induction states generalizing fst with
  | nil => exact ⟨rfl, rfl, fun s => (if_neg List.not_mem_nil).symm⟩
  | cons state states ih =>
    obtain ⟨hnot, hnodup⟩ := List.nodup_cons.mp hnodup
    obtain ⟨arcs, harcs, hfinal, hnum, hstart, -, hall⟩ := mutateArcs_tracks
      (tracks_plain ⟨fun arc m => (relabelArc ipairs opairs arc, m), .noSuperfinal, id⟩
        fun _ => rfl) (hstates state List.mem_cons_self) ()
    obtain ⟨hstart', hfinal', harcs'⟩ := ih _ hnodup fun s hs =>
      hnum.symm ▸ hstates s (List.mem_cons_of_mem _ hs)
    refine ⟨hstart'.trans hstart, hfinal'.trans hfinal, fun s => (harcs' s).trans ?_⟩
    rw [harcs, eq_map_of_forall₂ hall]
    by_cases hs : s = state
    · subst hs
      rw [if_neg hnot, if_pos List.mem_cons_self, Function.update_self]
    · simp only [Function.update_of_ne hs, List.mem_cons, hs, false_or]

/- A name to be replaced by the reserved label is refused with nothing changed; any other maps
rename every path. -/
theorem relabel_exact [ToString L] (fst : VectorFst L W) (ipairs opairs : List (L × L)) :
    ((∃ label, relabelMap ipairs label = some noLabel ∨ relabelMap opairs label = some noLabel) →
      ∃ side, ∃ label : L, fst.relabel ipairs opairs =
        (fst, .error (.invalidOperation (missingMessage side label)))) ∧
    ((∀ label, relabelMap ipairs label ≠ some noLabel ∧ relabelMap opairs label ≠ some noLabel) →
      (fst.relabel ipairs opairs).2 = .ok () ∧
      ∃ F, Set.BijOn F (acceptingPaths fst) (acceptingPaths (fst.relabel ipairs opairs).1) ∧
        ∀ p ∈ acceptingPaths fst,
          istring (F p) = (p.map fun e => (relabelMap ipairs e.2.ilabel).getD e.2.ilabel).filter
            (· ≠ epsilon) ∧
          ostring (F p) = (p.map fun e => (relabelMap opairs e.2.olabel).getD e.2.olabel).filter
            (· ≠ epsilon) ∧
          weightOf (fst.relabel ipairs opairs).1 (F p) = weightOf fst p) := by
  constructor
  · rintro ⟨label, hlabel⟩
    unfold VectorFst.relabel
    cases hi : missingKey ipairs with
    | some label => exact ⟨_, label, rfl⟩
    | none =>
      cases ho : missingKey opairs with
      | some label => exact ⟨_, label, rfl⟩
      | none => exact (hlabel.elim ((missingKey_eq_none ipairs).mp hi label)
          ((missingKey_eq_none opairs).mp ho label)).elim
  · intro hlabels
    have hi := (missingKey_eq_none ipairs).mpr fun label => (hlabels label).1
    have ho := (missingKey_eq_none opairs).mpr fun label => (hlabels label).2
    obtain ⟨hstart, hfinal, harcs⟩ := relabelStates_reads fst ipairs opairs
      (List.nodup_range (n := fst.numStates)) fun s => List.mem_range.mp
    unfold VectorFst.relabel
    rw [hi, ho]
    obtain ⟨hbij, hweight⟩ := renamed_of_arcs relabels_relabelArc hstart (fun s => by
      rw [harcs]
      split
      · rfl
      next hs =>
        rw [VectorFst.arcs_of_le (by simpa using hs)]
        rfl) hfinal
    refine ⟨rfl, _, hbij, fun p hp => ⟨?_, ?_, hweight p hp⟩⟩
    · unfold istring
      rw [List.map_map]
      exact congrArg _ (List.map_congr_left fun e _ => (relabelArc_labels e.2).1)
    · unfold ostring
      rw [List.map_map]
      exact congrArg _ (List.map_congr_left fun e _ => (relabelArc_labels e.2).2)

end Sicada.LabelMaps
