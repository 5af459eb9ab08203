import Sicada.ConnectTrims
import Sicada.ReplaceUtil

set_option linter.unusedSectionVars false

namespace Sicada.ReplaceUtilRuns

open Relation PropertyBits DfsVisit CcVisitors SccRuns SccMarks TarjanExact ConnectExact
  ConnectTrims ReplaceUtil

variable {L W : Type} [ArcLabel L]

variable {fst : VectorFst L W}

section Calls

theorem indexOf_lt {labels : List L} {label : L} {i : ℕ} (h : indexOf labels label = some i) :
    i < labels.length := by
  induction labels using List.reverseRecOn with
  | nil => cases h
  | append_singleton labels last ih =>
    have hstep : indexOf (labels ++ [last]) label =
        if last = label then some labels.length else indexOf labels label := by
      unfold indexOf
      rw [List.zipIdx_append, List.foldl_append]
      simp
    rw [hstep] at h
    rw [List.length_append, List.length_singleton]
    split at h
    · cases h
      exact Nat.lt_succ_self _
    · exact Nat.lt_succ_of_lt (ih h)

variable {util : ReplaceUtil L W}

/- An FST calls another. -/
def Call (util : ReplaceUtil L W) (i j : ℕ) : Prop := ∃ fst, util.fstAt i = some fst ∧
  ∃ s, ∃ arc ∈ fst.arcs s, util.calledFst arc.olabel = some j

theorem mem_flatMap_arcs {arc : Arc L W} :
    arc ∈ fst.states.flatMap (·.arcs) ↔ ∃ s, arc ∈ fst.arcs s := by
  rw [List.mem_flatMap]
  constructor
  · rintro ⟨state, hstate, harc⟩
    obtain ⟨s, hs⟩ := List.mem_iff_getElem?.mp hstate
    exact ⟨s, by rwa [VectorFst.arcs_of_getElem? hs]⟩
  · rintro ⟨s, harc⟩
    cases hs : fst.states[s]? with
    | none =>
      rw [VectorFst.arcs_of_le (List.getElem?_eq_none_iff.mp hs)] at harc
      cases harc
    | some state =>
      rw [VectorFst.arcs_of_getElem? hs] at harc
      exact ⟨state, List.mem_of_getElem? hs, harc⟩

theorem mem_calls {call : L × ℕ} : call ∈ util.calls fst ↔
    ∃ s, ∃ arc ∈ fst.arcs s, arc.olabel = call.1 ∧ util.calledFst arc.olabel = some call.2 := by
  unfold calls
  rw [List.mem_filterMap]
  constructor
  · rintro ⟨arc, harc, hcall⟩
    obtain ⟨s, harc⟩ := mem_flatMap_arcs.mp harc
    obtain ⟨callee, hcallee, rfl⟩ := Option.map_eq_some_iff.mp hcall
    exact ⟨s, arc, harc, rfl, hcallee⟩
  · rintro ⟨s, arc, harc, hlabel, hcallee⟩
    refine ⟨arc, mem_flatMap_arcs.mpr ⟨s, harc⟩, ?_⟩
    rw [hcallee, Option.map_some, hlabel]

end Calls

section Graph

variable [Zero W] [One W] [DecidableEq W] {util : ReplaceUtil L W}

/- The arcs of the call graph for what is left of an FST. -/
def callArcs (util : ReplaceUtil L W) : Option (VectorFst L W) → List (Arc L W)
  | none => []
  | some fst => (util.calls fst).map fun call => ⟨call.1, call.1, 1, call.2⟩

theorem addState_eq (fst : VectorFst L W) : fst.addState = fst.addStates 1 := rfl

theorem emptyGraph_reads (n root : ℕ) : (emptyGraph n root : VectorFst L W).numStates = n ∧
    (emptyGraph n root : VectorFst L W).start = some root ∧
      (emptyGraph n root : VectorFst L W).arcs = fun _ => [] := by
  have hloop : ∀ graph : VectorFst L W, graph = (List.range n).foldl
      (fun graph state => graph.addState.setFinal state 1) VectorFst.new →
        graph.numStates = n ∧ graph.arcs = fun _ => [] := by
    induction n with
    | zero =>
      rintro graph rfl
      refine ⟨rfl, ?_⟩
      funext s
      simp [VectorFst.new, VectorFst.arcs]
    | succ n ih =>
      rintro graph rfl
      obtain ⟨hnum, harcs⟩ := ih _ rfl
      rw [List.range_succ, List.foldl_append, List.foldl_cons, List.foldl_nil]
      constructor
      · rw [VectorFst.numStates_setFinal, VectorFst.numStates, addState_eq, VectorFst.addStates,
          List.length_append, List.length_replicate]
        exact congrArg (· + 1) hnum
      · rw [VectorFst.arcs_setFinal, addState_eq, VectorFst.arcs_addStates, harcs]
  obtain ⟨hnum, harcs⟩ := hloop _ rfl
  exact ⟨hnum, rfl, harcs⟩

variable (util) in
theorem addCalls_reads {graph : VectorFst L W} {entry : (L × Option (VectorFst L W)) × ℕ}
    (h : entry.2 < graph.numStates) : (util.addCalls graph entry).numStates = graph.numStates ∧
      (util.addCalls graph entry).start = graph.start ∧ (util.addCalls graph entry).arcs =
        Function.update graph.arcs entry.2 (graph.arcs entry.2 ++ callArcs util entry.1.2) := by
  unfold addCalls
  cases entry.1.2 with
  | none =>
    refine ⟨rfl, rfl, ?_⟩
    rw [callArcs, List.append_nil, Function.update_eq_self]
  | some fst =>
    dsimp only
    have hmap : (util.calls fst).foldl
        (fun graph call => graph.addArc entry.2 ⟨call.1, call.1, 1, call.2⟩) graph =
          (callArcs util (some fst)).foldl (fun graph arc => graph.addArc entry.2 arc) graph := by
      rw [callArcs, List.foldl_map]
    rw [hmap]
    exact ⟨VectorFst.numStates_addArcs _, VectorFst.start_addArcs _, VectorFst.arcs_addArcs h _⟩

variable (util) in
/- One FST after the other is given its calls. -/
theorem foldl_addCalls (fsts : List (L × Option (VectorFst L W))) (k : ℕ) (graph : VectorFst L W)
    (h : k + fsts.length ≤ graph.numStates) :
    ((fsts.zipIdx k).foldl util.addCalls graph).numStates = graph.numStates ∧
      ((fsts.zipIdx k).foldl util.addCalls graph).start = graph.start ∧
        ∀ i, ((fsts.zipIdx k).foldl util.addCalls graph).arcs i =
          if k ≤ i then graph.arcs i ++ callArcs util (fsts[i - k]?.bind (·.2)) else graph.arcs i := by
  induction fsts generalizing k graph with
  | nil => simp [callArcs]
  | cons entry fsts ih =>
    rw [List.length_cons] at h
    have hk : (entry, k).2 < graph.numStates := by
      dsimp only
      omega
    obtain ⟨hnum, hstart, harcs⟩ := addCalls_reads util hk
    obtain ⟨hnum', hstart', harcs'⟩ := ih (k + 1) (util.addCalls graph (entry, k)) (by omega)
    rw [List.zipIdx_cons, List.foldl_cons]
    refine ⟨hnum'.trans hnum, hstart'.trans hstart, fun i => ?_⟩
    rw [harcs', harcs]
    rcases lt_trichotomy i k with hlt | rfl | hlt
    · rw [if_neg (by omega), if_neg (by omega), Function.update_of_ne hlt.ne]
    · rw [if_neg (by omega), if_pos le_rfl, Function.update_self, Nat.sub_self]
      rfl
    · rw [if_pos (by omega), if_pos hlt.le, Function.update_of_ne hlt.ne']
      have hsub : i - k = (i - (k + 1)) + 1 := by omega
      rw [hsub, List.getElem?_cons_succ]

theorem buildGraph_reads (util : ReplaceUtil L W) :
    util.buildGraph.numStates = util.fsts.length ∧ util.buildGraph.start = some util.root ∧
      ∀ i, util.buildGraph.arcs i = callArcs util (util.fstAt i) := by
  obtain ⟨hnum, hstart, harcs⟩ :=
    @emptyGraph_reads L W _ _ _ _ util.fsts.length util.root
  obtain ⟨hnum', hstart', harcs'⟩ := foldl_addCalls util util.fsts 0
    (emptyGraph util.fsts.length util.root) (by omega)
  refine ⟨hnum'.trans hnum, hstart'.trans hstart, fun i => ?_⟩
  have hread := harcs' i
  rwa [if_pos (Nat.zero_le i), harcs, List.nil_append, Nat.sub_zero] at hread

theorem mem_callArcs {fst : Option (VectorFst L W)} {arc : Arc L W} :
    arc ∈ callArcs util fst ↔ ∃ f, fst = some f ∧ ∃ call ∈ util.calls f,
      arc = ⟨call.1, call.1, 1, call.2⟩ := by
  cases fst with
  | none => simp [callArcs]
  | some f => simp [callArcs, eq_comm]

theorem step_buildGraph : Step util.buildGraph = Call util := by
  funext i j
  obtain ⟨-, -, harcs⟩ := buildGraph_reads util
  refine propext ⟨?_, ?_⟩
  · rintro ⟨arc, harc, rfl⟩
    rw [harcs, mem_callArcs] at harc
    obtain ⟨fst, hfst, call, hcall, rfl⟩ := harc
    obtain ⟨s, arc, harc, -, hcallee⟩ := mem_calls.mp hcall
    exact ⟨fst, hfst, s, arc, harc, hcallee⟩
  · rintro ⟨fst, hfst, s, arc, harc, hcallee⟩
    refine ⟨⟨arc.olabel, arc.olabel, 1, j⟩, ?_, rfl⟩
    rw [harcs, mem_callArcs]
    exact ⟨fst, hfst, (arc.olabel, j), mem_calls.mpr ⟨s, arc, harc, rfl, hcallee⟩, rfl⟩

/- An FST is marked if the calls lead to it from the root. -/
theorem access_build (isMember : W → Bool) (want : Bool) (hroot : util.root < util.fsts.length)
    (i : ℕ) : (util.buildDependencies isMember want).access i = true ↔
      ReflTransGen (Call util) util.root i := by
  obtain ⟨hnum, hstart, -⟩ := buildGraph_reads util
  have haccess : (util.buildDependencies isMember want).access i = true ↔
      Reaches util.buildGraph (fun _ => true) util.root i :=
    access_exact false hstart (hnum ▸ hroot) (SccVisitor.new 0) i
  rwa [Reaches, follows_any, step_buildGraph] at haccess

end Graph

section Expansion

variable [Zero W] [One W] [DecidableEq W] {fsts : List (L × VectorFst L W)}
  {opts : ReplaceOptions L}

theorem findState_grows (l : ReplaceTables) (tuple : StateTuple) :
    (l.findState tuple).1 < (l.findState tuple).2.states.length ∧
      l.states.length ≤ (l.findState tuple).2.states.length := by
  have hentry := BiTable.getElem?_findId l.states tuple
  exact ⟨(List.getElem?_eq_some_iff.mp hentry).1, (BiTable.prefix_findId l.states tuple).length_le⟩

/- The arcs made so far lead to states of the tables. -/
def Leads (acc : ReplaceTables × List (Arc L W)) : Prop :=
  ∀ arc ∈ acc.2, arc.nextstate < acc.1.states.length

theorem leads_snoc {l l' : ReplaceTables} {arcs : List (Arc L W)} {arc : Arc L W}
    (h : Leads (l, arcs)) (hle : l.states.length ≤ l'.states.length)
    (harc : arc.nextstate < l'.states.length) : Leads (l', arcs ++ [arc]) := by
  intro a ha
  rcases List.mem_append.mp ha with hold | hnew
  · exact (h a hold).trans_le hle
  · rwa [List.mem_singleton.mp hnew]

variable (opts) in
theorem replaceReturn_leads (tuple : StateTuple) (finalWeight : W) (l : ReplaceTables) :
    Leads (replaceReturn opts tuple finalWeight l) ∧
      l.states.length ≤ (replaceReturn opts tuple finalWeight l).1.states.length := by
  have hnone : Leads (l, ([] : List (Arc L W))) := by
    intro a ha
    cases ha
  unfold replaceReturn
  split
  · split
    next parent caller resume htop =>
      obtain ⟨hlt, hle⟩ := findState_grows l ⟨parent, caller, resume⟩
      exact ⟨leads_snoc hnone hle hlt, hle⟩
    next => exact ⟨hnone, le_rfl⟩
  · exact ⟨hnone, le_rfl⟩

theorem replaceArc_leads (tuple : StateTuple) {acc : ReplaceTables × List (Arc L W)}
    (h : Leads acc) (arc : Arc L W) : Leads (replaceArc fsts opts tuple acc arc) ∧
      acc.1.states.length ≤ (replaceArc fsts opts tuple acc arc).1.states.length := by
  obtain ⟨l, arcs⟩ := acc
  unfold replaceArc
  split
  next =>
    obtain ⟨hlt, hle⟩ := findState_grows l { tuple with fstState := arc.nextstate }
    exact ⟨leads_snoc h hle hlt, hle⟩
  next called hcalled =>
    split
    next => exact ⟨h, le_rfl⟩
    next calledStart hstart =>
      obtain ⟨hlt, hle⟩ := findState_grows { l with
        prefixes := (PrefixTable.push l.prefixes tuple.prefixId tuple.fstId arc.nextstate).2 }
        ⟨(PrefixTable.push l.prefixes tuple.prefixId tuple.fstId arc.nextstate).1, called,
          calledStart⟩
      exact ⟨leads_snoc h hle hlt, hle⟩

variable (fsts opts) in
theorem replaceArcs_leads (tuple : StateTuple) {acc : ReplaceTables × List (Arc L W)}
    (h : Leads acc) (arcs : List (Arc L W)) : Leads (arcs.foldl (replaceArc fsts opts tuple) acc) ∧
      acc.1.states.length ≤ (arcs.foldl (replaceArc fsts opts tuple) acc).1.states.length := by
  induction arcs generalizing acc with
  | nil => exact ⟨h, le_rfl⟩
  | cons arc arcs ih =>
    obtain ⟨hleads, hle⟩ := replaceArc_leads tuple h arc
    obtain ⟨hleads', hle'⟩ := ih hleads
    exact ⟨hleads', hle.trans hle'⟩

theorem inRange_addArcs (h : fst.InRange) (state : ℕ) {arcs : List (Arc L W)}
    (harcs : ∀ arc ∈ arcs, arc.nextstate < fst.numStates) :
    (arcs.foldl (fun fst arc => fst.addArc state arc) fst).InRange := by
  by_cases hstate : state < fst.numStates
  · constructor
    · intro s hs
      rw [VectorFst.start_addArcs] at hs
      rw [VectorFst.numStates_addArcs]
      exact h.start s hs
    · intro s arc harc
      rw [VectorFst.arcs_addArcs hstate, Function.update_apply] at harc
      rw [VectorFst.numStates_addArcs]
      split at harc
      · rcases List.mem_append.mp harc with hold | hnew
        · exact h.arcs state arc hold
        · exact harcs arc hnew
      · exact h.arcs s arc harc
  · have hnone : fst.states[state]? = none := List.getElem?_eq_none (Nat.le_of_not_lt hstate)
    have hsame : arcs.foldl (fun fst arc => fst.addArc state arc) fst = fst := by
      clear harcs
      induction arcs with
      | nil => rfl
      | cons arc arcs ih => rw [List.foldl_cons, VectorFst.addArc_of_none arc hnone, ih]
    rwa [hsame]

theorem inRange_of_reads {fst' : VectorFst L W} (h : fst.InRange) (harcs : fst'.arcs = fst.arcs)
    (hstart : fst'.start = fst.start) (hnum : fst.numStates ≤ fst'.numStates) : fst'.InRange := by
  constructor
  · intro s hs
    exact (h.start s (hstart ▸ hs)).trans_le hnum
  · intro s arc harc
    exact (h.arcs s arc (harcs ▸ harc)).trans_le hnum

theorem replaceStep_inRange {l l' : ReplaceLoop L W} (h : l.ofst.InRange)
    (hstep : replaceStep fsts opts l = some l') : l'.ofst.InRange := by
  obtain ⟨⟨prefixes, states, pending⟩, ofst⟩ := l
  cases pending with
  | nil => cases hstep
  | cons id pending =>
    obtain rfl := Option.some.inj hstep
    dsimp only
    generalize states.getD id ⟨0, 0, 0⟩ = tuple
    generalize (fstAt fsts tuple.fstId).finalWeight tuple.fstState = finalWeight
    obtain ⟨hleads, -⟩ := replaceReturn_leads opts tuple finalWeight
      ⟨prefixes, states, pending⟩
    obtain ⟨hleads', -⟩ := replaceArcs_leads fsts opts tuple hleads
      ((fstAt fsts tuple.fstId).arcs tuple.fstState)
    have hfinal : (if tuple.prefixId = 0 then ofst.setFinal id finalWeight else ofst).InRange := by
      split
      · exact inRange_of_reads h (VectorFst.arcs_setFinal _ _ _) (VectorFst.start_setFinal _ _ _)
          (VectorFst.numStates_setFinal _ _ _).ge
      · exact h
    generalize (if tuple.prefixId = 0 then ofst.setFinal id finalWeight else ofst) = ofst' at *
    generalize ((fstAt fsts tuple.fstId).arcs tuple.fstState).foldl (replaceArc fsts opts tuple)
      (replaceReturn opts tuple finalWeight ⟨prefixes, states, pending⟩) = made at *
    obtain ⟨harcs, -, hstart, hnum⟩ := VectorFst.growTo_eq ofst' made.1.states.length
    refine inRange_addArcs (inRange_of_reads hfinal harcs hstart ?_) id fun arc harc => ?_
    · rw [hnum]
      exact Nat.le_add_right _ _
    · refine (hleads' arc harc).trans_le ?_
      rw [hnum]
      omega

theorem inRange_setProperties (h : fst.InRange) (props mask : BitVec 64) :
    (fst.setProperties props mask).InRange := ⟨h.start, h.arcs⟩

theorem inRange_empty (hstates : fst.states = []) (hstart : fst.start = none) :
    fst.InRange := by
  constructor
  · intro s hs
    rw [hstart] at hs
    cases hs
  · intro s arc harc
    rw [VectorFst.arcs_of_le (by simp [VectorFst.numStates, hstates])] at harc
    cases harc

/- The arcs of an expanded FST lead to states it has. -/
theorem replace_inRange [ToString L] {fuel : ℕ} {ofst : VectorFst L W}
    (h : replace fuel fsts ofst opts = some (.ok fst)) : fst.InRange := by
  have hempty : (ofst.deleteAllStates.setProperties 0 kFstProperties).InRange :=
    inRange_empty rfl rfl
  unfold replace at h
  dsimp only at h
  split at h
  · cases h
  next root hroot =>
    split at h
    · cases h
    · cases h
    next hwalk =>
      split at h
      · obtain rfl := Except.ok.inj (Option.some.inj h)
        exact inRange_setProperties hempty _ _
      next rootStart hstart =>
        obtain ⟨l, hrun, heq⟩ := Option.map_eq_some_iff.mp h
        obtain rfl := Except.ok.inj heq
        refine inRange_setProperties ?_ _ _
        have hadded : (ofst.deleteAllStates.setProperties 0 kFstProperties).addState.InRange :=
          inRange_of_reads hempty (VectorFst.arcs_addStates _ 1) rfl (Nat.zero_le _)
        have hkept : ∀ l l' : ReplaceLoop L W, l.ofst.InRange →
            replaceStep fsts opts l = some l' → l'.ofst.InRange :=
          fun l l' => replaceStep_inRange
        refine (Loop.runLoop_invariant hkept ⟨fun s hs => ?_, hadded.arcs⟩ hrun).1
        obtain rfl := Option.some.inj hs
        exact Nat.zero_lt_one

end Expansion

section Runs

variable [Zero W] [One W] [DecidableEq W] {util util' : ReplaceUtil L W} {isMember : W → Bool}

/- The root names an FST, and the arcs of every FST lead to states it has. -/
structure Sound (util : ReplaceUtil L W) : Prop where
  root : util.root < util.fsts.length
  inRange : ∀ i fst, util.fstAt i = some fst → fst.InRange

/- Each FST that is left, made into another. -/
def onFsts (f : VectorFst L W → VectorFst L W) (util : ReplaceUtil L W) : ReplaceUtil L W :=
  { util with fsts := util.fsts.map fun entry => (entry.1, entry.2.map f) }

theorem fstAt_onFsts (f : VectorFst L W → VectorFst L W) (util : ReplaceUtil L W) (i : ℕ) :
    (onFsts f util).fstAt i = (util.fstAt i).map f := by
  unfold ReplaceUtil.fstAt onFsts
  rw [List.getElem?_map]
  cases util.fsts[i]? <;> rfl

theorem labels_onFsts (f : VectorFst L W → VectorFst L W) (util : ReplaceUtil L W) :
    (onFsts f util).labels = util.labels := by
  unfold ReplaceUtil.labels onFsts
  rw [List.map_map]
  rfl

theorem sound_onFsts (h : Sound util) {f : VectorFst L W → VectorFst L W}
    (hf : ∀ fst, fst.InRange → (f fst).InRange) : Sound (onFsts f util) := by
  constructor
  · have hlen : (onFsts f util).fsts.length = util.fsts.length := List.length_map _
    exact hlen.symm ▸ h.root
  · intro i fst hfst
    rw [fstAt_onFsts] at hfst
    obtain ⟨fst, hold, rfl⟩ := Option.map_eq_some_iff.mp hfst
    exact hf fst (h.inRange i fst hold)

variable (isMember) in
/- What `connect` makes of an FST. -/
def trim (fst : VectorFst L W) : VectorFst L W :=
  if fst.properties &&& usefulProps ≠ usefulProps then (fst.connect isMember).getD fst else fst

theorem connectFst_eq {entry : L × Option (VectorFst L W)}
    (h : ∀ fst, entry.2 = some fst → fst.InRange) :
    connectFst isMember entry = some (entry.1, entry.2.map (trim isMember)) := by
  obtain ⟨label, fst⟩ := entry
  cases fst with
  | none => rfl
  | some fst =>
    obtain ⟨fst', -, hconnect, -⟩ := trims_connect isMember (h fst rfl)
    have htrim : trim isMember fst =
        if fst.properties &&& usefulProps ≠ usefulProps then fst' else fst := by
      rw [trim, hconnect, Option.getD_some]
    unfold connectFst
    dsimp only
    rw [hconnect, Option.map_some, Option.map_some, htrim]
    split <;> rfl

theorem connectFsts_eq (h : Sound util) : util.fsts.mapM (connectFst isMember) =
    some (onFsts (trim isMember) util).fsts := by
  have hall : ∀ entry ∈ util.fsts, ∀ fst, entry.2 = some fst → fst.InRange := by
    intro entry hentry fst hfst
    obtain ⟨i, hi⟩ := List.mem_iff_getElem?.mp hentry
    refine h.inRange i fst ?_
    rw [ReplaceUtil.fstAt, hi]
    exact hfst
  exact ListLemmas.mapM_eq_pure fun entry hentry => connectFst_eq (hall entry hentry)

/- The FSTs that are marked as reachable from the root are kept. -/
def keep (access : ℕ → Bool) (util : ReplaceUtil L W) : ReplaceUtil L W :=
  { util with
    fsts := util.fsts.zipIdx.map fun entry =>
      if access entry.2 then entry.1 else (entry.1.1, none)
    deps := none }

theorem fstAt_keep (access : ℕ → Bool) (util : ReplaceUtil L W) (i : ℕ) :
    (keep access util).fstAt i = if access i then util.fstAt i else none := by
  unfold ReplaceUtil.fstAt keep
  dsimp only
  rw [List.getElem?_map, List.getElem?_zipIdx]
  cases util.fsts[i]? with
  | none => simp
  | some entry => cases haccess : access i <;> simp [haccess]

theorem labels_keep (access : ℕ → Bool) (util : ReplaceUtil L W) :
    (keep access util).labels = util.labels := by
  unfold ReplaceUtil.labels keep
  apply List.ext_getElem?
  intro i
  simp only [List.getElem?_map, List.getElem?_zipIdx]
  cases util.fsts[i]? with
  | none => rfl
  | some entry => cases haccess : access i <;> simp [haccess]

theorem connect_eq (h : Sound util) : util.connect isMember =
    some (keep ((onFsts (trim isMember) util).dependencies isMember false).access
      (onFsts (trim isMember) util)) := by
  unfold ReplaceUtil.connect
  rw [connectFsts_eq h]
  rfl

theorem trim_inRange (h : fst.InRange) : (trim isMember fst).InRange := by
  obtain ⟨fst', old, hconnect, htrims, -⟩ := trims_connect isMember h
  unfold trim
  rw [hconnect]
  split
  · exact htrims.inRange
  · exact h

theorem sound_keep (h : Sound util) (access : ℕ → Bool) : Sound (keep access util) := by
  constructor
  · have hlen : (keep access util).fsts.length = util.fsts.length := by simp [keep]
    exact hlen.symm ▸ h.root
  · intro i fst hfst
    rw [fstAt_keep] at hfst
    split at hfst
    · exact h.inRange i fst hfst
    · cases hfst

theorem sound_deps (h : Sound util) (deps : Option (Dependencies L W)) :
    Sound { util with deps := deps } := ⟨h.root, h.inRange⟩

theorem sound_setFst (h : Sound util) {index : ℕ} (hfst : fst.InRange) :
    Sound (util.setFst index fst) := by
  constructor
  · have hlen : (util.setFst index fst).fsts.length = util.fsts.length := by
      simp [ReplaceUtil.setFst]
    exact hlen.symm ▸ h.root
  · intro i fst' hfst'
    unfold ReplaceUtil.fstAt ReplaceUtil.setFst at hfst'
    dsimp only at hfst'
    rw [List.getElem?_modify] at hfst'
    cases hentry : util.fsts[i]? with
    | none =>
      rw [hentry] at hfst'
      split at hfst' <;> cases hfst'
    | some entry =>
      rw [hentry] at hfst'
      split at hfst'
      · obtain rfl := Option.some.inj hfst'
        exact hfst
      · refine h.inRange i fst' ?_
        rwa [ReplaceUtil.fstAt, hentry]

variable [ToString L] {fuel : ℕ}

variable {result : Except OpenFstError Unit × ReplaceUtil L W}

theorem expandFsts_sound {restricted : VectorFst L W} {order : List ℕ} (h : Sound util)
    (hrun : expandFsts fuel restricted order util = some result) : Sound result.2 := by
  induction order generalizing util with
  | nil =>
    obtain rfl := Option.some.inj hrun
    exact sound_deps h none
  | cons index order ih =>
    rw [expandFsts] at hrun
    split at hrun
    · exact ih h hrun
    · split at hrun
      · exact ih h hrun
      next fst hfst =>
        obtain ⟨expanded, hreplace, hrun⟩ := Option.bind_eq_some_iff.mp hrun
        cases expanded with
        | error message =>
          obtain rfl := Option.some.inj hrun
          exact h
        | ok expanded => exact ih (sound_setFst h (replace_inRange hreplace)) hrun

theorem replaceLabels_sound {labels : List L} (h : Sound util)
    (hrun : util.replaceLabels isMember fuel labels = some result) : Sound result.2 := by
  obtain ⟨order, -, hrun⟩ := Option.bind_eq_some_iff.mp hrun
  cases order with
  | none =>
    obtain rfl := Option.some.inj hrun
    exact sound_deps h _
  | some order => exact expandFsts_sound (sound_deps h _) hrun

theorem replaceChosen_sound {arrange : List ℕ → List ℕ} {chosen : ReplaceStats → Bool}
    (h : Sound util) (hrun : util.replaceChosen isMember fuel arrange chosen = some result) :
    Sound result.2 := by
  obtain ⟨order, -, hrun⟩ := Option.bind_eq_some_iff.mp hrun
  cases order with
  | none =>
    obtain rfl := Option.some.inj hrun
    exact sound_deps h _
  | some order => exact replaceLabels_sound (sound_deps h _) hrun

theorem sound_apply (op : ReplaceUtilOp L) (h : Sound util)
    (happly : op.apply isMember fuel util = some util') : Sound util' := by
  cases op with
  | cyclicDependencies =>
    obtain rfl := Option.some.inj happly
    exact sound_deps h _
  | scc label =>
    obtain rfl := Option.some.inj happly
    unfold ReplaceUtil.scc
    split
    · exact h
    · exact sound_deps h _
  | sccProperties component =>
    obtain rfl := Option.some.inj happly
    unfold ReplaceUtil.sccProperties ReplaceUtil.computeSccProperties
    dsimp only
    split
    · exact h
    · split
      · exact sound_deps h _
      · exact sound_deps h _
  | connected =>
    obtain rfl := Option.some.inj happly
    have hsettled : Sound (onFsts (fun fst =>
        { fst with properties := settledCache isMember fst usefulProps }) util) :=
      sound_onFsts h fun fst hfst => ⟨hfst.start, hfst.arcs⟩
    exact sound_deps hsettled _
  | connect =>
    have hconnect : util.connect isMember = some util' := happly
    rw [connect_eq h] at hconnect
    obtain rfl := Option.some.inj hconnect
    exact sound_keep (sound_onFsts h fun fst hfst => trim_inRange hfst) _
  | replaceLabels labels =>
    obtain ⟨result, hrun, rfl⟩ := Option.map_eq_some_iff.mp happly
    exact replaceLabels_sound h hrun
  | replaceBySize nstates narcs nnonterms =>
    obtain ⟨result, hrun, rfl⟩ := Option.map_eq_some_iff.mp happly
    exact replaceChosen_sound h hrun
  | replaceTrivial =>
    obtain ⟨result, hrun, rfl⟩ := Option.map_eq_some_iff.mp happly
    exact replaceChosen_sound h hrun
  | replaceByInstances ninstances =>
    obtain ⟨result, hrun, rfl⟩ := Option.map_eq_some_iff.mp happly
    exact replaceChosen_sound h hrun
  | replaceUnique =>
    obtain ⟨result, hrun, rfl⟩ := Option.map_eq_some_iff.mp happly
    exact replaceChosen_sound h hrun

theorem sound_new {pairs : List (L × VectorFst L W)} {opts : ReplaceOptions L}
    (h : ∀ pair ∈ pairs, pair.2.InRange) (hnew : ReplaceUtil.new pairs opts = .ok util) :
    Sound util := by
  unfold ReplaceUtil.new at hnew
  split at hnew
  · cases hnew
  next root hroot =>
    cases hnew
    constructor
    · have hlt := indexOf_lt hroot
      rw [List.length_map] at hlt
      simpa using hlt
    · intro i fst hfst
      unfold ReplaceUtil.fstAt at hfst
      dsimp only at hfst
      rw [List.getElem?_map] at hfst
      cases hpair : pairs[i]? with
      | none =>
        rw [hpair] at hfst
        cases hfst
      | some pair =>
        rw [hpair] at hfst
        obtain rfl := Option.some.inj hfst
        exact h pair (List.mem_of_getElem? hpair)

/- Whatever is done to a network of sound FSTs leaves it one. -/
theorem sound_run {pairs : List (L × VectorFst L W)} {opts : ReplaceOptions L}
    (h : ∀ pair ∈ pairs, pair.2.InRange) (hnew : ReplaceUtil.new pairs opts = .ok util)
    {ops : List (ReplaceUtilOp L)}
    (hrun : runOps (ReplaceUtilOp.apply isMember fuel) ops util = some util') : Sound util' :=
  run_preserves (fun op _ _ hs hstep => sound_apply op hs hstep) (sound_new h hnew) hrun

end Runs

end Sicada.ReplaceUtilRuns
