import Sicada.ReplaceMoves

namespace Sicada.ReplaceExact

open ListLemmas Paths Walk Relation ReplaceCycles ReplaceRuns ReplaceTables ReplaceMoves

variable {L W : Type} [ArcLabel L]

variable {e : ℕ × Arc L W} {root start : ℕ} {l : ReplaceLoop L W}

section Bounds

variable [Zero W] (fsts : List (L × VectorFst L W))

/- The states that a run of the network may come to in one of its FSTs. -/
def targets : Finset ℕ :=
  (fsts.flatMap fun entry => entry.2.start.toList ++
    (entry.2.states.flatMap (·.arcs)).map (·.nextstate)).toFinset

/- The FSTs a vertex is in the middle of, the innermost first. -/
def openFsts (v : Vertex) : List ℕ := v.fstId :: v.stack.map Prod.fst

/- What a vertex that the root can come to is like. -/
structure Within (root : ℕ) (v : Vertex) : Prop where
  reached : ∀ i ∈ openFsts v, ReflTransGen (Calls fsts) root i
  below : (openFsts v).Pairwise fun i j => TransGen (Calls fsts) j i
  state : v.fstState ∈ targets fsts
  resumes : ∀ frame ∈ v.stack, frame.2 ∈ targets fsts

variable {fsts}

variable {fstId : ℕ}

theorem exists_of_leaves {s : ℕ} (h : Leaves (fstAt fsts fstId) s e) :
    e.2 ∈ (fstAt fsts fstId).states.flatMap (·.arcs) := by
  rw [List.mem_flatMap]
  cases hstate : (fstAt fsts fstId).states[s]? with
  | none => simp [Leaves, VectorFst.arcs, hstate] at h
  | some vs =>
    refine ⟨vs, List.mem_of_getElem? hstate, ?_⟩
    rw [Leaves, VectorFst.arcs_of_getElem? hstate] at h
    exact List.mem_of_getElem? h

theorem mem_of_fstAt (h : fstId < fsts.length) :
    ∃ entry ∈ fsts, fstAt fsts fstId = entry.2 := by
  refine ⟨fsts[fstId], List.getElem_mem h, ?_⟩
  simp [fstAt, List.getElem?_eq_getElem h]

theorem fstAt_of_le (h : fsts.length ≤ fstId) :
    fstAt fsts fstId = VectorFst.new := by
  simp [fstAt, List.getElem?_eq_none h]

theorem nextstate_mem_targets {s : ℕ} (h : Leaves (fstAt fsts fstId) s e) :
    e.2.nextstate ∈ targets fsts := by
  have harc := exists_of_leaves h
  by_cases hlt : fstId < fsts.length
  · obtain ⟨entry, hentry, heq⟩ := mem_of_fstAt hlt
    rw [heq] at harc
    rw [targets, List.mem_toFinset, List.mem_flatMap]
    exact ⟨entry, hentry, List.mem_append_right _ (List.mem_map_of_mem harc)⟩
  · rw [fstAt_of_le (by omega)] at harc
    cases harc

theorem start_mem_targets (h : (fstAt fsts fstId).start = some start) :
    start ∈ targets fsts := by
  by_cases hlt : fstId < fsts.length
  · obtain ⟨entry, hentry, heq⟩ := mem_of_fstAt hlt
    rw [heq] at h
    rw [targets, List.mem_toFinset, List.mem_flatMap]
    refine ⟨entry, hentry, List.mem_append_left _ ?_⟩
    rw [h]
    exact List.mem_singleton_self start
  · rw [fstAt_of_le (by omega)] at h
    cases h

theorem within_start (h : (fstAt fsts root).start = some start) :
    Within fsts root ⟨[], root, start⟩ := by
  refine ⟨?_, List.pairwise_singleton _ _, start_mem_targets h, fun frame hframe => by cases hframe⟩
  intro i hi
  obtain rfl := List.mem_singleton.mp hi
  exact ReflTransGen.refl

theorem within_next (hdistinct : (fsts.map Prod.fst).Nodup) {v : Vertex} (h : Within fsts root v)
    {m : Move L W} (hm : Enabled fsts v m) :
    Within fsts root (next v m) := by
  obtain ⟨stack, fstId, s⟩ := v
  obtain ⟨hreached, hbelow, hstate, hresumes⟩ := h
  cases m with
  | ret finalWeight =>
    cases stack with
    | nil => exact absurd rfl hm.1
    | cons frame stack =>
      obtain ⟨caller, resume⟩ := frame
      exact ⟨fun i hi => hreached i (List.mem_cons_of_mem _ hi), hbelow.of_cons,
        hresumes _ List.mem_cons_self, fun frame hframe =>
          hresumes frame (List.mem_cons_of_mem _ hframe)⟩
  | arc e => exact ⟨hreached, hbelow, nextstate_mem_targets hm.1, hresumes⟩
  | call e callee start =>
    obtain ⟨he, hnames, hstart⟩ := hm
    have hcall : Calls fsts fstId callee :=
      List.mem_filterMap.mpr ⟨e.2, exists_of_leaves he, (calledFst_eq_some hdistinct).mpr hnames⟩
    refine ⟨?_, List.pairwise_cons.mpr ⟨?_, hbelow⟩, start_mem_targets hstart, ?_⟩
    · intro i hi
      rcases List.mem_cons.mp hi with rfl | hi
      · exact (hreached fstId List.mem_cons_self).tail hcall
      · exact hreached i hi
    · intro i hi
      have hi' : i ∈ fstId :: stack.map Prod.fst := hi
      rcases List.mem_cons.mp hi' with rfl | hi'
      · exact TransGen.single hcall
      · exact (List.rel_of_pairwise_cons hbelow hi').tail hcall
    · intro frame hframe
      rcases List.mem_cons.mp hframe with rfl | hframe
      · exact nextstate_mem_targets he
      · exact hresumes frame hframe

/- The stacks of at most so many frames. -/
def shortStacks (frames : Finset (ℕ × ℕ)) : ℕ → Finset (List (ℕ × ℕ))
  | 0 => {[]}
  | n + 1 => insert [] ((frames ×ˢ shortStacks frames n).image fun x => x.1 :: x.2)

theorem mem_shortStacks {frames : Finset (ℕ × ℕ)} {n : ℕ} {stack : List (ℕ × ℕ)}
    (hlen : stack.length ≤ n) (hall : ∀ frame ∈ stack, frame ∈ frames) :
    stack ∈ shortStacks frames n := by
  induction n generalizing stack with
  | zero =>
    obtain rfl := List.length_eq_zero_iff.mp (Nat.le_zero.mp hlen)
    exact Finset.mem_singleton_self _
  | succ n ih =>
    cases stack with
    | nil => exact Finset.mem_insert_self _ _
    | cons frame stack =>
      apply Finset.mem_insert_of_mem
      rw [Finset.mem_image]
      refine ⟨(frame, stack), Finset.mem_product.mpr ⟨hall frame List.mem_cons_self, ?_⟩, rfl⟩
      apply ih
      · simpa using hlen
      · exact fun f hf => hall f (List.mem_cons_of_mem _ hf)

def vertices (fsts : List (L × VectorFst L W)) : Finset Vertex :=
  (shortStacks (Finset.range fsts.length ×ˢ targets fsts) fsts.length ×ˢ
    Finset.range fsts.length ×ˢ targets fsts).image fun x => ⟨x.1, x.2.1, x.2.2⟩

/- Where no FST calls itself none is open twice, and so the stacks stay within the network's size. -/
theorem mem_vertices (hroot : root < fsts.length) (hcycle : ¬ CallCycle fsts root) {v : Vertex}
    (h : Within fsts root v) : v ∈ vertices fsts := by
  have hlt : ∀ i ∈ openFsts v, i < fsts.length := by
    intro i hi
    rcases ReflTransGen.cases_tail (h.reached i hi) with rfl | ⟨j, -, hcall⟩
    · exact hroot
    · exact lt_of_calls hcall
  have hnodup : (openFsts v).Nodup := by
    apply h.below.imp_of_mem
    rintro i j hi - hij rfl
    exact hcycle ⟨i, h.reached i hi, hij⟩
  have hlen : (openFsts v).length ≤ fsts.length := by
    have hcard : (openFsts v).toFinset.card ≤ (Finset.range fsts.length).card := by
      apply Finset.card_le_card
      intro i hi
      exact Finset.mem_range.mpr (hlt i (List.mem_toFinset.mp hi))
    rwa [List.toFinset_card_of_nodup hnodup, Finset.card_range] at hcard
  rw [vertices, Finset.mem_image]
  refine ⟨(v.stack, v.fstId, v.fstState), ?_, rfl⟩
  rw [Finset.mem_product, Finset.mem_product]
  refine ⟨mem_shortStacks ?_ ?_, Finset.mem_range.mpr (hlt v.fstId List.mem_cons_self), h.state⟩
  · rw [openFsts, List.length_cons, List.length_map] at hlen
    exact Nat.le_of_succ_le hlen
  · intro frame hframe
    refine Finset.mem_product.mpr ⟨Finset.mem_range.mpr ?_, h.resumes frame hframe⟩
    exact hlt frame.1 (List.mem_cons_of_mem _ (List.mem_map_of_mem hframe))

end Bounds

section Invariant

variable [Zero W] [One W] [DecidableEq W] (fsts : List (L × VectorFst L W))

/- The state `q` of the result has the arcs and the final weight its vertex calls for. -/
def Expanded (l : ReplaceLoop L W) (q : ℕ) : Prop :=
  List.Forall₂ (Stands l.tables)
      ((movesOf fsts (vertexAt l.tables q)).map (protoOf (vertexAt l.tables q))) (l.ofst.arcs q) ∧
    l.ofst.finalWeight q = if (vertexAt l.tables q).stack = [] then
      (fstAt fsts (vertexAt l.tables q).fstId).finalWeight (vertexAt l.tables q).fstState else 0

structure ReplaceInv (root start : ℕ) (l : ReplaceLoop L W) : Prop where
  ok : TablesOk l.tables
  first : At l.tables 0 ⟨[], root, start⟩
  within : ∀ tuple ∈ l.tables.states, Within fsts root (vertexOf l.tables.prefixes tuple)
  numStates : l.ofst.numStates = l.tables.states.length
  start : l.ofst.start = some 0
  pendingNodup : l.tables.pending.Nodup
  pending : ∀ q ∈ l.tables.pending, q < l.tables.states.length
  untouched : ∀ q ∈ l.tables.pending, l.ofst.arcs q = [] ∧ l.ofst.finalWeight q = 0
  expanded : ∀ q < l.tables.states.length, q ∉ l.tables.pending → Expanded fsts l q

variable {fsts}

theorem replaceStep_inv (hdistinct : (fsts.map Prod.fst).Nodup) {rootLabel : L}
    {l' : ReplaceLoop L W} (hinv : ReplaceInv fsts root start l)
    (hstep : replaceStep fsts (ReplaceOptions.epsilonCalls rootLabel) l = some l') :
    ReplaceInv fsts root start l' ∧
      l'.tables.pending.length + l.tables.states.length + 1 =
        l.tables.pending.length + l'.tables.states.length := by
  obtain ⟨⟨prefixes, states, pending⟩, ofst⟩ := l
  cases pending with
  | nil => simp [replaceStep] at hstep
  | cons q pending =>
    obtain ⟨hok, hfirst, hwithin, hnum, hstart, hpnodup, hpending, huntouched, hexpanded⟩ := hinv
    dsimp only at hwithin hnum hstart hpnodup hpending huntouched
    have hqlt : q < states.length := hpending q List.mem_cons_self
    have htuple := List.getElem?_eq_getElem hqlt
    have hgetD : states.getD q ⟨0, 0, 0⟩ = states[q] := by
      rw [List.getD_eq_getElem?_getD, htuple, Option.getD_some]
    have hmem : states[q] ∈ states := List.getElem_mem hqlt
    obtain ⟨hqarcs, hqfinal⟩ := huntouched q List.mem_cons_self
    have hok' : TablesOk ⟨prefixes, states, pending⟩ := ⟨hok.linked, hok.nodup, hok.known⟩
    obtain ⟨tables, arcs, hrun, hgiven⟩ :=
      @expand_spec _ _ _ _ _ _ fsts rootLabel _ ⟨prefixes, states, pending⟩ hok' hmem
    generalize hv : vertexOf prefixes states[q] = v at hgiven
    have hstackv : v.stack = [] ↔ states[q].prefixId = 0 := by
      rw [← hv]
      constructor
      · exact fun hstack => hok.linked.eq_zero (hok.known _ hmem) hstack
      · intro hzero
        rw [vertexOf, hzero, stackOf_zero]
    -- The state is final where it was reached through no call.
    obtain ⟨ofst', hofst', hfarcs, hffinal, hfstart, hfnum⟩ : ∃ ofst',
        (if states[q].prefixId = 0 then
          ofst.setFinal q ((fstAt fsts states[q].fstId).finalWeight states[q].fstState)
          else ofst) = ofst' ∧ ofst'.arcs = ofst.arcs ∧
        ofst'.finalWeight = Function.update ofst.finalWeight q
          (if v.stack = [] then (fstAt fsts v.fstId).finalWeight v.fstState else 0) ∧
        ofst'.start = ofst.start ∧ ofst'.numStates = ofst.numStates := by
      refine ⟨_, rfl, ?_⟩
      by_cases hzero : states[q].prefixId = 0
      · rw [if_pos hzero, if_pos (hstackv.mpr hzero), ← hv]
        exact ⟨VectorFst.arcs_setFinal _ _ _, VectorFst.finalWeight_setFinal _ (by omega),
          VectorFst.start_setFinal _ _ _, VectorFst.numStates_setFinal _ _ _⟩
      · rw [if_neg hzero, if_neg fun hstack => hzero (hstackv.mp hstack), ← hqfinal,
          Function.update_eq_self]
        exact ⟨rfl, rfl, rfl, rfl⟩
    have heq : l' = ⟨tables, arcs.foldl (fun ofst arc => ofst.addArc q arc)
        (ofst'.growTo tables.states.length)⟩ := by
      simp only [replaceStep, hgetD, hrun, hofst'] at hstep
      exact (Option.some.inj hstep).symm
    subst heq
    obtain ⟨hgrown, hall, hfresh⟩ := hgiven
    have hlen : states.length ≤ tables.states.length := hgrown.states.length_le
    obtain ⟨hgarcs, hgfinal, hgstart, hgnum⟩ := VectorFst.growTo_eq ofst' tables.states.length
    have hgnum' : (ofst'.growTo tables.states.length).numStates = tables.states.length := by
      rw [hgnum, hfnum, hnum]
      omega
    have harcs : (arcs.foldl (fun ofst arc => ofst.addArc q arc)
        (ofst'.growTo tables.states.length)).arcs = Function.update ofst.arcs q arcs := by
      rw [VectorFst.arcs_addArcs (by omega), hgarcs, hfarcs, hqarcs, List.nil_append]
    have hfinal : (arcs.foldl (fun ofst arc => ofst.addArc q arc)
        (ofst'.growTo tables.states.length)).finalWeight = Function.update ofst.finalWeight q
          (if v.stack = [] then (fstAt fsts v.fstId).finalWeight v.fstState else 0) := by
      rw [VectorFst.finalWeight_addArcs, hgfinal, hffinal]
    have hqnot : q ∉ pending := (List.nodup_cons.mp hpnodup).1
    have hnew : ∀ x, x ∈ tables.pending ↔ x ∈ pending ∨ states.length ≤ x ∧
        x < tables.states.length := hgrown.pending
    have hpending_ne : ∀ x ∈ tables.pending, x ≠ q := by
      rintro x hx rfl
      rcases (hnew x).mp hx with hx | ⟨hx, -⟩
      · exact hqnot hx
      · omega
    have hvat : ∀ x < states.length, vertexAt tables x = vertexAt ⟨prefixes, states, q :: pending⟩ x := by
      intro x hx
      exact (At.mono hgrown hok' ⟨hx, rfl⟩).2
    refine ⟨⟨hgrown.ok, hfirst.mono hgrown hok', ?_, ?_, ?_, ?_, ?_, ?_, ?_⟩, ?_⟩
    · intro t ht
      rcases hfresh t ht with ht | ⟨p, hp, hvertex⟩
      · rw [vertexOf_grow hgrown.prefixes hok' ht]
        exact hwithin t ht
      · obtain ⟨m, hm, rfl⟩ := List.mem_map.mp hp
        rw [hvertex]
        exact within_next hdistinct (hv ▸ hwithin _ hmem) ((mem_movesOf hdistinct).mp hm)
    · rw [VectorFst.numStates_addArcs, hgnum']
    · rw [VectorFst.start_addArcs, hgstart, hfstart, hstart]
    · apply hgrown.pendingNodup _ (List.nodup_cons.mp hpnodup).2
      exact fun x hx => hpending x (List.mem_cons_of_mem q hx)
    · intro x hx
      rcases (hnew x).mp hx with hx | ⟨-, hx⟩
      · exact (hpending x (List.mem_cons_of_mem q hx)).trans_le hlen
      · exact hx
    · intro x hx
      rw [harcs, hfinal, Function.update_of_ne (hpending_ne x hx),
        Function.update_of_ne (hpending_ne x hx)]
      rcases (hnew x).mp hx with hx | ⟨hx, -⟩
      · exact huntouched x (List.mem_cons_of_mem q hx)
      · have hle : ofst.numStates ≤ x := by omega
        exact ⟨VectorFst.arcs_of_le hle, VectorFst.finalWeight_of_le hle⟩
    · intro x hx hxnot
      have hxlt : x < states.length := by
        by_contra hge
        exact hxnot ((hnew x).mpr (Or.inr ⟨by omega, hx⟩))
      unfold Expanded
      dsimp only
      rw [harcs, hfinal, hvat x hxlt]
      by_cases hxq : x = q
      · subst hxq
        rw [Function.update_self, Function.update_self, vertexAt_eq htuple]
        dsimp only
        rw [hv]
        exact ⟨hall, rfl⟩
      · rw [Function.update_of_ne hxq, Function.update_of_ne hxq]
        have hnot : x ∉ q :: pending := by
          intro hmem'
          rcases List.mem_cons.mp hmem' with rfl | hmem'
          · exact hxq rfl
          · exact hxnot ((hnew x).mpr (Or.inl hmem'))
        obtain ⟨harcsx, hfinalx⟩ := hexpanded x hxlt hnot
        exact ⟨harcsx.imp fun _ _ hs => hs.mono hgrown hok', hfinalx⟩
    · have hcard := hgrown.card
      simp only [List.length_cons]
      dsimp only at hcard
      omega

theorem length_le_of_inv (hroot : root < fsts.length) (hcycle : ¬ CallCycle fsts root)
    (hinv : ReplaceInv fsts root start l) :
    l.tables.states.length ≤ (vertices fsts).card := by
  rw [← List.toFinset_card_of_nodup hinv.ok.nodup]
  apply Finset.card_le_card_of_injOn (vertexOf l.tables.prefixes)
  · intro tuple htuple
    exact mem_vertices hroot hcycle (hinv.within tuple (List.mem_toFinset.mp htuple))
  · intro tuple htuple tuple' htuple' heq
    exact vertexOf_injective hinv.ok (List.mem_toFinset.mp htuple) (List.mem_toFinset.mp htuple')
      heq

def remaining (fsts : List (L × VectorFst L W)) (l : ReplaceLoop L W) : ℕ :=
  (vertices fsts).card - l.tables.states.length + l.tables.pending.length

/- Every round takes one state off the list, and no vertex is put on it twice. -/
theorem replaceLoop_terminates (hdistinct : (fsts.map Prod.fst).Nodup) (rootLabel : L)
    (hroot : root < fsts.length) (hcycle : ¬ CallCycle fsts root)
    (hinv : ReplaceInv fsts root start l) :
    ∃ fuel l', Loop.runLoop (replaceStep fsts (ReplaceOptions.epsilonCalls rootLabel)) fuel l =
        some l' ∧ ReplaceInv fsts root start l' ∧ l'.tables.pending = [] := by
  have hstep : ∀ l l', ReplaceInv fsts root start l →
      replaceStep fsts (ReplaceOptions.epsilonCalls rootLabel) l = some l' →
        ReplaceInv fsts root start l' := fun l l' hl hs => (replaceStep_inv hdistinct hl hs).1
  have hdown : ∀ l l', ReplaceInv fsts root start l →
      replaceStep fsts (ReplaceOptions.epsilonCalls rootLabel) l = some l' →
        remaining fsts l' < remaining fsts l := by
    intro l l' hl hs
    obtain ⟨hl', hlength⟩ := replaceStep_inv hdistinct hl hs
    have hle := length_le_of_inv hroot hcycle hl
    have hle' := length_le_of_inv hroot hcycle hl'
    unfold remaining
    omega
  obtain ⟨l', hrun, hinv', hstop⟩ := Loop.runLoop_terminates hstep hdown hinv (Nat.lt_succ_self _)
  refine ⟨_, l', hrun, hinv', ?_⟩
  cases hp : l'.tables.pending with
  | nil => rfl
  | cons q pending => simp [replaceStep, hp] at hstop

theorem start_inv (hstart : (fstAt fsts root).start = some start) (ofst : VectorFst L W) :
    ReplaceInv fsts root start
      ⟨⟨PrefixTable.new, [⟨0, root, start⟩], [0]⟩,
        (ofst.deleteAllStates.setProperties 0 kFstProperties).addState.setStart (some 0)⟩ := by
  have hvertex : vertexOf PrefixTable.new ⟨0, root, start⟩ = ⟨[], root, start⟩ := by
    rw [vertexOf, stackOf_zero]
  refine ⟨⟨wellLinked_new, List.nodup_singleton _, ?_⟩, ⟨Nat.zero_lt_one, hvertex⟩, ?_, rfl, rfl,
    List.nodup_singleton _, ?_, ?_, ?_⟩
  · intro tuple htuple
    obtain rfl := List.mem_singleton.mp htuple
    exact Nat.zero_lt_one
  · intro tuple htuple
    obtain rfl := List.mem_singleton.mp htuple
    exact hvertex ▸ within_start hstart
  · intro q hq
    obtain rfl := List.mem_singleton.mp hq
    exact Nat.zero_lt_one
  · intro q hq
    obtain rfl := List.mem_singleton.mp hq
    exact ⟨rfl, rfl⟩
  · intro q hlt hq
    have hlt' : q < 1 := hlt
    exact absurd (List.mem_singleton.mpr (by omega)) hq

def moveAt (fsts : List (L × VectorFst L W)) (l : ReplaceLoop L W) (q : ℕ) (e : ℕ × Arc L W) :
    Move L W := (movesOf fsts (vertexAt l.tables q)).getD e.1 (.ret 0)

section Finished

variable {root start : ℕ} {l : ReplaceLoop L W} (hinv : ReplaceInv fsts root start l)
  (hpending : l.tables.pending = [])
include hinv hpending

theorem expanded_of_finished {q : ℕ} (hq : q < l.tables.states.length) : Expanded fsts l q :=
  hinv.expanded q hq (by simp [hpending])

/- The arc at a place of a state of the result is the one of the move at that place. -/
theorem move_of_leaves {q : ℕ} (hq : q < l.tables.states.length) (he : Leaves l.ofst q e) :
    (movesOf fsts (vertexAt l.tables q))[e.1]? = some (moveAt fsts l q e) ∧
      Stands l.tables (protoOf (vertexAt l.tables q) (moveAt fsts l q e)) e.2 := by
  obtain ⟨hall, -⟩ := expanded_of_finished hinv hpending hq
  obtain ⟨p, hp, hstands⟩ := forall₂_right hall he
  rw [List.getElem?_map] at hp
  obtain ⟨m, hm, rfl⟩ := Option.map_eq_some_iff.mp hp
  have hmove : moveAt fsts l q e = m := by
    rw [moveAt, List.getD_eq_getElem?_getD, hm, Option.getD_some]
  rw [hmove]
  exact ⟨hm, hstands⟩

theorem covers_moves (hdistinct : (fsts.map Prod.fst).Nodup) :
    Covers (Leaves l.ofst) follow (Enabled fsts) next (vertexAt l.tables) (moveAt fsts l)
      fun q => q < l.tables.states.length := by
  refine covers_of_moves (fun q e hq he => ?_) (fun q hq => ?_) (fun q => nodup_movesOf hdistinct _)
    fun q m _ => mem_movesOf hdistinct
  · obtain ⟨hm, hstands⟩ := move_of_leaves hinv hpending hq he
    exact ⟨hm, hstands.2.2.2.1, hstands.2.2.2.2⟩
  · obtain ⟨hall, -⟩ := expanded_of_finished hinv hpending hq
    have hlength := hall.length_eq
    rw [List.length_map] at hlength
    exact hlength.le

end Finished

end Invariant

section Exact

variable [Semiring W] [DecidableEq W] {fsts : List (L × VectorFst L W)}

/- What a path of the expansion is to the derivation it spells out. -/
def Spells (result : VectorFst L W) (p : List (ℕ × Arc L W)) (d : Derivation L W) : Prop :=
  istring p = d.istring ∧ ostring p = d.ostring ∧ pathWeight result p = d.weight

theorem finished_bijOn (hdistinct : (fsts.map Prod.fst).Nodup) (hinv : ReplaceInv fsts root start l)
    (hpending : l.tables.pending = []) :
    ∃ F, Set.BijOn F (acceptingPaths l.ofst) {d | Derives fsts root start d} ∧
      ∀ p ∈ acceptingPaths l.ofst, Spells l.ofst p (F p) := by
  have hcovers := covers_moves hinv hpending hdistinct
  obtain ⟨hzero, hvertex⟩ := hinv.first
  have hfinalWeight : ∀ q < l.tables.states.length, l.ofst.finalWeight q =
      if (vertexAt l.tables q).stack = [] then
        (fstAt fsts (vertexAt l.tables q).fstId).finalWeight (vertexAt l.tables q).fstState
      else 0 := fun q hq => (expanded_of_finished hinv hpending hq).2
  have hfinal : ∀ q, q < l.tables.states.length →
      (l.ofst.finalWeight q ≠ 0 ↔ Finishes fsts (vertexAt l.tables q)) := by
    intro q hq
    rw [hfinalWeight q hq, Finishes]
    by_cases hstack : (vertexAt l.tables q).stack = [] <;> simp [hstack]
  have hbij := hcovers.bijOn_project hfinal hzero
  rw [hvertex] at hbij
  have hback := (@moves_bijOn _ _ _ _ fsts root start).invOn_invFunOn
  have hderive := (@moves_bijOn _ _ _ _ fsts root start).symm hback.symm
  have hpaths : _ = acceptedFrom _ _ _ _ := acceptingPaths_of_some hinv.start
  refine ⟨_, hpaths ▸ hderive.comp hbij, ?_⟩
  intro p hp
  rw [hpaths] at hp
  have hmoves := hbij.mapsTo hp
  generalize hd : (Function.invFunOn Derivation.moves {d | Derives fsts root start d} ∘
    Covers.project follow (moveAt fsts l) 0) p = d
  have hdmem : Derives fsts root start d := hd ▸ hderive.mapsTo hmoves
  have hdmoves : d.moves = Covers.project follow (moveAt fsts l) 0 p := hd ▸ hback.2 hmoves
  have hread : ∀ q e, q < l.tables.states.length → Leaves l.ofst q e →
      moveILabel (moveAt fsts l q e) = e.2.ilabel ∧ moveOLabel (moveAt fsts l q e) = e.2.olabel ∧
        moveWeight (moveAt fsts l q e) = e.2.weight := by
    intro q e hq he
    obtain ⟨-, hilabel, holabel, hweight, -⟩ := move_of_leaves hinv hpending hq he
    exact ⟨hilabel.symm, holabel.symm, hweight.symm⟩
  have hilabels := hcovers.map_project (fun q e hq he => (hread q e hq he).1) hzero hp
  have holabels := hcovers.map_project (fun q e hq he => (hread q e hq he).2.1) hzero hp
  have hweights := hcovers.map_project (fun q e hq he => (hread q e hq he).2.2) hzero hp
  have hend := hcovers.walkEnd_project hzero hp
  have hendlt : walkEnd follow 0 p < l.tables.states.length := hcovers.known_walkEnd hzero hp
  obtain ⟨t, hwalk, hfinalOf, -⟩ := isWalk_moves hdmem []
  rw [hvertex, ← hdmoves, walkEnd_eq hwalk] at hend
  refine ⟨?_, ?_, ?_⟩
  · rw [← filter_moveILabel, hdmoves, hilabels]
    rfl
  · rw [← filter_moveOLabel, hdmoves, holabels]
    rfl
  · rw [pathWeight, weightFrom, hinv.start, Option.getD_some, hfinalWeight _ hendlt, ← hend,
      if_pos rfl, ← hfinalOf, ← hweights, ← hdmoves, prod_moveWeight]

/- One FST has an arc that names another. -/
def DependsOn (fsts : List (L × VectorFst L W)) (i j : ℕ) : Prop :=
  ∃ s e, Leaves (fstAt fsts i) s e ∧ Names fsts e.2.olabel j

def CallCycleFrom (fsts : List (L × VectorFst L W)) (root : L) : Prop :=
  ∃ i j, (fsts[i]?).map Prod.fst = some root ∧ ReflTransGen (DependsOn fsts) i j ∧
    TransGen (DependsOn fsts) j j

theorem calls_iff (hdistinct : (fsts.map Prod.fst).Nodup) {i j : ℕ} :
    Calls fsts i j ↔ DependsOn fsts i j := by
  unfold Calls callsFrom DependsOn
  rw [List.mem_filterMap]
  constructor
  · rintro ⟨arc, harc, hcalled⟩
    obtain ⟨vs, hvs, harc⟩ := List.mem_flatMap.mp harc
    obtain ⟨s, hs⟩ := List.mem_iff_getElem?.mp hvs
    obtain ⟨k, hk⟩ := List.mem_iff_getElem?.mp harc
    refine ⟨s, (k, arc), ?_, (calledFst_eq_some hdistinct).mp hcalled⟩
    rw [Leaves, VectorFst.arcs_of_getElem? hs]
    exact hk
  · rintro ⟨s, e, he, hnames⟩
    exact ⟨e.2, exists_of_leaves he, (calledFst_eq_some hdistinct).mpr hnames⟩

theorem callCycle_iff (hdistinct : (fsts.map Prod.fst).Nodup) {i : ℕ} {root : L}
    (hroot : (fsts[i]?).map Prod.fst = some root) :
    CallCycle fsts i ↔ CallCycleFrom fsts root := by
  have hcalls : Calls fsts = DependsOn fsts := by
    funext i j
    exact propext (calls_iff hdistinct)
  unfold CallCycle CallCycleFrom
  rw [hcalls]
  constructor
  · rintro ⟨j, hreach, hcycle⟩
    exact ⟨i, j, hroot, hreach, hcycle⟩
  · rintro ⟨i', j, hroot', hreach, hcycle⟩
    rw [← List.getElem?_map] at hroot hroot'
    have hlt := (List.getElem?_eq_some_iff.mp hroot).1
    obtain rfl := (List.getElem?_inj hlt hdistinct).mp (hroot.trans hroot'.symm)
    exact ⟨j, hreach, hcycle⟩

theorem derivations_eq (hdistinct : (fsts.map Prod.fst).Nodup) {i : ℕ} {root : L}
    (hroot : (fsts[i]?).map Prod.fst = some root) :
    derivations fsts root = {d | ∃ start, (fstAt fsts i).start = some start ∧
      Derives fsts i start d} := by
  ext d
  constructor
  · rintro ⟨i', start, hroot', hstart, hd⟩
    rw [← List.getElem?_map] at hroot hroot'
    have hlt := (List.getElem?_eq_some_iff.mp hroot).1
    obtain rfl := (List.getElem?_inj hlt hdistinct).mp (hroot.trans hroot'.symm)
    exact ⟨start, hstart, hd⟩
  · rintro ⟨start, hstart, hd⟩
    exact ⟨i, start, hroot, hstart, hd⟩

/- The expansion of a network ends, with an answer unless the root is not listed or comes to a cycle
of calls, and its paths are the derivations of the network read as a grammar. -/
theorem replace_exact [ToString L] (hdistinct : (fsts.map Prod.fst).Nodup) (root : L)
    (ofst : VectorFst L W) :
    ∃ fuel r, (∀ fuel', fuel ≤ fuel' →
        replace fuel' fsts ofst (ReplaceOptions.epsilonCalls root) = some r) ∧
      ((∃ result, r = .ok result) ↔ root ∈ fsts.map Prod.fst ∧ ¬ CallCycleFrom fsts root) ∧
      ∀ result, r = .ok result →
        ∃ F, Set.BijOn F (acceptingPaths result) (derivations fsts root) ∧
          ∀ p ∈ acceptingPaths result, istring p = (F p).istring ∧ ostring p = (F p).ostring ∧
            pathWeight result p = (F p).weight := by
  obtain ⟨hsome, hnone⟩ := nonterminal_spec fsts root
  cases hfound : nonterminal fsts root with
  | none =>
    refine ⟨0, .error ("Replace: no FST for the root label " ++ toString root), ?_, ⟨?_, ?_⟩, ?_⟩
    · intro fuel' _
      simp only [replace, ReplaceOptions.epsilonCalls, hfound]
    · rintro ⟨result, hresult⟩
      cases hresult
    · rintro ⟨hmem, -⟩
      exact absurd hmem (hnone.mp hfound)
    · intro result hresult
      cases hresult
  | some i =>
    have hroot := hsome i hfound
    have hlt : i < fsts.length := by
      by_contra hge
      rw [List.getElem?_eq_none (by omega)] at hroot
      cases hroot
    have hmem : root ∈ fsts.map Prod.fst := by
      rw [← List.getElem?_map] at hroot
      exact List.mem_of_getElem? hroot
    obtain ⟨fuel, r, hwalk, hr⟩ := recursiveNonterminal_spec fsts i
    rw [callCycle_iff hdistinct hroot] at hr
    cases r with
    | some callee =>
      refine ⟨fuel, .error (recursionError fsts callee), ?_, ⟨?_, ?_⟩, ?_⟩
      · intro fuel' hle
        simp only [replace, ReplaceOptions.epsilonCalls, hfound, hwalk fuel' hle]
      · rintro ⟨result, hresult⟩
        cases hresult
      · rintro ⟨-, hcycle⟩
        cases hr.mpr hcycle
      · intro result hresult
        cases hresult
    | none =>
      have hcycle := hr.mp rfl
      have hcycle' : ¬ CallCycle fsts i := by rwa [callCycle_iff hdistinct hroot]
      rw [derivations_eq hdistinct hroot]
      cases hstart : (fstAt fsts i).start with
      | none =>
        refine ⟨fuel, .ok ((ofst.deleteAllStates.setProperties 0 kFstProperties).setProperties
          (propertiesOf fsts i (ReplaceOptions.epsilonCalls root)) kFstProperties), ?_,
          ⟨fun _ => ⟨hmem, hcycle⟩, fun _ => ⟨_, rfl⟩⟩, ?_⟩
        · intro fuel' hle
          simp only [replace, ReplaceOptions.epsilonCalls, hfound, hwalk fuel' hle, hstart]
        intro result hresult
        cases hresult
        have hnone : {d : Derivation L W | ∃ start, (none : Option ℕ) = some start ∧
            Derives fsts i start d} = ∅ := by
          ext d
          simp
        rw [hnone, acceptingPaths_of_none rfl]
        exact ⟨fun _ => .done 0, Set.bijOn_empty _, fun p hp => hp.elim⟩
      | some start =>
        obtain ⟨fuel', l, hrun, hinv, hpending⟩ :=
          replaceLoop_terminates hdistinct root hlt hcycle' (start_inv hstart ofst)
        obtain ⟨F, hbij, hspells⟩ := finished_bijOn hdistinct hinv hpending
        have hset : {d | ∃ start', some start = some start' ∧ Derives fsts i start' d} =
            {d | Derives fsts i start d} := by
          ext d
          simp
        refine ⟨max fuel fuel', .ok (l.ofst.setProperties
          (propertiesOf fsts i (ReplaceOptions.epsilonCalls root)) kFstProperties), ?_,
          ⟨fun _ => ⟨hmem, hcycle⟩, fun _ => ⟨_, rfl⟩⟩, ?_⟩
        · intro fuel'' hle
          have hwalk' := hwalk fuel'' (le_trans (le_max_left _ _) hle)
          have hrun' := Loop.runLoop_mono (le_trans (le_max_right _ _) hle) hrun
          simp only [replace, ReplaceOptions.epsilonCalls, hfound, hwalk', hstart]
          exact congrArg (Option.map _) hrun'
        · intro result hresult
          cases hresult
          rw [hset]
          exact ⟨F, hbij, hspells⟩

/- A root with one call between two of its states. -/
def callNetwork : List (ℤ × VectorFst ℤ ℕ) :=
  let root := ((VectorFst.new.addStates 3).setStart (some 0)).setFinal 2 3
  let callee := ((VectorFst.new.addStates 2).setStart (some 0)).setFinal 1 5
  [(100, (root.addArc 0 ⟨1, 1, 1, 1⟩).addArc 1 ⟨2, 101, 2, 2⟩), (101, callee.addArc 0 ⟨6, 7, 4, 1⟩)]

theorem calls_callNetwork {i j : ℕ} (h : Calls callNetwork i j) : i = 0 ∧ j = 1 := by
  have hcalls : callsFrom callNetwork 0 = [1] ∧ callsFrom callNetwork 1 = [] := by decide
  match i, h with
  | 0, h =>
    rw [Calls, hcalls.1] at h
    exact ⟨rfl, List.mem_singleton.mp h⟩
  | 1, h =>
    rw [Calls, hcalls.2] at h
    cases h
  | i + 2, h =>
    rw [Calls, callsFrom, fstAt_of_le (by simp [callNetwork])] at h
    cases h

theorem not_callCycle_callNetwork : ¬ CallCycle callNetwork 0 := by
  rintro ⟨j, -, hcycle⟩
  obtain ⟨c, hcall, -⟩ := TransGen.head'_iff.mp hcycle
  obtain ⟨d, -, hcall'⟩ := TransGen.tail'_iff.mp hcycle
  have hhead := (calls_callNetwork hcall).1
  have hlast := (calls_callNetwork hcall').2
  omega

theorem replace_exact_call :
    ∃ fuel result, (∀ fuel', fuel ≤ fuel' → replace fuel' callNetwork VectorFst.new
        (ReplaceOptions.epsilonCalls 100) = some (.ok result)) ∧
      ∃ F, Set.BijOn F (acceptingPaths result) (derivations callNetwork 100) ∧
        ∀ p ∈ acceptingPaths result, istring p = (F p).istring ∧ ostring p = (F p).ostring ∧
          pathWeight result p = (F p).weight := by
  have hdistinct : (callNetwork.map Prod.fst).Nodup := by decide
  obtain ⟨fuel, r, hrun, hok, hpaths⟩ := replace_exact hdistinct 100 VectorFst.new
  have hcycle : ¬ CallCycleFrom callNetwork 100 := by
    rw [← callCycle_iff hdistinct (show (callNetwork[0]?).map Prod.fst = some 100 from rfl)]
    exact not_callCycle_callNetwork
  obtain ⟨result, rfl⟩ := hok.mpr ⟨by decide, hcycle⟩
  exact ⟨fuel, result, hrun, hpaths result rfl⟩

end Exact

end Sicada.ReplaceExact
