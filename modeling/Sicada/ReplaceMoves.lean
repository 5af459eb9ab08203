import Sicada.ReplaceTables

namespace Sicada.ReplaceMoves

open ListLemmas Paths Walk Relation ReplaceCycles ReplaceRuns ReplaceTables

variable {L W : Type} [ArcLabel L]

section Moves

variable [Zero W] {fsts : List (L × VectorFst L W)}

theorem calledFst_eq_some (hdistinct : (fsts.map Prod.fst).Nodup) {olabel : L} {callee : ℕ} :
    calledFst fsts olabel = some callee ↔ Names fsts olabel callee := by
  unfold calledFst Names
  obtain ⟨hsome, hnone⟩ := nonterminal_spec fsts olabel
  by_cases heps : olabel = epsilon
  · simp [heps]
  · rw [if_neg heps]
    constructor
    · intro hcalled
      exact ⟨heps, hsome callee hcalled⟩
    · rintro ⟨-, hlabel⟩
      rw [← List.getElem?_map] at hlabel
      cases hcalled : nonterminal fsts olabel with
      | none => exact absurd (List.mem_of_getElem? hlabel) (hnone.mp hcalled)
      | some callee' =>
        have hlabel' := hsome callee' hcalled
        rw [← List.getElem?_map] at hlabel'
        have hlt := (List.getElem?_eq_some_iff.mp hlabel').1
        rw [(List.getElem?_inj hlt hdistinct).mp (hlabel'.trans hlabel.symm)]

theorem calledFst_eq_none {olabel : L} :
    calledFst fsts olabel = none ↔ ∀ callee, ¬ Names fsts olabel callee := by
  unfold calledFst Names
  obtain ⟨-, hnone⟩ := nonterminal_spec fsts olabel
  by_cases heps : olabel = epsilon
  · simp [heps]
  · rw [if_neg heps, hnone]
    constructor
    · rintro hnot callee ⟨-, hlabel⟩
      rw [← List.getElem?_map] at hlabel
      exact hnot (List.mem_of_getElem? hlabel)
    · intro hnames hmem
      obtain ⟨callee, hlabel⟩ := List.mem_iff_getElem?.mp hmem
      rw [List.getElem?_map] at hlabel
      exact hnames callee ⟨heps, hlabel⟩

/- The look at the least and the greatest label changes nothing. -/
theorem calledBy_eq (fsts : List (L × VectorFst L W)) (olabel : L) :
    calledBy fsts olabel = calledFst fsts olabel := by
  unfold calledBy calledFst
  dsimp only
  by_cases heps : olabel = epsilon
  · simp [heps]
  · rw [if_neg heps]
    split
    · rfl
    · next hout =>
      symm
      rw [(nonterminal_spec fsts olabel).2]
      intro hmem
      apply hout
      refine ⟨heps, ?_, ?_⟩
      · obtain ⟨least, hleast⟩ := Option.isSome_iff_exists.mp
          (List.isSome_min?_of_mem hmem)
        rw [hleast]
        simpa using (List.min?_eq_some_iff.mp hleast).2 olabel hmem
      · obtain ⟨greatest, hgreatest⟩ := Option.isSome_iff_exists.mp
          (List.isSome_max?_of_mem hmem)
        rw [hgreatest]
        simpa using (List.max?_eq_some_iff.mp hgreatest).2 olabel hmem

/- The move an arc stands for; one that calls an FST with no start state stands for none. -/
def moveOfArc (fsts : List (L × VectorFst L W)) (e : ℕ × Arc L W) : Option (Move L W) :=
  match calledFst fsts e.2.olabel with
  | none => some (.arc e)
  | some callee => (fstAt fsts callee).start.map fun start => .call e callee start

theorem moveOfArc_eq_some (hdistinct : (fsts.map Prod.fst).Nodup) {e : ℕ × Arc L W}
    {m : Move L W} : moveOfArc fsts e = some m ↔
      (m = .arc e ∧ ∀ callee, ¬ Names fsts e.2.olabel callee) ∨
      ∃ callee start, m = .call e callee start ∧ Names fsts e.2.olabel callee ∧
        (fstAt fsts callee).start = some start := by
  unfold moveOfArc
  cases hcalled : calledFst fsts e.2.olabel with
  | none =>
    have hnot := calledFst_eq_none.mp hcalled
    constructor
    · intro hm
      exact Or.inl ⟨(Option.some.inj hm).symm, hnot⟩
    · rintro (⟨rfl, -⟩ | ⟨callee, start, -, hnames, -⟩)
      · rfl
      · exact absurd hnames (hnot callee)
  | some callee =>
    have hnames := (calledFst_eq_some hdistinct).mp hcalled
    constructor
    · intro hm
      obtain ⟨start, hstart, rfl⟩ := Option.map_eq_some_iff.mp hm
      exact Or.inr ⟨callee, start, rfl, hnames, hstart⟩
    · rintro (⟨-, hnot⟩ | ⟨callee', start, rfl, hnames', hstart⟩)
      · exact absurd hnames (hnot callee)
      · have hcalled' := (calledFst_eq_some hdistinct).mpr hnames'
        rw [hcalled] at hcalled'
        cases hcalled'
        dsimp only
        rw [hstart]
        rfl

variable [DecidableEq W]

def returnMoves (fsts : List (L × VectorFst L W)) (v : Vertex) : List (Move L W) :=
  if (fstAt fsts v.fstId).finalWeight v.fstState ≠ 0 ∧ v.stack ≠ [] then
    [.ret ((fstAt fsts v.fstId).finalWeight v.fstState)]
  else []

/- The moves out of a vertex, in the order their arcs come to stand in. -/
def movesOf (fsts : List (L × VectorFst L W)) (v : Vertex) : List (Move L W) :=
  returnMoves fsts v ++
    (enumArcs ((fstAt fsts v.fstId).arcs v.fstState)).filterMap (moveOfArc fsts)

theorem mem_returnMoves {v : Vertex} {m : Move L W} : m ∈ returnMoves fsts v ↔
    m = .ret ((fstAt fsts v.fstId).finalWeight v.fstState) ∧
      (fstAt fsts v.fstId).finalWeight v.fstState ≠ 0 ∧ v.stack ≠ [] := by
  unfold returnMoves
  split
  · next hreturns => simp [hreturns]
  · next hreturns =>
    constructor
    · intro hm
      cases hm
    · rintro ⟨-, hm⟩
      exact absurd hm hreturns

theorem mem_movesOf (hdistinct : (fsts.map Prod.fst).Nodup) {v : Vertex} {m : Move L W} :
    m ∈ movesOf fsts v ↔ Enabled fsts v m := by
  unfold movesOf
  rw [List.mem_append, mem_returnMoves, List.mem_filterMap]
  constructor
  · rintro (⟨rfl, hne, hstack⟩ | ⟨e, he, hm⟩)
    · exact ⟨hstack, rfl, hne⟩
    · rcases (moveOfArc_eq_some hdistinct).mp hm with ⟨rfl, hnot⟩ | ⟨callee, start, rfl, hcall⟩
      · exact ⟨mem_enumArcs.mp he, hnot⟩
      · exact ⟨mem_enumArcs.mp he, hcall⟩
  · intro hm
    cases m with
    | ret finalWeight =>
      obtain ⟨hstack, rfl, hne⟩ := hm
      exact Or.inl ⟨rfl, hne, hstack⟩
    | arc e =>
      exact Or.inr ⟨e, mem_enumArcs.mpr hm.1,
        (moveOfArc_eq_some hdistinct).mpr (Or.inl ⟨rfl, hm.2⟩)⟩
    | call e callee start =>
      exact Or.inr ⟨e, mem_enumArcs.mpr hm.1,
        (moveOfArc_eq_some hdistinct).mpr (Or.inr ⟨callee, start, rfl, hm.2⟩)⟩

theorem nodup_movesOf (hdistinct : (fsts.map Prod.fst).Nodup) (v : Vertex) :
    (movesOf fsts v).Nodup := by
  have hmove : ∀ (e : ℕ × Arc L W) m, moveOfArc fsts e = some m →
      m = .arc e ∨ ∃ callee start, m = .call e callee start := by
    intro e m hm
    rcases (moveOfArc_eq_some hdistinct).mp hm with ⟨hm, -⟩ | ⟨callee, start, hm, -⟩
    · exact Or.inl hm
    · exact Or.inr ⟨callee, start, hm⟩
  apply List.Nodup.append
  · unfold returnMoves
    split
    · exact List.nodup_singleton _
    · exact List.nodup_nil
  · apply (nodup_enumArcs _).filterMap
    intro e e' m hm hm'
    rcases hmove e m hm with rfl | ⟨callee, start, rfl⟩
    · rcases hmove e' _ hm' with heq | ⟨callee', start', heq⟩ <;> cases heq
      rfl
    · rcases hmove e' _ hm' with heq | ⟨callee', start', heq⟩ <;> cases heq
      rfl
  · intro m hm hm'
    obtain ⟨rfl, -⟩ := mem_returnMoves.mp hm
    obtain ⟨e, -, hm'⟩ := List.mem_filterMap.mp hm'
    rcases hmove e _ hm' with heq | ⟨callee, start, heq⟩ <;> cases heq

end Moves

section Expanding

variable [Zero W] [One W] [DecidableEq W] {fsts : List (L × VectorFst L W)}

/- An arc of the result before its destination has an id. -/
structure Proto (L W : Type) where
  ilabel : L
  olabel : L
  weight : W
  vertex : Vertex

def protoOf (v : Vertex) (m : Move L W) : Proto L W :=
  ⟨moveILabel m, moveOLabel m, moveWeight m, next v m⟩

def Stands (l : ReplaceTables) (p : Proto L W) (arc : Arc L W) : Prop :=
  arc.ilabel = p.ilabel ∧ arc.olabel = p.olabel ∧ arc.weight = p.weight ∧
    At l arc.nextstate p.vertex

theorem Stands.mono {l l' : ReplaceTables} (h : Grown l l') (hok : TablesOk l) {p : Proto L W}
    {arc : Arc L W} (hs : Stands l p arc) : Stands l' p arc :=
  ⟨hs.1, hs.2.1, hs.2.2.1, hs.2.2.2.mono h hok⟩

/- Arcs have been given out for protos, their destinations looked up. -/
structure GivenOut (l l' : ReplaceTables) (protos : List (Proto L W)) (arcs : List (Arc L W)) :
    Prop where
  grown : Grown l l'
  stands : List.Forall₂ (Stands l') protos arcs
  fresh : ∀ t ∈ l'.states, t ∈ l.states ∨ ∃ p ∈ protos, vertexOf l'.prefixes t = p.vertex

theorem givenOut_nil {l : ReplaceTables} (h : TablesOk l) :
    GivenOut l l ([] : List (Proto L W)) [] :=
  ⟨grown_refl h, List.Forall₂.nil, fun _ ht => Or.inl ht⟩

theorem GivenOut.append {l l' l'' : ReplaceTables} {protos protos' : List (Proto L W)}
    {arcs arcs' : List (Arc L W)} (h : GivenOut l l' protos arcs)
    (h' : GivenOut l' l'' protos' arcs') : GivenOut l l'' (protos ++ protos') (arcs ++ arcs') := by
  refine ⟨h.grown.trans h'.grown, ?_, ?_⟩
  · apply List.rel_append _ h'.stands
    exact h.stands.imp fun _ _ hs => hs.mono h'.grown h.grown.ok
  · intro t ht
    rcases h'.fresh t ht with ht' | ⟨p, hp, hvertex⟩
    · rcases h.fresh t ht' with ht'' | ⟨p, hp, hvertex⟩
      · exact Or.inl ht''
      · refine Or.inr ⟨p, List.mem_append_left _ hp, ?_⟩
        rw [vertexOf_grow h'.grown.prefixes h.grown.ok ht', hvertex]
    · exact Or.inr ⟨p, List.mem_append_right _ hp, hvertex⟩

theorem givenOut_findState {l : ReplaceTables} (h : TablesOk l) (tuple : StateTuple)
    (hlt : tuple.prefixId < l.prefixes.length) (p : Proto L W)
    (hp : p.vertex = vertexOf l.prefixes tuple) :
    GivenOut l (l.findState tuple).2 [p]
      [⟨p.ilabel, p.olabel, p.weight, (l.findState tuple).1⟩] := by
  obtain ⟨hgrown, hat, hnew⟩ := findState_spec h hlt
  refine ⟨hgrown, List.Forall₂.cons ⟨rfl, rfl, rfl, hp ▸ hat⟩ List.Forall₂.nil, ?_⟩
  intro t ht
  rcases hnew t ht with ht | rfl
  · exact Or.inl ht
  · exact Or.inr ⟨p, List.mem_singleton_self p, hp.symm⟩

variable {root : L} {tuple : StateTuple}

theorem replaceReturn_spec {l : ReplaceTables} (h : TablesOk l) (htuple : tuple ∈ l.states) :
    ∃ l' arcs, replaceReturn (ReplaceOptions.epsilonCalls root) tuple
        ((fstAt fsts tuple.fstId).finalWeight tuple.fstState) l = (l', arcs) ∧
      GivenOut l l' ((returnMoves fsts (vertexOf l.prefixes tuple)).map
        (protoOf (vertexOf l.prefixes tuple))) arcs := by
  have hlt := h.known tuple htuple
  unfold replaceReturn
  by_cases hfinal : (fstAt fsts tuple.fstId).finalWeight tuple.fstState = 0
  · have hmoves : returnMoves fsts (vertexOf l.prefixes tuple) = [] :=
      if_neg fun hboth => hboth.1 hfinal
    rw [if_neg (not_not.mpr hfinal), hmoves]
    exact ⟨l, [], rfl, givenOut_nil h⟩
  · rw [if_pos hfinal]
    by_cases hzero : tuple.prefixId = 0
    · have hstack : (vertexOf l.prefixes tuple).stack = [] := by
        rw [vertexOf, hzero, stackOf_zero]
      have hmoves : returnMoves fsts (vertexOf l.prefixes tuple) = [] :=
        if_neg fun hboth => hboth.2 hstack
      have htop : PrefixTable.top l.prefixes tuple.prefixId = none := if_pos hzero
      rw [htop, hmoves]
      exact ⟨l, [], rfl, givenOut_nil h⟩
    · obtain ⟨parent, caller, resume, hget, hparent, hstack⟩ := h.linked.exists_top hlt hzero
      have hstack' : (vertexOf l.prefixes tuple).stack = (caller, resume) ::
          stackOf l.prefixes parent := hstack
      have hne : (vertexOf l.prefixes tuple).stack ≠ [] := by
        rw [hstack']
        exact List.cons_ne_nil _ _
      have hmoves : returnMoves fsts (vertexOf l.prefixes tuple) =
          [.ret ((fstAt fsts tuple.fstId).finalWeight tuple.fstState)] := if_pos ⟨hfinal, hne⟩
      have hvertex : (protoOf (vertexOf l.prefixes tuple)
          (.ret ((fstAt fsts tuple.fstId).finalWeight tuple.fstState) : Move L W)).vertex =
            vertexOf l.prefixes ⟨parent, caller, resume⟩ := by
        simp only [protoOf, next, hstack']
        rfl
      rw [top_of_getElem? hget hzero, hmoves]
      exact ⟨_, _, rfl, givenOut_findState h _ (hparent.trans hlt) _ hvertex⟩

theorem replaceArc_spec {l : ReplaceTables} (h : TablesOk l) (htuple : tuple ∈ l.states)
    (arcs : List (Arc L W)) (e : ℕ × Arc L W) :
    ∃ l' new, replaceArc fsts (ReplaceOptions.epsilonCalls root) tuple (l, arcs) e.2 =
        (l', arcs ++ new) ∧
      GivenOut l l' ((moveOfArc fsts e).toList.map (protoOf (vertexOf l.prefixes tuple))) new := by
  have hlt := h.known tuple htuple
  unfold replaceArc moveOfArc
  rw [calledBy_eq]
  cases hcalled : calledFst fsts e.2.olabel with
  | none =>
    exact ⟨_, _, rfl, givenOut_findState h { tuple with fstState := e.2.nextstate } hlt
      (protoOf (vertexOf l.prefixes tuple) (.arc e)) rfl⟩
  | some callee =>
    cases hstart : (fstAt fsts callee).start with
    | none =>
      dsimp only
      rw [hstart]
      exact ⟨l, [], by simp, givenOut_nil h⟩
    | some start =>
      dsimp only
      rw [hstart]
      obtain ⟨hlinked, hgrow, hid, hstack⟩ :=
        push_spec h.linked hlt tuple.fstId e.2.nextstate
      have hgrown := grown_of_prefixes h hlinked hgrow
      have hvertex : (protoOf (vertexOf l.prefixes tuple) (.call e callee start)).vertex =
          vertexOf (PrefixTable.push l.prefixes tuple.prefixId tuple.fstId e.2.nextstate).2
            ⟨(PrefixTable.push l.prefixes tuple.prefixId tuple.fstId e.2.nextstate).1, callee,
              start⟩ := by
        simp only [protoOf, next, vertexOf, hstack]
      have hgiven := givenOut_findState hgrown.ok _ hid _ hvertex
      refine ⟨_, _, rfl, ⟨hgrown.trans hgiven.grown, hgiven.stands, hgiven.fresh⟩⟩

theorem foldl_replaceArc_spec {l : ReplaceTables} (h : TablesOk l) (htuple : tuple ∈ l.states)
    (done : List (Arc L W)) (edges : List (ℕ × Arc L W)) :
    ∃ l' arcs, (edges.map Prod.snd).foldl
        (replaceArc fsts (ReplaceOptions.epsilonCalls root) tuple) (l, done) = (l', done ++ arcs) ∧
      GivenOut l l' ((edges.filterMap (moveOfArc fsts)).map
        (protoOf (vertexOf l.prefixes tuple))) arcs := by
  induction edges generalizing l done with
  | nil => exact ⟨l, [], by simp, givenOut_nil h⟩
  | cons e edges ih =>
    obtain ⟨l', new, hstep, hgiven⟩ := replaceArc_spec h htuple done e
    have htuple' := hgiven.grown.states.subset htuple
    obtain ⟨l'', arcs, hrun, hgiven'⟩ := ih hgiven.grown.ok htuple' (done ++ new)
    refine ⟨l'', new ++ arcs, ?_, ?_⟩
    · rw [List.map_cons, List.foldl_cons, hstep, hrun, List.append_assoc]
    · rw [vertexOf_grow hgiven.grown.prefixes h htuple] at hgiven'
      have happend := hgiven.append hgiven'
      rw [← List.map_append] at happend
      have hfilter : (e :: edges).filterMap (moveOfArc fsts) =
          (moveOfArc fsts e).toList ++ edges.filterMap (moveOfArc fsts) := by
        cases hm : moveOfArc fsts e <;> simp [hm]
      rwa [hfilter]

/- The loop over the arcs of a state gives out an arc for each of its moves. -/
theorem expand_spec {l : ReplaceTables} (h : TablesOk l) (htuple : tuple ∈ l.states) :
    ∃ l' arcs, ((fstAt fsts tuple.fstId).arcs tuple.fstState).foldl
        (replaceArc fsts (ReplaceOptions.epsilonCalls root) tuple)
        (replaceReturn (ReplaceOptions.epsilonCalls root) tuple
          ((fstAt fsts tuple.fstId).finalWeight tuple.fstState) l) = (l', arcs) ∧
      GivenOut l l' ((movesOf fsts (vertexOf l.prefixes tuple)).map
        (protoOf (vertexOf l.prefixes tuple))) arcs := by
  obtain ⟨l', new, hreturn, hgiven⟩ := @replaceReturn_spec _ _ _ _ _ _ fsts root tuple l h htuple
  have htuple' := hgiven.grown.states.subset htuple
  obtain ⟨l'', arcs, hrun, hgiven'⟩ := @foldl_replaceArc_spec _ _ _ _ _ _ fsts root tuple l'
    hgiven.grown.ok htuple' new (enumArcs ((fstAt fsts tuple.fstId).arcs tuple.fstState))
  rw [map_snd_enumArcs] at hrun
  refine ⟨l'', new ++ arcs, ?_, ?_⟩
  · rw [hreturn, hrun]
  · rw [vertexOf_grow hgiven.grown.prefixes h htuple] at hgiven'
    have happend := hgiven.append hgiven'
    rwa [← List.map_append] at happend

end Expanding

end Sicada.ReplaceMoves
