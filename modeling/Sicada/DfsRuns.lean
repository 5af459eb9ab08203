import Sicada.DfsVisit

set_option linter.unusedSectionVars false

namespace Sicada.DfsRuns

open Relation Loop DfsVisit

variable {L W σ : Type} [ArcLabel L] [Zero W]

section Invariants

variable (fst : VectorFst L W) (filter : Arc L W → Bool)

/- Each frame was entered by an arc of the frame below it. -/
def Linked (root : ℕ) : List (DfsFrame L W) → Prop
  | [] => True
  | [frame] => frame.stateId = root ∧ frame.enteredBy = none
  | frame :: parent :: stack =>
    (∃ arc ∈ fst.arcs parent.stateId, filter arc = true ∧ arc.nextstate = frame.stateId ∧
      frame.enteredBy = some (parent.stateId, arc)) ∧ Linked root (parent :: stack)

/- The arcs the search has been along. -/
def Walked (d : DfsSearch L W σ) (s : ℕ) (arc : Arc L W) : Prop :=
  filter arc = true ∧ ((d.stateColor s = .black ∧ arc ∈ fst.arcs s) ∨
    ∃ frame ∈ d.stack, frame.stateId = s ∧
      ∃ walked, fst.arcs s = walked ++ frame.arcs ∧ arc ∈ walked)

structure Stacked (d : DfsSearch L W σ) : Prop where
  nodup : (d.stack.map (·.stateId)).Nodup
  grey : ∀ s, d.stateColor s = .grey ↔ s ∈ d.stack.map (·.stateId)
  known : ∀ s, d.stateColor s ≠ .white → s < d.nstates
  linked : Linked fst filter d.rootIdx d.stack
  suffix : ∀ frame ∈ d.stack, frame.arcs <:+ fst.arcs frame.stateId
  bound : d.nstates ≤ stateBound fst
  root : d.stack ≠ [] → d.stateColor d.rootIdx ≠ .white ∧ d.rootIdx < d.nstates
  fresh : d.stack = [] → d.rootIdx < d.nstates → d.stateColor d.rootIdx = .white

/- The roots before the current one have been swept over. -/
def Swept (accessOnly : Bool) (start : ℕ) (d : DfsSearch L W σ) : Prop :=
  accessOnly = false → d.rootIdx = start ∨ ∀ s < d.rootIdx, d.stateColor s ≠ .white

structure DfsInv (accessOnly : Bool) (start : ℕ) (d : DfsSearch L W σ) : Prop
    extends Stacked fst filter d where
  reached : d.dfs = true → ∀ s arc, Walked fst filter d s arc → d.stateColor arc.nextstate ≠ .white
  swept : Swept accessOnly start d

variable {fst filter} {visitor : DfsVisitor L W σ} {accessOnly : Bool} {start : ℕ}
  {d d' : DfsSearch L W σ}

theorem le_foldl_max (l : List ℕ) (n : ℕ) : n ≤ l.foldl max n ∧ ∀ m ∈ l, m ≤ l.foldl max n := by
  induction l generalizing n with
  | nil => simp
  | cons k l ih =>
    obtain ⟨hn, hl⟩ := ih (max n k)
    rw [List.foldl_cons]
    refine ⟨(le_max_left n k).trans hn, ?_⟩
    intro m hm
    rcases List.mem_cons.mp hm with rfl | hm
    · exact (le_max_right n m).trans hn
    · exact hl m hm

theorem numStates_le_stateBound : fst.numStates ≤ stateBound fst := (le_foldl_max _ _).1

variable {s : ℕ} {arc : Arc L W} {frame : DfsFrame L W} {stack : List (DfsFrame L W)}
  {arcs : List (Arc L W)} {stateColor : ℕ → StateColor}

theorem nextstate_lt_stateBound (harc : arc ∈ fst.arcs s) :
    arc.nextstate < stateBound fst := by
  have hmem : arc.nextstate + 1 ∈
      (fst.states.flatMap (·.arcs)).map fun arc => arc.nextstate + 1 := by
    rw [List.mem_map]
    refine ⟨arc, ?_, rfl⟩
    rw [List.mem_flatMap]
    cases hs : fst.states[s]? with
    | none => simp [VectorFst.arcs, hs] at harc
    | some state =>
      rw [VectorFst.arcs_of_getElem? hs] at harc
      exact ⟨state, List.mem_of_getElem? hs, harc⟩
  exact (le_foldl_max _ _).2 _ hmem

@[simp] theorem stateColor_pushState (s : ℕ) (e : Option (ℕ × Arc L W)) :
    (pushState fst visitor s e d).stateColor = Function.update d.stateColor s .grey := rfl

@[simp] theorem stack_pushState (s : ℕ) (e : Option (ℕ × Arc L W)) :
    (pushState fst visitor s e d).stack = ⟨s, fst.arcs s, e⟩ :: d.stack := rfl

@[simp] theorem nstates_pushState (s : ℕ) (e : Option (ℕ × Arc L W)) :
    (pushState fst visitor s e d).nstates = d.nstates := rfl

@[simp] theorem rootIdx_pushState (s : ℕ) (e : Option (ℕ × Arc L W)) :
    (pushState fst visitor s e d).rootIdx = d.rootIdx := rfl

@[simp] theorem stateColor_popState (frame : DfsFrame L W) (stack : List (DfsFrame L W)) :
    (popState visitor accessOnly start frame stack d).stateColor =
      Function.update d.stateColor frame.stateId .black := by
  unfold popState
  dsimp only
  split <;> rfl

@[simp] theorem stack_popState (frame : DfsFrame L W) (stack : List (DfsFrame L W)) :
    (popState visitor accessOnly start frame stack d).stack = stack := by
  unfold popState
  dsimp only
  split <;> rfl

@[simp] theorem nstates_popState (frame : DfsFrame L W) (stack : List (DfsFrame L W)) :
    (popState visitor accessOnly start frame stack d).nstates = d.nstates := by
  unfold popState
  dsimp only
  split <;> rfl

@[simp] theorem dfs_popState (frame : DfsFrame L W) (stack : List (DfsFrame L W)) :
    (popState visitor accessOnly start frame stack d).dfs = d.dfs := by
  unfold popState
  dsimp only
  split <;> rfl

@[simp] theorem visitor_popState (frame : DfsFrame L W) (stack : List (DfsFrame L W)) :
    (popState visitor accessOnly start frame stack d).visitor =
      visitor.finishState frame.stateId frame.enteredBy d.visitor := by
  unfold popState
  dsimp only
  split <;> rfl

theorem linked_arcs {root : ℕ} {frame' : DfsFrame L W} (h : Linked fst filter root (frame :: stack))
    (hstate : frame'.stateId = frame.stateId) (hentered : frame'.enteredBy = frame.enteredBy) :
    Linked fst filter root (frame' :: stack) := by
  cases stack with
  | nil => exact ⟨hstate.trans h.1, hentered.trans h.2⟩
  | cons parent stack =>
    obtain ⟨⟨arc, harc, hfilter, hnext, hby⟩, hrest⟩ := h
    exact ⟨⟨arc, harc, hfilter, hnext.trans hstate.symm, hentered.trans hby⟩, hrest⟩

theorem stacked_push {e : Option (ℕ × Arc L W)} (h : Stacked fst filter d)
    (hwhite : d.stateColor s = .white) (hs : s < d.nstates)
    (hlinked : Linked fst filter d.rootIdx (⟨s, fst.arcs s, e⟩ :: d.stack))
    (hroot : d.stateColor d.rootIdx ≠ .white ∧ d.rootIdx < d.nstates ∨ d.rootIdx = s) :
    Stacked fst filter (pushState fst visitor s e d) := by
  have hnew : s ∉ d.stack.map (·.stateId) := by
    intro hmem
    rw [← h.grey, hwhite] at hmem
    cases hmem
  refine ⟨?_, ?_, ?_, hlinked, ?_, h.bound, ?_, ?_⟩
  · exact List.nodup_cons.mpr ⟨hnew, h.nodup⟩
  · intro t
    rw [stateColor_pushState, stack_pushState, List.map_cons, List.mem_cons, ← h.grey t,
      Function.update_apply]
    split
    next heq => simp [heq]
    next hne => simp [hne]
  · intro t ht
    rw [stateColor_pushState, Function.update_apply] at ht
    split at ht
    next heq => exact heq ▸ hs
    next => exact h.known t ht
  · intro frame hframe
    rcases List.mem_cons.mp hframe with rfl | hframe
    · exact List.suffix_rfl
    · exact h.suffix frame hframe
  · intro _
    rw [stateColor_pushState, rootIdx_pushState, nstates_pushState, Function.update_apply]
    rcases hroot with ⟨hroot, hlt⟩ | rfl
    · split <;> simp [hroot, hlt]
    · simp [hs]
  · intro hnil
    cases hnil

theorem stacked_take (h : Stacked fst filter d) (hstack : d.stack = frame :: stack)
    (harcs : frame.arcs = arc :: arcs) : Stacked fst filter (takeArc frame arc arcs stack d) := by
  obtain ⟨walked, hwalked⟩ := h.suffix frame (hstack ▸ List.mem_cons_self)
  have harc : arc ∈ fst.arcs frame.stateId := by
    rw [← hwalked, harcs]
    simp
  refine ⟨?_, ?_, ?_, ?_, ?_, ?_, ?_, ?_⟩
  · have hnodup := h.nodup
    rw [hstack] at hnodup
    exact hnodup
  · intro t
    rw [show (takeArc frame arc arcs stack d).stateColor = d.stateColor from rfl, h.grey t, hstack]
    rfl
  · intro t ht
    exact lt_max_of_lt_left (h.known t ht)
  · have hlinked := h.linked
    rw [hstack] at hlinked
    exact linked_arcs hlinked rfl rfl
  · intro frame' hframe'
    rcases List.mem_cons.mp hframe' with rfl | hframe'
    · refine ⟨walked ++ [arc], ?_⟩
      rw [← hwalked, harcs]
      simp
    · exact h.suffix frame' (hstack ▸ List.mem_cons_of_mem _ hframe')
  · exact max_le h.bound (nextstate_lt_stateBound harc)
  · intro _
    have hne : d.stack ≠ [] := by simp [hstack]
    obtain ⟨hroot, hlt⟩ := h.root hne
    exact ⟨hroot, lt_max_of_lt_left hlt⟩
  · intro hnil
    cases hnil

theorem stacked_pop (h : Stacked fst filter d) (hstack : d.stack = frame :: stack) :
    Stacked fst filter (popState visitor accessOnly start frame stack d) := by
  have hne : d.stack ≠ [] := by simp [hstack]
  have hmem : frame.stateId ∈ d.stack.map (·.stateId) := by simp [hstack]
  have hgrey := (h.grey _).mpr hmem
  have hnodup := h.nodup
  rw [hstack, List.map_cons, List.nodup_cons] at hnodup
  have hlinked := h.linked
  rw [hstack] at hlinked
  refine ⟨?_, ?_, ?_, ?_, ?_, ?_, ?_, ?_⟩
  · rw [stack_popState]
    exact hnodup.2
  · intro t
    rw [stateColor_popState, stack_popState, Function.update_apply]
    split
    next heq =>
      subst heq
      simp [hnodup.1]
    next hneq => rw [h.grey t, hstack, List.map_cons, List.mem_cons, or_iff_right hneq]
  · intro t ht
    rw [stateColor_popState, Function.update_apply] at ht
    rw [nstates_popState]
    split at ht
    next heq =>
      subst heq
      exact h.known _ (by simp [hgrey])
    next => exact h.known t ht
  · rw [stack_popState]
    cases hrest : stack with
    | nil => trivial
    | cons parent rest =>
      rw [hrest] at hlinked
      exact hlinked.2
  · intro frame' hframe'
    rw [stack_popState] at hframe'
    exact h.suffix frame' (hstack ▸ List.mem_cons_of_mem _ hframe')
  · rw [nstates_popState]
    exact h.bound
  · rw [stack_popState]
    intro hrest
    obtain ⟨hroot, hlt⟩ := h.root hne
    have hidx : (popState visitor accessOnly start frame stack d).rootIdx = d.rootIdx := by
      simp [popState, hrest]
    rw [hidx, stateColor_popState, nstates_popState, Function.update_apply]
    split
    · exact ⟨by simp, hlt⟩
    · exact ⟨hroot, hlt⟩
  · rw [stack_popState, nstates_popState, stateColor_popState]
    rintro rfl hlt
    have hlt' := (h.root hne).2
    simp only [popState, List.isEmpty_nil, if_true, nextRoot] at hlt ⊢
    split at hlt
    next => exact absurd hlt (lt_irrefl _)
    next haccess =>
      rw [if_neg haccess]
      refine (nextWhite_spec ?_).1 hlt
      split <;> omega

variable {a : Arc L W} {c : StateColor}

theorem walked_take (h : Stacked fst filter d) (hstack : d.stack = frame :: stack)
    (harcs : frame.arcs = arc :: arcs) :
    Walked fst filter (takeArc frame arc arcs stack d) s a ↔
      Walked fst filter d s a ∨ (s = frame.stateId ∧ a = arc ∧ filter a = true) := by
  obtain ⟨before, hbefore⟩ := h.suffix frame (hstack ▸ List.mem_cons_self)
  constructor
  · rintro ⟨hfilter, ⟨hblack, ha⟩ | ⟨frame', hframe', rfl, walked, hwalked, ha⟩⟩
    · exact .inl ⟨hfilter, .inl ⟨hblack, ha⟩⟩
    · rcases List.mem_cons.mp hframe' with rfl | hframe'
      · have hsplit : before ++ [arc] = walked := by
          dsimp only at hwalked
          rw [← hbefore, harcs, ← List.singleton_append, ← List.append_assoc] at hwalked
          exact List.append_cancel_right hwalked
        rw [← hsplit, List.mem_append, List.mem_singleton] at ha
        rcases ha with ha | rfl
        · exact .inl ⟨hfilter, .inr ⟨frame, hstack ▸ List.mem_cons_self, rfl, before,
            hbefore.symm, ha⟩⟩
        · exact .inr ⟨rfl, rfl, hfilter⟩
      · exact .inl ⟨hfilter, .inr ⟨frame', hstack ▸ List.mem_cons_of_mem _ hframe', rfl, walked,
          hwalked, ha⟩⟩
  · have hsplit : fst.arcs frame.stateId = (before ++ [arc]) ++ arcs := by
      rw [← hbefore, harcs]
      simp
    rintro (⟨hfilter, ⟨hblack, ha⟩ | ⟨frame', hframe', rfl, walked, hwalked, ha⟩⟩ |
      ⟨rfl, rfl, hfilter⟩)
    · exact ⟨hfilter, .inl ⟨hblack, ha⟩⟩
    · rw [hstack] at hframe'
      rcases List.mem_cons.mp hframe' with rfl | hframe'
      · have hsame : before = walked := by
          rw [← hbefore] at hwalked
          exact List.append_cancel_right hwalked
        exact ⟨hfilter, .inr ⟨_, List.mem_cons_self, rfl, before ++ [arc], hsplit,
          List.mem_append_left _ (hsame ▸ ha)⟩⟩
      · exact ⟨hfilter, .inr ⟨frame', List.mem_cons_of_mem _ hframe', rfl, walked, hwalked, ha⟩⟩
    · exact ⟨hfilter, .inr ⟨_, List.mem_cons_self, rfl, before ++ [a], hsplit, by simp⟩⟩

theorem walked_push {e : Option (ℕ × Arc L W)} (hwhite : d.stateColor s = .white) {t : ℕ} :
    Walked fst filter (pushState fst visitor s e d) t a ↔ Walked fst filter d t a := by
  have hblack : (pushState fst visitor s e d).stateColor t = .black ↔ d.stateColor t = .black := by
    rw [stateColor_pushState, Function.update_apply]
    split
    next heq => simp [heq, hwhite]
    next => exact Iff.rfl
  unfold Walked
  rw [hblack, stack_pushState]
  constructor
  · rintro ⟨hfilter, hgone | ⟨frame, hframe, hstate, walked, hwalked, ha⟩⟩
    · exact ⟨hfilter, .inl hgone⟩
    · rcases List.mem_cons.mp hframe with rfl | hframe
      · obtain rfl : s = t := hstate
        have hself : walked ++ fst.arcs s = fst.arcs s := hwalked.symm
        obtain rfl := List.append_left_eq_self.mp hself
        cases ha
      · exact ⟨hfilter, .inr ⟨frame, hframe, hstate, walked, hwalked, ha⟩⟩
  · rintro ⟨hfilter, hgone | ⟨frame, hframe, hrest⟩⟩
    · exact ⟨hfilter, .inl hgone⟩
    · exact ⟨hfilter, .inr ⟨frame, List.mem_cons_of_mem _ hframe, hrest⟩⟩

theorem walked_pop (h : Stacked fst filter d) (hstack : d.stack = frame :: stack)
    (harcs : frame.arcs = []) {t : ℕ} :
    Walked fst filter (popState visitor accessOnly start frame stack d) t a ↔
      Walked fst filter d t a := by
  have hnodup := h.nodup
  rw [hstack, List.map_cons, List.nodup_cons] at hnodup
  unfold Walked
  rw [stateColor_popState, stack_popState, hstack]
  constructor
  · rintro ⟨hfilter, ⟨hblack, ha⟩ | ⟨frame', hframe', hrest⟩⟩
    · by_cases heq : t = frame.stateId
      · subst heq
        exact ⟨hfilter, .inr ⟨frame, List.mem_cons_self, rfl, _, by rw [harcs, List.append_nil], ha⟩⟩
      · rw [Function.update_of_ne heq] at hblack
        exact ⟨hfilter, .inl ⟨hblack, ha⟩⟩
    · exact ⟨hfilter, .inr ⟨frame', List.mem_cons_of_mem _ hframe', hrest⟩⟩
  · rintro ⟨hfilter, ⟨hblack, ha⟩ | ⟨frame', hframe', rfl, walked, hwalked, ha⟩⟩
    · by_cases heq : t = frame.stateId
      · exact ⟨hfilter, .inl ⟨by simp [heq], ha⟩⟩
      · exact ⟨hfilter, .inl ⟨by rwa [Function.update_of_ne heq], ha⟩⟩
    · rcases List.mem_cons.mp hframe' with rfl | hframe'
      · rw [harcs, List.append_nil] at hwalked
        exact ⟨hfilter, .inl ⟨by simp, hwalked ▸ ha⟩⟩
      · exact ⟨hfilter, .inr ⟨frame', hframe', rfl, walked, hwalked, ha⟩⟩

theorem coloured_update {t : ℕ} (hc : c ≠ .white) (ht : stateColor t ≠ .white) :
    Function.update stateColor s c t ≠ .white := by
  rw [Function.update_apply]
  split <;> assumption

theorem stacked_visitor (h : Stacked fst filter d) (dfs : Bool) (v : σ) :
    Stacked fst filter { d with dfs := dfs, visitor := v } :=
  ⟨h.nodup, h.grey, h.known, h.linked, h.suffix, h.bound, h.root, h.fresh⟩

theorem swept_popState (h : Stacked fst filter d) (hswept : Swept accessOnly start d)
    (hstack : d.stack = frame :: stack) :
    Swept accessOnly start (popState visitor accessOnly start frame stack d) := by
  have hne : d.stack ≠ [] := by simp [hstack]
  obtain ⟨hroot, hlt⟩ := h.root hne
  intro haccess
  rw [stateColor_popState]
  have hgrown : ∀ s, d.stateColor s ≠ .white →
      Function.update d.stateColor frame.stateId .black s ≠ .white :=
    fun s hs => coloured_update (by simp) hs
  cases hrest : stack with
  | cons parent rest =>
    rcases hswept haccess with hstart | hbefore
    · exact .inl hstart
    · exact .inr fun s hs => hgrown s (hbefore s hs)
  | nil =>
    refine .inr ?_
    intro s hs
    simp only [popState, List.isEmpty_nil, if_true, nextRoot, haccess, Bool.false_eq_true,
      if_false] at hs
    by_cases hfirst : d.rootIdx = start
    · rw [if_pos hfirst] at hs
      exact (nextWhite_spec (Nat.zero_le _)).2 s hs (Nat.zero_le _)
    · rw [if_neg hfirst] at hs
      by_cases hle : d.rootIdx + 1 ≤ s
      · exact (nextWhite_spec hlt).2 s hs hle
      · apply hgrown
        rcases Nat.lt_succ_iff_lt_or_eq.mp (Nat.lt_of_not_le hle) with hlt | rfl
        · exact (hswept haccess).resolve_left hfirst s hlt
        · exact hroot

theorem dfsInv_look (h : DfsInv fst filter accessOnly start d) (hstack : d.stack = frame :: stack)
    (harcs : frame.arcs = arc :: arcs) (hdfs : d.dfs = true) (dfs : Bool) (v : σ)
    (hnext : dfs = true → filter arc = true → d.stateColor arc.nextstate ≠ .white) :
    DfsInv fst filter accessOnly start
      { takeArc frame arc arcs stack d with dfs := dfs, visitor := v } := by
  refine ⟨stacked_visitor (stacked_take h.toStacked hstack harcs) dfs v, ?_, h.swept⟩
  intro hgo s a hwalked
  rcases (walked_take h.toStacked hstack harcs).mp hwalked with hold | ⟨-, rfl, hfilter⟩
  · exact h.reached hdfs s a hold
  · exact hnext hgo hfilter

theorem dfsInv_move (h : DfsInv fst filter accessOnly start d)
    (hmove : DfsMove fst visitor filter accessOnly start d d') :
    DfsInv fst filter accessOnly start d' := by
  cases hmove with
  | newTree hstack hdfs hroot =>
    have hwhite := h.fresh hstack hroot
    have hlinked : Linked fst filter d.rootIdx
        (⟨d.rootIdx, fst.arcs d.rootIdx, none⟩ :: d.stack) := by
      rw [hstack]
      exact ⟨rfl, rfl⟩
    refine ⟨stacked_push h.toStacked hwhite hroot hlinked (.inr rfl), ?_, ?_⟩
    · intro _ s arc hwalked
      exact coloured_update (by simp) (h.reached hdfs s arc ((walked_push hwhite).mp hwalked))
    · intro haccess
      exact (h.swept haccess).imp id fun hbefore s hs => coloured_update (by simp) (hbefore s hs)
  | @finish frame stack hstack harcs =>
    refine ⟨stacked_pop h.toStacked hstack, ?_, swept_popState h.toStacked h.swept hstack⟩
    intro hdfs s arc hwalked
    rw [dfs_popState] at hdfs
    rw [stateColor_popState]
    have hold := (walked_pop h.toStacked hstack (harcs hdfs)).mp hwalked
    exact coloured_update (by simp) (h.reached hdfs s arc hold)
  | skip hstack harcs hdfs hfilter =>
    exact dfsInv_look h hstack harcs hdfs d.dfs d.visitor fun _ hf => by simp [hfilter] at hf
  | @descend frame stack arc arcs hstack harcs hdfs hfilter hwhite htree =>
    have htake := stacked_visitor (stacked_take h.toStacked hstack harcs) d.dfs
      (visitor.treeArc frame.stateId arc d.visitor).2
    have harc : arc ∈ fst.arcs frame.stateId := by
      have hsuffix := h.suffix frame (hstack ▸ List.mem_cons_self)
      exact hsuffix.subset (harcs ▸ List.mem_cons_self)
    have hlinked : Linked fst filter d.rootIdx (⟨arc.nextstate, fst.arcs arc.nextstate,
        some (frame.stateId, arc)⟩ :: { frame with arcs := arcs } :: stack) :=
      ⟨⟨arc, harc, hfilter, rfl, rfl⟩, htake.linked⟩
    have hroot := htake.root (by simp [takeArc])
    refine ⟨stacked_push htake hwhite (lt_max_of_lt_right (Nat.lt_succ_self _)) hlinked
      (.inl hroot), ?_, ?_⟩
    · intro _ s a hwalked
      have htaken := (walked_push (by exact hwhite)).mp hwalked
      rcases (walked_take h.toStacked hstack harcs).mp htaken with
        hold | ⟨-, rfl, -⟩
      · exact coloured_update (by simp) (h.reached hdfs s a hold)
      · rw [stateColor_pushState, Function.update_self]
        simp
    · intro haccess
      exact (h.swept haccess).imp id fun hbefore s hs => coloured_update (by simp) (hbefore s hs)
  | @refuse frame stack arc arcs hstack harcs hdfs hfilter hwhite htree =>
    exact dfsInv_look h hstack harcs hdfs false _ fun hgo => by cases hgo
  | @back frame stack arc arcs hstack harcs hdfs hfilter hgrey =>
    exact dfsInv_look h hstack harcs hdfs _ _ fun _ _ => by simp [hgrey]
  | @cross frame stack arc arcs hstack harcs hdfs hfilter hblack =>
    exact dfsInv_look h hstack harcs hdfs _ _ fun _ _ => by simp [hblack]

theorem dfsInv_start (v : σ) :
    DfsInv fst filter accessOnly start (startSearch fst start v) := by
  refine ⟨⟨List.nodup_nil, ?_, ?_, trivial, ?_, numStates_le_stateBound, ?_, fun _ _ => rfl⟩, ?_,
    fun _ => .inl rfl⟩
  · intro s
    simp [startSearch]
  · intro s hs
    exact absurd rfl hs
  · intro frame hframe
    cases hframe
  · intro hne
    exact absurd rfl hne
  · rintro _ s arc ⟨-, ⟨hblack, -⟩ | ⟨frame, hframe, -⟩⟩
    · cases hblack
    · cases hframe

/- Each state is entered once and left once, each arc walked once. -/
def whiteRemaining (fst : VectorFst L W) (stateColor : ℕ → StateColor) (n : ℕ) : ℕ :=
  (((List.range n).filter fun s => stateColor s = .white).map fun s =>
    (fst.arcs s).length + 2).sum

def remaining (fst : VectorFst L W) (d : DfsSearch L W σ) : ℕ :=
  whiteRemaining fst d.stateColor (stateBound fst) +
    (d.stack.map fun frame => frame.arcs.length + 1).sum

theorem whiteRemaining_enter {n : ℕ} (hwhite : stateColor s = .white) (hc : c ≠ .white) (hs : s < n) :
    whiteRemaining fst (Function.update stateColor s c) n + ((fst.arcs s).length + 2) =
      whiteRemaining fst stateColor n := by
  induction n with
  | zero => omega
  | succ n ih =>
    unfold whiteRemaining at ih ⊢
    rw [List.range_succ, List.filter_append, List.filter_append, List.map_append, List.map_append,
      List.sum_append, List.sum_append]
    rcases Nat.lt_succ_iff_lt_or_eq.mp hs with hlt | rfl
    · have hne : n ≠ s := by omega
      have hrest := ih hlt
      simp only [List.filter_singleton, Function.update_of_ne hne]
      omega
    · have hrest : (List.range s).filter (fun t => Function.update stateColor s c t = .white) =
          (List.range s).filter fun t => stateColor t = .white := by
        apply List.filter_congr
        intro t ht
        have hne : t ≠ s := (List.mem_range.mp ht).ne
        rw [Function.update_of_ne hne]
      rw [hrest]
      simp [hwhite, hc]

theorem whiteRemaining_leave {n : ℕ} (hs : stateColor s ≠ .white) (hc : c ≠ .white) :
    whiteRemaining fst (Function.update stateColor s c) n = whiteRemaining fst stateColor n := by
  have hsame : (List.range n).filter (fun t => Function.update stateColor s c t = .white) =
      (List.range n).filter fun t => stateColor t = .white := by
    apply List.filter_congr
    intro t _
    by_cases heq : t = s
    · simp [heq, hs, hc]
    · rw [Function.update_of_ne heq]
  rw [whiteRemaining, hsame]
  rfl

theorem remaining_move (h : DfsInv fst filter accessOnly start d)
    (hmove : DfsMove fst visitor filter accessOnly start d d') :
    remaining fst d' < remaining fst d := by
  cases hmove with
  | newTree hstack hdfs hroot =>
    have hgrey : StateColor.grey ≠ .white := by simp
    have hcount := @whiteRemaining_enter L W _ _ fst _ _ _ _ (h.fresh hstack hroot) hgrey
      (hroot.trans_le h.bound)
    simp only [remaining, stateColor_pushState, stack_pushState, List.map_cons, List.sum_cons]
    omega
  | @finish frame stack hstack harcs =>
    have hmem : frame.stateId ∈ d.stack.map (·.stateId) := by simp [hstack]
    have hgrey := (h.grey _).mpr hmem
    simp only [remaining, stateColor_popState, stack_popState, hstack, List.map_cons,
      List.sum_cons]
    rw [whiteRemaining_leave (by simp [hgrey]) (by simp)]
    omega
  | skip hstack harcs hdfs hfilter =>
    simp only [remaining, takeArc, hstack, List.map_cons, List.sum_cons, harcs, List.length_cons]
    omega
  | @descend frame stack arc arcs hstack harcs hdfs hfilter hwhite htree =>
    have harc : arc ∈ fst.arcs frame.stateId := by
      have hsuffix := h.suffix frame (hstack ▸ List.mem_cons_self)
      exact hsuffix.subset (harcs ▸ List.mem_cons_self)
    have hgrey : StateColor.grey ≠ .white := by simp
    have hcount := @whiteRemaining_enter L W _ _ fst _ _ _ _ hwhite hgrey
      (nextstate_lt_stateBound harc)
    simp only [remaining, stateColor_pushState, stack_pushState, takeArc, hstack, List.map_cons,
      List.sum_cons, harcs, List.length_cons]
    omega
  | refuse hstack harcs hdfs hfilter hwhite htree =>
    simp only [remaining, takeArc, hstack, List.map_cons, List.sum_cons, harcs, List.length_cons]
    omega
  | back hstack harcs hdfs hfilter hgrey =>
    simp only [remaining, takeArc, hstack, List.map_cons, List.sum_cons, harcs, List.length_cons]
    omega
  | cross hstack harcs hdfs hfilter hblack =>
    simp only [remaining, takeArc, hstack, List.map_cons, List.sum_cons, harcs, List.length_cons]
    omega

structure Finished (d : DfsSearch L W σ) : Prop where
  stack : d.stack = []
  roots : d.dfs = true → d.nstates ≤ d.rootIdx

/- What each round keeps holds when the search is over, and the search does get there. -/
theorem dfsVisit_spec {Inv : DfsSearch L W σ → Prop} {v : σ} (hstart : fst.start = some start)
    (hfirst : Inv (startSearch fst start (visitor.initVisit v)))
    (hmove : ∀ d d', DfsInv fst filter accessOnly start d → Inv d →
      DfsMove fst visitor filter accessOnly start d d' → Inv d') :
    ∃ d, dfsVisit fst visitor filter accessOnly v = visitor.finishVisit d.visitor ∧
      DfsInv fst filter accessOnly start d ∧ Inv d ∧ Finished d := by
  have hstep : ∀ d d', DfsInv fst filter accessOnly start d ∧ Inv d →
      dfsStep fst visitor filter accessOnly start d = some d' →
        DfsInv fst filter accessOnly start d' ∧ Inv d' := by
    rintro d d' ⟨hinv, hd⟩ hnext
    exact ⟨dfsInv_move hinv (dfsStep_move hnext), hmove d d' hinv hd (dfsStep_move hnext)⟩
  have hdown : ∀ d d', DfsInv fst filter accessOnly start d ∧ Inv d →
      dfsStep fst visitor filter accessOnly start d = some d' →
        remaining fst d' < remaining fst d :=
    fun d d' hd hnext => remaining_move hd.1 (dfsStep_move hnext)
  have hfuel : remaining fst (startSearch fst start (visitor.initVisit v)) < dfsFuel fst := by
    simp [remaining, whiteRemaining, startSearch, dfsFuel]
  obtain ⟨d, hrun, ⟨hinv, hd⟩, hstop⟩ :=
    runLoop_terminates hstep hdown ⟨dfsInv_start _, hfirst⟩ hfuel
  obtain ⟨hstack, hroots⟩ := dfsStep_none hstop
  refine ⟨d, ?_, hinv, hd, hstack, hroots⟩
  unfold dfsVisit
  rw [hstart]
  dsimp only
  rw [searchFrom, hrun, Option.getD_some]

theorem nstates_le_move (hmove : DfsMove fst visitor filter accessOnly start d d') :
    d.nstates ≤ d'.nstates := by
  cases hmove with
  | newTree => exact le_rfl
  | finish => rw [nstates_popState]
  | skip => exact le_max_left _ _
  | descend => exact le_max_left _ _
  | refuse => exact le_max_left _ _
  | back => exact le_max_left _ _
  | cross => exact le_max_left _ _

/- A search that was not stopped has seen every state. -/
theorem all_black (h : DfsInv fst filter false start d) (hfinished : Finished d)
    (hdfs : d.dfs = true) (hstart : start < fst.numStates) (hnum : fst.numStates ≤ d.nstates)
    (hs : s < d.nstates) : d.stateColor s = .black := by
  have hne : d.stateColor s ≠ .white := by
    have hroots := hfinished.roots hdfs
    rcases h.swept rfl with hfirst | hbefore
    · omega
    · exact hbefore s (by omega)
  have hgrey : d.stateColor s ≠ .grey := by
    intro hgrey
    have hmem := (h.grey s).mp hgrey
    rw [hfinished.stack] at hmem
    cases hmem
  cases hcolor : d.stateColor s with
  | white => exact absurd hcolor hne
  | grey => exact absurd hcolor hgrey
  | black => rfl

end Invariants

end Sicada.DfsRuns
