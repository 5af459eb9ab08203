import Sicada.Replace

namespace Sicada.ReplaceCycles

open Relation

variable {L W : Type} [ArcLabel L] [Zero W] (fsts : List (L × VectorFst L W))

def Calls (i j : ℕ) : Prop := j ∈ callsFrom fsts i

/- A cycle of calls that can be come to from an FST. -/
def CallCycle (i : ℕ) : Prop :=
  ∃ j, ReflTransGen (Calls fsts) i j ∧ TransGen (Calls fsts) j j

/- Every call of the FSTs on the stack is still to be walked, finished, or on the stack above. -/
def Settled (mark : ℕ → Mark) : List ℕ → List (ℕ × List ℕ) → Prop
  | _, [] => True
  | above, (node, calls) :: stack =>
    (∀ c, Calls fsts node c → c ∈ calls ∨ mark c = .black ∨ c ∈ above) ∧
      Settled mark (node :: above) stack

structure WalkInv (root : ℕ) (walk : CallWalk) : Prop where
  nodup : (walk.stack.map Prod.fst).Nodup
  grey : ∀ v, walk.mark v = .grey ↔ v ∈ walk.stack.map Prod.fst
  reached : ∀ v ∈ walk.stack.map Prod.fst, ReflTransGen (Calls fsts) root v
  below : (walk.stack.map Prod.fst).Pairwise fun a b => ReflTransGen (Calls fsts) b a
  calls : ∀ frame ∈ walk.stack, ∀ c ∈ frame.2, Calls fsts frame.1 c
  settled : Settled fsts walk.mark [] walk.stack
  closed : ∀ v c, walk.mark v = .black → Calls fsts v c → walk.mark c = .black
  acyclic : ∀ v, walk.mark v = .black → ¬ TransGen (Calls fsts) v v
  root : walk.mark root ≠ .white

variable {fsts}

theorem Settled.mono {mark mark' : ℕ → Mark} {above above' : List ℕ} {stack : List (ℕ × List ℕ)}
    (h : Settled fsts mark above stack) (hmark : ∀ c, mark c = .black → mark' c = .black)
    (habove : ∀ c ∈ above, c ∈ above' ∨ mark' c = .black) : Settled fsts mark' above' stack := by
  induction stack generalizing above above' with
  | nil => trivial
  | cons frame stack ih =>
    obtain ⟨node, calls⟩ := frame
    refine ⟨?_, ih h.2 ?_⟩
    · intro c hc
      rcases h.1 c hc with hcalls | hblack | habv
      · exact Or.inl hcalls
      · exact Or.inr (Or.inl (hmark c hblack))
      · exact Or.inr ((habove c habv).symm)
    · intro c hc
      rcases List.mem_cons.mp hc with rfl | hc
      · exact Or.inl List.mem_cons_self
      · exact (habove c hc).imp (List.mem_cons_of_mem node) id

theorem black_of_reach {mark : ℕ → Mark}
    (hclosed : ∀ v c, mark v = .black → Calls fsts v c → mark c = .black) {v w : ℕ}
    (hreach : ReflTransGen (Calls fsts) v w) (hv : mark v = .black) : mark w = .black := by
  induction hreach with
  | refl => exact hv
  | tail _ hcall ih => exact hclosed _ _ ih hcall

theorem callWalkStart_inv (root : ℕ) : WalkInv fsts root (callWalkStart fsts root) := by
  have hmark : ∀ v, (callWalkStart fsts root).mark v = .grey ↔ v = root := by
    intro v
    by_cases hv : v = root
    · simp [callWalkStart, hv]
    · simp [callWalkStart, hv]
  have hblack : ∀ v, (callWalkStart fsts root).mark v ≠ .black := by
    intro v
    by_cases hv : v = root
    · simp [callWalkStart, hv]
    · simp [callWalkStart, hv]
  refine ⟨by simp [callWalkStart], ?_, ?_, by simp [callWalkStart], ?_, ?_,
    fun v _ hv => absurd hv (hblack v), fun v hv => absurd hv (hblack v), ?_⟩
  · intro v
    rw [hmark]
    simp [callWalkStart]
  · intro v hv
    obtain rfl : v = root := by simpa [callWalkStart] using hv
    exact ReflTransGen.refl
  · intro frame hframe c hc
    obtain rfl : frame = (root, callsFrom fsts root) := by simpa [callWalkStart] using hframe
    exact hc
  · exact ⟨fun c hc => Or.inl hc, trivial⟩
  · rw [(hmark root).mpr rfl]
    simp

section Step

variable {root node : ℕ} {mark : ℕ → Mark} {stack : List (ℕ × List ℕ)}

/- An FST all of whose calls are walked is finished. -/
theorem finish_inv (h : WalkInv fsts root ⟨mark, (node, []) :: stack⟩) :
    WalkInv fsts root ⟨Function.update mark node .black, stack⟩ := by
  obtain ⟨hnodup, hgrey, hreached, hbelow, hcalls, hsettled, hclosed, hacyclic, hroot⟩ := h
  dsimp only at hnodup hgrey hreached hbelow hcalls hsettled hclosed hacyclic hroot
  rw [List.map_cons] at hnodup hreached hbelow
  obtain ⟨hnot, hnodup⟩ := List.nodup_cons.mp hnodup
  have hnode : mark node = .grey := (hgrey node).mpr List.mem_cons_self
  have hcallees : ∀ c, Calls fsts node c → mark c = .black := by
    intro c hc
    rcases hsettled.1 c hc with hc | hc | hc
    · cases hc
    · exact hc
    · cases hc
  have hkeep : ∀ c, mark c = .black → Function.update mark node .black c = .black := by
    intro c hc
    by_cases hcn : c = node
    · rw [hcn, Function.update_self]
    · rw [Function.update_of_ne hcn, hc]
  refine ⟨hnodup, ?_, fun v hv => hreached v (List.mem_cons_of_mem _ hv), hbelow.of_cons,
    fun frame hframe => hcalls frame (List.mem_cons_of_mem _ hframe), ?_, ?_, ?_, ?_⟩
  · intro v
    dsimp only
    by_cases hv : v = node
    · rw [hv, Function.update_self]
      simpa using hnot
    · rw [Function.update_of_ne hv, hgrey, List.map_cons, List.mem_cons]
      exact or_iff_right hv
  · apply hsettled.2.mono hkeep
    intro c hc
    obtain rfl := List.mem_singleton.mp hc
    exact Or.inr (Function.update_self _ _ _)
  · intro v c hv hc
    by_cases hvn : v = node
    · exact hkeep c (hcallees c (hvn ▸ hc))
    · dsimp only at hv
      rw [Function.update_of_ne hvn] at hv
      exact hkeep c (hclosed v c hv hc)
  · intro v hv
    by_cases hvn : v = node
    · -- A cycle through it would come back to it from a finished FST.
      subst hvn
      intro hcycle
      obtain ⟨c, hc, hback⟩ := TransGen.head'_iff.mp hcycle
      have hblack := black_of_reach hclosed hback (hcallees c hc)
      rw [hnode] at hblack
      cases hblack
    · dsimp only at hv
      rw [Function.update_of_ne hvn] at hv
      exact hacyclic v hv
  · dsimp only
    by_cases hr : root = node
    · rw [hr, Function.update_self]
      simp
    · rw [Function.update_of_ne hr]
      exact hroot

variable {callee : ℕ} {calls : List ℕ}

theorem skip_inv (h : WalkInv fsts root ⟨mark, (node, callee :: calls) :: stack⟩)
    (hblack : mark callee = .black) : WalkInv fsts root ⟨mark, (node, calls) :: stack⟩ := by
  obtain ⟨hnodup, hgrey, hreached, hbelow, hcalls, hsettled, hclosed, hacyclic, hroot⟩ := h
  refine ⟨hnodup, hgrey, hreached, hbelow, ?_, ⟨?_, hsettled.2⟩, hclosed, hacyclic, hroot⟩
  · intro frame hframe c hc
    rcases List.mem_cons.mp hframe with rfl | hframe
    · exact hcalls _ List.mem_cons_self c (List.mem_cons_of_mem _ hc)
    · exact hcalls frame (List.mem_cons_of_mem _ hframe) c hc
  · intro c hc
    rcases hsettled.1 c hc with hmem | hmem | hmem
    · rcases List.mem_cons.mp hmem with rfl | hmem
      · exact Or.inr (Or.inl hblack)
      · exact Or.inl hmem
    · exact Or.inr (Or.inl hmem)
    · exact Or.inr (Or.inr hmem)

theorem enter_inv (h : WalkInv fsts root ⟨mark, (node, callee :: calls) :: stack⟩)
    (hwhite : mark callee = .white) : WalkInv fsts root ⟨Function.update mark callee .grey,
      (callee, callsFrom fsts callee) :: (node, calls) :: stack⟩ := by
  obtain ⟨hnodup, hgrey, hreached, hbelow, hcalls, hsettled, hclosed, hacyclic, hroot⟩ := h
  dsimp only at hnodup hgrey hreached hbelow hcalls hsettled hclosed hacyclic hroot
  have hcall : Calls fsts node callee := hcalls _ List.mem_cons_self callee List.mem_cons_self
  have hnot : callee ∉ ((node, callee :: calls) :: stack).map Prod.fst := by
    intro hmem
    have hcallee := (hgrey callee).mpr hmem
    rw [hwhite] at hcallee
    cases hcallee
  have hkeep : ∀ c, mark c = .black → Function.update mark callee .grey c = .black := by
    intro c hc
    have hne : c ≠ callee := by
      rintro rfl
      rw [hwhite] at hc
      cases hc
    rw [Function.update_of_ne hne, hc]
  have hback : ∀ c, Function.update mark callee .grey c = .black → mark c = .black := by
    intro c hc
    have hne : c ≠ callee := by
      rintro rfl
      rw [Function.update_self] at hc
      cases hc
    rwa [Function.update_of_ne hne] at hc
  refine ⟨List.nodup_cons.mpr ⟨hnot, hnodup⟩, ?_, ?_, List.pairwise_cons.mpr ⟨?_, hbelow⟩, ?_,
    ⟨fun c hc => Or.inl hc, ?_, ?_⟩, ?_, fun v hv => hacyclic v (hback v hv), ?_⟩
  · intro v
    dsimp only
    rw [List.map_cons, List.mem_cons]
    by_cases hv : v = callee
    · simp [hv]
    · rw [Function.update_of_ne hv, hgrey]
      exact (or_iff_right hv).symm
  · intro v hv
    rcases List.mem_cons.mp hv with rfl | hv
    · exact (hreached node List.mem_cons_self).tail hcall
    · exact hreached v hv
  · intro v hv
    have hv' : v ∈ node :: stack.map Prod.fst := hv
    rcases List.mem_cons.mp hv' with rfl | hv'
    · exact ReflTransGen.single hcall
    · exact (List.rel_of_pairwise_cons hbelow hv').tail hcall
  · intro frame hframe c hc
    rcases List.mem_cons.mp hframe with rfl | hframe
    · exact hc
    · rcases List.mem_cons.mp hframe with rfl | hframe
      · exact hcalls _ List.mem_cons_self c (List.mem_cons_of_mem _ hc)
      · exact hcalls frame (List.mem_cons_of_mem _ hframe) c hc
  · intro c hc
    rcases hsettled.1 c hc with hmem | hmem | hmem
    · rcases List.mem_cons.mp hmem with rfl | hmem
      · exact Or.inr (Or.inr List.mem_cons_self)
      · exact Or.inl hmem
    · exact Or.inr (Or.inl (hkeep c hmem))
    · cases hmem
  · apply hsettled.2.mono hkeep
    intro c hc
    obtain rfl := List.mem_singleton.mp hc
    exact Or.inl List.mem_cons_self
  · intro v c hv hc
    exact hkeep c (hclosed v c (hback v hv) hc)
  · dsimp only
    by_cases hr : root = callee
    · rw [hr, Function.update_self]
      simp
    · rw [Function.update_of_ne hr]
      exact hroot

end Step

theorem callWalkStep_inv {root : ℕ} {walk walk' : CallWalk} (h : WalkInv fsts root walk)
    (hstep : callWalkStep fsts walk = .ok (some walk')) : WalkInv fsts root walk' := by
  obtain ⟨mark, _ | ⟨⟨node, _ | ⟨callee, calls⟩⟩, stack⟩⟩ := walk
  · cases hstep
  · cases hstep
    exact finish_inv h
  · unfold callWalkStep at hstep
    dsimp only at hstep
    split at hstep
    · cases hstep
    · next hblack =>
      cases hstep
      exact skip_inv h hblack
    · next hwhite =>
      cases hstep
      exact enter_inv h hwhite

/- A call back to an FST on the stack closes a cycle. -/
theorem callCycle_of_error {root callee : ℕ} {walk : CallWalk} (h : WalkInv fsts root walk)
    (hstep : callWalkStep fsts walk = .error callee) : CallCycle fsts root := by
  obtain ⟨mark, _ | ⟨⟨node, _ | ⟨c, calls⟩⟩, stack⟩⟩ := walk
  · cases hstep
  · cases hstep
  · unfold callWalkStep at hstep
    dsimp only at hstep
    split at hstep
    · next hgrey =>
      cases hstep
      have hcall : Calls fsts node callee :=
        h.calls _ List.mem_cons_self callee List.mem_cons_self
      have hmem : callee ∈ node :: stack.map Prod.fst := (h.grey callee).mp hgrey
      refine ⟨callee, h.reached callee hmem, ?_⟩
      rcases List.mem_cons.mp hmem with rfl | hmem
      · exact TransGen.single hcall
      · exact TransGen.tail' (List.rel_of_pairwise_cons h.below hmem) hcall
    · cases hstep
    · cases hstep

theorem not_callCycle_of_done {root : ℕ} {walk : CallWalk} (h : WalkInv fsts root walk)
    (hstep : callWalkStep fsts walk = .ok none) : ¬ CallCycle fsts root := by
  obtain ⟨mark, _ | ⟨⟨node, _ | ⟨c, calls⟩⟩, stack⟩⟩ := walk
  · have hroot : mark root = .black := by
      cases hmark : mark root with
      | white => exact absurd hmark h.root
      | grey =>
        have hmem := (h.grey root).mp hmark
        cases hmem
      | black => rfl
    rintro ⟨j, hreach, hcycle⟩
    exact h.acyclic j (black_of_reach h.closed hreach hroot) hcycle
  · cases hstep
  · unfold callWalkStep at hstep
    dsimp only at hstep
    split at hstep <;> cases hstep

theorem nonterminal_spec (fsts : List (L × VectorFst L W)) (label : L) :
    (∀ j, nonterminal fsts label = some j → (fsts[j]?).map Prod.fst = some label) ∧
      (nonterminal fsts label = none ↔ label ∉ fsts.map Prod.fst) := by
  induction fsts using List.reverseRecOn with
  | nil => simp [nonterminal]
  | append_singleton fsts entry ih =>
    have hstep : nonterminal (fsts ++ [entry]) label =
        if entry.1 = label then some fsts.length else nonterminal fsts label := by
      unfold nonterminal
      rw [List.zipIdx_append, List.foldl_append]
      simp
    rw [hstep]
    by_cases hentry : entry.1 = label
    · rw [if_pos hentry]
      refine ⟨?_, ?_⟩
      · intro j hj
        cases hj
        simp [hentry]
      · simp [← hentry]
    · rw [if_neg hentry]
      constructor
      · intro j hj
        have hlabel := ih.1 j hj
        have hlt : j < fsts.length := by
          by_contra hge
          rw [List.getElem?_eq_none (by omega)] at hlabel
          cases hlabel
        rwa [List.getElem?_append_left hlt]
      · rw [ih.2]
        simp [Ne.symm hentry]

theorem lt_of_calls {i j : ℕ} (h : Calls fsts i j) : j < fsts.length := by
  obtain ⟨arc, -, hcalled⟩ := List.mem_filterMap.mp h
  unfold calledFst at hcalled
  split at hcalled
  · cases hcalled
  · have hlabel := (nonterminal_spec fsts arc.olabel).1 j hcalled
    by_contra hge
    rw [List.getElem?_eq_none (by omega)] at hlabel
    cases hlabel

/- What the walk has still to do: the calls on the stack, and all those of the FSTs not reached. -/
def walkMeasure (fsts : List (L × VectorFst L W)) (walk : CallWalk) : ℕ :=
  (∑ v ∈ (Finset.range fsts.length).filter (walk.mark · = .white),
    (2 + (callsFrom fsts v).length)) + (walk.stack.map fun frame => 1 + frame.2.length).sum

theorem callWalkStep_down {root : ℕ} {walk walk' : CallWalk} (h : WalkInv fsts root walk)
    (hstep : callWalkStep fsts walk = .ok (some walk')) :
    walkMeasure fsts walk' < walkMeasure fsts walk := by
  obtain ⟨mark, _ | ⟨⟨node, _ | ⟨callee, calls⟩⟩, stack⟩⟩ := walk
  · cases hstep
  · cases hstep
    have hnode : mark node = .grey := (h.grey node).mpr List.mem_cons_self
    have hwhite : (Finset.range fsts.length).filter
        (Function.update mark node .black · = .white) =
          (Finset.range fsts.length).filter (mark · = .white) := by
      apply Finset.filter_congr
      intro v _
      by_cases hv : v = node
      · simp [hv, hnode]
      · rw [Function.update_of_ne hv]
    unfold walkMeasure
    dsimp only
    rw [hwhite, List.map_cons, List.sum_cons]
    omega
  · unfold callWalkStep at hstep
    dsimp only at hstep
    split at hstep
    · cases hstep
    · cases hstep
      simp [walkMeasure]
    · next hmark =>
      cases hstep
      have hlt : callee < fsts.length :=
        lt_of_calls (h.calls _ List.mem_cons_self callee List.mem_cons_self)
      have hmem : callee ∈ (Finset.range fsts.length).filter (mark · = .white) :=
        Finset.mem_filter.mpr ⟨Finset.mem_range.mpr hlt, hmark⟩
      have hwhite : (Finset.range fsts.length).filter
          (Function.update mark callee .grey · = .white) =
            ((Finset.range fsts.length).filter (mark · = .white)).erase callee := by
        ext v
        rw [Finset.mem_erase, Finset.mem_filter, Finset.mem_filter]
        by_cases hv : v = callee
        · simp [hv]
        · rw [Function.update_of_ne hv]
          simp [hv]
      unfold walkMeasure
      dsimp only
      rw [hwhite, ← Finset.add_sum_erase _ _ hmem]
      simp only [List.map_cons, List.sum_cons, List.length_cons]
      omega

/- The walk ends, and finds an FST that calls itself if there is one to come to from the root. -/
theorem recursiveNonterminal_spec (fsts : List (L × VectorFst L W)) (root : ℕ) :
    ∃ fuel r, (∀ fuel', fuel ≤ fuel' → recursiveNonterminal fuel' fsts root = some r) ∧
      (r = none ↔ ¬ CallCycle fsts root) := by
  have hstart := @callWalkStart_inv _ _ _ _ fsts root
  obtain ⟨r, hrun, herror⟩ := Loop.tryLoop_terminates
    (fun _ _ h hstep => callWalkStep_inv h hstep) (fun _ _ h hstep => callWalkStep_down h hstep)
    hstart (Nat.lt_succ_self _)
  have hmono : ∀ fuel', walkMeasure fsts (callWalkStart fsts root) + 1 + 1 ≤ fuel' →
      Loop.tryLoop (callWalkStep fsts) fuel' (callWalkStart fsts root) = some r :=
    fun fuel' hle => Loop.runLoop_mono hle hrun
  cases r with
  | error callee =>
    obtain ⟨walk, hinv, hstep⟩ := herror callee rfl
    have hcycle := callCycle_of_error hinv hstep
    refine ⟨walkMeasure fsts (callWalkStart fsts root) + 2, some callee, fun fuel' hle => ?_, ?_⟩
    · rw [recursiveNonterminal, hmono fuel' hle]
      rfl
    · simp [hcycle]
  | ok walk =>
    obtain ⟨hinv, hstep⟩ := Loop.tryLoop_invariant
      (fun _ _ h hstep => callWalkStep_inv h hstep) hstart hrun
    have hnot := not_callCycle_of_done hinv hstep
    refine ⟨walkMeasure fsts (callWalkStart fsts root) + 2, none, fun fuel' hle => ?_, ?_⟩
    · rw [recursiveNonterminal, hmono fuel' hle]
      rfl
    · simp [hnot]

end Sicada.ReplaceCycles
