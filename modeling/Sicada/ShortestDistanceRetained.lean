import Sicada.QueueFaithful
import Sicada.ShortestDistance

set_option linter.unusedSectionVars false

namespace Sicada.ShortestDistanceRetained

open Relation Container QueueFaithful SccRuns ShortestDistance ShortestDistanceState

variable {L W Q : Type} [ArcLabel L] [Zero W] [One W] [Add W] [Mul W] [DecidableEq W]

/- A queue hands out what it was given, and looks at the distances of what it holds only. -/
structure Keeps (queue : (ℕ → W) → Discipline ℕ Q) (Holds : Q → Finset ℕ → Prop) : Prop where
  enqueue : ∀ dist q A s q', Holds q A → s ∉ A → (queue dist).enqueue s q = some q' →
    Holds q' (insert s A)
  update : ∀ dist q A s q', Holds q A → s ∈ A → (queue dist).update s q = some q' → Holds q' A
  dequeue : ∀ dist q A s q', Holds q A → (queue dist).dequeue q = some (some s, q') →
    s ∈ A ∧ Holds q' (A.erase s)
  clear : ∀ dist q A, Holds q A → Holds ((queue dist).clear q) ∅
  dequeue_eq : ∀ dist dist' q A, Holds q A → (∀ s ∈ A, dist s = dist' s) →
    (queue dist).dequeue q = (queue dist').dequeue q
  enqueue_eq : ∀ dist dist' q A s, Holds q A → (∀ t ∈ insert s A, dist t = dist' t) →
    (queue dist).enqueue s q = (queue dist').enqueue s q
  update_eq : ∀ dist dist' q A s, Holds q A → (∀ t ∈ A, dist t = dist' t) →
    (queue dist).update s q = (queue dist').update s q
  clear_eq : ∀ dist dist' q, (queue dist).clear q = (queue dist').clear q

theorem keeps_of_faithful {d : Discipline ℕ Q} {Holds : Q → Finset ℕ → Prop}
    (h : Faithful d (fun _ => True) Holds) : Keeps (fun _ : ℕ → W => d) Holds := by
  refine ⟨fun _ q A s q' hq hs heq => ?_, fun _ q A s q' hq hs heq => ?_,
    fun _ q A s q' hq heq => ?_, fun _ q A hq => h.clear q A hq, fun _ _ _ _ _ _ => rfl,
    fun _ _ _ _ _ _ _ => rfl, fun _ _ _ _ _ _ _ => rfl, fun _ _ _ => rfl⟩
  · obtain ⟨q'', heq', hholds⟩ := h.enqueue q A s hq trivial hs
    obtain rfl := Option.some.inj (heq.symm.trans heq')
    exact hholds
  · obtain ⟨q'', heq', hholds⟩ := h.update q A s hq hs
    obtain rfl := Option.some.inj (heq.symm.trans heq')
    exact hholds
  · rcases A.eq_empty_or_nonempty with rfl | hne
    · obtain ⟨q'', heq', -⟩ := h.empty q hq
      cases (Prod.mk.inj (Option.some.inj (heq.symm.trans heq'))).1
    · obtain ⟨s', q'', heq', hs', hholds⟩ := h.dequeue q A hq hne
      obtain ⟨hs, rfl⟩ := Prod.mk.inj (Option.some.inj (heq.symm.trans heq'))
      obtain rfl := Option.some.inj hs
      exact ⟨hs', hholds⟩

def entry (st : ShortestDistanceState W) (s : ℕ) : W × W × W × Bool :=
  (st.distance s, st.adder s, st.residual s, st.enqueued s)

/- What a run has touched is as in a run with buffers of its own, and what it has not touched is
new there. -/
structure Sim (Holds : Q → Finset ℕ → Prop) (reached : ℕ → Prop)
    (st fresh : ShortestDistanceState W) (queue : Q) (A : Finset ℕ) : Prop where
  retain : st.retain = true
  thrown : fresh.retain = false
  entries : ∀ s, reached s →
    entry fresh s = if st.sources s = st.run then entry st s else (0, 0, 0, false)
  holds : Holds queue A
  marked : ∀ s ∈ A, reached s ∧ st.sources s = st.run
  enqueued : ∀ s, reached s → st.sources s = st.run → (st.enqueued s = true ↔ s ∈ A)

variable {st' : ShortestDistanceState W} {queue' : Q}

section Steps

variable {kind : WeightKind W} {opts : ShortestDistanceOptions L W Q}
  {Holds : Q → Finset ℕ → Prop} {reached : ℕ → Prop} {st fresh : ShortestDistanceState W}
  {queue : Q} {A : Finset ℕ} {s : ℕ}

theorem claim_thrown (h : fresh.retain = false) (s : ℕ) : fresh.claim s = fresh := by
  unfold claim
  rw [h]
  rfl

theorem run_claim (st : ShortestDistanceState W) (s : ℕ) : (st.claim s).run = st.run := by
  unfold claim
  split <;> rfl

theorem retain_claim (st : ShortestDistanceState W) (s : ℕ) :
    (st.claim s).retain = st.retain := by
  unfold claim
  split <;> rfl

theorem sources_claim (h : st.retain = true) (s : ℕ) :
    (st.claim s).sources = Function.update st.sources s st.run := by
  unfold claim
  rw [h, Bool.not_true, Bool.false_or]
  split
  · next hmarked =>
    rw [← of_decide_eq_true hmarked, Function.update_eq_self]
  · rfl

/- A claimed entry is new unless the run has touched it before. -/
theorem entry_claim (h : st.retain = true) (s t : ℕ) : entry (st.claim s) t =
    if t = s ∧ st.sources s ≠ st.run then (0, 0, 0, false) else entry st t := by
  unfold claim
  rw [h, Bool.not_true, Bool.false_or]
  by_cases hmarked : st.sources s = st.run
  · rw [if_pos (decide_eq_true hmarked), if_neg (fun hboth => hboth.2 hmarked)]
  · rw [if_neg (by simpa using hmarked)]
    unfold entry
    dsimp only
    by_cases heq : t = s
    · subst heq
      rw [if_pos ⟨rfl, hmarked⟩]
      simp only [Function.update_self]
    · rw [if_neg fun hboth => heq hboth.1]
      simp only [Function.update_of_ne heq]

theorem sim_claim (h : Sim Holds reached st fresh queue A) (hs : reached s) :
    Sim Holds reached (st.claim s) fresh queue A ∧ (st.claim s).sources s = (st.claim s).run ∧
      entry fresh s = entry (st.claim s) s := by
  have hsources := sources_claim h.retain s
  have hself : (st.claim s).sources s = (st.claim s).run := by
    rw [hsources, run_claim, Function.update_self]
  have hentries : ∀ t, reached t → entry fresh t =
      if (st.claim s).sources t = (st.claim s).run then entry (st.claim s) t
        else (0, 0, 0, false) := by
    intro t ht
    rw [h.entries t ht, entry_claim h.retain, run_claim, hsources]
    by_cases heq : t = s
    · subst heq
      rw [Function.update_self, if_pos rfl]
      by_cases hmarked : st.sources t = st.run
      · rw [if_pos hmarked, if_neg fun hboth => hboth.2 hmarked]
      · rw [if_neg hmarked, if_pos ⟨rfl, hmarked⟩]
    · rw [Function.update_of_ne heq, if_neg fun hboth : t = s ∧ _ => heq hboth.1]
  refine ⟨⟨(retain_claim st s).trans h.retain, h.thrown, hentries, h.holds, ?_, ?_⟩, hself, ?_⟩
  · intro t ht
    obtain ⟨hreached, hmarked⟩ := h.marked t ht
    refine ⟨hreached, ?_⟩
    rw [run_claim, hsources, Function.update_apply]
    split
    · rfl
    · exact hmarked
  · intro t ht hmarked
    have hflag := congrArg (fun e => e.2.2.2) (entry_claim h.retain s t)
    dsimp only [entry] at hflag
    by_cases hnew : t = s ∧ st.sources s ≠ st.run
    · rw [if_pos hnew] at hflag
      rw [hflag]
      refine iff_of_false Bool.false_ne_true fun hmem => hnew.2 ?_
      rw [← hnew.1]
      exact (h.marked t hmem).2
    · rw [if_neg hnew] at hflag
      rw [hflag]
      apply h.enqueued t ht
      by_cases heq : t = s
      · subst heq
        by_contra hne
        exact hnew ⟨rfl, hne⟩
      · rwa [run_claim, hsources, Function.update_of_ne heq] at hmarked
  · rw [hentries s hs, if_pos hself]

/- An entry the run has touched is changed in the same way on both sides. -/
theorem sim_change {fresh' : ShortestDistanceState W} {A' : Finset ℕ}
    (h : Sim Holds reached st fresh queue A) (hs : reached s) (hmarked : st.sources s = st.run)
    (hsources : st'.sources = st.sources) (hrun : st'.run = st.run)
    (hretain : st'.retain = st.retain) (hthrown : fresh'.retain = fresh.retain)
    (hother : ∀ t ≠ s, entry st' t = entry st t ∧ entry fresh' t = entry fresh t)
    (hself : entry fresh' s = entry st' s) (hholds : Holds queue' A')
    (hqueue : ∀ t ≠ s, (t ∈ A' ↔ t ∈ A)) (hflag : st'.enqueued s = true ↔ s ∈ A') :
    Sim Holds reached st' fresh' queue' A' := by
  refine ⟨hretain.trans h.retain, hthrown.trans h.thrown, fun t ht => ?_, hholds, fun t ht => ?_,
    fun t ht hmark => ?_⟩
  · rw [hsources, hrun]
    by_cases heq : t = s
    · subst heq
      rw [if_pos hmarked, hself]
    · rw [(hother t heq).1, (hother t heq).2]
      exact h.entries t ht
  · rw [hsources, hrun]
    by_cases heq : t = s
    · subst heq
      exact ⟨hs, hmarked⟩
    · exact h.marked t ((hqueue t heq).mp ht)
  · by_cases heq : t = s
    · subst heq
      exact hflag
    · have hsame : st'.enqueued t = st.enqueued t :=
        congrArg (fun e : W × W × W × Bool => e.2.2.2) (hother t heq).1
      rw [hsources, hrun] at hmark
      rw [hsame, hqueue t heq]
      exact h.enqueued t ht hmark

/- Whatever the one side comes to the other comes to as well. -/
def Follow (Holds : Q → Finset ℕ → Prop) (reached : ℕ → Prop) (run : ℕ)
    (result result' : Option (Bool × ShortestDistanceState W × Q)) : Prop :=
  ∀ going st queue, result = some (going, st, queue) → st.run = run ∧
    ∃ fresh A, result' = some (going, fresh, queue) ∧ Sim Holds reached st fresh queue A

theorem follow_some (h : Sim Holds reached st fresh queue A) (going : Bool) :
    Follow Holds reached st.run (some (going, st, queue)) (some (going, fresh, queue)) := by
  intro going' st' queue' heq
  cases heq
  exact ⟨rfl, fresh, A, rfl, h⟩

theorem distance_eq (h : Sim Holds reached st fresh queue A) {t : ℕ} (ht : reached t)
    (hmarked : st.sources t = st.run) : st.distance t = fresh.distance t := by
  have hentry := h.entries t ht
  rw [if_pos hmarked] at hentry
  exact (congrArg (fun e : W × W × W × Bool => e.1) hentry).symm

theorem entry_of_ne {t : ℕ} (hdistance : st'.distance t = st.distance t)
    (hadder : st'.adder t = st.adder t) (hresidual : st'.residual t = st.residual t)
    (henqueued : st'.enqueued t = st.enqueued t) :
    entry st' t = entry st t := by
  unfold entry
  rw [hdistance, hadder, hresidual, henqueued]

def put (st : ShortestDistanceState W) (s : ℕ) (updated gained : W) : ShortestDistanceState W :=
  { st with
    adder := Function.update st.adder s updated
    residual := Function.update st.residual s gained
    distance := Function.update st.distance s updated }

def flag (st : ShortestDistanceState W) (s : ℕ) (b : Bool) : ShortestDistanceState W :=
  { st with enqueued := Function.update st.enqueued s b }

theorem sim_put (h : Sim Holds reached st fresh queue A) (hs : reached s)
    (hmarked : st.sources s = st.run) (updated gained : W) :
    Sim Holds reached (put st s updated gained) (put fresh s updated gained) queue A := by
  have hflag : fresh.enqueued s = st.enqueued s := by
    have hentry := h.entries s hs
    rw [if_pos hmarked] at hentry
    exact congrArg (fun e : W × W × W × Bool => e.2.2.2) hentry
  have hother : ∀ (st : ShortestDistanceState W), ∀ t ≠ s,
      entry (put st s updated gained) t = entry st t := fun st t hne =>
    entry_of_ne (Function.update_of_ne hne _ _) (Function.update_of_ne hne _ _)
      (Function.update_of_ne hne _ _) rfl
  refine sim_change h hs hmarked rfl rfl rfl rfl (fun t hne => ⟨hother st t hne, hother fresh t hne⟩)
    ?_ h.holds (fun t _ => Iff.rfl) (h.enqueued s hs hmarked)
  simp only [entry, put, Function.update_self, hflag]

theorem sim_flag (h : Sim Holds reached st fresh queue A) (hs : reached s)
    (hmarked : st.sources s = st.run) {b : Bool} {A' : Finset ℕ} (hholds : Holds queue' A')
    (hqueue : ∀ t ≠ s, (t ∈ A' ↔ t ∈ A)) (hflag : b = true ↔ s ∈ A') :
    Sim Holds reached (flag st s b) (flag fresh s b) queue' A' := by
  have hentry := h.entries s hs
  rw [if_pos hmarked] at hentry
  obtain ⟨hdistance, hrest⟩ := Prod.mk.inj hentry
  obtain ⟨hadder, hrest⟩ := Prod.mk.inj hrest
  obtain ⟨hresidual, -⟩ := Prod.mk.inj hrest
  refine sim_change h hs hmarked rfl rfl rfl rfl
    (fun t hne => ⟨entry_of_ne rfl rfl rfl (Function.update_of_ne hne _ _),
      entry_of_ne rfl rfl rfl (Function.update_of_ne hne _ _)⟩) ?_ hholds hqueue ?_
  · simp only [entry, flag, hdistance, hadder, hresidual, Function.update_self]
  · simp only [flag, Function.update_self]
    exact hflag

theorem relaxArc_follow (hkeeps : Keeps opts.queue Holds) (h : Sim Holds reached st fresh queue A)
    (r : W) {arc : Arc L W} (harc : opts.arcFilter arc = true → reached arc.nextstate) :
    Follow Holds reached st.run (ShortestDistance.relaxArc kind opts r arc st queue)
      (ShortestDistance.relaxArc kind opts r arc fresh queue) := by
  unfold ShortestDistance.relaxArc
  by_cases hfilter : opts.arcFilter arc = true
  · rw [if_pos hfilter, if_pos hfilter]
    dsimp only
    have hs := harc hfilter
    obtain ⟨hclaim, hmarked, hentry⟩ := sim_claim h hs
    rw [claim_thrown h.thrown, ← run_claim st arc.nextstate]
    generalize st.claim arc.nextstate = st at hclaim hmarked hentry ⊢
    generalize arc.nextstate = s at hs hclaim hmarked hentry ⊢
    obtain ⟨hdistance, hrest⟩ := Prod.mk.inj hentry
    obtain ⟨hadder, hrest⟩ := Prod.mk.inj hrest
    obtain ⟨hresidual, henqueued⟩ := Prod.mk.inj hrest
    rw [hdistance, hadder, hresidual, henqueued]
    split
    · exact follow_some hclaim true
    · have hput := sim_put hclaim hs hmarked (st.adder s + r * arc.weight)
        (st.residual s + r * arc.weight)
      have hsame : ∀ t, reached t → (put st s (st.adder s + r * arc.weight)
          (st.residual s + r * arc.weight)).sources t = st.run →
          (put st s (st.adder s + r * arc.weight) (st.residual s + r * arc.weight)).distance t =
            (put fresh s (st.adder s + r * arc.weight)
              (st.residual s + r * arc.weight)).distance t :=
        fun t ht hmark => distance_eq hput ht hmark
      split
      · exact follow_some hput false
      · split
        · next hqueued =>
          have hmem := (hclaim.enqueued s hs hmarked).mp hqueued
          have hupdate := hkeeps.update_eq _ _ queue A s hput.holds fun t ht =>
            hsame t (hput.marked t ht).1 (hput.marked t ht).2
          intro going st' queue' heq
          obtain ⟨queue'', hq, heq⟩ := Option.map_eq_some_iff.mp heq
          cases heq
          have hholds := hkeeps.update _ _ A s _ hput.holds hmem hq
          refine ⟨rfl, _, A, ?_, { hput with holds := hholds }⟩
          exact Option.map_eq_some_iff.mpr ⟨queue', hupdate ▸ hq, rfl⟩
        · next hqueued =>
          have hmem : s ∉ A := fun hmem => hqueued ((hclaim.enqueued s hs hmarked).mpr hmem)
          have henqueue := hkeeps.enqueue_eq _ _ queue A s hput.holds fun t ht => by
            rcases Finset.mem_insert.mp ht with rfl | ht
            · exact hsame t hs hmarked
            · exact hsame t (hput.marked t ht).1 (hput.marked t ht).2
          intro going st' queue' heq
          obtain ⟨queue'', hq, heq⟩ := Option.map_eq_some_iff.mp heq
          cases heq
          have hholds := hkeeps.enqueue _ _ A s _ hput.holds hmem hq
          have hsim := sim_flag hput hs hmarked hholds
            (fun t hne => by rw [Finset.mem_insert, or_iff_right hne])
            (iff_of_true rfl (Finset.mem_insert_self s A))
          refine ⟨rfl, _, insert s A, ?_, hsim⟩
          exact Option.map_eq_some_iff.mpr ⟨queue', henqueue ▸ hq, rfl⟩
  · rw [if_neg hfilter, if_neg hfilter]
    exact follow_some h true

theorem relaxArcs_follow (hkeeps : Keeps opts.queue Holds) (r : W) {arcs : List (Arc L W)}
    (harcs : ∀ arc ∈ arcs, opts.arcFilter arc = true → reached arc.nextstate)
    (h : Sim Holds reached st fresh queue A) :
    Follow Holds reached st.run (relaxArcs kind opts r arcs st queue)
      (relaxArcs kind opts r arcs fresh queue) := by
  induction arcs generalizing st fresh queue A with
  | nil => exact follow_some h true
  | cons arc arcs ih =>
    have hfollow : Follow Holds reached st.run (ShortestDistance.relaxArc kind opts r arc st queue)
        (ShortestDistance.relaxArc kind opts r arc fresh queue) :=
      relaxArc_follow hkeeps h r (harcs arc List.mem_cons_self)
    rw [relaxArcs, relaxArcs]
    cases harc : ShortestDistance.relaxArc kind opts r arc st queue with
    | none =>
      intro going st' queue' heq
      cases heq
    | some result =>
      obtain ⟨going, st', queue'⟩ := result
      obtain ⟨hrun, fresh', A', hfresh, hsim⟩ := hfollow going st' queue' harc
      rw [hfresh]
      cases going with
      | true =>
        rw [← hrun]
        exact ih (fun arc' h' => harcs arc' (List.mem_cons_of_mem _ h')) hsim
      | false =>
        rw [← hrun]
        exact follow_some hsim false

end Steps

section Runs

variable {kind : WeightKind W} {opts : ShortestDistanceOptions L W Q} {fst : VectorFst L W}
  {Holds : Q → Finset ℕ → Prop} {st fresh : ShortestDistanceState W} {queue : Q} {A : Finset ℕ}
  {source : ℕ}

theorem expand_follow (hkeeps : Keeps opts.queue Holds)
    (h : Sim Holds (Reaches fst opts.arcFilter source) st fresh queue A) {state : ℕ}
    (hstate : state ∈ A) (hholds : Holds queue' (A.erase state)) :
    Follow Holds (Reaches fst opts.arcFilter source) st.run
      (expand kind fst opts state st queue') (expand kind fst opts state fresh queue') := by
  obtain ⟨hreached, hmarked⟩ := h.marked state hstate
  have hentry := h.entries state hreached
  rw [if_pos hmarked] at hentry
  obtain ⟨hdistance, hrest⟩ := Prod.mk.inj hentry
  obtain ⟨hadder, hrest⟩ := Prod.mk.inj hrest
  obtain ⟨hresidual, -⟩ := Prod.mk.inj hrest
  unfold expand
  rw [hresidual]
  refine relaxArcs_follow hkeeps (st.residual state) (fun arc harc hfilter => ?_)
    (sim_change h hreached hmarked rfl rfl rfl rfl
      (fun t hne => ⟨?_, ?_⟩) ?_ hholds (fun t hne => ?_) ?_)
  · exact hreached.tail ⟨arc, harc, hfilter, rfl⟩
  · exact entry_of_ne rfl rfl (Function.update_of_ne hne _ _) (Function.update_of_ne hne _ _)
  · exact entry_of_ne rfl rfl (Function.update_of_ne hne _ _) (Function.update_of_ne hne _ _)
  · simp only [entry, hdistance, hadder, Function.update_self]
  · rw [Finset.mem_erase, and_iff_right hne]
  · simp only [Function.update_self]
    exact iff_of_false Bool.false_ne_true (Finset.notMem_erase state A)

theorem relaxAll_follow (hkeeps : Keeps opts.queue Holds) (fuel : ℕ)
    (h : Sim Holds (Reaches fst opts.arcFilter source) st fresh queue A) :
    ∀ going st' queue', relaxAll kind fst opts fuel st queue = some (going, st', queue') →
      st'.run = st.run ∧ ∃ fresh' A' queue'',
        relaxAll kind fst opts fuel fresh queue = some (going, fresh', queue') ∧
          Sim Holds (Reaches fst opts.arcFilter source) st' fresh' queue'' A' := by
  induction fuel generalizing st fresh queue A with
  | zero =>
    intro going st' queue' heq
    cases heq
  | succ fuel ih =>
    intro going st' queue' heq
    have hdequeue := hkeeps.dequeue_eq st.distance fresh.distance queue A h.holds fun t ht =>
      distance_eq h (h.marked t ht).1 (h.marked t ht).2
    rw [relaxAll] at heq ⊢
    rw [← hdequeue]
    cases hnext : (opts.queue st.distance).dequeue queue with
    | none =>
      rw [hnext] at heq
      cases heq
    | some next =>
      obtain ⟨state, queue₁⟩ := next
      rw [hnext] at heq
      cases state with
      | none =>
        cases heq
        exact ⟨rfl, fresh, A, queue, rfl, h⟩
      | some state =>
        obtain ⟨hstate, hholds⟩ := hkeeps.dequeue _ _ A state queue₁ h.holds hnext
        dsimp only at heq ⊢
        split at heq
        · next hfinal =>
          cases heq
          exact ⟨rfl, fresh, A, queue, if_pos hfinal, h⟩
        · next hfinal =>
          rw [if_neg hfinal]
          have hfollow : Follow Holds (Reaches fst opts.arcFilter source) st.run
              (expand kind fst opts state st queue₁) (expand kind fst opts state fresh queue₁) :=
            expand_follow hkeeps h hstate hholds
          cases hexpand : expand kind fst opts state st queue₁ with
          | none =>
            rw [hexpand] at heq
            cases heq
          | some result =>
            obtain ⟨going', st₁, queue₂⟩ := result
            obtain ⟨hrun, fresh₁, A₁, hfresh, hsim⟩ := hfollow going' st₁ queue₂ hexpand
            rw [hexpand] at heq
            rw [hfresh]
            cases going' with
            | true =>
              obtain ⟨hrun', hrest⟩ := ih hsim going st' queue' heq
              exact ⟨hrun'.trans hrun, hrest⟩
            | false =>
              cases heq
              exact ⟨hrun, fresh₁, A₁, _, rfl, hsim⟩

/- No state the run can come to, save its source, has the mark of the run already. -/
def Unmarked (fst : VectorFst L W) (opts : ShortestDistanceOptions L W Q) (source : ℕ)
    (st : ShortestDistanceState W) : Prop :=
  ∀ s, Reaches fst opts.arcFilter source s → s ≠ source → st.sources s ≠ st.run

theorem sim_start (hretain : st.retain = true) (hunmarked : Unmarked fst opts source st)
    (hholds : Holds queue {source}) : Sim Holds (Reaches fst opts.arcFilter source)
      ((st.claim source).startAt source)
      (((new : ShortestDistanceState W).clear.claim source).startAt source) queue {source} := by
  have hsources := sources_claim hretain source
  rw [claim_thrown (rfl : (new : ShortestDistanceState W).clear.retain = false)]
  have hmarks : ∀ s, Reaches fst opts.arcFilter source s →
      (((st.claim source).startAt source).sources s =
        ((st.claim source).startAt source).run ↔ s = source) := by
    intro s hs
    change (st.claim source).sources s = (st.claim source).run ↔ _
    rw [run_claim, hsources]
    by_cases heq : s = source
    · subst heq
      simp
    · rw [Function.update_of_ne heq]
      exact iff_of_false (hunmarked s hs heq) heq
  refine ⟨(retain_claim st source).trans hretain, rfl, fun s hs => ?_, hholds, fun s hs => ?_,
    fun s hs hmark => ?_⟩
  · by_cases heq : s = source
    · rw [if_pos ((hmarks s hs).mpr heq), heq]
      simp only [entry, startAt, Function.update_self]
    · rw [if_neg fun hmark => heq ((hmarks s hs).mp hmark)]
      simp only [entry, startAt, Function.update_of_ne heq]
      rfl
  · obtain rfl := Finset.mem_singleton.mp hs
    exact ⟨ReflTransGen.refl, (hmarks s ReflTransGen.refl).mpr rfl⟩
  · obtain rfl := (hmarks s hs).mp hmark
    simp only [startAt, Function.update_self]
    exact iff_of_true trivial (Finset.mem_singleton_self s)

theorem runFrom_follow (hkeeps : Keeps opts.queue Holds) (hretain : st.retain = true)
    (hunmarked : Unmarked fst opts source st) (hholds : Holds queue A) {fuel : ℕ} {going : Bool}
    (hrun : runFrom kind fst opts fuel source st queue = some (going, st', queue')) :
    st'.run = st.run ∧ ∃ fresh' A' queue'',
      runFrom kind fst opts fuel source new queue = some (going, fresh', queue') ∧
        Sim Holds (Reaches fst opts.arcFilter source) st' fresh' queue'' A' := by
  unfold runFrom at hrun ⊢
  rw [if_pos hretain] at hrun
  rw [if_neg (show ¬ (new : ShortestDistanceState W).retain = true from Bool.false_ne_true)]
  dsimp only at hrun ⊢
  have hclear := hkeeps.clear ((st.claim source).startAt source).distance queue A hholds
  have hsame : ∀ t ∈ insert source (∅ : Finset ℕ),
      ((st.claim source).startAt source).distance t =
        ((new.clear.claim source).startAt source).distance t := by
    intro t ht
    rw [Finset.insert_empty, Finset.mem_singleton] at ht
    subst ht
    simp only [startAt, Function.update_self]
  have henqueue := hkeeps.enqueue_eq _ _ _ ∅ source hclear hsame
  have hclear_eq := hkeeps.clear_eq ((st.claim source).startAt source).distance
    ((new.clear.claim source).startAt source).distance queue
  rw [← hclear_eq, ← henqueue]
  cases hqueue : (opts.queue ((st.claim source).startAt source).distance).enqueue source
      ((opts.queue ((st.claim source).startAt source).distance).clear queue) with
  | none =>
    rw [hqueue] at hrun
    cases hrun
  | some queue₁ =>
    rw [hqueue] at hrun
    have hheld := hkeeps.enqueue _ _ ∅ source queue₁ hclear (Finset.notMem_empty source) hqueue
    have hsim := sim_start hretain hunmarked hheld
    obtain ⟨hruns, hrest⟩ := relaxAll_follow hkeeps fuel hsim going st' queue' hrun
    exact ⟨hruns.trans (run_claim st source), hrest⟩

end Runs

section Marks

variable {kind : WeightKind W} {opts : ShortestDistanceOptions L W Q} {fst : VectorFst L W}
  {st st' st'' : ShortestDistanceState W} {queue queue' : Q} {fuel source : ℕ} {going : Bool}

/- A run marks entries with its own number only. -/
structure Marks (st st' : ShortestDistanceState W) : Prop where
  retain : st'.retain = st.retain
  run : st'.run = st.run
  sources : ∀ s, st'.sources s = st.sources s ∨ st'.sources s = st.run

theorem marks_refl (st : ShortestDistanceState W) : Marks st st := ⟨rfl, rfl, fun _ => .inl rfl⟩

theorem marks_trans (h : Marks st st') (h' : Marks st' st'') : Marks st st'' := by
  refine ⟨h'.retain.trans h.retain, h'.run.trans h.run, fun s => ?_⟩
  rcases h'.sources s with heq | heq
  · rw [heq]
    exact h.sources s
  · exact .inr (heq.trans h.run)

theorem marks_claim (st : ShortestDistanceState W) (s : ℕ) : Marks st (st.claim s) := by
  refine ⟨retain_claim st s, run_claim st s, fun t => ?_⟩
  unfold claim
  split
  · exact .inl rfl
  · by_cases heq : t = s
    · subst heq
      exact .inr (Function.update_self ..)
    · exact .inl (Function.update_of_ne heq _ _)

theorem marks_relaxArc {r : W} {arc : Arc L W}
    (h : ShortestDistance.relaxArc kind opts r arc st queue = some (going, st', queue')) :
    Marks st st' := by
  unfold ShortestDistance.relaxArc at h
  split at h
  · dsimp only at h
    have hclaim := marks_claim st arc.nextstate
    split at h
    · cases h
      exact hclaim
    · split at h
      · cases h
        exact ⟨hclaim.retain, hclaim.run, hclaim.sources⟩
      · split at h
        · obtain ⟨_, -, heq⟩ := Option.map_eq_some_iff.mp h
          cases heq
          exact ⟨hclaim.retain, hclaim.run, hclaim.sources⟩
        · obtain ⟨_, -, heq⟩ := Option.map_eq_some_iff.mp h
          cases heq
          exact ⟨hclaim.retain, hclaim.run, hclaim.sources⟩
  · cases h
    exact marks_refl _

theorem marks_relaxArcs {r : W} {arcs : List (Arc L W)}
    (h : relaxArcs kind opts r arcs st queue = some (going, st', queue')) : Marks st st' := by
  induction arcs generalizing st queue with
  | nil =>
    cases h
    exact marks_refl _
  | cons arc arcs ih =>
    rw [relaxArcs] at h
    split at h
    · next harc => exact marks_trans (marks_relaxArc harc) (ih h)
    · exact marks_relaxArc h

theorem marks_relaxAll (h : relaxAll kind fst opts fuel st queue = some (going, st', queue')) :
    Marks st st' := by
  induction fuel generalizing st queue with
  | zero => cases h
  | succ fuel ih =>
    rw [relaxAll] at h
    split at h
    · cases h
    · cases h
      exact marks_refl _
    · split at h
      · cases h
        exact marks_refl _
      · have hexpand : ∀ going st₁ queue₁ queue₂ state,
            expand kind fst opts state st queue₂ = some (going, st₁, queue₁) → Marks st st₁ := by
          intro going st₁ queue₁ queue₂ state heq
          unfold expand at heq
          obtain ⟨hretain, hrun, hsources⟩ := marks_relaxArcs heq
          exact ⟨hretain, hrun, hsources⟩
        split at h
        · next heq => exact marks_trans (hexpand _ _ _ _ _ heq) (ih h)
        · exact hexpand _ _ _ _ _ h

theorem marks_runFrom (hretain : st.retain = true)
    (h : runFrom kind fst opts fuel source st queue = some (going, st', queue')) :
    Marks st st' := by
  unfold runFrom at h
  rw [if_pos hretain] at h
  dsimp only at h
  split at h
  · cases h
  · obtain ⟨hkept, hrun, hsources⟩ := marks_relaxAll h
    exact marks_trans (marks_claim st source) ⟨hkept, hrun, hsources⟩

theorem noRun_pos : 0 < noRun := by decide

/- The marks are those of the runs so far. -/
structure Counted (st : ShortestDistanceState W) : Prop where
  retain : st.retain = true
  run : st.run < noRun
  sources : ∀ s, st.sources s = noRun ∨ st.sources s ≤ st.run

theorem counted_marks (h : Counted st) (hmarks : Marks st st') : Counted st' := by
  refine ⟨hmarks.retain.trans h.retain, hmarks.run ▸ h.run, fun s => ?_⟩
  rw [hmarks.run]
  rcases hmarks.sources s with heq | heq
  · rw [heq]
    exact h.sources s
  · exact .inr heq.le

theorem counted_advance (h : Counted st) : Counted st.advance ∧ ∀ s, st.advance.sources s ≠
    st.advance.run := by
  have hnext : (st.run + 1) % 2 ^ 64 = st.run + 1 := by
    have hlt := h.run
    unfold noRun at hlt
    omega
  unfold advance
  rw [hnext]
  split
  · refine ⟨⟨h.retain, noRun_pos, fun s => .inl rfl⟩, fun s => ?_⟩
    exact noRun_pos.ne'
  · next hne =>
    have hlt := h.run
    refine ⟨⟨h.retain, ?_, fun s => ?_⟩, fun s => ?_⟩
    · change st.run + 1 < noRun
      omega
    · change st.sources s = noRun ∨ st.sources s ≤ st.run + 1
      rcases h.sources s with heq | hle
      · exact .inl heq
      · exact .inr (by omega)
    · change st.sources s ≠ st.run + 1
      rcases h.sources s with heq | hle
      · omega
      · omega

theorem counted_retained : Counted (retained : ShortestDistanceState W) :=
  ⟨rfl, noRun_pos, fun _ => .inl rfl⟩

/- All that calling one set of buffers over and over can come to. -/
inductive Reachable (L Q : Type) [ArcLabel L] (kind : WeightKind W) :
    ShortestDistanceState W → Prop
  | retained : Reachable L Q kind retained
  | run {st st' : ShortestDistanceState W} {fst : VectorFst L W}
      {opts : ShortestDistanceOptions L W Q} {fuel : ℕ} {queue queue' : Q}
      {result : Except OpenFstError Unit} (h : Reachable L Q kind st)
      (hrun : run kind fst opts fuel st queue = some (result, st', queue')) :
      Reachable L Q kind st'

theorem counted_run (h : Counted st) {result : Except OpenFstError Unit}
    (hrun : run kind fst opts fuel st queue = some (result, st', queue')) :
    Counted st' ∧ (result ≠ leftSemiring → (∀ s, st.sources s ≠ st.run) →
      ∀ s, st'.sources s ≠ st'.run) := by
  unfold ShortestDistance.run at hrun
  split at hrun
  · split at hrun
    · cases hrun
      exact ⟨h, fun _ hclean => hclean⟩
    · cases hrun
      rw [if_pos h.retain]
      exact ⟨h, fun _ hclean => hclean⟩
  · split at hrun
    · cases hrun
      exact ⟨h, fun _ hclean => hclean⟩
    · split at hrun
      · cases hrun
        exact ⟨h, fun _ hclean => hclean⟩
      · split at hrun
        · cases hrun
        · next heq =>
          cases hrun
          exact ⟨counted_marks h (marks_runFrom h.retain heq), fun hne => absurd rfl hne⟩
        · next heq =>
          cases hrun
          obtain ⟨hcounted, hclean⟩ := counted_advance
            (counted_marks h (marks_runFrom h.retain heq))
          exact ⟨hcounted, fun _ _ => hclean⟩

theorem counted_reachable (h : Reachable L Q kind st) : Counted st := by
  induction h with
  | retained => exact counted_retained
  | run _ hrun ih => exact (counted_run ih hrun).1

end Marks

section Retained

variable {kind : WeightKind W} {opts : ShortestDistanceOptions L W Q} {fst : VectorFst L W}
  {Holds : Q → Finset ℕ → Prop} {st st' : ShortestDistanceState W} {queue queue' : Q}
  {A : Finset ℕ} {fuel : ℕ}

/- No run so far has left the semiring. -/
inductive Clean (L Q : Type) [ArcLabel L] (kind : WeightKind W) : ShortestDistanceState W → Prop
  | retained : Clean L Q kind retained
  | run {st st' : ShortestDistanceState W} {fst : VectorFst L W}
      {opts : ShortestDistanceOptions L W Q} {fuel : ℕ} {queue queue' : Q}
      {result : Except OpenFstError Unit} (h : Clean L Q kind st)
      (hrun : run kind fst opts fuel st queue = some (result, st', queue'))
      (hresult : result ≠ leftSemiring) : Clean L Q kind st'

theorem unmarked_of_clean (h : Clean L Q kind st) (fst : VectorFst L W)
    (opts : ShortestDistanceOptions L W Q) (source : ℕ) : Unmarked fst opts source st := by
  have hboth : Counted st ∧ ∀ s, st.sources s ≠ st.run := by
    induction h with
    | retained => exact ⟨counted_retained, fun s => noRun_pos.ne'⟩
    | run _ hrun hresult ih =>
      obtain ⟨hcounted, hclean⟩ := counted_run ih.1 hrun
      exact ⟨hcounted, hclean hresult ih.2⟩
  exact fun s _ _ => hboth.2 s

/- A run that returns leaves what a run with buffers of its own would, at every state it has come
to; where it has not been the other has nothing. -/
theorem retained_exact (h : Reachable L Q kind st) (hkeeps : Keeps opts.queue Holds)
    (hholds : Holds queue A)
    (hunmarked : ∀ start, fst.start = some start →
      Unmarked fst opts (opts.source.getD start) st)
    (hrun : run kind fst opts fuel st queue = some (.ok (), st', queue')) :
    ∃ fresh', run kind fst opts fuel new queue = some (.ok (), fresh', queue') ∧
      ∀ start, fst.start = some start → ∃ body : ShortestDistanceState W, st' = body.advance ∧
        ∀ s, Reaches fst opts.arcFilter (opts.source.getD start) s →
          (body.sources s = st.run → st'.distance s = fresh'.distance s) ∧
            (body.sources s ≠ st.run → fresh'.distance s = 0) := by
  have hretain := (counted_reachable h).retain
  have hadvance : ∀ st : ShortestDistanceState W, st.advance.distance = st.distance := by
    intro st
    unfold advance
    split <;> rfl
  unfold ShortestDistance.run at hrun ⊢
  cases hstart : fst.start with
  | none =>
    rw [hstart] at hrun
    dsimp only at hrun ⊢
    split at hrun
    · cases hrun
    · next herror =>
      rw [if_neg herror]
      cases hrun
      exact ⟨_, rfl, fun start heq => by cases heq⟩
  | some start =>
    rw [hstart] at hrun
    dsimp only at hrun ⊢
    split at hrun
    · cases hrun
    · next hright =>
      rw [if_neg hright]
      split at hrun
      · cases hrun
      · next hpath =>
        rw [if_neg hpath]
        cases hfrom : runFrom kind fst opts fuel (opts.source.getD start) st queue with
        | none =>
          rw [hfrom] at hrun
          cases hrun
        | some result =>
          obtain ⟨going, body, queue₁⟩ := result
          rw [hfrom] at hrun
          cases going with
          | false => cases hrun
          | true =>
            obtain ⟨hruns, fresh', A', queue'', hfresh, hsim⟩ :=
              runFrom_follow hkeeps hretain (hunmarked start hstart) hholds hfrom
            dsimp only at hrun
            split at hrun
            · cases hrun
            · next herror =>
              cases hrun
              rw [hfresh]
              dsimp only
              rw [if_neg herror]
              refine ⟨fresh'.advance, rfl, fun start' heq => ⟨body, rfl, fun s hs => ?_⟩⟩
              obtain rfl := Option.some.inj heq
              rw [hadvance, hadvance]
              have hentry := hsim.entries s hs
              constructor
              · exact fun hmark => distance_eq hsim hs (hmark.trans hruns.symm)
              · intro hmark
                rw [if_neg fun heq => hmark (heq.trans hruns)] at hentry
                exact congrArg (fun e : W × W × W × Bool => e.1) hentry

def tropicalKind : WeightKind (Weight (Tropical (WithTop ℕ))) :=
  ⟨Weight.isMember, true, true, "tropical"⟩

/- An arc out of the semiring after one that is not, and another way to where that one leads. -/
def staleFst : VectorFst ℤ (Weight (Tropical (WithTop ℕ))) :=
  ⟨[⟨0, [⟨1, 1, .member (Tropical.trop (5 : ℕ)), 1⟩, ⟨1, 1, .noWeight, 3⟩], 0, 0⟩, ⟨0, [], 0, 0⟩,
    ⟨0, [⟨1, 1, .member (Tropical.trop (7 : ℕ)), 1⟩], 0, 0⟩, ⟨0, [], 0, 0⟩], some 0, 0⟩

def fromState (source : ℕ) :
    ShortestDistanceOptions ℤ (Weight (Tropical (WithTop ℕ))) FifoQueue :=
  ⟨fun _ => FifoQueue.discipline, fun _ => true, some source, fun a b => decide (a = b), false⟩

def isOk : Except OpenFstError Unit → Bool
  | .ok _ => true
  | .error _ => false

theorem ok_of_isOk {result : Except OpenFstError Unit} (h : isOk result = true) :
    result = .ok () := by
  cases result with
  | ok _ => rfl
  | error _ => cases h

theorem fromState_keeps (source : ℕ) : Keeps (fromState source).queue fun q A => Lists q.states A :=
  keeps_of_faithful (fifo_faithful fun _ => True)

theorem run_of_map {result : Option (Except OpenFstError Unit ×
      ShortestDistanceState (Weight (Tropical (WithTop ℕ))) × FifoQueue)}
    {w : Weight (Tropical (WithTop ℕ))}
    (h : result.map (fun r => (isOk r.1, r.2.1.distance 1)) = some (true, w)) :
    ∃ st q, result = some (.ok (), st, q) ∧ st.distance 1 = w := by
  obtain ⟨⟨outcome, st, q⟩, hresult, heq⟩ := Option.map_eq_some_iff.mp h
  obtain ⟨hok, hw⟩ := Prod.mk.inj heq
  obtain rfl : outcome = .ok () := ok_of_isOk hok
  exact ⟨st, q, hresult, hw⟩

/- The second of two runs from the same state. -/
theorem retained_exact_twice : ∃ st st' fresh' q', Clean ℤ FifoQueue tropicalKind st ∧
    ShortestDistance.run tropicalKind staleFst (fromState 2) 5 st FifoQueue.new =
      some (.ok (), st', q') ∧
    ShortestDistance.run tropicalKind staleFst (fromState 2) 5 new FifoQueue.new =
      some (.ok (), fresh', q') ∧
    ∀ start, staleFst.start = some start →
      ∃ body : ShortestDistanceState (Weight (Tropical (WithTop ℕ))), st' = body.advance ∧
        ∀ s, Reaches staleFst (fromState 2).arcFilter ((fromState 2).source.getD start) s →
          (body.sources s = st.run → st'.distance s = fresh'.distance s) ∧
            (body.sources s ≠ st.run → fresh'.distance s = 0) := by
  have hfirst : (ShortestDistance.run tropicalKind staleFst (fromState 2) 5 retained
      FifoQueue.new).map (fun r => (isOk r.1, r.2.1.distance 1)) =
        some (true, .member (Tropical.trop 7)) := by decide +kernel
  obtain ⟨st, q, hrun, -⟩ := run_of_map hfirst
  have hsecond : ((ShortestDistance.run tropicalKind staleFst (fromState 2) 5 retained
      FifoQueue.new).bind fun r => ShortestDistance.run tropicalKind staleFst (fromState 2) 5 r.2.1
        FifoQueue.new).map (fun r => (isOk r.1, r.2.1.distance 1)) =
          some (true, .member (Tropical.trop 7)) := by decide +kernel
  rw [hrun, Option.bind_some] at hsecond
  obtain ⟨st', q', hrun', -⟩ := run_of_map hsecond
  have hreachable : Reachable ℤ FifoQueue tropicalKind st := .run .retained hrun
  have hclean : Clean ℤ FifoQueue tropicalKind st := .run .retained hrun (fun heq => by cases heq)
  obtain ⟨fresh', hfresh, hsame⟩ := retained_exact hreachable (fromState_keeps 2)
    (lists_nil : Lists FifoQueue.new.states ∅)
    (fun start _ => unmarked_of_clean hclean staleFst (fromState 2) _) hrun'
  exact ⟨st, st', fresh', q', hclean, hrun', hfresh, hsame⟩

/- After a run that failed the state the two ways lead to is taken for one of the next run's. -/
theorem retained_stale : ¬ ∀ st st' fresh' q', Reachable ℤ FifoQueue tropicalKind st →
    ShortestDistance.run tropicalKind staleFst (fromState 2) 5 st FifoQueue.new =
      some (.ok (), st', q') →
    ShortestDistance.run tropicalKind staleFst (fromState 2) 5 new FifoQueue.new =
      some (.ok (), fresh', q') →
    ∀ s, fresh'.distance s ≠ 0 → st'.distance s = fresh'.distance s := by
  intro h
  have hstale : ((ShortestDistance.run tropicalKind staleFst (fromState 0) 5 retained
      FifoQueue.new).bind fun r => ShortestDistance.run tropicalKind staleFst (fromState 2) 5 r.2.1
        FifoQueue.new).map (fun r => (isOk r.1, r.2.1.distance 1, r.2.2)) =
          some (true, .member (Tropical.trop 5), ⟨[]⟩) := by decide +kernel
  have hfresh : (ShortestDistance.run tropicalKind staleFst (fromState 2) 5 new
      FifoQueue.new).map (fun r => (isOk r.1, r.2.1.distance 1, r.2.2)) =
        some (true, .member (Tropical.trop 7), ⟨[]⟩) := by decide +kernel
  obtain ⟨⟨outcome', st', q'⟩, hrun', heq'⟩ := Option.map_eq_some_iff.mp hstale
  obtain ⟨⟨outcome, st, q⟩, hrun, hrun'⟩ := Option.bind_eq_some_iff.mp hrun'
  obtain ⟨⟨outcome'', fresh', q''⟩, hrun'', heq''⟩ := Option.map_eq_some_iff.mp hfresh
  obtain ⟨hok', hrest'⟩ := Prod.mk.inj heq'
  obtain ⟨hdistance', hq'⟩ := Prod.mk.inj hrest'
  obtain ⟨hok'', hrest''⟩ := Prod.mk.inj heq''
  obtain ⟨hdistance'', hq''⟩ := Prod.mk.inj hrest''
  dsimp only at hok' hdistance' hq' hok'' hdistance'' hq'' hrun'
  rw [ok_of_isOk hok', hq'] at hrun'
  rw [ok_of_isOk hok'', hq''] at hrun''
  have hsame := h st st' fresh' ⟨[]⟩ (.run .retained hrun) hrun' hrun'' 1 (by
    rw [hdistance'']
    decide)
  rw [hdistance', hdistance''] at hsame
  revert hsame
  decide

end Retained

end Sicada.ShortestDistanceRetained
