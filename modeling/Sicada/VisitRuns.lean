import Sicada.CcVisitors
import Sicada.Visit

set_option linter.unusedSectionVars false

namespace Sicada.VisitRuns

open Container Loop Visit

open DfsVisit (StateColor)

variable {L W σ Q : Type} [ArcLabel L] [Zero W]

variable {s : ℕ}

section Events

/- What a visitor is told. -/
inductive VisitEvent (L W : Type) where
  | initState (s root : ℕ)
  | whiteArc (s : ℕ) (arc : Arc L W)
  | greyArc (s : ℕ) (arc : Arc L W)
  | blackArc (s : ℕ) (arc : Arc L W)
  | finishState (s : ℕ)

def report (visitor : Visitor L W σ) (v : σ) : VisitEvent L W → σ
  | .initState s root => (visitor.initState s root v).2
  | .whiteArc s arc => (visitor.whiteArc s arc v).2
  | .greyArc s arc => (visitor.greyArc s arc v).2
  | .blackArc s arc => (visitor.blackArc s arc v).2
  | .finishState s => visitor.finishState s v

/- The status of each state follows from what has been reported. -/
def recolor (color : ℕ → StateColor) : VisitEvent L W → ℕ → StateColor
  | .initState s _ => Function.update color s .grey
  | .finishState s => Function.update color s .black
  | _ => color

def undiscovered : ℕ → StateColor := fun _ => .white

/- An event at the right time: a state is discovered once, and finished once after that; an arc is
reported while its source is under way, by the status its destination then has. -/
def Timely (filter : Arc L W → Bool) (color : ℕ → StateColor) : VisitEvent L W → Prop
  | .initState s _ => color s = .white
  | .whiteArc s arc => filter arc = true ∧ color s = .grey ∧ color arc.nextstate = .white
  | .greyArc s arc => filter arc = true ∧ color s = .grey ∧ color arc.nextstate = .grey
  | .blackArc s arc => filter arc = true ∧ color s = .grey ∧ color arc.nextstate = .black
  | .finishState s => color s = .grey

def TimedFrom (filter : Arc L W → Bool) : (ℕ → StateColor) → List (VisitEvent L W) → Prop
  | _, [] => True
  | color, e :: es => Timely filter color e ∧ TimedFrom filter (recolor color e) es

def Timed (filter : Arc L W → Bool) (log : List (VisitEvent L W)) : Prop :=
  TimedFrom filter undiscovered log

def statusAfter (log : List (VisitEvent L W)) : ℕ → StateColor := log.foldl recolor undiscovered

def initialised : List (VisitEvent L W) → List ℕ :=
  List.filterMap fun
    | .initState s _ => some s
    | _ => none

def finished : List (VisitEvent L W) → List ℕ :=
  List.filterMap fun
    | .finishState s => some s
    | _ => none

/- The arcs reported of a state. -/
def reported (s : ℕ) : List (VisitEvent L W) → List (Arc L W) :=
  List.filterMap fun
    | .whiteArc t arc | .greyArc t arc | .blackArc t arc => if t = s then some arc else none
    | _ => none

variable {filter : Arc L W → Bool} {color : ℕ → StateColor} {log es : List (VisitEvent L W)}

theorem timedFrom_append : TimedFrom filter color (log ++ es) ↔
    TimedFrom filter color log ∧ TimedFrom filter (log.foldl recolor color) es := by
  induction log generalizing color with
  | nil => simp [TimedFrom]
  | cons e log ih => rw [List.cons_append, TimedFrom, TimedFrom, ih, List.foldl_cons, and_assoc]

@[simp] theorem initialised_append (log es : List (VisitEvent L W)) :
    initialised (log ++ es) = initialised log ++ initialised es := List.filterMap_append

@[simp] theorem finished_append (log es : List (VisitEvent L W)) :
    finished (log ++ es) = finished log ++ finished es := List.filterMap_append

@[simp] theorem reported_append (s : ℕ) (log es : List (VisitEvent L W)) :
    reported s (log ++ es) = reported s log ++ reported s es := List.filterMap_append

@[simp] theorem statusAfter_append (log es : List (VisitEvent L W)) :
    statusAfter (log ++ es) = es.foldl recolor (statusAfter log) := List.foldl_append

/- What has been reported of the states, as their statuses tell it. -/
structure Counted (log : List (VisitEvent L W)) : Prop where
  initialised_nodup : (initialised log).Nodup
  finished_nodup : (finished log).Nodup
  mem_initialised : ∀ s, s ∈ initialised log ↔ statusAfter log s ≠ .white
  mem_finished : ∀ s, s ∈ finished log ↔ statusAfter log s = .black

theorem counted_arc {e : VisitEvent L W} (h : Counted log) (hinit : initialised [e] = [])
    (hfinish : finished [e] = []) (hstatus : statusAfter (log ++ [e]) = statusAfter log) :
    Counted (log ++ [e]) := by
  constructor <;> simp only [initialised_append, finished_append, hinit, hfinish, List.append_nil,
    hstatus]
  · exact h.initialised_nodup
  · exact h.finished_nodup
  · exact h.mem_initialised
  · exact h.mem_finished

theorem mem_snoc_update {l : List ℕ} {P : StateColor → Prop} {color : ℕ → StateColor}
    {c : StateColor} (hc : P c) (h : ∀ t, t ∈ l ↔ P (color t)) (t : ℕ) :
    t ∈ l ++ [s] ↔ P (Function.update color s c t) := by
  by_cases hts : t = s
  · subst hts
    simp [hc]
  · rw [Function.update_of_ne hts, ← h t]
    simp [hts]

theorem mem_update {l : List ℕ} {P : StateColor → Prop} {color : ℕ → StateColor} {c : StateColor}
    (hc : P c ↔ P (color s)) (h : ∀ t, t ∈ l ↔ P (color t)) (t : ℕ) :
    t ∈ l ↔ P (Function.update color s c t) := by
  by_cases hts : t = s
  · subst hts
    rw [Function.update_self, hc, h t]
  · rw [Function.update_of_ne hts, h t]

theorem counted_snoc {e : VisitEvent L W} (h : Counted log)
    (he : Timely filter (statusAfter log) e) : Counted (log ++ [e]) := by
  have hstatus : statusAfter (log ++ [e]) = recolor (statusAfter log) e := statusAfter_append log [e]
  cases e with
  | initState s root =>
    have hs : statusAfter log s = .white := he
    have hnew : s ∉ initialised log := fun hmem => (h.mem_initialised s).mp hmem hs
    refine ⟨?_, ?_, ?_, ?_⟩
    · rw [initialised_append]
      exact h.initialised_nodup.append (List.nodup_singleton s) (List.disjoint_singleton.mpr hnew)
    · rw [finished_append]
      exact (List.append_nil (finished log)).symm ▸ h.finished_nodup
    · rw [initialised_append, hstatus]
      exact mem_snoc_update (P := (· ≠ .white)) (by decide) h.mem_initialised
    · rw [finished_append, hstatus]
      exact (List.append_nil (finished log)).symm ▸
        mem_update (P := (· = .black)) (by simp [hs]) h.mem_finished
  | finishState s =>
    have hs : statusAfter log s = .grey := he
    have hnew : s ∉ finished log := by
      rw [h.mem_finished, hs]
      decide
    refine ⟨?_, ?_, ?_, ?_⟩
    · rw [initialised_append]
      exact (List.append_nil (initialised log)).symm ▸ h.initialised_nodup
    · rw [finished_append]
      exact h.finished_nodup.append (List.nodup_singleton s) (List.disjoint_singleton.mpr hnew)
    · rw [initialised_append, hstatus]
      exact (List.append_nil (initialised log)).symm ▸
        mem_update (P := (· ≠ .white)) (by simp [hs]) h.mem_initialised
    · rw [finished_append, hstatus]
      exact mem_snoc_update (P := (· = .black)) rfl h.mem_finished
  | whiteArc s arc => exact counted_arc h rfl rfl hstatus
  | greyArc s arc => exact counted_arc h rfl rfl hstatus
  | blackArc s arc => exact counted_arc h rfl rfl hstatus

theorem counted_of_timed (h : Timed filter log) : Counted log := by
  induction log using List.reverseRecOn with
  | nil => exact ⟨List.nodup_nil, List.nodup_nil, by simp [initialised, statusAfter, undiscovered],
      by simp [finished, statusAfter, undiscovered]⟩
  | append_singleton log e ih =>
    obtain ⟨hlog, he, -⟩ := timedFrom_append.mp h
    exact counted_snoc (ih hlog) he

end Events

/- A queue whose head is a state that was put in and not taken out yet, and that takes that one
out; `Holds` says what is in it. -/
structure Lawful (queue : StateQueue Q) (Holds : Q → Finset ℕ → Prop) : Prop where
  enqueue : ∀ q A s, Holds q A → s ∉ A → Holds (queue.enqueue s q) (insert s A)
  isEmpty : ∀ q A, Holds q A → (queue.isEmpty q = true ↔ A = ∅)
  head : ∀ q A, Holds q A → A.Nonempty →
    ∃ s ∈ A, queue.head q = some s ∧ Holds (queue.dequeue q) (A.erase s)

/- A visitor that never aborts. -/
structure Willing (visitor : Visitor L W σ) : Prop where
  initState : ∀ s root v, (visitor.initState s root v).1 = true
  whiteArc : ∀ s arc v, (visitor.whiteArc s arc v).1 = true
  greyArc : ∀ s arc v, (visitor.greyArc s arc v).1 = true
  blackArc : ∀ s arc v, (visitor.blackArc s arc v).1 = true

section Invariant

variable (fst : VectorFst L W) (visitor : Visitor L W σ) (filter : Arc L W → Bool)
  (Holds : Q → Finset ℕ → Prop)

def color (d : VisitSearch L W σ Q) : ℕ → StateColor := fun s => (d.stateStatus s).color

/- The arcs of a state that are still to be walked. -/
def rest (d : VisitSearch L W σ Q) (s : ℕ) : List (Arc L W) :=
  if color d s = .black ∨ (d.stateStatus s).arcIterDone = true then []
  else (d.arcIterator s).getD (fst.arcs s)

/- The visit has told its visitor the events of `log`. -/
structure Told (v : σ) (log : List (VisitEvent L W)) (d : VisitSearch L W σ Q) : Prop where
  heard : d.visitor = log.foldl (report visitor) v
  colored : color d = statusAfter log
  timed : Timed filter log

/- The flags, the iterators and the queue agree. -/
structure Flagged (d : VisitSearch L W σ Q) : Prop where
  white : ∀ s, color d s = .white → (d.stateStatus s).arcIterDone = false ∧ d.arcIterator s = none
  done : ∀ s, (d.stateStatus s).arcIterDone = true → d.arcIterator s = none
  held : ∃ A, Holds d.queue A ∧ ∀ s, s ∈ A ↔ color d s = .grey

/- What has been reported of each state, and what is still to come. -/
structure Reported (log : List (VisitEvent L W)) (d : VisitSearch L W σ Q) : Prop where
  within : ∀ s, reported s log <+: (fst.arcs s).filter filter
  whole : d.doVisit = true → ∀ s,
    reported s log ++ (rest fst d s).filter filter = (fst.arcs s).filter filter
  suffix : ∀ s, rest fst d s <:+ fst.arcs s

/- Where the visit is among the roots. -/
structure Rooted (expanded accessOnly : Bool) (start : ℕ) (d : VisitSearch L W σ Q) : Prop where
  known : ∀ s, color d s ≠ .white → s < d.nstates
  bound : d.nstates ≤ fst.numStates
  begun : start < d.nstates
  siter : ∃ k ≤ d.nstates, d.siter = List.range' k (fst.numStates - k)
  expanded : expanded = true → d.nstates = fst.numStates
  swept : accessOnly = false → d.rootIdx = start ∨ ∀ s < d.rootIdx, color d s ≠ .white
  tree : d.root ≠ none → d.rootIdx < d.nstates ∧ color d d.rootIdx ≠ .white
  idle : d.root = none → (∀ s, color d s ≠ .grey) ∧
    (d.rootIdx < d.nstates → color d d.rootIdx = .white) ∧
      (d.nstates ≤ d.rootIdx → accessOnly = false → d.nstates = fst.numStates)

structure VisitInv (expanded accessOnly : Bool) (start : ℕ) (v : σ) (log : List (VisitEvent L W))
    (d : VisitSearch L W σ Q) : Prop where
  told : Told visitor filter v log d
  flagged : Flagged Holds d
  reported : Reported fst filter log d
  rooted : Rooted fst expanded accessOnly start d
  willing : Willing visitor → d.doVisit = true

end Invariant

section Reading

variable {fst : VectorFst L W} {visitor : Visitor L W σ} {queue : StateQueue Q}
  {filter : Arc L W → Bool} {Holds : Q → Finset ℕ → Prop} {d d' : VisitSearch L W σ Q}

theorem rest_congr (hstatus : d'.stateStatus s = d.stateStatus s)
    (harcs : d'.arcIterator s = d.arcIterator s) : rest fst d' s = rest fst d s := by
  unfold rest color
  rw [hstatus, harcs]

theorem rest_openIterator (s t : ℕ) :
    rest fst (openIterator fst s d) t = rest fst d t := by
  unfold openIterator
  split
  next hnone =>
    by_cases hts : t = s
    · subst hts
      obtain ⟨hnone, hdone, -⟩ := hnone
      rw [Option.isNone_iff_eq_none] at hnone
      unfold rest color
      simp [hnone]
    · exact rest_congr rfl (Function.update_of_ne hts _ _)
  next => rfl

@[simp] theorem stateStatus_openIterator (s : ℕ) :
    (openIterator fst s d).stateStatus = d.stateStatus := by
  unfold openIterator
  split <;> rfl

variable (fst d) in
theorem openIterator_same (s : ℕ) : (openIterator fst s d).doVisit = d.doVisit ∧
    (openIterator fst s d).visitor = d.visitor ∧ (openIterator fst s d).queue = d.queue ∧
      (openIterator fst s d).nstates = d.nstates ∧ (openIterator fst s d).siter = d.siter ∧
        (openIterator fst s d).rootIdx = d.rootIdx ∧ (openIterator fst s d).root = d.root := by
  unfold openIterator
  split <;> exact ⟨rfl, rfl, rfl, rfl, rfl, rfl, rfl⟩

theorem color_closeIterator (s : ℕ) : color (closeIterator s d) = color d := by
  funext t
  by_cases hts : t = s
  · subst hts
    simp [color, closeIterator]
  · simp [color, closeIterator, Function.update_of_ne hts]

theorem color_advanceIterator (s : ℕ) (arcs : List (Arc L W)) :
    color (advanceIterator s arcs d) = color d := by
  unfold advanceIterator
  split
  · exact color_closeIterator s
  · rfl

theorem advanceIterator_same (s : ℕ) (arcs : List (Arc L W)) :
    (advanceIterator s arcs d).doVisit = d.doVisit ∧
      (advanceIterator s arcs d).visitor = d.visitor ∧ (advanceIterator s arcs d).queue = d.queue ∧
        (advanceIterator s arcs d).nstates = d.nstates ∧
          (advanceIterator s arcs d).siter = d.siter ∧
            (advanceIterator s arcs d).rootIdx = d.rootIdx ∧
              (advanceIterator s arcs d).root = d.root := by
  unfold advanceIterator closeIterator
  split <;> exact ⟨rfl, rfl, rfl, rfl, rfl, rfl, rfl⟩

theorem rest_advanceIterator {arcs : List (Arc L W)} (hcolor : color d s ≠ .black)
    (hdone : (d.stateStatus s).arcIterDone = false) (t : ℕ) :
    rest fst (advanceIterator s arcs d) t = if t = s then arcs else rest fst d t := by
  by_cases hts : t = s
  · subst hts
    rw [if_pos rfl]
    cases arcs with
    | nil => simp [advanceIterator, closeIterator, rest]
    | cons arc arcs =>
      unfold color at hcolor
      simp [advanceIterator, rest, color, hcolor, hdone]
  · rw [if_neg hts]
    unfold advanceIterator closeIterator
    split
    · exact rest_congr (Function.update_of_ne hts _ _) (Function.update_of_ne hts _ _)
    · exact rest_congr rfl (Function.update_of_ne hts _ _)

end Reading

section Moving

variable {fst : VectorFst L W} {visitor : Visitor L W σ} {queue : StateQueue Q}
  {filter : Arc L W → Bool} {Holds : Q → Finset ℕ → Prop} {d d' : VisitSearch L W σ Q}

/- A move tells the visitor `es`, and the flags follow. -/
structure Tells (visitor : Visitor L W σ) (filter : Arc L W → Bool) (Holds : Q → Finset ℕ → Prop)
    (d d' : VisitSearch L W σ Q) (es : List (VisitEvent L W)) : Prop where
  heard : d'.visitor = es.foldl (report visitor) d.visitor
  recolored : color d' = es.foldl recolor (color d)
  timed : TimedFrom filter (color d) es
  flagged : Flagged Holds d'
  willing : Willing visitor → d'.doVisit = true

theorem told_append {v : σ} {log es : List (VisitEvent L W)} (h : Told visitor filter v log d)
    (hmove : Tells visitor filter Holds d d' es) : Told visitor filter v (log ++ es) d' := by
  refine ⟨?_, ?_, timedFrom_append.mpr ⟨h.timed, ?_⟩⟩
  · rw [hmove.heard, h.heard, List.foldl_append]
  · rw [hmove.recolored, h.colored, statusAfter_append]
  · have hcolor : color d = log.foldl recolor undiscovered := h.colored
    exact hcolor ▸ hmove.timed

variable (visitor queue d) in
theorem color_discover (s root : ℕ) :
    color (Visit.discover visitor queue s root d) = Function.update (color d) s .grey := by
  funext t
  by_cases hts : t = s
  · subst hts
    simp [color, Visit.discover, greyState]
  · simp [color, Visit.discover, Function.update_of_ne hts]

theorem flagged_discover (hlaws : Lawful queue Holds) (h : Flagged Holds d) (root : ℕ)
    (hs : color d s = .white) : Flagged Holds (Visit.discover visitor queue s root d) := by
  have hcolor := color_discover visitor queue d s root
  obtain ⟨A, hA, hgrey⟩ := h.held
  constructor
  · intro t ht
    rw [hcolor] at ht
    by_cases hts : t = s
    · subst hts
      simp at ht
    · rw [Function.update_of_ne hts] at ht
      simpa [Visit.discover, Function.update_of_ne hts] using h.white t ht
  · intro t ht
    by_cases hts : t = s
    · subst hts
      simp [Visit.discover, greyState] at ht
    · simp only [Visit.discover, Function.update_of_ne hts] at ht
      exact h.done t ht
  · have hnot : s ∉ A := by
      rw [hgrey, hs]
      decide
    refine ⟨insert s A, hlaws.enqueue _ A s hA hnot, ?_⟩
    intro t
    rw [hcolor, Finset.mem_insert, hgrey]
    by_cases hts : t = s
    · subst hts
      simp
    · simp [hts]

theorem rest_discover (h : Flagged Holds d) (root : ℕ) (hs : color d s = .white) (t : ℕ) :
    rest fst (Visit.discover visitor queue s root d) t = rest fst d t := by
  by_cases hts : t = s
  · subst hts
    obtain ⟨hdone, harcs⟩ := h.white t hs
    have hnot : ¬ (color d t = .black ∨ (d.stateStatus t).arcIterDone = true) := by
      rw [hs, hdone]
      simp
    unfold rest
    rw [if_neg hnot, color_discover]
    simp [Visit.discover, greyState]
  · exact rest_congr (Function.update_of_ne hts _ _) rfl

/- What an arc leaves be. -/
structure Beside (d d' : VisitSearch L W σ Q) : Prop where
  siter : d'.siter = d.siter
  rootIdx : d'.rootIdx = d.rootIdx
  root : d'.root = d.root

variable (visitor queue filter d) in
theorem walkArc_beside (root s : ℕ) (arc : Arc L W) :
    Beside d (walkArc visitor queue filter root s arc d) ∧
      (walkArc visitor queue filter root s arc d).nstates = max d.nstates (arc.nextstate + 1) := by
  unfold walkArc
  dsimp only
  split
  · split
    · split <;> exact ⟨⟨rfl, rfl, rfl⟩, rfl⟩
    · exact ⟨⟨rfl, rfl, rfl⟩, rfl⟩
    · exact ⟨⟨rfl, rfl, rfl⟩, rfl⟩
  · exact ⟨⟨rfl, rfl, rfl⟩, rfl⟩

variable (fst visitor filter) in
/- An arc is reported if the filter lets it through, and its destination is discovered. -/
theorem walkArc_tells (hlaws : Lawful queue Holds) (h : Flagged Holds d) (root : ℕ) (arc : Arc L W)
    (hs : color d s = .grey) (hdo : d.doVisit = true) :
    ∃ es, Tells visitor filter Holds d (walkArc visitor queue filter root s arc d) es ∧
      (∀ t, reported t es = if t = s then [arc].filter filter else []) ∧
        (∀ t, rest fst (walkArc visitor queue filter root s arc d) t = rest fst d t) ∧
          ∀ t, t ≠ arc.nextstate ∨ color d t ≠ .white →
            (walkArc visitor queue filter root s arc d).stateStatus t = d.stateStatus t := by
  cases hfilter : filter arc with
  | false =>
    have hwalk : walkArc visitor queue filter root s arc d =
        { d with nstates := max d.nstates (arc.nextstate + 1) } := by
      simp [walkArc, hfilter]
    rw [hwalk]
    refine ⟨[], ⟨rfl, rfl, trivial, ⟨h.white, h.done, h.held⟩, fun _ => hdo⟩, fun t => ?_,
      fun t => rfl, fun t _ => rfl⟩
    simp [reported, hfilter]
  | true =>
    cases hnext : (d.stateStatus arc.nextstate).color with
    | white =>
      by_cases hanswer : (visitor.whiteArc s arc d.visitor).1 = true
      · have hwalk : walkArc visitor queue filter root s arc d = Visit.discover visitor queue
            arc.nextstate root { d with
              nstates := max d.nstates (arc.nextstate + 1)
              doVisit := true
              visitor := (visitor.whiteArc s arc d.visitor).2 } := by
          simp [walkArc, hfilter, hnext, hanswer]
        have hflagged : Flagged Holds { d with
            nstates := max d.nstates (arc.nextstate + 1)
            doVisit := true
            visitor := (visitor.whiteArc s arc d.visitor).2 } := ⟨h.white, h.done, h.held⟩
        rw [hwalk]
        refine ⟨[.whiteArc s arc, .initState arc.nextstate root], ⟨rfl, ?_, ?_, ?_, ?_⟩,
          fun t => ?_, fun t => ?_, fun t ht => ?_⟩
        · exact color_discover _ _ _ _ _
        · exact ⟨⟨hfilter, hs, hnext⟩, hnext, trivial⟩
        · exact flagged_discover hlaws hflagged root hnext
        · exact fun hwilling => hwilling.initState _ _ _
        · by_cases hts : s = t <;> simp [reported, hfilter, hts, eq_comm]
        · exact rest_discover hflagged root hnext t
        · have hne : t ≠ arc.nextstate := by
            rintro rfl
            exact ht.elim (fun hne => hne rfl) fun hwhite => hwhite hnext
          exact Function.update_of_ne hne _ _
      · have hwalk : walkArc visitor queue filter root s arc d = { d with
            nstates := max d.nstates (arc.nextstate + 1)
            doVisit := false
            visitor := (visitor.whiteArc s arc d.visitor).2 } := by
          simp [walkArc, hfilter, hnext, hanswer]
        rw [hwalk]
        refine ⟨[.whiteArc s arc], ⟨rfl, rfl, ⟨⟨hfilter, hs, hnext⟩, trivial⟩,
          ⟨h.white, h.done, h.held⟩, fun hwilling => ?_⟩, fun t => ?_, fun t => rfl,
          fun t _ => rfl⟩
        · exact absurd (hwilling.whiteArc _ _ _) hanswer
        · by_cases hts : s = t <;> simp [reported, hfilter, hts, eq_comm]
    | grey =>
      have hwalk : walkArc visitor queue filter root s arc d = { d with
          nstates := max d.nstates (arc.nextstate + 1)
          doVisit := (visitor.greyArc s arc d.visitor).1
          visitor := (visitor.greyArc s arc d.visitor).2 } := by
        simp [walkArc, hfilter, hnext]
      rw [hwalk]
      refine ⟨[.greyArc s arc], ⟨rfl, rfl, ⟨⟨hfilter, hs, hnext⟩, trivial⟩,
        ⟨h.white, h.done, h.held⟩, fun hwilling => hwilling.greyArc _ _ _⟩, fun t => ?_,
        fun t => rfl, fun t _ => rfl⟩
      by_cases hts : s = t <;> simp [reported, hfilter, hts, eq_comm]
    | black =>
      have hwalk : walkArc visitor queue filter root s arc d = { d with
          nstates := max d.nstates (arc.nextstate + 1)
          doVisit := (visitor.blackArc s arc d.visitor).1
          visitor := (visitor.blackArc s arc d.visitor).2 } := by
        simp [walkArc, hfilter, hnext]
      rw [hwalk]
      refine ⟨[.blackArc s arc], ⟨rfl, rfl, ⟨⟨hfilter, hs, hnext⟩, trivial⟩,
        ⟨h.white, h.done, h.held⟩, fun hwilling => hwilling.blackArc _ _ _⟩, fun t => ?_,
        fun t => rfl, fun t _ => rfl⟩
      by_cases hts : s = t <;> simp [reported, hfilter, hts, eq_comm]

variable (fst d) in
theorem arcIterator_openIterator (s : ℕ) : (openIterator fst s d).arcIterator s =
    if d.doVisit = true ∧ (d.stateStatus s).arcIterDone = false then
      some ((d.arcIterator s).getD (fst.arcs s))
    else d.arcIterator s := by
  unfold openIterator
  cases harcs : d.arcIterator s <;> cases hdo : d.doVisit <;>
    cases hdone : (d.stateStatus s).arcIterDone <;> simp [harcs]

theorem flagged_openIterator (h : Flagged Holds d) (hs : color d s = .grey) :
    Flagged Holds (openIterator fst s d) := by
  unfold openIterator
  split
  next hopen =>
    refine ⟨fun t ht => ?_, fun t ht => ?_, h.held⟩
    · have hts : t ≠ s := by
        rintro rfl
        exact absurd (hs.symm.trans ht) (by decide)
      simpa [Function.update_of_ne hts] using h.white t ht
    · have hts : t ≠ s := by
        rintro rfl
        simp [show (d.stateStatus t).arcIterDone = true from ht] at hopen
      simpa [Function.update_of_ne hts] using h.done t ht
  next => exact h

theorem flagged_advanceIterator (h : Flagged Holds d) (arcs : List (Arc L W))
    (hs : color d s = .grey) (hdone : (d.stateStatus s).arcIterDone = false) :
    Flagged Holds (advanceIterator s arcs d) := by
  have hcolor := color_advanceIterator (d := d) s arcs
  have hother : ∀ t, t ≠ s → (advanceIterator s arcs d).stateStatus t = d.stateStatus t ∧
      (advanceIterator s arcs d).arcIterator t = d.arcIterator t := by
    intro t hts
    unfold advanceIterator closeIterator
    split
    · exact ⟨Function.update_of_ne hts _ _, Function.update_of_ne hts _ _⟩
    · exact ⟨rfl, Function.update_of_ne hts _ _⟩
  refine ⟨fun t ht => ?_, fun t ht => ?_, ?_⟩
  · rw [hcolor] at ht
    have hts : t ≠ s := by
      rintro rfl
      exact absurd (hs.symm.trans ht) (by decide)
    rw [(hother t hts).1, (hother t hts).2]
    exact h.white t ht
  · by_cases hts : t = s
    · subst hts
      unfold advanceIterator closeIterator at ht ⊢
      split
      · simp
      next hmore =>
        rw [if_neg hmore] at ht
        exact absurd (hdone.symm.trans ht) (by decide)
    · rw [(hother t hts).1] at ht
      rw [(hother t hts).2]
      exact h.done t ht
  · rw [hcolor, (advanceIterator_same s arcs).2.2.1]
    exact h.held

variable (fst visitor queue filter) in
/- A state under way either has another arc walked or is finished. -/
theorem visitState_cases (h : Flagged Holds d) (root : ℕ) (hs : color d s = .grey)
    (hlt : s < d.nstates) :
    (∃ arc arcs, d.doVisit = true ∧ (d.stateStatus s).arcIterDone = false ∧
      rest fst d s = arc :: arcs ∧ visitState fst visitor queue filter root s d =
        advanceIterator s arcs (walkArc visitor queue filter root s arc (openIterator fst s d))) ∨
      (d.doVisit = true → rest fst d s = []) ∧ visitState fst visitor queue filter root s d =
        finishState visitor queue s (closeIterator s (openIterator fst s d)) := by
  have hmax : ({ d with nstates := max d.nstates (s + 1) } : VisitSearch L W σ Q) = d := by
    rw [max_eq_left hlt]
  have hdo := (openIterator_same fst d s).1
  have harcs := arcIterator_openIterator fst d s
  have hrest : rest fst d s = if (d.stateStatus s).arcIterDone = true then []
      else (d.arcIterator s).getD (fst.arcs s) := by
    simp [rest, hs]
  have hclosed : ((closeIterator s (openIterator fst s d)).stateStatus s).arcIterDone = true := by
    simp [closeIterator]
  have hfinish : ((((openIterator fst s d).arcIterator s).getD []).isEmpty || !d.doVisit) = true →
      visitState fst visitor queue filter root s d =
        finishState visitor queue s (closeIterator s (openIterator fst s d)) := by
    intro hdone
    unfold visitState
    rw [hmax]
    dsimp only
    rw [hdo, if_pos hdone, if_pos hclosed]
  by_cases hgo : d.doVisit = true ∧ (d.stateStatus s).arcIterDone = false
  · rw [if_pos hgo] at harcs
    rw [if_neg (by simp [hgo.2])] at hrest
    cases hl : (d.arcIterator s).getD (fst.arcs s) with
    | nil =>
      rw [hl] at harcs hrest
      exact Or.inr ⟨fun _ => hrest, hfinish (by rw [harcs]; rfl)⟩
    | cons arc arcs =>
      rw [hl] at harcs hrest
      refine Or.inl ⟨arc, arcs, hgo.1, hgo.2, hrest, ?_⟩
      unfold visitState
      rw [hmax]
      dsimp only
      have hgoing : (((some (arc :: arcs)).getD []).isEmpty || !true) = false := rfl
      rw [hdo, harcs, hgo.1, hgoing]
      simp only [Bool.false_eq_true, if_false, stateStatus_openIterator, hgo.2, harcs]
  · rw [if_neg hgo] at harcs
    have hdone : d.doVisit = true → (d.stateStatus s).arcIterDone = true := by
      intro hdo
      by_contra hnot
      exact hgo ⟨hdo, Bool.eq_false_iff.mpr hnot⟩
    refine Or.inr ⟨fun hdo => by rw [hrest, if_pos (hdone hdo)], hfinish ?_⟩
    cases hdo : d.doVisit with
    | false => exact Bool.or_true _
    | true =>
      rw [harcs, h.done s (hdone hdo)]
      rfl

variable (fst filter) in
/- A finished state is off the queue. -/
theorem finish_tells (hlaws : Lawful queue Holds) (h : Flagged Holds d) (hs : color d s = .grey)
    (hhead : queue.head d.queue = some s) (hwilling : Willing visitor → d.doVisit = true) :
    Tells visitor filter Holds d
        (finishState visitor queue s (closeIterator s (openIterator fst s d))) [.finishState s] ∧
      ∀ t, rest fst (finishState visitor queue s (closeIterator s (openIterator fst s d))) t =
        if t = s then [] else rest fst d t := by
  obtain ⟨hdo, hvisitor, hqueue, -⟩ := openIterator_same fst d s
  have hstatus : ∀ t, t ≠ s → (finishState visitor queue s
      (closeIterator s (openIterator fst s d))).stateStatus t = d.stateStatus t := by
    intro t hts
    simp [finishState, closeIterator, Function.update_of_ne hts]
  have hself : (finishState visitor queue s
      (closeIterator s (openIterator fst s d))).stateStatus s = blackState := by
    simp [finishState]
  have hcolor : color (finishState visitor queue s (closeIterator s (openIterator fst s d))) =
      Function.update (color d) s .black := by
    funext t
    by_cases hts : t = s
    · subst hts
      rw [Function.update_self]
      exact congrArg StateStatus.color hself
    · rw [Function.update_of_ne hts]
      exact congrArg StateStatus.color (hstatus t hts)
  have harcs : ∀ t, t ≠ s → (finishState visitor queue s
      (closeIterator s (openIterator fst s d))).arcIterator t = d.arcIterator t := by
    intro t hts
    have hopen : (openIterator fst s d).arcIterator t = d.arcIterator t := by
      unfold openIterator
      split
      · exact Function.update_of_ne hts _ _
      · rfl
    simpa [finishState, closeIterator, Function.update_of_ne hts] using hopen
  refine ⟨⟨?_, hcolor, ⟨hs, trivial⟩, ⟨?_, ?_, ?_⟩, ?_⟩, ?_⟩
  · exact congrArg (visitor.finishState s) hvisitor
  · intro t ht
    rw [hcolor] at ht
    by_cases hts : t = s
    · subst hts
      simp at ht
    · rw [Function.update_of_ne hts] at ht
      rw [hstatus t hts, harcs t hts]
      exact h.white t ht
  · intro t ht
    by_cases hts : t = s
    · subst hts
      simp [finishState, closeIterator]
    · rw [hstatus t hts] at ht
      rw [harcs t hts]
      exact h.done t ht
  · obtain ⟨A, hA, hgrey⟩ := h.held
    obtain ⟨s', -, hhead', hrest⟩ := hlaws.head d.queue A hA ⟨s, (hgrey s).mpr hs⟩
    obtain rfl : s' = s := Option.some.inj (hhead'.symm.trans hhead)
    refine ⟨A.erase s', ?_, fun t => ?_⟩
    · have hdequeue : Holds (queue.dequeue (openIterator fst s' d).queue) (A.erase s') := by
        rw [hqueue]
        exact hrest
      exact hdequeue
    · rw [hcolor, Finset.mem_erase, hgrey]
      by_cases hts : t = s'
      · subst hts
        simp
      · simp [hts]
  · intro hall
    exact hdo.trans (hwilling hall)
  · intro t
    by_cases hts : t = s
    · subst hts
      have hblack : color (finishState visitor queue t
          (closeIterator t (openIterator fst t d))) t = .black := by
        rw [hcolor, Function.update_self]
      rw [if_pos rfl, rest, if_pos (Or.inl hblack)]
    · rw [if_neg hts]
      exact rest_congr (hstatus t hts) (harcs t hts)

end Moving

section Keeping

variable {fst : VectorFst L W} {visitor : Visitor L W σ} {queue : StateQueue Q}
  {filter : Arc L W → Bool} {Holds : Q → Finset ℕ → Prop} {d d' : VisitSearch L W σ Q}
  {expanded accessOnly : Bool} {start : ℕ} {v : σ} {log es : List (VisitEvent L W)}

theorem reported_move (h : Reported fst filter log d) (s : ℕ) (taken left : List (Arc L W))
    (hes : ∀ t, reported t es = if t = s then taken.filter filter else [])
    (hrest : ∀ t, rest fst d' t = if t = s then left else rest fst d t)
    (hleft : left <:+ rest fst d s) (hsplit : d.doVisit = true → rest fst d s = taken ++ left)
    (hdo : d'.doVisit = true ∨ taken ≠ [] → d.doVisit = true) :
    Reported fst filter (log ++ es) d' := by
  have hwhole : d.doVisit = true → ∀ t,
      reported t (log ++ es) ++ (rest fst d' t).filter filter = (fst.arcs t).filter filter := by
    intro hgo t
    rw [reported_append, hes, hrest]
    by_cases hts : t = s
    · subst hts
      rw [if_pos rfl, if_pos rfl, List.append_assoc, ← List.filter_append, ← hsplit hgo]
      exact h.whole hgo t
    · rw [if_neg hts, if_neg hts, List.append_nil]
      exact h.whole hgo t
  refine ⟨fun t => ?_, fun hgo => hwhole (hdo (Or.inl hgo)), fun t => ?_⟩
  · by_cases htaken : taken = []
    · have hnone : reported t es = [] := by
        rw [hes, htaken]
        split <;> rfl
      rw [reported_append, hnone, List.append_nil]
      exact h.within t
    · exact ⟨_, hwhole (hdo (Or.inr htaken)) t⟩
  · rw [hrest]
    split
    next hts => exact hts ▸ hleft.trans (h.suffix s)
    next => exact h.suffix t

theorem foldl_recolor_ne_white {t : ℕ} {c : ℕ → StateColor} (h : c t ≠ .white)
    (es : List (VisitEvent L W)) : (es.foldl recolor c) t ≠ .white := by
  induction es generalizing c with
  | nil => exact h
  | cons e es ih =>
    refine ih ?_
    cases e with
    | initState s root =>
      by_cases hts : t = s
      · simp [recolor, hts]
      · rwa [recolor, Function.update_of_ne hts]
    | finishState s =>
      by_cases hts : t = s
      · simp [recolor, hts]
      · rwa [recolor, Function.update_of_ne hts]
    | whiteArc s arc => exact h
    | greyArc s arc => exact h
    | blackArc s arc => exact h

theorem rooted_move (h : Rooted fst expanded accessOnly start d) (hbeside : Beside d d')
    (hroot : d.root ≠ none) (hle : d.nstates ≤ d'.nstates) (hbound : d'.nstates ≤ fst.numStates)
    (hcolor : ∀ t, color d t ≠ .white → color d' t ≠ .white)
    (hnew : ∀ t, color d' t ≠ .white → color d t ≠ .white ∨ t < d'.nstates) :
    Rooted fst expanded accessOnly start d' := by
  obtain ⟨k, hk, hsiter⟩ := h.siter
  constructor
  · intro t ht
    exact (hnew t ht).elim (fun hold => (h.known t hold).trans_le hle) id
  · exact hbound
  · exact h.begun.trans_le hle
  · exact ⟨k, hk.trans hle, hbeside.siter.trans hsiter⟩
  · intro hexpanded
    have := h.expanded hexpanded
    omega
  · intro haccess
    rw [hbeside.rootIdx]
    exact (h.swept haccess).imp_right fun hall t ht => hcolor t (hall t ht)
  · intro _
    rw [hbeside.rootIdx]
    exact (h.tree hroot).imp (·.trans_le hle) (hcolor _)
  · intro hnone
    exact absurd (hbeside.root.symm.trans hnone) hroot

theorem dropWhile_range' (m k n : ℕ) (hle : k ≤ m) :
    (List.range' k (n - k)).dropWhile (· ≠ m) = List.range' m (n - m) := by
  induction hk : m - k generalizing k with
  | zero =>
    obtain rfl : k = m := by omega
    cases hn : n - k with
    | zero => rfl
    | succ i => simp [List.range'_succ]
  | succ i ih =>
    cases hn : n - k with
    | zero =>
      have hzero : n - m = 0 := by omega
      simp [hzero]
    | succ j =>
      have hj : j = n - (k + 1) := by omega
      have hne : k ≠ m := by omega
      rw [List.range'_succ, List.dropWhile_cons_of_pos (by simpa using hne), hj]
      exact ih (k + 1) (by omega) (by omega)

/- The next root is the first state not discovered, and all before it are. -/
theorem nextIn_white (hflagged : Flagged Holds d) (h : Rooted fst expanded false start d)
    (hroot : d.root ≠ none) {r : ℕ} (hr : r = nextIn (fun s => d.stateStatus s = whiteState)
      (if d.rootIdx = start then 0 else d.rootIdx + 1) d.nstates) :
    r ≤ d.nstates ∧ (∀ s < r, color d s ≠ .white) ∧ (r < d.nstates → color d r = .white) := by
  obtain ⟨hlt, hdiscovered⟩ := h.tree hroot
  have hfront : (if d.rootIdx = start then 0 else d.rootIdx + 1) ≤ d.nstates := by
    split <;> omega
  obtain ⟨-, hbefore, hfound⟩ := nextIn_spec (fun s => decide (d.stateStatus s = whiteState))
    (if d.rootIdx = start then 0 else d.rootIdx + 1) d.nstates
  rw [← hr] at hbefore hfound
  refine ⟨hr ▸ nextIn_le hfront, fun s hs hwhite => ?_, fun hlt => ?_⟩
  · have hstatus : d.stateStatus s = whiteState := by
      obtain ⟨hdone, -⟩ := hflagged.white s hwhite
      cases hcase : d.stateStatus s with
      | mk c done =>
        have hc : c = .white := by
          have hcolor : (d.stateStatus s).color = .white := hwhite
          rwa [hcase] at hcolor
        have hdone' : done = false := by rwa [hcase] at hdone
        rw [hc, hdone']
        rfl
    by_cases hle : (if d.rootIdx = start then 0 else d.rootIdx + 1) ≤ s
    · exact absurd hstatus (of_decide_eq_false (hbefore s hle hs))
    · split at hle
      next => omega
      next hne =>
        rcases Nat.lt_or_eq_of_le (Nat.le_of_lt_succ (Nat.lt_of_not_le hle)) with hs | rfl
        · exact (h.swept rfl).resolve_left hne s hs hwhite
        · exact hdiscovered hwhite
  · have hstatus := of_decide_eq_true (hfound hlt)
    exact congrArg StateStatus.color hstatus

theorem rooted_nextRoot (hflagged : Flagged Holds d) (h : Rooted fst expanded false start d)
    (hroot : d.root ≠ none) (hgrey : ∀ s, color d s ≠ .grey) :
    Rooted fst expanded false start (nextRoot expanded start { d with root := none }) := by
  generalize hr : nextIn (fun s => d.stateStatus s = whiteState)
    (if d.rootIdx = start then 0 else d.rootIdx + 1) d.nstates = r
  obtain ⟨hle, hbefore, hwhite⟩ := nextIn_white hflagged h hroot hr.symm
  obtain ⟨k, hk, hsiter⟩ := h.siter
  have hdrop : d.siter.dropWhile (· ≠ d.nstates) =
      List.range' d.nstates (fst.numStates - d.nstates) := by
    rw [hsiter]
    exact dropWhile_range' _ _ _ hk
  unfold nextRoot
  dsimp only
  rw [hr, hdrop]
  split
  next hlast =>
    obtain ⟨-, rfl⟩ := hlast
    cases hmore : fst.numStates - d.nstates with
    | zero =>
      have hall : d.nstates = fst.numStates := by
        have := h.bound
        omega
      exact ⟨h.known, h.bound, h.begun, ⟨fst.numStates, hall.ge, by simp⟩, h.expanded,
        fun _ => Or.inr hbefore, fun hsome => absurd rfl hsome,
        fun _ => ⟨hgrey, hwhite, fun _ _ => hall⟩⟩
    | succ i =>
      have hnew : color d d.nstates = .white := by
        by_contra hne
        exact lt_irrefl _ (h.known _ hne)
      refine ⟨fun s hs => (h.known s hs).trans (Nat.lt_succ_self _), ?_,
        h.begun.trans (Nat.lt_succ_self _), ⟨d.nstates + 1, le_rfl, ?_⟩, ?_,
        fun _ => Or.inr hbefore, fun hsome => absurd rfl hsome,
        fun _ => ⟨hgrey, fun _ => hnew, fun hlast => absurd hlast (Nat.not_succ_le_self _)⟩⟩
      · change d.nstates + 1 ≤ fst.numStates
        omega
      · have hi : i = fst.numStates - (d.nstates + 1) := by omega
        exact congrArg (List.range' (d.nstates + 1)) hi
      · intro hexpanded
        have := h.expanded hexpanded
        omega
  next hlast =>
    refine ⟨h.known, h.bound, h.begun, h.siter, h.expanded, fun _ => Or.inr hbefore,
      fun hsome => absurd rfl hsome, fun _ => ⟨hgrey, hwhite, fun hge _ => ?_⟩⟩
    apply h.expanded
    by_contra hexpanded
    exact hlast ⟨by simpa using hexpanded, le_antisymm hle hge⟩

theorem rooted_endTree (hflagged : Flagged Holds d)
    (h : Rooted fst expanded accessOnly start d) (hroot : d.root ≠ none)
    (hgrey : ∀ s, color d s ≠ .grey) :
    Rooted fst expanded accessOnly start (endTree expanded accessOnly start d) := by
  cases accessOnly with
  | true =>
    exact ⟨h.known, h.bound, h.begun, h.siter, h.expanded, nofun, fun hsome => absurd rfl hsome,
      fun _ => ⟨hgrey, fun hlt => absurd hlt (lt_irrefl _), nofun⟩⟩
  | false => exact rooted_nextRoot hflagged h hroot hgrey

/- What is still to be done of a state. -/
def pending (fst : VectorFst L W) (d : VisitSearch L W σ Q) (s : ℕ) : ℕ :=
  match color d s with
  | .white => (fst.arcs s).length + 2
  | .grey => (rest fst d s).length + 1
  | .black => 0

theorem pending_le {t : ℕ} (hrest : rest fst d' t = rest fst d t)
    (hcolor : color d' t = color d t ∨ color d t = .white)
    (hsuffix : rest fst d t <:+ fst.arcs t) : pending fst d' t ≤ pending fst d t := by
  have hlen := hsuffix.length_le
  unfold pending
  rw [hrest]
  rcases hcolor with hsame | hwhite
  · rw [hsame]
  · rw [hwhite]
    cases color d' t <;> dsimp only <;> omega

theorem inv_startTree (hlaws : Lawful queue Holds)
    (h : VisitInv fst visitor filter Holds expanded accessOnly start v log d)
    (hroot : d.root = none) (hdo : d.doVisit = true) (hlt : d.rootIdx < d.nstates) :
    VisitInv fst visitor filter Holds expanded accessOnly start v
        (log ++ [.initState d.rootIdx d.rootIdx]) (startTree visitor queue d) ∧
      (∀ t, pending fst (startTree visitor queue d) t ≤ pending fst d t) ∧
        pending fst (startTree visitor queue d) d.rootIdx < pending fst d d.rootIdx := by
  obtain ⟨-, hfresh, -⟩ := h.rooted.idle hroot
  have hwhite : color d d.rootIdx = .white := hfresh hlt
  have hflagged : Flagged Holds { d with root := some d.rootIdx } :=
    ⟨h.flagged.white, h.flagged.done, h.flagged.held⟩
  have hcolor : color (startTree visitor queue d) = Function.update (color d) d.rootIdx .grey :=
    color_discover visitor queue d d.rootIdx d.rootIdx
  have hrest : ∀ t, rest fst (startTree visitor queue d) t = rest fst d t := fun t =>
    rest_discover hflagged d.rootIdx hwhite t
  have htells : Tells visitor filter Holds d (startTree visitor queue d)
      [.initState d.rootIdx d.rootIdx] :=
    ⟨rfl, hcolor, ⟨hwhite, trivial⟩, flagged_discover hlaws hflagged d.rootIdx hwhite,
      fun hwilling => hwilling.initState _ _ _⟩
  have hkept : ∀ t, color d t ≠ .white → color (startTree visitor queue d) t ≠ .white := by
    intro t ht
    rw [htells.recolored]
    exact foldl_recolor_ne_white ht _
  have hgrey : color (startTree visitor queue d) d.rootIdx = .grey := by
    rw [hcolor, Function.update_self]
  have hpending : pending fst (startTree visitor queue d) d.rootIdx <
      pending fst d d.rootIdx := by
    have hlen := (h.reported.suffix d.rootIdx).length_le
    unfold pending
    rw [hgrey, hwhite, hrest]
    dsimp only
    omega
  refine ⟨⟨told_append h.told htells, htells.flagged, ?_, ?_, htells.willing⟩, fun t => ?_,
    hpending⟩
  · refine reported_move h.reported d.rootIdx [] (rest fst d d.rootIdx) (fun t => ?_) (fun t => ?_)
      List.suffix_rfl (fun _ => rfl) (fun _ => hdo)
    · simp [reported]
    · rw [hrest]
      split
      next hts => rw [hts]
      next => rfl
  · refine ⟨fun t ht => ?_, h.rooted.bound, h.rooted.begun, h.rooted.siter, h.rooted.expanded,
      fun haccess => ?_, fun _ => ⟨hlt, ?_⟩, nofun⟩
    · by_cases hts : t = d.rootIdx
      · exact hts ▸ hlt
      · rw [hcolor, Function.update_of_ne hts] at ht
        exact h.rooted.known t ht
    · exact (h.rooted.swept haccess).imp_right fun hall t ht => hkept t (hall t ht)
    · rw [show (startTree visitor queue d).rootIdx = d.rootIdx from rfl, hgrey]
      decide
  · by_cases hts : t = d.rootIdx
    · exact hts ▸ hpending.le
    · refine pending_le (hrest t) (Or.inl ?_) (h.reported.suffix t)
      rw [hcolor, Function.update_of_ne hts]

theorem inv_endTree (hlaws : Lawful queue Holds)
    (h : VisitInv fst visitor filter Holds expanded accessOnly start v log d)
    (hroot : d.root ≠ none) (hempty : queue.isEmpty d.queue = true) :
    VisitInv fst visitor filter Holds expanded accessOnly start v log
        (endTree expanded accessOnly start d) ∧
      (∀ t, pending fst (endTree expanded accessOnly start d) t = pending fst d t) ∧
        (endTree expanded accessOnly start d).root = none := by
  obtain ⟨A, hA, hgrey⟩ := h.flagged.held
  have hnone : ∀ s, color d s ≠ .grey := by
    intro s hs
    have hmem := (hgrey s).mpr hs
    rw [(hlaws.isEmpty d.queue A hA).mp hempty] at hmem
    exact Finset.notMem_empty s hmem
  have hrooted := rooted_endTree h.flagged h.rooted hroot hnone
  have hsame : (endTree expanded accessOnly start d).stateStatus = d.stateStatus ∧
      (endTree expanded accessOnly start d).arcIterator = d.arcIterator ∧
        (endTree expanded accessOnly start d).doVisit = d.doVisit ∧
          (endTree expanded accessOnly start d).queue = d.queue ∧
            (endTree expanded accessOnly start d).visitor = d.visitor ∧
              (endTree expanded accessOnly start d).root = none := by
    unfold endTree nextRoot
    dsimp only
    generalize nextIn (fun s => d.stateStatus s = whiteState)
      (if d.rootIdx = start then 0 else d.rootIdx + 1) d.nstates = r
    split
    · exact ⟨rfl, rfl, rfl, rfl, rfl, rfl⟩
    · split
      · split <;> exact ⟨rfl, rfl, rfl, rfl, rfl, rfl⟩
      · exact ⟨rfl, rfl, rfl, rfl, rfl, rfl⟩
  obtain ⟨hstatus, harcs, hdo, hqueue, hvisitor, hroot'⟩ := hsame
  have hcolor : color (endTree expanded accessOnly start d) = color d := by
    funext t
    exact congrArg StateStatus.color (congrFun hstatus t)
  have hrest : ∀ t, rest fst (endTree expanded accessOnly start d) t = rest fst d t := fun t =>
    rest_congr (congrFun hstatus t) (congrFun harcs t)
  refine ⟨⟨⟨hvisitor.trans h.told.heard, hcolor.trans h.told.colored, h.told.timed⟩, ⟨?_, ?_, ?_⟩,
    ⟨h.reported.within, ?_, ?_⟩, hrooted, fun hwilling => hdo.trans (h.willing hwilling)⟩,
    fun t => ?_, hroot'⟩
  · rw [hcolor, hstatus, harcs]
    exact h.flagged.white
  · rw [hstatus, harcs]
    exact h.flagged.done
  · rw [hcolor, hqueue]
    exact h.flagged.held
  · intro hgo t
    rw [hrest]
    exact h.reported.whole (hdo.symm.trans hgo) t
  · intro t
    rw [hrest]
    exact h.reported.suffix t
  · unfold pending
    rw [hcolor, hrest]

theorem inv_visitState (hrange : fst.InRange) (hlaws : Lawful queue Holds)
    (h : VisitInv fst visitor filter Holds expanded accessOnly start v log d)
    (hroot : d.root ≠ none) (root : ℕ) (hs : color d s = .grey)
    (hhead : queue.head d.queue = some s) :
    ∃ es, VisitInv fst visitor filter Holds expanded accessOnly start v (log ++ es)
        (visitState fst visitor queue filter root s d) ∧
      (∀ t, pending fst (visitState fst visitor queue filter root s d) t ≤ pending fst d t) ∧
        pending fst (visitState fst visitor queue filter root s d) s < pending fst d s ∧
          (visitState fst visitor queue filter root s d).root = d.root := by
  have hlt : s < d.nstates := h.rooted.known s (by rw [hs]; decide)
  obtain ⟨hdoOpen, hvisitorOpen, hqueueOpen, hnstatesOpen, hsiterOpen, hrootIdxOpen, hrootOpen⟩ :=
    openIterator_same fst d s
  rcases visitState_cases fst visitor queue filter h.flagged root hs hlt with
    ⟨arc, arcs, hdo, hdone, hrest, heq⟩ | ⟨hrest, heq⟩
  · rw [heq]
    have hs' : color (openIterator fst s d) s = .grey := by
      unfold color
      rw [stateStatus_openIterator]
      exact hs
    have hcolorOpen : color (openIterator fst s d) = color d := by
      unfold color
      rw [stateStatus_openIterator]
    obtain ⟨es, htells, hreported, hrests, hstatus⟩ := walkArc_tells fst visitor filter
      hlaws (flagged_openIterator h.flagged hs) root arc hs' (hdoOpen.trans hdo)
    obtain ⟨hbesideWalk, hnstatesWalk⟩ := walkArc_beside visitor queue
      filter (openIterator fst s d) root s arc
    have hstatus' : (walkArc visitor queue filter root s arc (openIterator fst s d)).stateStatus s =
        d.stateStatus s := by
      rw [hstatus s (Or.inr (by rw [hs']; decide)), stateStatus_openIterator]
    generalize walkArc visitor queue filter root s arc (openIterator fst s d) = walked at *
    have hswalk : color walked s = .grey := (congrArg StateStatus.color hstatus').trans hs
    have hdonewalk : (walked.stateStatus s).arcIterDone = false := by rwa [hstatus']
    obtain ⟨hdoNext, hvisitorNext, hqueueNext, hnstatesNext, hsiterNext, hrootIdxNext, hrootNext⟩ :=
      advanceIterator_same (d := walked) s arcs
    have hnext : arc.nextstate < fst.numStates := by
      refine hrange.arcs s arc ((h.reported.suffix s).subset ?_)
      rw [hrest]
      exact List.mem_cons_self
    have hmove : Tells visitor filter Holds d (advanceIterator s arcs walked) es := by
      refine ⟨?_, ?_, hcolorOpen ▸ htells.timed, ?_, fun hwilling => ?_⟩
      · rw [hvisitorNext, htells.heard, hvisitorOpen]
      · rw [color_advanceIterator, htells.recolored, hcolorOpen]
      · exact flagged_advanceIterator htells.flagged arcs hswalk hdonewalk
      · exact hdoNext.trans (htells.willing hwilling)
    have hbeside : Beside d (advanceIterator s arcs walked) :=
      ⟨hsiterNext.trans (hbesideWalk.siter.trans hsiterOpen),
        hrootIdxNext.trans (hbesideWalk.rootIdx.trans hrootIdxOpen),
        hrootNext.trans (hbesideWalk.root.trans hrootOpen)⟩
    have hrest' : ∀ t, rest fst (advanceIterator s arcs walked) t =
        if t = s then arcs else rest fst d t := by
      intro t
      rw [rest_advanceIterator (by rw [hswalk]; decide) hdonewalk, hrests, rest_openIterator]
    have hcolor' : ∀ t, t ≠ arc.nextstate ∨ color d t ≠ .white →
        color (advanceIterator s arcs walked) t = color d t := by
      intro t ht
      rw [← hcolorOpen] at ht
      rw [color_advanceIterator, ← hcolorOpen]
      exact congrArg StateStatus.color (hstatus t ht)
    have hpending : pending fst (advanceIterator s arcs walked) s < pending fst d s := by
      unfold pending
      rw [hcolor' s (Or.inr (by rw [hs]; decide)), hs, hrest', if_pos rfl, hrest]
      exact Nat.lt_succ_self _
    refine ⟨es, ⟨told_append h.told hmove, hmove.flagged, ?_, ?_, hmove.willing⟩, fun t => ?_,
      hpending, hbeside.root⟩
    · refine reported_move h.reported s [arc] arcs hreported hrest' ?_ (fun _ => hrest)
        fun _ => hdo
      rw [hrest]
      exact List.suffix_cons arc arcs
    · have hnstates : (advanceIterator s arcs walked).nstates =
          max d.nstates (arc.nextstate + 1) := by
        rw [hnstatesNext, hnstatesWalk, hnstatesOpen]
      refine rooted_move h.rooted hbeside hroot ?_ ?_ (fun t ht => ?_) fun t ht => ?_
      · exact hnstates ▸ le_max_left _ _
      · exact hnstates ▸ max_le h.rooted.bound hnext
      · rw [hmove.recolored]
        exact foldl_recolor_ne_white ht es
      · by_cases hts : t = arc.nextstate
        · right
          rw [hnstates, hts]
          exact Nat.lt_of_lt_of_le (Nat.lt_succ_self _) (le_max_right _ _)
        · left
          rwa [hcolor' t (Or.inl hts)] at ht
    · by_cases hts : t = s
      · exact hts ▸ hpending.le
      · refine pending_le ((hrest' t).trans (if_neg hts)) ?_ (h.reported.suffix t)
        by_cases hwhite : color d t = .white
        · exact Or.inr hwhite
        · exact Or.inl (hcolor' t (Or.inr hwhite))
  · rw [heq]
    obtain ⟨htells, hrests⟩ := finish_tells fst filter hlaws h.flagged hs hhead h.willing
    have hbeside : Beside d (finishState visitor queue s (closeIterator s (openIterator fst s d))) :=
      ⟨hsiterOpen, hrootIdxOpen, hrootOpen⟩
    have hblack : color (finishState visitor queue s (closeIterator s (openIterator fst s d))) s =
        .black := by
      rw [htells.recolored]
      exact Function.update_self _ _ _
    have hpending : pending fst
        (finishState visitor queue s (closeIterator s (openIterator fst s d))) s <
          pending fst d s := by
      unfold pending
      rw [hblack, hs]
      exact Nat.succ_pos _
    refine ⟨[.finishState s], ⟨told_append h.told htells, htells.flagged, ?_, ?_, htells.willing⟩,
      fun t => ?_, hpending, hbeside.root⟩
    · refine reported_move h.reported s [] [] (fun t => by simp [reported]) hrests List.nil_suffix
        hrest ?_
      rintro (hgo | hne)
      · exact hdoOpen.symm.trans hgo
      · exact absurd rfl hne
    · refine rooted_move h.rooted hbeside hroot hnstatesOpen.ge ?_ (fun t ht => ?_) fun t ht => ?_
      · exact hnstatesOpen.trans_le h.rooted.bound
      · rw [htells.recolored]
        exact foldl_recolor_ne_white ht _
      · left
        rw [htells.recolored] at ht
        by_cases hts : t = s
        · rw [hts, hs]
          decide
        · simpa [recolor, Function.update_of_ne hts] using ht
    · by_cases hts : t = s
      · exact hts ▸ hpending.le
      · refine pending_le ((hrests t).trans (if_neg hts)) (Or.inl ?_) (h.reported.suffix t)
        rw [htells.recolored]
        exact Function.update_of_ne hts _ _

/- What is still to be done; a tree that is under way is still to be ended. -/
def remaining (fst : VectorFst L W) (d : VisitSearch L W σ Q) : ℕ :=
  2 * ∑ s ∈ Finset.range fst.numStates, pending fst d s + (if d.root = none then 0 else 1)

theorem remaining_lt (hs : s < fst.numStates) (hle : ∀ t, pending fst d' t ≤ pending fst d t)
    (hlt : pending fst d' s < pending fst d s) :
    remaining fst d' < remaining fst d := by
  have hsum : ∑ t ∈ Finset.range fst.numStates, pending fst d' t <
      ∑ t ∈ Finset.range fst.numStates, pending fst d t :=
    Finset.sum_lt_sum (fun t _ => hle t) ⟨s, Finset.mem_range.mpr hs, hlt⟩
  have hflag : (if d'.root = none then 0 else 1) ≤ 1 := by split <;> omega
  unfold remaining
  omega

/- What every round of the visit keeps. -/
def Kept (fst : VectorFst L W) (visitor : Visitor L W σ) (filter : Arc L W → Bool)
    (Holds : Q → Finset ℕ → Prop) (expanded accessOnly : Bool) (start : ℕ) (v : σ)
    (d : VisitSearch L W σ Q) : Prop :=
  ∃ log, VisitInv fst visitor filter Holds expanded accessOnly start v log d

theorem visitStep_kept (hrange : fst.InRange) (hlaws : Lawful queue Holds)
    (h : Kept fst visitor filter Holds expanded accessOnly start v d) :
    visitStep fst expanded visitor queue filter accessOnly start d = .ok none ∨
      ∃ d', visitStep fst expanded visitor queue filter accessOnly start d = .ok (some d') ∧
        Kept fst visitor filter Holds expanded accessOnly start v d' ∧
          remaining fst d' < remaining fst d := by
  obtain ⟨log, hinv⟩ := h
  unfold visitStep
  cases hroot : d.root with
  | none =>
    dsimp only
    split
    next hgo =>
      obtain ⟨hinv', hle, hlt⟩ := inv_startTree hlaws hinv hroot hgo.1 hgo.2
      exact Or.inr ⟨_, rfl, ⟨_, hinv'⟩,
        remaining_lt (hgo.2.trans_le hinv.rooted.bound) hle hlt⟩
    next => exact Or.inl rfl
  | some root =>
    have hsome : d.root ≠ none := by simp [hroot]
    dsimp only
    split
    next hempty =>
      obtain ⟨hinv', hsame, hnone⟩ := inv_endTree hlaws hinv hsome hempty
      refine Or.inr ⟨_, rfl, ⟨log, hinv'⟩, ?_⟩
      have hsum : ∑ s ∈ Finset.range fst.numStates,
          pending fst (endTree expanded accessOnly start d) s =
            ∑ s ∈ Finset.range fst.numStates, pending fst d s :=
        Finset.sum_congr rfl fun s _ => hsame s
      unfold remaining
      rw [hsum, hnone, if_pos rfl, if_neg hsome]
      omega
    next hmore =>
      obtain ⟨A, hA, hgrey⟩ := hinv.flagged.held
      have hA' : A.Nonempty := by
        rw [Finset.nonempty_iff_ne_empty]
        exact fun hnone => hmore ((hlaws.isEmpty d.queue A hA).mpr hnone)
      obtain ⟨s, hmem, hhead, -⟩ := hlaws.head d.queue A hA hA'
      have hs := (hgrey s).mp hmem
      rw [hhead]
      obtain ⟨es, hinv', hle, hlt, -⟩ := inv_visitState hrange hlaws hinv hsome root hs hhead
      refine Or.inr ⟨_, rfl, ⟨_, hinv'⟩, remaining_lt ?_ hle hlt⟩
      exact (hinv.rooted.known s (by rw [hs]; decide)).trans_le hinv.rooted.bound

end Keeping

end Sicada.VisitRuns
