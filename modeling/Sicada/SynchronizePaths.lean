import Sicada.Synchronize

set_option linter.unusedSectionVars false

namespace Sicada.SynchronizePaths

open Synchronize SynchronizeRuns UnfoldLoop Paths Walk Relations

variable {L W : Type} [ArcLabel L]

section Readings

/- What a list of readings shows on each side. -/
def inputs (r : List (L × L × W)) : List L := (r.map (·.1)).filter (· ≠ epsilon)

def outputs (r : List (L × L × W)) : List L := (r.map (·.2.1)).filter (· ≠ epsilon)

/- By how much the output gets ahead. -/
def gap (r : L × L × W) : ℤ :=
  (if r.2.1 = epsilon then 0 else 1) - (if r.1 = epsilon then 0 else 1)

def shown (label : L) : List L := if label = epsilon then [] else [label]

theorem shown_epsilon : shown (epsilon : L) = [] := if_pos rfl

theorem shown_of_ne {label : L} (h : label ≠ epsilon) : shown label = [label] := if_neg h

theorem istring_eq (p : List (ℕ × Arc L W)) : istring p = inputs (p.map reading) := by
  unfold istring inputs
  rw [List.map_map]
  rfl

theorem ostring_eq (p : List (ℕ × Arc L W)) : ostring p = outputs (p.map reading) := by
  unfold ostring outputs
  rw [List.map_map]
  rfl

theorem inputs_cons (x : L × L × W) (r : List (L × L × W)) :
    inputs (x :: r) = shown x.1 ++ inputs r := by
  unfold inputs shown
  rw [List.map_cons, List.filter_cons]
  split <;> simp_all

theorem outputs_cons (x : L × L × W) (r : List (L × L × W)) :
    outputs (x :: r) = shown x.2.1 ++ outputs r := by
  unfold outputs shown
  rw [List.map_cons, List.filter_cons]
  split <;> simp_all

theorem istring_cons (e : ℕ × Arc L W) (a : List (ℕ × Arc L W)) :
    istring (e :: a) = shown e.2.ilabel ++ istring a := by
  rw [istring_eq, istring_eq, List.map_cons, inputs_cons]
  rfl

theorem ostring_cons (e : ℕ × Arc L W) (a : List (ℕ × Arc L W)) :
    ostring (e :: a) = shown e.2.olabel ++ ostring a := by
  rw [ostring_eq, ostring_eq, List.map_cons, outputs_cons]
  rfl

theorem appendOf_eq (string : List L) (label : L) :
    appendOf string label = string ++ shown label := by
  unfold appendOf shown
  split
  · rw [List.append_nil]
  · rfl

theorem shown_headD {string : List L} (h : epsilon ∉ string) :
    shown (string.headD epsilon) ++ string.tail = string := by
  cases string with
  | nil =>
    change shown epsilon ++ [] = []
    rw [shown_epsilon, List.append_nil]
  | cons label string =>
    have hne : label ≠ epsilon := fun heq => h (heq ▸ List.mem_cons_self)
    change shown label ++ string = _
    rw [shown_of_ne hne]
    rfl

theorem headD_eq_epsilon {string : List L} (h : epsilon ∉ string) :
    string.headD epsilon = epsilon ↔ string = [] := by
  cases string with
  | nil => exact ⟨fun _ => rfl, fun _ => rfl⟩
  | cons label string =>
    constructor
    · intro heq
      exact absurd (List.mem_cons.mpr (Or.inl heq.symm)) h
    · exact fun heq => absurd heq (List.cons_ne_nil _ _)

theorem epsilon_notMem_appendOf {string : List L} (h : epsilon ∉ string) (label : L) :
    epsilon ∉ appendOf string label := by
  unfold appendOf
  split
  · exact h
  · next hne =>
    intro hmem
    rcases List.mem_append.mp hmem with hmem | hmem
    · exact h hmem
    · exact hne (List.mem_singleton.mp hmem).symm

theorem tail_appendOf_nil (label : L) : (appendOf [] label).tail = [] := by
  unfold appendOf
  split <;> rfl

end Readings

/- At most one side holds something back, and never an epsilon. -/
structure Residual (held : Held L) : Prop where
  either : held.istring = [] ∨ held.ostring = []
  istring : epsilon ∉ held.istring
  ostring : epsilon ∉ held.ostring

/- What a move shows and goes on holding back is what was held back before it and `i` and `o`. -/
structure Moves (held : Held L) (i o : List L) (move : UnfoldMove (Held L) L W) : Prop where
  residual : Residual move.dest
  istring : shown move.ilabel ++ move.dest.istring = held.istring ++ i
  ostring : shown move.olabel ++ move.dest.ostring = held.ostring ++ o

section Graph

variable [PreSemiring W] [DecidableEq W] {ifst : VectorFst L W}

variable {held : Held L} {x : ℕ × UnfoldMove (Held L) L W} {p : List (ℕ × UnfoldMove (Held L) L W)}
  {state : ℕ}

theorem moves_heldMove (h : Residual held) (arc : Arc L W) :
    Moves held (shown arc.ilabel) (shown arc.olabel) (heldMove held arc) ∧
      ((heldMove held arc).ilabel = epsilon ↔ (heldMove held arc).olabel = epsilon) := by
  have hi := epsilon_notMem_appendOf h.istring arc.ilabel
  have ho := epsilon_notMem_appendOf h.ostring arc.olabel
  by_cases hboth : appendOf held.istring arc.ilabel ≠ [] ∧ appendOf held.ostring arc.olabel ≠ []
  · rw [heldMove_of_both hboth.1 hboth.2]
    refine ⟨⟨⟨?_, fun hmem => hi (List.mem_of_mem_tail hmem),
      fun hmem => ho (List.mem_of_mem_tail hmem)⟩, ?_, ?_⟩, ?_⟩
    · apply h.either.imp
      · intro hnil
        rw [hnil]
        exact tail_appendOf_nil _
      · intro hnil
        rw [hnil]
        exact tail_appendOf_nil _
    · rw [← appendOf_eq]
      exact shown_headD hi
    · rw [← appendOf_eq]
      exact shown_headD ho
    · dsimp only
      rw [headD_eq_epsilon hi, headD_eq_epsilon ho]
      exact ⟨fun heq => absurd heq hboth.1, fun heq => absurd heq hboth.2⟩
  · have heither : appendOf held.istring arc.ilabel = [] ∨ appendOf held.ostring arc.olabel = [] := by
      by_contra hne
      rw [not_or] at hne
      exact hboth hne
    rw [heldMove_of_not hboth]
    refine ⟨⟨⟨heither, hi, ho⟩, ?_, ?_⟩, Iff.rfl⟩
    · rw [← appendOf_eq, shown_epsilon, List.nil_append]
    · rw [← appendOf_eq, shown_epsilon, List.nil_append]

variable (ifst) in
theorem moves_payMove {held : Held L} (h : Residual held) :
    Moves held [] [] (payMove ifst held) := by
  refine ⟨⟨?_, fun hmem => h.istring (List.mem_of_mem_tail hmem),
    fun hmem => h.ostring (List.mem_of_mem_tail hmem)⟩, ?_, ?_⟩
  · apply h.either.imp
    · intro hnil
      exact congrArg List.tail hnil
    · intro hnil
      exact congrArg List.tail hnil
  · rw [List.append_nil]
    exact shown_headD h.istring
  · rw [List.append_nil]
    exact shown_headD h.ostring

theorem heldMove_weight (held : Held L) (arc : Arc L W) :
    (heldMove held arc).weight = arc.weight := by
  unfold heldMove
  dsimp only
  split <;> rfl

theorem heldMove_state (held : Held L) (arc : Arc L W) :
    (heldMove held arc).dest.state = some arc.nextstate := by
  unfold heldMove
  dsimp only
  split <;> rfl

/- The edges of a state: those of its arcs, and after them the one that pays out. -/
theorem taken_iff :
    Taken (heldOut ifst) held x ↔
      (∃ arc, (heldArcs ifst held)[x.1]? = some arc ∧ x.2 = heldMove held arc) ∨
      (x = ((heldArcs ifst held).length, payMove ifst held) ∧
        endWeight ifst held.state ≠ 0 ∧ ¬ Empty held) := by
  obtain ⟨i, m⟩ := x
  unfold Taken heldOut
  dsimp only
  rcases Nat.lt_or_ge i (heldArcs ifst held).length with hlt | hle
  · rw [List.getElem?_append_left (by rwa [List.length_map]), List.getElem?_map,
      List.getElem?_eq_getElem hlt]
    constructor
    · intro h
      exact Or.inl ⟨_, rfl, (Option.some.inj h).symm⟩
    · rintro (⟨arc, harc, rfl⟩ | ⟨heq, -⟩)
      · rw [← Option.some.inj harc]
        rfl
      · exact absurd (congrArg Prod.fst heq) hlt.ne
  · rw [List.getElem?_append_right (by rwa [List.length_map]), List.length_map]
    unfold payMoves
    rw [List.getElem?_eq_none hle]
    split
    · next hpay =>
      constructor
      · intro h
        have hi : i - (heldArcs ifst held).length = 0 := by
          have hlt := (List.getElem?_eq_some_iff.mp h).1
          rw [List.length_singleton] at hlt
          omega
        rw [hi] at h
        have heq : i = (heldArcs ifst held).length := by omega
        exact Or.inr ⟨Prod.ext heq (Option.some.inj h).symm, hpay⟩
      · rintro (⟨arc, harc, -⟩ | ⟨heq, -⟩)
        · cases harc
        · obtain ⟨rfl, rfl⟩ := Prod.mk.inj heq
          rw [Nat.sub_self]
          rfl
    · next hpay =>
      constructor
      · intro h
        cases h
      · rintro (⟨arc, harc, -⟩ | ⟨-, hboth⟩)
        · cases harc
        · exact absurd hboth hpay

/- The walks of the graph that the result accepts. -/
abbrev heldPaths (ifst : VectorFst L W) (held : Held L) :
    Set (List (ℕ × UnfoldMove (Held L) L W)) :=
  unfoldedPaths (heldOut ifst) (heldFinal ifst) held

/- A walk that begins with no arc of the input. -/
def Paying (ifst : VectorFst L W) (held : Held L) (p : List (ℕ × UnfoldMove (Held L) L W)) :
    Prop := ∀ x ∈ p.head?, (heldArcs ifst held).length ≤ x.1

def moveWeight (ifst : VectorFst L W) (held : Held L)
    (p : List (ℕ × UnfoldMove (Held L) L W)) : W :=
  (p.map (·.2.weight)).prod * heldFinal ifst (walkEnd lead held p)

def moveGaps (p : List (ℕ × UnfoldMove (Held L) L W)) : List ℤ :=
  p.map fun x => gap (moveReading x)

/- What a walk that pays out shows. -/
structure Pays (ifst : VectorFst L W) (held : Held L) (p : List (ℕ × UnfoldMove (Held L) L W)) :
    Prop where
  inputs : inputs (p.map moveReading) = held.istring
  outputs : outputs (p.map moveReading) = held.ostring
  weight : moveWeight ifst held p = endWeight ifst held.state
  forward : held.istring = [] → moveGaps p = List.replicate p.length 1
  backward : held.ostring = [] → moveGaps p = List.replicate p.length (-1)

theorem moveWeight_cons (held : Held L) (x : ℕ × UnfoldMove (Held L) L W)
    (p : List (ℕ × UnfoldMove (Held L) L W)) :
    moveWeight ifst held (x :: p) = x.2.weight * moveWeight ifst x.2.dest p := by
  unfold moveWeight
  rw [List.map_cons, List.prod_cons, mul_assoc]
  rfl

theorem heldFinal_ne_zero :
    heldFinal ifst held ≠ 0 ↔ Empty held ∧ endWeight ifst held.state ≠ 0 := by
  unfold heldFinal
  split
  · next hempty => exact ⟨fun h => ⟨hempty, h⟩, fun h => h.2⟩
  · next hempty => exact ⟨fun h => absurd rfl h, fun h => absurd h.1 hempty⟩

theorem nil_mem_heldPaths :
    [] ∈ heldPaths ifst held ↔ Empty held ∧ endWeight ifst held.state ≠ 0 :=
  nil_mem_acceptedFrom.trans heldFinal_ne_zero

theorem cons_mem_heldPaths : x :: p ∈ heldPaths ifst held ↔
      Taken (heldOut ifst) held x ∧ p ∈ heldPaths ifst x.2.dest := cons_mem_acceptedFrom

variable (ifst) in
theorem gap_payMove {held : Held L} (h : Residual held) (hempty : ¬ Empty held) (i : ℕ) :
    (held.istring = [] → gap (moveReading (i, payMove ifst held)) = 1) ∧
      (held.ostring = [] → gap (moveReading (i, payMove ifst held)) = -1) := by
  constructor
  · intro hnil
    have hi := (headD_eq_epsilon h.istring).mpr hnil
    have ho := mt (headD_eq_epsilon h.ostring).mp fun honil => hempty ⟨hnil, honil⟩
    change (if held.ostring.headD epsilon = epsilon then 0 else 1) -
      (if held.istring.headD epsilon = epsilon then 0 else 1) = (1 : ℤ)
    rw [if_pos hi, if_neg ho, sub_zero]
  · intro honil
    have ho := (headD_eq_epsilon h.ostring).mpr honil
    have hi := mt (headD_eq_epsilon h.istring).mp fun hnil => hempty ⟨hnil, honil⟩
    change (if held.ostring.headD epsilon = epsilon then 0 else 1) -
      (if held.istring.headD epsilon = epsilon then 0 else 1) = (-1 : ℤ)
    rw [if_neg hi, if_pos ho, zero_sub]

theorem pays_nil (hempty : Empty held) : Pays ifst held [] := by
  refine ⟨hempty.1.symm, hempty.2.symm, ?_, fun _ => rfl, fun _ => rfl⟩
  exact (one_mul _).trans (if_pos hempty)

theorem Pays.cons (h : Residual held) (hempty : ¬ Empty held)
    (hp : Pays ifst (payMove ifst held).dest p) (i : ℕ) :
    Pays ifst held ((i, payMove ifst held) :: p) := by
  obtain ⟨hforward, hbackward⟩ := gap_payMove ifst h hempty i
  have hmoves := moves_payMove ifst h
  constructor
  · rw [List.map_cons, inputs_cons, hp.inputs]
    exact hmoves.istring.trans (List.append_nil _)
  · rw [List.map_cons, outputs_cons, hp.outputs]
    exact hmoves.ostring.trans (List.append_nil _)
  · rw [moveWeight_cons, hp.weight]
    exact mul_one _
  · intro hnil
    unfold moveGaps
    rw [List.map_cons, hforward hnil, List.length_cons, List.replicate_succ]
    exact congrArg (List.cons 1) (hp.forward (congrArg List.tail hnil))
  · intro hnil
    unfold moveGaps
    rw [List.map_cons, hbackward hnil, List.length_cons, List.replicate_succ]
    exact congrArg (List.cons (-1)) (hp.backward (congrArg List.tail hnil))

variable (ifst) in
theorem length_payMove {held : Held L} (hempty : ¬ Empty held) :
    (payMove ifst held).dest.istring.length + (payMove ifst held).dest.ostring.length <
      held.istring.length + held.ostring.length := by
  have hlt : 0 < held.istring.length + held.ostring.length := by
    by_contra hzero
    apply hempty
    constructor
    · exact List.length_eq_zero_iff.mp (by omega)
    · exact List.length_eq_zero_iff.mp (by omega)
  change held.istring.tail.length + held.ostring.tail.length < _
  rw [List.length_tail, List.length_tail]
  omega

/- There is one walk that pays out what is held. -/
theorem exists_pays (hone : (1 : W) ≠ 0) (h : Residual held)
    (hfinal : endWeight ifst held.state ≠ 0) : ∃ p, Pays ifst held p ∧
      ∀ q, q ∈ heldPaths ifst held ∧ Paying ifst held q ↔ q = p := by
  induction hn : held.istring.length + held.ostring.length using Nat.strong_induction_on
    generalizing held with
  | _ n ih =>
    have hpay : ∀ (x : ℕ × UnfoldMove (Held L) L W) (q : List (ℕ × UnfoldMove (Held L) L W)),
        x :: q ∈ heldPaths ifst held ∧ Paying ifst held (x :: q) ↔
          x = ((heldArcs ifst held).length, payMove ifst held) ∧ ¬ Empty held ∧
            q ∈ heldPaths ifst (payMove ifst held).dest := by
      intro x q
      rw [cons_mem_heldPaths, taken_iff]
      constructor
      · rintro ⟨⟨⟨arc, harc, -⟩ | ⟨rfl, -, hempty⟩, hq⟩, hpaying⟩
        · have hle : (heldArcs ifst held).length ≤ x.1 := hpaying x rfl
          rw [List.getElem?_eq_none hle] at harc
          cases harc
        · exact ⟨rfl, hempty, hq⟩
      · rintro ⟨rfl, hempty, hq⟩
        refine ⟨⟨Or.inr ⟨rfl, hfinal, hempty⟩, hq⟩, fun x hx => ?_⟩
        rw [← Option.some.inj hx]
    by_cases hempty : Empty held
    · refine ⟨[], pays_nil hempty, fun q => ?_⟩
      cases q with
      | nil =>
        have hmem := nil_mem_heldPaths.mpr ⟨hempty, hfinal⟩
        exact ⟨fun _ => rfl, fun _ => ⟨hmem, fun x hx => by cases hx⟩⟩
      | cons x q =>
        rw [hpay]
        constructor
        · exact fun hq => absurd hempty hq.2.1
        · exact fun hq => absurd hq (List.cons_ne_nil x q)
    · have hlt := hn ▸ length_payMove ifst hempty
      obtain ⟨p, hp, honly⟩ := ih _ hlt (moves_payMove _ h).residual hone rfl
      refine ⟨((heldArcs ifst held).length, payMove ifst held) :: p, hp.cons h hempty _,
        fun q => ?_⟩
      cases q with
      | nil =>
        constructor
        · rintro ⟨hq, -⟩
          exact absurd (nil_mem_heldPaths.mp hq).1 hempty
        · intro hq
          cases hq
      | cons x q =>
        have hpaying : Paying ifst (payMove ifst held).dest q := fun x _ => Nat.zero_le _
        rw [hpay, List.cons.injEq, ← honly q]
        constructor
        · exact fun hq => ⟨hq.1, hq.2.2, hpaying⟩
        · exact fun hq => ⟨hq.1, hempty, hq.2.1⟩

/- The path of the input that a walk has taken. -/
def arcsOf (ifst : VectorFst L W) :
    Held L → List (ℕ × UnfoldMove (Held L) L W) → List (ℕ × Arc L W)
  | _, [] => []
  | held, x :: p =>
    match (heldArcs ifst held)[x.1]? with
    | some arc => (x.1, arc) :: arcsOf ifst x.2.dest p
    | none => []

/- What a walk shows, against the path of the input that it takes from `state`. -/
structure Shows (ifst : VectorFst L W) (held : Held L) (state : ℕ) (a : List (ℕ × Arc L W))
    (p : List (ℕ × UnfoldMove (Held L) L W)) : Prop where
  inputs : inputs (p.map moveReading) = held.istring ++ istring a
  outputs : outputs (p.map moveReading) = held.ostring ++ ostring a
  weight : moveWeight ifst held p = arcsWeight a * ifst.finalWeight (walkEnd follow state a)
  gaps : ∃ (k n : ℕ) (c : ℤ), |c| = 1 ∧ moveGaps p = List.replicate k 0 ++ List.replicate n c

theorem arcsOf_eq_nil :
    arcsOf ifst held p = [] ↔ Paying ifst held p := by
  cases p with
  | nil => exact ⟨fun _ x hx => (Option.not_mem_none x hx).elim, fun _ => rfl⟩
  | cons x p =>
    unfold Paying
    rw [List.head?_cons, arcsOf]
    constructor
    · intro h y hy
      obtain rfl := Option.some.inj hy
      cases hget : (heldArcs ifst held)[x.1]? with
      | none => exact List.getElem?_eq_none_iff.mp hget
      | some arc =>
        rw [hget] at h
        cases h
    · intro h
      rw [List.getElem?_eq_none (h x rfl)]

theorem arcsOf_cons {arc : Arc L W} (hget : (heldArcs ifst held)[x.1]? = some arc)
    (p : List (ℕ × UnfoldMove (Held L) L W)) :
    arcsOf ifst held (x :: p) = (x.1, arc) :: arcsOf ifst x.2.dest p := by
  rw [arcsOf, hget]

theorem arcsOf_mem (hstate : held.state = some state) (hp : p ∈ heldPaths ifst held) :
    arcsOf ifst held p ∈ acceptingFrom ifst state := by
  have hend : endWeight ifst held.state = ifst.finalWeight state := by
    rw [hstate]
    rfl
  have harcs : heldArcs ifst held = ifst.arcs state := by
    unfold heldArcs
    rw [hstate]
  induction p generalizing held state with
  | nil =>
    have hfinal := (nil_mem_heldPaths.mp hp).2
    rw [hend] at hfinal
    exact nil_mem_acceptingFrom.mpr hfinal
  | cons x p ih =>
    obtain ⟨htaken, hp⟩ := cons_mem_heldPaths.mp hp
    rcases taken_iff.mp htaken with ⟨arc, harc, hmove⟩ | ⟨rfl, hfinal, -⟩
    · have hnext : x.2.dest.state = some arc.nextstate := by
        rw [hmove]
        exact heldMove_state held arc
      rw [arcsOf_cons harc]
      rw [harcs] at harc
      refine cons_mem_acceptingFrom.mpr ⟨harc, ih hnext hp ?_ ?_⟩
      · rw [hnext]
        rfl
      · unfold heldArcs
        rw [hnext]
    · have hpaying : Paying ifst held (((heldArcs ifst held).length, payMove ifst held) :: p) := by
        intro x hx
        rw [← Option.some.inj hx]
      rw [arcsOf_eq_nil.mpr hpaying]
      rw [hend] at hfinal
      exact nil_mem_acceptingFrom.mpr hfinal

theorem shows_nil (h : Residual held) (hstate : held.state = some state) (hp : Pays ifst held p) :
    Shows ifst held state [] p := by
  constructor
  · exact hp.inputs.trans (List.append_nil _).symm
  · exact hp.outputs.trans (List.append_nil _).symm
  · rw [hp.weight, hstate]
    exact (one_mul _).symm
  · rcases h.either with hnil | hnil
    · exact ⟨0, _, 1, by decide, hp.forward hnil⟩
    · exact ⟨0, _, -1, by decide, hp.backward hnil⟩

theorem Shows.cons (h : Residual held) {arc : Arc L W} {a : List (ℕ × Arc L W)}
    (hp : Shows ifst (heldMove held arc).dest arc.nextstate a p) (i : ℕ) :
    Shows ifst held state ((i, arc) :: a) ((i, heldMove held arc) :: p) := by
  obtain ⟨hmoves, hbalance⟩ := moves_heldMove h arc
  constructor
  · rw [List.map_cons, inputs_cons, hp.inputs, istring_cons, ← List.append_assoc,
      ← List.append_assoc]
    exact congrArg (· ++ istring a) hmoves.istring
  · rw [List.map_cons, outputs_cons, hp.outputs, ostring_cons, ← List.append_assoc,
      ← List.append_assoc]
    exact congrArg (· ++ ostring a) hmoves.ostring
  · rw [moveWeight_cons, hp.weight]
    dsimp only
    rw [heldMove_weight]
    unfold arcsWeight
    rw [List.map_cons, List.prod_cons, mul_assoc]
    rfl
  · obtain ⟨k, n, c, hc, hgaps⟩ := hp.gaps
    refine ⟨k + 1, n, c, hc, ?_⟩
    have hzero : gap (moveReading (i, heldMove held arc)) = 0 := by
      unfold gap moveReading
      dsimp only
      by_cases heps : (heldMove held arc).ilabel = epsilon
      · rw [if_pos heps, if_pos (hbalance.mp heps), sub_zero]
      · rw [if_neg heps, if_neg (mt hbalance.mpr heps), sub_self]
    unfold moveGaps at hgaps ⊢
    rw [List.map_cons, hzero, hgaps, List.replicate_succ, List.cons_append]

/- One walk of the graph takes a path of the input. -/
theorem exists_shows (hone : (1 : W) ≠ 0) (h : Residual held) (hstate : held.state = some state)
    {a : List (ℕ × Arc L W)} (ha : a ∈ acceptingFrom ifst state) : ∃ p, Shows ifst held state a p ∧
      ∀ q, q ∈ heldPaths ifst held ∧ arcsOf ifst held q = a ↔ q = p := by
  induction a generalizing held state with
  | nil =>
    have hfinal : endWeight ifst held.state ≠ 0 := by
      rw [hstate]
      exact nil_mem_acceptingFrom.mp ha
    obtain ⟨p, hp, honly⟩ := exists_pays hone h hfinal
    refine ⟨p, shows_nil h hstate hp, fun q => ?_⟩
    rw [← honly q, arcsOf_eq_nil]
  | cons e a ih =>
    obtain ⟨harc, ha⟩ := cons_mem_acceptingFrom.mp ha
    have hheld : (heldArcs ifst held)[e.1]? = some e.2 := by
      unfold heldArcs
      rw [hstate]
      exact harc
    obtain ⟨p, hp, honly⟩ := ih (moves_heldMove h e.2).1.residual (heldMove_state held e.2) ha
    refine ⟨(e.1, heldMove held e.2) :: p, hp.cons h e.1, fun q => ?_⟩
    constructor
    · rintro ⟨hq, heq⟩
      cases q with
      | nil => cases heq
      | cons x q =>
        obtain ⟨htaken, hq⟩ := cons_mem_heldPaths.mp hq
        rcases taken_iff.mp htaken with ⟨arc, hget, hmove⟩ | ⟨rfl, -, -⟩
        · rw [arcsOf_cons hget] at heq
          obtain ⟨rfl, hrest⟩ := List.cons.inj heq
          dsimp only at honly ⊢
          rw [← hmove] at honly ⊢
          rw [(honly q).mp ⟨hq, hrest⟩]
        · rw [arcsOf_eq_nil.mpr fun x hx => (Option.some.inj hx) ▸ Nat.le_refl _] at heq
          cases heq
    · rintro rfl
      obtain ⟨hp, heq⟩ := (honly p).mpr rfl
      refine ⟨cons_mem_heldPaths.mpr ⟨taken_iff.mpr (Or.inl ⟨e.2, hheld, rfl⟩), hp⟩, ?_⟩
      rw [arcsOf_cons hheld]
      exact congrArg (e :: ·) heq

/- The walks stand one to one for the paths of the input that they take. -/
variable (ifst) in
theorem bijOn_arcsOf (hone : (1 : W) ≠ 0) {held : Held L} (h : Residual held) {state : ℕ}
    (hstate : held.state = some state) :
    Set.BijOn (arcsOf ifst held) (heldPaths ifst held) (acceptingFrom ifst state) := by
  refine ⟨fun p hp => arcsOf_mem hstate hp, fun p hp q hq heq => ?_, fun a ha => ?_⟩
  · obtain ⟨r, -, honly⟩ := exists_shows hone h hstate (arcsOf_mem hstate hp)
    rw [(honly p).mp ⟨hp, rfl⟩, (honly q).mp ⟨hq, heq.symm⟩]
  · obtain ⟨r, -, honly⟩ := exists_shows hone h hstate ha
    exact ⟨r, (honly r).mpr rfl⟩

theorem shows_arcsOf (hone : (1 : W) ≠ 0) (h : Residual held) (hstate : held.state = some state)
    (hp : p ∈ heldPaths ifst held) : Shows ifst held state (arcsOf ifst held p) p := by
  obtain ⟨r, hr, honly⟩ := exists_shows hone h hstate (arcsOf_mem hstate hp)
  have hsame : p = r := (honly p).mp ⟨hp, rfl⟩
  rwa [← hsame] at hr

end Graph

end Sicada.SynchronizePaths
