import Sicada.CcVisitors
import Sicada.DfsRuns

set_option linter.unusedSectionVars false

namespace Sicada.SccRuns

open Relation DfsVisit DfsRuns CcVisitors SccVisitor

variable {L W : Type} [ArcLabel L] [Zero W] [DecidableEq W]

def Follows (fst : VectorFst L W) (filter : Arc L W → Bool) (s t : ℕ) : Prop :=
  ∃ arc ∈ fst.arcs s, filter arc = true ∧ arc.nextstate = t

abbrev Reaches (fst : VectorFst L W) (filter : Arc L W → Bool) : ℕ → ℕ → Prop :=
  ReflTransGen (Follows fst filter)

/- The frames of the search without the arcs they still hold. -/
abbrev Trail (L W : Type) := List (ℕ × Option (ℕ × Arc L W))

def trailOf (stack : List (DfsFrame L W)) : Trail L W :=
  stack.map fun frame => (frame.stateId, frame.enteredBy)

/- Tarjan's invariant, over the colours, the frames and the arcs walked. -/
structure Tarjan (fst : VectorFst L W) (filter : Arc L W → Bool) (color : ℕ → StateColor)
    (trail : Trail L W) (walked : ℕ → Arc L W → Prop) (v : SccVisitor) : Prop where
  onstack : ∀ s, v.onstack s = true ↔ s ∈ v.sccStack
  visited : ∀ s ∈ v.sccStack, color s ≠ .white
  frames : (trail.map Prod.fst).Sublist v.sccStack
  sorted : v.sccStack.Pairwise fun s t => v.dfnumber t < v.dfnumber s
  numbered : ∀ s, color s ≠ .white → v.dfnumber s < v.nstates
  descends : ∀ g ∈ trail.map Prod.fst, ∀ x ∈ v.sccStack, v.dfnumber g ≤ v.dfnumber x →
    Reaches fst filter g x
  lowlink_le : ∀ s ∈ v.sccStack, v.lowlink s ≤ v.dfnumber s
  lowlink_sound : ∀ s ∈ v.sccStack, ∃ t ∈ v.sccStack, Reaches fst filter s t ∧
    v.dfnumber t = v.lowlink s
  lowlink_black : ∀ s ∈ v.sccStack, s ∉ trail.map Prod.fst → v.lowlink s < v.dfnumber s
  -- what is walked from a state is accounted for at the nearest frame below that state
  lowlink_complete : ∀ g ∈ trail.map Prod.fst, ∀ x ∈ v.sccStack, v.dfnumber g ≤ v.dfnumber x →
    (∀ g' ∈ trail.map Prod.fst, v.dfnumber g' ≤ v.dfnumber x → v.dfnumber g' ≤ v.dfnumber g) →
    ∀ arc, walked x arc → arc.nextstate ∈ v.sccStack → v.lowlink g ≤ v.dfnumber arc.nextstate
  closed : ∀ s, color s ≠ .white → s ∉ v.sccStack → ∀ t, Follows fst filter s t →
    color t ≠ .white ∧ t ∉ v.sccStack
  -- only the arc that entered a frame leads from below it to it or above it
  older : ∀ entry ∈ trail, ∀ u ∈ v.sccStack, v.dfnumber u < v.dfnumber entry.1 →
    ∀ arc, walked u arc → arc.nextstate ∈ v.sccStack →
      v.dfnumber arc.nextstate < v.dfnumber entry.1 ∨ entry = (arc.nextstate, some (u, arc))

section Steps

variable {fst : VectorFst L W} {filter : Arc L W → Bool} {color : ℕ → StateColor}
  {trail : Trail L W} {walked walked' : ℕ → Arc L W → Prop} {v v' : SccVisitor}

theorem tarjan_mono (h : Tarjan fst filter color trail walked v)
    (hwalked : ∀ u arc, walked' u arc → walked u arc) :
    Tarjan fst filter color trail walked' v :=
  { h with
    lowlink_complete := fun g hg x hx hle hnearest arc harc hnext =>
      h.lowlink_complete g hg x hx hle hnearest arc (hwalked x arc harc) hnext
    older := fun entry hentry u hu hlt arc harc hnext =>
      h.older entry hentry u hu hlt arc (hwalked u arc harc) hnext }

/- The fields of the visitor the invariant speaks of. -/
def SameStack (v v' : SccVisitor) : Prop :=
  v'.onstack = v.onstack ∧ v'.sccStack = v.sccStack ∧ v'.dfnumber = v.dfnumber ∧
    v'.lowlink = v.lowlink ∧ v'.nstates = v.nstates

theorem tarjan_same (h : Tarjan fst filter color trail walked v)
    (hsame : SameStack v v') : Tarjan fst filter color trail walked v' := by
  obtain ⟨hon, hstack, hdf, hlow, hn⟩ := hsame
  constructor <;> simp only [hon, hstack, hdf, hlow, hn]
  · exact h.onstack
  · exact h.visited
  · exact h.frames
  · exact h.sorted
  · exact h.numbered
  · exact h.descends
  · exact h.lowlink_le
  · exact h.lowlink_sound
  · exact h.lowlink_black
  · exact h.lowlink_complete
  · exact h.closed
  · exact h.older

theorem sameStack_finalCoaccess (isMember : W → Bool) (want : Bool) (s : ℕ) :
    SameStack v (v.finalCoaccess isMember want fst s) := by
  unfold finalCoaccess
  split <;> exact ⟨rfl, rfl, rfl, rfl, rfl⟩

theorem sameStack_passCoaccess (want : Bool) (s t : ℕ) :
    SameStack v (v.passCoaccess want s t) := by
  unfold passCoaccess
  split <;> exact ⟨rfl, rfl, rfl, rfl, rfl⟩

variable {s : ℕ} {e : Option (ℕ × Arc L W)} {stack : List ℕ}

theorem dfnumber_inj (h : Tarjan fst filter color trail walked v) {t : ℕ} (hs : s ∈ v.sccStack)
    (ht : t ∈ v.sccStack) (heq : v.dfnumber s = v.dfnumber t) : s = t := by
  by_contra hne
  have hpair : v.sccStack.Pairwise fun s t => v.dfnumber s ≠ v.dfnumber t :=
    h.sorted.imp fun hlt heq => absurd heq hlt.ne'
  have hsymm : Std.Symm fun s t => v.dfnumber s ≠ v.dfnumber t := ⟨fun _ _ hxy => Ne.symm hxy⟩
  exact hpair.forall hs ht hne heq

theorem mem_of_trail (h : Tarjan fst filter color trail walked v) {g : ℕ}
    (hg : g ∈ trail.map Prod.fst) : g ∈ v.sccStack := h.frames.subset hg

/- The frame on top is the newest. -/
theorem le_top (h : Tarjan fst filter color ((s, e) :: trail) walked v) {g : ℕ}
    (hg : g ∈ trail.map Prod.fst) : v.dfnumber g < v.dfnumber s := by
  have hpair := h.sorted.sublist h.frames
  rw [List.map_cons] at hpair
  exact (List.pairwise_cons.mp hpair).1 g hg

theorem nearest_top (h : Tarjan fst filter color ((s, e) :: trail) walked v) :
    ∀ g ∈ ((s, e) :: trail).map Prod.fst, v.dfnumber g ≤ v.dfnumber s := by
  intro g hg
  rcases List.mem_cons.mp hg with rfl | hg
  · exact le_rfl
  · exact (le_top h hg).le

/- A new state on top of the stack. -/
theorem tarjan_push {start : Option ℕ} {root : ℕ} (h : Tarjan fst filter color trail walked v)
    (hwhite : color s = .white)
    (hreached : ∀ u arc, walked u arc → color u ≠ .white ∧ color arc.nextstate ≠ .white)
    (hwalked : ∀ u arc, walked' u arc → walked u arc ∨ (arc.nextstate = s ∧ e = some (u, arc)))
    (henter : trail = [] ∧ e = none ∨ ∃ p arc e' rest, trail = (p, e') :: rest ∧
      e = some (p, arc) ∧ Follows fst filter p s) :
    Tarjan fst filter (Function.update color s .grey) ((s, e) :: trail) walked'
      (v.initState start s root).2 := by
  have hne : ∀ t, color t ≠ .white → t ≠ s := by
    rintro t ht rfl
    exact ht hwhite
  have hnew : s ∉ v.sccStack := fun hmem => h.visited s hmem hwhite
  have hdf : ∀ t, color t ≠ .white →
      Function.update v.dfnumber s v.nstates t = v.dfnumber t :=
    fun t ht => Function.update_of_ne (hne t ht) _ _
  have hlow : ∀ t, color t ≠ .white →
      Function.update v.lowlink s v.nstates t = v.lowlink t :=
    fun t ht => Function.update_of_ne (hne t ht) _ _
  have hself : Function.update v.dfnumber s v.nstates s = v.nstates := Function.update_self _ _ _
  have hlowself : Function.update v.lowlink s v.nstates s = v.nstates := Function.update_self _ _ _
  have htrail : ∀ g ∈ trail.map Prod.fst, color g ≠ .white :=
    fun g hg => h.visited g (mem_of_trail h hg)
  have hcolor : ∀ t, color t ≠ .white → Function.update color s .grey t ≠ .white :=
    fun t ht => coloured_update (by simp) ht
  constructor <;> simp only [initState, List.map_cons, List.mem_cons]
  · intro t
    rw [Function.update_apply]
    split
    next heq => simp [heq]
    next hneq => simp [hneq, h.onstack t]
  · rintro t (rfl | ht)
    · simp
    · exact hcolor t (h.visited t ht)
  · exact h.frames.cons_cons s
  · refine List.pairwise_cons.mpr ⟨?_, ?_⟩
    · intro t ht
      rw [hself, hdf t (h.visited t ht)]
      exact h.numbered t (h.visited t ht)
    · refine h.sorted.imp_of_mem ?_
      intro a b ha hb hlt
      rwa [hdf a (h.visited a ha), hdf b (h.visited b hb)]
  · intro t ht
    by_cases heq : t = s
    · rw [heq, hself]
      exact Nat.lt_succ_self _
    · rw [Function.update_of_ne heq] at ht
      rw [Function.update_of_ne heq]
      exact Nat.lt_succ_of_lt (h.numbered t ht)
  · rintro g (rfl | hg) x (rfl | hx) hle
    · exact ReflTransGen.refl
    · rw [hself, hdf x (h.visited x hx)] at hle
      exact absurd (h.numbered x (h.visited x hx)) (Nat.not_lt_of_le hle)
    · rcases henter with ⟨rfl, -⟩ | ⟨p, arc, e', rest, rfl, -, hfollows⟩
      · cases hg
      · have hp : p ∈ v.sccStack := mem_of_trail h (by simp)
        exact (h.descends g hg p hp (nearest_top h g hg)).tail hfollows
    · rw [hdf g (htrail g hg), hdf x (h.visited x hx)] at hle
      exact h.descends g hg x hx hle
  · rintro t (rfl | ht)
    · rw [hself, hlowself]
    · rw [hdf t (h.visited t ht), hlow t (h.visited t ht)]
      exact h.lowlink_le t ht
  · rintro t (rfl | ht)
    · exact ⟨t, .inl rfl, ReflTransGen.refl, by rw [hself, hlowself]⟩
    · obtain ⟨y, hy, hty, heq⟩ := h.lowlink_sound t ht
      refine ⟨y, .inr hy, hty, ?_⟩
      rw [hdf y (h.visited y hy), hlow t (h.visited t ht)]
      exact heq
  · rintro t (rfl | ht) hframe
    · exact absurd (Or.inl rfl) hframe
    · rw [hdf t (h.visited t ht), hlow t (h.visited t ht)]
      exact h.lowlink_black t ht fun hmem => hframe (.inr hmem)
  · intro g hg x hx hle hnearest arc harc hnext
    rcases hnext with heq | hnext
    · -- the new state has the highest number of all
      rw [heq, hself]
      rcases hg with rfl | hg
      · rw [hlowself]
      · rw [hlow g (htrail g hg)]
        exact (h.lowlink_le g (mem_of_trail h hg)).trans (h.numbered g (htrail g hg)).le
    · have hold : walked x arc := by
        rcases hwalked x arc harc with hold | ⟨heq, -⟩
        · exact hold
        · exact absurd (heq ▸ hnext) hnew
      replace hx : x ∈ v.sccStack := by
        rcases hx with rfl | hx
        · exact absurd hwhite (hreached _ _ hold).1
        · exact hx
      rw [hdf x (h.visited x hx)] at hle
      rcases hg with rfl | hg
      · rw [hself] at hle
        exact absurd (h.numbered x (h.visited x hx)) (Nat.not_lt_of_le hle)
      · rw [hdf g (htrail g hg)] at hle
        rw [hlow g (htrail g hg), hdf _ (h.visited _ hnext)]
        refine h.lowlink_complete g hg x hx hle ?_ arc hold hnext
        intro g' hg' hle'
        have hthere := hnearest g' (.inr hg')
        rw [hdf g' (htrail g' hg'), hdf x (h.visited x hx), hdf g (htrail g hg)] at hthere
        exact hthere hle'
  · intro t ht hout u hfollows
    have hts : t ≠ s := fun heq => hout (.inl heq)
    rw [Function.update_of_ne hts] at ht
    obtain ⟨hu, hstack⟩ := h.closed t ht (fun hmem => hout (.inr hmem)) u hfollows
    refine ⟨hcolor u hu, ?_⟩
    rintro (rfl | hmem)
    · exact hu hwhite
    · exact hstack hmem
  · intro entry hentry u hu hlt arc harc hnext
    replace hu : u ∈ v.sccStack := by
      rcases hu with rfl | hu
      · rcases hentry with rfl | hentry
        · exact absurd hlt (lt_irrefl _)
        · have hmem := htrail entry.1 (List.mem_map_of_mem hentry)
          rw [hself, hdf _ hmem] at hlt
          exact absurd (h.numbered _ hmem) hlt.not_gt
      · exact hu
    rw [hdf u (h.visited u hu)] at hlt
    rcases hwalked u arc harc with hold | ⟨heq, hby⟩
    · obtain ⟨-, hreach⟩ := hreached u arc hold
      replace hnext : arc.nextstate ∈ v.sccStack := by
        rcases hnext with heq | hnext
        · exact absurd (heq ▸ hwhite) hreach
        · exact hnext
      rw [hdf _ hreach]
      rcases hentry with rfl | hentry
      · rw [hself]
        exact .inl (h.numbered _ hreach)
      · have hmem := htrail entry.1 (List.mem_map_of_mem hentry)
        rw [hdf _ hmem] at hlt ⊢
        exact h.older entry hentry u hu hlt arc hold hnext
    · rcases hentry with rfl | hentry
      · exact .inr (by rw [heq, hby])
      · -- a frame is entered from the one on top
        exfalso
        rcases henter with ⟨-, hnone⟩ | ⟨p, arc', e', rest, rfl, hsome, -⟩
        · rw [hnone] at hby
          cases hby
        · rw [hsome] at hby
          obtain ⟨rfl, -⟩ := Prod.mk.inj (Option.some.inj hby)
          have hmem := htrail entry.1 (List.mem_map_of_mem hentry)
          rw [hdf _ hmem] at hlt
          exact absurd hlt (Nat.not_lt_of_le (nearest_top h _ (List.mem_map_of_mem hentry)))

theorem tarjan_lower {low : ℕ} (h : Tarjan fst filter color ((s, e) :: trail) walked v)
    (hle : low ≤ v.lowlink s)
    (hsound : low = v.lowlink s ∨ ∃ t ∈ v.sccStack, Reaches fst filter s t ∧ v.dfnumber t = low)
    (hwalked : ∀ u arc, walked' u arc → walked u arc ∨
      (u = s ∧ (arc.nextstate ∈ v.sccStack → low ≤ v.dfnumber arc.nextstate))) :
    Tarjan fst filter color ((s, e) :: trail) walked' (v.lower s low) := by
  have hdown : ∀ t, Function.update v.lowlink s low t ≤ v.lowlink t := by
    intro t
    rw [Function.update_apply]
    split
    next heq => exact heq ▸ hle
    next => exact le_rfl
  refine ⟨h.onstack, h.visited, h.frames, h.sorted, h.numbered, h.descends, ?_, ?_, ?_, ?_,
    h.closed, ?_⟩
  · intro t ht
    exact (hdown t).trans (h.lowlink_le t ht)
  · intro t ht
    by_cases heq : t = s
    · subst heq
      rcases hsound with hsame | ⟨y, hy, hty, hlow⟩
      · obtain ⟨y, hy, hty, hlow⟩ := h.lowlink_sound t ht
        exact ⟨y, hy, hty, by simp [lower, hlow, hsame]⟩
      · exact ⟨y, hy, hty, by simp [lower, hlow]⟩
    · obtain ⟨y, hy, hty, hlow⟩ := h.lowlink_sound t ht
      exact ⟨y, hy, hty, by simp [lower, heq, hlow]⟩
  · intro t ht hframe
    exact (hdown t).trans_lt (h.lowlink_black t ht hframe)
  · intro g hg x hx hgx hnearest arc harc hnext
    rcases hwalked x arc harc with hold | ⟨rfl, hlow⟩
    · exact (hdown g).trans (h.lowlink_complete g hg x hx hgx hnearest arc hold hnext)
    · have hmem : x ∈ ((x, e) :: trail).map Prod.fst := List.mem_cons_self
      have hsame := dfnumber_inj h (mem_of_trail h hg) hx
        (le_antisymm hgx (hnearest x hmem le_rfl))
      subst hsame
      simpa [lower] using hlow hnext
  · intro entry hentry u hu hlt arc harc hnext
    rcases hwalked u arc harc with hold | ⟨rfl, -⟩
    · exact h.older entry hentry u hu hlt arc hold hnext
    · have hmem : entry.1 ∈ ((u, e) :: trail).map Prod.fst := List.mem_map_of_mem hentry
      exact absurd hlt (Nat.not_lt_of_le (nearest_top h entry.1 hmem))

theorem splitStack_append (s : ℕ) (stack : List ℕ) :
    (splitStack s stack).1 ++ (splitStack s stack).2 = stack := by
  induction stack with
  | nil => rfl
  | cons t stack ih =>
    rw [splitStack]
    split
    · rfl
    · rw [List.cons_append, ih]

theorem mem_stack_iff {t : ℕ} :
    t ∈ stack ↔ t ∈ (splitStack s stack).1 ∨ t ∈ (splitStack s stack).2 := by
  rw [← List.mem_append, splitStack_append]

theorem sublist_splitStack {states : List ℕ} (h : (s :: states).Sublist stack) :
    states.Sublist (splitStack s stack).2 := by
  induction stack with
  | nil => cases h
  | cons t stack ih =>
    rw [splitStack]
    split
    next heq =>
      subst heq
      exact List.cons_sublist_cons.mp h
    next hne =>
      cases h with
      | cons _ h => exact ih h
      | cons_cons _ h => exact absurd rfl hne

theorem splitStack_last (hs : s ∈ stack) :
    ∃ above, (splitStack s stack).1 = above ++ [s] := by
  induction stack with
  | nil => cases hs
  | cons t stack ih =>
    rw [splitStack]
    split
    next heq => exact ⟨[], by rw [heq]; rfl⟩
    next hne =>
      obtain ⟨above, habove⟩ := ih ((List.mem_cons.mp hs).resolve_left hne)
      exact ⟨t :: above, by rw [habove, List.cons_append]⟩

/- A component is what the stack holds from its root up. -/
theorem mem_splitStack (h : Tarjan fst filter color ((s, e) :: trail) walked v) {t : ℕ}
    (ht : t ∈ v.sccStack) :
    (t ∈ (splitStack s v.sccStack).1 ↔ v.dfnumber s ≤ v.dfnumber t) ∧
      (t ∈ (splitStack s v.sccStack).2 ↔ v.dfnumber t < v.dfnumber s) := by
  have hs : s ∈ v.sccStack := mem_of_trail h List.mem_cons_self
  obtain ⟨above, habove⟩ := splitStack_last hs
  have hsorted := h.sorted
  rw [← splitStack_append s v.sccStack] at hsorted ht
  obtain ⟨hleft, -, hcross⟩ := List.pairwise_append.mp hsorted
  have hin : ∀ x ∈ (splitStack s v.sccStack).1, v.dfnumber s ≤ v.dfnumber x := by
    intro x hx
    rw [habove] at hx hleft
    rcases List.mem_append.mp hx with hx | hx
    · exact ((List.pairwise_append.mp hleft).2.2 x hx s (by simp)).le
    · rw [List.mem_singleton.mp hx]
  have hout : ∀ x ∈ (splitStack s v.sccStack).2, v.dfnumber x < v.dfnumber s :=
    fun x hx => hcross s (by rw [habove]; simp) x hx
  rcases List.mem_append.mp ht with hmem | hmem
  · have hle := hin t hmem
    refine ⟨⟨fun _ => hle, fun _ => hmem⟩, ⟨fun hrest => hout t hrest, ?_⟩⟩
    intro hlt
    exact absurd hle (Nat.not_le_of_lt hlt)
  · have hlt := hout t hmem
    refine ⟨⟨fun hcomp => hin t hcomp, ?_⟩, ⟨fun _ => hlt, fun _ => hmem⟩⟩
    intro hle
    exact absurd hle (Nat.not_le_of_lt hlt)

/- A state that comes after the root of a component is on no frame but that of the root. -/
theorem not_frame (h : Tarjan fst filter color ((s, e) :: trail) walked v) {x : ℕ}
    (hle : v.dfnumber s ≤ v.dfnumber x) : x ∉ trail.map Prod.fst :=
  fun hmem => absurd (le_top h hmem) (Nat.not_lt_of_le hle)

/- Where no lower state is to be reached, the states from `s` up make a component of their own. -/
theorem tarjan_close {color' : ℕ → StateColor} {want : Bool}
    (h : Tarjan fst filter color ((s, e) :: trail) walked v) (hroot : v.dfnumber s = v.lowlink s)
    (hcolor : ∀ t, color' t ≠ .white ↔ color t ≠ .white)
    (hreached : ∀ u arc, walked u arc → color arc.nextstate ≠ .white)
    (hdone : ∀ x ∈ v.sccStack, x ∉ trail.map Prod.fst → ∀ arc ∈ fst.arcs x, filter arc = true →
      walked x arc) :
    Tarjan fst filter color' trail walked (v.closeComponent want s) := by
  have hsub : ∀ t ∈ (splitStack s v.sccStack).2, t ∈ v.sccStack :=
    fun t ht => mem_stack_iff.mpr (.inr ht)
  have hlt : ∀ t ∈ (splitStack s v.sccStack).2, v.dfnumber t < v.dfnumber s :=
    fun t ht => (mem_splitStack h (hsub t ht)).2.mp ht
  have hback : ∀ t ∈ v.sccStack, v.dfnumber t < v.dfnumber s → t ∈ (splitStack s v.sccStack).2 :=
    fun t ht hts => (mem_splitStack h ht).2.mpr hts
  have hframe : ∀ g ∈ trail.map Prod.fst, g ∈ ((s, e) :: trail).map Prod.fst :=
    fun g hg => List.mem_cons_of_mem _ hg
  constructor <;> simp only [closeComponent]
  · intro t
    simp only [Bool.and_eq_true, decide_eq_true_eq, h.onstack]
    constructor
    · rintro ⟨ht, hcomp⟩
      exact (mem_stack_iff.mp ht).resolve_left hcomp
    · intro ht
      refine ⟨hsub t ht, ?_⟩
      intro hcomp
      exact absurd ((mem_splitStack h (hsub t ht)).1.mp hcomp) (Nat.not_le_of_lt (hlt t ht))
  · intro t ht
    exact (hcolor t).mpr (h.visited t (hsub t ht))
  · exact sublist_splitStack h.frames
  · have hsorted := h.sorted
    rw [← splitStack_append s v.sccStack] at hsorted
    exact (List.pairwise_append.mp hsorted).2.1
  · intro t ht
    exact h.numbered t ((hcolor t).mp ht)
  · intro g hg x hx hle
    exact h.descends g (hframe g hg) x (hsub x hx) hle
  · intro t ht
    exact h.lowlink_le t (hsub t ht)
  · intro t ht
    obtain ⟨y, hy, hty, hlow⟩ := h.lowlink_sound t (hsub t ht)
    refine ⟨y, hback y hy ?_, hty, hlow⟩
    rw [hlow]
    exact (h.lowlink_le t (hsub t ht)).trans_lt (hlt t ht)
  · intro t ht hout
    refine h.lowlink_black t (hsub t ht) ?_
    rintro hmem
    rcases List.mem_cons.mp hmem with rfl | hmem
    · exact absurd (hlt _ ht) (lt_irrefl _)
    · exact hout hmem
  · intro g hg x hx hle hnearest arc harc hnext
    refine h.lowlink_complete g (hframe g hg) x (hsub x hx) hle ?_ arc harc (hsub _ hnext)
    intro g' hg' hle'
    rcases List.mem_cons.mp hg' with rfl | hg'
    · exact absurd hle' (Nat.not_le_of_lt (hlt x hx))
    · exact hnearest g' hg' hle'
  · intro x hx hout t hfollows
    rw [hcolor] at hx
    by_cases hmem : x ∈ v.sccStack
    · -- a state of the component
      have hle : v.dfnumber s ≤ v.dfnumber x := by
        by_contra hnot
        exact hout (hback x hmem (Nat.lt_of_not_le hnot))
      obtain ⟨arc, harc, hfilter, rfl⟩ := hfollows
      have hwalked := hdone x hmem (not_frame h hle) arc harc hfilter
      refine ⟨(hcolor _).mpr (hreached x arc hwalked), ?_⟩
      intro hnext
      have hlow := h.lowlink_complete s List.mem_cons_self x hmem hle
        (fun g hg _ => nearest_top h g hg) arc hwalked (hsub _ hnext)
      rw [← hroot] at hlow
      exact absurd (hlt _ hnext) (Nat.not_lt_of_le hlow)
    · obtain ⟨ht, hstack⟩ := h.closed x hx hmem t hfollows
      exact ⟨(hcolor t).mpr ht, fun hnext => hstack (hsub t hnext)⟩
  · intro entry hentry u hu hlt' arc harc hnext
    exact h.older entry (List.mem_cons_of_mem _ hentry) u (hsub u hu) hlt' arc harc (hsub _ hnext)

/- A state from which a lower one can be reached stays on the stack when it is finished. -/
theorem tarjan_leave {color' : ℕ → StateColor}
    (h : Tarjan fst filter color ((s, e) :: trail) walked v) (hroot : v.dfnumber s ≠ v.lowlink s)
    (hcolor : ∀ t, color' t ≠ .white ↔ color t ≠ .white)
    (hparent : trail = [] ∧ v' = v ∨ ∃ p e' rest, trail = (p, e') :: rest ∧
      v' = v.lower p (min (v.lowlink p) (v.lowlink s))) :
    Tarjan fst filter color' trail walked v' := by
  have hs : s ∈ v.sccStack := mem_of_trail h List.mem_cons_self
  have hframe : ∀ g ∈ trail.map Prod.fst, g ∈ ((s, e) :: trail).map Prod.fst :=
    fun g hg => List.mem_cons_of_mem _ hg
  have hbelow : v.lowlink s < v.dfnumber s := lt_of_le_of_ne (h.lowlink_le s hs) (Ne.symm hroot)
  -- what `v'` makes of the numbers of `v`
  have hsame : v'.onstack = v.onstack ∧ v'.sccStack = v.sccStack ∧ v'.dfnumber = v.dfnumber ∧
      v'.nstates = v.nstates := by
    rcases hparent with ⟨-, rfl⟩ | ⟨p, e', rest, -, rfl⟩ <;> exact ⟨rfl, rfl, rfl, rfl⟩
  have hdown : ∀ t, v'.lowlink t ≤ v.lowlink t := by
    intro t
    rcases hparent with ⟨-, rfl⟩ | ⟨p, e', rest, -, rfl⟩
    · exact le_rfl
    · simp only [lower, Function.update_apply]
      split
      next heq => exact heq ▸ min_le_left _ _
      next => exact le_rfl
  obtain ⟨hon, hstack, hdf, hn⟩ := hsame
  constructor <;> simp only [hon, hstack, hdf, hn]
  · exact h.onstack
  · exact fun t ht => (hcolor t).mpr (h.visited t ht)
  · exact (List.sublist_cons_self _ _).trans h.frames
  · exact h.sorted
  · exact fun t ht => h.numbered t ((hcolor t).mp ht)
  · exact fun g hg => h.descends g (hframe g hg)
  · exact fun t ht => (hdown t).trans (h.lowlink_le t ht)
  · intro t ht
    rcases hparent with ⟨-, rfl⟩ | ⟨p, e', rest, rfl, rfl⟩
    · exact h.lowlink_sound t ht
    · by_cases heq : t = p
      · subst heq
        have hreach := h.descends t (by simp) s hs (le_top h (by simp)).le
        simp only [lower, Function.update_self]
        rcases min_choice (v.lowlink t) (v.lowlink s) with hmin | hmin <;> rw [hmin]
        · exact h.lowlink_sound t ht
        · obtain ⟨y, hy, hsy, hlow⟩ := h.lowlink_sound s hs
          exact ⟨y, hy, hreach.trans hsy, hlow⟩
      · obtain ⟨y, hy, hty, hlow⟩ := h.lowlink_sound t ht
        exact ⟨y, hy, hty, by simp [lower, heq, hlow]⟩
  · intro t ht hout
    by_cases heq : t = s
    · subst heq
      exact (hdown t).trans_lt hbelow
    · refine (hdown t).trans_lt (h.lowlink_black t ht ?_)
      intro hmem
      rcases List.mem_cons.mp hmem with rfl | hmem
      · exact heq rfl
      · exact hout hmem
  · intro g hg x hx hle hnearest arc harc hnext
    rcases Nat.lt_or_ge (v.dfnumber x) (v.dfnumber s) with hlt | hge
    · refine (hdown g).trans (h.lowlink_complete g (hframe g hg) x hx hle ?_ arc harc hnext)
      intro g' hg' hle'
      rcases List.mem_cons.mp hg' with rfl | hg'
      · exact absurd hle' (Nat.not_le_of_lt hlt)
      · exact hnearest g' hg' hle'
    · -- the frame below takes over from the one finished
      rcases hparent with ⟨rfl, -⟩ | ⟨p, e', rest, rfl, rfl⟩
      · cases hg
      · have hp := le_top h (g := p) (by simp)
        have hpar : v.dfnumber p ≤ v.dfnumber g := hnearest p (by simp) (hp.le.trans hge)
        have hgp : g = p := by
          rcases List.mem_cons.mp hg with rfl | hg
          · rfl
          · have hpair := (h.sorted.sublist h.frames)
            rw [List.map_cons, List.pairwise_cons, List.map_cons, List.pairwise_cons] at hpair
            exact absurd (hpair.2.1 g hg) (Nat.not_lt_of_le hpar)
        subst hgp
        simp only [lower, Function.update_self]
        refine (min_le_right _ _).trans (h.lowlink_complete s List.mem_cons_self x hx hge ?_ arc
          harc hnext)
        exact fun g' hg' _ => nearest_top h g' hg'
  · intro x hx hout t hfollows
    obtain ⟨ht, hstack⟩ := h.closed x ((hcolor x).mp hx) hout t hfollows
    exact ⟨(hcolor t).mpr ht, hstack⟩
  · intro entry hentry u hu hlt arc harc hnext
    exact h.older entry (List.mem_cons_of_mem _ hentry) u hu hlt arc harc hnext

/- Whatever is on the stack gets down to a frame. -/
theorem reaches_frame (h : Tarjan fst filter color trail walked v) {x : ℕ}
    (hx : x ∈ v.sccStack) : ∃ g ∈ trail.map Prod.fst, Reaches fst filter x g := by
  induction hn : v.dfnumber x using Nat.strong_induction_on generalizing x with
  | _ n ih =>
    by_cases hframe : x ∈ trail.map Prod.fst
    · exact ⟨x, hframe, ReflTransGen.refl⟩
    · obtain ⟨y, hy, hxy, hlow⟩ := h.lowlink_sound x hx
      have hlt : v.dfnumber y < n := by
        rw [hlow, ← hn]
        exact h.lowlink_black x hx hframe
      obtain ⟨g, hg, hyg⟩ := ih _ hlt hy rfl
      exact ⟨g, hg, hxy.trans hyg⟩

theorem reaches_top (h : Tarjan fst filter color ((s, e) :: trail) walked v) {x : ℕ}
    (hx : x ∈ v.sccStack) :
    Reaches fst filter x s := by
  obtain ⟨g, hg, hxg⟩ := reaches_frame h hx
  exact hxg.trans (h.descends g hg s (mem_of_trail h List.mem_cons_self) (nearest_top h g hg))

end Steps

section Searches

variable {fst : VectorFst L W} {filter : Arc L W → Bool} {isMember : W → Bool} {want : Bool}
  {accessOnly : Bool} {start : ℕ} {d d' : DfsSearch L W SccVisitor}

structure SccInv (fst : VectorFst L W) (filter : Arc L W → Bool)
    (d : DfsSearch L W SccVisitor) : Prop where
  going : d.dfs = true
  tarjan : Tarjan fst filter d.stateColor (trailOf d.stack) (Walked fst filter d) d.visitor

variable {σ : Type} {arc : Arc L W} {frame : DfsFrame L W} {stack : List (DfsFrame L W)}
  {arcs : List (Arc L W)}

theorem walked_source {d : DfsSearch L W σ} (h : Stacked fst filter d) {s : ℕ}
    (hwalked : Walked fst filter d s arc) : d.stateColor s ≠ .white := by
  obtain ⟨-, ⟨hblack, -⟩ | ⟨frame, hframe, rfl, -⟩⟩ := hwalked
  · simp [hblack]
  · have hgrey := (h.grey _).mpr (List.mem_map_of_mem hframe)
    simp [hgrey]

theorem walked_of_black {d : DfsSearch L W σ} {s : ℕ} (hs : d.stateColor s = .black)
    (harc : arc ∈ fst.arcs s) (hfilter : filter arc = true) :
    Walked fst filter d s arc := ⟨hfilter, .inl ⟨hs, harc⟩⟩

theorem walked_of_exhausted {d : DfsSearch L W σ} (hframe : frame ∈ d.stack)
    (harcs : frame.arcs = []) (harc : arc ∈ fst.arcs frame.stateId) (hfilter : filter arc = true) :
    Walked fst filter d frame.stateId arc :=
  ⟨hfilter, .inr ⟨frame, hframe, rfl, fst.arcs frame.stateId, by simp [harcs], harc⟩⟩

theorem trail_states (stack : List (DfsFrame L W)) :
    (trailOf stack).map Prod.fst = stack.map (·.stateId) := by
  unfold trailOf
  rw [List.map_map]
  rfl

/- All arcs of a state that is on no frame below the top one have been walked. -/
theorem walked_done {d : DfsSearch L W σ} (h : Stacked fst filter d)
    (hstack : d.stack = frame :: stack) (harcs : frame.arcs = []) {x : ℕ}
    (hx : d.stateColor x ≠ .white) (hout : x ∉ (trailOf stack).map Prod.fst)
    (harc : arc ∈ fst.arcs x) (hfilter : filter arc = true) : Walked fst filter d x arc := by
  cases hcolor : d.stateColor x with
  | white => exact absurd hcolor hx
  | black => exact walked_of_black hcolor harc hfilter
  | grey =>
    have hmem := (h.grey x).mp hcolor
    rw [hstack, List.map_cons, List.mem_cons] at hmem
    rw [trail_states] at hout
    obtain rfl := hmem.resolve_right hout
    exact walked_of_exhausted (hstack ▸ List.mem_cons_self) harcs harc hfilter

theorem updated_white {stateColor : ℕ → StateColor} {s : ℕ} {c : StateColor}
    (hs : stateColor s ≠ .white) (hc : c ≠ .white) (t : ℕ) :
    Function.update stateColor s c t ≠ .white ↔ stateColor t ≠ .white := by
  rw [Function.update_apply]
  split
  next heq => simp [heq, hs, hc]
  next => exact Iff.rfl

theorem linked_parent {d : DfsSearch L W σ} (h : Stacked fst filter d)
    (hstack : d.stack = frame :: stack) :
    (stack = [] ∧ frame.enteredBy = none) ∨ ∃ parent rest arc, stack = parent :: rest ∧
      frame.enteredBy = some (parent.stateId, arc) ∧ arc ∈ fst.arcs parent.stateId ∧
      filter arc = true ∧ arc.nextstate = frame.stateId := by
  have hlinked := h.linked
  rw [hstack] at hlinked
  cases stack with
  | nil => exact .inl ⟨rfl, hlinked.2⟩
  | cons parent rest =>
    obtain ⟨⟨arc, harc, hfilter, hnext, hby⟩, -⟩ := hlinked
    exact .inr ⟨parent, rest, arc, rfl, hby, harc, hfilter, hnext⟩

theorem sccInv_look {v : SccVisitor} (hinv : DfsInv fst filter accessOnly start d)
    (h : SccInv fst filter d) (hstack : d.stack = frame :: stack) (harcs : frame.arcs = arc :: arcs)
    (hfilter : filter arc = true) {low : ℕ} (hle : low ≤ d.visitor.lowlink frame.stateId)
    (hsound : low = d.visitor.lowlink frame.stateId ∨ (arc.nextstate ∈ d.visitor.sccStack ∧
      d.visitor.dfnumber arc.nextstate = low))
    (hlow : arc.nextstate ∈ d.visitor.sccStack → low ≤ d.visitor.dfnumber arc.nextstate)
    (hsame : SameStack (d.visitor.lower frame.stateId low) v) :
    SccInv fst filter { takeArc frame arc arcs stack d with dfs := true, visitor := v } := by
  refine ⟨rfl, tarjan_same ?_ hsame⟩
  have htrail : trailOf d.stack = _ :: trailOf stack := congrArg trailOf hstack
  have htarjan := h.tarjan
  rw [htrail] at htarjan
  have harc : arc ∈ fst.arcs frame.stateId := by
    have hsuffix := hinv.suffix frame (hstack ▸ List.mem_cons_self)
    exact hsuffix.subset (harcs ▸ List.mem_cons_self)
  refine tarjan_lower htarjan hle ?_ ?_
  · refine hsound.imp_right ?_
    rintro ⟨hmem, heq⟩
    exact ⟨arc.nextstate, hmem, ReflTransGen.single ⟨arc, harc, hfilter, rfl⟩, heq⟩
  · intro u a hwalked
    rcases (walked_take hinv.toStacked hstack harcs).mp hwalked with hold | ⟨rfl, rfl, -⟩
    · exact .inl hold
    · exact .inr ⟨rfl, hlow⟩

theorem sameStack_lower {v v' : SccVisitor} (s : ℕ) (h : SameStack v v') :
    SameStack (v.lower s (v.lowlink s)) v' := by
  obtain ⟨hon, hstack, hdf, hlow, hn⟩ := h
  exact ⟨hon, hstack, hdf, by simp [lower, hlow], hn⟩

theorem sameStack_trans {v v' v'' : SccVisitor} (h : SameStack v v') (h' : SameStack v' v'') :
    SameStack v v'' := by
  obtain ⟨hon, hstack, hdf, hlow, hn⟩ := h
  obtain ⟨hon', hstack', hdf', hlow', hn'⟩ := h'
  exact ⟨hon'.trans hon, hstack'.trans hstack, hdf'.trans hdf, hlow'.trans hlow, hn'.trans hn⟩

theorem sccInv_back (hinv : DfsInv fst filter accessOnly start d) (h : SccInv fst filter d)
    (hstack : d.stack = frame :: stack) (harcs : frame.arcs = arc :: arcs)
    (hfilter : filter arc = true) (hgrey : d.stateColor arc.nextstate = .grey) :
    SccInv fst filter { takeArc frame arc arcs stack d with
      dfs := true
      visitor := (SccVisitor.backArc fst.start want frame.stateId arc.nextstate d.visitor).2 } := by
  have hmem : arc.nextstate ∈ d.visitor.sccStack := by
    apply mem_of_trail h.tarjan
    rw [trail_states]
    exact (hinv.grey _).mp hgrey
  have hbits : ∀ (v : SccVisitor) (b : BitVec 64), SameStack v { v with building := b } :=
    fun v b => ⟨rfl, rfl, rfl, rfl, rfl⟩
  by_cases hlt : d.visitor.dfnumber arc.nextstate < d.visitor.lowlink frame.stateId
  · refine sccInv_look hinv h hstack harcs hfilter hlt.le (.inr ⟨hmem, rfl⟩) (fun _ => le_rfl) ?_
    unfold SccVisitor.backArc
    rw [if_pos hlt]
    exact sameStack_trans (sameStack_passCoaccess _ _ _) (hbits _ _)
  · refine sccInv_look hinv h hstack harcs hfilter le_rfl (.inl rfl)
      (fun _ => Nat.le_of_not_lt hlt) ?_
    unfold SccVisitor.backArc
    rw [if_neg hlt]
    exact sameStack_lower _ (sameStack_trans (sameStack_passCoaccess _ _ _) (hbits _ _))

theorem sccInv_cross (hinv : DfsInv fst filter accessOnly start d) (h : SccInv fst filter d)
    (hstack : d.stack = frame :: stack) (harcs : frame.arcs = arc :: arcs)
    (hfilter : filter arc = true) :
    SccInv fst filter { takeArc frame arc arcs stack d with
      dfs := true
      visitor := (SccVisitor.forwardOrCrossArc want frame.stateId arc.nextstate d.visitor).2 } := by
  have hframe : frame.stateId ∈ d.visitor.sccStack := by
    apply mem_of_trail h.tarjan
    rw [trail_states, hstack]
    exact List.mem_cons_self
  have hle := h.tarjan.lowlink_le _ hframe
  by_cases hif : d.visitor.dfnumber arc.nextstate < d.visitor.dfnumber frame.stateId ∧
      d.visitor.onstack arc.nextstate = true ∧
        d.visitor.dfnumber arc.nextstate < d.visitor.lowlink frame.stateId
  · have hmem := (h.tarjan.onstack _).mp hif.2.1
    refine sccInv_look hinv h hstack harcs hfilter hif.2.2.le (.inr ⟨hmem, rfl⟩)
      (fun _ => le_rfl) ?_
    unfold SccVisitor.forwardOrCrossArc
    rw [if_pos hif]
    exact sameStack_passCoaccess _ _ _
  · refine sccInv_look hinv h hstack harcs hfilter le_rfl (.inl rfl) ?_ ?_
    · intro hmem
      by_contra hnot
      have hlt := Nat.lt_of_not_le hnot
      exact hif ⟨hlt.trans_le hle, (h.tarjan.onstack _).mpr hmem, hlt⟩
    · unfold SccVisitor.forwardOrCrossArc
      rw [if_neg hif]
      exact sameStack_lower _ (sameStack_passCoaccess _ _ _)

theorem finishParent_eq {v : SccVisitor} (s p : ℕ) : SameStack
    (v.lower p (min (v.lowlink p) (v.lowlink s))) (v.finishParent want s p) := by
  obtain ⟨hon, hstack, hdf, hlow, hn⟩ := sameStack_passCoaccess (v := v) want p s
  unfold finishParent
  dsimp only
  rw [hlow]
  split
  next hlt =>
    refine ⟨hon, hstack, hdf, ?_, hn⟩
    simp only [lower, hlow, min_eq_right hlt.le]
  next hnot =>
    refine ⟨hon, hstack, hdf, ?_, hn⟩
    simp [lower, hlow, min_eq_left (Nat.le_of_not_lt hnot)]

theorem sccInv_finish (hinv : DfsInv fst filter accessOnly start d) (h : SccInv fst filter d)
    (hstack : d.stack = frame :: stack) (harcs : frame.arcs = []) :
    SccInv fst filter
      (popState (sccVisitor isMember want fst) accessOnly start frame stack d) := by
  refine ⟨(dfs_popState frame stack).trans h.going, ?_⟩
  rw [stack_popState, visitor_popState, stateColor_popState]
  have htrail : trailOf d.stack = _ :: trailOf stack := congrArg trailOf hstack
  have hframe : frame.stateId ∈ d.stack.map (·.stateId) := by simp [hstack]
  have hgrey := (hinv.grey _).mpr hframe
  have hcolor := @updated_white d.stateColor frame.stateId .black (by simp [hgrey]) (by simp)
  have hsame : SameStack d.visitor
      (d.visitor.finalCoaccess isMember want fst frame.stateId) :=
    sameStack_finalCoaccess isMember want frame.stateId
  have htarjan := tarjan_same h.tarjan hsame
  rw [htrail] at htarjan
  refine tarjan_mono ?_ fun u arc hwalked => (walked_pop hinv.toStacked hstack harcs).mp hwalked
  simp only [sccVisitor, SccVisitor.finishState]
  generalize d.visitor.finalCoaccess isMember want fst frame.stateId = v at htarjan ⊢
  by_cases hroot : v.dfnumber frame.stateId = v.lowlink frame.stateId
  · rw [closeRoot, if_pos hroot]
    have hclosed : Tarjan fst filter _ (trailOf stack) _ (v.closeComponent want frame.stateId) :=
      tarjan_close htarjan hroot hcolor
      (fun u arc => hinv.reached h.going u arc)
      (fun x hx hout arc harc hfilter => walked_done hinv.toStacked hstack harcs
        (htarjan.visited x hx) hout harc hfilter)
    rcases linked_parent hinv.toStacked hstack with
      ⟨rfl, hby⟩ | ⟨parent, rest, arc, rfl, hby, -⟩
    · rw [hby]
      exact hclosed
    · rw [hby]
      refine tarjan_same hclosed (sameStack_trans ?_ (finishParent_eq frame.stateId parent.stateId))
      -- the parent's number is lower already
      have hparent : parent.stateId ∈ (trailOf (parent :: rest)).map Prod.fst := by
        rw [trail_states]
        exact List.mem_cons_self
      have hlow := htarjan.lowlink_le _ (mem_of_trail htarjan (List.mem_cons_of_mem _ hparent))
      have hmin : min (v.lowlink parent.stateId) (v.lowlink frame.stateId) =
          v.lowlink parent.stateId := by
        rw [← hroot]
        exact min_eq_left (hlow.trans (le_top htarjan hparent).le)
      refine ⟨rfl, rfl, rfl, ?_, rfl⟩
      simp only [lower, closeComponent, hmin, Function.update_eq_self]
  · rw [closeRoot, if_neg hroot]
    rcases linked_parent hinv.toStacked hstack with
      ⟨rfl, hby⟩ | ⟨parent, rest, arc, rfl, hby, -⟩
    · rw [hby]
      exact tarjan_leave htarjan hroot hcolor (.inl ⟨rfl, rfl⟩)
    · rw [hby]
      refine tarjan_same (tarjan_leave htarjan hroot hcolor (.inr ⟨_, _, _, rfl, rfl⟩)) ?_
      exact finishParent_eq frame.stateId parent.stateId

theorem sccInv_move (hinv : DfsInv fst filter accessOnly start d) (h : SccInv fst filter d)
    (hmove : DfsMove fst (sccVisitor isMember want fst) filter accessOnly start d d') :
    SccInv fst filter d' := by
  have hreached : ∀ u arc, Walked fst filter d u arc →
      d.stateColor u ≠ .white ∧ d.stateColor arc.nextstate ≠ .white :=
    fun u arc hwalked =>
      ⟨walked_source hinv.toStacked hwalked, hinv.reached h.going u arc hwalked⟩
  cases hmove with
  | newTree hstack hdfs hroot =>
    have hwhite := hinv.fresh hstack hroot
    have htarjan := h.tarjan
    rw [hstack] at htarjan
    refine ⟨rfl, ?_⟩
    rw [stack_pushState, hstack]
    exact tarjan_push htarjan hwhite hreached
      (fun u arc hwalked => .inl ((walked_push hwhite).mp hwalked)) (.inl ⟨rfl, rfl⟩)
  | @finish frame stack hstack harcs =>
    exact sccInv_finish hinv h hstack (harcs h.going)
  | @skip frame stack arc arcs hstack harcs hdfs hfilter =>
    refine ⟨h.going, ?_⟩
    have htarjan := h.tarjan
    rw [hstack] at htarjan
    refine tarjan_mono htarjan ?_
    intro u a hwalked
    rcases (walked_take hinv.toStacked hstack harcs).mp hwalked with hold | ⟨-, rfl, htrue⟩
    · exact hold
    · rw [hfilter] at htrue
      cases htrue
  | @descend frame stack arc arcs hstack harcs hdfs hfilter hwhite htree =>
    have htarjan := h.tarjan
    rw [hstack] at htarjan
    have harc : arc ∈ fst.arcs frame.stateId := by
      have hsuffix := hinv.suffix frame (hstack ▸ List.mem_cons_self)
      exact hsuffix.subset (harcs ▸ List.mem_cons_self)
    refine ⟨rfl, tarjan_push htarjan hwhite hreached ?_
      (.inr ⟨frame.stateId, arc, _, _, rfl, rfl, arc, harc, hfilter, rfl⟩)⟩
    intro u a hwalked
    have htaken := (walked_push (by exact hwhite)).mp hwalked
    rcases (walked_take hinv.toStacked hstack harcs).mp htaken with hold | ⟨rfl, rfl, -⟩
    · exact .inl hold
    · exact .inr ⟨rfl, rfl⟩
  | refuse hstack harcs hdfs hfilter hwhite htree => cases htree
  | back hstack harcs hdfs hfilter hgrey =>
    exact sccInv_back hinv h hstack harcs hfilter hgrey
  | cross hstack harcs hdfs hfilter hblack =>
    exact sccInv_cross hinv h hstack harcs hfilter

end Searches

end Sicada.SccRuns
