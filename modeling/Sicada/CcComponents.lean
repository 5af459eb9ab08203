import Sicada.DfsTrace
import Sicada.Library.Walk
import Sicada.UnionFind

namespace Sicada.CcComponents

open Relation Links DfsVisit DfsTrace SccRuns UnionFind

variable {L W : Type} [ArcLabel L] [Zero W]

/- Where a vector is given the numbers are written to it when the search is over. -/
structure CcVisitor where
  comps : UnionFind
  cc : Option (ℕ → Option ℕ)
  nstates : ℕ

namespace CcVisitor

def newWithCc : CcVisitor := ⟨UnionFind.new 0, some fun _ => none, 0⟩

def newWithComps (comps : UnionFind) : CcVisitor := ⟨comps, none, 0⟩

structure CcLoop where
  comps : UnionFind
  cc : ℕ → Option ℕ
  ncomp : ℕ

def numberState (l : CcLoop) (s : ℕ) : CcLoop :=
  let (found, comps) := l.comps.findSet s
  let rep := found.getD s
  let comp := (l.cc rep).getD l.ncomp
  { comps := comps
    cc := Function.update (Function.update l.cc s (some comp)) rep (some comp)
    ncomp := if (l.cc rep).isNone then l.ncomp + 1 else l.ncomp }

def getCcVector (v : CcVisitor) : CcLoop :=
  (List.range v.nstates).foldl numberState ⟨v.comps, fun _ => none, 0⟩

def initState (s : ℕ) (v : CcVisitor) : Bool × CcVisitor :=
  (true, { v with nstates := v.nstates + 1, comps := v.comps.makeSet s })

def treeArc (s t : ℕ) (v : CcVisitor) : Bool × CcVisitor :=
  (true, { v with comps := (v.comps.makeSet t).union s t })

def joinArc (s t : ℕ) (v : CcVisitor) : Bool × CcVisitor :=
  (true, { v with comps := v.comps.union s t })

def finishVisit (v : CcVisitor) : CcVisitor :=
  if v.cc.isSome then { v with comps := v.getCcVector.comps, cc := some v.getCcVector.cc } else v

end CcVisitor

def ccVisitor : DfsVisitor L W CcVisitor where
  initVisit v := v
  initState s _ := CcVisitor.initState s
  treeArc s arc := CcVisitor.treeArc s arc.nextstate
  backArc s arc := CcVisitor.joinArc s arc.nextstate
  forwardOrCrossArc s arc := CcVisitor.joinArc s arc.nextstate
  finishState _ _ v := v
  finishVisit := CcVisitor.finishVisit

def connect (fst : VectorFst L W) (v : CcVisitor) : CcVisitor := dfsVisitAny fst ccVisitor v

/- What the numbers are to say. -/
structure Components (fst : VectorFst L W) (cc : ℕ → Option ℕ) (ncomp : ℕ) : Prop where
  component : ∀ s < fst.numStates, ∀ t < fst.numStates,
    (cc s = cc t ↔ EqvGen (Follows fst fun _ => true) s t)
  numbered : ∀ s < fst.numStates, ∃ c < ncomp, cc s = some c
  used : ∀ c < ncomp, ∃ s < fst.numStates, cc s = some c
  past : ∀ s, fst.numStates ≤ s → cc s = none

variable {events : List Event}

section Keeping

/- The arcs the sets are joined along, and those of them that were descended on. -/
structure Kept where
  tree : List (ℕ × ℕ)
  all : List (ℕ × ℕ)

/- A state is linked to one it is not linked to by descents. -/
def Crossed (k : Kept) (s : ℕ) : Prop := ∃ u, Linked k.all s u ∧ ¬ Linked k.tree s u

open Classical in
/- A descent from a crossed state is not kept. -/
noncomputable def kept : List Event → Kept
  | [] => ⟨[], []⟩
  | .enter _ :: events => kept events
  | .descend s t :: events =>
    if Crossed (kept events) s then kept events
    else ⟨(s, t) :: (kept events).tree, (s, t) :: (kept events).all⟩
  | .look s t :: events => ⟨(kept events).tree, (s, t) :: (kept events).all⟩

/- The ends of every descent are linked, by other arcs where it was not kept. -/
def Bypassed (fst : VectorFst L W) : Prop :=
  ∀ s t, .descend s t ∈ trace fst → Linked (kept (trace fst)).all s t

theorem mem_of_kept {s t : ℕ} (h : (s, t) ∈ (kept events).all) :
    .descend s t ∈ events ∨ .look s t ∈ events := by
  induction events with
  | nil => cases h
  | cons event events ih =>
    have hold : (s, t) ∈ (kept events).all →
        .descend s t ∈ event :: events ∨ .look s t ∈ event :: events := fun hmem =>
      (ih hmem).imp (List.mem_cons_of_mem _) (List.mem_cons_of_mem _)
    cases event with
    | enter s' => exact hold h
    | descend s' t' =>
      rw [kept] at h
      split at h
      · exact hold h
      · rcases List.mem_cons.mp h with heq | hmem
        · obtain ⟨rfl, rfl⟩ := Prod.mk.inj heq
          exact .inl List.mem_cons_self
        · exact hold hmem
    | look s' t' =>
      rw [kept] at h
      rcases List.mem_cons.mp h with heq | hmem
      · obtain ⟨rfl, rfl⟩ := Prod.mk.inj heq
        exact .inr List.mem_cons_self
      · exact hold hmem

theorem kept_of_look {s t : ℕ} (h : .look s t ∈ events) :
    (s, t) ∈ (kept events).all := by
  induction events with
  | nil => cases h
  | cons event events ih =>
    cases event with
    | enter s' =>
      rw [kept]
      exact ih (by simpa using h)
    | descend s' t' =>
      have hmem := ih (by simpa using h)
      rw [kept]
      split
      · exact hmem
      · exact List.mem_cons_of_mem _ hmem
    | look s' t' =>
      rw [kept]
      rcases List.mem_cons.mp h with heq | hmem
      · obtain ⟨rfl, rfl⟩ := Event.look.inj heq
        exact List.mem_cons_self
      · exact List.mem_cons_of_mem _ (ih hmem)

end Keeping

section Mirroring

variable {uf uf' : UnionFind} {known : Set ℕ} {k : Kept} {rep depth : ℕ → ℕ} {s t : ℕ}

/- The sets are the classes of the arcs kept, and a set has a rank when it is crossed. -/
structure Mirrors (uf : UnionFind) (known : Set ℕ) (k : Kept) (rep depth : ℕ → ℕ) : Prop where
  forest : Forest uf known rep depth
  linked : ∀ x ∈ known, ∀ y ∈ known, (rep x = rep y ↔ Linked k.all x y)
  ranked : ∀ x ∈ known, (uf.rank (rep x) ≠ 0 ↔ Crossed k x)
  ends : ∀ arc ∈ k.all, arc.1 ∈ known ∧ arc.2 ∈ known
  tree : ∀ arc ∈ k.tree, arc ∈ k.all

theorem isolated (h : Mirrors uf known k rep depth) (ht : t ∉ known) {u : ℕ}
    (hlinked : Linked k.all t u) : t = u := by
  refine eq_of_linked (fun arc harc => ?_) hlinked
  obtain ⟨hfrom, hto⟩ := h.ends arc harc
  exact ⟨fun heq => ht (heq ▸ hfrom), fun heq => ht (heq ▸ hto)⟩

theorem crossed_of_ne {t' : ℕ} (hne : ¬ Linked k.all s t) (htree : ∀ arc ∈ k.tree, arc ∈ k.all)
    {all : List (ℕ × ℕ)} {x : ℕ} (hxs : Linked all x s) (hxt : Linked all x t) (ht' : t = t') :
    Crossed ⟨k.tree, all⟩ x := by
  by_contra hnot
  have htree' : ∀ u, Linked all x u → Linked k.tree x u := by
    intro u hu
    by_contra hout
    exact hnot ⟨u, hu, hout⟩
  exact hne (linked_mono htree ((htree' s hxs).symm.trans (htree' t hxt)))

/- A state on its own. -/
theorem mirrors_insert (h : Mirrors uf known k rep depth) (ht : t ∉ known)
    (hforest : Forest uf' (insert t known) (Function.update rep t t) depth)
    (hrank : uf'.rank = Function.update uf.rank t 0) :
    Mirrors uf' (insert t known) k (Function.update rep t t) depth := by
  have hne : ∀ x ∈ known, x ≠ t := fun x hx heq => ht (heq ▸ hx)
  have hrep : ∀ x ∈ known, rep x ≠ t := fun x hx =>
    hne _ (rep_spec h.forest hx).1
  refine ⟨hforest, fun x hx y hy => ?_, fun x hx => ?_, fun arc harc => ?_, h.tree⟩
  · rcases Set.mem_insert_iff.mp hx with rfl | hxk
    · rw [Function.update_self]
      refine ⟨fun heq => ?_, fun hlinked => ?_⟩
      · by_cases hyx : y = x
        · exact hyx ▸ linked_refl y
        · rw [Function.update_of_ne hyx] at heq
          exact absurd heq.symm (hrep y ((Set.mem_insert_iff.mp hy).resolve_left hyx))
      · rw [← isolated h ht hlinked, Function.update_self]
    · rw [Function.update_of_ne (hne x hxk)]
      by_cases heq : y = t
      · subst heq
        rw [Function.update_self]
        refine iff_of_false (hrep x hxk) fun hlinked => ?_
        exact hne x hxk (isolated h ht hlinked.symm).symm
      · rw [Function.update_of_ne heq]
        exact h.linked x hxk y ((Set.mem_insert_iff.mp hy).resolve_left heq)
  · rw [hrank]
    rcases Set.mem_insert_iff.mp hx with rfl | hx
    · rw [Function.update_self, Function.update_self]
      refine iff_of_false (fun hzero => hzero rfl) ?_
      rintro ⟨u, hlinked, hnot⟩
      exact hnot (isolated h ht hlinked ▸ linked_refl x)
    · rw [Function.update_of_ne (hne x hx), Function.update_of_ne (hrep x hx)]
      exact h.ranked x hx
  · obtain ⟨hfrom, hto⟩ := h.ends arc harc
    exact ⟨Set.mem_insert_of_mem t hfrom, Set.mem_insert_of_mem t hto⟩

/- An arc to a state that has been entered. -/
theorem mirrors_look (h : Mirrors uf known k rep depth) (hs : s ∈ known) (ht : t ∈ known) :
    ∃ rep' depth', Mirrors (uf.union s t) known ⟨k.tree, (s, t) :: k.all⟩ rep' depth' := by
  have hends : ∀ arc ∈ (s, t) :: k.all, arc.1 ∈ known ∧ arc.2 ∈ known := by
    intro arc harc
    rcases List.mem_cons.mp harc with rfl | harc
    · exact ⟨hs, ht⟩
    · exact h.ends arc harc
  have htree : ∀ arc ∈ k.tree, arc ∈ (s, t) :: k.all :=
    fun arc harc => List.mem_cons_of_mem _ (h.tree arc harc)
  by_cases hsame : rep s = rep t
  · obtain ⟨hforest, hrank⟩ := union_spec_same h.forest hs ht hsame
    have hst := (h.linked s hs t ht).mp hsame
    refine ⟨rep, depth, hforest, fun x hx y hy => ?_, fun x hx => ?_, hends, htree⟩
    · rw [linked_cons_of_linked hst]
      exact h.linked x hx y hy
    · rw [hrank, h.ranked x hx]
      refine exists_congr fun u => and_congr_left' ?_
      rw [linked_cons_of_linked hst]
  · obtain ⟨low, high, depth', hboth, hforest, hhigh, hrank⟩ := union_spec h.forest hs ht hsame
    have hst : ¬ Linked k.all s t := mt (h.linked s hs t ht).mpr hsame
    have hlinked : ∀ x ∈ known, ∀ y ∈ known, (Linked ((s, t) :: k.all) x y ↔
        rep x = rep y ∨ rep x = rep s ∧ rep t = rep y ∨ rep x = rep t ∧ rep s = rep y) := by
      intro x hx y hy
      rw [linked_cons, h.linked x hx y hy, h.linked x hx s hs, h.linked t ht y hy,
        h.linked x hx t ht, h.linked s hs y hy]
    refine ⟨_, depth', hforest, fun x hx y hy => ?_, fun x hx => ?_, hends, htree⟩
    · rw [hlinked x hx y hy]
      rcases hboth with ⟨rfl, rfl⟩ | ⟨rfl, rfl⟩
      · grind
      · grind
    · by_cases hin : rep x = rep s ∨ rep x = rep t
      · have hroot : (if rep x = low then high else rep x) = high := by
          rcases hboth with ⟨rfl, rfl⟩ | ⟨rfl, rfl⟩
          · grind
          · grind
        have hxs : Linked ((s, t) :: k.all) x s := by
          rw [hlinked x hx s hs]
          grind
        have hxt : Linked ((s, t) :: k.all) x t := by
          rw [hlinked x hx t ht]
          grind
        rw [hroot]
        exact iff_of_true hhigh (crossed_of_ne hst h.tree hxs hxt rfl)
      · rw [not_or] at hin
        have hroot : (if rep x = low then high else rep x) = rep x := by
          rcases hboth with ⟨rfl, rfl⟩ | ⟨rfl, rfl⟩
          · exact if_neg hin.1
          · exact if_neg hin.2
        have hother : rep x ≠ high := by
          rcases hboth with ⟨-, rfl⟩ | ⟨-, rfl⟩
          · exact hin.2
          · exact hin.1
        rw [hroot, hrank _ hother, h.ranked x hx]
        refine exists_congr fun u => and_congr_left' ?_
        rw [linked_cons, or_iff_left]
        rintro (⟨hxs, -⟩ | ⟨hxt, -⟩)
        · exact hin.1 ((h.linked x hx s hs).mpr hxs)
        · exact hin.2 ((h.linked x hx t ht).mpr hxt)

/- A descent from a state that is not crossed. -/
theorem mirrors_descend (h : Mirrors uf known k rep depth) (hs : s ∈ known) (ht : t ∉ known)
    (hcrossed : ¬ Crossed k s) : ∃ rep' depth', Mirrors (uf.reenter s t) (insert t known)
      ⟨(s, t) :: k.tree, (s, t) :: k.all⟩ rep' depth' := by
  have hne : ∀ x ∈ known, x ≠ t := fun x hx heq => ht (heq ▸ hx)
  have hrep : ∀ x ∈ known, rep x ≠ t := fun x hx => hne _ (rep_spec h.forest hx).1
  have hzero : uf.rank (rep s) = 0 := by
    by_contra hrank
    exact hcrossed ((h.ranked s hs).mp hrank)
  have hapart : ∀ x ∈ known, ¬ Linked k.all x t := by
    intro x hx hlinked
    exact hne x hx (isolated h ht hlinked.symm).symm
  have hold : ∀ x ∈ known, ∀ y ∈ known,
      (Linked ((s, t) :: k.all) x y ↔ Linked k.all x y) := by
    intro x hx y hy
    rw [linked_cons, or_iff_left]
    rintro (⟨-, hty⟩ | ⟨hxt, -⟩)
    · exact hapart y hy hty.symm
    · exact hapart x hx hxt
  have hnew : ∀ x ∈ known, (Linked ((s, t) :: k.all) x t ↔ rep x = rep s) := by
    intro x hx
    rw [h.linked x hx s hs, linked_cons, or_iff_right (hapart x hx)]
    constructor
    · rintro (⟨hxs, -⟩ | ⟨hxt, -⟩)
      · exact hxs
      · exact absurd hxt (hapart x hx)
    · exact fun hxs => .inl ⟨hxs, linked_refl t⟩
  obtain ⟨⟨depth', hforest⟩, hrank⟩ := reenter_unranked h.forest hs ht hzero
  have hval : ∀ x ∈ known, (if Function.update rep t t x = rep s then t
      else Function.update rep t t x) = if rep x = rep s then t else rep x := by
    intro x hx
    rw [Function.update_of_ne (hne x hx)]
  have hvalt : (if Function.update rep t t t = rep s then t else Function.update rep t t t) = t := by
    rw [Function.update_self, ite_self]
  refine ⟨_, depth', hforest, fun x hx y hy => ?_, fun x hx => ?_, ?_, ?_⟩
  · rcases Set.mem_insert_iff.mp hx with rfl | hxk
    · rw [hvalt]
      rcases Set.mem_insert_iff.mp hy with rfl | hyk
      · rw [hvalt]
        exact iff_of_true rfl (linked_refl y)
      · have hsymm : Linked ((s, x) :: k.all) x y ↔ Linked ((s, x) :: k.all) y x :=
          ⟨Linked.symm, Linked.symm⟩
        rw [hval y hyk, hsymm, hnew y hyk]
        split
        · next heq => exact iff_of_true rfl heq
        · next heq => exact iff_of_false (Ne.symm (hrep y hyk)) heq
    · rw [hval x hxk]
      by_cases hyt : y = t
      · rw [hyt, hvalt, hnew x hxk]
        split
        · next heq => exact iff_of_true rfl heq
        · next heq => exact iff_of_false (hrep x hxk) heq
      · have hyk := (Set.mem_insert_iff.mp hy).resolve_left hyt
        rw [hval y hyk, hold x hxk y hyk, ← h.linked x hxk y hyk]
        have hx' := hrep x hxk
        have hy' := hrep y hyk
        grind
  · have hgroup : ∀ u, Linked ((s, t) :: k.all) s u → Linked ((s, t) :: k.tree) s u := by
      have htree : ∀ u, Linked k.all s u → Linked k.tree s u := by
        intro u hu
        by_contra hout
        exact hcrossed ⟨u, hu, hout⟩
      have hmore : ∀ u, Linked k.tree s u → Linked ((s, t) :: k.tree) s u :=
        fun u => linked_mono fun arc harc => List.mem_cons_of_mem _ harc
      intro u hu
      rcases linked_cons.mp hu with hu | ⟨-, htu⟩ | ⟨hst, -⟩
      · exact hmore u (htree u hu)
      · rw [← isolated h ht htu]
        exact linked_of_mem List.mem_cons_self
      · exact absurd hst (hapart s hs)
    have hcalm : ∀ x, Linked ((s, t) :: k.all) s x →
        ¬ Crossed ⟨(s, t) :: k.tree, (s, t) :: k.all⟩ x := by
      rintro x hsx ⟨u, hu, hout⟩
      exact hout ((hgroup x hsx).symm.trans (hgroup u (hsx.trans hu)))
    have hst : Linked ((s, t) :: k.all) s t := linked_of_mem List.mem_cons_self
    rw [hrank]
    rcases Set.mem_insert_iff.mp hx with rfl | hxk
    · rw [hvalt, Function.update_self]
      exact iff_of_false (fun hzero => hzero rfl) (hcalm x hst)
    · rw [hval x hxk]
      split
      · next heq =>
        rw [Function.update_self]
        refine iff_of_false (fun hzero => hzero rfl) (hcalm x ?_)
        exact ((hold x hxk s hs).mpr ((h.linked x hxk s hs).mp heq)).symm
      · next heq =>
        have hxs : ¬ Linked k.all x s := mt (h.linked x hxk s hs).mpr heq
        rw [Function.update_of_ne (hrep x hxk), h.ranked x hxk]
        have hall : ∀ u, Linked ((s, t) :: k.all) x u ↔ Linked k.all x u := by
          intro u
          rw [linked_cons, or_iff_left]
          rintro (⟨hxs', -⟩ | ⟨hxt, -⟩)
          · exact hxs hxs'
          · exact hapart x hxk hxt
        have htree : ∀ u, Linked ((s, t) :: k.tree) x u ↔ Linked k.tree x u := by
          intro u
          rw [linked_cons, or_iff_left]
          rintro (⟨hxs', -⟩ | ⟨hxt, -⟩)
          · exact hxs (linked_mono h.tree hxs')
          · exact hapart x hxk (linked_mono h.tree hxt)
        refine exists_congr fun u => ?_
        rw [hall, htree]
  · intro arc harc
    rcases List.mem_cons.mp harc with rfl | harc
    · exact ⟨Set.mem_insert_of_mem t hs, Set.mem_insert t known⟩
    · obtain ⟨hfrom, hto⟩ := h.ends arc harc
      exact ⟨Set.mem_insert_of_mem t hfrom, Set.mem_insert_of_mem t hto⟩
  · intro arc harc
    rcases List.mem_cons.mp harc with rfl | harc
    · exact List.mem_cons_self
    · exact List.mem_cons_of_mem _ (h.tree arc harc)

end Mirroring

section Replaying

/- What the visitor makes of one report. -/
def apply (event : Event) (v : CcVisitor) : CcVisitor :=
  match event with
  | .enter s => (CcVisitor.initState s v).2
  | .descend s t => (CcVisitor.treeArc s t v).2
  | .look s t => (CcVisitor.joinArc s t v).2

def replay (v : CcVisitor) (events : List Event) : CcVisitor := events.foldr apply v

theorem mimics_replay (v : CcVisitor) :
    Mimics (L := L) (W := W) (replay v) traceVisitor ccVisitor := by
  constructor <;> intros <;> rfl

def entered (events : List Event) : Set ℕ := {s | .enter s ∈ events}

theorem mirrors_replay (v : CcVisitor) (h : Proper events) :
    ∃ rep depth, Mirrors (replay v events).comps (entered events) (kept events) rep depth := by
  induction h with
  | nil =>
    refine ⟨id, fun _ => 0, ⟨?_, ?_, ?_⟩, ?_, ?_, ?_, ?_⟩ <;> simp [entered, kept]
  | @root events r hproper hr ih =>
    obtain ⟨rep, depth, hmirrors⟩ := ih
    have hset : entered (.enter r :: events) = insert r (entered events) := by
      ext s
      simp [entered]
    rw [hset, kept]
    exact ⟨_, _, mirrors_insert hmirrors hr (forest_makeSet hmirrors.forest hr) rfl⟩
  | @descend events s t hproper hs ht ih =>
    obtain ⟨rep, depth, hmirrors⟩ := ih
    have hset : entered (.enter t :: .descend s t :: events) = insert t (entered events) := by
      ext s
      simp [entered]
    rw [hset, kept, kept]
    split
    · next hcrossed =>
      obtain ⟨hforest, hrank⟩ := reenter_ranked hmirrors.forest hs ht
        ((hmirrors.ranked s hs).mpr hcrossed)
      exact ⟨_, _, mirrors_insert hmirrors ht hforest hrank⟩
    · next hcrossed => exact mirrors_descend hmirrors hs ht hcrossed
  | @look events s t hproper hs ht ih =>
    obtain ⟨rep, depth, hmirrors⟩ := ih
    have hset : entered (.look s t :: events) = entered events := by
      ext s
      simp [entered]
    rw [hset, kept]
    exact mirrors_look hmirrors hs ht

def enters (events : List Event) : List ℕ :=
  events.filterMap fun event => match event with
    | .enter s => some s
    | _ => none

theorem mem_enters {s : ℕ} : s ∈ enters events ↔ .enter s ∈ events := by
  unfold enters
  rw [List.mem_filterMap]
  constructor
  · rintro ⟨event, hmem, hsome⟩
    cases event with
    | enter s' => exact Option.some.inj hsome ▸ hmem
    | descend s' t' => cases hsome
    | look s' t' => cases hsome
  · exact fun hmem => ⟨.enter s, hmem, rfl⟩

theorem nodup_enters (h : Proper events) : (enters events).Nodup := by
  induction h with
  | nil => exact List.nodup_nil
  | root _ hr ih => exact List.nodup_cons.mpr ⟨fun hmem => hr (mem_enters.mp hmem), ih⟩
  | descend _ _ ht ih => exact List.nodup_cons.mpr ⟨fun hmem => ht (mem_enters.mp hmem), ih⟩
  | look _ _ _ ih => exact ih

theorem nstates_replay (v : CcVisitor) (events : List Event) :
    (replay v events).nstates = v.nstates + (enters events).length := by
  induction events with
  | nil => rfl
  | cons event events ih =>
    cases event with
    | enter s =>
      change (replay v events).nstates + 1 = v.nstates + ((enters events).length + 1)
      omega
    | descend s t => exact ih
    | look s t => exact ih

theorem cc_replay (v : CcVisitor) (events : List Event) : (replay v events).cc = v.cc := by
  induction events with
  | nil => rfl
  | cons event events ih => cases event <;> exact ih

theorem enters_length (h : Proper events) {n : ℕ} (hn : ∀ s, .enter s ∈ events ↔ s < n) :
    (enters events).length = n := by
  have hperm : (enters events).Perm (List.range n) := by
    refine (List.perm_ext_iff_of_nodup (nodup_enters h) List.nodup_range).mpr fun s => ?_
    rw [mem_enters, hn, List.mem_range]
  rw [hperm.length_eq, List.length_range]

end Replaying

section Numbering

variable {rep depth : ℕ → ℕ} {known : Set ℕ} {n : ℕ}

/- `numberState` where the representatives are known. -/
def numberRep (rep : ℕ → ℕ) (acc : (ℕ → Option ℕ) × ℕ) (s : ℕ) : (ℕ → Option ℕ) × ℕ :=
  let comp := (acc.1 (rep s)).getD acc.2
  (Function.update (Function.update acc.1 s (some comp)) (rep s) (some comp),
    if (acc.1 (rep s)).isNone then acc.2 + 1 else acc.2)

theorem numberStates_spec {l : List ℕ} (hl : ∀ s ∈ l, s ∈ known) {uf : UnionFind}
    (h : Forest uf known rep depth) (acc : (ℕ → Option ℕ) × ℕ) :
    ∃ uf', l.foldl CcVisitor.numberState ⟨uf, acc.1, acc.2⟩ =
        ⟨uf', (l.foldl (numberRep rep) acc).1, (l.foldl (numberRep rep) acc).2⟩ ∧
      Forest uf' known rep depth := by
  induction l generalizing uf acc with
  | nil => exact ⟨uf, rfl, h⟩
  | cons s l ih =>
    obtain ⟨hfind, hforest, -⟩ := findSet_spec h (hl s List.mem_cons_self)
    obtain ⟨uf', hfold, hforest'⟩ := ih (fun t ht => hl t (List.mem_cons_of_mem _ ht)) hforest
      (numberRep rep acc s)
    refine ⟨uf', ?_, hforest'⟩
    rw [List.foldl_cons, List.foldl_cons, ← hfold]
    congr 1
    unfold CcVisitor.numberState numberRep
    dsimp only
    rw [hfind, Option.getD_some]

/- The numbers of the first `k` states. -/
structure Numbering (rep : ℕ → ℕ) (k : ℕ) (acc : (ℕ → Option ℕ) × ℕ) : Prop where
  same : ∀ x < k, ∀ y < k, (acc.1 x = acc.1 y ↔ rep x = rep y)
  numbered : ∀ x < k, ∃ c < acc.2, acc.1 x = some c ∧ acc.1 (rep x) = some c
  used : ∀ c < acc.2, ∃ x < k, acc.1 x = some c
  rest : ∀ z, k ≤ z → acc.1 z ≠ none → ∃ x < k, rep x = z

/- A state of a component that has its number. -/
theorem numbering_known {k : ℕ} (htwice : ∀ y < k + 1, rep (rep y) = rep y) {cc cc' : ℕ → Option ℕ}
    {ncomp c : ℕ} (h : Numbering rep k (cc, ncomp)) (hcomp : cc (rep k) = some c)
    (hself : cc' k = some c) (hother : ∀ z ≠ k, cc' z = cc z) :
    Numbering rep (k + 1) (cc', ncomp) := by
  obtain ⟨x, hx, hxk⟩ : ∃ x < k, rep x = rep k := by
    by_cases hlt : rep k < k
    · exact ⟨rep k, hlt, htwice k (Nat.lt_succ_self k)⟩
    · exact h.rest (rep k) (Nat.le_of_not_lt hlt) (by simp [hcomp])
  obtain ⟨c', hlt, hcx, hcr⟩ := h.numbered x hx
  dsimp only at hlt hcx hcr
  obtain rfl : c = c' := by
    rw [hxk, hcomp] at hcr
    exact Option.some.inj hcr
  have hlast : ∀ y < k, (cc y = some c ↔ rep y = rep k) := by
    intro y hy
    rw [← hcx, ← hxk]
    exact h.same y hy x hx
  have hold : ∀ y < k, cc' y = cc y := fun y hy => hother y hy.ne
  have hrep : ∀ y < k + 1, cc' (rep y) = cc (rep y) := by
    intro y hy
    by_cases heq : rep y = k
    · have hroot := htwice y hy
      rw [heq] at hroot
      rw [heq, hself, ← hcomp, hroot]
    · exact hother _ heq
  refine ⟨fun y hy z hz => ?_, fun y hy => ?_, fun c' hc' => ?_, fun z hz hnone => ?_⟩
  · rcases Nat.lt_succ_iff_lt_or_eq.mp hy with hyk | rfl
    · rcases Nat.lt_succ_iff_lt_or_eq.mp hz with hzk | rfl
      · dsimp only
        rw [hold y hyk, hold z hzk]
        exact h.same y hyk z hzk
      · dsimp only
        rw [hold y hyk, hself]
        exact hlast y hyk
    · rcases Nat.lt_succ_iff_lt_or_eq.mp hz with hzk | rfl
      · dsimp only
        rw [hold z hzk, hself, eq_comm, hlast z hzk, eq_comm]
      · exact iff_of_true rfl rfl
  · dsimp only
    rcases Nat.lt_succ_iff_lt_or_eq.mp hy with hyk | rfl
    · rw [hrep y hy, hold y hyk]
      exact h.numbered y hyk
    · rw [hrep y hy]
      exact ⟨c, hlt, hself, hcomp⟩
  · obtain ⟨y, hy, hcy⟩ := h.used c' hc'
    exact ⟨y, by omega, (hold y hy).trans hcy⟩
  · dsimp only at hnone
    rw [hother z (by omega)] at hnone
    obtain ⟨y, hy, hyz⟩ := h.rest z (by omega) hnone
    exact ⟨y, by omega, hyz⟩

/- The first state of a component. -/
theorem numbering_fresh {k : ℕ} (htwice : ∀ y < k + 1, rep (rep y) = rep y) {cc cc' : ℕ → Option ℕ}
    {ncomp : ℕ} (h : Numbering rep k (cc, ncomp)) (hcomp : cc (rep k) = none)
    (hself : cc' k = some ncomp) (hroot : cc' (rep k) = some ncomp)
    (hother : ∀ z ≠ k, z ≠ rep k → cc' z = cc z) : Numbering rep (k + 1) (cc', ncomp + 1) := by
  have hfresh : ∀ y < k, rep y ≠ rep k := by
    intro y hy heq
    obtain ⟨c, -, -, hc⟩ := h.numbered y hy
    dsimp only at hc
    rw [heq, hcomp] at hc
    cases hc
  have hold : ∀ y < k, cc' y = cc y ∧ cc' (rep y) = cc (rep y) := by
    intro y hy
    refine ⟨hother y hy.ne fun heq => ?_, hother _ (fun heq => ?_) (hfresh y hy)⟩
    · refine hfresh y hy ?_
      rw [heq, htwice k (Nat.lt_succ_self k)]
    · refine hfresh y hy ?_
      rw [← htwice y (by omega), heq]
  have hless : ∀ y < k, cc y ≠ some ncomp := by
    intro y hy heq
    obtain ⟨c, hc, hcy, -⟩ := h.numbered y hy
    dsimp only at hc hcy
    rw [heq] at hcy
    exact absurd (Option.some.inj hcy) hc.ne'
  refine ⟨fun y hy z hz => ?_, fun y hy => ?_, fun c' hc' => ?_, fun z hz hnone => ?_⟩
  · rcases Nat.lt_succ_iff_lt_or_eq.mp hy with hyk | rfl
    · rcases Nat.lt_succ_iff_lt_or_eq.mp hz with hzk | rfl
      · dsimp only
        rw [(hold y hyk).1, (hold z hzk).1]
        exact h.same y hyk z hzk
      · dsimp only
        rw [(hold y hyk).1, hself]
        exact iff_of_false (hless y hyk) (hfresh y hyk)
    · rcases Nat.lt_succ_iff_lt_or_eq.mp hz with hzk | rfl
      · dsimp only
        rw [(hold z hzk).1, hself]
        exact iff_of_false (Ne.symm (hless z hzk)) (Ne.symm (hfresh z hzk))
      · exact iff_of_true rfl rfl
  · dsimp only
    rcases Nat.lt_succ_iff_lt_or_eq.mp hy with hyk | rfl
    · obtain ⟨c, hc, hcy, hcr⟩ := h.numbered y hyk
      rw [(hold y hyk).1, (hold y hyk).2]
      exact ⟨c, hc.trans (Nat.lt_succ_self ncomp), hcy, hcr⟩
    · exact ⟨ncomp, Nat.lt_succ_self ncomp, hself, hroot⟩
  · rcases Nat.lt_succ_iff_lt_or_eq.mp hc' with hlt | rfl
    · obtain ⟨y, hy, hcy⟩ := h.used c' hlt
      exact ⟨y, by omega, (hold y hy).1.trans hcy⟩
    · exact ⟨k, Nat.lt_succ_self k, hself⟩
  · dsimp only at hnone
    by_cases heq : z = rep k
    · exact ⟨k, Nat.lt_succ_self k, heq.symm⟩
    · rw [hother z (by omega) heq] at hnone
      obtain ⟨y, hy, hyz⟩ := h.rest z (by omega) hnone
      exact ⟨y, by omega, hyz⟩

theorem numbering_range (htwice : ∀ x < n, rep (rep x) = rep x) :
    Numbering rep n ((List.range n).foldl (numberRep rep) (fun _ => none, 0)) := by
  induction n with
  | zero =>
    refine ⟨fun x hx => absurd hx (Nat.not_lt_zero x), fun x hx => absurd hx (Nat.not_lt_zero x),
      fun c hc => absurd hc (Nat.not_lt_zero c), fun z _ hnone => absurd rfl hnone⟩
  | succ k ih =>
    have h := ih fun x hx => htwice x (by omega)
    rw [List.range_succ, List.foldl_append, List.foldl_cons, List.foldl_nil]
    generalize (List.range k).foldl (numberRep rep) (fun _ => none, 0) = acc at h ⊢
    obtain ⟨cc, ncomp⟩ := acc
    unfold numberRep
    rcases Option.eq_none_or_eq_some (cc (rep k)) with hcomp | ⟨c, hcomp⟩
    · simp only [hcomp, Option.getD_none, Option.isNone_none, if_true]
      refine numbering_fresh htwice h hcomp ?_ (Function.update_self ..) fun z hz hzr => ?_
      · rw [Function.update_apply]
        split
        · rfl
        · exact Function.update_self ..
      · rw [Function.update_of_ne hzr, Function.update_of_ne hz]
    · simp only [hcomp, Option.getD_some, Option.isNone_some, Bool.false_eq_true, if_false]
      refine numbering_known htwice h hcomp ?_ fun z hz => ?_
      · rw [Function.update_apply]
        split
        · rfl
        · exact Function.update_self ..
      · rw [Function.update_apply]
        split
        · next heq => rw [heq, hcomp]
        · exact Function.update_of_ne hz _ _

end Numbering


section Finished

variable {fst : VectorFst L W} {start : ℕ}

theorem linked_of_bypassed (hrange : fst.InRange) (hstart : fst.start = some start)
    (h : Bypassed fst) {s t : ℕ} (hst : EqvGen (Follows fst fun _ => true) s t) :
    Linked (kept (trace fst)).all s t := by
  obtain ⟨-, -, halong⟩ := trace_spec fst hstart hrange
  induction hst with
  | rel s t hfollows =>
    rcases (halong s t).mpr hfollows with hdescend | hlook
    · exact h s t hdescend
    · exact linked_of_mem (kept_of_look hlook)
  | refl s => exact linked_refl s
  | symm s t _ ih => exact ih.symm
  | trans s t u _ _ ih ih' => exact ih.trans ih'

theorem connected_of_linked (hrange : fst.InRange) (hstart : fst.start = some start) {s t : ℕ}
    (h : Linked (kept (trace fst)).all s t) : EqvGen (Follows fst fun _ => true) s t := by
  obtain ⟨-, -, halong⟩ := trace_spec fst hstart hrange
  exact EqvGen.mono (fun s t hmem => (halong s t).mp (mem_of_kept hmem)) _ _ h

theorem components_iff (hrange : fst.InRange) (hstart : fst.start = some start)
    {rep : ℕ → ℕ} (hrep : ∀ x < fst.numStates, rep x < fst.numStates ∧ rep (rep x) = rep x)
    (hlinked : ∀ x < fst.numStates, ∀ y < fst.numStates,
      (rep x = rep y ↔ Linked (kept (trace fst)).all x y))
    {acc : (ℕ → Option ℕ) × ℕ} (h : Numbering rep fst.numStates acc) :
    Components fst acc.1 acc.2 ↔ Bypassed fst := by
  constructor
  · intro hcomponents s t hdescend
    obtain ⟨-, -, halong⟩ := trace_spec fst hstart hrange
    have hfollows := (halong s t).mp (.inl hdescend)
    have hs := TarjanExact.lt_of_follows hfollows
    obtain ⟨arc, harc, -, rfl⟩ := hfollows
    have ht := hrange.arcs s arc harc
    refine (hlinked s hs _ ht).mp ((h.same s hs _ ht).mp ?_)
    exact (hcomponents.component s hs _ ht).mpr (EqvGen.rel _ _ ⟨arc, harc, rfl, rfl⟩)
  · intro hbypassed
    refine ⟨fun s hs t ht => ?_, fun s hs => ?_, h.used, fun s hs => ?_⟩
    · rw [h.same s hs t ht, hlinked s hs t ht]
      exact ⟨connected_of_linked hrange hstart, linked_of_bypassed hrange hstart hbypassed⟩
    · obtain ⟨c, hc, hcs, -⟩ := h.numbered s hs
      exact ⟨c, hc, hcs⟩
    · by_contra hnone
      obtain ⟨x, hx, hxs⟩ := h.rest s hs hnone
      have hlt := (hrep x hx).1
      omega

/- What the vector holds is made of the representatives, and so is the same however often it is
asked for. -/
theorem getCcVector_spec (hrange : fst.InRange) (hstart : fst.start = some start)
    {v : CcVisitor} (hn : v.nstates = 0) : ∃ acc : (ℕ → Option ℕ) × ℕ,
      (Components fst acc.1 acc.2 ↔ Bypassed fst) ∧
      ∀ v' : CcVisitor, v'.nstates = fst.numStates →
        (v'.comps = (replay v (trace fst)).comps ∨
          v'.comps = (CcVisitor.getCcVector (replay v (trace fst))).comps) →
        (CcVisitor.getCcVector v').cc = acc.1 ∧ (CcVisitor.getCcVector v').ncomp = acc.2 := by
  obtain ⟨hproper, hentered, -⟩ := trace_spec fst hstart hrange
  obtain ⟨rep, depth, hmirrors⟩ := mirrors_replay v hproper
  have hmem : ∀ s, s ∈ entered (trace fst) ↔ s < fst.numStates := hentered
  have hrep : ∀ x < fst.numStates, rep x < fst.numStates ∧ rep (rep x) = rep x := by
    intro x hx
    obtain ⟨hknown, htwice, -⟩ := rep_spec hmirrors.forest ((hmem x).mpr hx)
    exact ⟨(hmem _).mp hknown, htwice⟩
  have hlinked : ∀ x < fst.numStates, ∀ y < fst.numStates,
      (rep x = rep y ↔ Linked (kept (trace fst)).all x y) := fun x hx y hy =>
    hmirrors.linked x ((hmem x).mpr hx) y ((hmem y).mpr hy)
  have hget : ∀ v' : CcVisitor, v'.nstates = fst.numStates →
      Forest v'.comps (entered (trace fst)) rep depth → ∃ uf', CcVisitor.getCcVector v' =
        ⟨uf', ((List.range fst.numStates).foldl (numberRep rep) (fun _ => none, 0)).1,
          ((List.range fst.numStates).foldl (numberRep rep) (fun _ => none, 0)).2⟩ ∧
        Forest uf' (entered (trace fst)) rep depth := by
    intro v' hn' hforest
    unfold CcVisitor.getCcVector
    rw [hn']
    exact numberStates_spec (fun s hs => (hmem s).mpr (List.mem_range.mp hs)) hforest
      (fun _ => none, 0)
  have hstates : (replay v (trace fst)).nstates = fst.numStates := by
    rw [nstates_replay, hn, enters_length hproper hentered, Nat.zero_add]
  refine ⟨_, components_iff hrange hstart hrep hlinked
    (numbering_range fun x hx => (hrep x hx).2), fun v' hn' hcomps => ?_⟩
  have hforest : Forest v'.comps (entered (trace fst)) rep depth := by
    rcases hcomps with heq | heq
    · rw [heq]
      exact hmirrors.forest
    · obtain ⟨uf', hvector, hforest'⟩ := hget _ hstates hmirrors.forest
      rw [heq, hvector]
      exact hforest'
  obtain ⟨uf', hvector, -⟩ := hget v' hn' hforest
  rw [hvector]
  exact ⟨rfl, rfl⟩

theorem cc_components_iff (hrange : fst.InRange) (hstart : fst.start = some start)
    (comps : UnionFind) :
    (Components fst (connect fst (CcVisitor.newWithComps comps)).getCcVector.cc
      (connect fst (CcVisitor.newWithComps comps)).getCcVector.ncomp ↔ Bypassed fst) ∧
    ∃ cc, (connect fst CcVisitor.newWithCc).cc = some cc ∧
      (Components fst cc (connect fst CcVisitor.newWithCc).getCcVector.ncomp ↔
        Bypassed fst) := by
  have hvisit : ∀ v : CcVisitor, connect fst v =
      (replay v (trace fst)).finishVisit := by
    intro v
    have htrace : trace fst =
        (searchFrom fst traceVisitor (fun _ => true) false start []).visitor := by
      unfold trace dfsVisitAny dfsVisit
      rw [hstart]
      rfl
    rw [htrace]
    exact dfsVisitAny_map (mimics_replay v) [] rfl hstart
  have hstates : ∀ v : CcVisitor, v.nstates = 0 →
      (replay v (trace fst)).nstates = fst.numStates := by
    intro v hn
    obtain ⟨hproper, hentered, -⟩ := trace_spec fst hstart hrange
    rw [nstates_replay, hn, enters_length hproper hentered, Nat.zero_add]
  constructor
  · have hfinish : (replay (CcVisitor.newWithComps comps) (trace fst)).finishVisit =
        replay (CcVisitor.newWithComps comps) (trace fst) := by
      unfold CcVisitor.finishVisit
      rw [cc_replay]
      rfl
    rw [hvisit, hfinish]
    obtain ⟨acc, hacc, hget⟩ := getCcVector_spec hrange hstart
      (rfl : (CcVisitor.newWithComps comps).nstates = 0)
    obtain ⟨hcc, hn⟩ := hget _ (hstates _ rfl) (.inl rfl)
    rw [hcc, hn]
    exact hacc
  · have hfinish : (replay CcVisitor.newWithCc (trace fst)).finishVisit =
        { replay CcVisitor.newWithCc (trace fst) with
          comps := (CcVisitor.getCcVector (replay CcVisitor.newWithCc (trace fst))).comps
          cc := some (CcVisitor.getCcVector (replay CcVisitor.newWithCc (trace fst))).cc } := by
      unfold CcVisitor.finishVisit
      rw [cc_replay]
      rfl
    rw [hvisit, hfinish]
    obtain ⟨acc, hacc, hget⟩ := getCcVector_spec hrange hstart
      (rfl : CcVisitor.newWithCc.nstates = 0)
    obtain ⟨hcc, -⟩ := hget _ (hstates _ rfl) (.inl rfl)
    obtain ⟨-, hn⟩ := hget { replay CcVisitor.newWithCc (trace fst) with
      comps := (CcVisitor.getCcVector (replay CcVisitor.newWithCc (trace fst))).comps
      cc := some (CcVisitor.getCcVector (replay CcVisitor.newWithCc (trace fst))).cc }
        (hstates _ rfl) (.inr rfl)
    refine ⟨_, rfl, ?_⟩
    rw [hn, hcc]
    exact hacc

/- The last state is descended on from a state that has had an arc to the tree before. -/
def forkFst : VectorFst ℤ ℕ :=
  ⟨[⟨1, [], 0, 0⟩, ⟨0, [⟨1, 1, 1, 0⟩, ⟨1, 1, 1, 2⟩], 0, 0⟩, ⟨1, [], 0, 0⟩], some 0, 0⟩

theorem forkFst_inRange : forkFst.InRange := by
  constructor
  · intro s hs
    obtain rfl : 0 = s := Option.some.inj hs
    decide
  · refine VectorFst.forall_arcs_of_lt fun s hs => ?_
    change s < 3 at hs
    interval_cases s <;> decide

theorem cc_components_iff_fork : forkFst.InRange ∧ forkFst.start = some 0 ∧
    (Components forkFst
      (connect forkFst (CcVisitor.newWithComps (UnionFind.new 3))).getCcVector.cc
      (connect forkFst (CcVisitor.newWithComps (UnionFind.new 3))).getCcVector.ncomp ↔
        Bypassed forkFst) :=
  ⟨forkFst_inRange, rfl, (cc_components_iff forkFst_inRange rfl (UnionFind.new 3)).1⟩

theorem fork_components :
    ¬ ∃ cc, (connect forkFst CcVisitor.newWithCc).cc = some cc ∧
      Components forkFst cc
        (connect forkFst CcVisitor.newWithCc).getCcVector.ncomp := by
  rintro ⟨cc, hcc, h⟩
  have hfollows : Follows forkFst (fun _ => true) 1 2 :=
    ⟨⟨1, 1, 1, 2⟩, by decide, rfl, rfl⟩
  have hsame := (h.component 1 (by decide) 2 (by decide)).mpr (EqvGen.rel _ _ hfollows)
  have hapart : ∀ cc, (connect forkFst CcVisitor.newWithCc).cc = some cc →
      cc 1 ≠ cc 2 := by
    have hnumbers : (connect forkFst CcVisitor.newWithCc).cc.map (fun cc => (cc 1, cc 2)) =
        some (some 0, some 1) := by decide
    intro cc hcc heq
    rw [hcc, Option.map_some, heq] at hnumbers
    have hpair := Option.some.inj hnumbers
    cases (congrArg Prod.fst hpair).symm.trans (congrArg Prod.snd hpair)
  exact hapart cc hcc hsame

end Finished

end Sicada.CcComponents
