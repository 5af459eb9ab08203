import Sicada.ReplaceUtilRuns

namespace Sicada.ReplaceUtilConnect

open Relation CcVisitors SccRuns ConnectExact ConnectTrims ReplaceUtil ReplaceUtilRuns

variable {L W : Type} [ArcLabel L] [Zero W] [One W] [DecidableEq W]

/- Every state is on a way from the start to a final weight. -/
def Trimmed (isMember : W → Bool) (fst : VectorFst L W) : Prop :=
  ∀ s < fst.numStates, Useful isMember fst s

/- A call that some path through its FST makes. -/
def LiveCall (isMember : W → Bool) (util : ReplaceUtil L W) (i j : ℕ) : Prop :=
  ∃ fst, util.fstAt i = some fst ∧ ∃ s, ∃ arc ∈ fst.arcs s, Useful isMember fst s ∧
    Useful isMember fst arc.nextstate ∧ util.calledFst arc.olabel = some j

/- What the root can still reach once every FST is trimmed. -/
def LiveReach (isMember : W → Bool) (util : ReplaceUtil L W) (i : ℕ) : Prop :=
  ReflTransGen (LiveCall isMember util) util.root i

/- What is asked of `connect`. -/
structure Connects (isMember : W → Bool) (util util' : ReplaceUtil L W) : Prop where
  connected : (util'.connected isMember).1 = true
  trimmed : ∀ i fst, util'.fstAt i = some fst →
    Trimmed isMember fst ∧ ReflTransGen (Call util') util'.root i
  kept : ∀ i, (util.fstAt i).isSome → LiveReach isMember util i → (util'.fstAt i).isSome

/- Neither the bits of an FST nor the call graph at hand say more than is so. -/
structure Fresh (isMember : W → Bool) (util : ReplaceUtil L W) : Prop where
  trusted : ∀ i fst, util.fstAt i = some fst → LiveReach isMember util i →
    fst.properties &&& usefulProps = usefulProps → Trimmed isMember fst
  cached : ∀ deps, util.deps = some deps → ∀ i, (util.fstAt i).isSome →
    (deps.access i = true ↔ LiveReach isMember util i)

variable {isMember : W → Bool} {util util' : ReplaceUtil L W} {fst : VectorFst L W}

section Bits

theorem covers_or {x U : BitVec 64} (h : x &&& U = U) (y : BitVec 64) : (x ||| y) &&& U = U := by
  rw [BitVec.and_or_distrib_right, h]
  apply BitVec.eq_of_getLsbD_eq
  intro i hi
  simp only [BitVec.getLsbD_or, BitVec.getLsbD_and]
  cases U.getLsbD i <;> simp

theorem known_of_held {props : BitVec 64} (h : props &&& usefulProps = usefulProps) :
    knownProperties props &&& usefulProps = usefulProps := by
  have htrinary : props &&& kTrinaryProperties &&& usefulProps = usefulProps := by
    have hmask : kTrinaryProperties &&& usefulProps = usefulProps := by decide
    rw [BitVec.and_assoc, hmask]
    exact h
  have hbinary : (kBinaryProperties ||| props &&& kTrinaryProperties) &&& usefulProps =
      usefulProps := by
    rw [BitVec.or_comm]
    exact covers_or htrinary _
  unfold knownProperties
  exact covers_or (covers_or hbinary _) _

/- Bits that are known are not looked for. -/
theorem cached_of_held (h : fst.properties &&& usefulProps = usefulProps) :
    cachedProperties isMember fst usefulProps = usefulProps := by
  have hstored : fst.properties &&& kFstProperties &&& usefulProps = usefulProps := by
    have hmask : kFstProperties &&& usefulProps = usefulProps := by decide
    rw [BitVec.and_assoc, hmask]
    exact h
  unfold cachedProperties computeOrUseStoredProperties
  dsimp only
  rw [if_pos (known_of_held hstored)]
  exact hstored

theorem held_setProperties (fst : VectorFst L W) :
    (fst.setProperties usefulProps usefulProps).properties &&& usefulProps = usefulProps := by
  unfold VectorFst.setProperties
  dsimp only
  rw [BitVec.or_comm, BitVec.and_self]
  exact covers_or (BitVec.and_self) _

end Bits

section Trimming

/- An FST whose bits can be trusted is left trimmed, with bits that say so. -/
theorem trimmed_trim (h : fst.InRange)
    (htrusted : fst.properties &&& usefulProps = usefulProps → Trimmed isMember fst) :
    Trimmed isMember (trim isMember fst) := by
  obtain ⟨fst', old, hconnect, htrims, -⟩ := trims_connect isMember h
  unfold trim
  split
  · rw [hconnect]
    exact fun k hk => useful_trimmed htrims hk
  next hheld => exact htrusted (not_not.mp hheld)

theorem held_trim (h : fst.InRange) :
    (trim isMember fst).properties &&& usefulProps = usefulProps := by
  unfold trim
  split
  · obtain ⟨fst', old, hconnect, -⟩ := trims_connect isMember h
    rw [hconnect]
    obtain ⟨deleted, -, rfl⟩ := Option.map_eq_some_iff.mp hconnect
    exact held_setProperties deleted
  next hheld => exact not_not.mp hheld

theorem calledFst_congr (h : util'.labels = util.labels) : util'.calledFst = util.calledFst := by
  funext olabel
  unfold ReplaceUtil.calledFst
  rw [h]

/- The labels that are left once an FST is trimmed are those on its paths. -/
theorem labels_trim (h : fst.InRange) (olabel : L)
    (hlive : ∃ s, ∃ arc ∈ fst.arcs s, Useful isMember fst s ∧ Useful isMember fst arc.nextstate ∧
      arc.olabel = olabel) : ∃ s, ∃ arc ∈ (trim isMember fst).arcs s, arc.olabel = olabel := by
  obtain ⟨s, arc, harc, hs, hnext, rfl⟩ := hlive
  obtain ⟨fst', old, hconnect, htrims, -⟩ := trims_connect isMember h
  unfold trim
  split
  · rw [hconnect, Option.getD_some]
    have hlt : s < fst.numStates := by
      by_contra hge
      rw [VectorFst.arcs_of_le (Nat.le_of_not_lt hge)] at harc
      cases harc
    obtain ⟨k, hk, rfl⟩ := (htrims.range s).mpr ⟨hlt, hs⟩
    have hmem : arc ∈ (fst'.arcs k).map fun arc => { arc with nextstate := old arc.nextstate } := by
      rw [htrims.arcs k hk, List.mem_filter]
      exact ⟨harc, by simpa using hnext⟩
    obtain ⟨arc', harc', rfl⟩ := List.mem_map.mp hmem
    exact ⟨k, arc', harc', rfl⟩
  · exact ⟨s, arc, harc, rfl⟩

theorem live_of_trim (h : fst.InRange)
    (htrusted : fst.properties &&& usefulProps = usefulProps → Trimmed isMember fst) {olabel : L}
    (hleft : ∃ s, ∃ arc ∈ (trim isMember fst).arcs s, arc.olabel = olabel) :
    ∃ s, ∃ arc ∈ fst.arcs s, Useful isMember fst s ∧ Useful isMember fst arc.nextstate ∧
      arc.olabel = olabel := by
  obtain ⟨s, arc, harc, rfl⟩ := hleft
  obtain ⟨fst', old, hconnect, htrims, -⟩ := trims_connect isMember h
  unfold trim at harc
  split at harc
  · rw [hconnect, Option.getD_some] at harc
    have hlt : s < fst'.numStates := by
      by_contra hge
      rw [VectorFst.arcs_of_le (Nat.le_of_not_lt hge)] at harc
      cases harc
    have hmem := List.mem_map_of_mem (f := fun arc : Arc L W =>
      { arc with nextstate := old arc.nextstate }) harc
    rw [htrims.arcs s hlt, List.mem_filter] at hmem
    obtain ⟨hold, hnext⟩ := hmem
    exact ⟨old s, _, hold, ((htrims.range (old s)).mp ⟨s, hlt, rfl⟩).2, by simpa using hnext, rfl⟩
  next hheld =>
    have hall := htrusted (not_not.mp hheld)
    have hlt : s < fst.numStates := by
      by_contra hge
      rw [VectorFst.arcs_of_le (Nat.le_of_not_lt hge)] at harc
      cases harc
    exact ⟨s, arc, harc, hall s hlt, hall _ (h.arcs s arc harc), rfl⟩

theorem call_trimmed (h : Sound util) {i j : ℕ} (hlive : LiveCall isMember util i j) :
    Call (onFsts (trim isMember) util) i j := by
  obtain ⟨fst, hfst, s, arc, harc, hs, hnext, hcallee⟩ := hlive
  obtain ⟨s', arc', harc', hlabel⟩ :=
    labels_trim (h.inRange i fst hfst) arc.olabel ⟨s, arc, harc, hs, hnext, rfl⟩
  refine ⟨trim isMember fst, ?_, s', arc', harc', ?_⟩
  · rw [fstAt_onFsts, hfst, Option.map_some]
  · rw [calledFst_congr (labels_onFsts _ util), hlabel]
    exact hcallee

theorem liveCall_of_call (h : Sound util) {i j : ℕ}
    (htrusted : ∀ fst, util.fstAt i = some fst → fst.properties &&& usefulProps = usefulProps →
      Trimmed isMember fst) (hcall : Call (onFsts (trim isMember) util) i j) :
    LiveCall isMember util i j := by
  obtain ⟨fst', hfst', s, arc, harc, hcallee⟩ := hcall
  rw [fstAt_onFsts] at hfst'
  obtain ⟨fst, hfst, rfl⟩ := Option.map_eq_some_iff.mp hfst'
  rw [calledFst_congr (labels_onFsts _ util)] at hcallee
  obtain ⟨s', arc', harc', hs, hnext, hlabel⟩ :=
    live_of_trim (h.inRange i fst hfst) (htrusted fst hfst) ⟨s, arc, harc, rfl⟩
  exact ⟨fst, hfst, s', arc', harc', hs, hnext, hlabel ▸ hcallee⟩

end Trimming

section Reaching

theorem reach_trimmed (h : Sound util) (hfresh : Fresh isMember util) (i : ℕ) :
    ReflTransGen (Call (onFsts (trim isMember) util)) util.root i ↔ LiveReach isMember util i := by
  constructor
  · intro hreach
    induction hreach with
    | refl => exact ReflTransGen.refl
    | tail _ hcall ih =>
      exact ih.tail (liveCall_of_call h (fun fst hfst => hfresh.trusted _ fst hfst ih) hcall)
  · intro hreach
    exact ReflTransGen.mono (fun _ _ => call_trimmed h) _ _ hreach

/- The marks `connect` goes by. -/
theorem access_trimmed (h : Sound util) (hfresh : Fresh isMember util) {i : ℕ}
    (hi : (util.fstAt i).isSome) :
    ((onFsts (trim isMember) util).dependencies isMember false).access i = true ↔
      LiveReach isMember util i := by
  unfold ReplaceUtil.dependencies
  have hdeps : (onFsts (trim isMember) util).deps = util.deps := rfl
  rw [hdeps]
  cases hcache : util.deps with
  | some deps => exact hfresh.cached deps hcache i hi
  | none =>
    have htrimmed : Sound (onFsts (trim isMember) util) :=
      sound_onFsts h fun fst hfst => trim_inRange hfst
    exact (access_build isMember false htrimmed.root i).trans (reach_trimmed h hfresh i)

theorem call_onFsts {f : VectorFst L W → VectorFst L W} (hf : ∀ fst, (f fst).arcs = fst.arcs) :
    Call (onFsts f util) = Call util := by
  funext i j
  refine propext ⟨?_, ?_⟩
  · rintro ⟨fst', hfst', s, arc, harc, hcallee⟩
    rw [fstAt_onFsts] at hfst'
    obtain ⟨fst, hfst, rfl⟩ := Option.map_eq_some_iff.mp hfst'
    rw [hf] at harc
    rw [calledFst_congr (labels_onFsts f util)] at hcallee
    exact ⟨fst, hfst, s, arc, harc, hcallee⟩
  · rintro ⟨fst, hfst, s, arc, harc, hcallee⟩
    refine ⟨f fst, by rw [fstAt_onFsts, hfst, Option.map_some], s, arc, (hf fst).symm ▸ harc, ?_⟩
    rw [calledFst_congr (labels_onFsts f util)]
    exact hcallee

/- What `connected` answers where no call graph is at hand. -/
theorem connected_iff (h : Sound util) (hdeps : util.deps = none) :
    (util.connected isMember).1 = true ↔ ∀ i fst, util.fstAt i = some fst →
      cachedProperties isMember fst usefulProps = usefulProps ∧
        ReflTransGen (Call util) util.root i := by
  let settled : ReplaceUtil L W := onFsts (fun fst =>
    { fst with properties := settledCache isMember fst usefulProps }) util
  have hsound : Sound settled := sound_onFsts h fun fst hfst => ⟨hfst.start, hfst.arcs⟩
  have haccess : ∀ i, (settled.dependencies isMember false).access i = true ↔
      ReflTransGen (Call util) util.root i := by
    intro i
    have hbuilt : settled.dependencies isMember false =
        settled.buildDependencies isMember false := by
      unfold ReplaceUtil.dependencies
      have hnone : settled.deps = none := hdeps
      rw [hnone]
    have hcall : Call settled = Call util := call_onFsts fun _ => rfl
    rw [hbuilt, access_build isMember false hsound.root i, hcall]
    exact Iff.rfl
  have hconnected : (util.connected isMember).1 = util.fsts.zipIdx.all fun entry =>
      entry.1.2.all fun fst => cachedProperties isMember fst usefulProps = usefulProps &&
        (settled.dependencies isMember false).access entry.2 := rfl
  rw [hconnected, List.all_eq_true]
  constructor
  · intro hall i fst hfst
    obtain ⟨entry, hentry, hsome⟩ := Option.bind_eq_some_iff.mp hfst
    have hboth := hall (entry, i) (List.mem_zipIdx_iff_getElem?.mpr hentry)
    rw [hsome, Option.all_some, Bool.and_eq_true, decide_eq_true_eq, haccess] at hboth
    exact hboth
  · rintro hall ⟨entry, i⟩ hentry
    have hread := List.mem_zipIdx_iff_getElem?.mp hentry
    cases hsome : entry.2 with
    | none => rfl
    | some fst =>
      rw [Option.all_some, Bool.and_eq_true, decide_eq_true_eq, haccess]
      refine hall i fst ?_
      rw [ReplaceUtil.fstAt, hread]
      exact hsome

end Reaching

section Main

/- What is left of an FST that is kept. -/
theorem fstAt_connect {access : ℕ → Bool} {i : ℕ} {fst' : VectorFst L W} :
    (keep access (onFsts (trim isMember) util)).fstAt i = some fst' ↔
      access i = true ∧ ∃ fst, util.fstAt i = some fst ∧ trim isMember fst = fst' := by
  rw [fstAt_keep, fstAt_onFsts]
  cases access i <;> simp

theorem call_keep {access : ℕ → Bool} {i j : ℕ} :
    Call (keep access util) i j ↔ access i = true ∧ Call util i j := by
  unfold Call
  rw [calledFst_congr (labels_keep access util), fstAt_keep]
  cases access i <;> simp

/- Every call that is live leads on from an FST that is kept. -/
theorem reach_kept (h : Sound util) {access : ℕ → Bool}
    (haccess : ∀ i, (util.fstAt i).isSome → LiveReach isMember util i → access i = true) {i : ℕ}
    (hreach : LiveReach isMember util i) :
    ReflTransGen (Call (keep access (onFsts (trim isMember) util))) util.root i := by
  induction hreach with
  | refl => exact ReflTransGen.refl
  | @tail j k hj hcall ih =>
    refine ih.tail (call_keep.mpr ⟨?_, call_trimmed h hcall⟩)
    obtain ⟨fst, hfst, -⟩ := hcall
    exact haccess j (by rw [hfst]; rfl) hj

theorem connects_of_fresh (h : Sound util) (hfresh : Fresh isMember util) :
    ∃ util', util.connect isMember = some util' ∧ Connects isMember util util' := by
  refine ⟨_, connect_eq h, ?_⟩
  have haccess : ∀ i, (util.fstAt i).isSome →
      (((onFsts (trim isMember) util).dependencies isMember false).access i = true ↔
        LiveReach isMember util i) := fun i hi => access_trimmed h hfresh hi
  generalize ((onFsts (trim isMember) util).dependencies isMember false).access = access at haccess
  have hreach : ∀ {i}, LiveReach isMember util i →
      ReflTransGen (Call (keep access (onFsts (trim isMember) util))) util.root i :=
    fun hlive => reach_kept h (fun i hi => (haccess i hi).mpr) hlive
  have hsound : Sound (keep access (onFsts (trim isMember) util)) :=
    sound_keep (sound_onFsts h fun fst hfst => trim_inRange hfst) access
  refine ⟨(connected_iff hsound rfl).mpr fun i fst' hfst' => ?_, fun i fst' hfst' => ?_,
    fun i hi hlive => ?_⟩
  · obtain ⟨hmark, fst, hfst, rfl⟩ := fstAt_connect.mp hfst'
    have hlive := (haccess i (by rw [hfst]; rfl)).mp hmark
    exact ⟨cached_of_held (held_trim (h.inRange i fst hfst)), hreach hlive⟩
  · obtain ⟨hmark, fst, hfst, rfl⟩ := fstAt_connect.mp hfst'
    have hlive := (haccess i (by rw [hfst]; rfl)).mp hmark
    exact ⟨trimmed_trim (h.inRange i fst hfst) (hfresh.trusted i fst hfst hlive), hreach hlive⟩
  · obtain ⟨fst, hfst⟩ := Option.isSome_iff_exists.mp hi
    rw [fstAt_connect.mpr ⟨(haccess i hi).mpr hlive, fst, hfst, rfl⟩]
    rfl

theorem fresh_of_connects (h : Sound util) (hconnects : ∀ util', util.connect isMember = some util' →
    Connects isMember util util') : Fresh isMember util := by
  have hresult := hconnects _ (connect_eq h)
  have hcache : ∀ deps, util.deps = some deps →
      ((onFsts (trim isMember) util).dependencies isMember false).access = deps.access := by
    intro deps hdeps
    unfold ReplaceUtil.dependencies
    have hsome : (onFsts (trim isMember) util).deps = some deps := hdeps
    rw [hsome]
    rfl
  generalize ((onFsts (trim isMember) util).dependencies isMember false).access = access
    at hresult hcache
  have htrusted : ∀ i fst, util.fstAt i = some fst → access i = true →
      fst.properties &&& usefulProps = usefulProps → Trimmed isMember fst := by
    intro i fst hfst hmark hheld
    have htrim := (hresult.trimmed i _ (fstAt_connect.mpr ⟨hmark, fst, hfst, rfl⟩)).1
    unfold trim at htrim
    rwa [if_neg (not_not.mpr hheld)] at htrim
  have hlive : ∀ i, ReflTransGen (Call (keep access (onFsts (trim isMember) util))) util.root i →
      LiveReach isMember util i := by
    intro i hreach
    induction hreach with
    | refl => exact ReflTransGen.refl
    | tail _ hcall ih =>
      obtain ⟨hmark, hcall⟩ := call_keep.mp hcall
      exact ih.tail (liveCall_of_call h (fun fst hfst => htrusted _ fst hfst hmark) hcall)
  have hkept : ∀ i, (util.fstAt i).isSome → LiveReach isMember util i → access i = true := by
    intro i hi hreach
    obtain ⟨fst', hfst'⟩ := Option.isSome_iff_exists.mp (hresult.kept i hi hreach)
    exact (fstAt_connect.mp hfst').1
  constructor
  · intro i fst hfst hreach
    exact htrusted i fst hfst (hkept i (by rw [hfst]; rfl) hreach)
  · intro deps hdeps i hi
    rw [← hcache deps hdeps]
    refine ⟨fun hmark => ?_, hkept i hi⟩
    obtain ⟨fst, hfst⟩ := Option.isSome_iff_exists.mp hi
    exact hlive i (hresult.trimmed i _ (fstAt_connect.mpr ⟨hmark, fst, hfst, rfl⟩)).2

/- After any run `connect` does what is asked of it if and only if neither the bits of the FSTs nor
the call graph at hand say more than is so. -/
theorem connect_connects [ToString L] (isMember : W → Bool) (fuel : ℕ)
    {pairs : List (L × VectorFst L W)} {opts : ReplaceOptions L}
    (h : ∀ pair ∈ pairs, pair.2.InRange) {first : ReplaceUtil L W}
    (hnew : ReplaceUtil.new pairs opts = .ok first) {ops : List (ReplaceUtilOp L)}
    (hrun : runOps (ReplaceUtilOp.apply isMember fuel) ops first = some util) :
    (∃ util', util.connect isMember = some util' ∧ Connects isMember util util') ↔
      Fresh isMember util := by
  have hsound := sound_run h hnew hrun
  constructor
  · rintro ⟨util', hconnect, hconnects⟩
    refine fresh_of_connects hsound fun other hother => ?_
    obtain rfl := Option.some.inj (hconnect.symm.trans hother)
    exact hconnects
  · exact connects_of_fresh hsound

/- The root calls the leaf, but only on the way to a state that leads nowhere. -/
def deadCall : List (ℤ × VectorFst ℤ ℕ) :=
  [(1, ⟨[⟨1, [⟨2, 2, 1, 1⟩], 0, 0⟩, ⟨0, [], 0, 0⟩], some 0, 0⟩), (2, ⟨[⟨1, [], 0, 0⟩], some 0, 0⟩)]

def deadCallUtil : ReplaceUtil ℤ ℕ :=
  ⟨deadCall.map fun pair => (pair.1, some pair.2), 0, .new 1, none⟩

theorem deadCall_inRange : ∀ pair ∈ deadCall, pair.2.InRange := by
  intro pair hpair
  have hstart : ∀ s, pair.2.start = some s → s < pair.2.numStates := by
    simp only [deadCall, List.mem_cons, List.not_mem_nil, or_false] at hpair
    rcases hpair with rfl | rfl
    · rintro s hs
      obtain rfl : 0 = s := Option.some.inj hs
      decide
    · rintro s hs
      obtain rfl : 0 = s := Option.some.inj hs
      decide
  refine ⟨hstart, VectorFst.forall_arcs_of_lt ?_⟩
  revert pair
  decide

theorem connect_connects_dead : ReplaceUtil.new deadCall (.new 1) = .ok deadCallUtil ∧
    ((∃ util', deadCallUtil.connect (fun _ => true) = some util' ∧
      Connects (fun _ => true) deadCallUtil util') ↔ Fresh (fun _ => true) deadCallUtil) := by
  have hnew : ReplaceUtil.new deadCall (.new 1) = .ok deadCallUtil := rfl
  have hrun : runOps (ReplaceUtilOp.apply (fun _ => true) 0) [] deadCallUtil =
      some deadCallUtil := rfl
  exact ⟨hnew, connect_connects (fun _ => true) 0 deadCall_inRange hnew hrun⟩

/- Asked for the cycles first, it keeps the leaf. -/
theorem connect_keeps_dead : ¬ ∀ (pairs : List (ℤ × VectorFst ℤ ℕ)) (opts : ReplaceOptions ℤ)
    (first util : ReplaceUtil ℤ ℕ) (ops : List (ReplaceUtilOp ℤ)) (fuel : ℕ),
      (∀ pair ∈ pairs, pair.2.InRange) → ReplaceUtil.new pairs opts = .ok first →
        runOps (ReplaceUtilOp.apply (fun _ => true) fuel) ops first = some util →
          ∃ util', util.connect (fun _ => true) = some util' ∧
            Connects (fun _ => true) util util' := by
  intro hclaim
  obtain ⟨util', hconnect, hconnects⟩ := hclaim deadCall (.new 1) deadCallUtil
    (deadCallUtil.cyclicDependencies fun _ => true).2 [.cyclicDependencies] 0 deadCall_inRange rfl
      rfl
  have hfalse : ((deadCallUtil.cyclicDependencies fun _ => true).2.connect fun _ => true).map
      (fun util => (util.connected fun _ => true).1) = some false := by decide +kernel
  rw [hconnect, Option.map_some, hconnects.connected] at hfalse
  cases hfalse

end Main

end Sicada.ReplaceUtilConnect
