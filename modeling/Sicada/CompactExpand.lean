import Sicada.CompactFst
import Sicada.ComputeExact

namespace Sicada

namespace CompactExpand

open CompactArcStore PropertyBits ComputeExact

variable {L W E : Type} [ArcLabel L] [Zero W] [One W] [DecidableEq W] {w : ℕ}

variable {own : List E}

section Positions

/- Where the elements of a state begin. -/
def start (els : List (List E)) (i : ℕ) : ℕ := (els.take i).flatten.length

theorem start_cons (first : List E) (els : List (List E)) (i : ℕ) :
    start (first :: els) (i + 1) = first.length + start els i := by
  unfold start
  rw [List.take_succ_cons, List.flatten_cons, List.length_append]

theorem length_positions (a : ℕ) (els : List (List E)) :
    (positions w a els).length = els.length + 1 := by
  induction els generalizing a with
  | nil => rfl
  | cons first els ih => rw [positions, List.length_cons, ih, List.length_cons]

variable {els : List (List E)}

theorem positions_getElem? (a : ℕ) {i : ℕ} (hi : i ≤ els.length) :
    (positions w a els)[i]? = some (.ofNat w (a + start els i)) := by
  induction els generalizing a i with
  | nil =>
    obtain rfl := Nat.le_zero.mp hi
    rfl
  | cons first els ih =>
    cases i with
    | zero => rfl
    | succ i =>
      rw [List.length_cons] at hi
      rw [positions, List.getElem?_cons_succ, ih _ (by omega), start_cons, Nat.add_assoc]

theorem flatten_split {i : ℕ} (h : els[i]? = some own) :
    els.flatten = (els.take i).flatten ++ (own ++ (els.drop (i + 1)).flatten) := by
  obtain ⟨hi, rfl⟩ := List.getElem?_eq_some_iff.mp h
  rw [← List.flatten_cons, List.getElem_cons_drop, ← List.flatten_append, List.take_append_drop]

theorem start_succ {i : ℕ} (h : els[i]? = some own) :
    start els (i + 1) = start els i + own.length := by
  unfold start
  rw [List.take_add_one, h, List.flatten_append, List.length_append]
  simp

theorem start_le {i : ℕ} (h : els[i]? = some own) :
    start els i + own.length ≤ els.flatten.length := by
  rw [flatten_split h, List.length_append, List.length_append]
  unfold start
  omega

theorem drop_start {i : ℕ} (h : els[i]? = some own) :
    (els.flatten.drop (start els i)).take own.length = own := by
  rw [flatten_split h, start, List.drop_left, List.take_left]

theorem start_of_fixed {size i : ℕ} (hsize : ∀ own ∈ els, own.length = size) (hi : i ≤ els.length) :
    start els i = i * size := by
  induction i with
  | zero =>
    rw [Nat.zero_mul]
    rfl
  | succ i ih =>
    have hget : els[i]? = some (els.get ⟨i, by omega⟩) := List.getElem?_eq_getElem (by omega)
    rw [start_succ hget, ih (by omega), hsize _ (List.mem_of_getElem? hget)]
    ring

end Positions

section Reading

variable {compactor : ArcCompactor L W E} {noState : ℤ} {store : CompactArcStore E w}

/- The range of a state is that of its own elements. -/
structure Reads (compactor : ArcCompactor L W E) (store : CompactArcStore E w) (state : ℕ)
    (own : List E) (first : ℕ) : Prop where
  range : store.compactsRange compactor state = some (first, own.length)
  bound : first + own.length ≤ store.compacts.length
  own : (store.compacts.drop first).take own.length = own
  small : store.compacts.length < 2 ^ 63

theorem lessUsize_eq {a b : ℕ} (hle : a ≤ b) (hb : b < 2 ^ 63) : lessUsize b a = b - a := by
  unfold lessUsize
  omega

/- What the store of an FST holds, once it is made. -/
structure Stores (compactor : ArcCompactor L W E) (noState : ℤ) (fst : VectorFst L W)
    (store : CompactArcStore E w) : Prop where
  compacts : store.compacts = (allElements compactor noState fst.states).flatten
  count : store.compacts.length = numCompacts compactor fst
  nstates : store.nstates = fst.numStates
  narcs : store.narcs = (ConstFst.allArcs fst.states).length
  start : store.start = fst.start
  states : store.states =
    if compactor.size = -1 then some (positions w 0 (allElements compactor noState fst.states))
    else none
  fixed : compactor.size ≠ -1 → ∀ own ∈ allElements compactor noState fst.states,
    own.length = compactor.size.toNat

theorem stores_of_new {fst : VectorFst L W}
    (hnew : CompactArcStore.new compactor noState fst = .ok store) :
    Stores compactor noState fst store := by
  unfold CompactArcStore.new at hnew
  dsimp only at hnew
  split at hnew
  · cases hnew
  · split at hnew
    · cases hnew
    · next hfixed =>
      split at hnew
      · cases hnew
      · next hcount =>
        cases hnew
        refine ⟨rfl, not_not.mp hcount, rfl, rfl, rfl, rfl, ?_⟩
        intro hsize own hown
        by_contra hne
        exact hfixed ⟨hsize, own, hown, hne⟩

theorem reads_of_stores {fst : VectorFst L W} (h : Stores compactor noState fst store)
    (hsmall : store.compacts.length < 2 ^ 63)
    (hwidth : compactor.size = -1 → store.compacts.length < 2 ^ w) {state : ℕ}
    {s : VectorState L W} (hs : fst.states[state]? = some s) :
    ∃ first, Reads compactor store state (stateElements compactor noState state s) first := by
  have hget : (allElements compactor noState fst.states)[state]? =
      some (stateElements compactor noState state s) := by
    unfold allElements
    rw [List.getElem?_mapIdx, hs]
    rfl
  have hlt := (List.getElem?_eq_some_iff.mp hget).1
  have hbound := start_le hget
  have hown := drop_start hget
  rw [← h.compacts] at hbound hown
  have hrange : store.compactsRange compactor state = some
      (start (allElements compactor noState fst.states) state,
        (stateElements compactor noState state s).length) := by
    unfold compactsRange
    rw [h.states]
    by_cases hsize : compactor.size = -1
    · have hw := hwidth hsize
      rw [if_pos hsize, if_pos hsize]
      dsimp only
      rw [positions_getElem? 0 (by omega), positions_getElem? 0 (by omega), start_succ hget,
        Option.bind_some, Option.map_some, BitVec.toNat_ofNat, BitVec.toNat_ofNat,
        Nat.mod_eq_of_lt (by omega), Nat.mod_eq_of_lt (by omega), lessUsize_eq (by omega) (by omega)]
      congr 2
      · omega
      · omega
    · rw [if_neg hsize, start_of_fixed (h.fixed hsize) (by omega),
        h.fixed hsize _ (List.mem_of_getElem? hget)]
  exact ⟨_, hrange, hbound, hown, hsmall⟩

theorem getElem?_own {state first : ℕ} (h : Reads compactor store state own first) {j : ℕ}
    (hj : j < own.length) : store.compacts[first + j]? = own[j]? := by
  conv_rhs => rw [← h.own]
  rw [List.getElem?_take_of_lt hj, List.getElem?_drop]

theorem slice_own {state first : ℕ} (h : Reads compactor store state own first) {k : ℕ}
    (hk : k ≤ own.length) :
    store.slice (first + k) ((first + own.length) % 2 ^ 64) = some (own.drop k) := by
  have hbound := h.bound
  have hsmall := h.small
  unfold slice
  rw [Nat.mod_eq_of_lt (by omega), if_pos (by omega)]
  conv_rhs => rw [← h.own]
  rw [List.drop_take, List.drop_drop, show first + own.length - (first + k) = own.length - k by omega]

/- What comes back of a final weight and of an arc that are packed. -/
structure Expands (compactor : ArcCompactor L W E) (noState : ℤ) (state : ℕ)
    (s : VectorState L W) (reweigh : Arc L W → Arc L W) : Prop where
  mark : s.finalWeight ≠ 0 → (compactor.expand state (compactor.compact state
    (finalArc noState s.finalWeight))).ilabel = noLabel
  final : s.finalWeight ≠ 0 → (compactor.expand state (compactor.compact state
    (finalArc noState s.finalWeight))).weight = s.finalWeight
  label : ∀ arc ∈ s.arcs, (compactor.expand state (compactor.compact state
    (.ofArc arc))).ilabel ≠ noLabel
  arc : ∀ arc ∈ s.arcs, (compactor.expand state (compactor.compact state (.ofArc arc))).arc =
    reweigh arc

variable {state first : ℕ} {s : VectorState L W} {reweigh : Arc L W → Arc L W}

theorem stateElements_of_final (hzero : s.finalWeight ≠ 0) :
    stateElements compactor noState state s =
      compactor.compact state (finalArc noState s.finalWeight) ::
        s.arcs.map fun arc => compactor.compact state (.ofArc arc) := by
  unfold stateElements
  rw [if_pos hzero]
  rfl

theorem stateElements_of_zero (hzero : s.finalWeight = 0) :
    stateElements compactor noState state s =
      s.arcs.map fun arc => compactor.compact state (.ofArc arc) := by
  unfold stateElements
  rw [if_neg (not_not.mpr hzero)]
  rfl

/- What is packed of a state reads back, whether it has a final weight, only arcs, or neither. -/
theorem expand_eq (h : Reads compactor store state (stateElements compactor noState state s) first)
    (hexpand : Expands compactor noState state s reweigh) :
    (store.expandFinal compactor state).map (fun weight => weight.getD 0) = some s.finalWeight ∧
      store.expandArcs compactor state = some (s.arcs.map reweigh) := by
  have hall : (s.arcs.map fun arc => compactor.compact state (.ofArc arc)).map
      (fun element => (compactor.expand state element).arc) = s.arcs.map reweigh := by
    rw [List.map_map]
    exact List.map_congr_left fun arc harc => hexpand.arc arc harc
  unfold expandFinal expandArcs
  rw [h.range]
  simp only [Option.bind_eq_bind, Option.bind_some]
  by_cases hzero : s.finalWeight = 0
  · cases harcs : s.arcs with
    | nil =>
      have hnil : stateElements compactor noState state s = [] := by
        rw [stateElements_of_zero hzero, harcs]
        rfl
      rw [hnil, hzero]
      exact ⟨rfl, rfl⟩
    | cons arc arcs =>
      have hcons : stateElements compactor noState state s = compactor.compact state (.ofArc arc) ::
          arcs.map fun arc => compactor.compact state (.ofArc arc) := by
        rw [stateElements_of_zero hzero, harcs, List.map_cons]
      have hget := getElem?_own h (j := 0) (by rw [hcons]; simp)
      rw [hcons, Nat.add_zero, List.getElem?_cons_zero] at hget
      have hlabel := hexpand.label arc (by rw [harcs]; exact List.mem_cons_self)
      have hslice := slice_own h (k := 0) (Nat.zero_le _)
      rw [Nat.add_zero, List.drop_zero] at hslice
      rw [if_pos (by rw [hcons]; simp), if_neg (by rw [hcons]; simp), hget, Option.bind_some,
        Option.bind_some, if_neg hlabel, if_neg hlabel, hslice, Option.bind_some,
        stateElements_of_zero hzero, hall, harcs, hzero]
      exact ⟨rfl, rfl⟩
  · have hcons : stateElements compactor noState state s =
        compactor.compact state (finalArc noState s.finalWeight) ::
          s.arcs.map fun arc => compactor.compact state (.ofArc arc) := stateElements_of_final hzero
    have hget := getElem?_own h (j := 0) (by rw [hcons]; simp)
    rw [hcons, Nat.add_zero, List.getElem?_cons_zero] at hget
    have hslice := slice_own h (k := 1) (by rw [hcons]; simp)
    rw [if_pos (by rw [hcons]; simp), if_neg (by rw [hcons]; simp), hget, Option.bind_some,
      Option.bind_some, if_pos (hexpand.mark hzero), if_pos (hexpand.mark hzero),
      hexpand.final hzero, hslice, Option.bind_some, hcons, List.drop_succ_cons, List.drop_zero,
      hall]
    exact ⟨rfl, rfl⟩

section Width

theorem length_stateElements : (stateElements compactor noState state s).length =
    (if s.finalWeight ≠ 0 then 1 else 0) + s.arcs.length := by
  unfold stateElements
  rw [List.length_append, List.length_map]
  split <;> rfl

theorem add_lessUsize {a b : ℕ} (ha : a < 2 ^ 64) (hb : b < 2 ^ 64) :
    (a + lessUsize b a) % 2 ^ 64 = b := by
  unfold lessUsize
  omega

theorem lessUsize_eq_zero {a b : ℕ} (ha : a < 2 ^ 64) (hb : b < 2 ^ 64) (h : lessUsize b a = 0) :
    b = a := by
  unfold lessUsize at h
  omega

theorem length_slice {store : CompactArcStore E w} {first last : ℕ} {elements : List E}
    (h : store.slice first last = some elements) :
    first ≤ last ∧ elements.length = last - first := by
  unfold slice at h
  split at h
  · next hle =>
    cases h
    refine ⟨hle.1, ?_⟩
    rw [List.length_take, List.length_drop]
    omega
  · cases h

/- A state is read in full only where its elements lie between its indices. -/
theorem le_of_expand (noState : ℤ) {a b len : ℕ} (hsame : len = 0 → b = a) (hlast : (a + len) % 2 ^ 64 = b)
    (hrange : store.compactsRange compactor state = some (a, len))
    (hfinal : (store.expandFinal compactor state).map (fun weight => weight.getD 0) =
      some s.finalWeight)
    (harcs : (store.expandArcs compactor state).map List.length = some s.arcs.length) :
    a + (stateElements compactor noState state s).length ≤ b := by
  rw [length_stateElements]
  unfold expandFinal at hfinal
  unfold expandArcs at harcs
  rw [hrange] at hfinal harcs
  simp only [Option.bind_eq_bind, Option.bind_some] at hfinal harcs
  by_cases hlen : len = 0
  · have heq := hsame hlen
    rw [hlen, if_neg (lt_irrefl 0)] at hfinal
    rw [if_pos hlen] at harcs
    simp only [Option.map_some, Option.some_inj, Option.getD_none, List.length_nil] at hfinal harcs
    rw [if_neg (not_not.mpr hfinal.symm)]
    omega
  · rw [if_pos (Nat.pos_of_ne_zero hlen)] at hfinal
    rw [if_neg hlen, hlast] at harcs
    cases helement : store.compacts[a]? with
    | none =>
      rw [helement] at hfinal
      cases hfinal
    | some element =>
      rw [helement] at hfinal harcs
      simp only [Option.bind_some] at hfinal harcs
      obtain ⟨arcs, hread, hlength⟩ := Option.map_eq_some_iff.mp harcs
      obtain ⟨elements, hslice, heq⟩ := Option.bind_eq_some_iff.mp hread
      cases heq
      obtain ⟨hle, hcount⟩ := length_slice hslice
      rw [List.length_map] at hlength
      by_cases hmark : (compactor.expand state element).ilabel = noLabel
      · rw [if_pos hmark] at hle hcount
        split <;> omega
      · rw [if_neg hmark] at hle hcount
        rw [if_neg hmark] at hfinal
        simp only [Option.map_some, Option.some_inj, Option.getD_none] at hfinal
        rw [if_neg (not_not.mpr hfinal.symm)]
        omega

theorem width_of_expand (hw : w ≤ 64) {fst : VectorFst L W}
    (h : Stores compactor noState fst store) (hvariable : compactor.size = -1)
    (hfinal : ∀ (i : ℕ) (s : VectorState L W), fst.states[i]? = some s →
      (store.expandFinal compactor i).map (fun weight => weight.getD 0) = some s.finalWeight)
    (harcs : ∀ (i : ℕ) (s : VectorState L W), fst.states[i]? = some s →
      (store.expandArcs compactor i).map List.length = some s.arcs.length) :
    store.compacts.length < 2 ^ w := by
  have hpow : 2 ^ w ≤ 2 ^ 64 := Nat.pow_le_pow_right (by decide) hw
  have hlength : (allElements compactor noState fst.states).length = fst.states.length :=
    List.length_mapIdx
  have hall : ∀ i, i ≤ fst.states.length →
      start (allElements compactor noState fst.states) i < 2 ^ w := by
    intro i
    induction i with
    | zero => exact fun _ => Nat.two_pow_pos w
    | succ i ih =>
      intro hi
      have hfirst := ih (by omega)
      have hs : fst.states[i]? = some (fst.states.get ⟨i, by omega⟩) :=
        List.getElem?_eq_getElem (by omega)
      have hget : (allElements compactor noState fst.states)[i]? =
          some (stateElements compactor noState i (fst.states.get ⟨i, by omega⟩)) := by
        unfold allElements
        rw [List.getElem?_mapIdx, hs]
        rfl
      have hrange : store.compactsRange compactor i =
          some (start (allElements compactor noState fst.states) i,
            lessUsize (start (allElements compactor noState fst.states) (i + 1) % 2 ^ w)
              (start (allElements compactor noState fst.states) i)) := by
        unfold compactsRange
        rw [h.states, if_pos hvariable, if_pos hvariable]
        dsimp only
        rw [positions_getElem? 0 (by omega), positions_getElem? 0 (by omega), Option.bind_some,
          Option.map_some, BitVec.toNat_ofNat, BitVec.toNat_ofNat, Nat.zero_add, Nat.zero_add,
          Nat.mod_eq_of_lt hfirst]
      have hmod := Nat.mod_lt (start (allElements compactor noState fst.states) (i + 1))
        (Nat.two_pow_pos w)
      have hle := le_of_expand noState (lessUsize_eq_zero (by omega) (by omega))
        (add_lessUsize (by omega) (by omega)) hrange (hfinal i _ hs) (harcs i _ hs)
      rw [← start_succ hget] at hle
      omega
  have htotal := hall fst.states.length le_rfl
  unfold start at htotal
  rwa [← hlength, List.take_length, ← h.compacts] at htotal

end Width

end Reading

end CompactExpand

end Sicada

namespace Sicada

namespace CompactKinds

open CompactArcStore CompactorKind CompactExpand PropertyBits ComputeExact

variable {L W : Type} [ArcLabel L] [Zero W] [One W] [DecidableEq W] {w : ℕ}

/- The kinds that keep no weights. -/
def dropsWeights : CompactorKind → Bool
  | .string | .unweightedAcceptor | .unweighted => true
  | .weightedString | .acceptor => false

/- An arc as it comes back. -/
def reweigh (kind : CompactorKind) (arc : Arc L W) : Arc L W :=
  if dropsWeights kind then { arc with weight := 1 } else arc

/- What the properties of a compactor promise of the FSTs it takes. -/
structure Suits (kind : CompactorKind) (fst : VectorFst L W) : Prop where
  acceptor : kind ≠ .unweighted → Holds fst .acceptor
  unweighted : dropsWeights kind = true → ¬ Holds fst .weighted
  chain : kind = .string ∨ kind = .weightedString → Chain fst

/- What a compactor of a kind asks of an FST. -/
def asks : CompactorKind → BitVec 64
  | .string => kCompiledStringProperties
  | .weightedString => kString ||| kAcceptor
  | .acceptor => kAcceptor
  | .unweightedAcceptor => kAcceptor ||| kUnweighted
  | .unweighted => kUnweighted

theorem properties_eq_asks (noState : ℤ) (kind : CompactorKind) :
    (compactor noState kind : ArcCompactor L W _).properties = asks kind := by
  cases kind <;> rfl

theorem asks_arcs (kind : CompactorKind) :
    asks kind &&& ~~~(kBinaryProperties ||| kDfsProperties) ≠ 0 := by
  cases kind <;> decide

theorem suits_of_compatible {isMember : W → Bool} {kind : CompactorKind} {noState : ℤ}
    {fst : VectorFst L W} (h : Honest fst)
    (hcompatible : CompactFst.isCompatible isMember (compactor noState kind : ArcCompactor L W _) fst =
      true) : Suits kind fst := by
  have hall : cachedProperties isMember fst (asks kind) = asks kind := by
    rw [← properties_eq_asks (L := L) (W := W) noState kind]
    exact of_decide_eq_true hcompatible
  constructor
  · intro hkind
    apply acceptor_of_cached h hall (asks_arcs kind)
    cases kind
    case unweighted => exact absurd rfl hkind
    all_goals decide
  · intro hdrops
    apply unweighted_of_cached h hall (asks_arcs kind)
    cases kind
    case weightedString => exact absurd hdrops (by decide)
    case acceptor => exact absurd hdrops (by decide)
    all_goals decide
  · rintro (rfl | rfl)
    · exact chain_of_cached h hall (by decide) (by decide)
    · exact chain_of_cached h hall (by decide) (by decide)

/- A final weight that is not Zero is One where weights are dropped. -/
theorem final_eq_one {fst : VectorFst L W} (h : ¬ Holds fst .weighted) {state : ℕ}
    {s : VectorState L W} (hs : fst.states[state]? = some s) (hzero : s.finalWeight ≠ 0) :
    s.finalWeight = 1 := by
  by_contra hone
  apply h
  refine Or.inr ⟨state, ?_⟩
  rw [VectorFst.finalWeight_of_getElem? hs]
  exact ⟨hzero, hone⟩

theorem expands {kind : CompactorKind} {noState : ℤ} {fst : VectorFst L W} (h : Suits kind fst)
    {state : ℕ} {s : VectorState L W} (hs : fst.states[state]? = some s)
    (hlabels : ∀ arc ∈ s.arcs, arc.ilabel ≠ noLabel)
    (hsize : ∀ arc ∈ s.arcs, arc.nextstate < 2 ^ 64) :
    Expands (compactor noState kind) noState state s (reweigh kind) := by
  have harcs : fst.arcs state = s.arcs := VectorFst.arcs_of_getElem? hs
  have hacceptor : kind ≠ .unweighted → ∀ arc ∈ s.arcs, arc.ilabel = arc.olabel := by
    intro hkind arc harc
    exact h.acceptor hkind state arc (by rwa [harcs])
  have hchain : kind = .string ∨ kind = .weightedString → ∀ arc ∈ s.arcs,
      arc.nextstate = state + 1 := by
    intro hkind arc harc
    exact h.chain hkind state arc (by rwa [harcs])
  constructor
  · intro _
    cases kind <;> rfl
  · intro hzero
    have hone : dropsWeights kind = true → s.finalWeight = 1 := fun hdrops =>
      final_eq_one (h.unweighted hdrops) hs hzero
    cases kind
    case weightedString => rfl
    case acceptor => rfl
    all_goals exact (hone rfl).symm
  · intro arc harc
    cases kind <;> exact hlabels arc harc
  · intro arc harc
    have hraw : idAsUsize (arc.nextstate : ℤ) = arc.nextstate :=
      VectorFstIo.idAsUsize_natCast (hsize arc harc)
    have hstring : kind = .string ∨ kind = .weightedString →
        idAsUsize (stringNext noState state arc.ilabel) = arc.nextstate := by
      intro hkind
      unfold stringNext
      rw [if_pos (hlabels arc harc), ← hchain hkind arc harc]
      exact hraw
    obtain ⟨ilabel, olabel, weight, nextstate⟩ := arc
    have hsame : kind ≠ .unweighted → ilabel = olabel := fun hkind => hacceptor hkind _ harc
    cases kind
    case string =>
      obtain rfl := hsame (by decide)
      exact congrArg (Arc.mk ilabel ilabel 1) (hstring (Or.inl rfl))
    case weightedString =>
      obtain rfl := hsame (by decide)
      exact congrArg (Arc.mk ilabel ilabel weight) (hstring (Or.inr rfl))
    case acceptor =>
      obtain rfl := hsame (by decide)
      exact congrArg (Arc.mk ilabel ilabel weight) hraw
    case unweightedAcceptor =>
      obtain rfl := hsame (by decide)
      exact congrArg (Arc.mk ilabel ilabel 1) hraw
    case unweighted => exact congrArg (Arc.mk ilabel olabel 1) hraw

end CompactKinds

end Sicada
