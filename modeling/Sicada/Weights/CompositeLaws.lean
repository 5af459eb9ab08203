import Sicada.Weights.CompositeWeights
import Sicada.Weights.SparseTupleExact

namespace Sicada.CompositeLaws

open WeightOps WeightLaws

section Bits

theorem ne_zero_of_and {x y bit : BitVec 64} (h : (x &&& y) &&& bit ≠ 0) :
    x &&& bit ≠ 0 ∧ y &&& bit ≠ 0 := by
  constructor
  · intro hx
    have hzero : (x &&& y) &&& bit = y &&& (x &&& bit) := by
      rw [BitVec.and_comm x y, BitVec.and_assoc]
    rw [hzero, hx] at h
    exact h BitVec.and_zero
  · intro hy
    rw [BitVec.and_assoc, hy] at h
    exact h BitVec.and_zero

variable {W₁ W₂ W K : Type} [WeightOps W₁] [WeightOps W₂] [WeightOps W] {bit : BitVec 64} {n : ℕ}

theorem declares_product (h : Declares (ProductWeight W₁ W₂) bit) :
    Declares W₁ bit ∧ Declares W₂ bit := ne_zero_of_and (ne_zero_of_and h).1

theorem not_path_of_mask {bits : BitVec 64} : ¬ (bits &&& semiringBits) &&& path ≠ 0 :=
  fun h => (ne_zero_of_and h).2 (by decide)

end Bits

section Componentwise

variable {W₁ W₂ W K : Type} [WeightOps W₁] [WeightOps W₂] [WeightOps W] {n : ℕ}

/- The two components as a family. -/
def Side (W₁ W₂ : Type) : Bool → Type
  | false => W₁
  | true => W₂

instance : ∀ i, WeightOps (Side W₁ W₂ i)
  | false => inferInstanceAs (WeightOps W₁)
  | true => inferInstanceAs (WeightOps W₂)

def side (w : ProductWeight W₁ W₂) : ∀ i, Side W₁ W₂ i
  | false => w.value1
  | true => w.value2

theorem isMember_product {w : ProductWeight W₁ W₂} :
    isMember w = true ↔ isMember w.value1 = true ∧ isMember w.value2 = true :=
  Bool.and_eq_true_iff

theorem product_laws (h₁ : Laws W₁) (h₂ : Laws W₂) : Laws (ProductWeight W₁ W₂) where
  toLawsFor := by
    refine LawsFor.of_components (V := Side W₁ W₂) (fun i w => side w i)
      (fun a b _ _ hread => ProductWeight.ext (hread false) (hread true))
      (fun a ha i => ?_) ⟨?_, ?_⟩ ⟨?_, ?_⟩ (fun a b ha hb => ⟨?_, ?_⟩) (fun a b ha hb => ⟨?_, ?_⟩)
      (fun i => ?_) (fun bit hbit i => ?_) not_path_of_mask
    · obtain ⟨ha₁, ha₂⟩ := isMember_product.mp ha
      cases i
      · exact ha₁
      · exact ha₂
    · exact isMember_product.mpr ⟨h₁.zero_member, h₂.zero_member⟩
    · rintro (_ | _) <;> rfl
    · exact isMember_product.mpr ⟨h₁.one_member, h₂.one_member⟩
    · rintro (_ | _) <;> rfl
    · obtain ⟨ha₁, ha₂⟩ := isMember_product.mp ha
      obtain ⟨hb₁, hb₂⟩ := isMember_product.mp hb
      exact isMember_product.mpr ⟨h₁.plus_member _ _ ha₁ hb₁, h₂.plus_member _ _ ha₂ hb₂⟩
    · rintro (_ | _) <;> rfl
    · obtain ⟨ha₁, ha₂⟩ := isMember_product.mp ha
      obtain ⟨hb₁, hb₂⟩ := isMember_product.mp hb
      exact isMember_product.mpr ⟨h₁.times_member _ _ ha₁ hb₁, h₂.times_member _ _ ha₂ hb₂⟩
    · rintro (_ | _) <;> rfl
    · cases i
      · exact h₁
      · exact h₂
    · obtain ⟨hbit₁, hbit₂⟩ := declares_product hbit
      cases i
      · exact hbit₁
      · exact hbit₂
  one_member := isMember_product.mpr ⟨h₁.one_member, h₂.one_member⟩

theorem isMember_power {w : PowerWeight W n} :
    isMember w = true ↔ ∀ i, isMember (w.elements i) = true := decide_eq_true_iff

theorem power_laws (h : Laws W) : Laws (PowerWeight W n) where
  toLawsFor := LawsFor.of_components (fun i w => w.elements i)
    (fun _ _ _ _ hread => PowerWeight.ext (funext hread)) (fun _ ha => isMember_power.mp ha)
    ⟨isMember_power.mpr fun _ => h.zero_member, fun _ => rfl⟩
    ⟨isMember_power.mpr fun _ => h.one_member, fun _ => rfl⟩
    (fun _ _ ha hb => ⟨isMember_power.mpr fun i =>
      h.plus_member _ _ (isMember_power.mp ha i) (isMember_power.mp hb i), fun _ => rfl⟩)
    (fun _ _ ha hb => ⟨isMember_power.mpr fun i =>
      h.times_member _ _ (isMember_power.mp ha i) (isMember_power.mp hb i), fun _ => rfl⟩)
    (fun _ => h) (fun _ hbit _ => (ne_zero_of_and hbit).1) not_path_of_mask
  one_member := isMember_power.mpr fun _ => h.one_member

end Componentwise

section Sparse

open SparseTupleExact

variable {W K : Type} [WeightOps W] [DecidableEq W] [LinearOrder K] {a b : SparsePowerWeight W K}

/- A member in the normal form. -/
def Proper (w : SparsePowerWeight W K) : Prop := isMember w = true ∧ Normal w.inner

/- The default, and the value of every key. -/
def component : Option K → SparsePowerWeight W K → W
  | none, w => w.inner.default
  | some key, w => w.inner.value key

theorem component_some (key : K) : component (some key) a = a.inner.value key := rfl

theorem mem_value (hn : Normal a.inner) (key : K) :
    a.inner.value key = a.inner.default ∨ (key, a.inner.value key) ∈ a.inner.rest := by
  by_cases heq : a.inner.value key = a.inner.default
  · exact Or.inl heq
  · exact Or.inr ((mem_rest hn).mpr ⟨heq, rfl⟩)

theorem isMember_sparse (hn : Normal a.inner) :
    isMember a = true ↔ ∀ i, isMember (component i a) = true := by
  have hiff : isMember a = true ↔
      isMember a.inner.default = true ∧ ∀ e ∈ a.inner.rest, isMember e.2 = true := by
    rw [← List.all_eq_true]
    exact Bool.and_eq_true_iff
  rw [hiff]
  constructor
  · rintro ⟨hdefault, hrest⟩ (_ | key)
    · exact hdefault
    · rw [component_some]
      rcases mem_value hn key with heq | hmem
      · rwa [heq]
      · exact hrest _ hmem
  · intro h
    refine ⟨h none, ?_⟩
    rintro ⟨key, w⟩ hmem
    have hvalue := h (some key)
    rwa [component_some, ((mem_rest hn).mp hmem).2] at hvalue

theorem proper_iff :
    Proper a ↔ (∀ i, isMember (component i a) = true) ∧ Normal a.inner := by
  constructor
  · rintro ⟨hmember, hn⟩
    exact ⟨(isMember_sparse hn).mp hmember, hn⟩
  · rintro ⟨hmember, hn⟩
    exact ⟨(isMember_sparse hn).mpr hmember, hn⟩

theorem component_new (d : W) (i : Option K) :
    component i (⟨SparseTupleWeight.new d⟩ : SparsePowerWeight W K) = d := by
  cases i with
  | none => rfl
  | some key =>
    rw [component_some, value_eq (normal_new d).1]
    rfl

theorem proper_new {d : W} (hd : isMember d = true) :
    Proper (⟨SparseTupleWeight.new d⟩ : SparsePowerWeight W K) :=
  proper_iff.mpr ⟨fun i => (component_new d i).symm ▸ hd, normal_new d⟩

theorem component_map (op : W → W → W) (ha : Normal a.inner) (hb : Normal b.inner)
    (i : Option K) :
    component i (⟨a.inner.map (fun _ => op) b.inner⟩ : SparsePowerWeight W K) =
      op (component i a) (component i b) := by
  cases i with
  | none => exact (map_walked (fun _ => op) ha hb).default_eq
  | some key => exact value_map op ha hb key

theorem proper_map {op : W → W → W}
    (hop : ∀ v w, isMember v = true → isMember w = true → isMember (op v w) = true)
    (ha : Proper a) (hb : Proper b) :
    Proper (⟨a.inner.map (fun _ => op) b.inner⟩ : SparsePowerWeight W K) := by
  rw [proper_iff] at ha hb
  refine proper_iff.mpr ⟨fun i => ?_, normal_map _ ha.2 hb.2⟩
  rw [component_map op ha.2 hb.2]
  exact hop _ _ (ha.1 i) (hb.1 i)

theorem sparse_laws (h : Laws W) : LawsFor (SparsePowerWeight W K) Proper Eq := by
  refine LawsFor.of_components (component (W := W) (K := K)) (fun a b ha hb hread => ?_)
    (fun _ ha => (proper_iff.mp ha).1)
    ⟨proper_new h.zero_member, component_new zero⟩ ⟨proper_new h.one_member, component_new one⟩
    (fun _ _ ha hb => ⟨proper_map h.plus_member ha hb, component_map plus ha.2 hb.2⟩)
    (fun _ _ ha hb => ⟨proper_map h.times_member ha hb, component_map times ha.2 hb.2⟩)
    (fun _ => h) (fun _ hbit _ => (ne_zero_of_and hbit).1) not_path_of_mask
  exact SparsePowerWeight.ext
    ((eq_iff ha.2 hb.2).mpr ⟨fun key => hread (some key), hread none⟩)

theorem sparse_one (h : Laws W) : Proper (one : SparsePowerWeight W K) := proper_new h.one_member

end Sparse

section Expectation

variable {W : Type} [WeightOps W] {a b c d : W}

/- A product with a sum is the sum of the products, whichever side the sum is on. -/
def Distributes (W : Type) [WeightOps W] : Prop :=
  ∀ a b c : W, isMember a = true → isMember b = true → isMember c = true →
    times a (plus b c) = plus (times a b) (times a c) ∧
      times (plus b c) a = plus (times b a) (times c a)

theorem isMember_expectation {w : ExpectationWeight W} :
    isMember w = true ↔ isMember w.value1 = true ∧ isMember w.value2 = true :=
  Bool.and_eq_true_iff

theorem zero_plus_zero (h : Laws W) : plus zero zero = (zero : W) := h.zero_plus zero h.zero_member

/- The sums of two columns, column by column or row by row. -/
theorem plus_plus_plus_comm (h : Laws W) (ha : isMember a = true) (hb : isMember b = true)
    (hc : isMember c = true) (hd : isMember d = true) :
    plus (plus a b) (plus c d) = plus (plus a c) (plus b d) := by
  have hcd := h.plus_member c d hc hd
  have hbd := h.plus_member b d hb hd
  calc plus (plus a b) (plus c d)
      = plus a (plus b (plus c d)) := h.plus_assoc a b _ ha hb hcd
    _ = plus a (plus (plus b c) d) := by rw [h.plus_assoc b c d hb hc hd]
    _ = plus a (plus (plus c b) d) := by rw [h.plus_comm b c hb hc]
    _ = plus a (plus c (plus b d)) := by rw [h.plus_assoc c b d hc hb hd]
    _ = plus (plus a c) (plus b d) := (h.plus_assoc a c _ ha hc hbd).symm

theorem cross_member (h : Laws W) {w w' : ExpectationWeight W} (hw : isMember w = true)
    (hw' : isMember w' = true) :
    isMember (times w.value1 w'.value1) = true ∧ isMember (times w.value1 w'.value2) = true ∧
      isMember (times w.value2 w'.value1) = true := by
  obtain ⟨hw₁, hw₂⟩ := isMember_expectation.mp hw
  obtain ⟨hw₁', hw₂'⟩ := isMember_expectation.mp hw'
  exact ⟨h.times_member _ _ hw₁ hw₁', h.times_member _ _ hw₁ hw₂', h.times_member _ _ hw₂ hw₁'⟩

theorem expectation_one (h : Laws W) : isMember (one : ExpectationWeight W) = true :=
  isMember_expectation.mpr ⟨h.one_member, h.zero_member⟩

/- The only law that takes more than the component's own. -/
theorem expectation_times_assoc (h : Laws W) (hd : Distributes W) {u v w : ExpectationWeight W}
    (hu : isMember u = true) (hv : isMember v = true) (hw : isMember w = true) :
    times (times u v) w = times u (times v w) := by
  obtain ⟨huv, huv₂, hu₂v⟩ := cross_member h hu hv
  obtain ⟨hvw, hvw₂, hv₂w⟩ := cross_member h hv hw
  obtain ⟨hu₁, hu₂⟩ := isMember_expectation.mp hu
  obtain ⟨hv₁, hv₂⟩ := isMember_expectation.mp hv
  obtain ⟨hw₁, hw₂⟩ := isMember_expectation.mp hw
  refine ExpectationWeight.ext (h.times_assoc _ _ _ hu₁ hv₁ hw₁) ?_
  calc plus (times (times u.value1 v.value1) w.value2)
        (times (plus (times u.value1 v.value2) (times u.value2 v.value1)) w.value1)
      = plus (times (times u.value1 v.value1) w.value2)
          (plus (times (times u.value1 v.value2) w.value1)
            (times (times u.value2 v.value1) w.value1)) := by
        rw [(hd _ _ _ hw₁ huv₂ hu₂v).2]
    _ = plus (times u.value1 (times v.value1 w.value2))
          (plus (times u.value1 (times v.value2 w.value1))
            (times u.value2 (times v.value1 w.value1))) := by
        rw [h.times_assoc _ _ _ hu₁ hv₁ hw₂, h.times_assoc _ _ _ hu₁ hv₂ hw₁,
          h.times_assoc _ _ _ hu₂ hv₁ hw₁]
    _ = plus (plus (times u.value1 (times v.value1 w.value2))
          (times u.value1 (times v.value2 w.value1)))
            (times u.value2 (times v.value1 w.value1)) :=
        (h.plus_assoc _ _ _ (h.times_member _ _ hu₁ hvw₂) (h.times_member _ _ hu₁ hv₂w)
          (h.times_member _ _ hu₂ hvw)).symm
    _ = plus (times u.value1 (plus (times v.value1 w.value2) (times v.value2 w.value1)))
          (times u.value2 (times v.value1 w.value1)) := by
        rw [(hd _ _ _ hu₁ hvw₂ hv₂w).1]

theorem expectation_laws (h : Laws W) (hd : Distributes W) : Laws (ExpectationWeight W) where
  zero_member := isMember_expectation.mpr ⟨h.zero_member, h.zero_member⟩
  one_member := expectation_one h
  plus_member a b ha hb := by
    obtain ⟨ha₁, ha₂⟩ := isMember_expectation.mp ha
    obtain ⟨hb₁, hb₂⟩ := isMember_expectation.mp hb
    exact isMember_expectation.mpr ⟨h.plus_member _ _ ha₁ hb₁, h.plus_member _ _ ha₂ hb₂⟩
  times_member a b ha hb := by
    obtain ⟨hab, hab₂, ha₂b⟩ := cross_member h ha hb
    exact isMember_expectation.mpr ⟨hab, h.plus_member _ _ hab₂ ha₂b⟩
  plus_assoc a b c ha hb hc := by
    obtain ⟨ha₁, ha₂⟩ := isMember_expectation.mp ha
    obtain ⟨hb₁, hb₂⟩ := isMember_expectation.mp hb
    obtain ⟨hc₁, hc₂⟩ := isMember_expectation.mp hc
    exact ExpectationWeight.ext (h.plus_assoc _ _ _ ha₁ hb₁ hc₁) (h.plus_assoc _ _ _ ha₂ hb₂ hc₂)
  plus_comm a b ha hb := by
    obtain ⟨ha₁, ha₂⟩ := isMember_expectation.mp ha
    obtain ⟨hb₁, hb₂⟩ := isMember_expectation.mp hb
    exact ExpectationWeight.ext (h.plus_comm _ _ ha₁ hb₁) (h.plus_comm _ _ ha₂ hb₂)
  zero_plus a ha := by
    obtain ⟨ha₁, ha₂⟩ := isMember_expectation.mp ha
    exact ExpectationWeight.ext (h.zero_plus _ ha₁) (h.zero_plus _ ha₂)
  times_assoc _ _ _ ha hb hc := expectation_times_assoc h hd ha hb hc
  one_times a ha := by
    obtain ⟨ha₁, ha₂⟩ := isMember_expectation.mp ha
    refine ExpectationWeight.ext (h.one_times _ ha₁) ?_
    change plus (times one a.value2) (times zero a.value1) = a.value2
    rw [h.one_times _ ha₂, h.zero_times _ ha₁, h.plus_zero ha₂]
  times_one a ha := by
    obtain ⟨ha₁, ha₂⟩ := isMember_expectation.mp ha
    refine ExpectationWeight.ext (h.times_one _ ha₁) ?_
    change plus (times a.value1 zero) (times a.value2 one) = a.value2
    rw [h.times_zero _ ha₁, h.times_one _ ha₂, h.zero_plus _ ha₂]
  zero_times a ha := by
    obtain ⟨ha₁, ha₂⟩ := isMember_expectation.mp ha
    refine ExpectationWeight.ext (h.zero_times _ ha₁) ?_
    change plus (times zero a.value2) (times zero a.value1) = zero
    rw [h.zero_times _ ha₂, h.zero_times _ ha₁, zero_plus_zero h]
  times_zero a ha := by
    obtain ⟨ha₁, ha₂⟩ := isMember_expectation.mp ha
    refine ExpectationWeight.ext (h.times_zero _ ha₁) ?_
    change plus (times a.value1 zero) (times a.value2 zero) = zero
    rw [h.times_zero _ ha₁, h.times_zero _ ha₂, zero_plus_zero h]
  left_distrib hbit a b c ha hb hc := by
    have hdist := h.left_distrib (ne_zero_of_and hbit).1
    obtain ⟨ha₁, ha₂⟩ := isMember_expectation.mp ha
    obtain ⟨hb₁, hb₂⟩ := isMember_expectation.mp hb
    obtain ⟨hc₁, hc₂⟩ := isMember_expectation.mp hc
    obtain ⟨-, hab₂, ha₂b⟩ := cross_member h ha hb
    obtain ⟨-, hac₂, ha₂c⟩ := cross_member h ha hc
    refine ExpectationWeight.ext (hdist _ _ _ ha₁ hb₁ hc₁) ?_
    change plus (times a.value1 (plus b.value2 c.value2)) (times a.value2 (plus b.value1 c.value1))
      = _
    rw [hdist _ _ _ ha₁ hb₂ hc₂, hdist _ _ _ ha₂ hb₁ hc₁]
    exact plus_plus_plus_comm h hab₂ hac₂ ha₂b ha₂c
  right_distrib hbit a b c ha hb hc := by
    have hdist := h.right_distrib (ne_zero_of_and hbit).1
    obtain ⟨ha₁, ha₂⟩ := isMember_expectation.mp ha
    obtain ⟨hb₁, hb₂⟩ := isMember_expectation.mp hb
    obtain ⟨hc₁, hc₂⟩ := isMember_expectation.mp hc
    obtain ⟨-, hba₂, hb₂a⟩ := cross_member h hb ha
    obtain ⟨-, hca₂, hc₂a⟩ := cross_member h hc ha
    refine ExpectationWeight.ext (hdist _ _ _ ha₁ hb₁ hc₁) ?_
    change plus (times (plus b.value1 c.value1) a.value2) (times (plus b.value2 c.value2) a.value1)
      = _
    rw [hdist _ _ _ ha₂ hb₁ hc₁, hdist _ _ _ ha₁ hb₂ hc₂]
    exact plus_plus_plus_comm h hba₂ hca₂ hb₂a hc₂a
  times_comm hbit a b ha hb := by
    have hcomm := h.times_comm (ne_zero_of_and hbit).1
    obtain ⟨ha₁, ha₂⟩ := isMember_expectation.mp ha
    obtain ⟨hb₁, hb₂⟩ := isMember_expectation.mp hb
    obtain ⟨-, hab₂, ha₂b⟩ := cross_member h ha hb
    refine ExpectationWeight.ext (hcomm _ _ ha₁ hb₁) ?_
    change plus (times a.value1 b.value2) (times a.value2 b.value1) =
      plus (times b.value1 a.value2) (times b.value2 a.value1)
    rw [h.plus_comm _ _ hab₂ ha₂b, hcomm _ _ ha₁ hb₂, hcomm _ _ ha₂ hb₁]
  plus_idem hbit a ha := by
    have hidem := h.plus_idem (ne_zero_of_and hbit).1
    obtain ⟨ha₁, ha₂⟩ := isMember_expectation.mp ha
    exact ExpectationWeight.ext (hidem _ ha₁) (hidem _ ha₂)
  plus_path hbit := absurd hbit not_path_of_mask

/- Three weights whose product is associative where the component distributes. -/
theorem distributes_of_assoc (h : Laws W)
    (hassoc : ∀ u v w : ExpectationWeight W, isMember u = true → isMember v = true →
      isMember w = true → times (times u v) w = times u (times v w)) : Distributes W := by
  intro a b c ha hb hc
  have hvalue (d : W) (hd : isMember d = true) : isMember (⟨one, d⟩ : ExpectationWeight W) = true :=
    isMember_expectation.mpr ⟨h.one_member, hd⟩
  have hscale : isMember (⟨a, zero⟩ : ExpectationWeight W) = true :=
    isMember_expectation.mpr ⟨ha, h.zero_member⟩
  have hsum := h.plus_member b c hb hc
  constructor
  · have heq := congrArg ExpectationWeight.value2
      (hassoc ⟨a, zero⟩ ⟨one, c⟩ ⟨one, b⟩ hscale (hvalue c hc) (hvalue b hb))
    change plus (times (times a one) b) (times (plus (times a c) (times zero one)) one) =
      plus (times a (plus (times one b) (times c one))) (times zero (times one one)) at heq
    rw [h.times_one a ha, h.zero_times one h.one_member, h.plus_zero (h.times_member a c ha hc),
      h.times_one _ (h.times_member a c ha hc), h.one_times b hb, h.times_one c hc,
      h.one_times one h.one_member, h.zero_times one h.one_member,
      h.plus_zero (h.times_member _ _ ha hsum)] at heq
    exact heq.symm
  · have heq := congrArg ExpectationWeight.value2
      (hassoc ⟨one, c⟩ ⟨one, b⟩ ⟨a, zero⟩ (hvalue c hc) (hvalue b hb) hscale)
    change plus (times (times one one) zero) (times (plus (times one b) (times c one)) a) =
      plus (times one (plus (times one zero) (times b a))) (times c (times one a)) at heq
    rw [h.one_times one h.one_member, h.one_times zero h.zero_member, h.one_times b hb,
      h.times_one c hc, h.zero_plus _ (h.times_member _ _ hsum ha),
      h.zero_plus _ (h.times_member b a hb ha), h.one_times _ (h.times_member b a hb ha),
      h.one_times a ha] at heq
    exact heq

end Expectation

section Division

variable {W : Type} [WeightOps W] [DivideOps W] [MinusOps W] {u v : ExpectationWeight W}

def DividesLeft (W : Type) [WeightOps W] [DivideOps W] : Prop :=
  ∀ a b : W, isMember a = true → isMember b = true → a ≠ zero →
    DivideOps.divide (times a b) a .left = b

def DividesRight (W : Type) [WeightOps W] [DivideOps W] : Prop :=
  ∀ a b : W, isMember a = true → isMember b = true → b ≠ zero →
    DivideOps.divide (times a b) b .right = a

def Subtracts (W : Type) [WeightOps W] [MinusOps W] : Prop :=
  ∀ a b : W, isMember a = true → isMember b = true → MinusOps.minus (plus a b) b = a

theorem expectation_divides_left (h : Laws W) (hdivides : DividesLeft W) (hsub : Subtracts W)
    (hu : isMember u = true) (hv : isMember v = true) (hne : u.value1 ≠ zero) :
    DivideOps.divide (times u v) u .left = v := by
  obtain ⟨huv, huv₂, hu₂v⟩ := cross_member h hu hv
  obtain ⟨hu₁, hu₂⟩ := isMember_expectation.mp hu
  obtain ⟨hv₁, hv₂⟩ := isMember_expectation.mp hv
  have hquotient := hdivides _ _ hu₁ hv₁ hne
  refine ExpectationWeight.ext hquotient ?_
  change DivideOps.divide (MinusOps.minus
    (plus (times u.value1 v.value2) (times u.value2 v.value1))
    (times u.value2 (DivideOps.divide (times u.value1 v.value1) u.value1 .left)))
    u.value1 .left = v.value2
  rw [hquotient, hsub _ _ huv₂ hu₂v, hdivides _ _ hu₁ hv₂ hne]

theorem expectation_divides_right (h : Laws W) (hdivides : DividesRight W) (hsub : Subtracts W)
    (hu : isMember u = true) (hv : isMember v = true) (hne : v.value1 ≠ zero) :
    DivideOps.divide (times u v) v .right = u := by
  obtain ⟨huv, huv₂, hu₂v⟩ := cross_member h hu hv
  obtain ⟨hu₁, hu₂⟩ := isMember_expectation.mp hu
  obtain ⟨hv₁, hv₂⟩ := isMember_expectation.mp hv
  have hquotient := hdivides _ _ hu₁ hv₁ hne
  refine ExpectationWeight.ext hquotient ?_
  change DivideOps.divide (MinusOps.minus
    (plus (times u.value1 v.value2) (times u.value2 v.value1))
    (times (DivideOps.divide (times u.value1 v.value1) v.value1 .right) v.value2))
    v.value1 .right = u.value2
  rw [hquotient, h.plus_comm _ _ huv₂ hu₂v, hsub _ _ hu₂v huv₂, hdivides _ _ hu₂ hv₁ hne]

end Division

end Sicada.CompositeLaws
