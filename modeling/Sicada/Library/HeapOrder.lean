import Mathlib

/- A binary heap in an array: the parent of `i` is at `(i - 1) / 2`. -/
namespace HeapOrder

variable {T : Type*} {before : T → T → Prop}

section WeakOrder

variable [IsStrictWeakOrder T before] {a b c : T}

theorem not_before_trans (hab : ¬ before a b) (hbc : ¬ before b c) : ¬ before a c := by
  intro hac
  have hba : ¬ before b a := fun hba => hbc (trans_of before hba hac)
  have hcb : ¬ before c b := fun hcb => hab (trans_of before hac hcb)
  exact (IsStrictWeakOrder.incomp_trans a b c ⟨hab, hba⟩ ⟨hbc, hcb⟩).1 hac

theorem not_before_of_before (hab : before a b) (hcb : ¬ before c b) : ¬ before c a := by
  intro hca
  exact hcb (trans_of before hca hab)

end WeakOrder

section Holes

variable (before) (n : ℕ) (v : ℕ → T) (hole : ℕ) (x : T)

def Ordered : Prop := ∀ i, 0 < i → i < n → ¬ before (v i) (v ((i - 1) / 2))

/- What lies around the hole is in order. -/
structure Broken : Prop where
  except : ∀ i, 0 < i → i < n → i ≠ hole → (i - 1) / 2 ≠ hole → ¬ before (v i) (v ((i - 1) / 2))
  grand : 0 < hole → ∀ c, 0 < c → c < n → (c - 1) / 2 = hole → ¬ before (v c) (v ((hole - 1) / 2))

/- `x` may have to go up from the hole. -/
structure UpOrder : Prop extends Broken before n v hole where
  below : ∀ c, 0 < c → c < n → (c - 1) / 2 = hole → ¬ before (v c) x

/- `x` may have to go down from the hole. -/
structure DownOrder : Prop extends Broken before n v hole where
  above : 0 < hole → ¬ before x (v ((hole - 1) / 2))

end Holes

variable {n : ℕ} {v w : ℕ → T} {hole best : ℕ} {x : T}

theorem Ordered.congr (h : Ordered before n v) (hsame : ∀ i < n, w i = v i) :
    Ordered before n w := by
  intro i hpos hi
  rw [hsame i hi, hsame _ (by omega)]
  exact h i hpos hi

theorem Broken.congr (h : Broken before n v hole) (hhole : hole < n)
    (hsame : ∀ i < n, i ≠ hole → w i = v i) : Broken before n w hole := by
  refine ⟨fun i hpos hi hne hparent => ?_, fun hpos c hc hlt hparent => ?_⟩
  · rw [hsame i hi hne, hsame _ (by omega) hparent]
    exact h.except i hpos hi hne hparent
  · rw [hsame c hlt (by omega), hsame _ (by omega) (by omega)]
    exact h.grand hpos c hc hlt hparent

/- An order that is another one at the hole only. -/
theorem Broken.reorder {before' : T → T → Prop} (h : Broken before n v hole)
    (hsame : ∀ i < n, ∀ j < n, i ≠ hole → j ≠ hole → before' (v i) (v j) → before (v i) (v j)) :
    Broken before' n v hole := by
  refine ⟨fun i hpos hi hne hparent hlt => ?_, fun hpos c hc hlt hparent hup => ?_⟩
  · exact h.except i hpos hi hne hparent (hsame i hi _ (by omega) hne hparent hlt)
  · exact h.grand hpos c hc hlt hparent (hsame c hlt _ (by omega) (by omega) (by omega) hup)

theorem Ordered.take (h : Ordered before n v) {m : ℕ} (hm : m ≤ n) : Ordered before m v :=
  fun i hpos hi => h i hpos (hi.trans_le hm)

/- It stays where nothing above it comes after it. -/
theorem UpOrder.finish (h : UpOrder before n v hole x)
    (hstop : 0 < hole → ¬ before x (v ((hole - 1) / 2))) :
    Ordered before n (Function.update v hole x) := by
  intro i hi hlt
  by_cases hne : i = hole
  · subst hne
    rw [Function.update_self, Function.update_of_ne (by omega)]
    exact hstop hi
  · rw [Function.update_of_ne hne]
    by_cases hchild : (i - 1) / 2 = hole
    · rw [hchild, Function.update_self]
      exact h.below i hi hlt hchild
    · rw [Function.update_of_ne hchild]
      exact h.except i hi hlt hne hchild

theorem DownOrder.finish (h : DownOrder before n v hole x)
    (hstop : ∀ c, 0 < c → c < n → (c - 1) / 2 = hole → ¬ before (v c) x) :
    Ordered before n (Function.update v hole x) := by
  intro i hi hlt
  by_cases hne : i = hole
  · subst hne
    rw [Function.update_self, Function.update_of_ne (by omega)]
    exact h.above hi
  · rw [Function.update_of_ne hne]
    by_cases hchild : (i - 1) / 2 = hole
    · rw [hchild, Function.update_self]
      exact hstop i hi hlt hchild
    · rw [Function.update_of_ne hchild]
      exact h.except i hi hlt hne hchild

section WeakOrder

variable [IsStrictWeakOrder T before]

/- Whatever is put in its place, the order is broken at one place only. -/
theorem Ordered.broken (h : Ordered before n v) (hhole : hole < n) : Broken before n v hole :=
  ⟨fun i hpos hi _ _ => h i hpos hi, fun hpos c hc hlt hparent =>
    not_before_trans (hparent ▸ h c hc hlt) (h hole hpos hhole)⟩

/- Nothing comes before the root. -/
theorem Ordered.root_first (h : Ordered before n v) {i : ℕ} (hi : i < n) :
    ¬ before (v i) (v 0) := by
  induction i using Nat.strongRecOn with
  | ind i ih =>
    by_cases hzero : i = 0
    · rw [hzero]
      exact irrefl_of before _
    · exact not_before_trans (h i (by omega) hi) (ih ((i - 1) / 2) (by omega) (by omega))

theorem Broken.upOrder (h : Broken before n v hole) (hpos : 0 < hole)
    (hup : before x (v ((hole - 1) / 2))) : UpOrder before n v hole x :=
  ⟨h, fun c hc hlt hparent => not_before_of_before hup (h.grand hpos c hc hlt hparent)⟩

/- The parent comes down into the hole. -/
theorem UpOrder.move (h : UpOrder before n v hole x) (hpos : 0 < hole) (hhole : hole < n)
    (hup : before x (v ((hole - 1) / 2))) :
    UpOrder before n (Function.update v hole (v ((hole - 1) / 2))) ((hole - 1) / 2) x := by
  have hself : Function.update v hole (v ((hole - 1) / 2)) hole = v ((hole - 1) / 2) :=
    Function.update_self ..
  have hother : ∀ i, i ≠ hole → Function.update v hole (v ((hole - 1) / 2)) i = v i :=
    fun i hi => Function.update_of_ne hi ..
  have hsibling : ∀ c, 0 < c → c < n → c ≠ hole → (c - 1) / 2 = (hole - 1) / 2 →
      ¬ before (v c) (v ((hole - 1) / 2)) := by
    intro c hc hlt hne hparent
    have hexcept := h.except c hc hlt hne (by omega)
    rwa [hparent] at hexcept
  have hgrand : 0 < (hole - 1) / 2 →
      ¬ before (v ((hole - 1) / 2)) (v (((hole - 1) / 2 - 1) / 2)) :=
    fun hparent => h.except _ hparent (by omega) (by omega) (by omega)
  refine ⟨⟨fun i hi hlt hne hparent => ?_, fun hparent c hc hlt heq => ?_⟩, fun c hc hlt heq => ?_⟩
  · rw [hother i (by rintro rfl; exact hparent rfl)]
    by_cases hchild : (i - 1) / 2 = hole
    · rw [hchild, hself]
      exact h.grand hpos i hi hlt hchild
    · rw [hother _ hchild]
      exact h.except i hi hlt (by rintro rfl; exact hparent rfl) hchild
  · rw [hother (((hole - 1) / 2 - 1) / 2) (by omega)]
    by_cases hc' : c = hole
    · rw [hc', hself]
      exact hgrand hparent
    · rw [hother c hc']
      exact not_before_trans (hsibling c hc hlt hc' heq) (hgrand hparent)
  · by_cases hc' : c = hole
    · rw [hc', hself]
      exact fun hdown => irrefl_of before x (trans_of before hup hdown)
    · rw [hother c hc']
      exact not_before_of_before hup (hsibling c hc hlt hc' heq)

/- The child that comes first goes up into the hole. -/
theorem DownOrder.move (h : DownOrder before n v hole x) (hpos : 0 < best) (hbest : best < n)
    (hparent : (best - 1) / 2 = hole) (hdown : before (v best) x)
    (hfirst : ∀ c, 0 < c → c < n → (c - 1) / 2 = hole → ¬ before (v c) (v best)) :
    DownOrder before n (Function.update v hole (v best)) best x := by
  have hself : Function.update v hole (v best) hole = v best := Function.update_self ..
  have hother : ∀ i, i ≠ hole → Function.update v hole (v best) i = v i :=
    fun i hi => Function.update_of_ne hi ..
  refine ⟨⟨fun i hi hlt hne hchild => ?_, fun _ c hc hlt heq => ?_⟩, fun _ => ?_⟩
  · by_cases hhole : i = hole
    · subst hhole
      rw [hself, hother _ (by omega)]
      exact h.grand hi best hpos hbest hparent
    · rw [hother i hhole]
      by_cases hup : (i - 1) / 2 = hole
      · rw [hup, hself]
        exact hfirst i hi hlt hup
      · rw [hother _ hup]
        exact h.except i hi hlt hhole hup
  · have hexcept := h.except c hc hlt (by omega) (by omega)
    rw [heq] at hexcept
    rw [hparent, hself, hother c (by omega)]
    exact hexcept
  · rw [hparent, hself]
    exact fun hup => irrefl_of before x (trans_of before hup hdown)

end WeakOrder

end HeapOrder
