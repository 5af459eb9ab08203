import Mathlib

namespace ListLemmas

universe u v

variable {α β : Type*}

theorem getElem?_of_grow {l l' : List α} (h : l <+: l') {i : ℕ} {a : α}
    (hi : l[i]? = some a) : l'[i]? = some a := by
  obtain ⟨rest, rfl⟩ := h
  rw [List.getElem?_append_left (List.getElem?_eq_some_iff.mp hi).1]
  exact hi

section Worklist

variable {p p' p'' : List ℕ} {a b c : ℕ}

/- A worklist that took on all new places, and then all new ones again. -/
theorem mem_worklist_trans (h : ∀ x, x ∈ p' ↔ x ∈ p ∨ (a ≤ x ∧ x < b))
    (h' : ∀ x, x ∈ p'' ↔ x ∈ p' ∨ (b ≤ x ∧ x < c)) (hab : a ≤ b) (hbc : b ≤ c) (x : ℕ) :
    x ∈ p'' ↔ x ∈ p ∨ (a ≤ x ∧ x < c) := by
  rw [h', h, or_assoc]
  exact or_congr_right (by omega)

theorem lt_of_mem_worklist (h : ∀ x, x ∈ p' ↔ x ∈ p ∨ (a ≤ x ∧ x < b)) (hab : a ≤ b)
    (hlt : ∀ x ∈ p, x < a) : ∀ x ∈ p', x < b := by
  intro x hx
  rcases (h x).mp hx with hx | ⟨-, hx⟩
  · exact (hlt x hx).trans_le hab
  · exact hx

end Worklist

section Enum

/- The entries of a list with their places. -/
def enum (l : List α) : List (ℕ × α) := l.zipIdx.map Prod.swap

theorem mem_enum {l : List α} {e : ℕ × α} : e ∈ enum l ↔ l[e.1]? = some e.2 := by
  unfold enum
  rw [List.mem_map]
  constructor
  · rintro ⟨x, hx, rfl⟩
    exact List.mem_zipIdx_iff_getElem?.mp hx
  · intro he
    exact ⟨(e.2, e.1), List.mem_zipIdx_iff_getElem?.mpr he, rfl⟩

theorem map_snd_enum (l : List α) : (enum l).map Prod.snd = l := by
  unfold enum
  rw [List.map_map]
  exact List.zipIdx_map_fst 0 l

theorem nodup_enum (l : List α) : (enum l).Nodup := by
  have hfst : ((enum l).map Prod.fst).Nodup := by
    unfold enum
    rw [List.map_map]
    have hidx : l.zipIdx.map (Prod.fst ∘ Prod.swap) = List.range' 0 l.length :=
      List.zipIdx_map_snd 0 l
    rw [hidx]
    exact List.nodup_range'
  exact List.Nodup.of_map _ hfst

end Enum

section Forall₂

variable {R : α → β → Prop} {l : List α} {l' : List β} (h : List.Forall₂ R l l')
include h

theorem forall₂_left {k : ℕ} {a : α} (hk : l[k]? = some a) : ∃ b, l'[k]? = some b ∧ R a b := by
  induction h generalizing k with
  | nil => simp at hk
  | cons hab _ ih =>
    cases k with
    | zero =>
      obtain rfl := Option.some.inj hk
      exact ⟨_, rfl, hab⟩
    | succ k => exact ih hk

theorem forall₂_right {k : ℕ} {b : β} (hk : l'[k]? = some b) : ∃ a, l[k]? = some a ∧ R a b := by
  induction h generalizing k with
  | nil => simp at hk
  | cons hab _ ih =>
    cases k with
    | zero =>
      obtain rfl := Option.some.inj hk
      exact ⟨_, rfl, hab⟩
    | succ k => exact ih hk

theorem forall₂_mem_left {a : α} (ha : a ∈ l) : ∃ b ∈ l', R a b := by
  obtain ⟨k, hk⟩ := List.mem_iff_getElem?.mp ha
  obtain ⟨b, hb, hab⟩ := forall₂_left h hk
  exact ⟨b, List.mem_of_getElem? hb, hab⟩

theorem forall₂_mem_right {b : β} (hb : b ∈ l') : ∃ a ∈ l, R a b := by
  obtain ⟨k, hk⟩ := List.mem_iff_getElem?.mp hb
  obtain ⟨a, ha, hab⟩ := forall₂_right h hk
  exact ⟨a, List.mem_of_getElem? ha, hab⟩

theorem forall₂_mem : List.Forall₂ (fun a b => a ∈ l ∧ R a b) l l' := by
  induction h with
  | nil => exact List.Forall₂.nil
  | cons hab _ ih =>
    refine List.Forall₂.cons ⟨List.mem_cons_self, hab⟩ (ih.imp ?_)
    rintro a b ⟨ha, hR⟩
    exact ⟨List.mem_cons_of_mem _ ha, hR⟩

theorem forall₂_filter_map {X : Type*} {P : α → Bool} {Q : β → Bool} {f : α → X} {g : β → X}
    (hR : ∀ a b, R a b → P a = Q b ∧ (P a → f a = g b)) :
    (l.filter P).map f = (l'.filter Q).map g := by
  induction h with
  | nil => rfl
  | cons hab _ ih =>
    obtain ⟨hPQ, hfg⟩ := hR _ _ hab
    rw [List.filter_cons, List.filter_cons, ← hPQ]
    split
    next hP => rw [List.map_cons, List.map_cons, ih, hfg hP]
    next => exact ih

end Forall₂

section Search

variable {K : Type*} [LinearOrder K]

theorem takeWhile_dropWhile_of_sorted {f : α → K} (m : K) {l : List α}
    (h : (l.map f).Pairwise (· ≤ ·)) :
    ((l.dropWhile fun a => f a < m).takeWhile fun a => f a ≤ m) = l.filter fun a => f a = m := by
  induction l with
  | nil => rfl
  | cons a l ih =>
    rw [List.map_cons, List.pairwise_cons] at h
    obtain ⟨hle, hl⟩ := h
    rcases lt_trichotomy (f a) m with hlt | heq | hgt
    · have hne : f a ≠ m := hlt.ne
      simp only [List.dropWhile_cons, hlt, decide_true, if_true, List.filter_cons, hne,
        decide_false, Bool.false_eq_true, if_false]
      exact ih hl
    · have hdrop : l.dropWhile (fun a => decide (f a < m)) = l := by
        cases l with
        | nil => rfl
        | cons b l =>
          have hb : ¬ f b < m := not_lt.mpr (heq ▸ hle (f b) (by simp))
          simp [hb]
      have hrest := ih hl
      rw [hdrop] at hrest
      have hnlt : ¬ f a < m := not_lt.mpr heq.ge
      rw [List.dropWhile_cons_of_neg (by simpa using hnlt),
        List.takeWhile_cons_of_pos (by simpa using heq.le),
        List.filter_cons_of_pos (by simpa using heq), hrest]
    · have hnlt : ¬ f a < m := not_lt.mpr hgt.le
      have hnle : ¬ f a ≤ m := not_le.mpr hgt
      have hnone : ∀ b ∈ a :: l, ¬ f b = m := by
        intro b hb
        rcases List.mem_cons.mp hb with rfl | hb
        · exact hgt.ne'
        · exact (hgt.trans_le (hle (f b) (List.mem_map_of_mem hb))).ne'
      have hfilter : (a :: l).filter (fun a => decide (f a = m)) = [] :=
        List.filter_eq_nil_iff.mpr (by simpa using hnone)
      rw [hfilter]
      simp [hnlt, hnle]

theorem drop_length_takeWhile (p : α → Bool) (l : List α) :
    l.drop (l.takeWhile p).length = l.dropWhile p := by
  induction l with
  | nil => rfl
  | cons a l ih =>
    by_cases hp : p a <;> simp [hp, ih]

theorem take_length_takeWhile (p : α → Bool) (l : List α) :
    l.take (l.takeWhile p).length = l.takeWhile p := by
  induction l with
  | nil => rfl
  | cons a l ih => by_cases hp : p a <;> simp [hp, ih]

end Search

theorem filterMap_eq_map_filter {f : α → Option β} {g : α → β} {p : α → Bool}
    {l : List α} (hp : ∀ a ∈ l, p a = (f a).isSome) (hg : ∀ a ∈ l, p a → f a = some (g a)) :
    l.filterMap f = (l.filter p).map g := by
  induction l with
  | nil => rfl
  | cons a l ih =>
    have hrest := ih (fun b hb => hp b (List.mem_cons_of_mem a hb))
      (fun b hb => hg b (List.mem_cons_of_mem a hb))
    by_cases hpa : p a = true
    · have hfa := hg a List.mem_cons_self hpa
      rw [List.filterMap_cons_some hfa, List.filter_cons_of_pos hpa, List.map_cons, hrest]
    · have hnone : f a = none := by
        have hsome := hp a List.mem_cons_self
        rw [Bool.not_eq_true] at hpa
        rw [hpa] at hsome
        exact Option.isSome_eq_false_iff.mp hsome.symm |> Option.isNone_iff_eq_none.mp
      rw [List.filterMap_cons_none hnone, List.filter_cons_of_neg hpa, hrest]

/- The places of a list stand one to one for those of a list it is a permutation of. -/
theorem exists_places {l l' : List α} (h : l.Perm l') : ∃ σ : ℕ → ℕ,
    (∀ k a, l[k]? = some a → l'[σ k]? = some a) ∧
      (∀ j k a b, l[j]? = some a → l[k]? = some b → σ j = σ k → j = k) ∧
      ∀ k a, l'[k]? = some a → ∃ j, l[j]? = some a ∧ σ j = k := by
  classical
  have hlen := h.length_eq
  refine ⟨fun k => if hk : k < l.length then (h.idxBij ⟨k, hk⟩ : ℕ) else k, ?_, ?_, ?_⟩
  · intro k a hk
    obtain ⟨hlt, rfl⟩ := List.getElem?_eq_some_iff.mp hk
    have hget := h.getElem_idxBij_eq_getElem ⟨k, hlt⟩
    simp only [dif_pos hlt]
    rw [List.getElem?_eq_getElem (h.idxBij ⟨k, hlt⟩).isLt]
    exact congrArg some hget
  · intro j k a b hj hk heq
    have hjlt := (List.getElem?_eq_some_iff.mp hj).1
    have hklt := (List.getElem?_eq_some_iff.mp hk).1
    simp only [dif_pos hjlt, dif_pos hklt] at heq
    have hfin := h.idxBij_injective (Fin.ext heq)
    exact congrArg Fin.val hfin
  · intro k a hk
    obtain ⟨hlt, rfl⟩ := List.getElem?_eq_some_iff.mp hk
    obtain ⟨⟨j, hj⟩, hjk⟩ := h.idxBij_surjective ⟨k, hlt⟩
    refine ⟨j, ?_, ?_⟩
    · have hget := h.getElem_idxBij_eq_getElem ⟨j, hj⟩
      rw [List.getElem?_eq_getElem hj]
      have hval : (h.idxBij ⟨j, hj⟩ : ℕ) = k := congrArg Fin.val hjk
      simp only [hval] at hget
      exact congrArg some hget.symm
    · simp only [dif_pos hj, hjk]

theorem foldlM_eq_pure {m : Type u → Type v} [Monad m] [LawfulMonad m] {α : Type*} {β : Type u}
    {f : β → α → m β} {g : β → α → β} {l : List α}
    (h : ∀ a ∈ l, ∀ b, f b a = pure (g b a)) (b : β) :
    l.foldlM f b = pure (l.foldl g b) := by
  induction l generalizing b with
  | nil => rfl
  | cons a l ih =>
    rw [List.foldlM_cons, h a List.mem_cons_self, pure_bind]
    exact ih (fun a ha => h a (List.mem_cons_of_mem _ ha)) _

theorem mapM_eq_pure {m : Type u → Type v} [Monad m] [LawfulMonad m] {α : Type*} {β : Type u}
    {f : α → m β} {g : α → β} {l : List α} (h : ∀ a ∈ l, f a = pure (g a)) :
    l.mapM f = pure (l.map g) := by
  induction l with
  | nil => rfl
  | cons a l ih =>
    rw [List.mapM_cons, h a List.mem_cons_self, ih fun b hb => h b (List.mem_cons_of_mem _ hb)]
    simp

theorem forall₂_getElem? {α β : Type*} {R : α → β → Prop} {xs : List α} {ys : List β}
    (h : List.Forall₂ R xs ys) {i : ℕ} {y : β} (hy : ys[i]? = some y) :
    ∃ x, xs[i]? = some x ∧ R x y := by
  induction h generalizing i with
  | nil => simp at hy
  | cons hfirst _ ih =>
    cases i with
    | zero =>
      obtain rfl := Option.some.inj hy
      exact ⟨_, rfl, hfirst⟩
    | succ i => exact ih hy

theorem flatMap_filter {A B : Type*} (p : A → Bool) (g : A → List B) (l : List A) :
    (l.filter p).flatMap g = l.flatMap fun a => if p a = true then g a else [] := by
  induction l with
  | nil => rfl
  | cons a l ih =>
    by_cases hp : p a = true
    · rw [List.filter_cons_of_pos hp, List.flatMap_cons, List.flatMap_cons, ih, if_pos hp]
    · rw [List.filter_cons_of_neg hp, List.flatMap_cons, ih, if_neg hp, List.nil_append]

end ListLemmas
