import Sicada.Weights.SparseTupleWeight

set_option linter.unusedSectionVars false

namespace Sicada.SparseTupleExact

open SparseTupleWeight StringParse

variable {W K : Type} [DecidableEq W] [LinearOrder K]

section Reading

def Increasing (rest : List (K × W)) : Prop := rest.Pairwise fun e e' => e.1 < e'.1

/- The keys increase and no entry stores the default. -/
def Normal (t : SparseTupleWeight W K) : Prop :=
  Increasing t.rest ∧ ∀ e ∈ t.rest, e.2 ≠ t.default

/- What the entries say of a key, read from the front. -/
def lookup (d : W) : List (K × W) → K → W
  | [], _ => d
  | (k, w) :: rest, key => if k = key then w else lookup d rest key

variable {d w : W} {k key : K} {rest pre post : List (K × W)} {t t' : SparseTupleWeight W K}

theorem lookup_of_notMem (h : ∀ e ∈ rest, e.1 ≠ key) : lookup d rest key = d := by
  induction rest with
  | nil => rfl
  | cons e rest ih =>
    rw [lookup, if_neg (h e List.mem_cons_self), ih fun e' he' => h e' (List.mem_cons_of_mem e he')]

theorem lookup_append (h : ∀ e ∈ pre, e.1 ≠ key) :
    lookup d (pre ++ rest) key = lookup d rest key := by
  induction pre with
  | nil => rfl
  | cons e pre ih =>
    rw [List.cons_append, lookup, if_neg (h e List.mem_cons_self),
      ih fun e' he' => h e' (List.mem_cons_of_mem e he')]

theorem lookup_of_mem (h : Increasing rest) (hmem : (key, w) ∈ rest) : lookup d rest key = w := by
  induction rest with
  | nil => cases hmem
  | cons e rest ih =>
    obtain ⟨hhead, hrest⟩ := List.pairwise_cons.mp h
    rcases List.mem_cons.mp hmem with rfl | hmem
    · exact if_pos rfl
    · rw [lookup, if_neg (hhead (key, w) hmem).ne, ih hrest hmem]

theorem ordered_of_increasing (h : Increasing rest) (key : K) :
    BinarySearch.Ordered (fun e : K × W => cmp e.1 key) rest := by
  refine h.imp fun {e e'} hlt => ?_
  rw [cmp_eq_lt_iff, cmp_eq_gt_iff]
  rcases lt_or_ge e.1 key with hless | hge
  · exact Or.inl hless
  · exact Or.inr (hge.trans_lt hlt)

/- Where the search ends, as what is before that place and after it. -/
theorem search_spec (h : Increasing t.rest) (key : K) :
    (∃ pre w post, t.rest = pre ++ (key, w) :: post ∧ (∀ e ∈ pre, e.1 < key) ∧
      (∀ e ∈ post, key < e.1) ∧ t.search key = .ok pre.length) ∨
    ∃ pre post, t.rest = pre ++ post ∧ (∀ e ∈ pre, e.1 < key) ∧ (∀ e ∈ post, key < e.1) ∧
      t.search key = .error pre.length := by
  rcases BinarySearch.binarySearch_spec (ordered_of_increasing h key) with
    ⟨pre, e, post, hrest, heq, hpre, hpost, hsearch⟩ | ⟨pre, post, hrest, hpre, hpost, hsearch⟩
  · obtain ⟨k, w⟩ := e
    obtain rfl : k = key := (cmp_eq_eq_iff k key).mp heq
    exact Or.inl ⟨pre, w, post, hrest, fun e he => (cmp_eq_lt_iff _ _).mp (hpre e he),
      fun e he => (cmp_eq_gt_iff _ _).mp (hpost e he), hsearch⟩
  · exact Or.inr ⟨pre, post, hrest, fun e he => (cmp_eq_lt_iff _ _).mp (hpre e he),
      fun e he => (cmp_eq_gt_iff _ _).mp (hpost e he), hsearch⟩

theorem value_eq (h : Increasing t.rest) (key : K) : t.value key = lookup t.default t.rest key := by
  rcases search_spec h key with ⟨pre, w, post, hrest, hpre, -, hsearch⟩ |
    ⟨pre, post, hrest, hpre, hpost, hsearch⟩
  · rw [value, hsearch, hrest, lookup_append fun e he => (hpre e he).ne, lookup, if_pos rfl]
    simp
  · rw [value, hsearch, hrest, lookup_append fun e he => (hpre e he).ne,
      lookup_of_notMem fun e he => (hpost e he).ne']

/- The entries are the keys whose value is not the default. -/
theorem mem_rest (h : Normal t) : (key, w) ∈ t.rest ↔ w ≠ t.default ∧ t.value key = w := by
  rw [value_eq h.1]
  constructor
  · exact fun hmem => ⟨h.2 _ hmem, lookup_of_mem h.1 hmem⟩
  · rintro ⟨hne, rfl⟩
    by_cases hmem : ∃ w, (key, w) ∈ t.rest
    · obtain ⟨w, hmem⟩ := hmem
      rwa [lookup_of_mem h.1 hmem]
    · have hnone : ∀ e ∈ t.rest, e.1 ≠ key := by
        rintro ⟨k, w⟩ he rfl
        exact hmem ⟨w, he⟩
      exact absurd (lookup_of_notMem hnone) hne

theorem eq_iff (h : Normal t) (h' : Normal t') :
    t = t' ↔ (∀ key, t.value key = t'.value key) ∧ t.default = t'.default := by
  constructor
  · rintro rfl
    exact ⟨fun _ => rfl, rfl⟩
  · rintro ⟨hvalue, hdefault⟩
    have hmem : ∀ e, e ∈ t.rest ↔ e ∈ t'.rest := by
      rintro ⟨key, w⟩
      rw [mem_rest h, mem_rest h', hvalue, hdefault]
    have hanti : Std.Antisymm fun e e' : K × W => e.1 < e'.1 :=
      ⟨fun e e' hlt hlt' => absurd hlt' hlt.asymm⟩
    have hirrefl : Std.Irrefl fun e e' : K × W => e.1 < e'.1 := ⟨fun e => lt_irrefl e.1⟩
    have hrest : t.rest = t'.rest := h.1.eq_of_mem_iff h'.1 hmem
    cases t
    cases t'
    rw [SparseTupleWeight.mk.injEq]
    exact ⟨hdefault, hrest⟩

end Reading

section Producers

variable {d w : W} {k key : K} {rest pre post entries : List (K × W)} {t t' : SparseTupleWeight W K}

theorem normal_new (d : W) : Normal (new d : SparseTupleWeight W K) :=
  ⟨List.Pairwise.nil, by simp [new]⟩

theorem normal_of_sublist (h : Increasing rest) (hsub : entries.Sublist rest)
    (hne : ∀ e ∈ entries, e.2 ≠ d) : Normal ⟨d, entries⟩ := ⟨h.sublist hsub, hne⟩

theorem normal_filter (h : Increasing rest) (d : W) :
    Normal ⟨d, rest.filter fun e => e.2 ≠ d⟩ :=
  normal_of_sublist h List.filter_sublist fun e he => by simpa using (List.mem_filter.mp he).2

theorem sublist_dedupKeys (entries : List (K × W)) : (dedupKeys entries).Sublist entries := by
  fun_induction dedupKeys entries with
  | case1 => exact List.Sublist.refl _
  | case2 e entries ih => exact (ih.trans (List.dropWhile_sublist _)).cons_cons e

/- Of the entries in order, those of one key are next to each other. -/
theorem increasing_dedupKeys (h : entries.Pairwise fun e e' => e.1 ≤ e'.1) :
    Increasing (dedupKeys entries) := by
  fun_induction dedupKeys entries with
  | case1 => exact List.Pairwise.nil
  | case2 e entries ih =>
    obtain ⟨hhead, hrest⟩ := List.pairwise_cons.mp h
    have hdrop := hrest.sublist (List.dropWhile_sublist fun next => next.1 = e.1)
    refine List.pairwise_cons.mpr ⟨fun e' he' => ?_, ih hdrop⟩
    have hmem := (sublist_dedupKeys _).subset he'
    -- the first entry that is left has another key, and no later one has a smaller key
    generalize hleft : (entries.dropWhile fun next => decide (next.1 = e.1)) = left at hmem hdrop
    cases left with
    | nil => cases hmem
    | cons first left =>
      have hne : first.1 ≠ e.1 := by
        have hfirst := List.head?_dropWhile_not (fun next : K × W => decide (next.1 = e.1)) entries
        rw [hleft] at hfirst
        simpa using hfirst
      have hfirst : e.1 < first.1 := by
        refine lt_of_le_of_ne (hhead first ?_) hne.symm
        exact (List.dropWhile_sublist _).subset (hleft ▸ List.mem_cons_self)
      rcases List.mem_cons.mp hmem with rfl | hmem
      · exact hfirst
      · exact hfirst.trans_le ((List.pairwise_cons.mp hdrop).1 e' hmem)

/- The standard library's sort by key, which may put the entries of one key in any order. -/
structure UnstableSort (sort : List (K × W) → List (K × W)) : Prop where
  perm (entries : List (K × W)) : (sort entries).Perm entries
  sorted (entries : List (K × W)) : (sort entries).Pairwise fun e e' => e.1 ≤ e'.1

theorem normal_fromIter {sort : List (K × W) → List (K × W)} (hsort : UnstableSort sort) (d : W)
    (entries : List (K × W)) : Normal (fromIter sort d entries) := by
  refine ⟨increasing_dedupKeys (hsort.sorted _), fun e he => ?_⟩
  have hmem := (hsort.perm _).mem_iff.mp ((sublist_dedupKeys _).subset he)
  exact of_decide_eq_true (List.mem_filter.mp hmem).2

theorem normal_quantize (h : Normal t) (f : W → W) : Normal (t.quantize f) := by
  refine normal_filter ?_ (f t.default)
  exact List.pairwise_map.mpr h.1

theorem normal_reverse {W' : Type} [DecidableEq W'] (h : Normal t) {f : W → W'}
    (hf : Function.Injective f) : Normal (t.reverse f) := by
  refine ⟨List.pairwise_map.mpr h.1, fun e he => ?_⟩
  obtain ⟨e', he', rfl⟩ := List.mem_map.mp he
  exact fun heq => h.2 e' he' (hf heq)

theorem normal_setDefaultValue (h : Normal t) (d : W) : Normal (t.setDefaultValue d) :=
  normal_filter h.1 d

theorem increasing_insert (hpre : ∀ e ∈ pre, e.1 < key) (hpost : ∀ e ∈ post, key < e.1)
    (h : Increasing (pre ++ post)) (w : W) : Increasing (pre ++ (key, w) :: post) := by
  obtain ⟨hincpre, hincpost, -⟩ := List.pairwise_append.mp h
  refine List.pairwise_append.mpr ⟨hincpre, List.pairwise_cons.mpr ⟨hpost, hincpost⟩, ?_⟩
  intro e he e' he'
  rcases List.mem_cons.mp he' with rfl | he'
  · exact hpre e he
  · exact (hpre e he).trans (hpost e' he')

theorem normal_setValue (h : Normal t) (key : K) (w : W) : Normal (t.setValue key w) := by
  rcases search_spec h.1 key with ⟨pre, v, post, hrest, hpre, hpost, hsearch⟩ |
    ⟨pre, post, hrest, hpre, hpost, hsearch⟩
  · have hsub : (pre ++ post).Sublist t.rest := by
      rw [hrest]
      exact (List.sublist_cons_self _ _).append_left pre
    rw [setValue, hsearch]
    dsimp only
    split_ifs with hw
    · have herase : t.rest.eraseIdx pre.length = pre ++ post := by
        rw [hrest, BinarySearch.eraseIdx_length]
      rw [herase]
      exact normal_of_sublist h.1 hsub fun e he => h.2 e (hsub.subset he)
    · have hmodify : (t.rest.modify pre.length fun e => (e.1, w)) = pre ++ (key, w) :: post := by
        rw [hrest, BinarySearch.modify_length]
      rw [hmodify]
      refine ⟨increasing_insert hpre hpost (h.1.sublist hsub) w, fun e he => ?_⟩
      rcases List.mem_append.mp he with he | he
      · exact h.2 e (hsub.subset (List.mem_append_left post he))
      · rcases List.mem_cons.mp he with rfl | he
        · exact hw
        · exact h.2 e (hsub.subset (List.mem_append_right pre he))
  · rw [setValue, hsearch]
    dsimp only
    split_ifs with hw
    · have hinsert : t.rest.insertIdx pre.length (key, w) = pre ++ (key, w) :: post := by
        rw [hrest, BinarySearch.insertIdx_length]
      rw [hinsert]
      refine ⟨increasing_insert hpre hpost (hrest ▸ h.1) w, fun e he => ?_⟩
      rcases List.mem_append.mp he with he | he
      · exact h.2 e (hrest ▸ List.mem_append_left post he)
      · rcases List.mem_cons.mp he with rfl | he
        · exact hw
        · exact h.2 e (hrest ▸ List.mem_append_right pre he)
    · exact h

end Producers

section Mapping

variable {d d' w : W} {k key : K} {rest rest' : List (K × W)} {t t' : SparseTupleWeight W K}
  {mapper : Option K → W → W → W}

theorem default_pushBack (t : SparseTupleWeight W K) (key : K) (w : W) :
    (t.pushBack key w).default = t.default := by
  unfold pushBack
  split_ifs <;> rfl

theorem mem_pushBack {e : K × W} :
    e ∈ (t.pushBack key w).rest ↔ e ∈ t.rest ∨ e = (key, w) ∧ w ≠ t.default := by
  unfold pushBack
  split_ifs with h
  · simp [h]
  · simp [not_not.mp h]

theorem normal_pushBack (h : Normal t) (hlast : ∀ e ∈ t.rest, e.1 < key) (w : W) :
    Normal (t.pushBack key w) := by
  unfold pushBack
  split_ifs with hw
  · refine ⟨List.pairwise_append.mpr ⟨h.1, List.pairwise_singleton _ _, ?_⟩, fun e he => ?_⟩
    · intro e he e' he'
      rw [List.mem_singleton.mp he']
      exact hlast e he
    · rcases List.mem_append.mp he with he | he
      · exact h.2 e he
      · rw [List.mem_singleton.mp he]
        exact hw
  · exact h

/- The keys of the entries still to be read come after those already written. -/
def Later (t : SparseTupleWeight W K) (rest : List (K × W)) : Prop :=
  ∀ e ∈ t.rest, ∀ e' ∈ rest, e.1 < e'.1

theorem later_pushBack (h : Later t rest) (hkey : ∀ e ∈ rest, key < e.1) (w : W) :
    Later (t.pushBack key w) rest := by
  intro e he e' he'
  rcases mem_pushBack.mp he with he | ⟨rfl, -⟩
  · exact h e he e' he'
  · exact hkey e' he'

theorem later_tail {e : K × W} (h : Later t (e :: rest)) : Later t rest :=
  fun e' he' e'' he'' => h e' he' e'' (List.mem_cons_of_mem e he'')

/- What the walk leaves: the keys of either list, with the mapper at what both lists say. -/
structure Walked (mapper : Option K → W → W → W) (d d' : W) (rest rest' : List (K × W))
    (t result : SparseTupleWeight W K) : Prop where
  normal : Normal result
  default_eq : result.default = t.default
  mem (key : K) (w : W) : (key, w) ∈ result.rest ↔ (key, w) ∈ t.rest ∨
    ((∃ v, (key, v) ∈ rest) ∨ ∃ v, (key, v) ∈ rest') ∧
      w = mapper (some key) (lookup d rest key) (lookup d' rest' key) ∧ w ≠ t.default

theorem lookup_of_lt (h : ∀ e ∈ rest, key < e.1) : lookup d rest key = d :=
  lookup_of_notMem fun e he => (h e he).ne'

theorem lookup_cons_of_ne (h : k ≠ key) : lookup d ((k, w) :: rest) key = lookup d rest key :=
  if_neg h

theorem lookup_cons_self : lookup d ((k, w) :: rest) k = w := if_pos rfl

/- One step of the walk: the smallest key left is written and the lists without it are walked. -/
theorem Walked.step {next next' : List (K × W)} {result : SparseTupleWeight W K}
    (hw : w = mapper (some k) (lookup d rest k) (lookup d' rest' k))
    (hkeys : ∀ key, ((∃ v, (key, v) ∈ rest) ∨ ∃ v, (key, v) ∈ rest') ↔
      key = k ∨ (∃ v, (key, v) ∈ next) ∨ ∃ v, (key, v) ∈ next')
    (hlater : ∀ key, ((∃ v, (key, v) ∈ next) ∨ ∃ v, (key, v) ∈ next') → k < key)
    (hnext : ∀ key, key ≠ k → lookup d rest key = lookup d next key)
    (hnext' : ∀ key, key ≠ k → lookup d' rest' key = lookup d' next' key)
    (h : Walked mapper d d' next next' (t.pushBack k w) result) :
    Walked mapper d d' rest rest' t result := by
  refine ⟨h.normal, h.default_eq.trans (default_pushBack t k w), fun key v => ?_⟩
  rw [h.mem, mem_pushBack, default_pushBack, hkeys, Prod.mk.injEq, or_assoc]
  refine or_congr_right ?_
  by_cases hkey : key = k
  · subst hkey
    rw [← hw]
    have hnone : ¬((∃ v, (key, v) ∈ next) ∨ ∃ v, (key, v) ∈ next') :=
      fun hex => lt_irrefl key (hlater key hex)
    constructor
    · rintro (⟨⟨-, rfl⟩, hne⟩ | ⟨hex, -⟩)
      · exact ⟨Or.inl rfl, rfl, hne⟩
      · exact absurd hex hnone
    · rintro ⟨-, rfl, hne⟩
      exact Or.inl ⟨⟨rfl, rfl⟩, hne⟩
  · rw [hnext key hkey, hnext' key hkey]
    simp [hkey]

theorem exists_mem_cons (key k : K) (w : W) (rest : List (K × W)) :
    (∃ v, (key, v) ∈ (k, w) :: rest) ↔ key = k ∨ ∃ v, (key, v) ∈ rest := by
  simp [List.mem_cons, exists_or]

theorem lt_of_exists_mem (h : ∀ e ∈ rest, k < e.1) (hex : ∃ v, (key, v) ∈ rest) : k < key := by
  obtain ⟨v, hv⟩ := hex
  exact h _ hv

theorem lt_head {k' : K} {w' : W} (h : Increasing ((k', w') :: rest')) (hlt : k < k') :
    ∀ e ∈ (k', w') :: rest', k < e.1 := by
  intro e he
  rcases List.mem_cons.mp he with rfl | he
  · exact hlt
  · exact hlt.trans ((List.pairwise_cons.mp h).1 e he)

theorem mapEntries_walked (hn : Normal t) (hr : Increasing rest) (hr' : Increasing rest')
    (hl : Later t rest) (hl' : Later t rest') :
    Walked mapper d d' rest rest' t (mapEntries mapper d d' rest rest' t) := by
  fun_induction mapEntries mapper d d' rest rest' t with
  | case1 t => exact ⟨hn, rfl, fun key w => by simp⟩
  | case2 k w rest t ih =>
    obtain ⟨hhead, htail⟩ := List.pairwise_cons.mp hr
    have hpush := normal_pushBack hn (fun e he => hl e he _ List.mem_cons_self)
      (mapper (some k) w d')
    refine Walked.step (congrArg₂ _ lookup_cons_self.symm rfl) (fun key => ?_) (fun key hex => ?_)
      (fun key hkey => lookup_cons_of_ne (Ne.symm hkey)) (fun _ _ => rfl)
      (ih hpush htail hr' (later_pushBack (later_tail hl) hhead _) (by simp [Later]))
    · rw [exists_mem_cons, or_assoc]
    · exact hex.elim (lt_of_exists_mem hhead) fun ⟨_, hv⟩ => by cases hv
  | case3 k' w' rest' t ih =>
    obtain ⟨hhead, htail⟩ := List.pairwise_cons.mp hr'
    have hpush := normal_pushBack hn (fun e he => hl' e he _ List.mem_cons_self)
      (mapper (some k') d w')
    refine Walked.step (congrArg₂ _ rfl lookup_cons_self.symm) (fun key => ?_) (fun key hex => ?_)
      (fun _ _ => rfl) (fun key hkey => lookup_cons_of_ne (Ne.symm hkey))
      (ih hpush hr htail (by simp [Later]) (later_pushBack (later_tail hl') hhead _))
    · rw [exists_mem_cons, or_left_comm]
    · exact hex.elim (fun ⟨_, hv⟩ => by cases hv) (lt_of_exists_mem hhead)
  | case4 k w rest k' w' rest' t hcmp ih =>
    obtain rfl := (cmp_eq_eq_iff k k').mp hcmp
    obtain ⟨hhead, htail⟩ := List.pairwise_cons.mp hr
    obtain ⟨hhead', htail'⟩ := List.pairwise_cons.mp hr'
    have hpush := normal_pushBack hn (fun e he => hl e he _ List.mem_cons_self)
      (mapper (some k) w w')
    refine Walked.step (congrArg₂ _ lookup_cons_self.symm lookup_cons_self.symm) (fun key => ?_)
      (fun key hex => hex.elim (lt_of_exists_mem hhead) (lt_of_exists_mem hhead'))
      (fun key hkey => lookup_cons_of_ne (Ne.symm hkey))
      (fun key hkey => lookup_cons_of_ne (Ne.symm hkey))
      (ih hpush htail htail' (later_pushBack (later_tail hl) hhead _)
        (later_pushBack (later_tail hl') hhead' _))
    rw [exists_mem_cons, exists_mem_cons]
    tauto
  | case5 k w rest k' w' rest' t hcmp ih =>
    have hlt := lt_head hr' ((cmp_eq_lt_iff k k').mp hcmp)
    obtain ⟨hhead, htail⟩ := List.pairwise_cons.mp hr
    have hpush := normal_pushBack hn (fun e he => hl e he _ List.mem_cons_self)
      (mapper (some k) w d')
    refine Walked.step (congrArg₂ _ lookup_cons_self.symm (lookup_of_lt hlt).symm)
      (fun key => ?_) (fun key hex => hex.elim (lt_of_exists_mem hhead) (lt_of_exists_mem hlt))
      (fun key hkey => lookup_cons_of_ne (Ne.symm hkey)) (fun _ _ => rfl)
      (ih hpush htail hr' (later_pushBack (later_tail hl) hhead _) (later_pushBack hl' hlt _))
    rw [exists_mem_cons, or_assoc]
  | case6 k w rest k' w' rest' t hcmp ih =>
    have hlt := lt_head hr ((cmp_eq_gt_iff k k').mp hcmp)
    obtain ⟨hhead, htail⟩ := List.pairwise_cons.mp hr'
    have hpush := normal_pushBack hn (fun e he => hl' e he _ List.mem_cons_self)
      (mapper (some k') d w')
    refine Walked.step (congrArg₂ _ (lookup_of_lt hlt).symm lookup_cons_self.symm)
      (fun key => ?_) (fun key hex => hex.elim (lt_of_exists_mem hlt) (lt_of_exists_mem hhead))
      (fun _ _ => rfl) (fun key hkey => lookup_cons_of_ne (Ne.symm hkey))
      (ih hpush hr htail (later_pushBack hl hlt _) (later_pushBack (later_tail hl') hhead _))
    rw [exists_mem_cons key k', or_left_comm]

theorem map_walked (mapper : Option K → W → W → W) (h : Normal t) (h' : Normal t') :
    Walked mapper t.default t'.default t.rest t'.rest (new (mapper none t.default t'.default))
      (t.map mapper t') :=
  mapEntries_walked (normal_new _) h.1 h'.1 (by simp [Later, new]) (by simp [Later, new])

theorem normal_map (mapper : Option K → W → W → W) (h : Normal t) (h' : Normal t') :
    Normal (t.map mapper t') := (map_walked mapper h h').normal

/- An operation that does not look at the key is applied key by key. -/
theorem value_map (op : W → W → W) (h : Normal t) (h' : Normal t') (key : K) :
    (t.map (fun _ => op) t').value key = op (t.value key) (t'.value key) := by
  obtain ⟨hnormal, hdefault, hmem⟩ := map_walked (fun _ => op) h h'
  have hdefault : (t.map (fun _ => op) t').default = op t.default t'.default := hdefault
  rw [value_eq h.1, value_eq h'.1]
  by_cases hkey : (∃ v, (key, v) ∈ t.rest) ∨ ∃ v, (key, v) ∈ t'.rest
  · by_cases hop : op (lookup t.default t.rest key) (lookup t'.default t'.rest key) =
        op t.default t'.default
    · rw [hop]
      by_contra hne
      have hentry := (mem_rest hnormal).mpr ⟨hdefault ▸ hne, rfl⟩
      rcases (hmem key _).mp hentry with hold | ⟨-, heq, -⟩
      · cases hold
      · exact hne (heq.trans hop)
    · exact ((mem_rest hnormal).mp ((hmem key _).mpr (Or.inr ⟨hkey, rfl, hop⟩))).2
  · rw [not_or] at hkey
    rw [lookup_of_notMem fun e he heq => hkey.1 ⟨e.2, heq ▸ he⟩,
      lookup_of_notMem fun e he heq => hkey.2 ⟨e.2, heq ▸ he⟩]
    by_contra hne
    have hentry := (mem_rest hnormal).mpr ⟨hdefault ▸ hne, rfl⟩
    rcases (hmem key _).mp hentry with hold | ⟨hex, -, -⟩
    · cases hold
    · exact hex.elim hkey.1 hkey.2

end Mapping

section Parsing

variable {parseWeight : List Char → Except ParseError W}
  {parseKey : List Char → Except ParseError K}
  {d : W} {text : List Char} {parts : List (List Char)} {entries : List (K × W)}
  {t t' : SparseTupleWeight W K} {count : ℕ}

variable (parseWeight parseKey) in
/- The entries that the parts list, key and weight in turn. -/
inductive Pairs : List (List Char) → List (K × W) → Prop
  | nil : Pairs [] []
  | cons {key value : List Char} {k : K} {w : W} {parts : List (List Char)}
      {entries : List (K × W)} (hkey : parseKey key = .ok k) (hvalue : parseWeight value = .ok w)
      (hrest : Pairs parts entries) : Pairs (key :: value :: parts) ((k, w) :: entries)

variable (parseWeight parseKey) in
/- The default and the entries of a text. -/
def Lists (text : List Char) (d : W) (entries : List (K × W)) : Prop :=
  ∃ first parts, splitWeight text = .ok (first :: parts) ∧ parseWeight first = .ok d ∧
    Pairs parseWeight parseKey parts entries

variable (parseWeight parseKey) in
/- The keys that the text gives other weights than the default increase. -/
def Ascending (text : List Char) : Prop :=
  ∀ d entries, Lists parseWeight parseKey text d entries →
    Increasing (entries.filter fun e => e.2 ≠ d)

theorem Pairs.unique {entries' : List (K × W)} (h : Pairs parseWeight parseKey parts entries)
    (h' : Pairs parseWeight parseKey parts entries') : entries = entries' := by
  induction h generalizing entries' with
  | nil =>
    cases h'
    rfl
  | cons hkey hvalue hrest ih =>
    cases h' with
    | cons hkey' hvalue' hrest' =>
      rw [hkey] at hkey'
      rw [hvalue] at hvalue'
      cases hkey'
      cases hvalue'
      rw [ih hrest']

theorem Lists.unique {d' : W} {entries' : List (K × W)}
    (h : Lists parseWeight parseKey text d entries)
    (h' : Lists parseWeight parseKey text d' entries') : d = d' ∧ entries = entries' := by
  obtain ⟨first, parts, hsplit, hfirst, hpairs⟩ := h
  obtain ⟨first', parts', hsplit', hfirst', hpairs'⟩ := h'
  rw [hsplit] at hsplit'
  cases hsplit'
  rw [hfirst] at hfirst'
  cases hfirst'
  exact ⟨rfl, hpairs.unique hpairs'⟩

theorem rest_pushBack (t : SparseTupleWeight W K) (key : K) (w : W) :
    (t.pushBack key w).rest = t.rest ++ [(key, w)].filter fun e => e.2 ≠ t.default := by
  unfold pushBack
  split_ifs with h <;> simp [h]

theorem readEntries_ok (h : readEntries parseWeight parseKey count parts t = .ok t') :
    ∃ entries, Pairs parseWeight parseKey parts entries ∧ t'.default = t.default ∧
      t'.rest = t.rest ++ entries.filter fun e => e.2 ≠ t.default := by
  fun_induction readEntries parseWeight parseKey count parts t with
  | case1 t =>
    cases h
    exact ⟨[], Pairs.nil, rfl, by simp⟩
  | case2 => cases h
  | case3 key value parts t ih =>
    cases hkey : parseKey key with
    | error error =>
      rw [hkey] at h
      cases h
    | ok k =>
      cases hvalue : parseWeight value with
      | error error =>
        rw [hkey, hvalue] at h
        cases h
      | ok w =>
        rw [hkey, hvalue] at h
        obtain ⟨entries, hpairs, hdefault, hrest⟩ := ih k w h
        rw [default_pushBack] at hdefault
        refine ⟨(k, w) :: entries, Pairs.cons hkey hvalue hpairs, hdefault, ?_⟩
        rw [hrest, rest_pushBack, default_pushBack, List.append_assoc, ← List.filter_append,
          List.singleton_append]

theorem readParts_ok {parseDefault : List Char → Except ParseError W}
    (h : readParts parseDefault parseWeight parseKey text = .ok t) :
    ∃ first parts entries, splitWeight text = .ok (first :: parts) ∧
      parseDefault first = .ok t.default ∧ Pairs parseWeight parseKey parts entries ∧
      t.rest = entries.filter fun e => e.2 ≠ t.default := by
  unfold readParts at h
  cases hsplit : splitWeight text with
  | error error =>
    rw [hsplit] at h
    cases h
  | ok parts =>
    rw [hsplit] at h
    cases parts with
    | nil => cases h
    | cons first parts =>
      cases hfirst : parseDefault first with
      | error error =>
        simp only [Bind.bind, Except.bind, hfirst] at h
        cases h
      | ok d =>
        simp only [Bind.bind, Except.bind, hfirst] at h
        obtain ⟨entries, hpairs, hdefault, hrest⟩ := readEntries_ok h
        refine ⟨first, parts, entries, rfl, ?_, hpairs, ?_⟩
        · rw [hfirst, hdefault]
          rfl
        · rw [hrest, hdefault]
          rfl

theorem normal_of_lists (hlists : Lists parseWeight parseKey text t.default entries)
    (hrest : t.rest = entries.filter fun e => e.2 ≠ t.default) :
    Normal t ↔ Ascending parseWeight parseKey text := by
  constructor
  · intro hnormal d' entries' hlists'
    obtain ⟨rfl, rfl⟩ := hlists.unique hlists'
    exact hrest ▸ hnormal.1
  · intro hasc
    refine ⟨hrest ▸ hasc _ _ hlists, fun e he => ?_⟩
    rw [hrest] at he
    exact of_decide_eq_true (List.mem_filter.mp he).2

/- A text is read into the normal form exactly when its keys increase. -/
theorem normal_fromStr (h : fromStr parseWeight parseKey text = .ok t) :
    Normal t ↔ Ascending parseWeight parseKey text := by
  obtain ⟨first, parts, entries, hsplit, hfirst, hpairs, hrest⟩ := readParts_ok h
  exact normal_of_lists ⟨first, parts, hsplit, hfirst, hpairs⟩ hrest

open SparsePowerWeight in
theorem failing_ok {A : Type} {parse : List Char → Except ParseError A} {message : String}
    {s : List Char} {a : A} (h : failing message parse s = .ok a) : parse s = .ok a := by
  unfold failing at h
  cases hparse : parse s with
  | error error =>
    rw [hparse] at h
    cases h
  | ok b =>
    rw [hparse] at h
    exact h

open SparsePowerWeight in
theorem pairs_of_failing {m m' : String}
    (h : Pairs (failing m parseWeight) (failing m' parseKey) parts entries) :
    Pairs parseWeight parseKey parts entries := by
  induction h with
  | nil => exact Pairs.nil
  | cons hkey hvalue _ ih => exact Pairs.cons (failing_ok hkey) (failing_ok hvalue) ih

theorem normal_powerFromStr (h : SparsePowerWeight.fromStr parseWeight parseKey text = .ok t) :
    Normal t ↔ Ascending parseWeight parseKey text := by
  obtain ⟨first, parts, entries, hsplit, hfirst, hpairs, hrest⟩ := readParts_ok h
  exact normal_of_lists ⟨first, parts, hsplit, failing_ok hfirst, pairs_of_failing hpairs⟩ hrest

end Parsing

section Runs

variable {I : Type} {V : I → Type} [∀ i, DecidableEq (V i)]

/- The values that are built, of any of a family of weight types, from texts whose keys increase. -/
inductive Built : ∀ i, SparseTupleWeight (V i) K → Prop
  | new {i : I} (default : V i) : Built i (new default)
  | fromIter {i : I} {sort : List (K × V i) → List (K × V i)} (hsort : UnstableSort sort)
      (default : V i) (entries : List (K × V i)) : Built i (fromIter sort default entries)
  | setValue {i : I} {t : SparseTupleWeight (V i) K} (ht : Built i t) (key : K) (weight : V i) :
      Built i (t.setValue key weight)
  | setDefaultValue {i : I} {t : SparseTupleWeight (V i) K} (ht : Built i t) (default : V i) :
      Built i (t.setDefaultValue default)
  | map {i : I} {t t' : SparseTupleWeight (V i) K} (ht : Built i t) (ht' : Built i t')
      (mapper : Option K → V i → V i → V i) : Built i (t.map mapper t')
  | quantize {i : I} {t : SparseTupleWeight (V i) K} (ht : Built i t) (f : V i → V i) :
      Built i (t.quantize f)
  | reverse {i j : I} {t : SparseTupleWeight (V i) K} (ht : Built i t) {f : V i → V j}
      (hf : Function.Injective f) : Built j (t.reverse f)
  | fromStr {i : I} {parseWeight : List Char → Except ParseError (V i)}
      {parseKey : List Char → Except ParseError K} {text : List Char}
      {t : SparseTupleWeight (V i) K} (ht : fromStr parseWeight parseKey text = .ok t)
      (hasc : Ascending parseWeight parseKey text) : Built i t
  | powerFromStr {i : I} {parseWeight : List Char → Except ParseError (V i)}
      {parseKey : List Char → Except ParseError K} {text : List Char}
      {t : SparseTupleWeight (V i) K}
      (ht : SparsePowerWeight.fromStr parseWeight parseKey text = .ok t)
      (hasc : Ascending parseWeight parseKey text) : Built i t

theorem normal_of_built {i : I} {t : SparseTupleWeight (V i) K} (h : Built i t) : Normal t := by
  induction h with
  | new default => exact normal_new default
  | fromIter hsort default entries => exact normal_fromIter hsort default entries
  | setValue _ key weight ih => exact normal_setValue ih key weight
  | setDefaultValue _ default ih => exact normal_setDefaultValue ih default
  | map _ _ mapper ih ih' => exact normal_map mapper ih ih'
  | quantize _ f ih => exact normal_quantize ih f
  | reverse _ hf ih => exact normal_reverse ih hf
  | fromStr ht hasc => exact (normal_fromStr ht).mpr hasc
  | powerFromStr ht hasc => exact (normal_powerFromStr ht).mpr hasc

/- What is built from texts with increasing keys is in the normal form and reads as a function, and
no other text is read into the normal form. -/
theorem built_normal :
    (∀ i (t : SparseTupleWeight (V i) K), Built i t → Normal t) ∧
    (∀ i (t t' : SparseTupleWeight (V i) K), Built i t → Built i t' →
      (∀ op : V i → V i → V i, (t.map (fun _ => op) t').default = op t.default t'.default ∧
        ∀ key, (t.map (fun _ => op) t').value key = op (t.value key) (t'.value key)) ∧
      (t = t' ↔ (∀ key, t.value key = t'.value key) ∧ t.default = t'.default)) ∧
    ∀ i (parseWeight : List Char → Except ParseError (V i))
      (parseKey : List Char → Except ParseError K) (text : List Char)
      (t : SparseTupleWeight (V i) K),
      fromStr parseWeight parseKey text = .ok t ∨
        SparsePowerWeight.fromStr parseWeight parseKey text = .ok t →
      (Normal t ↔ Ascending parseWeight parseKey text) := by
  refine ⟨fun i t h => normal_of_built h, fun i t t' h h' => ⟨fun op => ⟨?_, fun key => ?_⟩, ?_⟩,
    fun i parseWeight parseKey text t h => h.elim normal_fromStr normal_powerFromStr⟩
  · exact (map_walked _ (normal_of_built h) (normal_of_built h')).default_eq
  · exact value_map op (normal_of_built h) (normal_of_built h') key
  · exact eq_iff (normal_of_built h) (normal_of_built h')

/- Numbers of one digit. -/
def parseDigit : List Char → Except ParseError ℤ
  | [c] => if c.isDigit then .ok (c.toNat - 48) else .error .parseInt
  | _ => .error .parseInt

/- The entries are kept in the order of the text. -/
theorem fromStr_unsorted :
    fromStr parseDigit parseDigit ['0', ',', '3', ',', '1', ',', '1', ',', '2'] =
        .ok (⟨0, [(3, 1), (1, 2)]⟩ : SparseTupleWeight ℤ ℤ) ∧
      ¬ Normal (⟨0, [(3, 1), (1, 2)]⟩ : SparseTupleWeight ℤ ℤ) := by
  refine ⟨by decide +kernel, fun h => ?_⟩
  have hlt := (List.pairwise_cons.mp h.1).1 (1, 2) List.mem_cons_self
  exact absurd hlt (by decide)

end Runs

end Sicada.SparseTupleExact
