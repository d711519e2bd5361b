import Mathlib
/-!
# Segments of a list

A segment starts at an element that `enter`s and runs on through elements that
`stay`, as far as it can in both directions. The lemmas say how appending one
element changes the segments (for a left-to-right scanner), and that every
entering element lies in exactly one segment.
-/

namespace Segment

variable {α β : Type}

/-- Position `m` holds an element with the property. -/
def At (P : α → Bool) (l : List α) (m : Nat) : Prop := ∃ x, l[m]? = some x ∧ P x = true

/-- Every position from `i` up to `e` holds an element that stays. -/
def Runs (stay : α → Bool) (l : List α) (i e : Nat) : Prop := ∀ m, i ≤ m → m < e → At stay l m

/-- A segment starts at `k`: no earlier start runs on to `k`. -/
structure Begins (enter stay : α → Bool) (l : List α) (k : Nat) : Prop where
  first : At enter l k
  maximal : ∀ j < k, At enter l j → ¬ Runs stay l j k

/-- A segment that the end of the list may still cut short. -/
structure Open (enter stay : α → Bool) (l : List α) (k : Nat) : Prop extends Begins enter stay l k where
  runs : Runs stay l k l.length

/-- The segment of length `n` at `k`. -/
structure IsSegment (enter stay : α → Bool) (l : List α) (k n : Nat) : Prop extends
    Begins enter stay l k where
  runs : Runs stay l k (k + n)
  ends : ¬ At stay l (k + n)

/-- The total weight of the positions from `i` up to `e`. -/
def total (wt : α → Nat) (l : List α) (i e : Nat) : Nat :=
  ∑ m ∈ Finset.Ico i e, (l[m]?.map wt).getD 0

theorem At.lt {P : α → Bool} {l : List α} {m : Nat} (h : At P l m) : m < l.length := by
  obtain ⟨x, hx, -⟩ := h
  exact (List.getElem?_eq_some_iff.1 hx).1

theorem at_iff {P : α → Bool} {l : List α} {m : Nat} {x : α} (hx : l[m]? = some x) : At P l m ↔ P x = true := by
  constructor
  · rintro ⟨y, hy, hP⟩
    rwa [Option.some.inj (hx.symm.trans hy)]
  · exact fun hP => ⟨x, hx, hP⟩

theorem Runs.length_unique {stay : α → Bool} {l : List α} {k n n' : Nat} (h : Runs stay l k (k + n))
    (he : ¬ At stay l (k + n)) (h' : Runs stay l k (k + n')) (he' : ¬ At stay l (k + n')) : n = n' := by
  rcases Nat.lt_trichotomy n n' with hlt | rfl | hlt
  · exact absurd (h' (k + n) (by omega) (by omega)) he
  · rfl
  · exact absurd (h (k + n') (by omega) (by omega)) he'

theorem at_congr {P Q : α → Bool} {l : List α} (h : ∀ x ∈ l, P x = Q x) {m : Nat} : At P l m ↔ At Q l m := by
  constructor
  · rintro ⟨x, hx, hP⟩
    exact ⟨x, hx, by rw [← h x (List.mem_of_getElem? hx)]; exact hP⟩
  · rintro ⟨x, hx, hQ⟩
    exact ⟨x, hx, by rw [h x (List.mem_of_getElem? hx)]; exact hQ⟩

/-- Segments depend on what stands where only through the two properties. -/
theorem IsSegment.of_at {enter stay : α → Bool} {enter' stay' : β → Bool} {l : List α} {l' : List β}
    (he : ∀ m, At enter l m ↔ At enter' l' m) (hs : ∀ m, At stay l m ↔ At stay' l' m) {k n : Nat}
    (h : IsSegment enter stay l k n) : IsSegment enter' stay' l' k n := by
  obtain ⟨⟨h1, h2⟩, h3, h4⟩ := h
  refine ⟨⟨(he k).1 h1, fun j hj hje hr => ?_⟩, fun m hm hm' => (hs m).1 (h3 m hm hm'), fun h => h4 ((hs _).2 h)⟩
  exact h2 j hj ((he j).2 hje) fun m hm hm' => (hs m).2 (hr m hm hm')

theorem isSegment_congr {enter enter' stay stay' : α → Bool} {l : List α} (he : ∀ x ∈ l, enter x = enter' x)
    (hs : ∀ x ∈ l, stay x = stay' x) {k n : Nat} :
    IsSegment enter stay l k n ↔ IsSegment enter' stay' l k n :=
  ⟨.of_at (fun _ => at_congr he) fun _ => at_congr hs,
    .of_at (fun _ => (at_congr he).symm) fun _ => (at_congr hs).symm⟩

/-! ## Appending an element -/

section Snoc
variable {P enter stay : α → Bool} {l : List α} {x : α} {wt : α → Nat}

theorem at_snoc {m : Nat} : At P (l ++ [x]) m ↔ At P l m ∨ (m = l.length ∧ P x = true) := by
  rcases Nat.lt_trichotomy m l.length with h | rfl | h
  · simp only [At, List.getElem?_append_left h]
    exact ⟨.inl, fun h' => h'.resolve_right (fun e => by omega)⟩
  · simp [At]
  · have e : (l ++ [x])[m]? = none := by simp; omega
    have e' : l[m]? = none := by simp; omega
    simp only [At, e, e']
    simp
    omega

theorem at_snoc_of_lt {m : Nat} (h : m < l.length) : At P (l ++ [x]) m ↔ At P l m := by
  rw [at_snoc]
  exact ⟨fun h' => h'.resolve_right (fun e => by omega), .inl⟩

theorem runs_snoc {i e : Nat} (h : e ≤ l.length) : Runs stay (l ++ [x]) i e ↔ Runs stay l i e := by
  constructor
  · intro hr m hm hm'
    exact (at_snoc_of_lt (by omega)).1 (hr m hm hm')
  · intro hr m hm hm'
    exact (at_snoc_of_lt (by omega)).2 (hr m hm hm')

theorem runs_snoc_end {i : Nat} (h : i ≤ l.length) :
    Runs stay (l ++ [x]) i (l.length + 1) ↔ Runs stay l i l.length ∧ stay x = true := by
  constructor
  · intro hr
    refine ⟨(runs_snoc le_rfl).1 fun m hm hm' => hr m hm (by omega), ?_⟩
    rcases at_snoc.1 (hr l.length h (by omega)) with h' | ⟨-, h'⟩
    · exact absurd h'.lt (by omega)
    · exact h'
  · rintro ⟨hr, hx⟩ m hm hm'
    rcases Nat.lt_or_ge m l.length with hlt | hge
    · exact at_snoc.2 (.inl (hr m hm hlt))
    · exact at_snoc.2 (.inr ⟨by omega, hx⟩)

theorem begins_snoc {k : Nat} (h : k < l.length) : Begins enter stay (l ++ [x]) k ↔ Begins enter stay l k := by
  constructor
  · rintro ⟨h1, h2⟩
    exact ⟨(at_snoc_of_lt h).1 h1,
      fun j hj hje hr => h2 j hj ((at_snoc_of_lt (by omega)).2 hje) ((runs_snoc (by omega)).2 hr)⟩
  · rintro ⟨h1, h2⟩
    exact ⟨(at_snoc_of_lt h).2 h1,
      fun j hj hje hr => h2 j hj ((at_snoc_of_lt (by omega)).1 hje) ((runs_snoc (by omega)).1 hr)⟩

theorem Begins.lt {k : Nat} (h : Begins enter stay l k) : k < l.length := h.first.lt

/-- An open segment goes on with an element that stays, and a new one starts
with an element that enters while none is open. -/
theorem open_snoc (hes : ∀ x, enter x = true → stay x = true) {k : Nat} :
    Open enter stay (l ++ [x]) k ↔
      (Open enter stay l k ∧ stay x = true) ∨
      (k = l.length ∧ enter x = true ∧ ∀ j, ¬ Open enter stay l j) := by
  constructor
  · rintro ⟨hb, hr⟩
    rw [List.length_append, List.length_singleton] at hr
    have hk : k < l.length + 1 := by simpa using hb.lt
    rcases Nat.lt_or_ge k l.length with hlt | hge
    · obtain ⟨hr, hx⟩ := (runs_snoc_end hlt.le).1 hr
      exact .inl ⟨⟨(begins_snoc hlt).1 hb, hr⟩, hx⟩
    · obtain rfl : k = l.length := by omega
      right
      refine ⟨rfl, ?_, ?_⟩
      · rcases at_snoc.1 hb.first with h | ⟨-, h⟩
        · exact absurd h.lt (by omega)
        · exact h
      · rintro j ⟨hj, hjr⟩
        exact hb.maximal j hj.lt (at_snoc.2 (.inl hj.first)) ((runs_snoc le_rfl).2 hjr)
  · rintro (⟨⟨hb, hr⟩, hx⟩ | ⟨rfl, hx, hno⟩)
    · refine ⟨(begins_snoc hb.lt).2 hb, ?_⟩
      rw [List.length_append, List.length_singleton]
      exact (runs_snoc_end hb.lt.le).2 ⟨hr, hx⟩
    · refine ⟨⟨at_snoc.2 (.inr ⟨rfl, hx⟩), ?_⟩, ?_⟩
      · intro j hj hje hr
        -- the earliest start that runs on to the end would be open
        have hex : ∃ i, At enter l i ∧ Runs stay l i l.length :=
          ⟨j, (at_snoc_of_lt hj).1 hje, (runs_snoc le_rfl).1 hr⟩
        classical
        obtain ⟨hi, hir⟩ := Nat.find_spec hex
        refine hno (Nat.find hex) ⟨⟨hi, ?_⟩, hir⟩
        intro a ha hae har
        refine Nat.find_min hex ha ⟨hae, fun m hm hm' => ?_⟩
        rcases Nat.lt_or_ge m (Nat.find hex) with hlt | hge
        · exact har m hm hlt
        · exact hir m hge hm'
      · rw [List.length_append, List.length_singleton]
        exact (runs_snoc_end le_rfl).2 ⟨fun m hm hm' => by omega, hes x hx⟩

theorem open_unique {k k' : Nat} (h : Open enter stay l k) (h' : Open enter stay l k') : k = k' := by
  rcases Nat.lt_trichotomy k k' with hlt | rfl | hlt
  · exact absurd (fun m hm hm' => h.runs m hm (by have := h'.lt; omega)) (h'.maximal k hlt h.first)
  · rfl
  · exact absurd (fun m hm hm' => h'.runs m hm (by have := h.lt; omega)) (h.maximal k' hlt h'.first)

/-- A segment is closed by an element that does not stay. -/
theorem isSegment_snoc (hes : ∀ x, enter x = true → stay x = true) {k n : Nat} :
    (IsSegment enter stay (l ++ [x]) k n ∧ k + n < (l ++ [x]).length) ↔
      (IsSegment enter stay l k n ∧ k + n < l.length) ∨
      (Open enter stay l k ∧ stay x = false ∧ k + n = l.length) := by
  rw [List.length_append, List.length_singleton]
  constructor
  · rintro ⟨⟨hb, hr, he⟩, hlt⟩
    rcases Nat.lt_or_ge (k + n) l.length with h | h
    · left
      exact ⟨⟨(begins_snoc (by omega)).1 hb, (runs_snoc h.le).1 hr, fun ha => he ((at_snoc_of_lt h).2 ha)⟩, h⟩
    · have e : k + n = l.length := by omega
      have hx : stay x = false := by
        by_contra hx
        exact he (at_snoc.2 (.inr ⟨e, by simpa using hx⟩))
      rcases Nat.lt_or_ge k l.length with hk | hk
      · right
        rw [e] at hr
        exact ⟨⟨(begins_snoc hk).1 hb, (runs_snoc le_rfl).1 hr⟩, hx, e⟩
      · obtain rfl : k = l.length := by omega
        rcases at_snoc.1 hb.first with h' | ⟨-, h'⟩
        · exact absurd h'.lt (by omega)
        · rw [hes x h'] at hx; cases hx
  · rintro (⟨⟨hb, hr, he⟩, hlt⟩ | ⟨⟨hb, hr⟩, hx, e⟩)
    · exact ⟨⟨(begins_snoc (by omega)).2 hb, (runs_snoc hlt.le).2 hr,
        fun ha => he ((at_snoc_of_lt hlt).1 ha)⟩, by omega⟩
    · refine ⟨⟨(begins_snoc hb.lt).2 hb, ?_, ?_⟩, by omega⟩
      · rw [e]
        exact (runs_snoc le_rfl).2 hr
      · intro ha
        rcases at_snoc.1 ha with h | ⟨-, h⟩
        · exact absurd h.lt (by omega)
        · rw [hx] at h; cases h

theorem total_snoc {i e : Nat} (h : e ≤ l.length) : total wt (l ++ [x]) i e = total wt l i e := by
  apply Finset.sum_congr rfl
  intro m hm
  rw [Finset.mem_Ico] at hm
  rw [List.getElem?_append_left (by omega)]

theorem total_snoc_end {i : Nat} (h : i ≤ l.length) :
    total wt (l ++ [x]) i (l.length + 1) = total wt l i l.length + wt x := by
  rw [total, Finset.sum_Ico_succ_top h, ← total, total_snoc le_rfl]
  simp

end Snoc

/-! ## Where an element lies -/

section Cover
variable {enter stay : α → Bool} {l : List α} {wt : α → Nat}

/-- Every entering element lies in a segment. -/
theorem exists_segment (hes : ∀ x, enter x = true → stay x = true) {j : Nat} (hj : At enter l j) :
    ∃ k n, IsSegment enter stay l k n ∧ k ≤ j ∧ j < k + n := by
  classical
  have hstart : ∃ i, At enter l i ∧ i ≤ j ∧ Runs stay l i j := ⟨j, hj, le_rfl, fun m hm hm' => by omega⟩
  have hend : ∃ e, j ≤ e ∧ ¬ At stay l e := ⟨l.length, hj.lt.le, fun h => absurd h.lt (by omega)⟩
  obtain ⟨hk, hkj, hkr⟩ := Nat.find_spec hstart
  obtain ⟨hje, he⟩ := Nat.find_spec hend
  set k := Nat.find hstart
  set e := Nat.find hend
  have hjs : At stay l j := by
    obtain ⟨x, hx, hex⟩ := hj
    exact ⟨x, hx, hes x hex⟩
  have hjlt : j < e := by
    rcases Nat.eq_or_lt_of_le hje with h | h
    · rw [← h] at he; exact absurd hjs he
    · exact h
  refine ⟨k, e - k, ⟨⟨hk, ?_⟩, ?_, ?_⟩, hkj, by omega⟩
  · intro a ha hae har
    refine Nat.find_min hstart ha ⟨hae, by omega, fun m hm hm' => ?_⟩
    rcases Nat.lt_or_ge m k with h | h
    · exact har m hm h
    · exact hkr m h hm'
  · intro m hm hm'
    rcases Nat.lt_or_ge m j with h | h
    · exact hkr m hm h
    · by_contra hs
      exact Nat.find_min hend (show m < e by omega) ⟨h, hs⟩
  · rw [show k + (e - k) = e by omega]
    exact he

theorem IsSegment.length_unique {k n n' : Nat} (h : IsSegment enter stay l k n)
    (h' : IsSegment enter stay l k n') : n = n' :=
  h.runs.length_unique h.ends h'.runs h'.ends

/-- Only a segment's first element begins one. -/
theorem IsSegment.begins_unique {k n i : Nat} (h : IsSegment enter stay l k n) (hi : Begins enter stay l i)
    (hki : k ≤ i) (hin : i < k + n) : i = k := by
  rcases Nat.eq_or_lt_of_le hki with rfl | hlt
  · rfl
  · exact absurd (fun m hm hm' => h.runs m hm (by omega)) (hi.maximal k hlt h.first)

theorem IsSegment.pos (hes : ∀ x, enter x = true → stay x = true) {k n : Nat}
    (h : IsSegment enter stay l k n) : 0 < n := by
  by_contra hn
  obtain rfl : n = 0 := by omega
  obtain ⟨x, hx, hex⟩ := h.first
  exact h.ends ⟨x, hx, hes x hex⟩

theorem total_eq_zero_iff {i e : Nat} :
    total wt l i e = 0 ↔ ∀ m, i ≤ m → m < e → (l[m]?.map wt).getD 0 = 0 := by
  rw [total, Finset.sum_eq_zero_iff]
  simp only [Finset.mem_Ico, and_imp]

theorem total_split {i j e : Nat} (hij : i ≤ j) (hje : j ≤ e) :
    total wt l i e = total wt l i j + total wt l j e :=
  (Finset.sum_Ico_consecutive _ hij hje).symm

theorem total_le {i j i' j' : Nat} (hi : i ≤ i') (hj : j' ≤ j) : total wt l i' j' ≤ total wt l i j :=
  Finset.sum_le_sum_of_subset (Finset.Ico_subset_Ico hi hj)

theorem total_congr {wt' : α → Nat} {i e : Nat} (h : ∀ m, i ≤ m → m < e → ∀ x, l[m]? = some x → wt x = wt' x) :
    total wt l i e = total wt' l i e := by
  apply Finset.sum_congr rfl
  intro m hm
  rw [Finset.mem_Ico] at hm
  cases hx : l[m]? with
  | none => rfl
  | some x => simp [h m hm.1 hm.2 x hx]

end Cover

end Segment
