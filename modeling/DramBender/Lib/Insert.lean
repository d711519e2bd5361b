import Mathlib
/-!
# Inserting into a list at marked positions

`expand ins l` puts `ins k` directly before element `k` of `l`, for every `k`
where there is one. Control meant for element `n` enters the expanded list at
`entry`, the element itself sits at `place`; the two differ exactly at the
marked positions. Inserting one element at a time, in ascending order and with
every later position shifted, builds the same list (`expand_update`).
-/

namespace Insert

/-- How many marked positions lie below `n`. -/
def before (mark : Nat → Bool) (n : Nat) : Nat := Nat.count (fun k => mark k = true) n

/-- Where control meant for position `n` enters after the insertions. -/
def entry (mark : Nat → Bool) (n : Nat) : Nat := n + before mark n

/-- Where the element of position `n` sits after the insertions. -/
def place (mark : Nat → Bool) (n : Nat) : Nat := n + before mark (n + 1)

section Positions
variable {mark : Nat → Bool}

@[simp] theorem before_zero : before mark 0 = 0 := Nat.count_zero _

theorem before_succ (n : Nat) : before mark (n + 1) = before mark n + if mark n = true then 1 else 0 :=
  Nat.count_succ _ n

theorem before_shift (n : Nat) :
    before mark (n + 1) = before (fun k => mark (k + 1)) n + if mark 0 = true then 1 else 0 :=
  Nat.count_succ' _ n

theorem before_mono {m n : Nat} (h : m ≤ n) : before mark m ≤ before mark n := Nat.count_monotone _ h

theorem before_eq_of_unmarked {m n : Nat} (hmn : m ≤ n) (h : ∀ k, m ≤ k → k < n → mark k = false) :
    before mark n = before mark m := by
  induction n, hmn using Nat.le_induction with
  | base => rfl
  | succ n hn ih =>
    rw [before_succ, h n hn (by omega), ih (fun k hk hk' => h k hk (by omega))]
    simp

@[simp] theorem entry_zero : entry mark 0 = 0 := by simp [entry]

theorem entry_lt {m n : Nat} (h : m < n) : entry mark m < entry mark n := by
  have hb : before mark m ≤ before mark n := before_mono h.le
  simp only [entry]
  omega

theorem entry_le_iff {m n : Nat} : entry mark m ≤ entry mark n ↔ m ≤ n := by
  constructor
  · intro h
    by_contra hmn
    have hlt : entry mark n < entry mark m := entry_lt (by omega)
    omega
  · intro h
    rcases Nat.eq_or_lt_of_le h with rfl | h
    · exact le_refl _
    · exact (entry_lt h).le

theorem entry_inj {m n : Nat} (h : entry mark m = entry mark n) : m = n :=
  le_antisymm (entry_le_iff.1 h.le) (entry_le_iff.1 h.ge)

theorem place_succ (n : Nat) : place mark n + 1 = entry mark (n + 1) := by
  simp only [place, entry]
  omega

theorem place_lt {m n : Nat} (h : m < n) : place mark m < place mark n := by
  have hlt : entry mark (m + 1) < entry mark (n + 1) := entry_lt (by omega)
  rw [← place_succ, ← place_succ] at hlt
  omega

theorem place_of_marked {n : Nat} (h : mark n = true) : place mark n = entry mark n + 1 := by
  simp only [place, entry, before_succ, h, if_true]
  omega

theorem place_of_unmarked {n : Nat} (h : mark n = false) : place mark n = entry mark n := by
  simp [place, entry, before_succ, h]

theorem entry_le_place (n : Nat) : entry mark n ≤ place mark n := by
  cases h : mark n
  · exact (place_of_unmarked h).ge
  · rw [place_of_marked h]; omega

/-- Every position below `entry n` is an element's place or an insertion. -/
theorem exists_of_lt_entry {j n : Nat} (h : j < entry mark n) :
    ∃ i < n, j = place mark i ∨ (mark i = true ∧ j = entry mark i) := by
  induction n with
  | zero => simp at h
  | succ n ih =>
    by_cases hj : j < entry mark n
    · obtain ⟨i, hi, h⟩ := ih hj
      exact ⟨i, by omega, h⟩
    · refine ⟨n, by omega, ?_⟩
      rw [← place_succ] at h
      cases hm : mark n
      · left; rw [place_of_unmarked hm] at h ⊢; omega
      · rw [place_of_marked hm] at h ⊢
        rcases Nat.eq_or_lt_of_le (Nat.le_of_not_lt hj) with e | e
        · exact .inr ⟨rfl, e.symm⟩
        · left; omega

theorem entry_le_place_iff {b k : Nat} : entry mark k ≤ place mark b ↔ k ≤ b := by
  constructor
  · intro h
    by_contra hlt
    have hle : entry mark (b + 1) ≤ entry mark k := entry_le_iff.2 (by omega)
    rw [← place_succ] at hle
    omega
  · intro h
    exact (entry_le_iff.2 h).trans (entry_le_place b)

theorem place_inj {m n : Nat} (h : place mark m = place mark n) : m = n := by
  rcases Nat.lt_trichotomy m n with hlt | rfl | hlt
  · have hlt' : place mark m < place mark n := place_lt hlt
    omega
  · rfl
  · have hlt' : place mark n < place mark m := place_lt hlt
    omega

/-- No element sits where an insertion sits. -/
theorem place_ne_entry {b k : Nat} (h : mark k = true) : place mark b ≠ entry mark k := by
  intro e
  have hkb : k ≤ b := entry_le_place_iff.1 e.ge
  rcases Nat.eq_or_lt_of_le hkb with rfl | hlt
  · rw [place_of_marked h] at e; omega
  · have hlt' : place mark k < place mark b := place_lt hlt
    rw [place_of_marked h] at hlt'
    omega

/-- An element sits where control enters only if nothing is inserted before it. -/
theorem eq_of_place_eq_entry {b k : Nat} (h : place mark b = entry mark k) : b = k ∧ mark k = false := by
  cases hm : mark k with
  | true => exact absurd h (place_ne_entry hm)
  | false =>
    rw [← place_of_unmarked hm] at h
    exact ⟨place_inj h, rfl⟩

theorem before_none (n : Nat) (h : ∀ k, mark k = false) : before mark n = 0 := by
  rw [before_eq_of_unmarked (Nat.zero_le n) fun k _ _ => h k, before_zero]

/-- One more mark moves everything above it up by one. -/
theorem before_update {k : Nat} (h : mark k = false) (n : Nat) :
    before (Function.update mark k true) n = before mark n + if k < n then 1 else 0 := by
  induction n with
  | zero => simp
  | succ n ih =>
    rw [before_succ, before_succ, ih]
    rcases Nat.lt_trichotomy n k with hlt | rfl | hlt
    · rw [Function.update_of_ne (by omega), if_neg (show ¬ k < n by omega), if_neg (show ¬ k < n + 1 by omega)]
      omega
    · simp [h]
    · rw [Function.update_of_ne (by omega), if_pos hlt, if_pos (show k < n + 1 by omega)]
      omega

theorem entry_update {k : Nat} (h : mark k = false) (n : Nat) :
    entry (Function.update mark k true) n = entry mark n + if k < n then 1 else 0 := by
  simp only [entry, before_update h, Nat.add_assoc]

theorem place_update {k : Nat} (h : mark k = false) (n : Nat) :
    place (Function.update mark k true) n = place mark n + if k ≤ n then 1 else 0 := by
  simp only [place, before_update h, Nat.lt_succ_iff, Nat.add_assoc]

end Positions

/-! ## The expanded list -/

variable {α β : Type}

/-- `l` with `ins k` directly before element `k`. -/
def expand (ins : Nat → Option α) : List α → List α
  | [] => []
  | x :: xs => (ins 0).toList ++ x :: expand (fun k => ins (k + 1)) xs

/-- The marked positions of `ins`. -/
def marks (ins : Nat → Option α) (k : Nat) : Bool := (ins k).isSome

theorem entry_none (n : Nat) : entry (marks fun _ => (none : Option α)) n = n := by
  have hb : before (marks fun _ => (none : Option α)) n = 0 := before_none n fun _ => rfl
  rw [entry, hb, Nat.add_zero]

theorem place_none (n : Nat) : place (marks fun _ => (none : Option α)) n = n :=
  (place_of_unmarked rfl).trans (entry_none n)

theorem marks_update (ins : Nat → Option α) (k : Nat) (v : α) :
    marks (Function.update ins k (some v)) = Function.update (marks ins) k true := by
  funext j
  by_cases h : j = k
  · subst h; simp [marks]
  · simp [marks, h]

theorem marks_shift (ins : Nat → Option α) :
    (fun k => marks ins (k + 1)) = marks (fun k => ins (k + 1)) := rfl

/-- One step of `entry`: past an element and its insertion, if it has one. -/
theorem entry_succ (ins : Nat → Option α) (k : Nat) :
    entry (marks ins) (k + 1) = entry (marks fun k => ins (k + 1)) k + 1 + (ins 0).toList.length := by
  simp only [entry, before_shift, marks_shift]
  cases h : ins 0 <;> simp [marks, h] <;> omega

theorem place_shift (ins : Nat → Option α) (k : Nat) :
    place (marks ins) (k + 1) = place (marks fun k => ins (k + 1)) k + 1 + (ins 0).toList.length := by
  have e := entry_succ ins (k + 1)
  rw [← place_succ, ← place_succ] at e
  omega

/-- Past the first element and its insertion. -/
theorem getElem?_append_cons (a : List α) (x : α) (l : List α) (j : Nat) :
    (a ++ x :: l)[j + 1 + a.length]? = l[j]? := by
  rw [Nat.add_comm, List.getElem?_append_right (Nat.le_add_right _ _), Nat.add_sub_cancel_left,
    List.getElem?_cons_succ]

theorem insertIdx_append_cons (a : List α) (x : α) (l : List α) (j : Nat) (v : α) :
    (a ++ x :: l).insertIdx (j + 1 + a.length) v = a ++ x :: l.insertIdx j v := by
  induction a with
  | nil => exact List.insertIdx_succ_cons
  | cons b a ih => rw [List.cons_append, List.length_cons, ← Nat.add_assoc, List.insertIdx_succ_cons, ih]; rfl

theorem length_expand (ins : Nat → Option α) (l : List α) :
    (expand ins l).length = entry (marks ins) l.length := by
  induction l generalizing ins with
  | nil => simp [expand]
  | cons x xs ih =>
    simp only [expand, List.length_append, List.length_cons, ih, entry_succ]
    omega

/-- Each element is found at its place. -/
theorem getElem?_place (ins : Nat → Option α) (l : List α) {i : Nat} (hi : i < l.length) :
    (expand ins l)[place (marks ins) i]? = l[i]? := by
  induction l generalizing ins i with
  | nil => simp at hi
  | cons x xs ih =>
    cases i with
    | zero => cases h : ins 0 <;> simp [expand, place, before_succ, marks, h]
    | succ i =>
      rw [expand, place_shift, getElem?_append_cons, ih _ (by simpa using hi), List.getElem?_cons_succ]

/-- Each insertion is found where control for its position enters. -/
theorem getElem?_entry (ins : Nat → Option α) (l : List α) {k : Nat} {v : α} (hv : ins k = some v)
    (hk : k < l.length) : (expand ins l)[entry (marks ins) k]? = some v := by
  induction l generalizing ins k with
  | nil => simp at hk
  | cons x xs ih =>
    cases k with
    | zero => simp [expand, hv]
    | succ k =>
      rw [expand, entry_succ, getElem?_append_cons]
      exact ih (fun k => ins (k + 1)) hv (by simpa using hk)

theorem expand_none {ins : Nat → Option α} (h : ∀ k, ins k = none) (l : List α) : expand ins l = l := by
  induction l generalizing ins with
  | nil => rfl
  | cons x xs ih => simp [expand, h 0, ih (fun k => h (k + 1))]

theorem map_expand (f : α → β) (ins : Nat → Option α) (l : List α) :
    (expand ins l).map f = expand (fun k => (ins k).map f) (l.map f) := by
  induction l generalizing ins with
  | nil => rfl
  | cons x xs ih =>
    simp only [expand, List.map_append, List.map_cons, ih]
    cases ins 0 <;> rfl

/-- Insertions that contribute nothing. -/
theorem flatMap_expand (f : α → List β) {ins : Nat → Option α} (h : ∀ k v, ins k = some v → f v = []) (l : List α) :
    (expand ins l).flatMap f = l.flatMap f := by
  induction l generalizing ins with
  | nil => rfl
  | cons x xs ih =>
    have h0 : (ins 0).toList.flatMap f = [] := by
      cases hv : ins 0 with
      | none => rfl
      | some v => rw [Option.toList_some, List.flatMap_singleton, h 0 v hv]
    rw [expand, List.flatMap_append, List.flatMap_cons, h0, ih fun k v hv => h (k + 1) v hv, List.flatMap_cons]
    rfl

/-- Positionwise changes that keep what each element contributes. -/
theorem flatMap_mapIdx (f : α → List β) {g : Nat → α → α} {l : List α} (h : ∀ i x, l[i]? = some x → f (g i x) = f x) :
    (l.mapIdx g).flatMap f = l.flatMap f := by
  have hmap : (l.mapIdx g).map f = l.map f := by
    apply List.ext_getElem?
    intro i
    rw [List.getElem?_map, List.getElem?_mapIdx, List.getElem?_map]
    cases hx : l[i]? with
    | none => rfl
    | some x => exact congrArg some (h i x hx)
  rw [List.flatMap_def, hmap, List.flatMap_def]

/-- The insertion of one more element, above all the earlier ones. -/
theorem expand_update {ins : Nat → Option α} (l : List α) {k : Nat} (v : α) (hk : k < l.length)
    (hins : ∀ j, k ≤ j → ins j = none) :
    expand (Function.update ins k (some v)) l = (expand ins l).insertIdx (entry (marks ins) k) v := by
  induction l generalizing ins k with
  | nil => simp at hk
  | cons x xs ih =>
    cases k with
    | zero =>
      have h0 : ∀ j, ins j = none := fun j => hins j (Nat.zero_le j)
      simp [expand, h0]
    | succ k =>
      have h1 : (fun j => Function.update ins (k + 1) (some v) (j + 1)) =
          Function.update (fun j => ins (j + 1)) k (some v) := by
        funext j; simp [Function.update]
      have h2 : Function.update ins (k + 1) (some v) 0 = ins 0 := by simp [Function.update]
      rw [expand, h1, h2, ih (by simpa using hk) (fun j hj => hins (j + 1) (by omega)), expand, entry_succ,
        insertIdx_append_cons]

/-- A positionwise change that leaves the insertions alone. -/
theorem mapIdx_expand (ins : Nat → Option α) (l : List α) (f g : Nat → α → α)
    (hplace : ∀ i x, l[i]? = some x → g (place (marks ins) i) x = f i x)
    (hentry : ∀ k v, k < l.length → ins k = some v → g (entry (marks ins) k) v = v) :
    (expand ins l).mapIdx g = expand ins (l.mapIdx f) := by
  apply List.ext_getElem?
  intro j
  rw [List.getElem?_mapIdx]
  by_cases hj : j < entry (marks ins) l.length
  · obtain ⟨i, hi, rfl | ⟨hm, rfl⟩⟩ := exists_of_lt_entry hj
    · rw [getElem?_place _ _ hi, getElem?_place _ _ (by simpa using hi), List.getElem?_mapIdx]
      have hx : l[i]? = some l[i] := List.getElem?_eq_getElem hi
      simp only [hx, Option.map_some, hplace i _ hx]
    · obtain ⟨v, hv⟩ := Option.isSome_iff_exists.1 hm
      rw [getElem?_entry _ _ hv hi, getElem?_entry _ _ hv (by simpa using hi)]
      simp only [Option.map_some, hentry i v hi hv]
  · rw [List.getElem?_eq_none (by rw [length_expand]; omega),
      List.getElem?_eq_none (by rw [length_expand, List.length_mapIdx]; omega)]
    rfl

end Insert
