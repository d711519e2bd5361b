import Mathlib
/-!
# The double-sided BER sweep

`di_ds_sweep.py` raises the hammer count of every victim row until one data
pattern flips at least as many bits as the other. The counts it compares are the
last non-zero ones, which may come from different hammer counts
(`di_ds_sweep_records_iff`).
-/

namespace Sweep

/-! ## The script -/

/-- The bitflips of a row at a hammer count, with either data pattern. -/
abbrev Measure := Int → Fin 2 → Nat

/-- `bers` of a row: the last count of each data pattern that was not zero. -/
abbrev Bers := Fin 2 → Option Nat

/-- `range(hc_min, 500000, 1000)` -/
def hc_list (hc_min : Int) : List Int :=
  (List.range ((500000 - hc_min + 999) / 1000).toNat).map fun i : Nat => hc_min + 1000 * i

/-- Both data patterns, at one hammer count. -/
def measure (f : Measure) (bers : Bers) (hc : Int) : Bers :=
  (List.finRange 2).foldl
    (fun bers dp_id =>
      let num_bitflips := f hc dp_id
      if num_bitflips > 0 then Function.update bers dp_id (some num_bitflips) else bers)
    bers

/-- The order of the counts the script waits for. `anti` stands for an anti-cell
row of axmicr02. -/
def turned (anti : Bool) (ber0 ber1 : Nat) : Bool := if anti then ber1 ≥ ber0 else ber0 ≥ ber1

def turns (anti : Bool) (bers : Bers) : Bool :=
  match bers 0, bers 1 with
  | some ber0, some ber1 => turned anti ber0 ber1
  | _, _ => false

/-- The loop over the hammer counts of one row, which a record ends. -/
def sweep (anti : Bool) (f : Measure) : List Int → Bers → Option Int
  | [], _ => none
  | hc :: hcs, bers =>
    let bers := measure f bers hc
    if turns anti bers then some hc else sweep anti f hcs bers

/-- A line of the results. -/
structure Result where
  temp : Nat
  vic_row_id : Nat
  hc : Int
  itr : Nat
  deriving DecidableEq

def victim_rows : List Nat := List.range' 1024 2048

def is_anti (module : String) (anti_rows : List Nat) (vic_row_id : Nat) : Bool :=
  module == "axmicr02" && decide (vic_row_id ∈ anti_rows)

def di_ds_sweep (module : String) (anti_rows : List Nat) (hc_min : Nat → Int) (f : Nat → Measure) : List Result :=
  victim_rows.foldl
    (fun results vic_row_id =>
      match sweep (is_anti module anti_rows vic_row_id) (f vic_row_id) (hc_list (hc_min vic_row_id)) fun _ => none with
      | some hc => results ++ [⟨50, vic_row_id, hc, 0⟩]
      | none => results)
    []

/-! ## What it is to record -/

/-- Both data patterns flip bits at this hammer count, and as many as they should. -/
def Turns (anti : Bool) (f : Measure) (hc : Int) : Prop := 0 < f hc 0 ∧ 0 < f hc 1 ∧ turned anti (f hc 0) (f hc 1) = true

/-- The results of a row are its turning point, if there is one. -/
def RecordsTurningPoint (anti : Bool) (f : Measure) (hcs : List Int) (vic_row_id : Nat) (results : List Result) : Prop :=
  ∃ o : Option Int, results.filter (fun r => r.vic_row_id = vic_row_id) = (o.map fun hc => ⟨50, vic_row_id, hc, 0⟩).toList ∧
    ∀ hc, o = some hc ↔ IsLeast {hc | hc ∈ hcs ∧ Turns anti f hc} hc

/-- The last hammer count up to `hc` at which the data pattern flips bits. -/
structure LastFlip (f : Measure) (hcs : List Int) (dp_id : Fin 2) (hc h : Int) : Prop where
  mem : h ∈ hcs
  le : h ≤ hc
  flips : 0 < f h dp_id
  last : ∀ k ∈ hcs, h < k → k ≤ hc → f k dp_id = 0

/-- At some hammer count before any turning point, the last flips of the two data
patterns were at different hammer counts, and their numbers are in the order the
script waits for. -/
def StaleMatch (anti : Bool) (f : Measure) (hcs : List Int) : Prop :=
  ∃ hc ∈ hcs, ∃ h0 h1, LastFlip f hcs 0 hc h0 ∧ LastFlip f hcs 1 hc h1 ∧ h0 ≠ h1 ∧ turned anti (f h0 0) (f h1 1) = true ∧
    ∀ k ∈ hcs, k ≤ hc → ¬ Turns anti f k

/-! ## The counts the script compares -/

theorem measure_eq (f : Measure) (bers : Bers) (hc : Int) (dp_id : Fin 2) :
    measure f bers hc dp_id = if 0 < f hc dp_id then some (f hc dp_id) else bers dp_id := by
  have hlist : List.finRange 2 = [0, 1] := rfl
  unfold measure
  rw [hlist, List.foldl_cons, List.foldl_cons, List.foldl_nil]
  match dp_id with
  | 0 => by_cases h1 : f hc 1 > 0 <;> by_cases h0 : f hc 0 > 0 <;> simp [h0, h1]
  | 1 => by_cases h1 : f hc 1 > 0 <;> by_cases h0 : f hc 0 > 0 <;> simp [h0, h1]

theorem LastFlip.unique {f : Measure} {hcs : List Int} {dp_id : Fin 2} {hc h h' : Int} (hl : LastFlip f hcs dp_id hc h)
    (hl' : LastFlip f hcs dp_id hc h') : h = h' := by
  rcases lt_trichotomy h h' with hlt | heq | hlt
  · exact absurd (hl.last h' hl'.mem hlt hl'.le) hl'.flips.ne'
  · exact heq
  · exact absurd (hl'.last h hl.mem hlt hl.le) hl.flips.ne'

section
variable {anti : Bool} {f : Measure}

/-- `bers` after the hammer counts `xs`. -/
def bers_after (f : Measure) (xs : List Int) : Bers := xs.foldl (measure f) fun _ => none

theorem bers_after_append (xs : List Int) (hc : Int) : bers_after f (xs ++ [hc]) = measure f (bers_after f xs) hc := by
  rw [bers_after, List.foldl_append]
  rfl

/-- They are the counts of the last flips. -/
theorem bers_after_eq {xs : List Int} (hxs : xs.Pairwise (· < ·)) (dp_id : Fin 2) (n : Nat) :
    bers_after f xs dp_id = some n ↔ ∃ h ∈ xs, 0 < f h dp_id ∧ f h dp_id = n ∧ ∀ k ∈ xs, h < k → f k dp_id = 0 := by
  induction xs using List.reverseRecOn with
  | nil => simp [bers_after]
  | append_singleton xs hc ih =>
    obtain ⟨hxs, -, hlt⟩ := List.pairwise_append.1 hxs
    rw [bers_after_append, measure_eq]
    split
    case isTrue hflips =>
      constructor
      · intro hn
        -- the count of this hammer count replaces the old one
        refine ⟨hc, by simp, hflips, Option.some.inj hn, fun k hk hck => ?_⟩
        rcases List.mem_append.1 hk with hk | hk
        · exact absurd (hlt k hk hc (by simp)) (by omega)
        · rw [List.mem_singleton.1 hk] at hck
          exact absurd hck (lt_irrefl hc)
      · rintro ⟨h, hh, -, rfl, hlast⟩
        rcases List.mem_append.1 hh with hh | hh
        · exact absurd (hlast hc (by simp) (hlt h hh hc (by simp))) hflips.ne'
        · rw [List.mem_singleton.1 hh]
    case isFalse hzero =>
      -- without bitflips the old count stays
      have hzero : f hc dp_id = 0 := Nat.eq_zero_of_not_pos hzero
      rw [ih hxs]
      constructor
      · rintro ⟨h, hh, hflips, hn, hlast⟩
        refine ⟨h, by simp [hh], hflips, hn, fun k hk hhk => ?_⟩
        rcases List.mem_append.1 hk with hk | hk
        · exact hlast k hk hhk
        · rw [List.mem_singleton.1 hk, hzero]
      · rintro ⟨h, hh, hflips, hn, hlast⟩
        rcases List.mem_append.1 hh with hh | hh
        · exact ⟨h, hh, hflips, hn, fun k hk => hlast k (by simp [hk])⟩
        · rw [List.mem_singleton.1 hh, hzero] at hflips
          exact absurd hflips (lt_irrefl 0)

theorem turns_iff (bers : Bers) : turns anti bers = true ↔
    ∃ ber0 ber1, bers 0 = some ber0 ∧ bers 1 = some ber1 ∧ turned anti ber0 ber1 = true := by
  unfold turns
  cases h0 : bers 0 <;> cases h1 : bers 1 <;> simp

/-- The script stops at this hammer count, or before. -/
def Stops (anti : Bool) (f : Measure) (hcs : List Int) (hc : Int) : Prop :=
  ∃ h0 h1, LastFlip f hcs 0 hc h0 ∧ LastFlip f hcs 1 hc h1 ∧ turned anti (f h0 0) (f h1 1) = true

/-- The hammer counts of an ascending list up to one of its own. -/
theorem mem_prefix_iff {xs ys : List Int} {hc k : Int} (h : (xs ++ hc :: ys).Pairwise (· < ·)) :
    k ∈ xs ++ [hc] ↔ k ∈ xs ++ hc :: ys ∧ k ≤ hc := by
  obtain ⟨-, hys, hlt⟩ := List.pairwise_append.1 h
  obtain ⟨hys, -⟩ := List.pairwise_cons.1 hys
  constructor
  · intro hk
    rcases List.mem_append.1 hk with hk | hk
    · exact ⟨by simp [hk], (hlt k hk hc (by simp)).le⟩
    · rw [List.mem_singleton.1 hk]
      exact ⟨by simp, le_rfl⟩
  · rintro ⟨hk, hle⟩
    rcases List.mem_append.1 hk with hk | hk
    · simp [hk]
    · rcases List.mem_cons.1 hk with rfl | hk
      · simp
      · exact absurd (hys k hk) (by omega)

theorem stops_iff {xs ys : List Int} {hc : Int} (h : (xs ++ hc :: ys).Pairwise (· < ·)) :
    turns anti (bers_after f (xs ++ [hc])) = true ↔ Stops anti f (xs ++ hc :: ys) hc := by
  have hprefix : (xs ++ [hc]).Pairwise (· < ·) :=
    h.sublist (List.Sublist.append_left (List.cons_sublist_cons.2 (List.nil_sublist ys)) xs)
  have hlast : ∀ dp_id h0, (h0 ∈ xs ++ [hc] ∧ 0 < f h0 dp_id ∧ ∀ k ∈ xs ++ [hc], h0 < k → f k dp_id = 0) ↔
      LastFlip f (xs ++ hc :: ys) dp_id hc h0 := by
    intro dp_id h0
    simp only [mem_prefix_iff h]
    constructor
    · rintro ⟨⟨hmem, hle⟩, hflips, hzero⟩
      exact ⟨hmem, hle, hflips, fun k hk hlt hle => hzero k ⟨hk, hle⟩ hlt⟩
    · rintro ⟨hmem, hle, hflips, hzero⟩
      exact ⟨⟨hmem, hle⟩, hflips, fun k hk hlt => hzero k hk.1 hlt hk.2⟩
  rw [turns_iff]
  constructor
  · rintro ⟨ber0, ber1, hb0, hb1, ht⟩
    obtain ⟨h0, hm0, hf0, rfl, hz0⟩ := (bers_after_eq hprefix 0 ber0).1 hb0
    obtain ⟨h1, hm1, hf1, rfl, hz1⟩ := (bers_after_eq hprefix 1 ber1).1 hb1
    exact ⟨h0, h1, (hlast 0 h0).1 ⟨hm0, hf0, hz0⟩, (hlast 1 h1).1 ⟨hm1, hf1, hz1⟩, ht⟩
  · rintro ⟨h0, h1, hl0, hl1, ht⟩
    obtain ⟨hm0, hf0, hz0⟩ := (hlast 0 h0).2 hl0
    obtain ⟨hm1, hf1, hz1⟩ := (hlast 1 h1).2 hl1
    exact ⟨_, _, (bers_after_eq hprefix 0 _).2 ⟨h0, hm0, hf0, rfl, hz0⟩, (bers_after_eq hprefix 1 _).2 ⟨h1, hm1, hf1, rfl, hz1⟩, ht⟩

/-- The loop records the first hammer count at which it can stop. -/
theorem sweep_isLeast {xs ys : List Int} (h : (xs ++ ys).Pairwise (· < ·)) (hxs : ∀ hc ∈ xs, ¬ Stops anti f (xs ++ ys) hc)
    (hc : Int) : sweep anti f ys (bers_after f xs) = some hc ↔ IsLeast {hc | hc ∈ xs ++ ys ∧ Stops anti f (xs ++ ys) hc} hc := by
  induction ys generalizing xs with
  | nil =>
    constructor
    · intro h
      cases h
    · rintro ⟨⟨hmem, hs⟩, -⟩
      exact absurd hs (hxs hc (by simpa using hmem))
  | cons y ys ih =>
    have hy : turns anti (bers_after f (xs ++ [y])) = true ↔ Stops anti f (xs ++ y :: ys) y := stops_iff h
    rw [sweep, ← bers_after_append]
    by_cases hs : turns anti (bers_after f (xs ++ [y])) = true
    · rw [if_pos hs]
      -- the script stops here, and could not stop before
      have hleast : IsLeast {hc | hc ∈ xs ++ y :: ys ∧ Stops anti f (xs ++ y :: ys) hc} y := by
        refine ⟨⟨by simp, hy.1 hs⟩, ?_⟩
        rintro k ⟨hk, hks⟩
        by_contra hlt
        have hmem := (mem_prefix_iff h).2 ⟨hk, (not_le.1 hlt).le⟩
        rcases List.mem_append.1 hmem with hmem | hmem
        · exact hxs k hmem hks
        · exact hlt (List.mem_singleton.1 hmem).ge
      constructor
      · rintro ⟨⟩
        exact hleast
      · exact fun hl => congrArg some (hleast.unique hl)
    · rw [if_neg hs]
      -- the loop goes on with one more hammer count behind it
      have happend : xs ++ y :: ys = (xs ++ [y]) ++ ys := by simp
      rw [happend] at h hxs hy ⊢
      apply ih h
      intro k hk
      rcases List.mem_append.1 hk with hk | hk
      · exact hxs k hk
      · rw [List.mem_singleton.1 hk, ← hy]
        exact hs

/-- A turning point is a place to stop. -/
theorem stops_of_turns {hcs : List Int} {hc : Int} (hmem : hc ∈ hcs) (h : Turns anti f hc) : Stops anti f hcs hc := by
  obtain ⟨h0, h1, ht⟩ := h
  exact ⟨hc, hc, ⟨hmem, le_rfl, h0, fun k _ hlt hle => by omega⟩, ⟨hmem, le_rfl, h1, fun k _ hlt hle => by omega⟩, ht⟩

/-- The first place to stop is the first turning point if and only if no stale
count comes first. -/
theorem isLeast_stops_iff (hcs : List Int) {o : Option Int}
    (ho : ∀ hc, o = some hc ↔ IsLeast {hc | hc ∈ hcs ∧ Stops anti f hcs hc} hc)
    (hex : o = none → ∀ hc ∈ hcs, ¬ Stops anti f hcs hc) :
    (∀ hc, o = some hc ↔ IsLeast {hc | hc ∈ hcs ∧ Turns anti f hc} hc) ↔ ¬ StaleMatch anti f hcs := by
  constructor
  · rintro hrec ⟨hc, hmem, h0, h1, hl0, hl1, -, ht, hno⟩
    have hstops : Stops anti f hcs hc := ⟨h0, h1, hl0, hl1, ht⟩
    cases hcase : o with
    | none => exact hex hcase hc hmem hstops
    | some c =>
      have hle : c ≤ hc := ((ho c).1 hcase).2 ⟨hmem, hstops⟩
      obtain ⟨⟨hc', hturns⟩, -⟩ := (hrec c).1 hcase
      exact hno c hc' hle hturns
  · intro hfresh hc
    have hturns : ∀ c, IsLeast {hc | hc ∈ hcs ∧ Stops anti f hcs hc} c → Turns anti f c := by
      rintro c ⟨⟨hmem, h0, h1, hl0, hl1, ht⟩, hleast⟩
      -- no turning point comes first, so the two flips are one
      have hsame : ∀ k ∈ hcs, k ≤ c → Turns anti f k → k = c := fun k hk hle hturns =>
        le_antisymm hle (hleast ⟨hk, stops_of_turns hk hturns⟩)
      by_cases heq : h0 = h1
      · subst heq
        have hturns : Turns anti f h0 := ⟨hl0.flips, hl1.flips, ht⟩
        rwa [← hsame h0 hl0.mem hl0.le hturns]
      · by_contra hno
        refine hfresh ⟨c, hmem, h0, h1, hl0, hl1, heq, ht, fun k hk hle hturns => ?_⟩
        rw [hsame k hk hle hturns] at hturns
        exact hno hturns
    rw [ho]
    constructor
    · intro hl
      exact ⟨⟨hl.1.1, hturns hc hl⟩, fun k hk => hl.2 ⟨hk.1, stops_of_turns hk.1 hk.2⟩⟩
    · rintro ⟨⟨hmem, ht⟩, hleast⟩
      refine ⟨⟨hmem, stops_of_turns hmem ht⟩, ?_⟩
      rintro k ⟨hk, hks⟩
      cases hcase : o with
      | none => exact absurd hks (hex hcase k hk)
      | some c =>
        have hl := (ho c).1 hcase
        exact (hleast ⟨hl.1.1, hturns c hl⟩).trans (hl.2 ⟨hk, hks⟩)

/-- Where the loop records nothing, there is no place to stop. -/
theorem not_stops_of_none {xs ys : List Int} (h : (xs ++ ys).Pairwise (· < ·)) (hxs : ∀ hc ∈ xs, ¬ Stops anti f (xs ++ ys) hc)
    (hnone : sweep anti f ys (bers_after f xs) = none) : ∀ hc ∈ xs ++ ys, ¬ Stops anti f (xs ++ ys) hc := by
  induction ys generalizing xs with
  | nil =>
    intro hc hmem
    exact hxs hc (by simpa using hmem)
  | cons y ys ih =>
    have hy : turns anti (bers_after f (xs ++ [y])) = true ↔ Stops anti f (xs ++ y :: ys) y := stops_iff h
    rw [sweep, ← bers_after_append] at hnone
    split at hnone
    case isTrue => cases hnone
    case isFalse hs =>
      have happend : xs ++ y :: ys = (xs ++ [y]) ++ ys := by simp
      rw [happend] at h hxs hy ⊢
      refine ih h (fun k hk => ?_) hnone
      rcases List.mem_append.1 hk with hk | hk
      · exact hxs k hk
      · rw [List.mem_singleton.1 hk, ← hy]
        exact hs

end

/-! ## The results -/

theorem ascending_hc_list (hc_min : Int) : (hc_list hc_min).Pairwise (· < ·) := by
  refine List.pairwise_map.2 (List.pairwise_lt_range.imp ?_)
  intro i j h
  omega

/-- The line of a row that records something. -/
def line (vic_row_id : Nat) (hc : Int) : Result := ⟨50, vic_row_id, hc, 0⟩

theorem lines_injective {vic_row_id : Nat} {o o' : Option Int}
    (h : (o.map (line vic_row_id)).toList = (o'.map (line vic_row_id)).toList) : o = o' := by
  cases o with
  | none =>
    cases o' with
    | none => rfl
    | some hc' => cases h
  | some hc =>
    cases o' with
    | none => cases h
    | some hc' => rw [(Result.mk.inj (List.singleton_inj.1 h)).2.2.1]

/-- The lines of all rows, row by row. -/
def collect (o : Nat → Option Int) (rows : List Nat) : List Result :=
  rows.foldl (fun results row => match o row with | some hc => results ++ [line row hc] | none => results) []

theorem collect_append (o : Nat → Option Int) (rows : List Nat) (row : Nat) :
    collect o (rows ++ [row]) = collect o rows ++ ((o row).map (line row)).toList := by
  unfold collect
  rw [List.foldl_append, List.foldl_cons, List.foldl_nil]
  cases o row with
  | none => exact (List.append_nil _).symm
  | some hc => rfl

theorem filter_lines (o : Option Int) (row vic_row_id : Nat) :
    ((o.map (line row)).toList.filter fun r => r.vic_row_id = vic_row_id) =
      if row = vic_row_id then (o.map (line row)).toList else [] := by
  cases o with
  | none => split_ifs <;> rfl
  | some hc =>
    have hrow : (line row hc).vic_row_id = row := rfl
    rw [Option.map_some, Option.toList_some, List.filter_singleton, hrow]
    by_cases h : row = vic_row_id
    · rw [if_pos h, decide_eq_true h]
      rfl
    · rw [if_neg h, decide_eq_false h]
      rfl

/-- One row's lines among them. -/
theorem filter_collect (o : Nat → Option Int) {rows : List Nat} (hrows : rows.Nodup) (vic_row_id : Nat) :
    (collect o rows).filter (fun r => r.vic_row_id = vic_row_id) =
      if vic_row_id ∈ rows then ((o vic_row_id).map (line vic_row_id)).toList else [] := by
  induction rows using List.reverseRecOn with
  | nil => rfl
  | append_singleton rows row ih =>
    obtain ⟨hrows, -, hne⟩ := List.nodup_append.1 hrows
    rw [collect_append, List.filter_append, ih hrows, filter_lines]
    by_cases heq : row = vic_row_id
    · subst heq
      have hnot : row ∉ rows := fun hmem => hne row hmem row (by simp) rfl
      rw [if_neg hnot, if_pos rfl, if_pos (by simp), List.nil_append]
    · rw [if_neg heq, List.append_nil]
      refine if_congr ?_ rfl rfl
      simp [Ne.symm heq]

/-- The results of a row are what its loop records. -/
theorem results_of_row (module : String) (anti_rows : List Nat) (hc_min : Nat → Int) (f : Nat → Measure) {vic_row_id : Nat}
    (h : vic_row_id ∈ victim_rows) :
    (di_ds_sweep module anti_rows hc_min f).filter (fun r => r.vic_row_id = vic_row_id) =
      ((sweep (is_anti module anti_rows vic_row_id) (f vic_row_id) (hc_list (hc_min vic_row_id)) fun _ => none).map
        fun hc => ⟨50, vic_row_id, hc, 0⟩).toList := by
  have hrows : victim_rows.Nodup := List.nodup_range'
  refine (filter_collect (fun row => sweep (is_anti module anti_rows row) (f row) (hc_list (hc_min row)) fun _ => none)
    hrows vic_row_id).trans ?_
  rw [if_pos h]
  rfl

/-- The sweep records a row's turning point if and only if no stale count is
compared before it. -/
theorem di_ds_sweep_records_iff (module : String) (anti_rows : List Nat) (hc_min : Nat → Int) (f : Nat → Measure)
    {vic_row_id : Nat} (h : vic_row_id ∈ victim_rows) :
    RecordsTurningPoint (is_anti module anti_rows vic_row_id) (f vic_row_id) (hc_list (hc_min vic_row_id)) vic_row_id
        (di_ds_sweep module anti_rows hc_min f) ↔
      ¬ StaleMatch (is_anti module anti_rows vic_row_id) (f vic_row_id) (hc_list (hc_min vic_row_id)) := by
  set anti := is_anti module anti_rows vic_row_id
  set hcs := hc_list (hc_min vic_row_id)
  have hasc : ([] ++ hcs).Pairwise (· < ·) := ascending_hc_list _
  have hleast : ∀ hc, sweep anti (f vic_row_id) hcs (bers_after (f vic_row_id) []) = some hc ↔
      IsLeast {hc | hc ∈ hcs ∧ Stops anti (f vic_row_id) hcs hc} hc := sweep_isLeast hasc (by simp)
  have hiff := isLeast_stops_iff hcs hleast (not_stops_of_none hasc (by simp))
  rw [← hiff]
  constructor
  · rintro ⟨o, ho, hrec⟩
    rw [results_of_row module anti_rows hc_min f h] at ho
    have heq := lines_injective ho
    intro hc
    rw [← hrec, ← heq]
    rfl
  · intro hrec
    exact ⟨_, results_of_row module anti_rows hc_min f h, hrec⟩

/-- With one bitflip at every hammer count the first one is recorded. -/
theorem di_ds_sweep_records_ones : RecordsTurningPoint false (fun _ _ => 1) (hc_list 1000) 1024
    (di_ds_sweep "module" [] (fun _ => 1000) fun _ _ _ => 1) := by
  have hrow : 1024 ∈ victim_rows := by decide
  apply (di_ds_sweep_records_iff "module" [] (fun _ => 1000) (fun _ _ _ => 1) hrow).2
  rintro ⟨hc, hmem, h0, h1, hl0, hl1, hne, -, -⟩
  have hlast : ∀ dp_id h, LastFlip (fun _ _ => 1) (hc_list 1000) dp_id hc h → h = hc := by
    intro dp_id h hl
    by_contra hne
    have hle := hl.le
    exact absurd (hl.last hc hmem (by omega) le_rfl) (by decide)
  exact hne ((hlast 0 h0 hl0).trans (hlast 1 h1 hl1).symm)

/-- Five bitflips of the first pattern at 498000, and then three of the second at
499000. -/
def apart : Measure := fun hc dp_id => if hc = 498000 ∧ dp_id = 0 then 5 else if hc = 499000 ∧ dp_id = 1 then 3 else 0

/-- 499000 is recorded, where only the second pattern flips bits. -/
theorem apart_recorded : ⟨50, 1024, 499000, 0⟩ ∈ di_ds_sweep "module" [] (fun _ => 498000) (fun _ => apart) ∧
    ¬ RecordsTurningPoint false apart (hc_list 498000) 1024 (di_ds_sweep "module" [] (fun _ => 498000) fun _ => apart) := by
  have hrow : (1024 : Nat) ∈ victim_rows := by decide
  have hresults := results_of_row "module" [] (fun _ => 498000) (fun _ => apart) hrow
  have hsweep : sweep (is_anti "module" [] 1024) apart (hc_list 498000) (fun _ => none) = some 499000 := by decide
  rw [hsweep] at hresults
  constructor
  · have hmem : (⟨50, 1024, 499000, 0⟩ : Result) ∈ (di_ds_sweep "module" [] (fun _ => 498000) fun _ => apart).filter
        fun r => r.vic_row_id = 1024 := by
      rw [hresults]
      exact List.mem_singleton_self _
    exact List.mem_of_mem_filter hmem
  · rintro ⟨o, ho, hrec⟩
    rw [hresults] at ho
    have heq : some 499000 = o := lines_injective ho
    obtain ⟨⟨-, hzero, -⟩, -⟩ := (hrec 499000).1 heq.symm
    revert hzero
    decide

end Sweep
