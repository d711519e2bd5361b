import Mathlib
import DramBender.HammerScripts
import DramBender.Agreement
import DramBender.Lib.MapFold
/-!
# The retention experiment

`di_retention.py` writes a range of rows, waits, and notes the rows that have lost
bits, in a table and in nested dictionaries. A setting that is measured twice stands
twice in the table, but only its last measurement stays in the dictionaries. The
script dies of a wait that the host cannot sleep (`di_retention_exact`).
-/

namespace DCT

open Std (ExtTreeMap)
open DRAMBender Machine Dialogue
open DRAMBender.Board

/-! ## The script -/

/-- A line of `results`. -/
structure Retained where
  temp : Int
  data_pattern : String
  t_wait : Int
  row_id : Nat
  num_bitflips : Nat

/-- What is kept of one measurement: the masks of the rows that lost bits. -/
abbrev RowMasks := ExtTreeMap Nat Mask

/-- `bitflip_records` -/
abbrev BitflipRecords := ExtTreeMap Int (ExtTreeMap String (ExtTreeMap Int RowMasks))

def data_patterns : List WriteWord_t := [0x0, 0xFFFFFFFF]

def count_nonzero (bitflip_mask : Mask) : Nat := bitflip_mask.countP fun word => word ≠ 0

/-- Whether the 100 calls of `time.sleep` in `sleep_with_progress` return: for a
negative time one raises a `ValueError`, and an `OverflowError` where 64 bits do not
hold the nanoseconds. -/
def sleep_with_progress (seconds : Int) : Bool := 0 ≤ seconds && seconds * 10000000 < 9223372036854775808

theorem sleep_with_progress_iff (seconds : Int) : sleep_with_progress seconds = true ↔ 0 ≤ seconds ∧ seconds < 922337203686 := by
  rw [sleep_with_progress, Bool.and_eq_true, decide_eq_true_eq, decide_eq_true_eq]
  omega

/-- The programs of one measurement. The host sleeps before the last one. -/
def retention_trial (bank : CInt) (num_rows_to_test row_start_offset : Nat) (data_pattern : WriteWord_t) : Trial :=
  let start_row : CInt := BitVec.ofNat 32 row_start_offset
  let end_row : CInt := BitVec.ofNat 32 (num_rows_to_test + row_start_offset)
  { progs := [.init_row_range bank start_row end_row fun _ => data_pattern, .refresh_all_rows bank 32768,
      .read_row_range bank start_row end_row]
    patterns := List.replicate num_rows_to_test fun _ => data_pattern }

/-- The loop over the rows of a measurement. -/
def note_rows (temp : Int) (data_pattern : WriteWord_t) (t_wait : Int) (bitflips : List Mask) (results : List Retained) :
    List Retained × RowMasks :=
  bitflips.zipIdx.foldl
    (fun r row =>
      if count_nonzero row.1 ≠ 0 then
        (r.1 ++ [⟨temp, hex08 data_pattern, t_wait, row.2, popcount_uint64 row.1⟩], r.2.insert row.2 row.1)
      else r)
    (results, ∅)

section
variable (bank : CInt) (num_rows_to_test row_start_offset : Nat) (t_wait_list temp_list : List Int)

/-- `bitflip_records[temp][data_pattern] = {}` and the loop that fills it. Where the
host cannot sleep there is no answer to wait for. -/
def for_waits (temp : Int) (data_pattern : WriteWord_t) (results : List Retained) :
    Script (List Retained × ExtTreeMap Int RowMasks) :=
  loop
    (fun t_wait r =>
      if sleep_with_progress t_wait then
        .ask (retention_trial bank num_rows_to_test row_start_offset data_pattern) fun bitflips =>
          let rows := note_rows temp data_pattern t_wait bitflips r.1
          .done (rows.1, r.2.insert t_wait rows.2)
      else .fail)
    t_wait_list (results, ∅)

/-- `bitflip_records[temp] = {}` and the loop that fills it. -/
def for_patterns (temp : Int) (results : List Retained) :
    Script (List Retained × ExtTreeMap String (ExtTreeMap Int RowMasks)) :=
  loop
    (fun data_pattern r => (for_waits bank num_rows_to_test row_start_offset t_wait_list temp data_pattern r.1).bind fun waits =>
      .done (waits.1, r.2.insert (hex08 data_pattern) waits.2))
    data_patterns (results, ∅)

def di_retention : Script (List Retained × BitflipRecords) :=
  loop
    (fun temp r => (for_patterns bank num_rows_to_test row_start_offset t_wait_list temp r.1).bind fun patterns =>
      .done (patterns.1, r.2.insert temp patterns.2))
    temp_list ([], ∅)

end

/-! ## What it notes -/

/-- The waits of a run, with the masks measured after each. -/
abbrev Waits := List (Int × List Mask)

/-- The data patterns of a run, with the waits of each. -/
abbrev Patterns := List (WriteWord_t × Waits)

/-- The rows of a measurement that have lost bits. -/
def lost (bitflips : List Mask) : List (Mask × Nat) := bitflips.zipIdx.filter fun row => popcount_uint64 row.1 ≠ 0

def lines (temp : Int) (data_pattern : WriteWord_t) (t_wait : Int) (bitflips : List Mask) : List Retained :=
  (lost bitflips).map fun row => ⟨temp, hex08 data_pattern, t_wait, row.2, popcount_uint64 row.1⟩

def row_masks (bitflips : List Mask) : RowMasks := (lost bitflips).foldl (fun d row => d.insert row.2 row.1) ∅

def wait_masks (waits : Waits) : ExtTreeMap Int RowMasks := waits.foldl (fun d w => d.insert w.1 (row_masks w.2)) ∅

def pattern_masks (patterns : Patterns) : ExtTreeMap String (ExtTreeMap Int RowMasks) :=
  patterns.foldl (fun d p => d.insert (hex08 p.1) (wait_masks p.2)) ∅

def temp_masks (temps : List (Int × Patterns)) : BitflipRecords := temps.foldl (fun d t => d.insert t.1 (pattern_masks t.2)) ∅

/-- A loop that adds to a table and writes to a dictionary. -/
theorem foldl_table {ι α κ ν : Type} {cmp : κ → κ → Ordering} [Std.TransCmp cmp] (xs : List ι) (f : ι → List α) (k : ι → κ)
    (v : ι → ν) (table : List α) (d : ExtTreeMap κ ν cmp) :
    xs.foldl (fun r x => (r.1 ++ f x, r.2.insert (k x) (v x))) (table, d) =
      (table ++ xs.flatMap f, xs.foldl (fun d x => d.insert (k x) (v x)) d) := by
  induction xs generalizing table d with
  | nil => simp
  | cons x xs ih => rw [List.foldl_cons, ih, List.flatMap_cons, List.append_assoc, List.foldl_cons]

theorem countP_bits_eq_zero {word : BitVec 64} : ((List.range 64).countP fun b => word.getLsbD b) = 0 ↔ word = 0 := by
  rw [List.countP_eq_zero]
  constructor
  · intro h
    apply BitVec.eq_of_getLsbD_eq
    intro b hb
    rw [Bool.eq_false_iff.2 (h b (List.mem_range.2 hb))]
    exact (BitVec.getLsbD_zero).symm
  · rintro rfl b -
    simp

/-- A mask that is not zero has a bit. -/
theorem count_nonzero_iff (bitflip_mask : Mask) : count_nonzero bitflip_mask ≠ 0 ↔ popcount_uint64 bitflip_mask ≠ 0 := by
  rw [popcount_eq, count_nonzero, not_iff_not, List.countP_eq_zero, List.sum_eq_zero_iff]
  simp only [List.forall_mem_map, countP_bits_eq_zero, decide_eq_true_eq, not_not]

theorem note_rows_eq (temp : Int) (data_pattern : WriteWord_t) (t_wait : Int) (bitflips : List Mask) (results : List Retained) :
    note_rows temp data_pattern t_wait bitflips results =
      (results ++ lines temp data_pattern t_wait bitflips, row_masks bitflips) := by
  have htable := foldl_table (lost bitflips)
    (fun row => [(⟨temp, hex08 data_pattern, t_wait, row.2, popcount_uint64 row.1⟩ : Retained)]) Prod.snd Prod.fst results
    (∅ : RowMasks)
  rw [lost, List.foldl_filter, ← List.map_eq_flatMap, ← lost] at htable
  rw [lines, row_masks, ← htable, note_rows]
  simp only [decide_eq_true_eq, count_nonzero_iff]

/-- The lines of the waits of one data pattern. -/
def wait_lines (temp : Int) (data_pattern : WriteWord_t) (waits : Waits) : List Retained :=
  waits.flatMap fun w => lines temp data_pattern w.1 w.2

def pattern_lines (temp : Int) (patterns : Patterns) : List Retained := patterns.flatMap fun p => wait_lines temp p.1 p.2

section
variable {bank : CInt} {num_rows_to_test row_start_offset : Nat} {t_wait_list temp_list : List Int}

/-- What was asked for the waits of a data pattern. -/
def wait_log (bank : CInt) (num_rows_to_test row_start_offset : Nat) (data_pattern : WriteWord_t) (waits : Waits) :
    List (Trial × List Mask) :=
  waits.map fun w => (retention_trial bank num_rows_to_test row_start_offset data_pattern, w.2)

def pattern_log (bank : CInt) (num_rows_to_test row_start_offset : Nat) (patterns : Patterns) : List (Trial × List Mask) :=
  patterns.flatMap fun p => wait_log bank num_rows_to_test row_start_offset p.1 p.2

theorem talk_for_waits (temp : Int) (data_pattern : WriteWord_t) (results : List Retained) (log : List (Trial × List Mask))
    (r : List Retained × ExtTreeMap Int RowMasks) :
    Talk (for_waits bank num_rows_to_test row_start_offset t_wait_list temp data_pattern results) log r ↔
      ∃ waits : Waits, waits.map Prod.fst = t_wait_list ∧ (∀ w ∈ waits, sleep_with_progress w.1 = true) ∧
        log = wait_log bank num_rows_to_test row_start_offset data_pattern waits ∧
        r = (results ++ wait_lines temp data_pattern waits, wait_masks waits) := by
  rw [for_waits, talk_loop (fun t_wait _ => sleep_with_progress t_wait = true)
    (fun _ bitflips => [(retention_trial bank num_rows_to_test row_start_offset data_pattern, bitflips)])
    fun r t_wait bitflips => (r.1 ++ lines temp data_pattern t_wait bitflips, r.2.insert t_wait (row_masks bitflips))]
  · refine exists_congr fun waits => and_congr_right fun _ => ?_
    rw [foldl_table waits (fun w => lines temp data_pattern w.1 w.2) Prod.fst fun w => row_masks w.2, ← List.map_eq_flatMap]
    rfl
  · intro t_wait _ r log r'
    by_cases hsleep : sleep_with_progress t_wait = true
    · simp [hsleep, note_rows_eq]
    · simp [hsleep]

/-- The waits of every data pattern are slept. -/
def Slept (t_wait_list : List Int) (patterns : Patterns) : Prop :=
  ∀ p ∈ patterns, p.2.map Prod.fst = t_wait_list ∧ ∀ w ∈ p.2, sleep_with_progress w.1 = true

theorem talk_for_patterns (temp : Int) (results : List Retained) (log : List (Trial × List Mask))
    (r : List Retained × ExtTreeMap String (ExtTreeMap Int RowMasks)) :
    Talk (for_patterns bank num_rows_to_test row_start_offset t_wait_list temp results) log r ↔
      ∃ patterns : Patterns, patterns.map Prod.fst = data_patterns ∧ Slept t_wait_list patterns ∧
        log = pattern_log bank num_rows_to_test row_start_offset patterns ∧
        r = (results ++ pattern_lines temp patterns, pattern_masks patterns) := by
  rw [for_patterns, talk_loop (fun _ waits => waits.map Prod.fst = t_wait_list ∧ ∀ w ∈ waits, sleep_with_progress w.1 = true)
    (wait_log bank num_rows_to_test row_start_offset)
    fun r data_pattern waits => (r.1 ++ wait_lines temp data_pattern waits, r.2.insert (hex08 data_pattern) (wait_masks waits))]
  · refine exists_congr fun patterns => and_congr_right fun _ => ?_
    rw [foldl_table patterns (fun p => wait_lines temp p.1 p.2) (fun p => hex08 p.1) fun p => wait_masks p.2]
    rfl
  · intro data_pattern _ r log r'
    simp only [talk_bind, talk_for_waits, talk_done]
    constructor
    · rintro ⟨log1, r1, log2, ⟨waits, hwaits, hslept, rfl, rfl⟩, ⟨rfl, rfl⟩, rfl⟩
      exact ⟨waits, ⟨hwaits, hslept⟩, List.append_nil _, rfl⟩
    · rintro ⟨waits, ⟨hwaits, hslept⟩, rfl, rfl⟩
      exact ⟨_, _, [], ⟨waits, hwaits, hslept, rfl, rfl⟩, ⟨rfl, rfl⟩, (List.append_nil _).symm⟩

theorem talk_di_retention (log : List (Trial × List Mask)) (r : List Retained × BitflipRecords) :
    Talk (di_retention bank num_rows_to_test row_start_offset t_wait_list temp_list) log r ↔
      ∃ temps : List (Int × Patterns), temps.map Prod.fst = temp_list ∧
        (∀ t ∈ temps, t.2.map Prod.fst = data_patterns ∧ Slept t_wait_list t.2) ∧
        log = temps.flatMap (fun t => pattern_log bank num_rows_to_test row_start_offset t.2) ∧
        r = (temps.flatMap fun t => pattern_lines t.1 t.2, temp_masks temps) := by
  rw [di_retention, talk_loop (fun _ patterns => patterns.map Prod.fst = data_patterns ∧ Slept t_wait_list patterns)
    (fun _ => pattern_log bank num_rows_to_test row_start_offset)
    fun r temp patterns => (r.1 ++ pattern_lines temp patterns, r.2.insert temp (pattern_masks patterns))]
  · refine exists_congr fun temps => and_congr_right fun _ => ?_
    rw [foldl_table temps (fun t => pattern_lines t.1 t.2) Prod.fst fun t => pattern_masks t.2]
    rfl
  · intro temp _ r log r'
    simp only [talk_bind, talk_for_patterns, talk_done]
    constructor
    · rintro ⟨log1, r1, log2, ⟨patterns, hpatterns, hall, rfl, rfl⟩, ⟨rfl, rfl⟩, rfl⟩
      exact ⟨patterns, ⟨hpatterns, hall⟩, List.append_nil _, rfl⟩
    · rintro ⟨patterns, ⟨hpatterns, hall⟩, rfl, rfl⟩
      exact ⟨_, _, [], ⟨patterns, hpatterns, hall, rfl, rfl⟩, ⟨rfl, rfl⟩, (List.append_nil _).symm⟩

/-- Every temperature and every data pattern has all the waits. -/
theorem slept_of_temps {temps : List (Int × Patterns)} (hne : temps ≠ [])
    (h : ∀ t ∈ temps, t.2.map Prod.fst = data_patterns ∧ Slept t_wait_list t.2) :
    ∀ t_wait ∈ t_wait_list, sleep_with_progress t_wait = true := by
  obtain ⟨t, ts, rfl⟩ := List.exists_cons_of_ne_nil hne
  obtain ⟨hpatterns, hslept⟩ := h t List.mem_cons_self
  obtain ⟨p, ps, hps, -, -⟩ := List.map_eq_cons_iff.1 hpatterns
  obtain ⟨hwaits, hall⟩ := hslept p (by rw [hps]; exact List.mem_cons_self)
  intro t_wait hmem
  rw [← hwaits] at hmem
  obtain ⟨w, hw, rfl⟩ := List.mem_map.1 hmem
  exact hall w hw

end

/-! ## What stays in the dictionaries -/

/-- The last entry for a key. -/
def latest {ι κ : Type} [DecidableEq κ] (k : ι → κ) (xs : List ι) (c : κ) : Option ι := xs.reverse.find? fun x => k x = c

theorem getElem?_written {ι κ ν : Type} {cmp : κ → κ → Ordering} [Std.TransCmp cmp] [Std.LawfulEqCmp cmp] [DecidableEq κ]
    (xs : List ι) (k : ι → κ) (v : ι → ν) (c : κ) :
    (xs.foldl (fun d x => d.insert (k x) (v x)) (∅ : ExtTreeMap κ ν cmp))[c]? = (latest k xs c).map v := by
  rw [MapFold.getElem?_foldl_insert, ExtTreeMap.getElem?_empty, Option.or_none]
  rfl

theorem mem_lost {bitflips : List Mask} {row : Mask × Nat} :
    row ∈ lost bitflips ↔ bitflips[row.2]? = some row.1 ∧ popcount_uint64 row.1 ≠ 0 := by
  rw [lost, List.mem_filter, List.mem_zipIdx_iff_getElem?, decide_eq_true_eq]

/-- A row has a mask if it has lost bits. -/
theorem getElem?_row_masks (bitflips : List Mask) (j : Nat) :
    (row_masks bitflips)[j]? = bitflips[j]?.filter fun bitflip_mask => popcount_uint64 bitflip_mask ≠ 0 := by
  rw [row_masks, getElem?_written]
  cases hrow : latest Prod.snd (lost bitflips) j with
  | none =>
    refine (Option.filter_eq_none_iff.2 fun bitflip_mask hmask hlost => ?_).symm
    have hmem : (bitflip_mask, j) ∈ lost bitflips := mem_lost.2 ⟨hmask, of_decide_eq_true hlost⟩
    exact List.find?_eq_none.1 hrow _ (List.mem_reverse.2 hmem) (decide_eq_true rfl)
  | some row =>
    have hfound := List.find?_some hrow
    have hkey : row.2 = j := of_decide_eq_true hfound
    obtain ⟨hmask, hlost⟩ := mem_lost.1 (List.mem_reverse.1 (List.mem_of_find?_eq_some hrow))
    rw [← hkey, hmask, Option.filter_some, if_pos (decide_eq_true hlost)]
    rfl

/-- The masks kept of the last measurement of a setting. -/
theorem getElem?_temp_masks (temps : List (Int × Patterns)) (temp : Int) (text : String) (t_wait : Int) (j : Nat) :
    ((((temp_masks temps)[temp]?.bind fun d => d[text]?).bind fun d => d[t_wait]?).bind fun d => d[j]?) =
      (((latest Prod.fst temps temp).bind fun t => latest (fun p => hex08 p.1) t.2 text).bind fun p =>
        latest Prod.fst p.2 t_wait).bind fun w => w.2[j]?.filter fun bitflip_mask => popcount_uint64 bitflip_mask ≠ 0 := by
  rw [temp_masks, getElem?_written]
  cases latest Prod.fst temps temp with
  | none => rfl
  | some t =>
    simp only [Option.map_some, Option.bind_some, pattern_masks, getElem?_written]
    cases latest (fun p => hex08 p.1) t.2 text with
    | none => rfl
    | some p =>
      simp only [Option.map_some, Option.bind_some, wait_masks, getElem?_written]
      cases latest Prod.fst p.2 t_wait with
      | none => rfl
      | some w => exact getElem?_row_masks w.2 j

/-! ## What the board answers -/

/-- Every row of the range is returned, and its mask has the bits in which the row,
as it is then, differs from the pattern. -/
def CountsRange (row_start_offset : Nat) (_ : Board) (q : Trial) (bitflips : List Mask) (b' : Board) : Prop :=
  ∃ bank num_rows_to_test data_pattern, q = retention_trial bank num_rows_to_test row_start_offset data_pattern ∧
    bitflips.length = num_rows_to_test ∧
    ∀ (j : Nat) (bitflip_mask : Mask), bitflips[j]? = some bitflip_mask → bitflip_mask.length = 1024 ∧
      popcount_uint64 bitflip_mask =
        differing_bits b'.dram (fun _ _ _ _ => data_pattern) (false, bank) (BitVec.ofNat 32 (row_start_offset + j))

theorem retention_able (bank : CInt) (num_rows_to_test row_start_offset : Nat) (data_pattern : WriteWord_t) :
    ∀ r ∈ (retention_trial bank num_rows_to_test row_start_offset data_pattern).progs, r.Able := by
  simp only [retention_trial, List.mem_cons, List.not_mem_nil, or_false]
  rintro r (rfl | rfl | rfl)
  · exact ⟨trivial, init_row_range_generates ..⟩
  · exact ⟨show 0 < (32768 : CInt).toInt by decide, refresh_all_rows_generates ..⟩
  · exact ⟨trivial, read_row_range_generates ..⟩

theorem asks_di_retention (bank : CInt) (num_rows_to_test row_start_offset : Nat) {t_wait_list temp_list : List Int}
    (h : temp_list = [] ∨ ∀ t_wait ∈ t_wait_list, sleep_with_progress t_wait = true) :
    Asks (fun q => ∃ data_pattern, q = retention_trial bank num_rows_to_test row_start_offset data_pattern)
      (di_retention bank num_rows_to_test row_start_offset t_wait_list temp_list) := by
  rcases h with rfl | hsleep
  · exact .done _
  refine .loop (fun temp _ r => .bind (.loop (fun data_pattern _ r => .bind (.loop (fun t_wait hmem r => ?_) _) fun _ => .done _) _) fun _ => .done _) _
  rw [if_pos (hsleep t_wait hmem)]
  exact .ask ⟨data_pattern, rfl⟩ fun _ => .done _

section
variable {num_rows_to_test row_start_offset : Nat} (hpos : 0 < num_rows_to_test) (hend : num_rows_to_test + row_start_offset < 2 ^ 31)
include hpos hend

theorem retention_rows (signed : Bool) : range_passes signed (BitVec.ofNat 32 row_start_offset)
    (BitVec.ofNat 32 (num_rows_to_test + row_start_offset)) = num_rows_to_test := by
  have hstart : (BitVec.ofNat 32 row_start_offset).toInt = row_start_offset := by
    rw [BitVec.toInt_eq_toNat_of_lt] <;> rw [BitVec.toNat_ofNat] <;> omega
  have hstop : (BitVec.ofNat 32 (num_rows_to_test + row_start_offset)).toInt = num_rows_to_test + row_start_offset := by
    rw [BitVec.toInt_eq_toNat_of_lt] <;> rw [BitVec.toNat_ofNat] <;> omega
  rw [range_passes_between (by omega) (by omega)]
  omega

/-- The board answers a measurement, and every answer counts the bits lost. -/
theorem answers_retention (hrows : num_rows_to_test < 2 ^ 18) (bank : CInt) (data_pattern : WriteWord_t) (signed : Bool)
    (other : Mnemonic → Board → Board × List Cmd) (b : Board) :
    (∃ bitflips b', Answers signed other b (retention_trial bank num_rows_to_test row_start_offset data_pattern) bitflips b') ∧
      ∀ bitflips b', Answers signed other b (retention_trial bank num_rows_to_test row_start_offset data_pattern) bitflips b' →
        CountsRange row_start_offset b (retention_trial bank num_rows_to_test row_start_offset data_pattern) bitflips b' := by
  obtain ⟨rows, hrows_eq⟩ : ∃ rows : List CInt, rows =
      (List.range num_rows_to_test).map fun j => BitVec.ofNat 32 row_start_offset + BitVec.ofNat 32 j := ⟨_, rfl⟩
  have hlen : rows.length = num_rows_to_test := by simp [hrows_eq]
  have hpatterns : (retention_trial bank num_rows_to_test row_start_offset data_pattern).patterns = rows.map fun _ _ => data_pattern := by
    rw [List.map_const', hlen]
    rfl
  have hread : (Request.read_row_range bank (BitVec.ofNat 32 row_start_offset)
      (BitVec.ofNat 32 (num_rows_to_test + row_start_offset))).rows_read signed = rows := by
    rw [Request.rows_read, retention_rows hpos hend, hrows_eq]
  constructor
  · obtain ⟨tasks, htasks⟩ := exists_tasks (retention_able bank num_rows_to_test row_start_offset data_pattern)
    obtain ⟨ess, b', hs⟩ := exists_session signed other tasks b
    obtain ⟨flips, hget, -⟩ := get_bitflips_words (false, bank) b'.dram (hlen.trans_lt hrows) data_pattern
    refine ⟨flips, b', tasks, ess, htasks, hs, ?_⟩
    rw [session_last hs rfl rfl rfl htasks, hread, hpatterns]
    exact hget
  · rintro bitflips b' ⟨tasks, ess, htasks, hs, hget⟩
    obtain ⟨flips, hget', hflips, hcounts⟩ := get_bitflips_words (false, bank) b'.dram (hlen.trans_lt hrows) data_pattern
    rw [session_last hs rfl rfl rfl htasks, hread, hpatterns] at hget
    obtain rfl : bitflips = flips := (Prod.mk.inj (Option.some.inj (hget.symm.trans hget'))).1
    refine ⟨bank, num_rows_to_test, data_pattern, rfl, hflips.trans hlen, fun j bitflip_mask hmask => ?_⟩
    have hj : j < num_rows_to_test := by
      rw [← hlen, ← hflips]
      exact (List.getElem?_eq_some_iff.1 hmask).1
    refine hcounts j _ bitflip_mask ?_ hmask
    rw [hrows_eq, List.getElem?_map, List.getElem?_range hj, Option.map_some, BitVec.ofNat_add]

/-- `di_retention` ends on every board if the host can sleep all the waits, or has
no temperature to measure at. It has then measured every setting, in order, and the
rows that had lost bits stand in the table; in the dictionaries those of the last
measurement of each setting do. -/
theorem di_retention_exact (hrows : num_rows_to_test < 2 ^ 18) (bank : CInt) (t_wait_list temp_list : List Int) (signed : Bool)
    (other : Mnemonic → Board → Board × List Cmd) (b : Board) :
    ((∃ log r b', Talk (di_retention bank num_rows_to_test row_start_offset t_wait_list temp_list) log r ∧
        Answered (Answers signed other) b log b') ↔
      temp_list = [] ∨ ∀ t_wait ∈ t_wait_list, 0 ≤ t_wait ∧ t_wait < 922337203686) ∧
    ∀ log r b', Talk (di_retention bank num_rows_to_test row_start_offset t_wait_list temp_list) log r →
      Answered (Answers signed other) b log b' →
      Answered (CountsRange row_start_offset) b log b' ∧ ∃ temps : List (Int × Patterns), temps.map Prod.fst = temp_list ∧
        (∀ t ∈ temps, t.2.map Prod.fst = data_patterns ∧ ∀ p ∈ t.2, p.2.map Prod.fst = t_wait_list) ∧
        log = temps.flatMap (fun t => pattern_log bank num_rows_to_test row_start_offset t.2) ∧
        r.1 = temps.flatMap (fun t => pattern_lines t.1 t.2) ∧
        ∀ temp text t_wait (j : Nat), (((r.2[temp]?.bind fun d => d[text]?).bind fun d => d[t_wait]?).bind fun d => d[j]?) =
          (((latest Prod.fst temps temp).bind fun t => latest (fun p => hex08 p.1) t.2 text).bind fun p =>
            latest Prod.fst p.2 t_wait).bind fun w => w.2[j]?.filter fun bitflip_mask => popcount_uint64 bitflip_mask ≠ 0 := by
  have hsleep : (∀ t_wait ∈ t_wait_list, 0 ≤ t_wait ∧ t_wait < 922337203686) ↔
      ∀ t_wait ∈ t_wait_list, sleep_with_progress t_wait = true :=
    forall₂_congr fun t_wait _ => (sleep_with_progress_iff t_wait).symm
  rw [hsleep]
  have hends : ∀ log r, Talk (di_retention bank num_rows_to_test row_start_offset t_wait_list temp_list) log r →
      temp_list = [] ∨ ∀ t_wait ∈ t_wait_list, sleep_with_progress t_wait = true := by
    intro log r ht
    obtain ⟨temps, htemps, hall, -, -⟩ := (talk_di_retention log r).1 ht
    by_cases hne : temps = []
    · exact .inl (by rw [← htemps, hne]; rfl)
    · exact .inr (slept_of_temps hne hall)
  refine ⟨⟨fun ⟨log, r, b', ht, _⟩ => hends log r ht, fun h => ?_⟩, fun log r b' ht hl => ⟨?_, ?_⟩⟩
  · refine exists_talk (fun b q hq => ?_) (asks_di_retention bank num_rows_to_test row_start_offset h) b
    obtain ⟨data_pattern, rfl⟩ := hq
    exact (answers_retention hpos hend hrows bank data_pattern signed other b).1
  · have hasks := asks_di_retention bank num_rows_to_test row_start_offset (hends log r ht)
    refine hl.mono (P := fun q => ∃ data_pattern, q = retention_trial bank num_rows_to_test row_start_offset data_pattern)
      (fun b q bitflips b' hq => ?_) (hasks.of_talk ht)
    obtain ⟨data_pattern, rfl⟩ := hq
    exact (answers_retention hpos hend hrows bank data_pattern signed other b).2 bitflips b'
  · obtain ⟨temps, htemps, hall, rfl, rfl⟩ := (talk_di_retention log r).1 ht
    exact ⟨temps, htemps, fun t hmem => ⟨(hall t hmem).1, fun p hp => ((hall t hmem).2 p hp).1⟩, rfl, rfl, getElem?_temp_masks temps⟩

end

/-- A range of 16 rows, measured twice after the same wait, and after a wait that is
none. -/
theorem di_retention_exact_twice :
    (∃ log r b', Talk (di_retention 1 16 1024 [4, 4] [90]) log r ∧
      Answered (Answers true told) .zero log b' ∧ Answered (CountsRange 1024) .zero log b') ∧
    ¬ ∃ log r b', Talk (di_retention 1 16 1024 [4, -4] [90]) log r ∧ Answered (Answers true told) .zero log b' := by
  constructor
  · obtain ⟨hends, hall⟩ := di_retention_exact (show 0 < 16 by decide) (show 16 + 1024 < 2 ^ 31 by decide)
      (by decide) 1 [4, 4] [90] true told .zero
    obtain ⟨log, r, b', ht, hl⟩ := hends.2 (by decide)
    exact ⟨log, r, b', ht, hl, (hall log r b' ht hl).1⟩
  · intro h
    refine absurd ((di_retention_exact (show 0 < 16 by decide) (show 16 + 1024 < 2 ^ 31 by decide)
      (by decide) 1 [4, -4] [90] true told .zero).1.1 h) (by decide)

end DCT
