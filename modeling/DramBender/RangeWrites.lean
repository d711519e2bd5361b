import Mathlib
import DramBender.Bitflips
import DramBender.RowRanges
/-!
# `init_row_range` against `init_rows`

`init_rows` resets CAR for every row; `init_row_range` does it once, before its
loop, and writes the second row past the last column.
-/

namespace DCT

open DRAMBender Machine

/-- A WRITE: bank, open row, column, data. -/
abbrev Write := Bank × CInt × CInt × Line

/-- The WRITEs of a run, with the rows their banks have open. -/
def wr_trace : (Bank → CInt) → List Cmd → List Write
  | _, [] => []
  | row, .ACT bank row_id :: es => wr_trace (Function.update row bank row_id) es
  | row, .WR bank col _ data :: es => (bank, row bank, col, data) :: wr_trace row es
  | row, _ :: es => wr_trace row es

section
variable (row : Bank → CInt) (bank : Bank) (row_id col : CInt) (ap : Bool) (data : Line) (es : List Cmd)

theorem wr_trace_ACT : wr_trace row (.ACT bank row_id :: es) = wr_trace (Function.update row bank row_id) es := rfl

theorem wr_trace_WR : wr_trace row (.WR bank col ap data :: es) = (bank, row bank, col, data) :: wr_trace row es := rfl

theorem wr_trace_PRE : wr_trace row (.PRE bank :: es) = wr_trace row es := rfl

end

/-- One WRITE of the line for each column of a row. -/
def row_writes (bank : Bank) (cols : List CInt) (row_id : CInt) (line : Line) : List Write :=
  cols.map fun col => (bank, row_id, col, line)

theorem wr_trace_write_cmds (row : Bank → CInt) (bank : Bank) (cols : List CInt) (row_id : CInt) (line : Line) (es : List Cmd) :
    wr_trace row (write_cmds bank cols row_id line ++ es) =
      row_writes bank cols row_id line ++ wr_trace (Function.update row bank row_id) es := by
  have hcols : ∀ cols : List CInt, wr_trace (Function.update row bank row_id)
      ((cols.map fun col => Cmd.WR bank col false line) ++ .PRE bank :: es) =
        row_writes bank cols row_id line ++ wr_trace (Function.update row bank row_id) es := by
    intro cols
    induction cols with
    | nil => rfl
    | cons col cols ih =>
      rw [List.map_cons, List.cons_append, wr_trace_WR, ih, Function.update_self]
      rfl
  rw [write_cmds, List.cons_append, List.cons_append, List.append_assoc, wr_trace_ACT]
  exact hcols cols

/-- The WRITEs of rows written one after the other. -/
theorem wr_trace_flatMap {ι : Type} (bank : Bank) (xs : List ι) (cols : ι → List CInt) (row_id : ι → CInt) (line : ι → Line)
    (row : Bank → CInt) : wr_trace row (xs.flatMap fun x => write_cmds bank (cols x) (row_id x) (line x)) =
      xs.flatMap fun x => row_writes bank (cols x) (row_id x) (line x) := by
  induction xs generalizing row with
  | nil => rfl
  | cons x xs ih => rw [List.flatMap_cons, wr_trace_write_cmds, ih, List.flatMap_cons]

/-- The rows from `start_row` on. -/
def row_range (start_row : CInt) (n : Nat) : List CInt := (List.range n).map fun j => start_row + BitVec.ofNat 32 j

/-- One WRITE at each of the 128 columns of each row. -/
def range_writes (bank start_row : CInt) (n : Nat) (word : WriteWord_t) : List Write :=
  (row_range start_row n).flatMap fun row_id => row_writes (false, bank) (columns 0 128) row_id fun _ => word

/-- The WRITEs of a run of `init_rows` over a range. -/
theorem init_rows_trace {bank start_row : CInt} {n : Nat} {word : WriteWord_t} {p : Program}
    (h : init_rows bank (row_range start_row n) (List.replicate n word) = some p) (hx : Platform.Executable p) (hn : 0 < n)
    (signed : Bool) (other : Mnemonic → Board → Board × List Cmd) {b b' : Board} {es : List Cmd}
    (hh : Halts (p.get_inst_seq.map (Board.isa signed other).act) 0 b es b') :
    wr_trace b.row es = range_writes bank start_row n word := by
  have hlen : (row_range start_row n).length = n := by rw [row_range, List.length_map, List.length_range]
  have hne : row_range start_row n ≠ [] := by
    rw [← List.length_pos_iff, hlen]
    exact hn
  obtain ⟨b1, es1, hh1, hw⟩ := init_rows_run h hx hne signed other b
  obtain ⟨rfl, -⟩ := hh.det hh1
  have hzip : (row_range start_row n).zip (List.replicate n word) = (row_range start_row n).map fun row_id => (row_id, word) := by
    apply List.ext_getElem (by simp [hlen])
    intro i hi hi'
    simp
  rw [hw.issued, List.take_of_length_le (by rw [hzip, List.length_map]), wr_trace_PRE, wr_trace_flatMap, hzip,
    List.flatMap_map]
  rfl

/-- The WRITEs of a run of `init_row_range`: the `j`-th row gets them from the
column `1024 * j` on. -/
theorem init_row_range_trace {bank start_row end_row : CInt} {word : WriteWord_t} {p : Program}
    (h : init_row_range bank start_row end_row (fun _ => word) = some p) (hx : Platform.Executable p)
    (signed : Bool) (other : Mnemonic → Board → Board × List Cmd) (b : Board) :
    ∃ b' es, Halts (p.get_inst_seq.map (Board.isa signed other).act) 0 b es b' ∧
      wr_trace b.row es = (List.range (range_passes signed start_row end_row)).flatMap fun j =>
        row_writes (false, bank) (columns (BitVec.ofNat 32 (1024 * j)) 128) (start_row + BitVec.ofNat 32 j) fun _ => word := by
  obtain ⟨b', es, hh, hw⟩ := init_row_range_run h hx signed other b
  refine ⟨b', es, hh, ?_⟩
  rw [hw.issued, wr_trace_PRE, wr_trace_flatMap]

theorem first_write (bank : Bank) (c row_id : CInt) (line : Line) :
    (row_writes bank (columns c 128) row_id line)[0]? = some (bank, row_id, c + 0#32, line) := by
  rw [row_writes, columns, List.getElem?_map, List.getElem?_map, List.getElem?_range (by decide)]
  rfl

/-- The WRITEs are those of the range only if it is a single row. -/
theorem trace_eq_iff (bank start_row : CInt) {m n : Nat} (hm : 0 < m) (hn : 0 < n) (word : WriteWord_t) :
    ((List.range m).flatMap fun j => row_writes (false, bank) (columns (BitVec.ofNat 32 (1024 * j)) 128)
      (start_row + BitVec.ofNat 32 j) fun _ => word) = range_writes bank start_row n word ↔ m = 1 ∧ n = 1 := by
  have hlen : ∀ (cols : List CInt) (row_id : CInt) (line : Line), (row_writes (false, bank) cols row_id line).length = cols.length :=
    fun cols row_id line => List.length_map _
  constructor
  · intro h
    have hcount := congrArg List.length h
    rw [Blocks.length_flatMap (n := 128) fun j _ => by rw [hlen, length_columns], range_writes,
      Blocks.length_flatMap (n := 128) fun j _ => by rw [hlen, length_columns], row_range, List.length_map,
      List.length_range, List.length_range] at hcount
    have hmn : m = n := by omega
    subst hmn
    by_contra hne
    -- the first WRITE of the second row
    have hsecond := congrArg (fun l : List Write => l[128 * 1 + 0]?) h
    rw [Blocks.getElem?_flatMap (fun j _ => by rw [hlen, length_columns]) 1 (by decide), range_writes,
      Blocks.getElem?_flatMap (fun j _ => by rw [hlen, length_columns]) 1 (by decide), List.getElem?_range (by omega), row_range,
      List.getElem?_map, List.getElem?_range (by omega), Option.map_some, Option.bind_some, Option.bind_some, first_write,
      first_write] at hsecond
    have hcol : BitVec.ofNat 32 (1024 * 1) + 0#32 = (0 : CInt) + 0#32 := congrArg (fun x : Write => x.2.2.1) (Option.some.inj hsecond)
    exact absurd hcol (by decide)
  · rintro ⟨rfl, rfl⟩
    simp [range_writes, row_range]

theorem range_passes_one (signed : Bool) {start_row end_row : CInt} (h : end_row.toInt = start_row.toInt + 1) :
    range_passes signed start_row end_row = 1 := by
  have hend : start_row + BitVec.ofNat 32 1 = end_row := by
    apply BitVec.eq_of_toNat_eq
    rw [BitVec.toInt_eq_toNat_cond, BitVec.toInt_eq_toNat_cond] at h
    rw [BitVec.toNat_add, BitVec.toNat_ofNat]
    have h1 := start_row.isLt
    have h2 := end_row.isLt
    split_ifs at h <;> omega
  refine le_antisymm (Nat.find_min' _ ⟨by decide, ?_⟩) (range_passes_pos signed start_row end_row)
  rw [hend, less_self]

/-- `init_row_range` issues the WRITEs of `init_rows`, one for each column of
each row, exactly for ranges of a single row. -/
theorem init_row_range_agrees_iff (bank : CInt) {start_row end_row : CInt} (hlt : start_row.toInt < end_row.toInt)
    (word : WriteWord_t) (signed : Bool) (other : Mnemonic → Board → Board × List Cmd) (b : Board) :
    ∃ p, init_row_range bank start_row end_row (fun _ => word) = some p ∧ Platform.Executable p ∧
      ∃ b' es, Halts (p.get_inst_seq.map (Board.isa signed other).act) 0 b es b' ∧
        let n := (end_row.toInt - start_row.toInt).toNat
        ((wr_trace b.row es = range_writes bank start_row n word ∧
          ∀ q, init_rows bank (row_range start_row n) (List.replicate n word) = some q → Platform.Executable q →
            ∀ b2 b2' es2, Halts (q.get_inst_seq.map (Board.isa signed other).act) 0 b2 es2 b2' →
              wr_trace b.row es = wr_trace b2.row es2) ↔ end_row.toInt = start_row.toInt + 1) := by
  obtain ⟨p, hp, hx⟩ := init_row_range_generates bank start_row end_row fun _ => word
  obtain ⟨b', es, hh, htrace⟩ := init_row_range_trace hp hx signed other b
  refine ⟨p, hp, hx, b', es, hh, ?_⟩
  intro n
  have hn : 0 < n := by omega
  have hiff := trace_eq_iff bank start_row (range_passes_pos signed start_row end_row) hn word
  rw [← htrace] at hiff
  constructor
  · rintro ⟨hwrites, -⟩
    have := (hiff.1 hwrites).2
    omega
  · intro hend
    have hwrites := hiff.2 ⟨range_passes_one signed hend, by omega⟩
    refine ⟨hwrites, fun q hq hqx b2 b2' es2 hh2 => ?_⟩
    rw [hwrites, init_rows_trace hq hqx hn signed other hh2]

/-- A range of one row. -/
theorem init_row_range_agrees_one : ∃ p, init_row_range 1 3 4 (fun _ => 7) = some p ∧
    ∃ b' es, Halts (p.get_inst_seq.map (Board.isa false fun _ b => (b, [])).act) 0 .zero es b' ∧
      wr_trace Board.zero.row es = range_writes 1 3 1 7 := by
  have hlt : (3 : CInt).toInt < (4 : CInt).toInt := by decide
  obtain ⟨p, hp, -, b', es, hh, hiff⟩ := init_row_range_agrees_iff 1 hlt 7 false (fun _ b => (b, [])) .zero
  exact ⟨p, hp, b', es, hh, (hiff.2 (by decide)).1⟩

/-- The second row of a range is written past its columns. -/
theorem init_row_range_disagrees : ∃ p q, init_row_range 1 3 5 (fun _ => 7) = some p ∧ init_rows 1 [3, 4] [7, 7] = some q ∧
    Platform.Executable p ∧ Platform.Executable q ∧ ∃ b1 es1 b2 es2,
      Halts (p.get_inst_seq.map (Board.isa false fun _ b => (b, [])).act) 0 .zero es1 b1 ∧
      Halts (q.get_inst_seq.map (Board.isa false fun _ b => (b, [])).act) 0 .zero es2 b2 ∧
      wr_trace Board.zero.row es1 ≠ wr_trace Board.zero.row es2 := by
  obtain ⟨p, hp, hx⟩ := init_row_range_generates 1 3 5 fun _ => 7
  obtain ⟨q, hq, hqx⟩ : ∃ q, init_rows 1 (row_range 3 2) (List.replicate 2 7) = some q ∧ Platform.Executable q :=
    init_rows_generates 1 (by simp [row_range]) (by simp [row_range])
  obtain ⟨b1, es1, hh1, htrace⟩ := init_row_range_trace hp hx false (fun _ b => (b, [])) .zero
  obtain ⟨b2, es2, hh2, -⟩ := init_rows_run hq hqx (by simp [row_range]) false (fun _ b => (b, [])) .zero
  refine ⟨p, q, hp, hq, hx, hqx, b1, es1, b2, es2, hh1, hh2, fun heq => ?_⟩
  rw [htrace, init_rows_trace hq hqx (by decide) false _ hh2,
    trace_eq_iff 1 3 (range_passes_pos false 3 5) (by decide)] at heq
  exact absurd heq.2 (by decide)

end DCT
