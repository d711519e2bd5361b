import Mathlib
import DramBender.RowPrograms
/-!
# What `init_row_range` and `read_row_range` do to a board

Both count the rows in RAR itself, from the first one up to the bound, and test
after the row.
-/

namespace DCT

open DRAMBender Machine
open DRAMBender.Board
open Program (Piece Block listing listing_append loop)
open Call (add_inst add_inst4 add_mininst pack_minprogram)
open ReservedReg

/-! ## Counting rows -/

/-- How BL compares two registers. -/
def less (signed : Bool) (a b : CInt) : Bool := if signed then a.slt b else a.ult b

theorem less_self (signed : Bool) (a : CInt) : less signed a a = false := by
  cases signed <;> simp [less, BitVec.slt_eq_decide, BitVec.ult_eq_decide]

theorem exists_last_pass (signed : Bool) (start_row end_row : CInt) :
    ∃ n, 0 < n ∧ less signed (start_row + BitVec.ofNat 32 n) end_row = false := by
  refine ⟨(end_row - start_row).toNat + 2 ^ 32, by omega, ?_⟩
  have hend : start_row + BitVec.ofNat 32 ((end_row - start_row).toNat + 2 ^ 32) = end_row := by
    bv_omega
  rw [hend, less_self]

/-- How often the loop over the rows runs. -/
def range_passes (signed : Bool) (start_row end_row : CInt) : Nat := Nat.find (exists_last_pass signed start_row end_row)

theorem range_passes_pos (signed : Bool) (start_row end_row : CInt) : 0 < range_passes signed start_row end_row :=
  (Nat.find_spec (exists_last_pass signed start_row end_row)).1

theorem less_pass (signed : Bool) (start_row end_row : CInt) {i : Nat} (hi : i < range_passes signed start_row end_row) :
    less signed (start_row + BitVec.ofNat 32 (i + 1)) end_row = decide (i + 1 < range_passes signed start_row end_row) := by
  rcases Nat.lt_or_ge (i + 1) (range_passes signed start_row end_row) with h | h
  · have hmin := Nat.find_min (exists_last_pass signed start_row end_row) h
    rw [decide_eq_true h]
    by_contra hless
    exact hmin ⟨by omega, Bool.eq_false_iff.2 hless⟩
  · have heq : i + 1 = range_passes signed start_row end_row := by omega
    rw [decide_eq_false (by omega), heq]
    exact (Nat.find_spec (exists_last_pass signed start_row end_row)).2

/-- Up from a row below the bound, the unsigned comparison sees all of the
range; on an empty one it comes too late. -/
theorem range_passes_unsigned {s e : Nat} (hse : s ≤ e) (he : e < 2 ^ 31) :
    range_passes false (BitVec.ofNat 32 s) (BitVec.ofNat 32 e) = max 1 (e - s) := by
  have hless : ∀ n, s + n < 2 ^ 32 → less false (BitVec.ofNat 32 s + BitVec.ofNat 32 n) (BitVec.ofNat 32 e) = decide (s + n < e) := by
    intro n hn
    rw [less, if_neg (by decide), ← BitVec.ofNat_add, BitVec.ult_eq_decide, BitVec.toNat_ofNat, BitVec.toNat_ofNat,
      Nat.mod_eq_of_lt hn, Nat.mod_eq_of_lt (by omega)]
  refine (Nat.find_eq_iff _).2 ⟨⟨by omega, ?_⟩, fun m hm => ?_⟩
  · rw [hless _ (by omega)]
    exact decide_eq_false (by omega)
  · rintro ⟨hpos, hfalse⟩
    rw [hless _ (by omega)] at hfalse
    have := of_decide_eq_false hfalse
    omega

/-! ## `read_row_range` -/

section
variable (other : Mnemonic → Board → Board × List Cmd)

/-- One pass: open the row in RAR, read it, close it. -/
theorem exec_read_range_pass {b : Board} (hs : b.regs 0#4 = 8#32) {samt : BitVec 32} {k : Nat} {r : Board × List Cmd}
    (hr : exec_all other ([only (.ACT 4 false 5 false false), .LI 3#4 0#32, NOPS] ++ reads k ++ [.SLEEP samt] ++
      [only (.PRE 4 false false false), .ADDI 5#4 5#4 1#16]) b = r) :
    Frame [3#4, 5#4] b r.1 ∧ r.1.regs 5#4 = b.regs 5#4 + 1#32 ∧ r.1.dram = b.dram ∧
      r.2 = read_cmds (false, b.regs 4#4) b.dram (columns 0 k) (b.regs 5#4) := by
  obtain ⟨b1, hopen, hregs, h3, hdram, hrow⟩ : ∃ b1,
      exec_all other [only (.ACT 4 false 5 false false), .LI 3#4 0#32, NOPS] b =
        (b1, [.ACT (false, b.regs 4#4) (b.regs 5#4)]) ∧
      Frame [3#4] b b1 ∧ b1.regs 3#4 = 0#32 ∧ b1.dram = b.dram ∧
      b1.row (false, b.regs 4#4) = b.regs 5#4 := by
    simp only [exec_all_NOPS, exec_all_ACT, exec_all_LI, exec_all_nil]
    refine ⟨_, Prod.ext rfl rfl, ?_, ?_, rfl, ?_⟩
    · exact (Frame.of_regs rfl).set_reg (by simp) _
    · simp
    · simp
  have h0 : b1.regs 0#4 = 8#32 := (hregs 0#4 (by decide)).trans hs
  have h4 : b1.regs 4#4 = b.regs 4#4 := hregs 4#4 (by decide)
  simp only [exec_all_append, hopen, exec_read_columns other b1 h0, exec_all_SLEEP, exec_all_ADDI, exec_all_PRE,
    exec_all_nil] at hr
  rw [← hr]
  refine ⟨?_, ?_, hdram, ?_⟩
  · exact ((hregs.mono (by simp)).set_reg (by simp) _).set_reg (by simp) _
  · simp [hregs 5#4 (by decide)]
  · simp [read_cmds, h3, h4, hdram, hrow]

end

/-- What holds before every pass of `read_row_range`, and the commands so far. -/
structure ReadingRange (bank start_row end_row : CInt) (cells : Bank → CInt → CInt → Line) (i : Nat) (b : Board)
    (es : List Cmd) : Prop where
  bar : b.regs 4#4 = bank
  stride : b.regs 0#4 = 8#32
  num : b.regs 7#4 = end_row
  rar : b.regs 5#4 = start_row + BitVec.ofNat 32 i
  dram : b.dram = cells
  issued : es = .PRE (false, bank) :: (List.range i).flatMap fun j =>
    read_cmds (false, bank) cells (columns 0 128) (start_row + BitVec.ofNat 32 j)

theorem reading_range_step (other : Mnemonic → Board → Board × List Cmd) {bank start_row end_row : CInt}
    {cells : Bank → CInt → CInt → Line} {i : Nat} {b : Board} {es : List Cmd}
    (h : ReadingRange bank start_row end_row cells i b es) (samt : BitVec 32) {r : Board × List Cmd}
    (hr : exec_all other ([only (.ACT 4 false 5 false false), .LI 3#4 0#32, NOPS] ++ reads 128 ++ [.SLEEP samt] ++
      [only (.PRE 4 false false false), .ADDI 5#4 5#4 1#16]) b = r) :
    ReadingRange bank start_row end_row cells (i + 1) r.1 (es ++ r.2) := by
  obtain ⟨hregs, hrar, hdram, hes⟩ := exec_read_range_pass other h.stride hr
  refine ⟨?_, ?_, ?_, ?_, hdram.trans h.dram, ?_⟩
  · rw [hregs _ (by decide), h.bar]
  · rw [hregs _ (by decide), h.stride]
  · rw [hregs _ (by decide), h.num]
  · rw [hrar, h.rar, BitVec.add_assoc, ← BitVec.ofNat_add]
  · rw [h.issued, hes, h.dram, h.bar, h.rar, List.range_succ, List.flatMap_append, List.flatMap_singleton]
    rfl

theorem spells_read_range_pass {sleep3 : List Call} (hs3 : sleep 3 = some sleep3) :
    Spells ([ddr (SMC_ACT BAR 0 RAR 0), add_inst (SMC_LI 0 CAR), nops] ++ read_columns ++ sleep3 ++
      [ddr (SMC_PRE BAR 0 0), add_inst (SMC_ADDI RAR 1 RAR)])
      ([only (.ACT 4 false 5 false false), .LI 3#4 0#32, NOPS] ++ reads 128 ++ [.SLEEP (3 - 2)] ++
        [only (.PRE 4 false false false), .ADDI 5#4 5#4 1#16]) :=
  spells_row_pass spells_read_columns hs3 (by simp) (by simp) (by simp) (by simp)

theorem spells_read_range_start (bank start_row end_row : CInt) {sleep3 : List Call} (hs3 : sleep 3 = some sleep3) :
    Spells ([add_inst (SMC_LI bank BAR), add_inst (SMC_LI start_row RAR), add_inst (SMC_LI end_row Last),
        add_inst (SMC_LI 8 CASR), ddr (SMC_PRE BAR 0 0)] ++ sleep3)
      ([.LI 4#4 bank, .LI 5#4 start_row, .LI 7#4 end_row, .LI 0#4 8#32, only (.PRE 4 false false false)] ++
        [.SLEEP (3 - 2)]) :=
  (spells_pieces _ (by simp) (by simp)).append (spells_sleep hs3)

/-- `read_row_range` is executable. -/
theorem read_row_range_generates (bank start_row end_row : CInt) :
    ∃ p, read_row_range bank start_row end_row = some p ∧ Platform.Executable p := by
  obtain ⟨sleep3, hs3⟩ := exists_sleep (show (2 : CInt) < 3 by decide)
  unfold read_row_range
  rw [hs3, Option.bind_eq_bind, Option.bind_some]
  refine loop_generates (spells_read_range_start bank start_row end_row hs3) (spells_read_range_pass hs3) spells_nil
    (by decide) (by decide) ?_ _
  simp only [List.length_append, length_reads, List.length_cons, List.length_nil]
  omega

/-- A run of `read_row_range` reads row after row. -/
theorem read_row_range_run {bank start_row end_row : CInt} {p : Program} (h : read_row_range bank start_row end_row = some p)
    (hx : Platform.Executable p) (signed : Bool) (other : Mnemonic → Board → Board × List Cmd) (b : Board) :
    ∃ b' es, Halts (p.get_inst_seq.map (Board.isa signed other).act) 0 b es b' ∧
      ReadingRange bank start_row end_row b.dram (range_passes signed start_row end_row) b' es := by
  unfold read_row_range at h
  obtain ⟨sleep3, hs3, h⟩ := Option.bind_eq_some_iff.1 h
  obtain ⟨b', es, hh, hJ⟩ : ∃ b1 es1, Halts (p.get_inst_seq.map (Board.isa signed other).act) 0 b (es1 ++ []) b1 ∧
      ReadingRange bank start_row end_row b.dram (range_passes signed start_row end_row) b1 es1 := by
    refine halts_on_board h hx (spells_read_range_start bank start_row end_row hs3) (spells_read_range_pass hs3) spells_nil
      (by decide) (by decide) ?_ ?_ straight_nil signed other (range_passes_pos signed start_row end_row)
      (ReadingRange bank start_row end_row b.dram) b ?_ ?_
    · simp
    · simp [straight_reads]
    · simp only [List.cons_append, List.nil_append, exec_all_LI, exec_all_PRE, exec_all_SLEEP, exec_all_nil]
      exact ⟨by simp, by simp, by simp, by simp, rfl, by simp⟩
    · intro i b1 es1 hi hJ
      have hstep := reading_range_step other hJ (3 - 2) rfl
      refine ⟨hstep, ?_⟩
      rw [← less_pass signed start_row end_row hi, ← hstep.rar, ← hstep.num]
      rfl
  rw [List.append_nil] at hh
  exact ⟨b', es, hh, hJ⟩

/-! ## `init_row_range` -/

/-- The words of a pattern, one after the other, to the wide data register. -/
def pattern_words (wr_pattern : WritePattern_t) : List Mnemonic :=
  (List.finRange 16).flatMap fun i => [.LI 6#4 (wr_pattern i), .LDWD (BitVec.ofNat 4 i) 6#4]

theorem straight_pattern_words (wr_pattern : WritePattern_t) : Straight (pattern_words wr_pattern) :=
  straight_flatMap (by simp)

theorem spells_load_pattern (wr_pattern : WritePattern_t) : Spells (load_pattern wr_pattern) (pattern_words wr_pattern) := by
  refine spells_flatMap fun i _ => spells_pieces _ (by simp) ?_
  rw [listing_LI _ (by decide), listing_LDWD _ (by decide) (ofNat_lt_16 i.isLt)]
  simp

section
variable (other : Mnemonic → Board → Board × List Cmd)

/-- The pattern goes to the wide data register. -/
theorem exec_load_pattern (wr_pattern : WritePattern_t) (b : Board) :
    let r := exec_all other (pattern_words wr_pattern) b
    Frame [6#4] b r.1 ∧ (r.1.wide = fun i => wr_pattern i.toFin) ∧ r.1.dram = b.dram ∧ r.2 = [] := by
  have h := exec_all_flatMap other (l := List.finRange 16)
    (f := fun i => [.LI 6#4 (wr_pattern i), .LDWD (BitVec.ofNat 4 i) 6#4]) (b := b)
    (fun xs b' es => Frame [6#4] b b' ∧ (∀ i : Reg, i.toFin ∈ xs → b'.wide i = wr_pattern i.toFin) ∧
      b'.dram = b.dram ∧ es = []) ?_ ?_
  · obtain ⟨hregs, hwide, hdram, hes⟩ := h
    exact ⟨hregs, funext fun i => hwide i (List.mem_finRange _), hdram, hes⟩
  · exact ⟨.of_regs rfl, by simp, rfl, rfl⟩
  · rintro xs x ys b' es - ⟨hregs, hwide, hdram, rfl⟩
    rw [exec_all_LI, exec_all_LDWD, exec_all_nil]
    refine ⟨hregs.set_reg (by simp) _, fun i hi => ?_, hdram, rfl⟩
    · change Function.update b'.wide (BitVec.ofNat 4 x) ((b'.set_reg 6#4 (wr_pattern x)).regs 6#4) i = wr_pattern i.toFin
      rw [set_reg_regs, Function.update_self]
      by_cases hx : i = BitVec.ofNat 4 x
      · have hfin : i.toFin = x := by
          rw [hx]
          exact Fin.ext (by simp)
        rw [hfin, hx, Function.update_self]
      · have hmem : i.toFin ∈ xs := by
          refine (List.mem_append.1 hi).resolve_right fun hmem => hx ?_
          rw [← List.mem_singleton.1 hmem]
          exact BitVec.eq_of_toNat_eq (by simp)
        rw [Function.update_of_ne hx, hwide i hmem]

/-- One pass: open the row in RAR, write it, close it. CAR goes on from where
it is. -/
theorem exec_write_range_pass {b : Board} (hs : b.regs 0#4 = 8#32) {samt : BitVec 32} {k : Nat} {r : Board × List Cmd}
    (hr : exec_all other ([only (.ACT 4 false 5 false false), NOPS, NOPS] ++ writes k ++ [.SLEEP samt] ++
      [only (.PRE 4 false false false), NOPS, .ADDI 5#4 5#4 1#16]) b = r) :
    Frame [3#4, 5#4] b r.1 ∧ r.1.regs 5#4 = b.regs 5#4 + 1#32 ∧
      r.1.regs 3#4 = b.regs 3#4 + BitVec.ofNat 32 (8 * k) ∧ r.1.wide = b.wide ∧
      r.2 = write_cmds (false, b.regs 4#4) (columns (b.regs 3#4) k) (b.regs 5#4) b.wide := by
  obtain ⟨b1, hopen, hregs1, hwide1, hrow1⟩ : ∃ b1,
      exec_all other [only (.ACT 4 false 5 false false), NOPS, NOPS] b =
        (b1, [.ACT (false, b.regs 4#4) (b.regs 5#4)]) ∧
      b1.regs = b.regs ∧ b1.wide = b.wide ∧ b1.row (false, b.regs 4#4) = b.regs 5#4 := by
    simp only [exec_all_NOPS, exec_all_ACT, exec_all_nil]
    exact ⟨_, rfl, rfl, rfl, by simp⟩
  obtain ⟨b2, hwrite, hregs2, hwide2⟩ : ∃ b2,
      exec_all other (writes k) b1 = (b2, (columns (b.regs 3#4) k).map fun col =>
        .WR (false, b.regs 4#4) col false b.wide) ∧
      b2.regs = Function.update b.regs 3#4 (b.regs 3#4 + BitVec.ofNat 32 (8 * k)) ∧ b2.wide = b.wide := by
    obtain ⟨hr2, hw, hes⟩ := exec_write_columns other b1 (by rw [hregs1, hs]) k
    rw [hregs1] at hr2 hes
    rw [hwide1] at hes
    exact ⟨_, Prod.ext rfl hes, hr2, hw.wide.trans hwide1⟩
  rw [exec_all_append, exec_all_append, exec_all_append, hopen] at hr
  simp only [hwrite, exec_all_SLEEP, exec_all_PRE, exec_all_NOPS, exec_all_ADDI, exec_all_nil] at hr
  rw [← hr]
  refine ⟨?_, ?_, ?_, hwide2, ?_⟩
  · intro rt hrt
    simp only [List.mem_cons, List.not_mem_nil, or_false, not_or] at hrt
    simp [hrt, hregs2]
  · simp [hregs2]
  · simp [hregs2]
  · simp [write_cmds, hregs2]

end

/-- What holds before every pass of `init_row_range`, and the commands so far:
the `j`-th row is written at the 128 columns from `1024 * j` on. -/
structure WritingRange (bank start_row end_row : CInt) (line : Line) (i : Nat) (b : Board) (es : List Cmd) : Prop where
  bar : b.regs 4#4 = bank
  stride : b.regs 0#4 = 8#32
  num : b.regs 7#4 = end_row
  rar : b.regs 5#4 = start_row + BitVec.ofNat 32 i
  car : b.regs 3#4 = BitVec.ofNat 32 (1024 * i)
  wide : b.wide = line
  issued : es = .PRE (false, bank) :: (List.range i).flatMap fun j =>
    write_cmds (false, bank) (columns (BitVec.ofNat 32 (1024 * j)) 128) (start_row + BitVec.ofNat 32 j) line

theorem writing_range_step (other : Mnemonic → Board → Board × List Cmd) {bank start_row end_row : CInt} {line : Line} {i : Nat}
    {b : Board} {es : List Cmd} (h : WritingRange bank start_row end_row line i b es) (samt : BitVec 32) {r : Board × List Cmd}
    (hr : exec_all other ([only (.ACT 4 false 5 false false), NOPS, NOPS] ++ writes 128 ++ [.SLEEP samt] ++
      [only (.PRE 4 false false false), NOPS, .ADDI 5#4 5#4 1#16]) b = r) :
    WritingRange bank start_row end_row line (i + 1) r.1 (es ++ r.2) := by
  obtain ⟨hregs, hrar, hcar, hwide, hes⟩ := exec_write_range_pass other h.stride hr
  refine ⟨?_, ?_, ?_, ?_, ?_, hwide.trans h.wide, ?_⟩
  · rw [hregs _ (by decide), h.bar]
  · rw [hregs _ (by decide), h.stride]
  · rw [hregs _ (by decide), h.num]
  · rw [hrar, h.rar, BitVec.add_assoc, ← BitVec.ofNat_add]
  · have hsucc : 1024 * i + 8 * 128 = 1024 * (i + 1) := by omega
    rw [hcar, h.car, ← BitVec.ofNat_add, hsucc]
  · rw [h.issued, hes, h.wide, h.bar, h.rar, h.car, List.range_succ, List.flatMap_append, List.flatMap_singleton]
    rfl

theorem spells_write_range_pass {sleep4 : List Call} (hs4 : sleep 4 = some sleep4) :
    Spells ([ddr (SMC_ACT BAR 0 RAR 0), nops, nops] ++ write_columns ++ sleep4 ++
      [ddr (SMC_PRE BAR 0 0), nops, add_inst (SMC_ADDI RAR 1 RAR)])
      ([only (.ACT 4 false 5 false false), NOPS, NOPS] ++ writes 128 ++ [.SLEEP (4 - 2)] ++
        [only (.PRE 4 false false false), NOPS, .ADDI 5#4 5#4 1#16]) :=
  spells_row_pass spells_write_columns hs4 (by simp) (by simp) (by simp) (by simp)

theorem spells_write_range_start (bank start_row end_row : CInt) (wr_pattern : WritePattern_t) :
    Spells ([add_inst (SMC_LI bank BAR), add_inst (SMC_LI start_row RAR), add_inst (SMC_LI end_row Last),
        add_inst (SMC_LI 8 CASR)] ++ load_pattern wr_pattern ++ [ddr (SMC_PRE BAR 0 0), add_inst (SMC_LI 0 CAR), nops, nops])
      ([.LI 4#4 bank, .LI 5#4 start_row, .LI 7#4 end_row, .LI 0#4 8#32] ++ pattern_words wr_pattern ++
        [only (.PRE 4 false false false), .LI 3#4 0#32, NOPS, NOPS]) :=
  ((spells_pieces _ (by simp) (by simp)).append (spells_load_pattern wr_pattern)).append
    (spells_pieces _ (by simp) (by simp))

/-- `init_row_range` is executable. -/
theorem init_row_range_generates (bank start_row end_row : CInt) (wr_pattern : WritePattern_t) :
    ∃ p, init_row_range bank start_row end_row wr_pattern = some p ∧ Platform.Executable p := by
  obtain ⟨sleep4, hs4⟩ := exists_sleep (show (2 : CInt) < 4 by decide)
  have hload : (pattern_words wr_pattern).length = 32 := by
    simp [pattern_words, List.length_flatMap]
  unfold init_row_range
  rw [hs4, Option.bind_eq_bind, Option.bind_some]
  refine loop_generates (spells_write_range_start bank start_row end_row wr_pattern) (spells_write_range_pass hs4) spells_nil
    (by decide) (by decide) ?_ _
  simp only [List.length_append, length_writes, hload, List.length_cons, List.length_nil]
  omega

/-- A run of `init_row_range` writes row after row, and column after column. -/
theorem init_row_range_run {bank start_row end_row : CInt} {wr_pattern : WritePattern_t} {p : Program}
    (h : init_row_range bank start_row end_row wr_pattern = some p) (hx : Platform.Executable p) (signed : Bool)
    (other : Mnemonic → Board → Board × List Cmd) (b : Board) :
    ∃ b' es, Halts (p.get_inst_seq.map (Board.isa signed other).act) 0 b es b' ∧
      WritingRange bank start_row end_row (fun i => wr_pattern i.toFin) (range_passes signed start_row end_row) b' es := by
  unfold init_row_range at h
  obtain ⟨sleep4, hs4, h⟩ := Option.bind_eq_some_iff.1 h
  obtain ⟨b', es, hh, hJ⟩ : ∃ b1 es1, Halts (p.get_inst_seq.map (Board.isa signed other).act) 0 b (es1 ++ []) b1 ∧
      WritingRange bank start_row end_row (fun i => wr_pattern i.toFin) (range_passes signed start_row end_row) b1 es1 := by
    refine halts_on_board h hx (spells_write_range_start bank start_row end_row wr_pattern) (spells_write_range_pass hs4)
      spells_nil (by decide) (by decide) ?_ ?_ straight_nil signed other (range_passes_pos signed start_row end_row)
      (WritingRange bank start_row end_row fun i => wr_pattern i.toFin) b ?_ ?_
    · simp [straight_pattern_words]
    · simp [straight_writes]
    · obtain ⟨hregs, hwide, -, hes⟩ := exec_load_pattern other wr_pattern
        ((((b.set_reg 4#4 bank).set_reg 5#4 start_row).set_reg 7#4 end_row).set_reg 0#4 8#32)
      simp only [exec_all_append, exec_all_LI, exec_all_PRE, exec_all_NOPS, exec_all_nil]
      refine ⟨?_, ?_, ?_, ?_, ?_, hwide, ?_⟩
      · simp [hregs 4#4 (by decide)]
      · simp [hregs 0#4 (by decide)]
      · simp [hregs 7#4 (by decide)]
      · simp [hregs 5#4 (by decide)]
      · simp
      · simp [hes, hregs 4#4 (by decide)]
    · intro i b1 es1 hi hJ
      have hstep := writing_range_step other hJ (4 - 2) rfl
      refine ⟨hstep, ?_⟩
      rw [← less_pass signed start_row end_row hi, ← hstep.rar, ← hstep.num]
      rfl
  rw [List.append_nil] at hh
  exact ⟨b', es, hh, hJ⟩

end DCT
