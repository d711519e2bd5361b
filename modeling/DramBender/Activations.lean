import Mathlib
import DramBender.BankProtocol
import DramBender.StraightWords
/-!
# Activating rows one after the other

`refresh_all_rows` closes the bank and opens the next row, over and over; the
first row comes before the loop, and the loop is left after the row that ends
it has been opened.
-/

namespace DCT

open DRAMBender Machine
open DRAMBender.Board
open Program (Piece Block listing listing_append loop)
open Call (add_inst add_inst4 add_mininst pack_minprogram)
open ReservedReg

/-- Close the bank and open a row. -/
def act_cmds (bank : Bank) (row_id : CInt) : List Cmd := [.PRE bank, .ACT bank row_id]

/-- The rows activated, with their banks. -/
def acts (es : List Cmd) : List (Bank × CInt) :=
  es.filterMap fun c => match c with
    | .ACT bank row_id => some (bank, row_id)
    | _ => none

theorem acts_flatMap (bank : Bank) (rows : List CInt) (es : List Cmd) :
    acts (rows.flatMap (act_cmds bank) ++ es) = rows.map (fun row_id => (bank, row_id)) ++ acts es := by
  induction rows with
  | nil => rfl
  | cons row_id rows ih =>
    change (bank, row_id) :: acts (rows.flatMap (act_cmds bank) ++ es) = _
    rw [ih]
    rfl

/-- Activates the rows `0` to `n - 1` once each, in this order, and closes the
bank behind every one of them. -/
structure Refreshes (bank : Bank) (n : Nat) (es : List Cmd) : Prop where
  rows : acts es = (List.range n).map fun r => (bank, BitVec.ofNat 32 r)
  closes : ∀ es1 row_id es2, es = es1 ++ .ACT bank row_id :: es2 → ∃ es3, es2 = .PRE bank :: es3
  closed : ∀ m : Banks CInt, es.foldl (track id) m bank = false

theorem starts_with_pre (bank : Bank) (rows : List CInt) :
    ∃ es, rows.flatMap (act_cmds bank) ++ [.PRE bank] = .PRE bank :: es := by
  cases rows with
  | nil => exact ⟨_, rfl⟩
  | cons row_id rows => exact ⟨_, rfl⟩

/-- Behind every activation comes a PRE. -/
theorem closes_flatMap (bank : Bank) (rows : List CInt) {es1 es2 : List Cmd} {row_id : CInt}
    (h : rows.flatMap (act_cmds bank) ++ [.PRE bank] = es1 ++ .ACT bank row_id :: es2) : ∃ es3, es2 = .PRE bank :: es3 := by
  induction rows generalizing es1 with
  | nil =>
    cases es1 with
    | nil => cases h
    | cons c es1 => simp at h
  | cons row rows ih =>
    change .PRE bank :: .ACT bank row :: (rows.flatMap (act_cmds bank) ++ [.PRE bank]) = _ at h
    cases es1 with
    | nil => cases h
    | cons c es1 =>
      obtain ⟨-, h⟩ := List.cons.inj h
      cases es1 with
      | nil =>
        obtain ⟨-, rfl⟩ := List.cons.inj h
        exact starts_with_pre bank rows
      | cons c es1 => exact ih (List.cons.inj h).2

/-- Rows activated one after the other, and the bank closed at the end. -/
theorem refreshes_flatMap (bank : Bank) (n : Nat) :
    Refreshes bank n (((List.range n).map (BitVec.ofNat 32)).flatMap (act_cmds bank) ++ [.PRE bank]) := by
  refine ⟨?_, fun es1 row_id es2 he => closes_flatMap bank _ he, fun m => ?_⟩
  · rw [acts_flatMap, List.map_map]
    exact List.append_nil _
  · rw [List.foldl_append]
    exact Function.update_self _ _ _

/-! ## `refresh_all_rows` -/

theorem spells_refresh_start (bank num_rows : CInt) {sleep6 : List Call} (hs6 : sleep 6 = some sleep6) :
    Spells ([add_inst (SMC_LI bank BAR), add_inst (SMC_LI 0 RAR), add_inst (SMC_LI num_rows Last),
        add_inst (SMC_LI 8 CASR), ddr (SMC_PRE BAR 0 0), add_inst (SMC_LI 0 CAR), nops,
        ddr_last (SMC_ACT BAR 0 RAR 0)] ++ sleep6)
      ([.LI 4#4 bank, .LI 5#4 0#32, .LI 7#4 num_rows, .LI 0#4 8#32, only (.PRE 4 false false false), .LI 3#4 0#32, NOPS,
        only_last (.ACT 4 false 5 false false)] ++ [.SLEEP (6 - 2)]) :=
  (spells_pieces _ (by simp) (by simp)).append (spells_sleep hs6)

theorem spells_refresh_pass :
    Spells [ddr (SMC_PRE BAR 0 0), nops, add_inst (SMC_ADDI RAR 1 RAR), ddr_last (SMC_ACT BAR 0 RAR 0)]
      [only (.PRE 4 false false false), NOPS, .ADDI 5#4 5#4 1#16, only_last (.ACT 4 false 5 false false)] :=
  spells_pieces _ (by simp) (by simp)

theorem spells_refresh_end {sleep3 : List Call} (hs3 : sleep 3 = some sleep3) :
    Spells ([ddr (SMC_PRE BAR 0 0)] ++ sleep3) ([only (.PRE 4 false false false)] ++ [.SLEEP (3 - 2)]) :=
  (spells_pieces _ (by simp) (by simp)).append (spells_sleep hs3)

/-- `refresh_all_rows` is executable. -/
theorem refresh_all_rows_generates (bank num_rows : CInt) :
    ∃ p, refresh_all_rows bank num_rows = some p ∧ Platform.Executable p := by
  obtain ⟨sleep6, hs6⟩ := exists_sleep (show (2 : CInt) < 6 by decide)
  obtain ⟨sleep3, hs3⟩ := exists_sleep (show (2 : CInt) < 3 by decide)
  unfold refresh_all_rows
  rw [hs6, hs3, Option.bind_eq_bind, Option.bind_some, Option.bind_some]
  exact loop_generates (spells_refresh_start bank num_rows hs6) spells_refresh_pass (spells_refresh_end hs3)
    (by decide) (by decide) (by simp) _

/-- What holds before every pass of `refresh_all_rows`, and the commands so far. -/
structure Refreshing (bank num_rows : CInt) (i : Nat) (b : Board) (es : List Cmd) : Prop where
  bar : b.regs 4#4 = bank
  num : b.regs 7#4 = num_rows
  rar : b.regs 5#4 = BitVec.ofNat 32 i
  issued : es = ((List.range (i + 1)).map (BitVec.ofNat 32)).flatMap (act_cmds (false, bank))

/-- One pass closes the row before and opens the next. -/
theorem refreshing_step (other : Mnemonic → Board → Board × List Cmd) {bank num_rows : CInt} {i : Nat} {b : Board}
    {es : List Cmd} (hJ : Refreshing bank num_rows i b es) {r : Board × List Cmd}
    (hr : exec_all other [only (.PRE 4 false false false), NOPS, .ADDI 5#4 5#4 1#16, only_last (.ACT 4 false 5 false false)] b = r) :
    Refreshing bank num_rows (i + 1) r.1 (es ++ r.2) := by
  subst hr
  simp only [exec_all_PRE, exec_all_NOPS, exec_all_ADDI, exec_all_ACT_last, exec_all_nil]
  have hrow : b.regs 5#4 + 1#32 = BitVec.ofNat 32 (i + 1) := by
    rw [hJ.rar]
    exact (BitVec.ofNat_add i 1).symm
  refine ⟨by simpa using hJ.bar, by simpa using hJ.num, by simpa using hrow, ?_⟩
  rw [List.range_succ, List.map_append, List.flatMap_append, ← hJ.issued]
  simp [act_cmds, hJ.bar, hrow]

/-- A run of `refresh_all_rows` activates one row more than asked for. -/
theorem refresh_all_rows_run (bank : CInt) {n : Nat} (hpos : 0 < n) (hn : n < 2 ^ 31) (signed : Bool)
    (other : Mnemonic → Board → Board × List Cmd) (b : Board) :
    ∃ p, refresh_all_rows bank (BitVec.ofNat 32 n) = some p ∧ Platform.Executable p ∧
      ∃ b' es, Halts (p.get_inst_seq.map (Board.isa signed other).act) 0 b es b' ∧
        es = ((List.range (n + 1)).map (BitVec.ofNat 32)).flatMap (act_cmds (false, bank)) ++ [.PRE (false, bank)] := by
  obtain ⟨p, hp, hx⟩ := refresh_all_rows_generates bank (BitVec.ofNat 32 n)
  refine ⟨p, hp, hx, ?_⟩
  unfold refresh_all_rows at hp
  obtain ⟨sleep6, hs6, hp⟩ := Option.bind_eq_some_iff.1 hp
  obtain ⟨sleep3, hs3, hp⟩ := Option.bind_eq_some_iff.1 hp
  obtain ⟨b1, es1, hh, hJ⟩ : ∃ b1 es1, Halts (p.get_inst_seq.map (Board.isa signed other).act) 0 b
      (es1 ++ (exec_all other ([only (.PRE 4 false false false)] ++ [.SLEEP (3 - 2)]) b1).2)
      (exec_all other ([only (.PRE 4 false false false)] ++ [.SLEEP (3 - 2)]) b1).1 ∧
      Refreshing bank (BitVec.ofNat 32 n) n b1 es1 := by
    refine halts_on_board hp hx (spells_refresh_start bank _ hs6) spells_refresh_pass (spells_refresh_end hs3)
      (by decide) (by decide) ?_ ?_ ?_ signed other hpos (Refreshing bank (BitVec.ofNat 32 n)) b ?_ ?_
    · simp
    · simp
    · simp
    · simp only [List.cons_append, List.nil_append, exec_all_LI, exec_all_PRE, exec_all_NOPS, exec_all_ACT_last, exec_all_SLEEP,
        exec_all_nil]
      exact ⟨by simp, by simp, by simp, by simp [act_cmds]⟩
    · intro i b1 es1 hi hJ
      have hstep := refreshing_step other hJ rfl
      exact ⟨hstep, lt_counters signed other hstep.rar hstep.num (by omega) hn⟩
  refine ⟨_, _, hh, ?_⟩
  rw [hJ.issued, List.cons_append, List.nil_append, exec_all_PRE, exec_all_SLEEP, exec_all_nil, hJ.bar]

theorem Refreshes.unique {bank : Bank} {m n : Nat} {es : List Cmd} (h : Refreshes bank m es) (h' : Refreshes bank n es) :
    m = n := by
  have hlen := congrArg List.length (h.rows.symm.trans h'.rows)
  rwa [List.length_map, List.length_map, List.length_range, List.length_range] at hlen

/-- `refresh_all_rows` never stops at the last row asked for: it refreshes the
next one, too. -/
theorem refresh_all_rows_overruns (bank : CInt) {n : Nat} (hpos : 0 < n) (hn : n < 2 ^ 31) (signed : Bool)
    (other : Mnemonic → Board → Board × List Cmd) (b : Board) :
    ∃ p, refresh_all_rows bank (BitVec.ofNat 32 n) = some p ∧ Platform.Executable p ∧
      ∃ b' es, Halts (p.get_inst_seq.map (Board.isa signed other).act) 0 b es b' ∧
        ¬ Refreshes (false, bank) n es ∧ Refreshes (false, bank) (n + 1) es := by
  obtain ⟨p, hp, hx, b', es, hh, rfl⟩ := refresh_all_rows_run bank hpos hn signed other b
  have hone := refreshes_flatMap (false, bank) (n + 1)
  refine ⟨p, hp, hx, b', _, hh, fun h => ?_, hone⟩
  exact absurd (h.unique hone) (by omega)

/-- A bank of 32768 rows. -/
theorem refresh_all_rows_overruns_bank : ∃ p, refresh_all_rows 1 32768 = some p ∧ Platform.Executable p ∧
    ∃ b' es, Halts (p.get_inst_seq.map (Board.isa false fun _ b => (b, [])).act) 0 .zero es b' ∧
      ¬ Refreshes (false, 1) 32768 es ∧ Refreshes (false, 1) 32769 es :=
  refresh_all_rows_overruns 1 (n := 32768) (by decide) (by decide) false (fun _ b => (b, [])) .zero

/-- One row asked for, rows 0 and 1 activated. -/
theorem refresh_one_row : ∃ p, refresh_all_rows 2 1 = some p ∧ Platform.Executable p ∧
    ∃ b' es, Halts (p.get_inst_seq.map (Board.isa false fun _ b => (b, [])).act) 0 .zero es b' ∧
      acts es = [((false, 2), 0), ((false, 2), 1)] ∧ ¬ Refreshes (false, 2) 1 es := by
  obtain ⟨p, hp, hx, b', es, hh, rfl⟩ := refresh_all_rows_run 2 (n := 1) (by decide) (by decide) false
    (fun _ b => (b, [])) .zero
  have hacts := (refreshes_flatMap (false, 2) 2).rows
  refine ⟨p, hp, hx, b', _, hh, hacts, fun h => ?_⟩
  exact absurd (h.unique (refreshes_flatMap (false, 2) 2)) (by decide)

end DCT
