import Mathlib
import DramBender.Commands
import DramBender.RangeWrites
import DramBender.Timing
/-!
# Programs for a range or a list, and programs for one row

`read_row_range` counts the rows in a register, `read_rows` looks them up in the
data memory; they issue the same commands. A pass of `act_rows` issues what
`act_row` issues, in slots equally far apart (`row_programs_agree`).
-/

namespace DCT

open DRAMBender Machine
open DRAMBender.Board
open Program (Block listing linked loop packed padding queued fills)
open Call (add_inst add_mininst pack_minprogram)
open ReservedReg

/-! ## Packed words, with the clock -/

theorem issue_slots_append (ds ds' : List Ddr) (t : Nat) (b : Board) : b.issue_slots t (ds ++ ds') =
    (((b.issue_slots t ds).1.issue_slots (t + ds.length) ds').1,
      (b.issue_slots t ds).2 ++ ((b.issue_slots t ds).1.issue_slots (t + ds.length) ds').2) := by
  induction ds generalizing t b with
  | nil => rfl
  | cons d ds ih =>
    have hlen : t + (d :: ds).length = t + 1 + ds.length := by
      rw [List.length_cons]
      omega
    rw [List.cons_append, issue_slots_cons, issue_slots_cons, ih, hlen, List.append_assoc]

/-- NOPs only take their slots. -/
theorem issue_slots_nops (n : Nat) (ds : List Ddr) (t : Nat) (b : Board) :
    b.issue_slots t (List.replicate n (.NOP false) ++ ds) = b.issue_slots (t + n) ds := by
  induction n generalizing t with
  | zero => rfl
  | succ n ih =>
    have hlen : t + 1 + n = t + (n + 1) := by omega
    rw [List.replicate_succ, List.cons_append, issue_slots_cons]
    change ((b.issue_slots (t + 1) _).1, [] ++ (b.issue_slots (t + 1) _).2) = _
    rw [List.nil_append, ih, hlen]

theorem issue_slots_PRE (ds : List Ddr) (t : Nat) (b : Board) : b.issue_slots t (.PRE 4 false false false :: ds) =
    ((b.issue_slots (t + 1) ds).1, (t, .PRE (false, b.regs 4#4)) :: (b.issue_slots (t + 1) ds).2) := rfl

theorem issue_slots_ACT (ds : List Ddr) (t : Nat) (b : Board) : b.issue_slots t (.ACT 4 false 5 false false :: ds) =
    let b' := { b with row := Function.update b.row (false, b.regs 4#4) (b.regs 5#4) }
    ((b'.issue_slots (t + 1) ds).1, (t, .ACT (false, b.regs 4#4) (b.regs 5#4)) :: (b'.issue_slots (t + 1) ds).2) := rfl

section
variable (other : Mnemonic → Board → Board × List Cmd)

theorem time_all_LD (rt rs1 : Reg) (imd1 : BitVec 16) (ms : List Mnemonic) (b : Board) (t : Nat) :
    time_all other (.LD rt rs1 imd1 :: ms) (b, t) =
      time_all other ms (b.set_reg rt (b.mem (b.regs rs1 + imd1.setWidth 32)), t + 1) := rfl

theorem time_all_NOPS (ms : List Mnemonic) (b : Board) (t : Nat) :
    time_all other (NOPS :: ms) (b, t) = time_all other ms (b, t + 1) := rfl

/-- DDR words issue their slots one after the other. -/
theorem time_all_ddr_words {ws : List Inst} (h : ∀ w ∈ ws, is_ddr w = true) (b : Board) (t : Nat) :
    time_all other (ws.map decode_inst) (b, t) =
      (((b.issue_slots (4 * t) ((ws.flatMap slots).map decode_ddr)).1, t + ws.length),
        (b.issue_slots (4 * t) ((ws.flatMap slots).map decode_ddr)).2) := by
  induction ws generalizing b t with
  | nil => rfl
  | cons w ws ih =>
    have hdecode : decode_inst w =
        .DDR (decode_ddr (slot w 0)) (decode_ddr (slot w 1)) (decode_ddr (slot w 2)) (decode_ddr (slot w 3)) := by
      unfold decode_inst
      rw [h w (by simp)]
      rfl
    have hslots : (slots w).map decode_ddr =
        [decode_ddr (slot w 0), decode_ddr (slot w 1), decode_ddr (slot w 2), decode_ddr (slot w 3)] := rfl
    have hword : timed_exec other (decode_inst w) (b, t) =
        (((b.issue_slots (4 * t) ((slots w).map decode_ddr)).1, t + 1),
          (b.issue_slots (4 * t) ((slots w).map decode_ddr)).2) := by
      rw [hdecode, hslots]
      rfl
    have hnext : 4 * t + ((slots w).map decode_ddr).length = 4 * (t + 1) := rfl
    have hlen : t + (w :: ws).length = t + 1 + ws.length := by
      rw [List.length_cons]
      omega
    rw [List.map_cons, time_all_cons, hword, ih fun x hx => h x (by simp [hx]), List.flatMap_cons, List.map_append,
      issue_slots_append, hnext, hlen]

/-- The words of a queue issue it slot by slot. -/
theorem time_all_packed {ms : List Mininst} (h : ∀ m ∈ ms, m.getLsbD 15 = true) (b : Board) (t : Nat) :
    time_all other ((packed ms).map decode_inst) (b, t) =
      (((b.issue_slots (4 * t) ((ms ++ padding ms.length).map decode_ddr)).1, t + (packed ms).length),
        (b.issue_slots (4 * t) ((ms ++ padding ms.length).map decode_ddr)).2) := by
  rw [time_all_ddr_words other (Program.is_ddr_packed h), Program.slots_packed ms h]

/-- What a board does is what it does without the clock. -/
theorem time_all_project (ms : List Mnemonic) (b : Board) (t : Nat) :
    exec_all other ms b = ((time_all other ms (b, t)).1.1, (time_all other ms (b, t)).2.map Prod.snd) := by
  induction ms generalizing b t with
  | nil => rfl
  | cons m ms ih =>
    have hexec := exec_project other m (b, t)
    have hrest := ih (timed_exec other m (b, t)).1.1 (timed_exec other m (b, t)).1.2
    rw [time_all_cons, List.map_append]
    change ((exec_all other ms (exec other m b).1).1, (exec other m b).2 ++ (exec_all other ms (exec other m b).1).2) = _
    rw [hexec, hrest]

end

/-- A generated program without branches, on any instruction set. -/
theorem halts_block {σ ε : Type} (isa : Isa σ ε) {cs : List Call} {ms : List Mnemonic} {p : Program} (hp : generate cs = some p)
    (hcs : Spells cs ms) (hms : Straight ms) (s : σ) :
    Halts (p.get_inst_seq.map isa.act) 0 s (effects (ms.map isa.exec) s).2 (effects (ms.map isa.exec) s).1 := by
  have hh : Halts (Program.code isa (Program.build cs) ++ [.halt]) 0 s (effects (ms.map isa.exec) s).2
      (effects (ms.map isa.exec) s).1 := by
    rw [Program.code_block isa hcs.block, hcs.listing, map_actOf _ hms]
    exact halts_straight _ s
  exact Program.halts_conclude isa hcs.block.made hcs.block.labelled
    (fun b tgt hb => by rw [hcs.block.branch_none] at hb; cases hb) hp hh

/-! ## A range of rows -/

/-- `start_row`, ..., `end_row - 1`. -/
def rows_between (start_row end_row : CInt) : List CInt := row_range start_row (end_row.toInt - start_row.toInt).toNat

theorem toInt_add_ofNat {a b : CInt} {n : Nat} (h : a.toInt + n ≤ b.toInt) : (a + BitVec.ofNat 32 n).toInt = a.toInt + n := by
  have ha := BitVec.le_toInt a
  have hb := BitVec.toInt_lt (x := b)
  have hofInt : a + BitVec.ofNat 32 n = BitVec.ofInt 32 (a.toInt + n) := by
    rw [BitVec.ofInt_add, BitVec.ofInt_toInt, BitVec.ofInt_natCast]
  rw [hofInt, BitVec.toInt_ofInt, Int.bmod_eq_of_le (by omega) (by omega)]

/-- The comparison tells the rows below the bound from the bound. -/
theorem less_rows_between {signed : Bool} {start_row end_row : CInt} (hs : signed = false → 0 ≤ start_row.toInt) {n : Nat}
    (hn : start_row.toInt + n ≤ end_row.toInt) :
    less signed (start_row + BitVec.ofNat 32 n) end_row = decide (start_row.toInt + n < end_row.toInt) := by
  have hint := toInt_add_ofNat hn
  unfold less
  cases signed with
  | true => rw [if_pos rfl, BitVec.slt_eq_decide, hint]
  | false =>
    have hpos := hs rfl
    have hnat : ∀ a : CInt, 0 ≤ a.toInt → (a.toNat : Int) = a.toInt := by
      intro a ha
      rw [BitVec.toInt_eq_toNat_of_lt]
      exact BitVec.toInt_pos_iff.1 ha
    have h1 := hnat (start_row + BitVec.ofNat 32 n) (by omega)
    have h2 := hnat end_row (by omega)
    rw [if_neg (by decide), BitVec.ult_eq_decide]
    exact decide_eq_decide.2 (by omega)

theorem range_passes_between {signed : Bool} {start_row end_row : CInt} (h : start_row.toInt < end_row.toInt)
    (hs : signed = false → 0 ≤ start_row.toInt) :
    range_passes signed start_row end_row = (end_row.toInt - start_row.toInt).toNat := by
  refine (Nat.find_eq_iff _).2 ⟨⟨by omega, ?_⟩, fun m hm => ?_⟩
  · rw [less_rows_between hs (by omega)]
    exact decide_eq_false (by omega)
  · rintro ⟨-, hfalse⟩
    rw [less_rows_between hs (by omega)] at hfalse
    have hlast := of_decide_eq_false hfalse
    omega

/-- `read_row_range` and `read_rows` on the rows of the range issue the same
commands. -/
theorem read_programs_agree {bank start_row end_row : CInt} (h : start_row.toInt < end_row.toInt) {signed : Bool}
    (hs : signed = false → 0 ≤ start_row.toInt) {p q : Program} (hp : read_row_range bank start_row end_row = some p)
    (hxp : Platform.Executable p) (hq : read_rows bank (rows_between start_row end_row) = some q)
    (hxq : Platform.Executable q) (other : Mnemonic → Board → Board × List Cmd) (b : Board) :
    ∃ es b1 b2, Halts (p.get_inst_seq.map (Board.isa signed other).act) 0 b es b1 ∧
      Halts (q.get_inst_seq.map (Board.isa signed other).act) 0 b es b2 ∧
      es = .PRE (false, bank) :: (rows_between start_row end_row).flatMap (read_cmds (false, bank) b.dram (columns 0 128)) := by
  obtain ⟨b1, es1, hh1, hr1⟩ := read_row_range_run hp hxp signed other b
  obtain ⟨b2, es2, hh2, hr2⟩ := read_rows_run hq hxq signed other b
  have hne : rows_between start_row end_row ≠ [] := by
    rw [← List.length_pos_iff, rows_between, row_range, List.length_map, List.length_range]
    omega
  have hissued1 := hr1.issued
  have hissued2 := hr2.issued
  rw [range_passes_between h hs] at hissued1
  rw [List.take_of_length_le le_rfl, visited, if_neg hne] at hissued2
  have hsame : es1 = es2 := by
    rw [hissued1, hissued2, rows_between, row_range, List.flatMap_map]
  subst hsame
  exact ⟨es1, b1, b2, hh1, hh2, hissued2⟩

/-! ## Visits -/

/-- What `act_and_harden` issues from slot `t` on. -/
def visit (bank : Bank) (nRAS nRP : Nat) (row_id : CInt) (t : Nat) : List Stamped :=
  [(t, .ACT bank row_id), (t + (1 + nRAS), .PRE bank), (t + (2 + nRAS + nRP), .ACT bank row_id),
    (t + (27 + nRAS + nRP), .PRE bank)]

/-- The queue of `act_and_harden`. -/
def visit_queue (nRAS nRP : Nat) : List Mininst :=
  SMC_ACT BAR 0 RAR 0 :: (List.replicate nRAS SMC_NOP ++ SMC_PRE BAR 0 0 :: (List.replicate nRP SMC_NOP ++
    SMC_ACT BAR 0 RAR 0 :: (List.replicate 24 SMC_NOP ++ [SMC_PRE BAR 0 0])))

theorem queue_act_and_harden (nRAS nRP : CInt) :
    (act_and_harden nRAS nRP).flatMap queued = visit_queue nRAS.toInt.toNat nRP.toInt.toNat := by
  unfold act_and_harden visit_queue
  simp only [List.flatMap_cons, List.flatMap_nil, queued, List.cons_append, List.append_nil]
  rfl

/-- The words of `act_and_harden`. -/
def visit_words (nRAS nRP : CInt) : List Mnemonic :=
  (packed (visit_queue nRAS.toInt.toNat nRP.toInt.toNat)).map decode_inst

theorem spells_visit (nRAS nRP : CInt) : Spells (minprogram (act_and_harden nRAS nRP)) (visit_words nRAS nRP) := by
  have hfills := fills_act_and_harden nRAS nRP
  refine ⟨Program.block_pack hfills, ?_⟩
  have hqueue : Program.queue_after [] (act_and_harden nRAS nRP) = (act_and_harden nRAS nRP).flatMap queued := by
    rw [← Program.build_minprogram, Program.build, Program.foldl_fills hfills]
    rfl
  rw [minprogram, Program.listing_pack hfills, hqueue, queue_act_and_harden]
  rfl

theorem visit_queue_msb (nRAS nRP : CInt) : ∀ m ∈ visit_queue nRAS.toInt.toNat nRP.toInt.toNat, m.getLsbD 15 = true := by
  rw [← queue_act_and_harden]
  exact Program.queued_msb (fills_act_and_harden nRAS nRP)

theorem straight_visit_words (nRAS nRP : CInt) : Straight (visit_words nRAS nRP) := by
  refine List.forall_mem_map.2 fun w hw => ?_
  have hddr := Program.is_ddr_packed (visit_queue_msb nRAS nRP) w hw
  unfold decode_inst
  rw [hddr]
  rfl

theorem time_all_visit (other : Mnemonic → Board → Board × List Cmd) (nRAS nRP : CInt) (b : Board) (t : Nat) :
    ∃ b', time_all other (visit_words nRAS nRP) (b, t) =
        ((b', t + (visit_words nRAS nRP).length),
          visit (false, b.regs 4#4) nRAS.toInt.toNat nRP.toInt.toNat (b.regs 5#4) (4 * t)) ∧
      b'.regs = b.regs ∧ b'.mem = b.mem := by
  set r := nRAS.toInt.toNat
  set k := nRP.toInt.toNat
  have hnops : ∀ n, (List.replicate n SMC_NOP).map decode_ddr = List.replicate n (.NOP false) := by
    intro n
    rw [List.map_replicate]
    rfl
  -- the queue of a visit, decoded
  have hact : decode_ddr (SMC_ACT BAR 0 RAR 0) = .ACT 4 false 5 false false := by decide
  have hpre : decode_ddr (SMC_PRE BAR 0 0) = .PRE 4 false false false := by decide
  have hqueue : ∀ n, (visit_queue r k ++ padding n).map decode_ddr = Ddr.ACT 4 false 5 false false ::
      (List.replicate r (Ddr.NOP false) ++ Ddr.PRE 4 false false false :: (List.replicate k (Ddr.NOP false) ++
        Ddr.ACT 4 false 5 false false :: (List.replicate 24 (Ddr.NOP false) ++ Ddr.PRE 4 false false false ::
          (List.replicate ((4 - n % 4) % 4) (Ddr.NOP false) ++ [])))) := by
    intro n
    simp only [visit_queue, padding, List.map_append, List.map_cons, hnops, hact, hpre, List.append_assoc,
      List.cons_append, List.append_nil, List.nil_append]
  unfold visit_words
  rw [time_all_packed other (visit_queue_msb nRAS nRP), hqueue, List.length_map]
  simp only [issue_slots_ACT, issue_slots_PRE, issue_slots_nops]
  have hpre1 : 4 * t + 1 + r = 4 * t + (1 + r) := by omega
  have hact2 : 4 * t + (1 + r) + 1 + k = 4 * t + (2 + r + k) := by omega
  have hpre2 : 4 * t + (2 + r + k) + 1 + 24 = 4 * t + (27 + r + k) := by omega
  rw [hpre1, hact2, hpre2]
  exact ⟨_, rfl, rfl, rfl⟩

/-! ## `act_row` -/

theorem spells_act_row (bank row_id nRAS nRP : CInt) {sleep3 : List Call} (hs3 : sleep 3 = some sleep3) :
    Spells ([add_inst (SMC_LI bank BAR), add_inst (SMC_LI row_id RAR), add_inst (SMC_LI 8 CASR),
        ddr (SMC_PRE BAR 0 0), add_inst (SMC_LI 0 CAR), nops, nops] ++ minprogram (act_and_harden nRAS nRP) ++ sleep3)
      ([.LI 4#4 bank, .LI 5#4 row_id, .LI 0#4 8#32, only (.PRE 4 false false false), .LI 3#4 0#32, NOPS, NOPS] ++
        visit_words nRAS nRP ++ [.SLEEP (3 - 2)]) :=
  ((spells_pieces _ (by simp) (by simp)).append (spells_visit nRAS nRP)).append (spells_sleep hs3)

/-- A run of `act_row` visits the row. -/
theorem act_row_run {bank row_id nRAS nRP : CInt} {p : Program} (h : act_row bank row_id nRAS nRP = some p)
    (signed : Bool) (other : Mnemonic → Board → Board × List Cmd) (b : Board) (t : Nat) :
    ∃ s' t0 t1, Halts (p.get_inst_seq.map (timed signed other).act) 0 (b, t)
      ((t0, .PRE (false, bank)) :: visit (false, bank) nRAS.toInt.toNat nRP.toInt.toNat row_id t1) s' := by
  unfold act_row at h
  obtain ⟨sleep3, hs3, h⟩ := Option.bind_eq_some_iff.1 h
  have hstraight : Straight ([.LI 4#4 bank, .LI 5#4 row_id, .LI 0#4 8#32, only (.PRE 4 false false false), .LI 3#4 0#32,
      NOPS, NOPS] ++ visit_words nRAS nRP ++ [.SLEEP (3 - 2)]) := by
    simp [straight_visit_words]
  have hh := halts_block (timed signed other) h (spells_act_row bank row_id nRAS nRP hs3) hstraight (b, t)
  have heffect : ∀ (ms : List Mnemonic) s, effects (ms.map (timed signed other).exec) s = time_all other ms s := fun _ _ => rfl
  rw [heffect, List.append_assoc] at hh
  simp only [List.cons_append, List.nil_append, time_all_LI, time_all_PRE, time_all_NOPS] at hh
  obtain ⟨b', hvisit, -, -⟩ := time_all_visit other nRAS nRP
    ((((b.set_reg 4#4 bank).set_reg 5#4 row_id).set_reg 0#4 8#32).set_reg 3#4 0#32) (t + 1 + 1 + 1 + 1 + 1 + 1 + 1)
  rw [time_all_append, hvisit, time_all_SLEEP, time_all_nil, List.append_nil] at hh
  have hbar' : (((b.set_reg 4#4 bank).set_reg 5#4 row_id).set_reg 0#4 8#32).regs 4#4 = bank := by simp
  have hbar : ((((b.set_reg 4#4 bank).set_reg 5#4 row_id).set_reg 0#4 8#32).set_reg 3#4 0#32).regs 4#4 = bank := by simp
  have hrow : ((((b.set_reg 4#4 bank).set_reg 5#4 row_id).set_reg 0#4 8#32).set_reg 3#4 0#32).regs 5#4 = row_id := by simp
  rw [hbar, hbar', hrow] at hh
  exact ⟨_, _, _, hh⟩

/-! ## `act_rows` -/

/-- Rows visited one after the other, each at its slot. -/
def row_visits (bank : Bank) (nRAS nRP : Nat) (rows : List (CInt × Nat)) : List Stamped :=
  rows.flatMap fun x => visit bank nRAS nRP x.1 x.2

/-- What holds before every pass of `act_rows`, and the commands so far. -/
structure Visiting (bank : CInt) (row_ids : List CInt) (nRAS nRP : Nat) (i : Nat) (b : Board) (es : List Stamped) : Prop where
  bar : b.regs 4#4 = bank
  num : b.regs 7#4 = BitVec.ofNat 32 row_ids.length
  ptr : b.regs 8#4 = BitVec.ofNat 32 i
  table : ∀ x ∈ row_ids.zipIdx, b.mem (BitVec.ofNat 32 x.2) = x.1
  issued : ∃ t0 ts, ts.length = i ∧
    es = (t0, .PRE (false, bank)) :: row_visits (false, bank) nRAS nRP ((row_ids.take i).zip ts)

section
variable (other : Mnemonic → Board → Board × List Cmd)

theorem time_all_id_table {row_ids : List CInt} (hlen : row_ids.length ≤ 65536) (b : Board) (t : Nat)
    (hptr : b.regs 8#4 = 0#32) : ∃ b' t', time_all other (id_table row_ids) (b, t) = ((b', t'), []) ∧
      Frame [9#4] b b' ∧ ∀ x ∈ row_ids.zipIdx, b'.mem (BitVec.ofNat 32 x.2) = x.1 := by
  obtain ⟨hregs, hmem, -, hes⟩ := exec_store_row_ids other hlen b hptr
  rw [time_all_project other _ b t] at hregs hmem hes
  exact ⟨_, _, Prod.ext rfl (List.map_eq_nil_iff.1 hes), hregs, hmem⟩

/-- What `act_rows` does before its loop. -/
theorem visiting_start {bank : CInt} {row_ids : List CInt} (hlen : row_ids.length ≤ 65536) (nRAS nRP : Nat) (b : Board) (t : Nat) :
    let r := time_all other ([.LI 4#4 bank, .LI 0#4 8#32, .LI 7#4 (BitVec.ofNat 32 row_ids.length), .LI 8#4 0#32] ++
      id_table row_ids ++ [only (.PRE 4 false false false), .LI 3#4 0#32, NOPS, NOPS]) (b, t)
    Visiting bank row_ids nRAS nRP 0 r.1.1 r.2 := by
  obtain ⟨b', t', htable, hregs, hmem⟩ := time_all_id_table other hlen
    ((((b.set_reg 4#4 bank).set_reg 0#4 8#32).set_reg 7#4 (BitVec.ofNat 32 row_ids.length)).set_reg 8#4 0#32)
    (t + 1 + 1 + 1 + 1) (by simp)
  have hbar : b'.regs 4#4 = bank := by simp [hregs 4#4 (by decide)]
  rw [List.append_assoc]
  simp only [List.cons_append, List.nil_append, time_all_LI, time_all_append, htable, time_all_PRE, time_all_NOPS, time_all_nil]
  refine ⟨?_, ?_, ?_, hmem, ?_⟩
  · simp [hbar]
  · simp [hregs 7#4 (by decide)]
  · simp [hregs 8#4 (by decide)]
  · rw [hbar]
    exact ⟨_, [], rfl, rfl⟩

/-- What one pass of `act_rows` does. -/
theorem visiting_step {bank : CInt} {row_ids : List CInt} {nRAS nRP : CInt} {i : Nat} (hi : i < row_ids.length) {b : Board}
    {es : List Stamped} (h : Visiting bank row_ids nRAS.toInt.toNat nRP.toInt.toNat i b es) (t : Nat) {r : (Board × Nat) × List Stamped}
    (hr : time_all other ([.LD 5#4 8#4 0#16, NOPS] ++ visit_words nRAS nRP ++ [.ADDI 8#4 8#4 1#16]) (b, t) = r) :
    Visiting bank row_ids nRAS.toInt.toNat nRP.toInt.toNat (i + 1) r.1.1 (es ++ r.2) := by
  -- the LD reads entry `i` of the table
  have hrow : b.mem (b.regs 8#4 + (0#16).setWidth 32) = row_ids[i] := by
    have haddr : b.regs 8#4 + (0#16).setWidth 32 = BitVec.ofNat 32 i := by
      rw [h.ptr]
      bv_omega
    rw [haddr]
    exact h.table (row_ids[i], i) (by simp [List.mem_zipIdx_iff_getElem?])
  obtain ⟨b', hvisit, hregs, hmem⟩ := time_all_visit other nRAS nRP (b.set_reg 5#4 row_ids[i]) (t + 1 + 1)
  have h5 : (b.set_reg 5#4 row_ids[i]).regs 5#4 = row_ids[i] := by simp
  have h4 : (b.set_reg 5#4 row_ids[i]).regs 4#4 = bank := by simp [h.bar]
  rw [h4, h5] at hvisit
  rw [List.append_assoc] at hr
  simp only [List.cons_append, List.nil_append, time_all_LD, hrow, time_all_NOPS, time_all_append, hvisit, time_all_ADDI,
    time_all_nil, List.append_nil] at hr
  rw [← hr]
  refine ⟨?_, ?_, ?_, ?_, ?_⟩
  · simp [hregs, h.bar]
  · simp [hregs, h.num]
  · simp [hregs, h.ptr, BitVec.ofNat_add]
  · rw [set_reg_mem, hmem]
    exact h.table
  · -- the new visit starts behind the LD and its NOPs
    obtain ⟨t0, ts, hts, hes⟩ := h.issued
    refine ⟨t0, ts ++ [4 * (t + 1 + 1)], by simp [hts], ?_⟩
    have htake : row_ids.take (i + 1) = row_ids.take i ++ [row_ids[i]] := by
      rw [List.take_add_one, List.getElem?_eq_getElem hi, Option.toList_some]
    have hlen : (row_ids.take i).length = ts.length := by
      rw [List.length_take, hts]
      omega
    rw [hes, htake, List.zip_append hlen, row_visits, row_visits, List.flatMap_append]
    simp

end

theorem spells_visiting_start (bank : CInt) {row_ids : List CInt} (hlen : row_ids.length ≤ 65536) :
    Spells ([add_inst (SMC_LI bank BAR), add_inst (SMC_LI 8 CASR), add_inst (SMC_LI (BitVec.ofNat 32 row_ids.length) Last),
        add_inst (SMC_LI 0 (Last + 1))] ++ store_row_ids (Last + 1) (Last + 2) row_ids ++
      [ddr (SMC_PRE BAR 0 0), add_inst (SMC_LI 0 CAR), nops, nops])
      ([.LI 4#4 bank, .LI 0#4 8#32, .LI 7#4 (BitVec.ofNat 32 row_ids.length), .LI 8#4 0#32] ++ id_table row_ids ++
        [only (.PRE 4 false false false), .LI 3#4 0#32, NOPS, NOPS]) :=
  ((spells_pieces _ (by simp) (by simp)).append (spells_store_row_ids hlen)).append (spells_pieces _ (by simp) (by simp))

theorem spells_visiting_pass (nRAS nRP : CInt) :
    Spells ([add_inst (SMC_LD (Last + 1) 0 RAR)] ++ minprogram (act_and_harden nRAS nRP) ++ [add_inst (SMC_ADDI (Last + 1) 1 (Last + 1))])
      ([.LD 5#4 8#4 0#16, NOPS] ++ visit_words nRAS nRP ++ [.ADDI 8#4 8#4 1#16]) :=
  ((spells_pieces _ (by simp) (by simp)).append (spells_visit nRAS nRP)).append (spells_pieces _ (by simp) (by simp))

/-- A run of `act_rows` visits the rows in the order of the list. -/
theorem act_rows_run {bank : CInt} {row_ids : List CInt} {nRAS nRP : CInt} {p : Program}
    (h : act_rows bank row_ids nRAS nRP = some p) (hx : Platform.Executable p) (hne : row_ids ≠ []) (signed : Bool)
    (other : Mnemonic → Board → Board × List Cmd) (b : Board) (t : Nat) :
    ∃ s' t0 ts, ts.length = row_ids.length ∧ Halts (p.get_inst_seq.map (timed signed other).act) 0 (b, t)
      ((t0, .PRE (false, bank)) :: row_visits (false, bank) nRAS.toInt.toNat nRP.toInt.toNat (row_ids.zip ts)) s' := by
  have hlt : row_ids.length < 2048 := act_rows_length h hx
  obtain ⟨b1, t1, es1, hh, hJ⟩ : ∃ b1 t1 es1, Halts (p.get_inst_seq.map (timed signed other).act) 0 (b, t)
      (es1 ++ (time_all other [] (b1, t1)).2) (time_all other [] (b1, t1)).1 ∧
      Visiting bank row_ids nRAS.toInt.toNat nRP.toInt.toNat row_ids.length b1 es1 := by
    refine halts_timed h hx (spells_visiting_start bank (by omega)) (spells_visiting_pass nRAS nRP) spells_nil (by decide)
      (by decide) ?_ ?_ straight_nil signed other (List.length_pos_iff.2 hne)
      (fun i b _ es => Visiting bank row_ids nRAS.toInt.toNat nRP.toInt.toNat i b es) b t ?_ ?_
    · simp [straight_id_table]
    · simp [straight_visit_words]
    · exact visiting_start other (by omega) _ _ b t
    · intro i b1 t1 es1 hi hJ
      have hstep := visiting_step other hi hJ t1 rfl
      exact ⟨_, _, _, rfl, hstep, lt_counters signed other hstep.ptr hstep.num (by omega) (by omega)⟩
  obtain ⟨t0, ts, hts, hes⟩ := hJ.issued
  rw [time_all_nil, List.append_nil, hes, List.take_length] at hh
  exact ⟨_, t0, ts, hts, hh⟩

/-! ## Agreement -/

theorem length_visit_words (nRAS nRP : CInt) :
    (visit_words nRAS nRP).length = (nRAS.toInt.toNat + nRP.toInt.toNat + 31) / 4 := by
  rw [visit_words, List.length_map, Program.length_packed _ (visit_queue_msb nRAS nRP)]
  simp only [visit_queue, List.length_append, List.length_cons, List.length_replicate, List.length_nil]
  omega

/-- For short waits `act_row` is executable. -/
theorem act_row_generates (bank row_id : CInt) {nRAS nRP : CInt} (h : nRAS.toInt.toNat + nRP.toInt.toNat ≤ 2048) :
    ∃ p, act_row bank row_id nRAS nRP = some p ∧ Platform.Executable p := by
  obtain ⟨sleep3, hs3⟩ := exists_sleep (show (2 : CInt) < 3 by decide)
  have hspells := spells_act_row bank row_id nRAS nRP hs3
  unfold act_row
  rw [hs3, Option.bind_eq_bind, Option.bind_some]
  apply Program.conclude_executable hspells.block.made
  rw [hspells.length_words]
  simp only [List.length_append, length_visit_words, List.length_cons, List.length_nil]
  omega

/-- For short waits and a short list `act_rows` is executable. -/
theorem act_rows_generates (bank : CInt) {row_ids : List CInt} {nRAS nRP : CInt} (hn : row_ids.length ≤ 128)
    (h : nRAS.toInt.toNat + nRP.toInt.toNat ≤ 2048) :
    ∃ p, act_rows bank row_ids nRAS nRP = some p ∧ Platform.Executable p := by
  have hlen : (id_table row_ids).length = 2 * row_ids.length := by
    simp [id_table, List.length_flatMap, Nat.mul_comm]
  refine loop_generates (spells_visiting_start bank (by omega)) (spells_visiting_pass nRAS nRP) spells_nil (by decide)
    (by decide) ?_ _
  simp only [List.length_append, hlen, length_visit_words, List.length_cons, List.length_nil]
  omega

/-- `read_row_range` issues what `read_rows` issues for the rows of the range,
and a pass of `act_rows` what `act_row` issues, in the same slots after its
first ACT. -/
theorem row_programs_agree (bank : CInt) (signed : Bool) (other : Mnemonic → Board → Board × List Cmd) :
    (∀ start_row end_row : CInt, start_row.toInt < end_row.toInt → (signed = false → 0 ≤ start_row.toInt) →
      ∀ p q, read_row_range bank start_row end_row = some p → Platform.Executable p →
        read_rows bank (rows_between start_row end_row) = some q → Platform.Executable q →
        ∀ b : Board, ∃ es b1 b2, Halts (p.get_inst_seq.map (Board.isa signed other).act) 0 b es b1 ∧
          Halts (q.get_inst_seq.map (Board.isa signed other).act) 0 b es b2 ∧
          es = .PRE (false, bank) ::
            (rows_between start_row end_row).flatMap (read_cmds (false, bank) b.dram (columns 0 128))) ∧
    (∀ (row_ids : List CInt) (nRAS nRP : CInt), row_ids ≠ [] →
      ∀ p, act_rows bank row_ids nRAS nRP = some p → Platform.Executable p →
        ∀ (b : Board) (t : Nat), ∃ s' t0 ts, ts.length = row_ids.length ∧
          Halts (p.get_inst_seq.map (timed signed other).act) 0 (b, t)
            ((t0, .PRE (false, bank)) :: row_visits (false, bank) nRAS.toInt.toNat nRP.toInt.toNat (row_ids.zip ts)) s' ∧
          ∀ row_id ∈ row_ids, ∀ q, act_row bank row_id nRAS nRP = some q → Platform.Executable q →
            ∀ (b : Board) (t : Nat), ∃ s' t0 t1, Halts (q.get_inst_seq.map (timed signed other).act) 0 (b, t)
              ((t0, .PRE (false, bank)) :: visit (false, bank) nRAS.toInt.toNat nRP.toInt.toNat row_id t1) s') := by
  constructor
  · intro start_row end_row h hs p q hp hxp hq hxq b
    exact read_programs_agree h hs hp hxp hq hxq other b
  · intro row_ids nRAS nRP hne p hp hx b t
    obtain ⟨s', t0, ts, hts, hh⟩ := act_rows_run hp hx hne signed other b t
    exact ⟨s', t0, ts, hts, hh, fun row_id _ q hq _ b t => act_row_run hq signed other b t⟩

/-- Two rows, read and activated. -/
theorem row_programs_agree_two :
    (∃ p q, read_row_range 1 3 5 = some p ∧ read_rows 1 [3, 4] = some q ∧ ∃ es b1 b2,
      Halts (p.get_inst_seq.map (Board.isa false fun _ b => (b, [])).act) 0 .zero es b1 ∧
      Halts (q.get_inst_seq.map (Board.isa false fun _ b => (b, [])).act) 0 .zero es b2) ∧
    ∃ p q, act_rows 1 [5, 9] 3 2 = some p ∧ act_row 1 9 3 2 = some q ∧ ∃ s1 t0 ts s2 u0 u1, ts.length = 2 ∧
      Halts (p.get_inst_seq.map (timed false fun _ b => (b, [])).act) 0 (.zero, 0)
        ((t0, .PRE (false, 1)) :: row_visits (false, 1) 3 2 ([5, 9].zip ts)) s1 ∧
      Halts (q.get_inst_seq.map (timed false fun _ b => (b, [])).act) 0 (.zero, 0)
        ((u0, .PRE (false, 1)) :: visit (false, 1) 3 2 9 u1) s2 := by
  obtain ⟨hread, hact⟩ := row_programs_agree 1 false fun _ b => (b, [])
  constructor
  · -- the range has the two rows of the list
    obtain ⟨p, hp, hxp⟩ := read_row_range_generates 1 3 5
    obtain ⟨q, hq, hxq⟩ : ∃ q, read_rows 1 [3, 4] = some q ∧ Platform.Executable q := read_rows_generates 1 (by simp)
    obtain ⟨es, b1, b2, h1, h2, -⟩ := hread 3 5 (by decide) (by decide) p q hp hxp hq hxq .zero
    exact ⟨p, q, hp, hq, es, b1, b2, h1, h2⟩
  · obtain ⟨p, hp, hxp⟩ : ∃ p, act_rows 1 [5, 9] 3 2 = some p ∧ Platform.Executable p :=
      act_rows_generates 1 (by simp) (by decide)
    obtain ⟨q, hq, hxq⟩ : ∃ q, act_row 1 9 3 2 = some q ∧ Platform.Executable q := act_row_generates 1 9 (by decide)
    obtain ⟨s1, t0, ts, hts, h1, hrow⟩ := hact [5, 9] 3 2 (by simp) p hp hxp .zero 0
    obtain ⟨s2, u0, u1, h2⟩ := hrow 9 (by simp) q hq hxq .zero 0
    exact ⟨p, q, hp, hq, s1, t0, ts, s2, u0, u1, hts, h1, h2⟩

end DCT
