import Mathlib
import DramBender.Composition
import DramBender.SaveLoad
import DramBender.Sessions
/-!
# The register dump

`dump_registers` ends a program with words that write the wide data register
and the registers to a line of bank 15 and read it back; `readRegisterDump`
prints what comes. Of the DRAM only this line is lost, and all registers but
R13 to R15 are printed as the program left them (`dump_registers_exact`).
-/

namespace DCT

open DRAMBender Machine
open DRAMBender.Board
open DRAMBender.Platform (Word_t)
open Program (dump_words build)

/-! ## The words of the dump -/

/-- Every register to its place in the wide data register. -/
def ldwd_words : List Mnemonic := (List.finRange 16).map fun i => .LDWD (BitVec.ofFin i) (BitVec.ofFin i)

/-- The wide data register is written and read. -/
def line_words : List Mnemonic :=
  [only (.WR 13#4 false 15#4 false false false), NOPS, NOPS, NOPS, only (.RD 13#4 false 15#4 false false false)]

def dump_mnemonics : List Mnemonic :=
  [.LI 13#4 15#32, .LI 14#4 0#32, .LI 15#4 0#32, only (.PRE 13#4 false true false), NOPS, NOPS, NOPS,
    only (.ACT 13#4 false 14#4 false false), NOPS, NOPS] ++ line_words ++ ldwd_words ++ line_words ++
  [NOPS, NOPS, only (.PRE 13#4 false true false)]

theorem straight_dump : Straight dump_mnemonics := by
  unfold Straight
  decide

/-- The registers as they are dumped. -/
def dumped_regs (regs : Reg → CInt) : Reg → CInt :=
  Function.update (Function.update (Function.update regs 13#4 15#32) 14#4 0#32) 15#4 0#32

/-- The line that is lost: column 0 of row 0 of bank 15. -/
def dump_bank : Bank := (false, 15)

/-- The board behind the dump. -/
def dumped (b : Board) : Board where
  regs := dumped_regs b.regs
  mem := b.mem
  wide := dumped_regs b.regs
  row := Function.update b.row dump_bank 0
  dram := put_row dump_bank [0] b.dram 0 (dumped_regs b.regs)

/-- What the dump issues. -/
def dump_cmds (b : Board) : List Cmd :=
  [.PREA false, .ACT dump_bank 0, .WR dump_bank 0 false b.wide, .RD dump_bank 0 false b.wide,
    .WR dump_bank 0 false (dumped_regs b.regs), .RD dump_bank 0 false (dumped_regs b.regs), .PREA false]

section
variable (other : Mnemonic → Board → Board × List Cmd)

theorem exec_ldwd (rs : List Reg) (b : Board) : exec_all other (rs.map fun r => .LDWD r r) b =
    ({ b with wide := fun r => if r ∈ rs then b.regs r else b.wide r }, []) := by
  induction rs generalizing b with
  | nil =>
    rw [List.map_nil, exec_all_nil]
    simp
  | cons r rs ih =>
    rw [List.map_cons, exec_all_LDWD, ih]
    refine Prod.ext (congrArg (fun wide => { b with wide := wide }) (funext fun r' => ?_)) rfl
    dsimp only
    by_cases hr : r' ∈ rs
    · rw [if_pos hr, if_pos (List.mem_cons_of_mem r hr)]
    · by_cases he : r' = r
      · rw [if_neg hr, he, Function.update_self, if_pos List.mem_cons_self]
      · rw [if_neg hr, Function.update_of_ne he, if_neg (by simp [hr, he])]

theorem exec_ldwd_words (b : Board) : exec_all other ldwd_words b = ({ b with wide := b.regs }, []) := by
  have hall : ∀ r : Reg, r ∈ (List.finRange 16).map (BitVec.ofFin (w := 4)) := by decide
  have h := exec_ldwd other ((List.finRange 16).map BitVec.ofFin) b
  rw [List.map_map] at h
  have hwide : (fun r => if r ∈ (List.finRange 16).map (BitVec.ofFin (w := 4)) then b.regs r else b.wide r) = b.regs :=
    funext fun r => if_pos (hall r)
  rw [hwide] at h
  exact h

theorem issue_WR (b : Board) (bar car : Reg) : b.issue (.WR bar false car false false false) =
    ({ b with dram := put_row (false, b.regs bar) [b.regs car] b.dram (b.row (false, b.regs bar)) b.wide },
      [.WR (false, b.regs bar) (b.regs car) false b.wide]) :=
  Prod.ext (congrArg (fun dram => { b with dram := dram }) (update_eq_put_row ..)) rfl

theorem exec_line_words {b : Board} (hbar : b.regs 13#4 = 15#32) (hcar : b.regs 15#4 = 0#32) (hrow : b.row dump_bank = 0#32) :
    exec_all other line_words b = ({ b with dram := put_row dump_bank [0] b.dram 0 b.wide },
      [.WR dump_bank 0 false b.wide, .RD dump_bank 0 false b.wide]) := by
  have hbank : (false, 15#32) = dump_bank := rfl
  have hwrite := issue_WR b 13#4 15#4
  rw [hbar, hcar, hbank, hrow] at hwrite
  have hread : ∀ b : Board, b.issue (.RD 13#4 false 15#4 false false false) =
      (b, [.RD (false, b.regs 13#4) (b.regs 15#4) false (b.dram (false, b.regs 13#4) (b.row (false, b.regs 13#4)) (b.regs 15#4))]) :=
    fun _ => rfl
  rw [line_words, exec_all_only, hwrite, exec_all_NOPS, exec_all_NOPS, exec_all_NOPS, exec_all_only, hread, exec_all_nil]
  dsimp only
  rw [hbar, hcar, hbank, hrow, put_row, if_pos ⟨rfl, rfl, List.mem_singleton.2 rfl⟩]
  rfl

/-- Of two lines written to the same columns the second one stays. -/
theorem put_row_again (bank : Bank) (cols : List CInt) (cells : Cells) (row_id : CInt) (line line' : Line) :
    put_row bank cols (put_row bank cols cells row_id line) row_id line' = put_row bank cols cells row_id line' := by
  funext bk r c
  unfold put_row
  split_ifs <;> rfl

/-- The dump, on any board. -/
theorem exec_dump (b : Board) : exec_all other dump_mnemonics b = (dumped b, dump_cmds b) := by
  obtain ⟨b1, h1, hregs1, hmem1, hwide1, hrow1, hdram1⟩ : ∃ b1, exec_all other [.LI 13#4 15#32, .LI 14#4 0#32, .LI 15#4 0#32,
      only (.PRE 13#4 false true false), NOPS, NOPS, NOPS, only (.ACT 13#4 false 14#4 false false), NOPS, NOPS] b =
        (b1, [.PREA false, .ACT dump_bank 0]) ∧ b1.regs = dumped_regs b.regs ∧ b1.mem = b.mem ∧ b1.wide = b.wide ∧
        b1.row = Function.update b.row dump_bank 0 ∧ b1.dram = b.dram :=
    ⟨_, rfl, rfl, rfl, rfl, rfl, rfl⟩
  have hbar : b1.regs 13#4 = 15#32 := by simp [hregs1, dumped_regs]
  have hcar : b1.regs 15#4 = 0#32 := by simp [hregs1, dumped_regs]
  have hrow : b1.row dump_bank = 0#32 := by simp [hrow1]
  have h2 := exec_line_words other hbar hcar hrow
  have h3 := exec_ldwd_words other { b1 with dram := put_row dump_bank [0] b1.dram 0 b1.wide }
  have h4 : exec_all other line_words { b1 with dram := put_row dump_bank [0] b1.dram 0 b1.wide, wide := b1.regs } = _ :=
    exec_line_words other hbar hcar hrow
  have h5 : ∀ b : Board, exec_all other [NOPS, NOPS, only (.PRE 13#4 false true false)] b = (b, [.PREA false]) := fun _ => rfl
  rw [dump_mnemonics, exec_all_append, exec_all_append, exec_all_append, exec_all_append, h1, h2, h3, h4, h5]
  have hdram : put_row dump_bank [0] (put_row dump_bank [0] b1.dram 0 b1.wide) 0 b1.regs =
      put_row dump_bank [0] b.dram 0 (dumped_regs b.regs) := by
    rw [put_row_again, hdram1, hregs1]
  refine Prod.ext ?_ ?_
  · dsimp only
    rw [hdram, dumped, hregs1, hmem1, hrow1]
  · dsimp only
    rw [hregs1, hwide1]
    rfl

end

/-! ## A program that ends with the dump -/

theorem map_decode_dump : (dump_words.flatMap Program.emitted).map decode_inst = dump_mnemonics := by decide +kernel

theorem map_act_dump {σ ε : Type} (isa : Isa σ ε) :
    (dump_words.flatMap Program.emitted).map isa.act = (dump_mnemonics.map isa.exec).map .exec := by
  rw [← map_actOf isa straight_dump, ← map_decode_dump, List.map_map]
  rfl

section
variable {p q p' q' : Program} (hr : Program.Reach Program.Crafting p) (hq : p.dump_registers = some q)
include hq

/-- The dump is taken once. -/
theorem dump_registers_once : q.dump_registers = none := by
  rw [Program.dump_registers_some hq]
  rfl

include hr

theorem code_dump {σ ε : Type} (isa : Isa σ ε) :
    Program.code isa q = Program.code isa p ++ (dump_mnemonics.map isa.exec).map .exec := by
  obtain ⟨hl, -⟩ := Program.crafted_of_reach hr
  have hcalled : Program.Linkable { p with dumpRegsCalled := true } :=
    ⟨⟨hl.spc_eq, hl.branch, hl.label_le⟩, hl.warnings, hl.holder⟩
  rw [Program.dump_registers_some hq, Program.code_append isa hcalled, map_act_dump]
  rfl

/-- The program with the dump halts where the program does, with the dump
behind. -/
theorem halts_with_dump {σ ε : Type} (isa : Isa σ ε) (hend : Program.NoEnd p) (hp' : p.conclude = some p')
    (hq' : q.conclude = some q') (hlp : p'.program.length < 524288) (hlq : q'.program.length < 524288) {s s' : σ} {es : List ε} :
    Halts (q'.get_inst_seq.map isa.act) 0 s es s' ↔ ∃ es1 s1, Halts (p'.get_inst_seq.map isa.act) 0 s es1 s1 ∧
      es = es1 ++ (effects (dump_mnemonics.map isa.exec) s1).2 ∧ s' = (effects (dump_mnemonics.map isa.exec) s1).1 := by
  obtain ⟨hl, hc⟩ := Program.crafted_of_reach hr
  obtain ⟨hlq1, hcq⟩ := Program.crafted_of_reach (.step .dump_registers hr trivial hq)
  rw [Program.halts_image isa hlq1 hcq hq' hlq, code_dump hr hq, List.append_assoc,
    halts_straight_behind (Program.fallsThrough_code isa hl hc hend)]
  simp only [Program.halts_image isa hl hc hp' hlp]

end

/-! ## The text of a dump -/

/-- The bytes of words, little endian. -/
def bytes_of (words : List Word_t) : List (BitVec 8) :=
  words.flatMap fun w => (List.range 4).map fun i => w.extractLsb' (8 * i) 8

/-- `printf("%x", x)`. -/
def hex (n : Nat) : List Char := Nat.toDigits 16 n

/-- The first line: the bytes from the last one down. -/
def wdata_line (readData : List Word_t) : List Char :=
  "WDATA: 0x".toList ++ (bytes_of readData).reverse.flatMap fun b => hex b.toNat

def reg_line (r : Nat) (v : Word_t) : List Char := "R".toList ++ Nat.toDigits 10 r ++ ": 0x".toList ++ hex v.toNat

/-- The text `readRegisterDump` prints, and the words it leaves. -/
def readRegisterDump (ring : List Word_t) : Option (List Char × List Word_t) := do
  let (readData, ring) ← receiveData ring 64
  let wdata := wdata_line readData ++ ['\n']
  let (readData, ring) ← receiveData ring 64
  some (wdata ++ (List.range 16).flatMap (fun r => reg_line r (readData.getD r 0) ++ ['\n']), ring)

theorem receiveData_line (ring : List Word_t) :
    receiveData ring 64 = if 16 ≤ ring.length then some (ring.take 16, ring.drop 16) else none := by
  have hnum : ((64#64 / 4).setWidth 32 : CInt) = 16 := by decide
  dsimp only [receiveData]
  change (if ((64#64 / 4).setWidth 32 : CInt).slt 0 then none else _) = _
  rw [hnum]
  rfl

/-- The lines of a dump. -/
def dump_lines (wdata regs : List Word_t) : List (List Char) :=
  wdata_line wdata :: (List.range 16).map fun r => reg_line r (regs.getD r 0)

theorem readRegisterDump_eq {wdata regs : List Word_t} (hw : wdata.length = 16) (hr : regs.length = 16) (rest : List Word_t) :
    readRegisterDump (wdata ++ (regs ++ rest)) = some (Files.unlines (dump_lines wdata regs), rest) := by
  have h1 : receiveData (wdata ++ (regs ++ rest)) 64 = some (wdata, regs ++ rest) := by
    rw [receiveData_line, if_pos (by simp [hw]), List.take_left' hw, List.drop_left' hw]
  have h2 : receiveData (regs ++ rest) 64 = some (regs, rest) := by
    rw [receiveData_line, if_pos (by simp [hr]), List.take_left' hr, List.drop_left' hr]
  simp only [readRegisterDump, h1, h2, Option.bind_eq_bind, Option.bind_some]
  rw [Files.unlines, dump_lines, List.flatMap_cons, List.flatMap_map]

theorem newline_hex (n : Nat) : '\n' ∉ hex n := by
  intro h
  obtain ⟨d, hd, he⟩ := Files.mem_toDigits (by decide) h
  have hall : ∀ d < 16, '\n' ≠ d.digitChar := by decide
  exact hall d hd he

theorem newline_wdata_line (wdata : List Word_t) : '\n' ∉ wdata_line wdata := by
  have hlabel : '\n' ∉ "WDATA: 0x".toList := by simp
  intro h
  rcases List.mem_append.1 h with h | h
  · exact hlabel h
  · obtain ⟨b, -, hb⟩ := List.mem_flatMap.1 h
    exact newline_hex _ hb

theorem newline_reg_line (r : Nat) (v : Word_t) : '\n' ∉ reg_line r v := by
  have hr : '\n' ∉ Nat.toDigits 10 r := Program.not_mem_toDigits (by decide) r
  have hv : '\n' ∉ hex v.toNat := newline_hex _
  have hlabel : '\n' ∉ "R".toList ∧ '\n' ∉ ": 0x".toList := by simp
  rw [reg_line, List.mem_append, List.mem_append, List.mem_append]
  tauto

theorem newline_dump_lines (wdata regs : List Word_t) : ∀ l ∈ dump_lines wdata regs, '\n' ∉ l := by
  rw [dump_lines, List.forall_mem_cons, List.forall_mem_map]
  exact ⟨newline_wdata_line wdata, fun r _ => newline_reg_line r _⟩

theorem reg_line_inj {r : Nat} {v v' : Word_t} (h : reg_line r v = reg_line r v') : v = v' :=
  BitVec.eq_of_toNat_eq (Files.toDigits_injective (by decide) (by decide) (List.append_cancel_left h))

/-- Two dumps print the same text exactly for the same registers and the same
first line. -/
theorem dump_text_iff (wdata wdata' regs regs' : List Word_t) :
    Files.unlines (dump_lines wdata regs) = Files.unlines (dump_lines wdata' regs') ↔
      wdata_line wdata = wdata_line wdata' ∧ ∀ r < 16, regs.getD r 0 = regs'.getD r 0 := by
  have hlines : Files.unlines (dump_lines wdata regs) = Files.unlines (dump_lines wdata' regs') ↔
      dump_lines wdata regs = dump_lines wdata' regs' := by
    refine ⟨fun h => ?_, congrArg _⟩
    rw [← Files.getlines_unlines (newline_dump_lines wdata regs), h, Files.getlines_unlines (newline_dump_lines wdata' regs')]
  rw [hlines, dump_lines, dump_lines, List.cons.injEq, List.map_inj_left]
  refine and_congr_right fun _ => forall_congr' fun r => ?_
  rw [List.mem_range]
  exact imp_congr_right fun _ => ⟨reg_line_inj, fun h => by rw [h]⟩

/-! ## The dump of a program -/

/-- A line as it comes back. -/
def line_back (line : Line) : List Word_t := (List.finRange 16).map fun i => line (BitVec.ofFin i)

theorem readback_dump (b : Board) : readback (dump_cmds b) = line_back b.wide ++ line_back (dumped_regs b.regs) := rfl

theorem getD_line_back (line : Line) {r : Nat} (hr : r < 16) : (line_back line).getD r 0 = line (BitVec.ofNat 4 r) := by
  rw [List.getD_eq_getElem?_getD, line_back, List.getElem?_map, List.getElem?_eq_getElem (by rwa [List.length_finRange]),
    List.getElem_finRange, Option.map_some, Option.getD_some]
  refine congrArg line (BitVec.eq_of_toNat_eq ?_)
  rw [BitVec.toNat_ofNat, Nat.mod_eq_of_lt (by omega)]
  rfl

theorem dumped_regs_of_ne (regs : Reg → CInt) {r : Reg} (h13 : r ≠ 13#4) (h14 : r ≠ 14#4) (h15 : r ≠ 15#4) :
    dumped_regs regs r = regs r := by
  rw [dumped_regs, Function.update_of_ne h15, Function.update_of_ne h14, Function.update_of_ne h13]

/-- What the dump changes on a board. -/
theorem dumped_spec (b : Board) : (dumped b).mem = b.mem ∧
    (∀ r, r ≠ 13#4 → r ≠ 14#4 → r ≠ 15#4 → (dumped b).regs r = b.regs r) ∧
    ∀ bank row col, ¬ (bank = dump_bank ∧ row = 0 ∧ col = 0) → (dumped b).dram bank row col = b.dram bank row col := by
  refine ⟨rfl, fun r h13 h14 h15 => dumped_regs_of_ne b.regs h13 h14 h15, fun bank row col h => ?_⟩
  change put_row dump_bank [0] b.dram 0 (dumped_regs b.regs) bank row col = _
  rw [put_row, if_neg fun hc => h ⟨hc.1, hc.2.1, List.mem_singleton.1 hc.2.2⟩]

/-- A program takes the dump once. It then does what it did without, and the
dump behind that: of its memory nothing is lost, of its registers R13 to R15 and
of the DRAM one line, and what it reads back is followed by the wide data
register and the registers. -/
theorem dump_registers_exact (signed : Bool) (other : Mnemonic → Board → Board × List Cmd) {p q p' q' : Program}
    (hr : Program.Reach Program.Crafting p) (hend : Program.NoEnd p) (hp' : p.conclude = some p')
    (hq : p.dump_registers = some q) (hq' : q.conclude = some q') (hlp : p'.program.length < 524288)
    (hlq : q'.program.length < 524288) :
    q.dump_registers = none ∧ ∀ b es b',
      Halts (q'.get_inst_seq.map (isa signed other).act) 0 b es b' ↔
        ∃ es1 b1, Halts (p'.get_inst_seq.map (isa signed other).act) 0 b es1 b1 ∧ es = es1 ++ dump_cmds b1 ∧ b' = dumped b1 ∧
          b'.mem = b1.mem ∧ (∀ r, r ≠ 13#4 → r ≠ 14#4 → r ≠ 15#4 → b'.regs r = b1.regs r) ∧
          (∀ bank row col, ¬ (bank = dump_bank ∧ row = 0 ∧ col = 0) → b'.dram bank row col = b1.dram bank row col) ∧
          readback es = readback es1 ++ (line_back b1.wide ++ line_back (dumped_regs b1.regs)) := by
  refine ⟨dump_registers_once hq, fun b es b' => ?_⟩
  have hdump : ∀ b1, effects (dump_mnemonics.map (isa signed other).exec) b1 = (dumped b1, dump_cmds b1) := exec_dump other
  rw [halts_with_dump hr hq (isa signed other) hend hp' hq' hlp hlq]
  refine exists₂_congr fun es1 b1 => and_congr_right fun _ => ?_
  rw [hdump]
  constructor
  · rintro ⟨rfl, rfl⟩
    obtain ⟨hmem, hregs, hdram⟩ := dumped_spec b1
    exact ⟨rfl, rfl, hmem, hregs, hdram, by rw [Request.readback_append, readback_dump]⟩
  · rintro ⟨rfl, rfl, -⟩
    exact ⟨rfl, rfl⟩

/-- The dump behind a loop. -/
theorem dump_registers_readLoop : ∃ p' q q', (build Program.readLoop).conclude = some p' ∧
    (build Program.readLoop).dump_registers = some q ∧ q.conclude = some q' ∧ q.dump_registers = none ∧
    ∀ b es b', Halts (q'.get_inst_seq.map (isa true told).act) 0 b es b' →
      ∃ es1 b1, Halts (p'.get_inst_seq.map (isa true told).act) 0 b es1 b1 ∧
        readback es = readback es1 ++ (line_back b1.wide ++ line_back (dumped_regs b1.regs)) := by
  have hr := Program.reach_crafting Program.readLoop_wellMade
  have hp : ((build Program.readLoop).conclude.map fun p => p.program.length) = some 4 := by decide
  obtain ⟨p', hp', hlp⟩ := Option.map_eq_some_iff.1 hp
  obtain ⟨q, hq⟩ : ∃ q, (build Program.readLoop).dump_registers = some q := ⟨_, rfl⟩
  have hrq : Program.Reach Program.Crafting q := .step .dump_registers hr trivial hq
  obtain ⟨hlq, -⟩ := Program.crafted_of_reach hrq
  obtain ⟨q', r, hq', rfl, hprocessed⟩ := Program.conclude_spec hlq
  have hlen : q.program.length = 2 + dump_mnemonics.length := by
    rw [Program.dump_registers_some hq, Program.append, List.length_append, ← map_decode_dump, List.length_map]
    rfl
  -- at most one INFO for every word
  have himage : r.program.length < 524288 := by
    have hlength : r.program.length = Insert.entry q.concludeMark (q.append [SMC_END]).program.length :=
      Program.length_processed hprocessed
    rw [Program.append, List.length_append, hlen, Insert.entry] at hlength
    have hbefore : Insert.before q.concludeMark (2 + dump_mnemonics.length + 1) ≤ 2 + dump_mnemonics.length + 1 := Nat.count_le _
    have hdump : dump_mnemonics.length = 39 := rfl
    rw [List.length_singleton] at hlength
    omega
  obtain ⟨hnone, hruns⟩ := dump_registers_exact true told hr Program.noEnd_readLoop hp' hq hq' (by omega) himage
  refine ⟨p', q, _, hp', hq, hq', hnone, fun b es b' h => ?_⟩
  obtain ⟨es1, b1, hh, -, -, -, -, -, hback⟩ := (hruns b es b').1 h
  exact ⟨es1, b1, hh, hback⟩

/-- The text printed for a dump tells the registers R0 to R12. The first line
does not tell the wide data register: its bytes are printed without leading
zeros. -/
theorem register_dump_tells :
    (∀ (b : Board) rest, ∃ text, readRegisterDump (readback (dump_cmds b) ++ rest) = some (text, rest) ∧
      ∀ (b' : Board) rest', readRegisterDump (readback (dump_cmds b') ++ rest') = some (text, rest') ↔
        (∀ r : Reg, r < 13 → b'.regs r = b.regs r) ∧ wdata_line (line_back b'.wide) = wdata_line (line_back b.wide)) ∧
    ∃ line line' : Line, line ≠ line' ∧ wdata_line (line_back line) = wdata_line (line_back line') := by
  have hprint : ∀ (b : Board) rest, readRegisterDump (readback (dump_cmds b) ++ rest) =
      some (Files.unlines (dump_lines (line_back b.wide) (line_back (dumped_regs b.regs))), rest) := by
    intro b rest
    rw [readback_dump, List.append_assoc]
    exact readRegisterDump_eq rfl rfl rest
  refine ⟨fun b rest => ⟨_, hprint b rest, fun b' rest' => ?_⟩, ?_⟩
  · have hregs : (∀ r < 16, (line_back (dumped_regs b'.regs)).getD r 0 = (line_back (dumped_regs b.regs)).getD r 0) ↔
        ∀ r : Reg, r < 13 → b'.regs r = b.regs r := by
      constructor
      · intro h r hr
        have hne : r ≠ 13#4 ∧ r ≠ 14#4 ∧ r ≠ 15#4 := by
          revert r
          decide
        have h' := h r.toNat r.isLt
        rwa [getD_line_back _ r.isLt, getD_line_back _ r.isLt, BitVec.ofNat_toNat, BitVec.setWidth_eq,
          dumped_regs_of_ne _ hne.1 hne.2.1 hne.2.2, dumped_regs_of_ne _ hne.1 hne.2.1 hne.2.2] at h'
      · intro h r hr
        rw [getD_line_back _ hr, getD_line_back _ hr]
        generalize BitVec.ofNat 4 r = r
        unfold dumped_regs Function.update
        split_ifs with h15 h14 h13
        · rfl
        · rfl
        · rfl
        · refine h r ?_
          revert r
          decide
    rw [hprint, Option.some.injEq, Prod.mk.injEq, and_iff_left rfl, dump_text_iff, hregs, and_comm]
  · refine ⟨Function.update 0 0 0x0112#32, Function.update 0 0 0x1102#32, fun h => ?_, by decide +kernel⟩
    have h0 := congrFun h 0
    rw [Function.update_self, Function.update_self] at h0
    exact absurd h0 (by decide)

end DCT
