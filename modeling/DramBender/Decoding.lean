import Mathlib
import DramBender.Encoding
/-!
# Decoding undoes encoding

What the decoder shows of an encoder call (`Mini.shown`, `Asm.shown`), and the
call read back from a word (`Mnemonic.call`). Only the words of `ADD` of register
0 to itself and of `END` are the same.
-/

namespace DRAMBender

/-! ## The layout of a mini instruction -/

/-- A command code, four flags, and two register numbers. -/
def ddrWord (code : BitVec 4) (b11 b10 b9 b8 : Bool) (high low : Reg) : Mininst :=
  code.setWidth 16 <<< 12 ||| (BitVec.ofBool b11).setWidth 16 <<< 11 ||| (BitVec.ofBool b10).setWidth 16 <<< 10 |||
    (BitVec.ofBool b9).setWidth 16 <<< 9 ||| (BitVec.ofBool b8).setWidth 16 <<< 8 ||| high.setWidth 16 <<< 4 ||| low.setWidth 16

section
variable (code : BitVec 4) (b11 b10 b9 b8 : Bool) (high low : Reg)

theorem ddrWord_code : ddrWord code b11 b10 b9 b8 high low >>> 12 = code.setWidth 16 := by
  ext i h
  simp [ddrWord]
  grind

theorem ddrWord_high : (ddrWord code b11 b10 b9 b8 high low >>> 4).setWidth 4 = high := by
  ext i h
  simp [ddrWord]
  grind

theorem ddrWord_low : (ddrWord code b11 b10 b9 b8 high low).setWidth 4 = low := by
  ext i h
  simp [ddrWord]

theorem ddrWord_flags :
    (ddrWord code b11 b10 b9 b8 high low).getLsbD 11 = b11 ∧ (ddrWord code b11 b10 b9 b8 high low).getLsbD 10 = b10 ∧
      (ddrWord code b11 b10 b9 b8 high low).getLsbD 9 = b9 ∧ (ddrWord code b11 b10 b9 b8 high low).getLsbD 8 = b8 := by
  simp [ddrWord]

end

/-! ## Operands -/

/-- A flag as a C operand. -/
def flag (b : Bool) : CInt := (BitVec.ofBool b).setWidth 32

theorem exists_flag {x : CInt} (h : x < 2) : ∃ b, x = flag b := by
  have hx : x = 0 ∨ x = 1 := by bv_omega
  obtain rfl | rfl := hx
  · exact ⟨false, rfl⟩
  · exact ⟨true, rfl⟩

/-- An operand in its field. -/
theorem field {n : Nat} (x : BitVec n) (k : Nat) : (x.setWidth 32 <<< k).setWidth 16 = x.setWidth 16 <<< k := by
  rw [BitVec.setWidth_shiftLeft_of_le (by decide), BitVec.setWidth_setWidth_of_le _ (by decide)]

theorem low_field {n : Nat} (x : BitVec n) : (x.setWidth 32).setWidth 16 = x.setWidth 16 :=
  BitVec.setWidth_setWidth_of_le _ (by decide)

section
variable (bar car rar : Reg) (ibar icar irar pall rank ap : Bool)

theorem SMC_WRITE_word : SMC_WRITE (bar.setWidth 32) (flag ibar) (car.setWidth 32) (flag icar) (flag rank) (flag ap) =
    ddrWord 8 icar ibar ap rank car bar := by
  have hcode : (8 : Mininst) <<< 12 = (8 : BitVec 4).setWidth 16 <<< 12 := rfl
  simp only [SMC_WRITE, ddrWord, flag, field, low_field, hcode]
  ac_rfl

theorem SMC_READ_word : SMC_READ (bar.setWidth 32) (flag ibar) (car.setWidth 32) (flag icar) (flag rank) (flag ap) =
    ddrWord 9 icar ibar ap rank car bar := by
  have hcode : (9 : Mininst) <<< 12 = (9 : BitVec 4).setWidth 16 <<< 12 := rfl
  simp only [SMC_READ, ddrWord, flag, field, low_field, hcode]
  ac_rfl

theorem SMC_PRE_word : SMC_PRE (bar.setWidth 32) (flag ibar) (flag pall) (flag rank) =
    ddrWord 10 pall ibar false rank 0 bar := by
  have hcode : (10 : Mininst) <<< 12 = (10 : BitVec 4).setWidth 16 <<< 12 := rfl
  have hap : (BitVec.ofBool false).setWidth 16 <<< 9 = (0 : Mininst) := rfl
  have hcar : (0 : Reg).setWidth 16 <<< 4 = (0 : Mininst) := rfl
  simp only [SMC_PRE, ddrWord, flag, field, low_field, hcode, hap, hcar]
  ac_rfl

theorem SMC_ACT_word : SMC_ACT (bar.setWidth 32) (flag ibar) (rar.setWidth 32) (flag irar) (flag rank) =
    ddrWord 11 irar ibar false rank rar bar := by
  have hcode : (11 : Mininst) <<< 12 = (11 : BitVec 4).setWidth 16 <<< 12 := rfl
  have hap : (BitVec.ofBool false).setWidth 16 <<< 9 = (0 : Mininst) := rfl
  simp only [SMC_ACT, ddrWord, flag, field, low_field, hcode, hap]
  ac_rfl

/-- The channel takes both low nibbles. -/
theorem SMC_SEL_CH_word (channel : BitVec 8) : SMC_SEL_CH (channel.setWidth 32) (flag rank) =
    ddrWord 12 false false false rank ((channel >>> 4).setWidth 4) (channel.setWidth 4) := by
  have hcode : (12 : Mininst) <<< 12 = (12 : BitVec 4).setWidth 16 <<< 12 := rfl
  have hchannel : channel.setWidth 16 =
      ((channel >>> 4).setWidth 4).setWidth 16 <<< 4 ||| (channel.setWidth 4).setWidth 16 := by
    ext i h
    simp
    grind
  have hflag : ∀ k : Nat, (BitVec.ofBool false).setWidth 16 <<< k = (0 : Mininst) := by simp
  simp only [SMC_SEL_CH, ddrWord, flag, field, low_field, hcode, hchannel, hflag]
  ac_rfl

theorem SMC_REF_word : SMC_REF (flag rank) = ddrWord 13 false false false rank 0 0 := by
  cases rank <;> rfl

theorem SMC_NOP_word : SMC_NOP (flag rank) = ddrWord 15 false false false rank 0 0 := by
  cases rank <;> rfl

end

/-! ## Reading a mini instruction back -/

/-- What the decoder shows of a DDR encoder call. -/
def Mini.shown : Mini → Ddr
  | WRITE bar ibar car icar rank ap =>
    .WR (bar.setWidth 4) (ibar.getLsbD 0) (car.setWidth 4) (icar.getLsbD 0) (ap.getLsbD 0) (rank.getLsbD 0)
  | READ bar ibar car icar rank ap =>
    .RD (bar.setWidth 4) (ibar.getLsbD 0) (car.setWidth 4) (icar.getLsbD 0) (ap.getLsbD 0) (rank.getLsbD 0)
  | PRE bar ibar pall rank => .PRE (bar.setWidth 4) (ibar.getLsbD 0) (pall.getLsbD 0) (rank.getLsbD 0)
  | ACT bar ibar rar irar rank =>
    .ACT (bar.setWidth 4) (ibar.getLsbD 0) (rar.setWidth 4) (irar.getLsbD 0) (rank.getLsbD 0)
  | SEL_CH _ pseudo_channel => .SEL_CH (pseudo_channel.getLsbD 0)
  | REF rank => .REF (rank.getLsbD 0)
  | NOP rank => .NOP (rank.getLsbD 0)

/-- Operands that fit their fields; the channel has eight bits. -/
def Mini.Fits : Mini → Prop
  | SEL_CH channel pseudo_channel => channel < 256 ∧ pseudo_channel < 2
  | m => m.InRange

/-- The call behind a mini instruction: the channel, which the decoder does not
show, is in the low bits. -/
def Ddr.call (i : Mininst) : Ddr → Mini
  | .WR bar ibar car icar ap rank => .WRITE (bar.setWidth 32) (flag ibar) (car.setWidth 32) (flag icar) (flag rank) (flag ap)
  | .RD bar ibar car icar ap rank => .READ (bar.setWidth 32) (flag ibar) (car.setWidth 32) (flag icar) (flag rank) (flag ap)
  | .PRE bar ibar pall rank => .PRE (bar.setWidth 32) (flag ibar) (flag pall) (flag rank)
  | .ACT bar ibar rar irar rank => .ACT (bar.setWidth 32) (flag ibar) (rar.setWidth 32) (flag irar) (flag rank)
  | .SEL_CH rank => .SEL_CH ((i.setWidth 8).setWidth 32) (flag rank)
  | .REF rank => .REF (flag rank)
  | .NOP rank => .NOP (flag rank)
  | .skip => .NOP 0

theorem flag_getLsbD (b : Bool) : (flag b).getLsbD 0 = b := by
  cases b <;> rfl

theorem reg_back (q : Reg) : (q.setWidth 32).setWidth 4 = q := by
  ext i h
  simp

theorem channel_back (rank : Bool) (channel : BitVec 8) :
    (ddrWord 12 false false false rank ((channel >>> 4).setWidth 4) (channel.setWidth 4)).setWidth 8 = channel := by
  ext i h
  simp [ddrWord]
  grind

theorem exists_channel {channel : CInt} (h : channel < 256) : ∃ q : BitVec 8, channel = q.setWidth 32 :=
  ⟨channel.setWidth 8, by bv_omega⟩

/-- The decoder shows the mnemonic and the operands of a mini instruction, and
the call can be read back. -/
theorem Mini.decode_encode (m : Mini) (h : m.Fits) : decode_ddr m.encode = m.shown ∧ m.shown.call m.encode = m := by
  cases m with
  | WRITE bar ibar car icar rank ap =>
    obtain ⟨h1, h2, h3, h4, h5, h6⟩ := h
    obtain ⟨⟨bar, rfl⟩, ⟨ibar, rfl⟩, ⟨car, rfl⟩⟩ := and3 exists_reg exists_flag exists_reg ⟨h1, h2, h3⟩
    obtain ⟨⟨icar, rfl⟩, ⟨rank, rfl⟩, ⟨ap, rfl⟩⟩ := and3 exists_flag exists_flag exists_flag ⟨h4, h5, h6⟩
    rw [Mini.encode, SMC_WRITE_word, Mini.shown, reg_back, reg_back]
    simp only [flag_getLsbD, decode_ddr, ddrWord_code, ddrWord_high, ddrWord_low, ddrWord_flags]
    exact ⟨rfl, rfl⟩
  | READ bar ibar car icar rank ap =>
    obtain ⟨h1, h2, h3, h4, h5, h6⟩ := h
    obtain ⟨⟨bar, rfl⟩, ⟨ibar, rfl⟩, ⟨car, rfl⟩⟩ := and3 exists_reg exists_flag exists_reg ⟨h1, h2, h3⟩
    obtain ⟨⟨icar, rfl⟩, ⟨rank, rfl⟩, ⟨ap, rfl⟩⟩ := and3 exists_flag exists_flag exists_flag ⟨h4, h5, h6⟩
    rw [Mini.encode, SMC_READ_word, Mini.shown, reg_back, reg_back]
    simp only [flag_getLsbD, decode_ddr, ddrWord_code, ddrWord_high, ddrWord_low, ddrWord_flags]
    exact ⟨rfl, rfl⟩
  | PRE bar ibar pall rank =>
    obtain ⟨h1, h2, h3, h4⟩ := h
    obtain ⟨⟨bar, rfl⟩, ⟨ibar, rfl⟩, ⟨pall, rfl⟩⟩ := and3 exists_reg exists_flag exists_flag ⟨h1, h2, h3⟩
    obtain ⟨rank, rfl⟩ := exists_flag h4
    rw [Mini.encode, SMC_PRE_word, Mini.shown, reg_back]
    simp only [flag_getLsbD, decode_ddr, ddrWord_code, ddrWord_low, ddrWord_flags]
    exact ⟨rfl, rfl⟩
  | ACT bar ibar rar irar rank =>
    obtain ⟨h1, h2, h3, h4, h5⟩ := h
    obtain ⟨⟨bar, rfl⟩, ⟨ibar, rfl⟩, ⟨rar, rfl⟩⟩ := and3 exists_reg exists_flag exists_reg ⟨h1, h2, h3⟩
    obtain ⟨⟨irar, rfl⟩, ⟨rank, rfl⟩⟩ := And.imp exists_flag exists_flag ⟨h4, h5⟩
    rw [Mini.encode, SMC_ACT_word, Mini.shown, reg_back, reg_back]
    simp only [flag_getLsbD, decode_ddr, ddrWord_code, ddrWord_high, ddrWord_low, ddrWord_flags]
    exact ⟨rfl, rfl⟩
  | SEL_CH channel pseudo_channel =>
    obtain ⟨⟨channel, rfl⟩, ⟨rank, rfl⟩⟩ := And.imp exists_channel exists_flag h
    rw [Mini.encode, SMC_SEL_CH_word, Mini.shown]
    simp only [flag_getLsbD, decode_ddr, ddrWord_code, ddrWord_flags, Ddr.call, channel_back]
    exact ⟨rfl, trivial⟩
  | REF rank =>
    obtain ⟨rank, rfl⟩ := exists_flag h
    rw [Mini.encode, SMC_REF_word, Mini.shown]
    simp only [flag_getLsbD, decode_ddr, ddrWord_code, ddrWord_flags]
    exact ⟨rfl, rfl⟩
  | NOP rank =>
    obtain ⟨rank, rfl⟩ := exists_flag h
    rw [Mini.encode, SMC_NOP_word, Mini.shown]
    simp only [flag_getLsbD, decode_ddr, ddrWord_code, ddrWord_flags]
    exact ⟨rfl, rfl⟩

/-! ## Reading a word back -/

/-- What the decoder shows of an encoder call. -/
def Asm.shown : Asm → Mnemonic
  | ADD rs1 rs2 rt => if rs1 = 0 ∧ rs2 = 0 ∧ rt = 0 then .END else .ADD (rt.setWidth 4) (rs1.setWidth 4) (rs2.setWidth 4)
  | ADDI rs1 imd rt => .ADDI (rt.setWidth 4) (rs1.setWidth 4) (imd.setWidth 16)
  | SUB rs1 rs2 rt => .SUB (rt.setWidth 4) (rs1.setWidth 4) (rs2.setWidth 4)
  | SUBI rs1 imd rt => .SUBI (rt.setWidth 4) (rs1.setWidth 4) (imd.setWidth 16)
  | LI imd rt => .LI (rt.setWidth 4) imd
  | MV rs1 rt => .MOV (rt.setWidth 4) (rs1.setWidth 4)
  | SRC rs1 rt => .SRC (rt.setWidth 4) (rs1.setWidth 4)
  | LDWD rs1 off => .LDWD (off.setWidth 4) (rs1.setWidth 4)
  | LDPC pc_type rt => .LDPC (rt.setWidth 4) pc_type
  | BL rs1 rs2 tgt => .BL (tgt.setWidth 19) (rs1.setWidth 4) (rs2.setWidth 4)
  | BEQ rs1 rs2 tgt => .BEQ (tgt.setWidth 19) (rs1.setWidth 4) (rs2.setWidth 4)
  | JUMP tgt => .JUMP (tgt.setWidth 27)
  | SLEEP samt _ => .SLEEP (samt - 2)
  | LD rb offset rt => .LD (rt.setWidth 4) (rb.setWidth 4) (offset.setWidth 16)
  | ST rb offset rv => .ST (rb.setWidth 4) (offset.setWidth 16) (rv.setWidth 4)
  | AND rs1 rs2 rt => .AND (rt.setWidth 4) (rs1.setWidth 4) (rs2.setWidth 4)
  | OR rs1 rs2 rt => .OR (rt.setWidth 4) (rs1.setWidth 4) (rs2.setWidth 4)
  | XOR rs1 rs2 rt => .XOR (rt.setWidth 4) (rs1.setWidth 4) (rs2.setWidth 4)
  | END => .END
  | INFO _ => .INFO
  | SRE => .SRE
  | SRX => .SRX
  | pack i1 i2 i3 i4 => .DDR i1.shown i2.shown i3.shown i4.shown

/-- Operands that fit their fields. -/
def Asm.Fits : Asm → Prop
  | pack i1 i2 i3 i4 => i1.Fits ∧ i2.Fits ∧ i3.Fits ∧ i4.Fits
  | a => a.InRange

/-- The call behind a word: the read count of an INFO and the channels of the
mini instructions are in its bits. -/
def Mnemonic.call (w : Inst) : Mnemonic → Asm
  | .DDR s0 s1 s2 s3 => .pack (s0.call (slot w 0)) (s1.call (slot w 1)) (s2.call (slot w 2)) (s3.call (slot w 3))
  | .END => .END
  | .ADD rt rs1 rs2 => .ADD (rs1.setWidth 32) (rs2.setWidth 32) (rt.setWidth 32)
  | .ADDI rt rs1 imd1 => .ADDI (rs1.setWidth 32) (imd1.setWidth 32) (rt.setWidth 32)
  | .SUB rt rs1 rs2 => .SUB (rs1.setWidth 32) (rs2.setWidth 32) (rt.setWidth 32)
  | .SUBI rt rs1 imd1 => .SUBI (rs1.setWidth 32) (imd1.setWidth 32) (rt.setWidth 32)
  | .MOV rt rs1 => .MV (rs1.setWidth 32) (rt.setWidth 32)
  | .LI rt imd_concat => .LI imd_concat (rt.setWidth 32)
  | .SRC rt rs1 => .SRC (rs1.setWidth 32) (rt.setWidth 32)
  | .LDWD rt rs1 => .LDWD (rs1.setWidth 32) (rt.setWidth 32)
  | .LDPC rt counter => .LDPC counter (rt.setWidth 32)
  | .SRE => .SRE
  | .SRX => .SRX
  | .BL bt rs1 rs2 => .BL (rs1.setWidth 32) (rs2.setWidth 32) (bt.setWidth 32)
  | .BEQ bt rs1 rs2 => .BEQ (rs1.setWidth 32) (rs2.setWidth 32) (bt.setWidth 32)
  | .JUMP jt => .JUMP (jt.setWidth 32)
  | .SLEEP samt => if h : 2 < samt + 2 then .SLEEP (samt + 2) h else .END
  | .INFO => .INFO (w.setWidth 32)
  | .LD rt rs1 imd1 => .LD (rs1.setWidth 32) (imd1.setWidth 32) (rt.setWidth 32)
  | .ST rs1 imd1 rt => .ST (rs1.setWidth 32) (imd1.setWidth 32) (rt.setWidth 32)
  | .AND rt rs1 rs2 => .AND (rs1.setWidth 32) (rs2.setWidth 32) (rt.setWidth 32)
  | .OR rt rs1 rs2 => .OR (rs1.setWidth 32) (rs2.setWidth 32) (rt.setWidth 32)
  | .XOR rt rs1 rs2 => .XOR (rs1.setWidth 32) (rs2.setWidth 32) (rt.setWidth 32)
  | .skip => .END

theorem imm_back (m : BitVec 16) : (m.setWidth 32).setWidth 16 = m := by
  ext i h
  simp

theorem tgt_back (t : BitVec 19) : (t.setWidth 32).setWidth 19 = t := by
  ext i h
  simp

theorem jtgt_back (t : BitVec 27) : (t.setWidth 32).setWidth 27 = t := by
  ext i h
  simp

theorem rs2_back (q : Reg) : (q.setWidth 16).setWidth 4 = q := by
  ext i h
  simp

/-- Only the word of `ADD` of register 0 to itself is 0. -/
theorem exe_eq_zero_iff (rt rs2 rs1 : Reg) : exe 0 0 rt (rs2.setWidth 16) rs1 = 0 ↔ rs1 = 0 ∧ rs2 = 0 ∧ rt = 0 := by
  constructor
  · intro h
    have h1 := exe_rs1 0 0 rt (rs2.setWidth 16) rs1
    have h2 := exe_rs2 0 0 rt (rs2.setWidth 16) rs1
    have ht := exe_rt 0 0 rt (rs2.setWidth 16) rs1
    rw [h] at h1 h2 ht
    rw [rs2_back] at h2
    exact ⟨h1.symm, h2.symm, ht.symm⟩
  · rintro ⟨rfl, rfl, rfl⟩
    rfl

theorem reg_eq_zero_iff (q : Reg) : q.setWidth 32 = (0 : CInt) ↔ q = 0 := by
  constructor
  · intro h
    have hq := congrArg (BitVec.setWidth 4) h
    rwa [reg_back] at hq
  · rintro rfl
    rfl

theorem decode_SMC_ADD (rs1 rs2 rt : Reg) : decode_inst (SMC_ADD (rs1.setWidth 32) (rs2.setWidth 32) (rt.setWidth 32)) =
    if rs1 = 0 ∧ rs2 = 0 ∧ rt = 0 then .END else .ADD rt rs1 rs2 := by
  have harit : ∀ w : Inst, w >>> 48 = 0 → decode_inst w = if w = 0 then .END else .ADD (Inst.rt w) (Inst.rs1 w) (Inst.rs2 w) := by
    intro w hw
    simp [decode_inst, decode_arit, is_ddr_eq, op_code_eq, Inst.fu_code, hw]
  rw [SMC_ADD_exe, harit _ (exe_top 0 0 rt _ rs1), exe_rt, exe_rs1, exe_rs2, rs2_back]
  simp only [exe_eq_zero_iff]

theorem SMC_INFO_count (rdcnt : CInt) : (SMC_INFO rdcnt).setWidth 32 = rdcnt := by
  ext i h
  simp [SMC_INFO, BitVec.getLsbD_signExtend, h]
  grind

/-- The decoder shows the mnemonic and the operands of a word, and the call can
be read back, unless it is the `ADD` that is the same word as `END`. -/
theorem Asm.decode_encode (a : Asm) (h : a.Fits) :
    decode_inst a.encode = a.shown ∧ (a = .ADD 0 0 0 ∨ a.shown.call a.encode = a) := by
  cases a with
  | ADD rs1 rs2 rt =>
    obtain ⟨⟨rs1, rfl⟩, ⟨rs2, rfl⟩, ⟨rt, rfl⟩⟩ := and3 exists_reg exists_reg exists_reg h
    rw [Asm.encode, decode_SMC_ADD, Asm.shown]
    simp only [reg_eq_zero_iff, reg_back]
    refine ⟨trivial, ?_⟩
    split
    · next hz =>
      obtain ⟨rfl, rfl, rfl⟩ := hz
      exact .inl rfl
    · exact .inr rfl
  | SUB rs1 rs2 rt =>
    obtain ⟨⟨rs1, rfl⟩, ⟨rs2, rfl⟩, ⟨rt, rfl⟩⟩ := and3 exists_reg exists_reg exists_reg h
    rw [Asm.encode, SMC_SUB_exe, Asm.shown]
    simp only [reg_back]
    exact ⟨by simp [decode_inst, decode_arit, is_ddr_eq, op_code_eq, Inst.fu_code], .inr rfl⟩
  | ADDI rs1 imd rt =>
    obtain ⟨⟨rs1, rfl⟩, ⟨m, rfl⟩, ⟨rt, rfl⟩⟩ := and3 exists_reg exists_imm exists_reg h
    rw [Asm.encode, SMC_ADDI_exe, Asm.shown]
    simp only [reg_back, imm_back]
    exact ⟨by simp [decode_inst, decode_arit, is_ddr_eq, op_code_eq, Inst.fu_code], .inr rfl⟩
  | SUBI rs1 imd rt =>
    obtain ⟨⟨rs1, rfl⟩, ⟨m, rfl⟩, ⟨rt, rfl⟩⟩ := and3 exists_reg exists_imm exists_reg h
    rw [Asm.encode, SMC_SUBI_exe, Asm.shown]
    simp only [reg_back, imm_back]
    exact ⟨by simp [decode_inst, decode_arit, is_ddr_eq, op_code_eq, Inst.fu_code], .inr rfl⟩
  | LI imd rt =>
    obtain ⟨rt, rfl⟩ := exists_reg h
    rw [Asm.encode, decode_SMC_LI _ h, Asm.shown, reg_back]
    exact ⟨rfl, .inr rfl⟩
  | MV rs1 rt =>
    obtain ⟨⟨rs1, rfl⟩, ⟨rt, rfl⟩⟩ := And.imp exists_reg exists_reg h
    rw [Asm.encode, SMC_MV_exe, Asm.shown]
    simp only [reg_back]
    exact ⟨by simp [decode_inst, decode_arit, is_ddr_eq, op_code_eq, Inst.fu_code], .inr rfl⟩
  | SRC rs1 rt =>
    obtain ⟨⟨rs1, rfl⟩, ⟨rt, rfl⟩⟩ := And.imp exists_reg exists_reg h
    rw [Asm.encode, SMC_SRC_exe, Asm.shown]
    simp only [reg_back]
    exact ⟨by simp [decode_inst, decode_arit, is_ddr_eq, op_code_eq, Inst.fu_code], .inr rfl⟩
  | LDWD rs1 off =>
    obtain ⟨⟨rs1, rfl⟩, ⟨rt, rfl⟩⟩ := And.imp exists_reg exists_reg h
    rw [Asm.encode, SMC_LDWD_exe, Asm.shown]
    simp only [reg_back]
    exact ⟨by simp [decode_inst, decode_arit, is_ddr_eq, op_code_eq, Inst.fu_code], .inr rfl⟩
  | LDPC pc_type rt =>
    obtain ⟨rt, rfl⟩ := exists_reg h
    rw [Asm.encode, SMC_LDPC_exe, Asm.shown, reg_back]
    refine ⟨?_, .inr rfl⟩
    cases pc_type <;> simp [decode_inst, decode_arit, is_ddr_eq, op_code_eq, Inst.fu_code, counterOf, PC_TYPE.pc_reg]
  | LD rb offset rt =>
    obtain ⟨⟨rs1, rfl⟩, ⟨m, rfl⟩, ⟨rt, rfl⟩⟩ := and3 exists_reg exists_imm exists_reg h
    rw [Asm.encode, SMC_LD_exe, Asm.shown]
    simp only [reg_back, imm_back]
    exact ⟨by simp [decode_inst, decode_mem, is_ddr_eq, op_code_eq, Inst.fu_code], .inr rfl⟩
  | ST rb offset rv =>
    obtain ⟨⟨rs1, rfl⟩, ⟨m, rfl⟩, ⟨rt, rfl⟩⟩ := and3 exists_reg exists_imm exists_reg h
    rw [Asm.encode, SMC_ST_exe, Asm.shown]
    simp only [reg_back, imm_back]
    exact ⟨by simp [decode_inst, decode_mem, is_ddr_eq, op_code_eq, Inst.fu_code], .inr rfl⟩
  | AND rs1 rs2 rt =>
    obtain ⟨⟨rs1, rfl⟩, ⟨rs2, rfl⟩, ⟨rt, rfl⟩⟩ := and3 exists_reg exists_reg exists_reg h
    rw [Asm.encode, SMC_AND_exe, Asm.shown]
    simp only [reg_back]
    exact ⟨by simp [decode_inst, decode_bw, is_ddr_eq, op_code_eq, Inst.fu_code], .inr rfl⟩
  | OR rs1 rs2 rt =>
    obtain ⟨⟨rs1, rfl⟩, ⟨rs2, rfl⟩, ⟨rt, rfl⟩⟩ := and3 exists_reg exists_reg exists_reg h
    rw [Asm.encode, SMC_OR_exe, Asm.shown]
    simp only [reg_back]
    exact ⟨by simp [decode_inst, decode_bw, is_ddr_eq, op_code_eq, Inst.fu_code], .inr rfl⟩
  | XOR rs1 rs2 rt =>
    obtain ⟨⟨rs1, rfl⟩, ⟨rs2, rfl⟩, ⟨rt, rfl⟩⟩ := and3 exists_reg exists_reg exists_reg h
    rw [Asm.encode, SMC_XOR_exe, Asm.shown]
    simp only [reg_back]
    exact ⟨by simp [decode_inst, decode_bw, is_ddr_eq, op_code_eq, Inst.fu_code], .inr rfl⟩
  | BL rs1 rs2 tgt =>
    obtain ⟨⟨rs1, rfl⟩, ⟨rs2, rfl⟩, ⟨t, rfl⟩⟩ := and3 exists_reg exists_reg exists_tgt h
    rw [Asm.encode, SMC_BL_br, decode_br_BL, Asm.shown, reg_back, reg_back, tgt_back]
    exact ⟨rfl, .inr rfl⟩
  | BEQ rs1 rs2 tgt =>
    obtain ⟨⟨rs1, rfl⟩, ⟨rs2, rfl⟩, ⟨t, rfl⟩⟩ := and3 exists_reg exists_reg exists_tgt h
    rw [Asm.encode, SMC_BEQ_br, decode_br_BEQ, Asm.shown, reg_back, reg_back, tgt_back]
    exact ⟨rfl, .inr rfl⟩
  | JUMP tgt =>
    obtain ⟨t, rfl⟩ := exists_jtgt h
    rw [Asm.encode, SMC_JUMP_jmp, decode_jmp, Asm.shown, jtgt_back]
    exact ⟨rfl, .inr rfl⟩
  | SLEEP samt hs =>
    refine ⟨decode_sleepWord samt, .inr ?_⟩
    have hback : samt - 2 + 2 = samt := BitVec.sub_add_cancel _ _
    rw [Asm.shown, Mnemonic.call, dif_pos (by rwa [hback])]
    simp only [hback]
  | INFO rdcnt =>
    refine ⟨decode_SMC_INFO h, .inr ?_⟩
    rw [Asm.shown, Mnemonic.call, Asm.encode, SMC_INFO_count]
  | END => exact ⟨decode_SMC_END, .inr rfl⟩
  | SRE => exact ⟨by decide, .inr rfl⟩
  | SRX => exact ⟨by decide, .inr rfl⟩
  | pack i1 i2 i3 i4 =>
    obtain ⟨h1, h2, h3, h4⟩ := h
    obtain ⟨s0, s1, s2, s3⟩ := slot_pack i1.encode i2.encode i3.encode i4.encode
    rw [Asm.encode, decode_pack _ _ _ _ i4.encode_msb, Asm.shown, Mnemonic.call, s0, s1, s2, s3,
      (i1.decode_encode h1).1, (i2.decode_encode h2).1, (i3.decode_encode h3).1, (i4.decode_encode h4).1,
      (i1.decode_encode h1).2, (i2.decode_encode h2).2, (i3.decode_encode h3).2, (i4.decode_encode h4).2]
    exact ⟨rfl, .inr rfl⟩

/-! ## Words tell calls apart -/

theorem Mini.encode_inj {m n : Mini} (hm : m.Fits) (hn : n.Fits) (h : m.encode = n.encode) : m = n := by
  obtain ⟨hdm, hcm⟩ := m.decode_encode hm
  obtain ⟨hdn, hcn⟩ := n.decode_encode hn
  rw [← hcm, ← hcn, ← hdm, ← hdn, h]

theorem Asm.call_inj {a b : Asm} (ha : a.Fits) (hb : b.Fits) (h : a.encode = b.encode) :
    a.shown.call a.encode = b.shown.call b.encode := by
  rw [← (a.decode_encode ha).1, ← (b.decode_encode hb).1, h]

theorem Asm.shown_add_zero (w : Inst) : (ADD 0 0 0).shown.call w = .END := rfl

/-- The one word that two encoders emit. -/
theorem Asm.encode_inj {a b : Asm} (ha : a.Fits) (hb : b.Fits) (h : a.encode = b.encode) :
    a = b ∨ a = .ADD 0 0 0 ∧ b = .END ∨ a = .END ∧ b = .ADD 0 0 0 := by
  have hcall := call_inj ha hb h
  rcases (a.decode_encode ha).2 with rfl | ha'
  · rcases (b.decode_encode hb).2 with rfl | hb'
    · exact .inl rfl
    · rw [shown_add_zero, hb'] at hcall
      exact .inr (.inl ⟨rfl, hcall.symm⟩)
  · rcases (b.decode_encode hb).2 with rfl | hb'
    · rw [shown_add_zero, ha'] at hcall
      exact .inr (.inr ⟨hcall, rfl⟩)
    · rw [ha', hb'] at hcall
      exact .inl hcall

/-- The decoder shows the mnemonic and the operands of every encoder call, and
no two calls emit the same mini instruction or word, but for `ADD` of register 0
to itself and `END`. -/
theorem decode_undoes_encode :
    (∀ m : Mini, m.Fits → decode_ddr m.encode = m.shown ∧ m.shown.call m.encode = m) ∧
    (∀ a : Asm, a.Fits → decode_inst a.encode = a.shown ∧ (a = .ADD 0 0 0 ∨ a.shown.call a.encode = a)) ∧
    (∀ m n : Mini, m.Fits → n.Fits → m.encode = n.encode → m = n) ∧
    ∀ a b : Asm, a.Fits → b.Fits → a.encode = b.encode →
      a = b ∨ a = .ADD 0 0 0 ∧ b = .END ∨ a = .END ∧ b = .ADD 0 0 0 :=
  ⟨Mini.decode_encode, Asm.decode_encode, fun _ _ => Mini.encode_inj, fun _ _ => Asm.encode_inj⟩

/-- A READ and three NOPs. -/
theorem decode_read_word :
    decode_inst (pack_mininsts (SMC_READ 4 0 3 1 0 0) SMC_NOP SMC_NOP SMC_NOP) =
        .DDR (.RD 4 false 3 true false false) (.NOP false) (.NOP false) (.NOP false) ∧
      SMC_READ 4 0 3 1 0 0 ≠ SMC_WRITE 4 0 3 1 0 0 ∧ SMC_LI 70000 5 ≠ SMC_LI 70001 5 := by
  obtain ⟨hmini, hasm, hminis, hwords⟩ := decode_undoes_encode
  have hread : (Mini.READ 4 0 3 1 0 0).Fits := ⟨by decide, by decide, by decide, by decide, by decide, by decide⟩
  have hwrite : (Mini.WRITE 4 0 3 1 0 0).Fits := ⟨by decide, by decide, by decide, by decide, by decide, by decide⟩
  have hnop : (Mini.NOP 0).Fits := show (0 : CInt) < 2 by decide
  have hli : ∀ imd, (Asm.LI imd 5).Fits := fun imd => show (5 : CInt) < 16 by decide
  refine ⟨(hasm (.pack (.READ 4 0 3 1 0 0) (.NOP 0) (.NOP 0) (.NOP 0)) ⟨hread, hnop, hnop, hnop⟩).1, fun h => ?_, fun h => ?_⟩
  · cases hminis (.READ 4 0 3 1 0 0) (.WRITE 4 0 3 1 0 0) hread hwrite h
  · rcases hwords (.LI 70000 5) (.LI 70001 5) (hli _) (hli _) h with h | ⟨h, -⟩ | ⟨h, -⟩
    · simp at h
    · cases h
    · cases h

end DRAMBender
