import Mathlib
import DramBender.Instruction
/-!
# What the encoders emit

`Asm` is an encoder call. The lemmas say which bits of the emitted word carry
which operand, what the classifiers answer on it, and that the decoder reads
the operands back.
-/

namespace DRAMBender

/-- A call of a DDR encoder, with its C operands. -/
inductive Mini where
  | WRITE (bar ibar car icar rank ap : CInt)
  | READ (bar ibar car icar rank ap : CInt)
  | PRE (bar ibar pall rank : CInt)
  | ACT (bar ibar rar irar rank : CInt)
  | SEL_CH (channel pseudo_channel : CInt)
  | REF (rank : CInt)
  | NOP (rank : CInt)
  deriving DecidableEq, Repr

namespace Mini

def encode : Mini → Mininst
  | WRITE bar ibar car icar rank ap => SMC_WRITE bar ibar car icar rank ap
  | READ bar ibar car icar rank ap => SMC_READ bar ibar car icar rank ap
  | PRE bar ibar pall rank => SMC_PRE bar ibar pall rank
  | ACT bar ibar rar irar rank => SMC_ACT bar ibar rar irar rank
  | SEL_CH channel pseudo_channel => SMC_SEL_CH channel pseudo_channel
  | REF rank => SMC_REF rank
  | NOP rank => SMC_NOP rank

/-- Registers are 0..15, flags, ranks and pseudo channels 0 or 1. -/
def InRange : Mini → Prop
  | WRITE bar ibar car icar rank ap => bar < 16 ∧ ibar < 2 ∧ car < 16 ∧ icar < 2 ∧ rank < 2 ∧ ap < 2
  | READ bar ibar car icar rank ap => bar < 16 ∧ ibar < 2 ∧ car < 16 ∧ icar < 2 ∧ rank < 2 ∧ ap < 2
  | PRE bar ibar pall rank => bar < 16 ∧ ibar < 2 ∧ pall < 2 ∧ rank < 2
  | ACT bar ibar rar irar rank => bar < 16 ∧ ibar < 2 ∧ rar < 16 ∧ irar < 2 ∧ rank < 2
  | SEL_CH channel pseudo_channel => channel < 16 ∧ pseudo_channel < 2
  | REF rank => rank < 2
  | NOP rank => rank < 2

end Mini

/-- A call of a word encoder, with its C operands. A `SLEEP` carries the
assertion its encoder makes. -/
inductive Asm where
  | ADD (rs1 rs2 rt : CInt)
  | ADDI (rs1 imd rt : CInt)
  | SUB (rs1 rs2 rt : CInt)
  | SUBI (rs1 imd rt : CInt)
  | LI (imd rt : CInt)
  | MV (rs1 rt : CInt)
  | SRC (rs1 rt : CInt)
  | LDWD (rs1 off : CInt)
  | LDPC (pc_type : PC_TYPE) (rt : CInt)
  | BL (rs1 rs2 tgt : CInt)
  | BEQ (rs1 rs2 tgt : CInt)
  | JUMP (tgt : CInt)
  | SLEEP (samt : CInt) (h : 2 < samt)
  | LD (rb offset rt : CInt)
  | ST (rb offset rv : CInt)
  | AND (rs1 rs2 rt : CInt)
  | OR (rs1 rs2 rt : CInt)
  | XOR (rs1 rs2 rt : CInt)
  | END
  | INFO (rdcnt : CInt)
  | SRE
  | SRX
  | pack (i1 i2 i3 i4 : Mini)

/-- The word `SMC_SLEEP` emits when its assertion holds. -/
def sleepWord (samt : CInt) : Inst :=
  (1 : Inst) <<< 62 ||| (3 : Inst) <<< 48 ||| (samt - 2).setWidth 64

theorem SMC_SLEEP_eq {samt : CInt} (h : 2 < samt) : SMC_SLEEP samt = some (sleepWord samt) := by
  rw [SMC_SLEEP, if_pos h]
  rfl

namespace Asm

def encode : Asm → Inst
  | ADD rs1 rs2 rt => SMC_ADD rs1 rs2 rt
  | ADDI rs1 imd rt => SMC_ADDI rs1 imd rt
  | SUB rs1 rs2 rt => SMC_SUB rs1 rs2 rt
  | SUBI rs1 imd rt => SMC_SUBI rs1 imd rt
  | LI imd rt => SMC_LI imd rt
  | MV rs1 rt => SMC_MV rs1 rt
  | SRC rs1 rt => SMC_SRC rs1 rt
  | LDWD rs1 off => SMC_LDWD rs1 off
  | LDPC pc_type rt => SMC_LDPC pc_type rt
  | BL rs1 rs2 tgt => SMC_BL rs1 rs2 tgt
  | BEQ rs1 rs2 tgt => SMC_BEQ rs1 rs2 tgt
  | JUMP tgt => SMC_JUMP tgt
  | SLEEP samt _ => sleepWord samt
  | LD rb offset rt => SMC_LD rb offset rt
  | ST rb offset rv => SMC_ST rb offset rv
  | AND rs1 rs2 rt => SMC_AND rs1 rs2 rt
  | OR rs1 rs2 rt => SMC_OR rs1 rs2 rt
  | XOR rs1 rs2 rt => SMC_XOR rs1 rs2 rt
  | END => SMC_END
  | INFO rdcnt => SMC_INFO rdcnt
  | SRE => SMC_SRE
  | SRX => SMC_SRX
  | pack i1 i2 i3 i4 => pack_mininsts i1.encode i2.encode i3.encode i4.encode

def isBranch : Asm → Bool
  | BL .. | BEQ .. | JUMP .. => true
  | _ => false

def isSleep : Asm → Bool
  | SLEEP .. => true
  | _ => false

/-- Operands that fit their fields: registers 0..15, wide-register offsets
0..15, 16-bit memory offsets and immediates, branch targets the source can
address, and a nonnegative read count. -/
def InRange : Asm → Prop
  | ADD rs1 rs2 rt => rs1 < 16 ∧ rs2 < 16 ∧ rt < 16
  | ADDI rs1 imd rt => rs1 < 16 ∧ imd < 65536 ∧ rt < 16
  | SUB rs1 rs2 rt => rs1 < 16 ∧ rs2 < 16 ∧ rt < 16
  | SUBI rs1 imd rt => rs1 < 16 ∧ imd < 65536 ∧ rt < 16
  | LI _ rt => rt < 16
  | MV rs1 rt => rs1 < 16 ∧ rt < 16
  | SRC rs1 rt => rs1 < 16 ∧ rt < 16
  | LDWD rs1 off => rs1 < 16 ∧ off < 16
  | LDPC _ rt => rt < 16
  | BL rs1 rs2 tgt => rs1 < 16 ∧ rs2 < 16 ∧ tgt < 524288
  | BEQ rs1 rs2 tgt => rs1 < 16 ∧ rs2 < 16 ∧ tgt < 524288
  | JUMP tgt => tgt < 134217728
  | SLEEP _ _ => True
  | LD rb offset rt => rb < 16 ∧ offset < 65536 ∧ rt < 16
  | ST rb offset rv => rb < 16 ∧ offset < 65536 ∧ rv < 16
  | AND rs1 rs2 rt => rs1 < 16 ∧ rs2 < 16 ∧ rt < 16
  | OR rs1 rs2 rt => rs1 < 16 ∧ rs2 < 16 ∧ rt < 16
  | XOR rs1 rs2 rt => rs1 < 16 ∧ rs2 < 16 ∧ rt < 16
  | END => True
  | INFO rdcnt => rdcnt < 2147483648
  | SRE => True
  | SRX => True
  | pack i1 i2 i3 i4 => i1.InRange ∧ i2.InRange ∧ i3.InRange ∧ i4.InRange

end Asm

/-! ## The layout of an ordinary word -/

/-- The fields of a word that is neither a DDR word nor a branch. -/
def exe (top imd3 : BitVec 16) (rt : Reg) (imd1 : BitVec 16) (rs1 : Reg) : Inst :=
  top.setWidth 64 <<< 48 ||| imd3.setWidth 64 <<< 24 ||| rt.setWidth 64 <<< 20 |||
    imd1.setWidth 64 <<< 4 ||| rs1.setWidth 64

section
variable (top imd3 : BitVec 16) (rt : Reg) (imd1 : BitVec 16) (rs1 : Reg)

@[simp] theorem exe_top : exe top imd3 rt imd1 rs1 >>> 48 = top.setWidth 64 := by
  ext i h
  simp [exe]
  grind

@[simp] theorem exe_rs1 : Inst.rs1 (exe top imd3 rt imd1 rs1) = rs1 := by
  ext i h
  simp [Inst.rs1, exe]

@[simp] theorem exe_imd1 : Inst.imd1 (exe top imd3 rt imd1 rs1) = imd1 := by
  ext i h
  simp [Inst.imd1, exe]
  grind

@[simp] theorem exe_rs2 : Inst.rs2 (exe top imd3 rt imd1 rs1) = imd1.setWidth 4 := by
  ext i h
  simp [Inst.rs2, exe]
  grind

@[simp] theorem exe_rt : Inst.rt (exe top imd3 rt imd1 rs1) = rt := by
  ext i h
  simp [Inst.rt, exe]
  grind

@[simp] theorem exe_imd3 : Inst.imd3 (exe top imd3 rt imd1 rs1) = imd3 := by
  ext i h
  simp [Inst.imd3, exe]
  grind

end

/-! The classifiers and the opcode only look at the top 16 bits. -/

theorem op_code_eq (w : Inst) : Inst.op_code w = w >>> 48 >>> 11 := by
  rw [Inst.op_code, ← BitVec.shiftRight_add]

theorem is_ddr_eq (w : Inst) : is_ddr w = (w >>> 48 >>> 15 == 1) := by
  rw [is_ddr, ← BitVec.shiftRight_add]

theorem is_branch_eq (w : Inst) : is_branch w = (w >>> 48 >>> 11 == 8) := by
  rw [is_branch, ← BitVec.shiftRight_add]

/-! ## Operand pieces

In-range operands, written as extensions of their fields, are not disturbed
by the widening. -/

theorem exists_reg {r : CInt} (h : r < 16) : ∃ q : Reg, r = q.setWidth 32 :=
  ⟨r.setWidth 4, by bv_omega⟩

theorem exists_imm {m : CInt} (h : m < 65536) : ∃ q : BitVec 16, m = q.setWidth 32 :=
  ⟨m.setWidth 16, by bv_omega⟩

theorem exists_tgt {t : CInt} (h : t < 524288) : ∃ q : BitVec 19, t = q.setWidth 32 :=
  ⟨t.setWidth 19, by bv_omega⟩

theorem exists_jtgt {t : CInt} (h : t < 134217728) : ∃ q : BitVec 27, t = q.setWidth 32 :=
  ⟨t.setWidth 27, by bv_omega⟩

theorem sext_reg (q : Reg) : (q.setWidth 32).signExtend 64 = q.setWidth 64 := by
  ext i h
  simp
  grind

theorem sext_rt (q : Reg) : (q.setWidth 32 <<< 20).signExtend 64 = q.setWidth 64 <<< 20 := by
  ext i h
  simp
  grind

theorem sext_regs (p q : Reg) :
    (p.setWidth 32 <<< 4 ||| q.setWidth 32).signExtend 64 =
      (p.setWidth 16).setWidth 64 <<< 4 ||| q.setWidth 64 := by
  ext i h
  simp
  grind

theorem zext_imd (m : BitVec 16) : (m.setWidth 32 <<< 4).setWidth 64 = m.setWidth 64 <<< 4 := by
  ext i h
  simp
  grind

theorem sext_imd (m : BitVec 16) : (m.setWidth 32 <<< 4).signExtend 64 = m.setWidth 64 <<< 4 := by
  ext i h
  simp
  grind

theorem li_low (m : CInt) : (m <<< 16 >>> 16 <<< 4).setWidth 64 = (m.setWidth 16).setWidth 64 <<< 4 := by
  ext i h
  simp
  grind

theorem li_high (m : CInt) : (m >>> 16).setWidth 64 <<< 24 = ((m >>> 16).setWidth 16).setWidth 64 <<< 24 := by
  congr 1
  apply BitVec.eq_of_toNat_eq
  simp [Nat.shiftRight_eq_div_pow]
  omega

/-! ## The ordinary encoders, field by field -/

section
variable (a b c d : Inst)

theorem or_regs : a ||| (b ||| c) ||| d = a ||| 0#64 ||| d ||| b ||| c := by
  rw [BitVec.or_zero]
  ac_rfl

theorem or_imd : a ||| b ||| c ||| d = a ||| 0#64 ||| d ||| c ||| b := by
  rw [BitVec.or_zero]
  ac_rfl

theorem or_li : a ||| b ||| c ||| d = a ||| c ||| d ||| b ||| 0#64 := by
  rw [BitVec.or_zero]
  ac_rfl

theorem or_move : a ||| b ||| c = a ||| 0#64 ||| c ||| 0#64 ||| b := by
  rw [BitVec.or_zero, BitVec.or_zero]
  ac_rfl

end

section
variable (rs1 rs2 rt : Reg) (m : BitVec 16)

theorem SMC_ADD_exe :
    SMC_ADD (rs1.setWidth 32) (rs2.setWidth 32) (rt.setWidth 32) = exe 0 0 rt (rs2.setWidth 16) rs1 := by
  simp only [SMC_ADD, exe, sext_regs, sext_rt]
  exact or_regs _ _ _ _

theorem SMC_ADDI_exe :
    SMC_ADDI (rs1.setWidth 32) (m.setWidth 32) (rt.setWidth 32) = exe 1 0 rt m rs1 := by
  simp only [SMC_ADDI, exe, sext_reg, zext_imd, sext_rt]
  exact or_imd _ _ _ _

theorem SMC_SUB_exe :
    SMC_SUB (rs1.setWidth 32) (rs2.setWidth 32) (rt.setWidth 32) = exe 2 0 rt (rs2.setWidth 16) rs1 := by
  simp only [SMC_SUB, exe, sext_regs, sext_rt]
  exact or_regs _ _ _ _

theorem SMC_SUBI_exe :
    SMC_SUBI (rs1.setWidth 32) (m.setWidth 32) (rt.setWidth 32) = exe 3 0 rt m rs1 := by
  simp only [SMC_SUBI, exe, sext_reg, zext_imd, sext_rt]
  exact or_imd _ _ _ _

theorem SMC_LI_exe (imd : CInt) :
    SMC_LI imd (rt.setWidth 32) = exe 6 ((imd >>> 16).setWidth 16) rt (imd.setWidth 16) 0 := by
  simp only [SMC_LI, exe, li_low, li_high, sext_rt]
  exact or_li _ _ _ _

theorem SMC_MV_exe : SMC_MV (rs1.setWidth 32) (rt.setWidth 32) = exe 4 0 rt 0 rs1 := by
  simp only [SMC_MV, exe, sext_reg, sext_rt]
  exact or_move _ _ _

theorem SMC_SRC_exe : SMC_SRC (rs1.setWidth 32) (rt.setWidth 32) = exe 5 0 rt 0 rs1 := by
  simp only [SMC_SRC, exe, sext_reg, sext_rt]
  exact or_move _ _ _

theorem SMC_LDWD_exe : SMC_LDWD (rs1.setWidth 32) (rt.setWidth 32) = exe 7 0 rt 0 rs1 := by
  simp only [SMC_LDWD, exe, sext_reg, sext_rt]
  exact or_move _ _ _

theorem SMC_LDPC_exe (pc_type : PC_TYPE) :
    SMC_LDPC pc_type (rt.setWidth 32) = exe 8 0 rt 0 (pc_type.pc_reg.setWidth 4) := by
  have e : (pc_type.pc_reg.setWidth 4).setWidth 64 = pc_type.pc_reg := by cases pc_type <;> rfl
  simp only [SMC_LDPC, exe, sext_rt, e]
  exact or_move _ _ _

theorem SMC_LD_exe :
    SMC_LD (rs1.setWidth 32) (m.setWidth 32) (rt.setWidth 32) = exe 0x1000 0 rt m rs1 := by
  simp only [SMC_LD, exe, sext_reg, sext_imd, sext_rt]
  exact or_imd _ _ _ _

theorem SMC_ST_exe :
    SMC_ST (rs1.setWidth 32) (m.setWidth 32) (rt.setWidth 32) = exe 0x1001 0 rt m rs1 := by
  simp only [SMC_ST, exe, sext_reg, sext_imd, sext_rt]
  exact or_imd _ _ _ _

theorem SMC_AND_exe :
    SMC_AND (rs1.setWidth 32) (rs2.setWidth 32) (rt.setWidth 32) = exe 0x800 0 rt (rs2.setWidth 16) rs1 := by
  simp only [SMC_AND, exe, sext_regs, sext_rt]
  exact or_regs _ _ _ _

theorem SMC_OR_exe :
    SMC_OR (rs1.setWidth 32) (rs2.setWidth 32) (rt.setWidth 32) = exe 0x801 0 rt (rs2.setWidth 16) rs1 := by
  simp only [SMC_OR, exe, sext_regs, sext_rt]
  exact or_regs _ _ _ _

theorem SMC_XOR_exe :
    SMC_XOR (rs1.setWidth 32) (rs2.setWidth 32) (rt.setWidth 32) = exe 0x802 0 rt (rs2.setWidth 16) rs1 := by
  simp only [SMC_XOR, exe, sext_regs, sext_rt]
  exact or_regs _ _ _ _

end

/-! ## Branch words -/

/-- A conditional branch with its target field. -/
def br (top : BitVec 16) (t : BitVec 19) (rs2 rs1 : Reg) : Inst :=
  top.setWidth 64 <<< 48 ||| t.setWidth 64 <<< 8 ||| rs2.setWidth 64 <<< 4 ||| rs1.setWidth 64

/-- A jump with its target field. -/
def jmp (top : BitVec 16) (t : BitVec 27) : Inst := top.setWidth 64 <<< 48 ||| t.setWidth 64

section
variable (top : BitVec 16) (t : BitVec 19) (rs2 rs1 : Reg)

@[simp] theorem br_top : br top t rs2 rs1 >>> 48 = top.setWidth 64 := by
  ext i h
  simp [br]
  grind

@[simp] theorem br_rs1 : Inst.rs1 (br top t rs2 rs1) = rs1 := by
  ext i h
  simp [Inst.rs1, br]

@[simp] theorem br_rs2 : Inst.rs2 (br top t rs2 rs1) = rs2 := by
  ext i h
  simp [Inst.rs2, br]
  grind

@[simp] theorem br_bt : Inst.bt (br top t rs2 rs1) = t := by
  ext i h
  simp [Inst.bt, br]
  grind

@[simp] theorem jmp_top (t : BitVec 27) : jmp top t >>> 48 = top.setWidth 64 := by
  ext i h
  simp [jmp]
  grind

@[simp] theorem jmp_jt (t : BitVec 27) : Inst.jt (jmp top t) = t := by
  ext i h
  simp [Inst.jt, jmp]

end

section
variable (rs1 rs2 : Reg)

theorem sext_tgt (t : BitVec 19) : (t.setWidth 32).signExtend 64 = t.setWidth 64 := by
  ext i h
  simp
  grind

theorem sext_jtgt (t : BitVec 27) : (t.setWidth 32).signExtend 64 = t.setWidth 64 := by
  ext i h
  simp
  grind

theorem or_br (a b c d : Inst) : a ||| (b ||| c) ||| d = a ||| d ||| b ||| c := by ac_rfl

theorem SMC_BL_br (t : BitVec 19) :
    SMC_BL (rs1.setWidth 32) (rs2.setWidth 32) (t.setWidth 32) = br 0x4000 t rs2 rs1 := by
  have e : (rs2.setWidth 16).setWidth 64 = rs2.setWidth 64 := by simp
  simp only [SMC_BL, br, sext_regs, sext_tgt, e]
  exact or_br _ _ _ _

theorem SMC_BEQ_br (t : BitVec 19) :
    SMC_BEQ (rs1.setWidth 32) (rs2.setWidth 32) (t.setWidth 32) = br 0x4001 t rs2 rs1 := by
  have e : (rs2.setWidth 16).setWidth 64 = rs2.setWidth 64 := by simp
  simp only [SMC_BEQ, br, sext_regs, sext_tgt, e]
  exact or_br _ _ _ _

theorem SMC_JUMP_jmp (t : BitVec 27) : SMC_JUMP (t.setWidth 32) = jmp 0x4002 t := by
  simp only [SMC_JUMP, jmp, sext_jtgt]
  rfl

end

/-! ## What the decoder answers -/

section
variable {rs1 rs2 rt : CInt}

theorem decode_SMC_ADDI {imd : CInt} (h1 : rs1 < 16) (hm : imd < 65536) (ht : rt < 16) :
    decode_inst (SMC_ADDI rs1 imd rt) = .ADDI (rt.setWidth 4) (rs1.setWidth 4) (imd.setWidth 16) := by
  obtain ⟨p, rfl⟩ := exists_reg h1
  obtain ⟨m, rfl⟩ := exists_imm hm
  obtain ⟨q, rfl⟩ := exists_reg ht
  rw [SMC_ADDI_exe]
  simp [decode_inst, decode_arit, is_ddr_eq, op_code_eq, Inst.fu_code]

theorem li_concat (imd : CInt) :
    ((imd >>> 16).setWidth 16).setWidth 32 <<< 16 + (imd.setWidth 16).setWidth 32 = imd := by
  apply BitVec.eq_of_toNat_eq
  simp [Nat.shiftLeft_eq, Nat.shiftRight_eq_div_pow]
  omega

theorem decode_SMC_LI (imd : CInt) (ht : rt < 16) : decode_inst (SMC_LI imd rt) = .LI (rt.setWidth 4) imd := by
  obtain ⟨q, rfl⟩ := exists_reg ht
  rw [SMC_LI_exe]
  simp [decode_inst, decode_arit, is_ddr_eq, op_code_eq, Inst.fu_code, li_concat]

theorem decode_SMC_LDWD {off : CInt} (h1 : rs1 < 16) (ho : off < 16) :
    decode_inst (SMC_LDWD rs1 off) = .LDWD (off.setWidth 4) (rs1.setWidth 4) := by
  obtain ⟨p, rfl⟩ := exists_reg h1
  obtain ⟨q, rfl⟩ := exists_reg ho
  rw [SMC_LDWD_exe]
  simp [decode_inst, decode_arit, is_ddr_eq, op_code_eq, Inst.fu_code]

theorem decode_SMC_LD {rb offset : CInt} (hb : rb < 16) (ho : offset < 65536) (ht : rt < 16) :
    decode_inst (SMC_LD rb offset rt) = .LD (rt.setWidth 4) (rb.setWidth 4) (offset.setWidth 16) := by
  obtain ⟨p, rfl⟩ := exists_reg hb
  obtain ⟨m, rfl⟩ := exists_imm ho
  obtain ⟨q, rfl⟩ := exists_reg ht
  rw [SMC_LD_exe]
  simp [decode_inst, decode_mem, is_ddr_eq, op_code_eq, Inst.fu_code]

theorem decode_SMC_ST {rb offset rv : CInt} (hb : rb < 16) (ho : offset < 65536) (hv : rv < 16) :
    decode_inst (SMC_ST rb offset rv) = .ST (rb.setWidth 4) (offset.setWidth 16) (rv.setWidth 4) := by
  obtain ⟨p, rfl⟩ := exists_reg hb
  obtain ⟨m, rfl⟩ := exists_imm ho
  obtain ⟨q, rfl⟩ := exists_reg hv
  rw [SMC_ST_exe]
  simp [decode_inst, decode_mem, is_ddr_eq, op_code_eq, Inst.fu_code]

theorem decode_br_BL (t : BitVec 19) (p q : Reg) : decode_inst (br 0x4000 t q p) = .BL t p q := by
  simp [decode_inst, decode_br, is_ddr_eq, op_code_eq, Inst.fu_code]

theorem decode_br_BEQ (t : BitVec 19) (p q : Reg) : decode_inst (br 0x4001 t q p) = .BEQ t p q := by
  simp [decode_inst, decode_br, is_ddr_eq, op_code_eq, Inst.fu_code]

theorem decode_jmp (t : BitVec 27) : decode_inst (jmp 0x4002 t) = .JUMP t := by
  simp [decode_inst, decode_br, is_ddr_eq, op_code_eq, Inst.fu_code]

end

/-! ## SLEEP, INFO, END and DDR words -/

theorem sleepWord_top (samt : CInt) : sleepWord samt >>> 48 = 0x4003 := by
  have e : (samt - 2).setWidth 64 >>> 48 = (0 : Inst) := by
    ext i h
    simp
    grind
  simp only [sleepWord, BitVec.ushiftRight_or_distrib, e]
  rfl

theorem sleepWord_samt (samt : CInt) : Inst.samt (sleepWord samt) = samt - 2 := by
  simp only [Inst.samt, sleepWord, BitVec.setWidth_or]
  simp

theorem decode_sleepWord (samt : CInt) : decode_inst (sleepWord samt) = .SLEEP (samt - 2) := by
  simp [decode_inst, decode_br, is_ddr_eq, op_code_eq, Inst.fu_code, sleepWord_top, sleepWord_samt]

theorem SMC_INFO_top {rdcnt : CInt} (h : rdcnt < 2147483648) : SMC_INFO rdcnt >>> 48 = 0x2000 := by
  have e : rdcnt.signExtend 64 >>> 48 = (0 : Inst) := by
    rw [BitVec.signExtend_eq_setWidth_of_msb_false (by rw [BitVec.msb_eq_false_iff_two_mul_lt]; bv_omega)]
    ext i h
    simp
    grind
  simp only [SMC_INFO, BitVec.ushiftRight_or_distrib, e]
  rfl

theorem decode_SMC_INFO {rdcnt : CInt} (h : rdcnt < 2147483648) : decode_inst (SMC_INFO rdcnt) = .INFO := by
  simp [decode_inst, decode_misc, is_ddr_eq, op_code_eq, Inst.fu_code, SMC_INFO_top h]

theorem decode_SMC_END : decode_inst SMC_END = .END := by decide

section
variable (i1 i2 i3 i4 : Mininst)

theorem slot_pack :
    slot (pack_mininsts i1 i2 i3 i4) 0 = i1 ∧ slot (pack_mininsts i1 i2 i3 i4) 1 = i2 ∧
      slot (pack_mininsts i1 i2 i3 i4) 2 = i3 ∧ slot (pack_mininsts i1 i2 i3 i4) 3 = i4 := by
  refine ⟨?_, ?_, ?_, ?_⟩
  · ext i h
    simp [slot, pack_mininsts]
  all_goals
    ext i h
    simp [slot, pack_mininsts]
    grind

theorem is_ddr_bit (w : Inst) : is_ddr w = w.getLsbD 63 := by
  have e : w >>> 63 = (BitVec.ofBool (w.getLsbD 63)).setWidth 64 := by
    ext i h
    simp
    grind
  rw [is_ddr, e]
  cases w.getLsbD 63 <;> rfl

theorem is_ddr_pack : is_ddr (pack_mininsts i1 i2 i3 i4) = i4.getLsbD 15 := by
  rw [is_ddr_bit]
  simp [pack_mininsts]

theorem decode_pack (h : i4.getLsbD 15 = true) :
    decode_inst (pack_mininsts i1 i2 i3 i4) =
      .DDR (decode_ddr i1) (decode_ddr i2) (decode_ddr i3) (decode_ddr i4) := by
  obtain ⟨h0, h1, h2, h3⟩ := slot_pack i1 i2 i3 i4
  simp only [decode_inst, is_ddr_pack, h, if_true, h0, h1, h2, h3]

end

/-- The DDR encoders set bit 15 whatever their operands. -/
theorem Mini.encode_msb (m : Mini) : m.encode.getLsbD 15 = true := by
  cases m <;> simp [Mini.encode, SMC_WRITE, SMC_READ, SMC_PRE, SMC_ACT, SMC_SEL_CH, SMC_REF, SMC_NOP]

/-! ## No other encoder emits a branch -/

def Mnemonic.isBranch : Mnemonic → Bool
  | .BL .. | .BEQ .. | .JUMP .. => true
  | _ => false

theorem op_8_bits {w : Inst} (h : Inst.op_code w = 8) : w.getLsbD 62 = true ∧ w.getLsbD 63 = false := by
  have h3 : (w >>> 59).getLsbD 3 = true := by rw [← Inst.op_code, h]; rfl
  have h4 : (w >>> 59).getLsbD 4 = false := by rw [← Inst.op_code, h]; rfl
  exact ⟨by simpa using h3, by simpa using h4⟩

theorem decode_arit_isBranch (w : Inst) : (decode_arit w).isBranch = false := by
  cases hc : counterOf (Inst.rs1 w) <;>
  · simp only [decode_arit, hc, apply_ite Mnemonic.isBranch]
    simp [Mnemonic.isBranch]

theorem decode_misc_isBranch (w : Inst) : (decode_misc w).isBranch = false := by
  simp only [decode_misc, apply_ite Mnemonic.isBranch]
  simp [Mnemonic.isBranch]

theorem decode_mem_isBranch (w : Inst) : (decode_mem w).isBranch = false := by
  simp only [decode_mem, apply_ite Mnemonic.isBranch]
  simp [Mnemonic.isBranch]

theorem decode_bw_isBranch (w : Inst) : (decode_bw w).isBranch = false := by
  simp only [decode_bw, apply_ite Mnemonic.isBranch]
  simp [Mnemonic.isBranch]

/-- Only a word with the branch opcode decodes to a branch. -/
theorem decode_branch_op {w : Inst} (h : (decode_inst w).isBranch = true) :
    Inst.op_code w = 8 ∧ Inst.fu_code w ≠ 3 := by
  unfold decode_inst at h
  split_ifs at h with hd h0 h8
  case pos => simp [Mnemonic.isBranch] at h
  case pos => simp [decode_arit_isBranch] at h
  case pos =>
    refine ⟨h8, fun h3 => ?_⟩
    simp [decode_br, h3, Mnemonic.isBranch] at h
  all_goals first
    | simp only [decode_misc_isBranch, decode_mem_isBranch, decode_bw_isBranch, Bool.false_eq_true] at h
    | simp [Mnemonic.isBranch] at h

/-- A sign-extended operand agrees with itself on the top bits, so an encoder
without the branch bit sets bit 62 only together with bit 63. -/
theorem encode_bits (a : Asm) (h : a.isBranch = false) (hs : a.isSleep = false)
    (h62 : a.encode.getLsbD 62 = true) : a.encode.getLsbD 63 = true := by
  cases a with
  | pack i1 i2 i3 i4 => rw [← is_ddr_bit]; simp only [Asm.encode, is_ddr_pack, Mini.encode_msb]
  | BL => simp [Asm.isBranch] at h
  | BEQ => simp [Asm.isBranch] at h
  | JUMP => simp [Asm.isBranch] at h
  | SLEEP => simp [Asm.isSleep] at hs
  | SRE => contradiction
  | SRX => contradiction
  | END => contradiction
  | LDPC pc =>
    cases pc <;>
    · simp [Asm.encode, SMC_LDPC, PC_TYPE.pc_reg, BitVec.getElem_signExtend] at h62 ⊢
      exact h62
  | LI => simp [Asm.encode, SMC_LI, BitVec.getElem_signExtend] at h62 ⊢; exact h62
  | _ =>
    simp [Asm.encode, SMC_ADD, SMC_ADDI, SMC_SUB, SMC_SUBI, SMC_MV, SMC_SRC, SMC_LDWD, SMC_LD, SMC_ST,
      SMC_AND, SMC_OR, SMC_XOR, SMC_INFO, BitVec.getElem_signExtend] at h62 ⊢
    exact h62

theorem encode_not_branch (a : Asm) (h : a.isBranch = false) : (decode_inst a.encode).isBranch = false := by
  by_contra hb
  obtain ⟨hop, hfu⟩ := decode_branch_op (by simpa using hb)
  by_cases hs : a.isSleep = true
  · cases a <;> simp only [Asm.isSleep, reduceCtorEq] at hs
    exact hfu (by rw [Asm.encode, Inst.fu_code, sleepWord_top]; rfl)
  · obtain ⟨h62, h63⟩ := op_8_bits hop
    have := encode_bits a h (by simpa using hs) h62
    rw [h63] at this
    cases this

/-! ## The classifiers on in-range words -/

theorem and3 {p q r p' q' r' : Prop} (f : p → p') (g : q → q') (k : r → r') (h : p ∧ q ∧ r) : p' ∧ q' ∧ r' :=
  ⟨f h.1, g h.2.1, k h.2.2⟩

theorem encode_bit_52 (a : Asm) (h52 : a.encode.getLsbD 52 = true) : a.encode.getLsbD 63 = true := by
  cases a with
  | pack i1 i2 i3 i4 => rw [← is_ddr_bit]; simp only [Asm.encode, is_ddr_pack, Mini.encode_msb]
  | SRE => contradiction
  | SRX => contradiction
  | END => contradiction
  | SLEEP samt => simp [Asm.encode, sleepWord] at h52
  | LDPC pc =>
    cases pc <;>
    · simp [Asm.encode, SMC_LDPC, PC_TYPE.pc_reg, BitVec.getElem_signExtend] at h52 ⊢
      exact h52
  | LI => simp [Asm.encode, SMC_LI, BitVec.getElem_signExtend] at h52 ⊢; exact h52
  | _ =>
    simp [Asm.encode, SMC_ADD, SMC_ADDI, SMC_SUB, SMC_SUBI, SMC_MV, SMC_SRC, SMC_LDWD, SMC_LD, SMC_ST,
      SMC_AND, SMC_OR, SMC_XOR, SMC_INFO, SMC_BL, SMC_BEQ, SMC_JUMP, BitVec.getElem_signExtend] at h52 ⊢
    exact h52

/-- No encoder emits a word `is_sleep` accepts, whatever its operands. -/
theorem is_sleep_encode (a : Asm) : is_sleep a.encode = false := by
  rw [is_sleep, beq_eq_false_iff_ne]
  intro e
  have h52 : (a.encode >>> 48).getLsbD 4 = true := by rw [e]; rfl
  have h63 : (a.encode >>> 48).getLsbD 15 = false := by rw [e]; rfl
  have := encode_bit_52 a (by simpa using h52)
  rw [BitVec.getLsbD_ushiftRight] at h63
  rw [this] at h63
  cases h63

/-! ## Decoded words -/

def Ddr.isRead : Ddr → Bool
  | .RD .. => true
  | _ => false

namespace Mnemonic

def isDdr : Mnemonic → Bool
  | .DDR .. => true
  | _ => false

def isSleep : Mnemonic → Bool
  | .SLEEP _ => true
  | _ => false

def isLoad : Mnemonic → Bool
  | .LD .. => true
  | _ => false

/-- How many slots hold a READ. -/
def reads : Mnemonic → Nat
  | .DDR s0 s1 s2 s3 => ([s0, s1, s2, s3].filter Ddr.isRead).length
  | _ => 0

theorem reads_of_not_isDdr {m : Mnemonic} (h : m.isDdr = false) : m.reads = 0 := by
  cases m <;> first | rfl | cases h

end Mnemonic

theorem decode_isDdr (w : Inst) : (decode_inst w).isDdr = is_ddr w := by
  have harit : (decode_arit w).isDdr = false := by
    cases hc : counterOf (Inst.rs1 w) <;>
    · simp only [decode_arit, hc, apply_ite Mnemonic.isDdr]
      simp [Mnemonic.isDdr]
  have hbr : (decode_br w).isDdr = false := by
    simp only [decode_br, apply_ite Mnemonic.isDdr]
    simp [Mnemonic.isDdr]
  have hmisc : (decode_misc w).isDdr = false := by
    simp only [decode_misc, apply_ite Mnemonic.isDdr]
    simp [Mnemonic.isDdr]
  have hmem : (decode_mem w).isDdr = false := by
    simp only [decode_mem, apply_ite Mnemonic.isDdr]
    simp [Mnemonic.isDdr]
  have hbw : (decode_bw w).isDdr = false := by
    simp only [decode_bw, apply_ite Mnemonic.isDdr]
    simp [Mnemonic.isDdr]
  cases hd : is_ddr w
  · simp only [decode_inst, hd, apply_ite Mnemonic.isDdr, harit, hbr, hmisc, hmem, hbw]
    simp [Mnemonic.isDdr]
  · simp [decode_inst, hd, Mnemonic.isDdr]

theorem decode_isLoad (w : Inst) : (decode_inst w).isLoad = is_load w := by
  have harit : (decode_arit w).isLoad = false := by
    cases hc : counterOf (Inst.rs1 w) <;>
    · simp only [decode_arit, hc, apply_ite Mnemonic.isLoad]
      simp [Mnemonic.isLoad]
  have hbr : (decode_br w).isLoad = false := by
    simp only [decode_br, apply_ite Mnemonic.isLoad]
    simp [Mnemonic.isLoad]
  have hmisc : (decode_misc w).isLoad = false := by
    simp only [decode_misc, apply_ite Mnemonic.isLoad]
    simp [Mnemonic.isLoad]
  have hmem : (decode_mem w).isLoad = (Inst.fu_code w == 0) := by
    by_cases h0 : Inst.fu_code w = 0
    · simp [decode_mem, h0, Mnemonic.isLoad]
    · have e : (Inst.fu_code w == 0) = false := by simpa using h0
      simp only [decode_mem, if_neg h0, e, apply_ite Mnemonic.isLoad]
      simp [Mnemonic.isLoad]
  have hbw : (decode_bw w).isLoad = false := by
    simp only [decode_bw, apply_ite Mnemonic.isLoad]
    simp [Mnemonic.isLoad]
  -- the top 16 bits of a load are the opcode 2 and the function code 0
  have hload : is_load w = (Inst.op_code w == 2 && Inst.fu_code w == 0) := by
    rw [is_load, Inst.op_code, Inst.fu_code, Bool.eq_iff_iff]
    simp only [beq_iff_eq, Bool.and_eq_true]
    bv_omega
  rw [hload]
  unfold decode_inst
  split_ifs with hd h0 h8 h4 h2 h1
  · rw [is_ddr, beq_iff_eq] at hd
    have hne : (Inst.op_code w == 2) = false := by
      rw [Inst.op_code, beq_eq_false_iff_ne]
      bv_omega
    rw [hne]
    rfl
  · rw [harit, h0]; rfl
  · rw [hbr, h8]; rfl
  · rw [hmisc, h4]; rfl
  · rw [hmem, h2]; rfl
  · rw [hbw, h1]; rfl
  · have hne : (Inst.op_code w == 2) = false := by simpa using h2
    rw [hne]
    rfl

theorem decode_ddr_isRead (i : Mininst) : (decode_ddr i).isRead = (i >>> 12 == 9) := by
  simp only [decode_ddr, apply_ite Ddr.isRead]
  generalize i >>> 12 = c
  by_cases h9 : c = 9
  · simp [h9, Ddr.isRead]
  · have e : (c == 9) = false := by simpa using h9
    rw [e, if_neg h9]
    simp [Ddr.isRead]

theorem decode_reads {w : Inst} (h : is_ddr w = true) : (decode_inst w).reads = is_ddr_read w := by
  have r : List.range 4 = [0, 1, 2, 3] := rfl
  simp only [decode_inst, h, if_true, Mnemonic.reads, is_ddr_read, r, List.filter_cons, List.filter_nil,
    decode_ddr_isRead]
  cases slot w 0 >>> 12 == 9 <;> cases slot w 1 >>> 12 == 9 <;> cases slot w 2 >>> 12 == 9 <;>
    cases slot w 3 >>> 12 == 9 <;> rfl

end DRAMBender
