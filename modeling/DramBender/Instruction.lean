import Mathlib
/-!
# Instruction words

The encoders, classifiers and decoder of `instruction.cpp`. A C `int` operand
is a `BitVec 32`, sign-extended where the source widens it; a `uint32_t`
operand is zero-extended. The decoder returns the mnemonic and the operands
that `decode_inst` prints.
-/

namespace DRAMBender

/-- 64-bit instructions. -/
abbrev Inst := BitVec 64

/-- 16-bit mini DDR instructions. -/
abbrev Mininst := BitVec 16

/-- A C `int` or `uint32_t`. -/
abbrev CInt := BitVec 32

/-- A register number as it stands in an instruction word. -/
abbrev Reg := BitVec 4

/-- Counter types for `SMC_LDPC`. -/
inductive PC_TYPE where
  | WRITE | READ | PRE | ACT | SEL_CH | REF | CYC
  deriving DecidableEq, Repr

/-! ## Mini instructions -/

def SMC_WRITE (bar ibar car icar rank ap : CInt) : Mininst :=
  let fu_code : Mininst := (8 : Mininst) <<< 12
  let i_bar : Mininst := bar.setWidth 16
  let i_car : Mininst := (car <<< 4).setWidth 16
  let i_ibar : Mininst := (ibar <<< 10).setWidth 16
  let i_icar : Mininst := (icar <<< 11).setWidth 16
  let i_rank : Mininst := (rank <<< 8).setWidth 16
  let i_ap : Mininst := (ap <<< 9).setWidth 16
  fu_code ||| i_bar ||| i_car ||| i_ibar ||| i_icar ||| i_rank ||| i_ap

def SMC_READ (bar ibar car icar rank ap : CInt) : Mininst :=
  let fu_code : Mininst := (9 : Mininst) <<< 12
  let i_bar : Mininst := bar.setWidth 16
  let i_car : Mininst := (car <<< 4).setWidth 16
  let i_ibar : Mininst := (ibar <<< 10).setWidth 16
  let i_icar : Mininst := (icar <<< 11).setWidth 16
  let i_rank : Mininst := (rank <<< 8).setWidth 16
  let i_ap : Mininst := (ap <<< 9).setWidth 16
  fu_code ||| i_bar ||| i_car ||| i_ibar ||| i_icar ||| i_rank ||| i_ap

def SMC_PRE (bar ibar pall : CInt) (rank : CInt := 0) : Mininst :=
  let fu_code : Mininst := (10 : Mininst) <<< 12
  let i_bar : Mininst := bar.setWidth 16
  let i_ibar : Mininst := (ibar <<< 10).setWidth 16
  let i_pall : Mininst := (pall <<< 11).setWidth 16
  let i_rank : Mininst := (rank <<< 8).setWidth 16
  fu_code ||| i_bar ||| i_ibar ||| i_pall ||| i_rank

def SMC_ACT (bar ibar rar irar : CInt) (rank : CInt := 0) : Mininst :=
  let fu_code : Mininst := (11 : Mininst) <<< 12
  let i_bar : Mininst := bar.setWidth 16
  let i_rar : Mininst := (rar <<< 4).setWidth 16
  let i_ibar : Mininst := (ibar <<< 10).setWidth 16
  let i_irar : Mininst := (irar <<< 11).setWidth 16
  let i_rank : Mininst := (rank <<< 8).setWidth 16
  fu_code ||| i_bar ||| i_rar ||| i_ibar ||| i_irar ||| i_rank

def SMC_SEL_CH (channel : CInt) (pseudo_channel : CInt := 0) : Mininst :=
  let fu_code : Mininst := (12 : Mininst) <<< 12
  let i_rank : Mininst := (pseudo_channel <<< 8).setWidth 16
  let i_channel : Mininst := channel.setWidth 16
  fu_code ||| i_rank ||| i_channel

def SMC_REF (rank : CInt := 0) : Mininst :=
  let fu_code : Mininst := (13 : Mininst) <<< 12
  let i_rank : Mininst := (rank <<< 8).setWidth 16
  fu_code ||| i_rank

def SMC_NOP (rank : CInt := 0) : Mininst :=
  let fu_code : Mininst := (15 : Mininst) <<< 12
  let i_rank : Mininst := (rank <<< 8).setWidth 16
  fu_code ||| i_rank

/-- `__pack_mininsts`: four mini instructions, the first one in the low bits. -/
def pack_mininsts (i1 i2 i3 i4 : Mininst) : Inst :=
  i4.setWidth 64 <<< 48 ||| i3.setWidth 64 <<< 32 ||| i2.setWidth 64 <<< 16 ||| i1.setWidth 64

def all_nops : Inst := pack_mininsts SMC_NOP SMC_NOP SMC_NOP SMC_NOP

/-! ## Words -/

def SMC_ADD (rs1 rs2 rt : CInt) : Inst :=
  let fu_code : Inst := (0 : Inst) <<< 48
  let s_regs : Inst := (rs2 <<< 4 ||| rs1).signExtend 64
  let t_reg : Inst := (rt <<< 20).signExtend 64
  fu_code ||| s_regs ||| t_reg

def SMC_ADDI (rs1 imd rt : CInt) : Inst :=
  let fu_code : Inst := (1 : Inst) <<< 48
  let s_reg : Inst := rs1.signExtend 64
  let imd1 : Inst := (imd <<< 4).setWidth 64
  let t_reg : Inst := (rt <<< 20).signExtend 64
  fu_code ||| s_reg ||| imd1 ||| t_reg

def SMC_SUB (rs1 rs2 rt : CInt) : Inst :=
  let fu_code : Inst := (2 : Inst) <<< 48
  let s_regs : Inst := (rs2 <<< 4 ||| rs1).signExtend 64
  let t_reg : Inst := (rt <<< 20).signExtend 64
  fu_code ||| s_regs ||| t_reg

def SMC_SUBI (rs1 imd rt : CInt) : Inst :=
  let fu_code : Inst := (3 : Inst) <<< 48
  let s_reg : Inst := rs1.signExtend 64
  let imd1 : Inst := (imd <<< 4).setWidth 64
  let t_reg : Inst := (rt <<< 20).signExtend 64
  fu_code ||| s_reg ||| imd1 ||| t_reg

/-- The 32-bit immediate is split over two 16-bit fields. -/
def SMC_LI (imd rt : CInt) : Inst :=
  let fu_code : Inst := (6 : Inst) <<< 48
  let imd1 : Inst := (imd <<< 16 >>> 16 <<< 4).setWidth 64
  let imd2 : Inst := (imd >>> 16).setWidth 64 <<< 24
  let t_reg : Inst := (rt <<< 20).signExtend 64
  fu_code ||| imd1 ||| imd2 ||| t_reg

def SMC_MV (rs1 rt : CInt) : Inst :=
  let fu_code : Inst := (4 : Inst) <<< 48
  let s_reg : Inst := rs1.signExtend 64
  let t_reg : Inst := (rt <<< 20).signExtend 64
  fu_code ||| s_reg ||| t_reg

def SMC_SRC (rs1 rt : CInt) : Inst :=
  let fu_code : Inst := (5 : Inst) <<< 48
  let s_reg : Inst := rs1.signExtend 64
  let t_reg : Inst := (rt <<< 20).signExtend 64
  fu_code ||| s_reg ||| t_reg

def SMC_LDWD (rs1 off : CInt) : Inst :=
  let fu_code : Inst := (7 : Inst) <<< 48
  let s_reg : Inst := rs1.signExtend 64
  let offset : Inst := (off <<< 20).signExtend 64
  fu_code ||| s_reg ||| offset

/-- The register number that stands for a counter. -/
def PC_TYPE.pc_reg : PC_TYPE → Inst
  | .WRITE => 0
  | .READ => 1
  | .PRE => 2
  | .ACT => 3
  | .SEL_CH => 4
  | .REF => 5
  | .CYC => 6

def SMC_LDPC (pc_type : PC_TYPE) (rt : CInt) : Inst :=
  let fu_code : Inst := (8 : Inst) <<< 48
  let t_reg : Inst := (rt <<< 20).signExtend 64
  fu_code ||| pc_type.pc_reg ||| t_reg

def SMC_BL (rs1 rs2 tgt : CInt) : Inst :=
  let op_code : Inst := (1 : Inst) <<< 62
  let fu_code : Inst := (0 : Inst) <<< 48
  let s_regs : Inst := (rs2 <<< 4 ||| rs1).signExtend 64
  let target : Inst := tgt.signExtend 64 <<< 8
  op_code ||| fu_code ||| s_regs ||| target

def SMC_BEQ (rs1 rs2 tgt : CInt) : Inst :=
  let op_code : Inst := (1 : Inst) <<< 62
  let fu_code : Inst := (1 : Inst) <<< 48
  let s_regs : Inst := (rs2 <<< 4 ||| rs1).signExtend 64
  let target : Inst := tgt.signExtend 64 <<< 8
  op_code ||| fu_code ||| s_regs ||| target

def SMC_JUMP (tgt : CInt) : Inst :=
  let op_code : Inst := (1 : Inst) <<< 62
  let fu_code : Inst := (2 : Inst) <<< 48
  let target : Inst := tgt.signExtend 64
  op_code ||| fu_code ||| target

/-- `none` is the failed assertion "Cannot sleep for less than 3 cycles." -/
def SMC_SLEEP (samt : CInt) : Option Inst :=
  if 2 < samt then
    let op_code : Inst := (1 : Inst) <<< 62
    let fu_code : Inst := (3 : Inst) <<< 48
    some (op_code ||| fu_code ||| (samt - 2).setWidth 64)
  else none

def SMC_LD (rb offset rt : CInt) : Inst :=
  let op_code : Inst := (1 : Inst) <<< 60
  let fu_code : Inst := (0 : Inst) <<< 48
  let s_reg : Inst := rb.signExtend 64
  let imd1 : Inst := (offset <<< 4).signExtend 64
  let t_reg : Inst := (rt <<< 20).signExtend 64
  op_code ||| fu_code ||| s_reg ||| imd1 ||| t_reg

def SMC_ST (rb offset rv : CInt) : Inst :=
  let op_code : Inst := (1 : Inst) <<< 60
  let fu_code : Inst := (1 : Inst) <<< 48
  let b_reg : Inst := rb.signExtend 64
  let imd1 : Inst := (offset <<< 4).signExtend 64
  let v_reg : Inst := (rv <<< 20).signExtend 64
  op_code ||| fu_code ||| b_reg ||| imd1 ||| v_reg

def SMC_AND (rs1 rs2 rt : CInt) : Inst :=
  let op_code : Inst := (1 : Inst) <<< 59
  let fu_code : Inst := (0 : Inst) <<< 48
  let s_regs : Inst := (rs2 <<< 4 ||| rs1).signExtend 64
  let t_reg : Inst := (rt <<< 20).signExtend 64
  op_code ||| fu_code ||| s_regs ||| t_reg

def SMC_OR (rs1 rs2 rt : CInt) : Inst :=
  let op_code : Inst := (1 : Inst) <<< 59
  let fu_code : Inst := (1 : Inst) <<< 48
  let s_regs : Inst := (rs2 <<< 4 ||| rs1).signExtend 64
  let t_reg : Inst := (rt <<< 20).signExtend 64
  op_code ||| fu_code ||| s_regs ||| t_reg

def SMC_XOR (rs1 rs2 rt : CInt) : Inst :=
  let op_code : Inst := (1 : Inst) <<< 59
  let fu_code : Inst := (2 : Inst) <<< 48
  let s_regs : Inst := (rs2 <<< 4 ||| rs1).signExtend 64
  let t_reg : Inst := (rt <<< 20).signExtend 64
  op_code ||| fu_code ||| s_regs ||| t_reg

def SMC_END : Inst := 0

def SMC_INFO (rdcnt : CInt) : Inst :=
  let op_code : Inst := (1 : Inst) <<< 61
  let fu_code : Inst := (0 : Inst) <<< 48
  op_code ||| fu_code ||| rdcnt.signExtend 64

def SMC_SRE : Inst :=
  let op_code : Inst := (1 : Inst) <<< 56
  let fu_code : Inst := (0x100 : Inst) <<< 48
  fu_code ||| op_code

def SMC_SRX : Inst :=
  let op_code : Inst := (1 : Inst) <<< 56
  let fu_code : Inst := (0x101 : Inst) <<< 48
  fu_code ||| op_code

/-! ## Classifiers -/

def is_conditional (i : Inst) : Bool :=
  let fcode : Inst := i >>> 48 &&& 0x7ff
  fcode == 0 || fcode == 1

def is_branch (i : Inst) : Bool := i >>> 59 == 8

def is_ddr (i : Inst) : Bool := i >>> 63 == 1

def is_load (i : Inst) : Bool := i >>> 48 == 4096

def is_sleep (i : Inst) : Bool := i >>> 48 == 19

/-- The mini instruction in slot `k`, slot 0 in the low bits. -/
def slot (inst : Inst) (k : Nat) : Mininst := (inst >>> (k * 16)).setWidth 16

/-- How many of the four slots hold a READ. -/
def is_ddr_read (inst : Inst) : Nat :=
  ((List.range 4).filter fun i => slot inst i >>> 12 == 9).length

/-! ## Decoding -/

/-- What `decode_ddr` prints for one slot. `skip` is a code with no case in its
switch. -/
inductive Ddr where
  | WR (bar : Reg) (ibar : Bool) (car : Reg) (icar ap rank : Bool)
  | RD (bar : Reg) (ibar : Bool) (car : Reg) (icar ap rank : Bool)
  | PRE (bar : Reg) (ibar pall rank : Bool)
  | ACT (bar : Reg) (ibar : Bool) (rar : Reg) (irar rank : Bool)
  | SEL_CH (rank : Bool)
  | REF (rank : Bool)
  | NOP (rank : Bool)
  | skip
  deriving DecidableEq, Repr

def decode_ddr (i : Mininst) : Ddr :=
  let ddr_code := i >>> 12
  let car : Reg := (i >>> 4).setWidth 4
  let bar : Reg := i.setWidth 4
  let rar : Reg := (i >>> 4).setWidth 4
  let icar := i.getLsbD 11
  let ibar := i.getLsbD 10
  let irar := i.getLsbD 11
  let pall := i.getLsbD 11
  let ap := i.getLsbD 9
  let rank := i.getLsbD 8
  if ddr_code = 8 then .WR bar ibar car icar ap rank
  else if ddr_code = 9 then .RD bar ibar car icar ap rank
  else if ddr_code = 10 then .PRE bar ibar pall rank
  else if ddr_code = 11 then .ACT bar ibar rar irar rank
  else if ddr_code = 12 then .SEL_CH rank
  else if ddr_code = 13 then .REF rank
  else if ddr_code = 15 then .NOP rank
  else .skip

/-- What `decode_inst` prints: the mnemonic and its operands. `skip` is a word
for which nothing is printed. -/
inductive Mnemonic where
  | DDR (s0 s1 s2 s3 : Ddr)
  | END
  | ADD (rt rs1 rs2 : Reg)
  | ADDI (rt rs1 : Reg) (imd1 : BitVec 16)
  | SUB (rt rs1 rs2 : Reg)
  | SUBI (rt rs1 : Reg) (imd1 : BitVec 16)
  | MOV (rt rs1 : Reg)
  | LI (rt : Reg) (imd_concat : BitVec 32)
  | SRC (rt rs1 : Reg)
  | LDWD (rt rs1 : Reg)
  | LDPC (rt : Reg) (counter : PC_TYPE)
  | SRE
  | SRX
  | BL (bt : BitVec 19) (rs1 rs2 : Reg)
  | BEQ (bt : BitVec 19) (rs1 rs2 : Reg)
  | JUMP (jt : BitVec 27)
  | SLEEP (samt : BitVec 32)
  | INFO
  | LD (rt rs1 : Reg) (imd1 : BitVec 16)
  | ST (rs1 : Reg) (imd1 : BitVec 16) (rt : Reg)
  | AND (rt rs1 rs2 : Reg)
  | OR (rt rs1 rs2 : Reg)
  | XOR (rt rs1 rs2 : Reg)
  | skip
  deriving DecidableEq, Repr

/-- The counter `decode_inst` names for a register number. -/
def counterOf (rs1 : Reg) : Option PC_TYPE :=
  if rs1 = 0 then some .WRITE
  else if rs1 = 1 then some .READ
  else if rs1 = 2 then some .PRE
  else if rs1 = 3 then some .ACT
  else if rs1 = 4 then some .SEL_CH
  else if rs1 = 5 then some .REF
  else if rs1 = 6 then some .CYC
  else none

/-! The operand fields, as `decode_inst` cuts them out. -/

def Inst.fu_code (inst : Inst) : BitVec 11 := (inst >>> 48).setWidth 11
def Inst.op_code (inst : Inst) : Inst := inst >>> 59
def Inst.rs1 (inst : Inst) : Reg := inst.setWidth 4
def Inst.rs2 (inst : Inst) : Reg := (inst >>> 4).setWidth 4
def Inst.rt (inst : Inst) : Reg := (inst >>> 20).setWidth 4
def Inst.imd1 (inst : Inst) : BitVec 16 := (inst >>> 4).setWidth 16
def Inst.imd3 (inst : Inst) : BitVec 16 := (inst >>> 24).setWidth 16
def Inst.bt (inst : Inst) : BitVec 19 := (inst >>> 8).setWidth 19
def Inst.jt (inst : Inst) : BitVec 27 := inst.setWidth 27
def Inst.samt (inst : Inst) : BitVec 32 := inst.setWidth 32

/-- The `is_arit` switch of `decode_inst`. -/
def decode_arit (inst : Inst) : Mnemonic :=
  let fu := Inst.fu_code inst
  if fu = 0 then
    if inst = 0 then .END else .ADD (Inst.rt inst) (Inst.rs1 inst) (Inst.rs2 inst)
  else if fu = 1 then .ADDI (Inst.rt inst) (Inst.rs1 inst) (Inst.imd1 inst)
  else if fu = 2 then .SUB (Inst.rt inst) (Inst.rs1 inst) (Inst.rs2 inst)
  else if fu = 3 then .SUBI (Inst.rt inst) (Inst.rs1 inst) (Inst.imd1 inst)
  else if fu = 4 then .MOV (Inst.rt inst) (Inst.rs1 inst)
  else if fu = 6 then .LI (Inst.rt inst) ((Inst.imd3 inst).setWidth 32 <<< 16 + (Inst.imd1 inst).setWidth 32)
  else if fu = 5 then .SRC (Inst.rt inst) (Inst.rs1 inst)
  else if fu = 7 then .LDWD (Inst.rt inst) (Inst.rs1 inst)
  else if fu = 8 then
    match counterOf (Inst.rs1 inst) with
    | some c => .LDPC (Inst.rt inst) c
    | none => .skip
  else if fu = 0x100 then .SRE
  else if fu = 0x101 then .SRX
  else .skip

/-- The `is_br` switch. -/
def decode_br (inst : Inst) : Mnemonic :=
  let fu := Inst.fu_code inst
  if fu = 0 then .BL (Inst.bt inst) (Inst.rs1 inst) (Inst.rs2 inst)
  else if fu = 1 then .BEQ (Inst.bt inst) (Inst.rs1 inst) (Inst.rs2 inst)
  else if fu = 2 then .JUMP (Inst.jt inst)
  else if fu = 3 then .SLEEP (Inst.samt inst)
  else .skip

/-- The `is_misc` switch. -/
def decode_misc (inst : Inst) : Mnemonic :=
  if Inst.fu_code inst = 0 then .INFO else .skip

/-- The `is_mem` switch. -/
def decode_mem (inst : Inst) : Mnemonic :=
  let fu := Inst.fu_code inst
  if fu = 0 then .LD (Inst.rt inst) (Inst.rs1 inst) (Inst.imd1 inst)
  else if fu = 1 then .ST (Inst.rs1 inst) (Inst.imd1 inst) (Inst.rt inst)
  else .skip

/-- The `is_bw` switch. -/
def decode_bw (inst : Inst) : Mnemonic :=
  let fu := Inst.fu_code inst
  if fu = 0 then .AND (Inst.rt inst) (Inst.rs1 inst) (Inst.rs2 inst)
  else if fu = 1 then .OR (Inst.rt inst) (Inst.rs1 inst) (Inst.rs2 inst)
  else if fu = 2 then .XOR (Inst.rt inst) (Inst.rs1 inst) (Inst.rs2 inst)
  else .skip

def decode_inst (inst : Inst) : Mnemonic :=
  if is_ddr inst then
    .DDR (decode_ddr (slot inst 0)) (decode_ddr (slot inst 1))
      (decode_ddr (slot inst 2)) (decode_ddr (slot inst 3))
  else if Inst.op_code inst = 0 then decode_arit inst
  else if Inst.op_code inst = 8 then decode_br inst
  else if Inst.op_code inst = 4 then decode_misc inst
  else if Inst.op_code inst = 2 then decode_mem inst
  else if Inst.op_code inst = 1 then decode_bw inst
  else .skip

end DRAMBender
