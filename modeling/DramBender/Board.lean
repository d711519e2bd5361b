import Mathlib
import DramBender.Isa
/-!
# A board

What `instruction.h` documents of the registers, the data memory, the wide data
register and the DDR commands. The words it says nothing about do what the
parameter `other` says, and `BL` compares its registers as signed or unsigned.
-/

namespace DRAMBender

open Machine

/-- A rank and what a bank address register holds. -/
abbrev Bank := Bool × CInt

/-- 64 bytes, in 32-bit words. -/
abbrev Line := Reg → CInt

/-- `row` is the row last activated in a bank. -/
structure Board where
  regs : Reg → CInt
  mem : CInt → CInt
  wide : Line
  row : Bank → CInt
  dram : Bank → CInt → CInt → Line

/-- A board that holds nothing but zeros. -/
def Board.zero : Board := ⟨fun _ => 0, fun _ => 0, fun _ => 0, fun _ => 0, fun _ _ _ _ => 0⟩

/-- A DDR command with its addresses; a READ carries what it returns. -/
inductive Cmd where
  | ACT (bank : Bank) (row : CInt)
  | PRE (bank : Bank)
  | PREA (rank : Bool)
  | WR (bank : Bank) (col : CInt) (ap : Bool) (data : Line)
  | RD (bank : Bank) (col : CInt) (ap : Bool) (data : Line)
  | REF (rank : Bool)

namespace Board

/-- The stride registers. -/
def CASR : Reg := 0
def BASR : Reg := 1
def RASR : Reg := 2

def set_reg (b : Board) (rt : Reg) (v : CInt) : Board := { b with regs := Function.update b.regs rt v }

@[simp] theorem set_reg_regs (b : Board) (rt : Reg) (v : CInt) : (b.set_reg rt v).regs = Function.update b.regs rt v := rfl
@[simp] theorem set_reg_mem (b : Board) (rt : Reg) (v : CInt) : (b.set_reg rt v).mem = b.mem := rfl
@[simp] theorem set_reg_wide (b : Board) (rt : Reg) (v : CInt) : (b.set_reg rt v).wide = b.wide := rfl
@[simp] theorem set_reg_row (b : Board) (rt : Reg) (v : CInt) : (b.set_reg rt v).row = b.row := rfl
@[simp] theorem set_reg_dram (b : Board) (rt : Reg) (v : CInt) : (b.set_reg rt v).dram = b.dram := rfl

/-- The registers of `b'` are those of `b`, the ones in `rts` apart. -/
def Frame (rts : List Reg) (b b' : Board) : Prop := ∀ rt ∉ rts, b'.regs rt = b.regs rt

namespace Frame

variable {rts rts' : List Reg} {b b1 b2 : Board}

theorem of_regs (h : b1.regs = b.regs) : Frame rts b b1 := fun rt _ => congrFun h rt

theorem mono (h : Frame rts b b1) (hs : ∀ rt ∈ rts, rt ∈ rts') : Frame rts' b b1 :=
  fun rt hrt => h rt fun hmem => hrt (hs rt hmem)

theorem trans (h1 : Frame rts b b1) (h2 : Frame rts b1 b2) : Frame rts b b2 :=
  fun rt hrt => (h2 rt hrt).trans (h1 rt hrt)

theorem set_reg (h : Frame rts b b1) {rt : Reg} (hrt : rt ∈ rts) (v : CInt) : Frame rts b (b1.set_reg rt v) := by
  intro r hr
  have hne : r ≠ rt := fun he => hr (he ▸ hrt)
  rw [set_reg_regs, Function.update_of_ne hne, h r hr]

end Frame

/-- Add a stride to an address register, if the command says so. -/
def increment (b : Board) (flag : Bool) (r stride : Reg) : Board :=
  if flag then b.set_reg r (b.regs r + b.regs stride) else b

def issue (b : Board) : Ddr → Board × List Cmd
  | .WR bar ibar car icar ap rank =>
    let bank : Bank := (rank, b.regs bar)
    let b' := { b with
      dram := Function.update b.dram bank (Function.update (b.dram bank) (b.row bank)
        (Function.update (b.dram bank (b.row bank)) (b.regs car) b.wide)) }
    ((b'.increment ibar bar BASR).increment icar car CASR, [.WR bank (b.regs car) ap b.wide])
  | .RD bar ibar car icar ap rank =>
    let bank : Bank := (rank, b.regs bar)
    ((b.increment ibar bar BASR).increment icar car CASR,
      [.RD bank (b.regs car) ap (b.dram bank (b.row bank) (b.regs car))])
  | .PRE bar ibar pall rank =>
    (b.increment ibar bar BASR, [if pall then .PREA rank else .PRE (rank, b.regs bar)])
  | .ACT bar ibar rar irar rank =>
    let bank : Bank := (rank, b.regs bar)
    let b' := { b with row := Function.update b.row bank (b.regs rar) }
    ((b'.increment ibar bar BASR).increment irar rar RASR, [.ACT bank (b.regs rar)])
  | .REF rank => (b, [.REF rank])
  | .SEL_CH _ => (b, [])
  | .NOP _ => (b, [])
  | .skip => (b, [])

/-- The commands of a word, first slot first. -/
def issue_all (b : Board) : List Ddr → Board × List Cmd
  | [] => (b, [])
  | d :: ds =>
    let (b1, es) := b.issue d
    let (b2, es') := b1.issue_all ds
    (b2, es ++ es')

def exec (other : Mnemonic → Board → Board × List Cmd) (m : Mnemonic) (b : Board) : Board × List Cmd :=
  match m with
  | .DDR s0 s1 s2 s3 => b.issue_all [s0, s1, s2, s3]
  | .LI rt imd => (b.set_reg rt imd, [])
  | .ADDI rt rs1 imd1 => (b.set_reg rt (b.regs rs1 + imd1.setWidth 32), [])
  | .MOV rt rs1 => (b.set_reg rt (b.regs rs1), [])
  | .LDWD rt rs1 => ({ b with wide := Function.update b.wide rt (b.regs rs1) }, [])
  | .LD rt rs1 imd1 => (b.set_reg rt (b.mem (b.regs rs1 + imd1.setWidth 32)), [])
  | .ST rs1 imd1 rt => ({ b with mem := Function.update b.mem (b.regs rs1 + imd1.setWidth 32) (b.regs rt) }, [])
  | .SLEEP _ => (b, [])
  | m => other m b

/-- The board as an instruction set. -/
def isa (signed : Bool) (other : Mnemonic → Board → Board × List Cmd) : Isa Board Cmd where
  exec := exec other
  branch := fun _ b => (b, [])
  lt := fun b rs1 rs2 => if signed then (b.regs rs1).slt (b.regs rs2) else (b.regs rs1).ult (b.regs rs2)
  eq := fun b rs1 rs2 => b.regs rs1 == b.regs rs2

end Board

end DRAMBender
