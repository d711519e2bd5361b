import Mathlib
import DramBender.Link
import DramBender.Lib.Machine
/-!
# Running instruction words

An `Isa` says what the data words do and when a conditional branch is taken;
`act` adds the control flow that `decode_inst` reads from a word. INFO has no
effect and END halts.
-/

namespace DRAMBender

open Machine
open Program (link)

/-- The branch to an address. -/
def BR_TYPE.mnemonic (bt : BR_TYPE) (t : Nat) (rs1 rs2 : Reg) : Mnemonic :=
  match bt with
  | .BL => .BL (BitVec.ofNat 19 t) rs1 rs2
  | .BEQ => .BEQ (BitVec.ofNat 19 t) rs1 rs2
  | .JUMP => .JUMP (BitVec.ofNat 27 t)

section
variable {rs1 rs2 : CInt} (h1 : rs1 < 16) (h2 : rs2 < 16)
include h1 h2

theorem decode_place_holder (bt : BR_TYPE) :
    decode_inst (place_holder bt rs1 rs2) = bt.mnemonic 0 (rs1.setWidth 4) (rs2.setWidth 4) := by
  obtain ⟨p, rfl⟩ := exists_reg h1
  obtain ⟨q, rfl⟩ := exists_reg h2
  rw [BitVec.setWidth_setWidth_of_le p (by decide), BitVec.setWidth_setWidth_of_le q (by decide), BitVec.setWidth_eq,
    BitVec.setWidth_eq]
  cases bt with
  | BL =>
    refine Eq.trans ?_ (decode_br_BL 0 p q)
    rw [← SMC_BL_br]
    rfl
  | BEQ =>
    refine Eq.trans ?_ (decode_br_BEQ 0 p q)
    rw [← SMC_BEQ_br]
    rfl
  | JUMP =>
    refine Eq.trans ?_ (decode_jmp 0)
    rw [← SMC_JUMP_jmp]
    rfl

theorem decode_link_place_holder (bt : BR_TYPE) {t : Nat} (ht : t < 524288) :
    decode_inst (link (place_holder bt rs1 rs2) t) = bt.mnemonic t (rs1.setWidth 4) (rs2.setWidth 4) := by
  rw [link_place_holder h1 h2]
  obtain ⟨p, rfl⟩ := exists_reg h1
  obtain ⟨q, rfl⟩ := exists_reg h2
  have e19 : (BitVec.ofNat 32 t : CInt) = (BitVec.ofNat 19 t).setWidth 32 := by
    apply BitVec.eq_of_toNat_eq
    simp
    omega
  have e27 : (BitVec.ofNat 32 t : CInt) = (BitVec.ofNat 27 t).setWidth 32 := by
    apply BitVec.eq_of_toNat_eq
    simp
    omega
  rw [BitVec.setWidth_setWidth_of_le p (by decide), BitVec.setWidth_setWidth_of_le q (by decide), BitVec.setWidth_eq,
    BitVec.setWidth_eq]
  cases bt with
  | BL => rw [branch_word, e19, SMC_BL_br, decode_br_BL, BR_TYPE.mnemonic]
  | BEQ => rw [branch_word, e19, SMC_BEQ_br, decode_br_BEQ, BR_TYPE.mnemonic]
  | JUMP => rw [branch_word, e27, SMC_JUMP_jmp, decode_jmp, BR_TYPE.mnemonic]

end

/-- The data path of a board, and what executing a branch does besides
branching. -/
structure Isa (σ ε : Type) where
  exec : Mnemonic → σ → σ × List ε
  branch : BR_TYPE → σ → σ × List ε
  lt : σ → Reg → Reg → Bool
  eq : σ → Reg → Reg → Bool

namespace Isa

variable {σ ε : Type} (isa : Isa σ ε)

def actOf : Mnemonic → Act σ ε
  | .END => .halt
  | .INFO => nop
  | .BL bt rs1 rs2 => .branch (isa.branch .BL) (fun s => isa.lt s rs1 rs2) bt.toNat
  | .BEQ bt rs1 rs2 => .branch (isa.branch .BEQ) (fun s => isa.eq s rs1 rs2) bt.toNat
  | .JUMP jt => .branch (isa.branch .JUMP) (fun _ => true) jt.toNat
  | m => .exec (isa.exec m)

def act (w : Inst) : Act σ ε := isa.actOf (decode_inst w)

theorem act_INFO {r : Nat} (h : r ≤ 1024) : isa.act (SMC_INFO (BitVec.ofNat 32 r)) = nop := by
  have hr : (BitVec.ofNat 32 r) < 2147483648 := by bv_omega
  rw [act, decode_SMC_INFO hr]
  rfl

theorem isBranch_of_actOf {m : Mnemonic} {f : σ → σ × List ε} {taken : σ → Bool} {tgt : Nat}
    (h : isa.actOf m = .branch f taken tgt) : m.isBranch = true := by
  cases m <;> first | rfl | cases h

/-- Only a branch has a target to move. -/
theorem retarget_act {w : Inst} (h : (decode_inst w).isBranch = false) (g : Nat → Nat) :
    (isa.act w).retarget g = isa.act w := by
  unfold act
  cases hd : decode_inst w <;> first | rfl | simp [hd, Mnemonic.isBranch] at h

section
variable {rs1 rs2 : CInt} (h1 : rs1 < 16) (h2 : rs2 < 16)
include h1 h2

/-- Linking the word `add_branch` leaves sends its branch to the address. -/
theorem act_link_place_holder (bt : BR_TYPE) {t : Nat} (ht : t < 524288) :
    isa.act (link (place_holder bt rs1 rs2) t) = (isa.act (place_holder bt rs1 rs2)).retarget fun _ => t := by
  have t19 : (BitVec.ofNat 19 t).toNat = t := by
    rw [BitVec.toNat_ofNat]
    exact Nat.mod_eq_of_lt ht
  have t27 : (BitVec.ofNat 27 t).toNat = t := by
    rw [BitVec.toNat_ofNat]
    exact Nat.mod_eq_of_lt (by omega)
  rw [act, act, decode_link_place_holder h1 h2 bt ht, decode_place_holder h1 h2 bt]
  cases bt with
  | BL =>
    rw [BR_TYPE.mnemonic, actOf, t19]
    rfl
  | BEQ =>
    rw [BR_TYPE.mnemonic, actOf, t19]
    rfl
  | JUMP =>
    rw [BR_TYPE.mnemonic, actOf, t27]
    rfl

end

/-! ## Executing programs -/

/-- Runs of programs executed one after the other, up to some point in one of
them, with the events on the way. -/
inductive QueueRun : List Program → σ → List ε → Prop
  | nil (s : σ) : QueueRun [] s []
  | running {p : Program} {prog_queue : List Program} {s s' : σ} {es : List ε} {pc : Nat}
      (h : Steps (p.get_inst_seq.map isa.act) 0 s es pc s') : QueueRun (p :: prog_queue) s es
  | halted {p : Program} {prog_queue : List Program} {s s' : σ} {es es' : List ε}
      (h : Halts (p.get_inst_seq.map isa.act) 0 s es s') (hq : QueueRun prog_queue s' es') :
      QueueRun (p :: prog_queue) s (es ++ es')

end Isa

namespace Platform

/-- `max_num_insts_per_prog_`, as the constructor sets it. -/
def max_num_insts_per_prog : Nat := 2048

/-- The assertions of `execute`. -/
def Executable (prog : Program) : Prop := prog.concluded = true ∧ prog.get_num_insts ≤ max_num_insts_per_prog

end Platform

end DRAMBender
