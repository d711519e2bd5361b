import Mathlib
import DramBender.Encoding
import DramBender.Program
/-!
# Branch words

`link` ORs a label's address into the target field of a branch word. It leaves
the top 16 bits alone, so no classifier changes its answer, and it turns the
word `add_branch` leaves into the encoder's word for that target.
-/

namespace DRAMBender

open Program (link)

/-- The encoder call for a branch with a known target. -/
def branch_word (bt : BR_TYPE) (rs1 rs2 tgt : CInt) : Inst :=
  match bt with
  | .BL => SMC_BL rs1 rs2 tgt
  | .BEQ => SMC_BEQ rs1 rs2 tgt
  | .JUMP => SMC_JUMP tgt

/-- The target field of a branch word. -/
def branch_target (br : Inst) : Nat :=
  if is_conditional br then (Inst.bt br).toNat else (Inst.jt br).toNat

/-- What `link` ORs in. -/
def target_bits (br : Inst) (lbl : Nat) : Inst :=
  if is_conditional br then (BitVec.ofNat 32 lbl).signExtend 64 <<< 8 else (BitVec.ofNat 32 lbl).signExtend 64

theorem link_eq (br : Inst) (lbl : Nat) : link br lbl = br ||| target_bits br lbl := rfl

theorem sext_address {lbl : Nat} (h : lbl < 2147483648) :
    ((BitVec.ofNat 32 lbl).signExtend 64 : Inst) = BitVec.ofNat 64 lbl := by
  rw [BitVec.signExtend_eq_setWidth_of_msb_false]
  · apply BitVec.eq_of_toNat_eq
    simp
    omega
  · rw [BitVec.msb_eq_false_iff_two_mul_lt, BitVec.toNat_ofNat]
    omega

theorem address_top {lbl : Nat} (h : lbl < 2147483648) (n : Nat) (hn : n ≤ 8) :
    (BitVec.ofNat 64 lbl <<< n) >>> 48 = (0 : Inst) := by
  have hp : 2 ^ n ≤ 2 ^ 8 := Nat.pow_le_pow_right (by norm_num) hn
  have hm : lbl * 2 ^ n < 2147483648 * 256 := lt_of_le_of_lt (Nat.mul_le_mul_left _ hp) (by omega)
  apply BitVec.eq_of_toNat_eq
  simp only [BitVec.toNat_ushiftRight, BitVec.toNat_shiftLeft, BitVec.toNat_ofNat, Nat.shiftLeft_eq,
    Nat.shiftRight_eq_div_pow]
  rw [Nat.mod_eq_of_lt (show lbl < 2 ^ 64 by omega), Nat.mod_eq_of_lt (show lbl * 2 ^ n < 2 ^ 64 by omega),
    Nat.div_eq_of_lt (by omega)]
  rfl

theorem target_bits_top (br : Inst) {lbl : Nat} (h : lbl < 2147483648) : target_bits br lbl >>> 48 = 0 := by
  unfold target_bits
  split_ifs
  · rw [sext_address h]
    exact address_top h 8 le_rfl
  · rw [sext_address h]
    simpa using address_top h 0 (by omega)

theorem link_top (br : Inst) {lbl : Nat} (h : lbl < 2147483648) : link br lbl >>> 48 = br >>> 48 := by
  rw [link_eq, BitVec.ushiftRight_or_distrib, target_bits_top br h]
  exact BitVec.or_zero

section
variable (br : Inst) {lbl : Nat} (h : lbl < 2147483648)
include h

theorem is_ddr_link : is_ddr (link br lbl) = is_ddr br := by
  rw [is_ddr_eq, is_ddr_eq, link_top br h]

theorem is_branch_link : is_branch (link br lbl) = is_branch br := by
  rw [is_branch_eq, is_branch_eq, link_top br h]

theorem is_sleep_link : is_sleep (link br lbl) = is_sleep br := by
  rw [is_sleep, is_sleep, link_top br h]

theorem is_conditional_link : is_conditional (link br lbl) = is_conditional br := by
  rw [is_conditional, is_conditional, link_top br h]

/-- Linking to the same address again changes nothing. -/
theorem link_link : link (link br lbl) lbl = link br lbl := by
  rw [link_eq (link br lbl), target_bits, is_conditional_link br h, ← target_bits, link_eq, BitVec.or_assoc,
    BitVec.or_self]

end

/-- The addresses the target field can hold. -/
def target_range (br : Inst) : Nat := if is_conditional br then 524288 else 134217728

theorem branch_target_lt (br : Inst) : branch_target br < target_range br := by
  unfold branch_target target_range
  split_ifs
  · exact (Inst.bt br).isLt
  · exact (Inst.jt br).isLt

theorem target_range_le (br : Inst) : target_range br ≤ 134217728 := by
  unfold target_range
  split_ifs <;> omega

theorem le_target_range (br : Inst) : 524288 ≤ target_range br := by
  unfold target_range
  split_ifs <;> omega

theorem target_range_pow (br : Inst) : ∃ n, target_range br = 2 ^ n := by
  unfold target_range
  split_ifs
  · exact ⟨19, rfl⟩
  · exact ⟨27, rfl⟩

/-- The target field after linking: the bits that stood there, and the
address. -/
theorem branch_target_link (br : Inst) {lbl : Nat} (h : lbl < 2147483648) :
    branch_target (link br lbl) = branch_target br ||| lbl % target_range br := by
  rw [branch_target, branch_target, target_range, is_conditional_link br h, link_eq, target_bits, sext_address h]
  split_ifs
  · have e : (BitVec.ofNat 64 lbl <<< 8 >>> 8).setWidth 19 = BitVec.ofNat 19 lbl := by
      apply BitVec.eq_of_toNat_eq
      simp [Nat.shiftLeft_eq, Nat.shiftRight_eq_div_pow]
      omega
    rw [Inst.bt, Inst.bt, BitVec.ushiftRight_or_distrib, BitVec.setWidth_or, BitVec.toNat_or, e,
      BitVec.toNat_ofNat]
  · have e : (BitVec.ofNat 64 lbl).setWidth 27 = BitVec.ofNat 27 lbl := by
      apply BitVec.eq_of_toNat_eq
      simp
    rw [Inst.jt, Inst.jt, BitVec.setWidth_or, BitVec.toNat_or, e, BitVec.toNat_ofNat]

/-! ## The word `add_branch` leaves -/

section
variable {rs1 rs2 : CInt} (h1 : rs1 < 16) (h2 : rs2 < 16)
include h1 h2

theorem place_holder_top (bt : BR_TYPE) :
    place_holder bt rs1 rs2 >>> 48 = match bt with | .BL => 0x4000 | .BEQ => 0x4001 | .JUMP => 0x4002 := by
  obtain ⟨p, rfl⟩ := exists_reg h1
  obtain ⟨q, rfl⟩ := exists_reg h2
  cases bt with
  | BL =>
    change SMC_BL (p.setWidth 32) (q.setWidth 32) ((0 : BitVec 19).setWidth 32) >>> 48 = 0x4000
    rw [SMC_BL_br, br_top]
    rfl
  | BEQ =>
    change SMC_BEQ (p.setWidth 32) (q.setWidth 32) ((0 : BitVec 19).setWidth 32) >>> 48 = 0x4001
    rw [SMC_BEQ_br, br_top]
    rfl
  | JUMP =>
    change SMC_JUMP 0 >>> 48 = 0x4002
    decide

theorem is_branch_place_holder (bt : BR_TYPE) : is_branch (place_holder bt rs1 rs2) = true := by
  rw [is_branch_eq, place_holder_top h1 h2]
  cases bt <;> rfl

theorem is_load_place_holder (bt : BR_TYPE) : is_load (place_holder bt rs1 rs2) = false := by
  rw [is_load, place_holder_top h1 h2]
  cases bt <;> rfl

/-- Linked, it is the encoder's word for the target. -/
theorem link_place_holder (bt : BR_TYPE) (lbl : Nat) :
    link (place_holder bt rs1 rs2) lbl = branch_word bt rs1 rs2 (BitVec.ofNat 32 lbl) := by
  have hc : is_conditional (place_holder bt rs1 rs2) = match bt with | .JUMP => false | _ => true := by
    rw [is_conditional, place_holder_top h1 h2]
    cases bt <;> rfl
  rw [link_eq, target_bits, hc]
  cases bt <;> simp [place_holder, branch_word, SMC_BL, SMC_BEQ, SMC_JUMP]

theorem branch_target_place_holder (bt : BR_TYPE) : branch_target (place_holder bt rs1 rs2) = 0 := by
  obtain ⟨p, rfl⟩ := exists_reg h1
  obtain ⟨q, rfl⟩ := exists_reg h2
  cases bt with
  | BL =>
    change branch_target (SMC_BL (p.setWidth 32) (q.setWidth 32) ((0 : BitVec 19).setWidth 32)) = 0
    rw [SMC_BL_br, branch_target, br_bt]
    simp [is_conditional]
  | BEQ =>
    change branch_target (SMC_BEQ (p.setWidth 32) (q.setWidth 32) ((0 : BitVec 19).setWidth 32)) = 0
    rw [SMC_BEQ_br, branch_target, br_bt]
    simp [is_conditional]
  | JUMP =>
    change branch_target (SMC_JUMP 0) = 0
    decide

end

end DRAMBender
