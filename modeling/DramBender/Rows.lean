import Mathlib
import DramBender.Instruction
import DramBender.Lib.Flip
/-!
# Row addresses

`row.py` maps a physical row to the address the module uses for it: some
modules swap rows inside groups of eight, under a condition on the other bits of
the address.
-/

namespace DCT

open DRAMBender Flip

def type1 (addr : Nat) : Nat := addr ^^^ (((addr >>> 3) &&& 1) * 0x6)

/-- `bin(i).count('1')` -/
def bin_count (i : Nat) : Nat := (Nat.toDigits 2 i).count '1'

def type2 (addr : Nat) : Nat :=
  let parity := bin_count (addr &&& 0x5408) &&& 1
  addr ^^^ (parity * 0x6)

def map_row (addr : Nat) (mapping : Option String) : Option Nat :=
  if mapping ∈ [some "SA0", some "MI0"] then some (type1 addr)
  else if mapping ∈ [some "MI1"] then some (type2 addr)
  else if mapping ∈ [some "Linear", some "None", none] then some addr
  else none

/-- The mappings `map_row` has a branch for. -/
def mappings : List (Option String) := [some "SA0", some "MI0", some "MI1", some "Linear", some "None", none]

/-- A row of an experiment. -/
structure Row where
  physical_id : Nat
  row_mapping : Option String

def Row.logical_id (r : Row) : Option Nat := map_row r.physical_id r.row_mapping

/-- `map_row` of `test.cpp`. -/
def test_map_row (addr : CInt) : CInt := addr ^^^ ((addr.sshiftRight 3 &&& 1) * 0x6)

/-! ## The mappings -/

theorem type1_scrambles : Scrambles 8 type1 := by
  -- bit 3 decides, bits 1 and 2 are flipped
  refine flip_scrambles (c := fun a => (a >>> 3) &&& 1) (m := 6) (k := 3) (fun a => ?_) (fun a => ?_) (by decide)
  · exact Nat.and_lt_two_pow (n := 1) _ (by decide)
  · rw [Nat.shiftRight_xor_distrib]
    exact congrArg (· &&& 1) (Nat.xor_zero _)

theorem type2_scrambles : Scrambles 8 type2 := by
  refine flip_scrambles (c := fun a => bin_count (a &&& 0x5408) &&& 1) (m := 6) (k := 3) (fun a => ?_) (fun a => ?_) (by decide)
  · exact Nat.and_lt_two_pow (n := 1) _ (by decide)
  · -- the mask has none of the flipped bits
    have hmask : (a ^^^ 6) &&& 0x5408 = a &&& 0x5408 := by
      rw [Nat.and_xor_distrib_right]
      exact Nat.xor_zero _
    change bin_count ((a ^^^ 6) &&& 0x5408) &&& 1 = _
    rw [hmask]

/-- Every mapping swaps rows inside groups of eight. -/
theorem map_row_scrambles {mapping : Option String} (h : mapping ∈ mappings) :
    ∃ f, (∀ addr, map_row addr mapping = some (f addr)) ∧ Scrambles 8 f := by
  simp only [mappings, List.mem_cons, List.not_mem_nil, or_false] at h
  rcases h with rfl | rfl | rfl | rfl | rfl | rfl
  · exact ⟨type1, fun _ => rfl, type1_scrambles⟩
  · exact ⟨type1, fun _ => rfl, type1_scrambles⟩
  · exact ⟨type2, fun _ => rfl, type2_scrambles⟩
  · exact ⟨id, fun _ => rfl, scrambles_id 8⟩
  · exact ⟨id, fun _ => rfl, scrambles_id 8⟩
  · exact ⟨id, fun _ => rfl, scrambles_id 8⟩

/-- An address of the C++ code that is no negative number. -/
theorem test_map_row_eq {addr : CInt} (h : 0 ≤ addr.toInt) : (test_map_row addr).toInt = type1 addr.toNat := by
  have hlt : 2 * addr.toNat < 2 ^ 32 := BitVec.toInt_pos_iff.1 h
  have hmsb : addr.msb = false := BitVec.msb_eq_false_iff_two_mul_lt.2 hlt
  have hbit : (addr.toNat >>> 3) &&& 1 < 2 := Nat.and_lt_two_pow (n := 1) _ (by decide)
  have hnat : (test_map_row addr).toNat = type1 addr.toNat := by
    unfold test_map_row type1
    rw [BitVec.sshiftRight_eq_of_msb_false hmsb, BitVec.toNat_xor, BitVec.toNat_mul, BitVec.toNat_and,
      BitVec.toNat_ushiftRight]
    congr 1
    exact Nat.mod_eq_of_lt (by simp; omega)
  -- the group of the address is below that of 2^31
  have hgroup := type1_scrambles.group addr.toNat
  rw [BitVec.toInt_eq_toNat_of_lt (by omega), hnat]

/-- The scrambling of row addresses keeps the groups of eight and is its own
inverse, so that the rows of an experiment stay apart. -/
theorem row_scrambling :
    (∀ mapping ∈ mappings, ∃ f, (∀ addr, map_row addr mapping = some (f addr)) ∧ Scrambles 8 f ∧
      (∀ N, 8 ∣ N → Set.BijOn f (Set.Iio N) (Set.Iio N)) ∧
      ∀ v, 1 ≤ v → [(⟨v, mapping⟩ : Row).logical_id, (⟨v - 1, mapping⟩ : Row).logical_id,
        (⟨v + 1, mapping⟩ : Row).logical_id] = [some (f v), some (f (v - 1)), some (f (v + 1))] ∧
        [f v, f (v - 1), f (v + 1)].Nodup) ∧
      Scrambles 8 type1 ∧ Scrambles 8 type2 ∧
      ∀ addr : CInt, 0 ≤ addr.toInt → (test_map_row addr).toInt = type1 addr.toNat := by
  refine ⟨fun mapping hm => ?_, type1_scrambles, type2_scrambles, fun addr => test_map_row_eq⟩
  obtain ⟨f, hf, hs⟩ := map_row_scrambles hm
  refine ⟨f, hf, hs, fun N => hs.bijOn, fun v hv => ⟨?_, ?_⟩⟩
  · simp only [Row.logical_id, hf]
  · have hinj := hs.involutive.injective
    simp only [List.nodup_cons, List.mem_cons, List.not_mem_nil, or_false, hinj.eq_iff]
    simp
    omega

end DCT
