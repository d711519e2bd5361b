import Mathlib
import DramBender.Bitflips
/-!
# The positions of bitflips

`get_set_indices` looks at the flip masks byte by byte, low byte first, and at
every byte bit by bit, high bit first.
-/

namespace DCT

open DRAMBender

/-- `np.unpackbits`, which takes the high bit of a byte first. -/
def unpackbits (bytes : List (BitVec 8)) : List Bool :=
  bytes.flatMap fun b => (List.range 8).map fun i => b.getLsbD (7 - i)

/-- `np.nonzero`: where the ones are. -/
def nonzero (bits : List Bool) : List Nat := (List.range bits.length).filter fun i => bits.getD i false

def get_set_indices (arr : List (BitVec 64)) : List Nat := nonzero (unpackbits (bytes_view arr))

/-- The bit with the number `j`: bit `j % 64` of word `j / 64`. -/
def bit_at (arr : List (BitVec 64)) (j : Nat) : Bool := (arr.getD (j / 64) 0).getLsbD (j % 64)

/-- The indices are those of the set bits, in ascending order. -/
structure Positions (arr : List (BitVec 64)) (indices : List Nat) : Prop where
  ascending : indices.Pairwise (· < ·)
  mem : ∀ i b, b < 64 → (64 * i + b ∈ indices ↔ ∃ w, arr[i]? = some w ∧ w.getLsbD b = true)

/-- The bit at the same distance from the other end of its byte. -/
def mirror (b : Nat) : Nat := 8 * (b / 8) + (7 - b % 8)

theorem mirror_mirror (b : Nat) : mirror (mirror b) = b := by
  unfold mirror
  omega

theorem mirror_lt {b n : Nat} (h : b < 8 * n) : mirror b < 8 * n := by
  unfold mirror
  omega

theorem mirror_div (j : Nat) : mirror j / 64 = j / 64 ∧ mirror j % 64 = mirror (j % 64) := by
  unfold mirror
  omega

/-! ## What `get_set_indices` returns -/

theorem length_bits (arr : List (BitVec 64)) : (unpackbits (bytes_view arr)).length = 64 * arr.length := by
  rw [unpackbits, Blocks.length_flatMap (n := 8) (by simp), bytes_view, Blocks.length_flatMap (n := 8) (by simp)]
  omega

theorem unpackbits_at (arr : List (BitVec 64)) {j : Nat} (hj : j < 64 * arr.length) :
    (unpackbits (bytes_view arr))[j]? = some (bit_at arr (mirror j)) := by
  -- byte `j / 8` of the array is byte `j / 8 % 8` of word `j / 64`
  have hbyte : (bytes_view arr)[j / 8]? = some ((arr.getD (j / 64) 0).extractLsb' (8 * (j / 8 % 8)) 8) := by
    have hblock := Blocks.getElem?_flatMap (l := arr) (f := fun w => (List.range 8).map fun i => w.extractLsb' (8 * i) 8)
      (n := 8) (by simp) (j / 8 / 8) (Nat.mod_lt (j / 8) (by decide))
    rw [Nat.div_add_mod, Nat.div_div_eq_div_mul] at hblock
    apply hblock.trans
    have hlt : j / (8 * 8) < arr.length := by omega
    rw [List.getElem?_eq_getElem hlt, Option.bind_some, List.getElem?_map, List.getElem?_range (by omega), Option.map_some,
      List.getD_eq_getElem _ _ hlt]
  have hblock := Blocks.getElem?_flatMap (l := bytes_view arr) (f := fun b => (List.range 8).map fun i => b.getLsbD (7 - i))
    (n := 8) (by simp) (j / 8) (Nat.mod_lt j (by decide))
  rw [Nat.div_add_mod] at hblock
  apply hblock.trans
  rw [hbyte, Option.bind_some, List.getElem?_map, List.getElem?_range (by omega), Option.map_some, BitVec.getLsbD_extractLsb',
    bit_at, (mirror_div j).1, (mirror_div j).2]
  have hbit : 8 * (j / 8 % 8) + (7 - j % 8) = mirror (j % 64) := by
    unfold mirror
    omega
  rw [hbit, decide_eq_true (by omega), Bool.true_and]

/-- It numbers the bits of every byte from the high end. -/
theorem get_set_indices_eq (arr : List (BitVec 64)) :
    get_set_indices arr = (List.range (64 * arr.length)).filter fun j => bit_at arr (mirror j) := by
  rw [get_set_indices, nonzero, length_bits]
  apply List.filter_congr
  intro j hj
  rw [List.getD_eq_getElem?_getD, unpackbits_at arr (List.mem_range.1 hj), Option.getD_some]

theorem ascending_get_set_indices (arr : List (BitVec 64)) : (get_set_indices arr).Pairwise (· < ·) := by
  rw [get_set_indices_eq]
  exact List.pairwise_lt_range.filter _

theorem bit_at_word {arr : List (BitVec 64)} {i b : Nat} (hb : b < 64) :
    bit_at arr (64 * i + b) = (arr.getD i 0).getLsbD b := by
  have hdiv : (64 * i + b) / 64 = i := by omega
  have hmod : (64 * i + b) % 64 = b := by omega
  rw [bit_at, hdiv, hmod]

theorem mem_get_set_indices {arr : List (BitVec 64)} {i b : Nat} (hb : b < 64) :
    64 * i + b ∈ get_set_indices arr ↔ ∃ w, arr[i]? = some w ∧ w.getLsbD (mirror b) = true := by
  have hmirror : mirror (64 * i + b) = 64 * i + mirror b := by
    unfold mirror
    omega
  rw [get_set_indices_eq, List.mem_filter, List.mem_range, hmirror, bit_at_word (mirror_lt (n := 8) hb)]
  constructor
  · rintro ⟨hlt, hbit⟩
    have hi : i < arr.length := by omega
    rw [List.getD_eq_getElem _ _ hi] at hbit
    exact ⟨_, List.getElem?_eq_getElem hi, hbit⟩
  · rintro ⟨w, hw, hbit⟩
    obtain ⟨hi, rfl⟩ := List.getElem?_eq_some_iff.1 hw
    rw [List.getD_eq_getElem _ _ hi]
    exact ⟨by omega, hbit⟩

/-! ## The count -/

/-- A byte has as many ones from either end. -/
theorem countP_mirror (q : Nat → Bool) (n : Nat) :
    (List.range (8 * n)).countP (fun j => q (mirror j)) = (List.range (8 * n)).countP q := by
  -- `mirror` only exchanges the numbers below `8 * n`
  have hperm : ((List.range (8 * n)).map mirror).Perm (List.range (8 * n)) := by
    refine (List.perm_ext_iff_of_nodup ?_ List.nodup_range).2 fun j => ?_
    · exact List.nodup_range.map fun a b hab => by rw [← mirror_mirror a, hab, mirror_mirror]
    · rw [List.mem_map, List.mem_range]
      constructor
      · rintro ⟨b, hb, rfl⟩
        exact mirror_lt (List.mem_range.1 hb)
      · exact fun hj => ⟨mirror j, List.mem_range.2 (mirror_lt hj), mirror_mirror j⟩
  rw [← hperm.countP_eq, List.countP_map]
  apply List.countP_congr
  intro j _
  rw [Function.comp_apply, mirror_mirror]

theorem countP_bit_at (arr : List (BitVec 64)) : (List.range (64 * arr.length)).countP (bit_at arr) = popcount_uint64 arr := by
  rw [popcount_eq]
  induction arr using List.reverseRecOn with
  | nil => rfl
  | append_singleton arr w ih =>
    -- the last word leaves the bits of the others where they are
    have hfront : (List.range (64 * arr.length)).countP (bit_at (arr ++ [w])) = (List.range (64 * arr.length)).countP (bit_at arr) := by
      apply List.countP_congr
      intro j hj
      have hlt : j / 64 < arr.length := by
        have hj := List.mem_range.1 hj
        omega
      rw [bit_at, bit_at, List.getD_append _ _ _ _ hlt]
    have hlast : (List.range 64).countP (bit_at (arr ++ [w]) ∘ (64 * arr.length + ·)) = (List.range 64).countP fun b => w.getLsbD b := by
      apply List.countP_congr
      intro b hb
      rw [Function.comp_apply, bit_at_word (List.mem_range.1 hb), List.getD_append_right _ _ _ _ le_rfl, Nat.sub_self]
      rfl
    rw [List.length_append, List.length_singleton, Nat.mul_succ, List.range_add, List.countP_append, List.countP_map, hfront,
      hlast, ih, List.map_append, List.sum_append, List.map_singleton, List.sum_singleton]

theorem length_get_set_indices (arr : List (BitVec 64)) : (get_set_indices arr).length = popcount_uint64 arr := by
  have hlen : 64 * arr.length = 8 * (8 * arr.length) := by omega
  rw [get_set_indices_eq, ← List.countP_eq_length_filter, hlen, countP_mirror, ← hlen, countP_bit_at]

/-- The indices are the positions of the set bits if and only if every byte reads
the same from both ends; there are always as many as set bits. -/
theorem get_set_indices_iff (arr : List (BitVec 64)) :
    (get_set_indices arr).length = popcount_uint64 arr ∧
      (Positions arr (get_set_indices arr) ↔ ∀ w ∈ arr, ∀ b < 64, w.getLsbD b = w.getLsbD (mirror b)) := by
  refine ⟨length_get_set_indices arr, fun h w hw b hb => ?_, fun h => ⟨ascending_get_set_indices arr, fun i b hb => ?_⟩⟩
  · obtain ⟨i, hi⟩ := List.mem_iff_getElem?.1 hw
    have hmem := (h.mem i b hb).symm.trans (mem_get_set_indices hb)
    simp only [hi, Option.some.injEq, exists_eq_left'] at hmem
    exact Bool.eq_iff_iff.2 hmem
  · rw [mem_get_set_indices hb]
    constructor
    · rintro ⟨w, hw, hbit⟩
      exact ⟨w, hw, by rw [h w (List.mem_of_getElem? hw) b hb, hbit]⟩
    · rintro ⟨w, hw, hbit⟩
      exact ⟨w, hw, by rw [← h w (List.mem_of_getElem? hw) b hb, hbit]⟩

/-- Bit 0 of a word comes out as index 7. -/
theorem get_set_indices_one : get_set_indices [1] = [7] ∧ ¬ Positions [1] (get_set_indices [1]) := by
  have hseven : get_set_indices [1] = [7] := by decide
  refine ⟨hseven, fun h => ?_⟩
  have hzero : 64 * 0 + 0 ∈ get_set_indices [1] := (h.mem 0 0 (by decide)).2 ⟨1, rfl, by decide⟩
  rw [hseven] at hzero
  revert hzero
  decide

end DCT
