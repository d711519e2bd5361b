import Mathlib
import DramBender.Bitflips
/-!
# The sizes of the readback path

`consumeData_`, `receiveData` and `get_bitflips` pass sizes between `size_t` and
`int`. They are right for transfers that end with the marker and for fewer than
2^18 rows (`readback_sizes_iff`).
-/

namespace DCT

open DRAMBender
open DRAMBender.Platform (bytes_to_recv axi_datapath_byte_width num_words_to_read)

/-! ## `consumeData_` -/

/-- The words `consumeData_` asks the ring buffer to take of a transfer. `none` is
the transfer of nothing, which ends the loop. -/
def words_to_push (recv_count : BitVec 64) : Option CInt :=
  let bytes_to_recv : BitVec 64 := 32 * 1024
  if recv_count = 0 then none
  else if recv_count ≠ bytes_to_recv then some (((recv_count - 32) / 4).setWidth 32)
  else some ((bytes_to_recv / 4).setWidth 32)

/-- They are words of the transfer. -/
def InTransfer (recv_count : Nat) : Prop :=
  ∀ num_words, words_to_push (BitVec.ofNat 64 recv_count) = some num_words →
    0 ≤ num_words.toInt ∧ num_words.toInt ≤ recv_count / 4

/-! ## `get_bitflips` -/

/-- What `get_bitflips` computes for `n` data patterns. -/
def bytes_to_receive (n : Nat) : CInt := ((BitVec.ofNat 64 n) * (8 * 1024)).setWidth 32

/-- The `size_t` that `_mm_malloc` and `receiveData` get. -/
def row_bytes (n : Nat) : BitVec 64 := (bytes_to_receive n).signExtend 64

/-- The words `receiveData` waits for. -/
def words_to_pop (num_bytes : BitVec 64) : CInt := (num_bytes / 4).setWidth 32

/-- The sizes of `n` rows, and every word of them inside the buffer. -/
structure RowSizes (n : Nat) : Prop where
  allocated : (row_bytes n).toNat = n * 8192
  words : (words_to_pop (row_bytes n)).toInt = n * 2048
  inside : ∀ i < n, ∀ word_id < 1024, i * 8192 + 8 * word_id + 8 ≤ (row_bytes n).toNat

/-! ## Transfers -/

/-- The words of a transfer, with the `size_t` wrapped around. -/
theorem words_to_push_some {c : Nat} (hpos : 0 < c) (hle : c ≤ 32768) : ∃ num_words,
    words_to_push (BitVec.ofNat 64 c) = some num_words ∧
      num_words.toNat = if c = 32768 then 8192 else (2 ^ 64 - 32 + c) % 2 ^ 64 / 4 % 2 ^ 32 := by
  have hc : (BitVec.ofNat 64 c).toNat = c := by
    rw [BitVec.toNat_ofNat]
    exact Nat.mod_eq_of_lt (by omega)
  have hzero : BitVec.ofNat 64 c ≠ 0 := by
    intro h
    rw [h] at hc
    exact hpos.ne hc
  unfold words_to_push
  rw [if_neg hzero]
  by_cases hfull : c = 32768
  · subst hfull
    exact ⟨_, rfl, rfl⟩
  · have hne : BitVec.ofNat 64 c ≠ 32 * 1024 := by
      intro h
      rw [h] at hc
      exact hfull hc.symm
    refine ⟨_, if_pos hne, ?_⟩
    rw [if_neg hfull, BitVec.toNat_setWidth, BitVec.toNat_udiv, BitVec.toNat_sub, hc]
    rfl

/-- The model of the readback path counts the same words. -/
theorem words_to_push_eq {c : Nat} (h : 32 ≤ c) (hle : c ≤ 32768) :
    words_to_push (BitVec.ofNat 64 c) = some (BitVec.ofNat 32 (num_words_to_read c)) := by
  obtain ⟨num_words, hw, hn⟩ := words_to_push_some (by omega) hle
  rw [hw]
  refine congrArg some (BitVec.eq_of_toNat_eq ?_)
  rw [hn, BitVec.toNat_ofNat, num_words_to_read, Platform.bytes_to_recv_eq, axi_datapath_byte_width,
    Platform.size_sub_eq h (by omega)]
  split_ifs <;> omega

/-- The words of a transfer are words of it if the marker is in it. -/
theorem inTransfer_iff {c : Nat} (hle : c ≤ 32768) : InTransfer c ↔ c = 0 ∨ 32 ≤ c := by
  rcases Nat.eq_zero_or_pos c with rfl | hpos
  · refine iff_of_true (fun num_words h => ?_) (.inl rfl)
    cases h
  · obtain ⟨num_words, hw, hn⟩ := words_to_push_some hpos hle
    constructor
    · intro h
      obtain ⟨hnonneg, -⟩ := h num_words hw
      -- below 32 the difference has wrapped around
      have hlt : 2 * num_words.toNat < 2 ^ 32 := BitVec.toInt_pos_iff.1 hnonneg
      rw [hn] at hlt
      split_ifs at hlt <;> omega
    · rintro (rfl | hge) num_words' hw'
      · exact absurd hpos (lt_irrefl 0)
      · obtain rfl := Option.some.inj (hw.symm.trans hw')
        have hlt : num_words.toNat ≤ c / 4 := by
          rw [hn]
          split_ifs <;> omega
        rw [BitVec.toInt_eq_toNat_of_lt (by omega)]
        omega

/-! ## Rows -/

theorem toNat_bytes_to_receive (n : Nat) : (bytes_to_receive n).toNat = n * 8192 % 2 ^ 32 := by
  unfold bytes_to_receive
  rw [BitVec.toNat_setWidth, BitVec.toNat_mul, BitVec.toNat_ofNat]
  change n % 2 ^ 64 * 8192 % 2 ^ 64 % 2 ^ 32 = _
  omega

/-- It is the size `get_bitflips` asks for. -/
theorem bytes_to_receive_eq (n : Nat) : bytes_to_receive n = BitVec.ofNat 32 (n * (8 * 1024)) := by
  apply BitVec.eq_of_toNat_eq
  rw [toNat_bytes_to_receive, BitVec.toNat_ofNat]

/-- A size below 2^31 stays what it is. -/
theorem row_bytes_small {n : Nat} (h : n < 2 ^ 18) : (row_bytes n).toNat = n * 8192 := by
  have hn : (bytes_to_receive n).toNat = n * 8192 := by
    rw [toNat_bytes_to_receive]
    omega
  have hmsb : (bytes_to_receive n).msb = false := BitVec.msb_eq_false_iff_two_mul_lt.2 (by omega)
  unfold row_bytes
  rw [BitVec.signExtend_eq_setWidth_of_msb_false hmsb, BitVec.toNat_setWidth, hn]
  omega

theorem rowSizes_iff (n : Nat) : RowSizes n ↔ n < 2 ^ 18 := by
  constructor
  · intro h
    -- the words are no more than an `int` counts, and the bytes no more than its half
    have hwords : n < 2 ^ 20 := by
      have hlt : (words_to_pop (row_bytes n)).toInt < 2 ^ 31 := BitVec.toInt_lt
      have hw := h.words
      omega
    have halloc := h.allocated
    unfold row_bytes at halloc
    rw [BitVec.toNat_signExtend, BitVec.toNat_setWidth, toNat_bytes_to_receive] at halloc
    by_contra hge
    cases hmsb : (bytes_to_receive n).msb with
    | false =>
      have hlt := BitVec.msb_eq_false_iff_two_mul_lt.1 hmsb
      rw [toNat_bytes_to_receive] at hlt
      rw [hmsb, if_neg (by decide)] at halloc
      omega
    | true =>
      rw [hmsb, if_pos rfl] at halloc
      omega
  · intro hn
    have hsize := row_bytes_small hn
    have hpop : (words_to_pop (row_bytes n)).toNat = n * 2048 := by
      unfold words_to_pop
      rw [BitVec.toNat_setWidth, BitVec.toNat_udiv, hsize]
      change n * 8192 / 4 % 2 ^ 32 = n * 2048
      omega
    refine ⟨hsize, ?_, fun i hi word_id hw => ?_⟩
    · rw [BitVec.toInt_eq_toNat_of_lt (by omega), hpop]
      rfl
    · rw [hsize]
      omega

/-- The sizes are right for transfers of nothing or with a marker, and for fewer
than 2^18 rows. `recvData` returns no more than 32 KiB. -/
theorem readback_sizes_iff (recv_count n : Nat) (hle : recv_count ≤ 32768) :
    (InTransfer recv_count ↔ recv_count = 0 ∨ 32 ≤ recv_count) ∧ (RowSizes n ↔ n < 2 ^ 18) :=
  ⟨inTransfer_iff hle, rowSizes_iff n⟩

/-- A full buffer, and the 64 patterns of a sweep. -/
theorem readback_sizes_full : InTransfer 32768 ∧ RowSizes 64 := by
  obtain ⟨htransfer, hrows⟩ := readback_sizes_iff 32768 64 (by decide)
  exact ⟨htransfer.2 (by decide), hrows.2 (by decide)⟩

/-- It asks for -7 words of a transfer of 4 bytes, and for 2^64 - 2^31 bytes of
2^18 rows. -/
theorem sizes_wrap : (words_to_push 4).map BitVec.toInt = some (-7) ∧ ¬ InTransfer 4 ∧
    (row_bytes (2 ^ 18)).toNat = 2 ^ 64 - 2 ^ 31 ∧ ¬ RowSizes (2 ^ 18) := by
  refine ⟨by decide, fun h => ?_, by decide, fun h => ?_⟩
  · obtain ⟨hnonneg, -⟩ := h _ rfl
    revert hnonneg
    decide
  · have halloc := h.allocated
    revert halloc
    decide

end DCT
