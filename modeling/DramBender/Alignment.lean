import Mathlib
import DramBender.Bitflips
import DramBender.RowRanges
/-!
# Reading back as many rows as were asked for

The loops of `read_rows` and `read_row_range` test after the row, so that an
empty list or range still reads one.
-/

namespace DCT

open DRAMBender Machine
open DRAMBender.Platform (Word_t)

def is_read : Cmd → Bool
  | .RD _ _ _ _ => true
  | _ => false

/-- The READs are those of `n` rows, and `get_bitflips` with a pattern for each
takes their words and leaves those that come later. -/
structure Aligned (n : Nat) (es : List Cmd) : Prop where
  count : es.countP is_read = 128 * n
  taken : ∀ (data_patterns : List WritePattern_t) (later : List Word_t), data_patterns.length = n →
    ∃ flips, get_bitflips (readback es ++ later) data_patterns = some (flips, later)

theorem count_read_rows (bank : Bank) (cells : Bank → CInt → CInt → Line) (cols rows : List CInt) :
    (rows.flatMap (read_cmds bank cells cols)).countP is_read = cols.length * rows.length := by
  have hrow : ∀ row_id, (read_cmds bank cells cols row_id).countP is_read = cols.length := by
    intro row_id
    have hcols : (cols.map fun col => Cmd.RD bank col false (cells bank row_id col)).countP is_read = cols.length := by
      rw [List.countP_eq_length.2 (List.forall_mem_map.2 fun _ _ => rfl), List.length_map]
    rw [read_cmds, List.cons_append, List.countP_cons_of_neg (by simp [is_read]), List.countP_append, hcols]
    rfl
  induction rows with
  | nil => rfl
  | cons row_id rows ih => rw [List.flatMap_cons, List.countP_append, hrow, ih, List.length_cons, Nat.mul_succ, Nat.add_comm]

/-- `receiveData` copies less than 2GB at a time. -/
theorem receiveData_bound {ring ws rest : List Word_t} {bytes : CInt}
    (h : receiveData ring (bytes.signExtend 64) = some (ws, rest)) : ring.length < rest.length + 2 ^ 29 := by
  dsimp only [receiveData] at h
  cases hmsb : bytes.msb with
  | false =>
    have hlt : bytes.toNat < 2 ^ 31 := by
      have := BitVec.msb_eq_false_iff_two_mul_lt.1 hmsb
      omega
    have hnum : (((bytes.signExtend 64) / 4).setWidth 32 : CInt).toNat = bytes.toNat / 4 := by
      rw [BitVec.signExtend_eq_setWidth_of_msb_false hmsb, BitVec.toNat_setWidth, BitVec.toNat_udiv, BitVec.toNat_setWidth]
      change bytes.toNat % 2 ^ 64 / 4 % 2 ^ 32 = bytes.toNat / 4
      omega
    split_ifs at h with hslt hlen
    rw [hnum] at h hlen
    obtain ⟨-, rfl⟩ := Prod.mk.inj (Option.some.inj h)
    rw [List.length_drop]
    omega
  | true =>
    -- a negative count fails the assertion
    have hge : 2 ^ 31 ≤ bytes.toNat := by
      have := BitVec.msb_eq_true_iff_two_mul_ge.1 hmsb
      omega
    have hnum : (((bytes.signExtend 64) / 4).setWidth 32 : CInt).toNat = (2 ^ 64 - 2 ^ 32 + bytes.toNat) / 4 % 2 ^ 32 := by
      rw [BitVec.toNat_setWidth, BitVec.toNat_udiv, BitVec.toNat_signExtend, hmsb, if_pos rfl,
        BitVec.toNat_setWidth]
      change (bytes.toNat % 2 ^ 64 + (2 ^ 64 - 2 ^ 32)) / 4 % 2 ^ 32 = _
      omega
    have hslt : (((bytes.signExtend 64) / 4).setWidth 32 : CInt).slt 0 = true := by
      change BitVec.slt _ 0#32 = true
      rw [BitVec.slt_zero_eq_msb, BitVec.msb_eq_true_iff_two_mul_ge, hnum]
      omega
    rw [if_pos hslt] at h
    cases h

/-- Rows read are aligned with the rows asked for if they are as many, and fewer
than 2GB. -/
theorem aligned_iff (bank : Bank) (cells : Bank → CInt → CInt → Line) (rows : List CInt) (n : Nat) :
    Aligned n (.PRE bank :: rows.flatMap (read_cmds bank cells (columns 0 128))) ↔ rows.length = n ∧ n < 2 ^ 18 := by
  have hback : readback (.PRE bank :: rows.flatMap (read_cmds bank cells (columns 0 128))) =
      readback (rows.flatMap (read_cmds bank cells (columns 0 128))) := rfl
  have hlen := length_readback_rows bank cells rows
  constructor
  · rintro ⟨hcount, htaken⟩
    rw [List.countP_cons_of_neg (by simp [is_read]), count_read_rows, length_columns] at hcount
    have hrows : rows.length = n := by omega
    refine ⟨hrows, ?_⟩
    obtain ⟨flips, hget⟩ := htaken (List.replicate n fun _ => 0) [] List.length_replicate
    rw [hback, List.append_nil] at hget
    obtain ⟨r, hr, hrest⟩ := Option.bind_eq_some_iff.1 hget
    have hnil : r.2 = [] := congrArg Prod.snd (Option.some.inj hrest)
    have hbound : _ < r.2.length + 2 ^ 29 := receiveData_bound hr
    rw [hnil, hlen, List.length_nil] at hbound
    omega
  · rintro ⟨rfl, hlt⟩
    refine ⟨?_, fun data_patterns later hp => ?_⟩
    · rw [List.countP_cons_of_neg (by simp [is_read]), count_read_rows, length_columns]
    · refine ⟨_, (get_bitflips_rows (by omega) ?_).trans (congrArg some (Prod.ext rfl ?_))⟩
      · rw [hback, List.length_append, hlen, hp]
        omega
      · rw [hback, hp, ← hlen]
        exact List.drop_left

/-- Reading back is aligned with the request for every list but the empty one,
and for every range that is neither empty nor too long for `get_bitflips`. -/
theorem readback_aligned_iff (bank : CInt) (other : Mnemonic → Board → Board × List Cmd) (b : Board) :
    (∀ row_ids p, read_rows bank row_ids = some p → Platform.Executable p →
      ∃ b' es, Halts (p.get_inst_seq.map (Board.isa false other).act) 0 b es b' ∧ (Aligned row_ids.length es ↔ row_ids ≠ [])) ∧
    ∀ s e, s ≤ e → e < 2 ^ 31 →
      ∃ p, read_row_range bank (BitVec.ofNat 32 s) (BitVec.ofNat 32 e) = some p ∧ Platform.Executable p ∧
        ∃ b' es, Halts (p.get_inst_seq.map (Board.isa false other).act) 0 b es b' ∧
          (Aligned (e - s) es ↔ s < e ∧ e - s < 2 ^ 18) := by
  constructor
  · intro row_ids p h hx
    obtain ⟨b', es, hh, hr⟩ := read_rows_run h hx false other b
    have hlt := read_rows_length h hx
    refine ⟨b', es, hh, ?_⟩
    rw [hr.issued, List.take_length, aligned_iff, length_visited, ← List.length_pos_iff]
    omega
  · intro s e hse he
    obtain ⟨p, hp, hx⟩ := read_row_range_generates bank (BitVec.ofNat 32 s) (BitVec.ofNat 32 e)
    obtain ⟨b', es, hh, hr⟩ := read_row_range_run hp hx false other b
    refine ⟨p, hp, hx, b', es, hh, ?_⟩
    rw [hr.issued, range_passes_unsigned hse he, ← List.flatMap_map (fun j => BitVec.ofNat 32 s + BitVec.ofNat 32 j)
      (read_cmds (false, bank) b.dram (columns 0 128)), aligned_iff, List.length_map, List.length_range]
    omega

/-- One row read for a list of one, two for a range of two. -/
theorem readback_aligned_some : ∃ p q, read_rows 1 [5] = some p ∧ read_row_range 1 3 5 = some q ∧
    (∃ b' es, Halts (p.get_inst_seq.map (Board.isa false fun _ b => (b, [])).act) 0 .zero es b' ∧ Aligned 1 es) ∧
    ∃ b' es, Halts (q.get_inst_seq.map (Board.isa false fun _ b => (b, [])).act) 0 .zero es b' ∧ Aligned 2 es := by
  obtain ⟨hlists, hranges⟩ := readback_aligned_iff 1 (fun _ b => (b, [])) .zero
  obtain ⟨p, hp, hx⟩ : ∃ p, read_rows 1 [5] = some p ∧ Platform.Executable p := read_rows_generates 1 (by simp)
  obtain ⟨b1, es1, hh1, hiff1⟩ := hlists [5] p hp hx
  obtain ⟨q, hq, -, b2, es2, hh2, hiff2⟩ := hranges 3 5 (by decide) (by decide)
  exact ⟨p, q, hp, hq, ⟨b1, es1, hh1, hiff1.2 (by simp)⟩, b2, es2, hh2, hiff2.2 (by decide)⟩

/-- No rows asked for, one row read. -/
theorem empty_list_reads : ∃ p, read_rows 1 [] = some p ∧ Platform.Executable p ∧
    ∃ b' es, Halts (p.get_inst_seq.map (Board.isa false fun _ b => (b, [])).act) 0 .zero es b' ∧
      es.countP is_read = 128 ∧ ¬ Aligned 0 es := by
  obtain ⟨p, hp, hx⟩ : ∃ p, read_rows 1 [] = some p ∧ Platform.Executable p := read_rows_generates 1 (by simp)
  obtain ⟨b', es, hh, hr⟩ := read_rows_run hp hx false (fun _ b => (b, [])) .zero
  have hcount : es.countP is_read = 128 := by
    rw [hr.issued, List.countP_cons_of_neg (by simp [is_read]), List.take_length, count_read_rows, length_columns,
      length_visited]
    rfl
  refine ⟨p, hp, hx, b', es, hh, hcount, fun ha => ?_⟩
  have hzero := ha.count
  omega

end DCT
