import Mathlib
import DramBender.RowPrograms
import DramBender.Platform
import DramBender.Lib.Blocks
/-!
# Reading bitflips

`get_bitflips` takes one 8KB row for every pattern out of the ring buffer and
leaves the bits that differ; `popcount_uint64` counts them.
-/

namespace DCT

open DRAMBender Machine
open DRAMBender.Platform (Word_t)

/-- `receiveData`, with the words that come through the ring buffer: what it
copies, and the words it leaves. `none` is a failed assertion, or waiting for
words that do not come. -/
def receiveData (ring : List Word_t) (num_bytes : BitVec 64) : Option (List Word_t × List Word_t) :=
  let num_words_to_read : CInt := (num_bytes / 4).setWidth 32
  if num_words_to_read.slt 0 then none
  else if num_words_to_read.toNat ≤ ring.length then
    some (ring.take num_words_to_read.toNat, ring.drop num_words_to_read.toNat)
  else none

/-- The 64-bit word at index `i` of 32-bit words, little endian. -/
def p64 (words : List Word_t) (i : Nat) : BitVec 64 := words.getD (2 * i + 1) 0 ++ words.getD (2 * i) 0

/-- One row of flip masks: 128 cache lines of 8 words. -/
def flips_masks (row_buffer : List Word_t) (data_pattern : WritePattern_t) : List (BitVec 64) :=
  (List.range 128).flatMap fun cl => (List.range 8).map fun word =>
    let word_id := 8 * cl + word
    p64 (List.ofFn data_pattern) word ^^^ p64 row_buffer word_id

def get_bitflips (ring : List Word_t) (data_patterns : List WritePattern_t) :
    Option (List (List (BitVec 64)) × List Word_t) := do
  let row_size := 8 * 1024
  let bytes_to_receive : CInt := BitVec.ofNat 32 (data_patterns.length * row_size)
  let (row_buffers, ring) ← receiveData ring (bytes_to_receive.signExtend 64)
  some (data_patterns.mapIdx fun i data_pattern => flips_masks (row_buffers.drop (i * (row_size / 4))) data_pattern, ring)

/-- `bin(i).count('1')` for every byte. -/
def POPCOUNT_TABLE : List Nat := (List.range 256).map fun i => (Nat.toDigits 2 i).count '1'

/-- The bytes of 64-bit words, little endian. -/
def bytes_view (arr : List (BitVec 64)) : List (BitVec 8) :=
  arr.flatMap fun w => (List.range 8).map fun i => w.extractLsb' (8 * i) 8

def popcount_uint64 (arr : List (BitVec 64)) : Nat := ((bytes_view arr).map fun b => POPCOUNT_TABLE.getD b.toNat 0).sum

/-! ## Counting bits -/

theorem popcount_table (b : BitVec 8) : POPCOUNT_TABLE.getD b.toNat 0 = (List.range 8).countP fun i => b.getLsbD i := by
  revert b
  decide +kernel

/-- The bytes count as the bits. -/
theorem popcount_word (w : BitVec 64) : popcount_uint64 [w] = (List.range 64).countP fun b => w.getLsbD b := by
  have hbits : List.range 64 = (List.range 8).flatMap fun i => (List.range 8).map fun j => 8 * i + j := by decide
  have hbyte : ∀ i, POPCOUNT_TABLE.getD (w.extractLsb' (8 * i) 8).toNat 0 =
      ((List.range 8).map fun j => 8 * i + j).countP fun b => w.getLsbD b := by
    intro i
    rw [popcount_table, List.countP_map]
    apply List.countP_congr
    intro j hj
    simp [List.mem_range.1 hj]
  rw [hbits, List.countP_flatMap, popcount_uint64, bytes_view, List.flatMap_singleton, List.map_map]
  exact congrArg List.sum (List.map_congr_left fun i _ => hbyte i)

theorem popcount_eq (arr : List (BitVec 64)) :
    popcount_uint64 arr = (arr.map fun w => (List.range 64).countP fun b => w.getLsbD b).sum := by
  induction arr with
  | nil => rfl
  | cons w arr ih =>
    rw [List.map_cons, List.sum_cons, ← ih, ← popcount_word]
    simp [popcount_uint64, bytes_view]

/-! ## Bits of rows -/

/-- Bit `b` of the 64-bit word `k` of a row. -/
def stored_bit (cells : Bank → CInt → CInt → Line) (bank : Bank) (row_id : CInt) (k b : Nat) : Bool :=
  (cells bank row_id (BitVec.ofNat 32 (8 * (k / 8))) (BitVec.ofNat 4 (2 * (k % 8) + b / 32))).getLsbD (b % 32)

theorem p64_bit (words : List Word_t) (i : Nat) {b : Nat} (hb : b < 64) :
    (p64 words i).getLsbD b = (words.getD (2 * i + b / 32) 0).getLsbD (b % 32) := by
  rw [p64, BitVec.getLsbD_append]
  by_cases h : b < 32
  · have hdiv : b / 32 = 0 := by omega
    have hmod : b % 32 = b := by omega
    rw [hdiv, hmod, if_pos h, Nat.add_zero]
  · have hdiv : b / 32 = 1 := by omega
    have hmod : b % 32 = b - 32 := by omega
    rw [hdiv, hmod, if_neg h]

theorem length_columns (c : CInt) (k : Nat) : (columns c k).length = k := by
  rw [columns, List.length_map, List.length_range]

theorem length_row_words (line : CInt → Line) (cols : List CInt) : (row_words line cols).length = 16 * cols.length :=
  Blocks.length_flatMap (by simp)

/-- Word `m` of a row, in the order it is read. -/
theorem getElem?_row_words (line : CInt → Line) {m : Nat} (hm : m < 2048) :
    (row_words line (columns 0 128))[m]? = some (line (BitVec.ofNat 32 (8 * (m / 16))) (BitVec.ofNat 4 (m % 16))) := by
  have hcol : (columns 0 128)[m / 16]? = some (BitVec.ofNat 32 (8 * (m / 16))) := by
    rw [columns, List.getElem?_map, List.getElem?_range (by omega), Option.map_some, BitVec.ofNat_eq_ofNat,
      BitVec.zero_add]
  have hword : ((List.finRange 16).map fun i => line (BitVec.ofNat 32 (8 * (m / 16))) (BitVec.ofFin i))[m % 16]? =
      some (line (BitVec.ofNat 32 (8 * (m / 16))) (BitVec.ofNat 4 (m % 16))) := by
    have hlt : m % 16 < 16 := by omega
    rw [List.getElem?_map, List.getElem?_eq_getElem (by simpa using hlt), List.getElem_finRange, Option.map_some]
    congr 2
    exact BitVec.eq_of_toNat_eq (by simp)
  have hblock := Blocks.getElem?_flatMap (l := columns 0 128)
    (f := fun col => (List.finRange 16).map fun i => line col (BitVec.ofFin i)) (n := 16) (by simp) (m / 16)
    (Nat.mod_lt m (by decide))
  rw [Nat.div_add_mod] at hblock
  rw [row_words, hblock, hcol, Option.bind_some, hword]

theorem getElem?_flips_masks (row_buffer : List Word_t) (data_pattern : WritePattern_t) {k : Nat} (hk : k < 1024) :
    (flips_masks row_buffer data_pattern)[k]? = some (p64 (List.ofFn data_pattern) (k % 8) ^^^ p64 row_buffer k) := by
  have hblock := Blocks.getElem?_flatMap (l := List.range 128) (f := fun cl => (List.range 8).map fun word =>
    p64 (List.ofFn data_pattern) word ^^^ p64 row_buffer (8 * cl + word)) (n := 8) (by simp) (k / 8)
    (Nat.mod_lt k (by decide))
  rw [Nat.div_add_mod] at hblock
  apply hblock.trans
  rw [List.getElem?_range (by omega), Option.bind_some, List.getElem?_map, List.getElem?_range (by omega), Option.map_some,
    Nat.div_add_mod]

theorem length_flips_masks (row_buffer : List Word_t) (data_pattern : WritePattern_t) :
    (flips_masks row_buffer data_pattern).length = 1024 := by
  rw [flips_masks, Blocks.length_flatMap (n := 8) (by simp), List.length_range]

/-! ## One row for every pattern -/

theorem receiveData_rows (ring : List Word_t) {n : Nat} (hn : n < 2 ^ 18) :
    receiveData ring ((BitVec.ofNat 32 (n * (8 * 1024))).signExtend 64) =
      if 2048 * n ≤ ring.length then some (ring.take (2048 * n), ring.drop (2048 * n)) else none := by
  have hmsb : (BitVec.ofNat 32 (n * (8 * 1024))).msb = false := by
    rw [BitVec.msb_eq_false_iff_two_mul_lt, BitVec.toNat_ofNat]
    omega
  have hnum : (((BitVec.ofNat 32 (n * (8 * 1024))).signExtend 64 / 4).setWidth 32 : CInt).toNat = 2048 * n := by
    rw [BitVec.signExtend_eq_setWidth_of_msb_false hmsb, BitVec.toNat_setWidth, BitVec.toNat_udiv, BitVec.toNat_setWidth,
      BitVec.toNat_ofNat]
    change n * (8 * 1024) % 2 ^ 32 % 2 ^ 64 / 4 % 2 ^ 32 = 2048 * n
    omega
  have hslt : (((BitVec.ofNat 32 (n * (8 * 1024))).signExtend 64 / 4).setWidth 32 : CInt).slt 0 = false := by
    change BitVec.slt _ 0#32 = false
    rw [BitVec.slt_zero_eq_msb, BitVec.msb_eq_false_iff_two_mul_lt, hnum]
    omega
  dsimp only [receiveData]
  rw [hslt, hnum, if_neg (by decide)]

/-- With enough words in the ring buffer, every pattern gets its row. -/
theorem get_bitflips_rows {ring : List Word_t} {data_patterns : List WritePattern_t} (hn : data_patterns.length < 2 ^ 18)
    (hring : 2048 * data_patterns.length ≤ ring.length) : get_bitflips ring data_patterns =
      some (data_patterns.mapIdx fun i data_pattern =>
        flips_masks ((ring.take (2048 * data_patterns.length)).drop (2048 * i)) data_pattern,
        ring.drop (2048 * data_patterns.length)) := by
  dsimp only [get_bitflips]
  rw [receiveData_rows ring hn, if_pos hring]
  refine congrArg some (Prod.ext ?_ rfl)
  apply congrArg (List.mapIdx · data_patterns)
  funext i data_pattern
  rw [Nat.mul_comm 2048 i]

/-- The masks of one row: a bit is set where the row differs from the pattern. -/
theorem flip_bit {row_buffer : List Word_t} {cells : Bank → CInt → CInt → Line} {bank : Bank} {row_id : CInt}
    (hrow : ∀ m < 2048, row_buffer[m]? = (row_words (cells bank row_id) (columns 0 128))[m]?) (data_pattern : WritePattern_t)
    {k b : Nat} (hk : k < 1024) (hb : b < 64) {w : BitVec 64} (hw : (flips_masks row_buffer data_pattern)[k]? = some w) :
    w.getLsbD b = (((List.ofFn data_pattern).getD (2 * (k % 8) + b / 32) 0).getLsbD (b % 32) ^^
      stored_bit cells bank row_id k b) := by
  rw [getElem?_flips_masks _ _ hk] at hw
  have hget : row_buffer.getD (2 * k + b / 32) 0 =
      cells bank row_id (BitVec.ofNat 32 (8 * (k / 8))) (BitVec.ofNat 4 (2 * (k % 8) + b / 32)) := by
    have hdiv : (2 * k + b / 32) / 16 = k / 8 := by omega
    have hmod : (2 * k + b / 32) % 16 = 2 * (k % 8) + b / 32 := by omega
    rw [List.getD_eq_getElem?_getD, hrow _ (by omega), getElem?_row_words _ (by omega), Option.getD_some, hdiv, hmod]
  rw [← Option.some.inj hw, BitVec.getLsbD_xor, p64_bit _ _ hb, p64_bit _ _ hb, hget, stored_bit]

/-! ## Writing, reading back and comparing -/

/-- The word written last to a row. -/
def last_word (row_ids : List CInt) (wr_words : List WriteWord_t) (row_id : CInt) : WriteWord_t :=
  ((row_ids.zip wr_words).reverse.lookup row_id).getD 0

theorem put_rows_eq (bank : Bank) (cols : List CInt) (cells : Bank → CInt → CInt → Line) (pairs : List (CInt × CInt))
    (row_id : CInt) {col : CInt} (hcol : col ∈ cols) : put_rows bank cols cells pairs bank row_id col =
      match pairs.reverse.lookup row_id with
      | some word => fun _ => word
      | none => cells bank row_id col := by
  induction pairs using List.reverseRecOn with
  | nil => rfl
  | append_singleton pairs x ih =>
    rw [put_rows, List.foldl_append, List.foldl_cons, List.foldl_nil, ← put_rows, put_row, List.reverse_append,
      List.reverse_singleton, List.singleton_append, List.lookup_cons]
    by_cases h : row_id = x.1
    · simp [h, hcol]
    · rw [if_neg (by tauto), ih, beq_eq_false_iff_ne.2 h]

theorem readback_rows (bank : Bank) (cells : Bank → CInt → CInt → Line) (cols row_ids : List CInt) :
    readback (row_ids.flatMap (read_cmds bank cells cols)) = row_ids.flatMap fun row_id => row_words (cells bank row_id) cols := by
  rw [readback, List.flatMap_assoc]
  apply List.flatMap_congr
  intro row_id _
  rw [read_cmds, List.cons_append, List.flatMap_cons, List.flatMap_append, List.flatMap_map]
  exact List.append_nil _

theorem length_readback_rows (bank : Bank) (cells : Bank → CInt → CInt → Line) (row_ids : List CInt) :
    (readback (row_ids.flatMap (read_cmds bank cells (columns 0 128)))).length = 2048 * row_ids.length := by
  rw [readback_rows, Blocks.length_flatMap]
  intro row_id _
  rw [length_row_words, length_columns]

/-- The masks of the rows read, against one pattern for each. -/
theorem get_bitflips_readback (bank : Bank) (cells : Bank → CInt → CInt → Line) {row_ids : List CInt} (hn : row_ids.length < 2 ^ 18)
    (pattern : CInt → WritePattern_t) :
    ∃ flips, get_bitflips (readback (row_ids.flatMap (read_cmds bank cells (columns 0 128)))) (row_ids.map pattern) =
      some (flips, []) ∧ flips.length = row_ids.length ∧
      ∀ (j : Nat) (row_id : CInt) (row : List (BitVec 64)), row_ids[j]? = some row_id → flips[j]? = some row →
        row.length = 1024 ∧ ∀ (k : Nat) (w : BitVec 64), row[k]? = some w → ∀ b < 64, w.getLsbD b =
          (((List.ofFn (pattern row_id)).getD (2 * (k % 8) + b / 32) 0).getLsbD (b % 32) ^^ stored_bit cells bank row_id k b) := by
  have hlen := length_readback_rows bank cells row_ids
  have hget : get_bitflips (readback (row_ids.flatMap (read_cmds bank cells (columns 0 128)))) (row_ids.map pattern) = _ :=
    get_bitflips_rows (by simpa using hn) (by rw [hlen, List.length_map])
  rw [List.length_map, ← hlen, List.take_length, List.drop_length] at hget
  refine ⟨_, hget, by simp, fun j row_id row hj hrow => ?_⟩
  rw [List.getElem?_mapIdx, List.getElem?_map, hj, Option.map_some, Option.map_some] at hrow
  obtain rfl := Option.some.inj hrow
  refine ⟨length_flips_masks _ _, fun k w hw b hb => ?_⟩
  have hk : k < 1024 := by
    rw [← length_flips_masks _ _]
    exact (List.getElem?_eq_some_iff.1 hw).1
  refine flip_bit (fun m hm => ?_) _ hk hb hw
  rw [List.getElem?_drop, readback_rows, Blocks.getElem?_flatMap (n := 2048) ?_ j hm, hj, Option.bind_some]
  intro x _
  rw [length_row_words, length_columns]

/-- How many bits of a row differ. -/
def differing_bits (cells cells' : Bank → CInt → CInt → Line) (bank : Bank) (row_id : CInt) : Nat :=
  ((List.range 1024).map fun k => (List.range 64).countP fun b =>
    stored_bit cells bank row_id k b != stored_bit cells' bank row_id k b).sum

theorem popcount_masks {row : List (BitVec 64)} (hlen : row.length = 1024) {cells cells' : Bank → CInt → CInt → Line}
    {bank : Bank} {row_id : CInt} (h : ∀ (k : Nat) (w : BitVec 64), row[k]? = some w → ∀ b < 64,
      w.getLsbD b = (stored_bit cells bank row_id k b != stored_bit cells' bank row_id k b)) :
    popcount_uint64 row = differing_bits cells cells' bank row_id := by
  rw [popcount_eq, differing_bits]
  refine congrArg List.sum (List.ext_getElem? fun k => ?_)
  rcases Nat.lt_or_ge k 1024 with hk | hk
  · have hw : row[k]? = some row[k] := List.getElem?_eq_getElem (by omega)
    rw [List.getElem?_map, List.getElem?_map, List.getElem?_range hk, hw, Option.map_some, Option.map_some]
    refine congrArg some (List.countP_congr fun b hb => ?_)
    rw [h k _ hw b (List.mem_range.1 hb)]
  · rw [List.getElem?_eq_none (by simpa [hlen] using hk), List.getElem?_eq_none (by simpa using hk)]

/-- After `init_rows` every bit of a row on the list is the pattern's. -/
theorem stored_bit_written {bank : CInt} {row_ids : List CInt} {wr_words : List WriteWord_t} {cells : Bank → CInt → CInt → Line}
    {i : Nat} {b' : Board} {es : List Cmd} (h : Writing bank (row_ids.zip wr_words) cells i b' es)
    (hi : (row_ids.zip wr_words).length ≤ i) (hlen : row_ids.length ≤ wr_words.length) {row_id : CInt} (hr : row_id ∈ row_ids)
    {k b : Nat} (hk : k < 1024) : stored_bit b'.dram (false, bank) row_id k b =
      (last_word row_ids wr_words row_id).getLsbD (b % 32) := by
  have hcol : BitVec.ofNat 32 (8 * (k / 8)) ∈ columns 0 128 :=
    List.mem_map.2 ⟨k / 8, List.mem_range.2 (by omega), by rw [BitVec.ofNat_eq_ofNat, BitVec.zero_add]⟩
  have hmem : row_id ∈ (row_ids.zip wr_words).reverse.map Prod.fst := by
    rw [List.map_reverse, List.mem_reverse, List.map_fst_zip hlen]
    exact hr
  obtain ⟨word, hword⟩ : ∃ word, (row_ids.zip wr_words).reverse.lookup row_id = some word := by
    rw [← Option.isSome_iff_exists, List.lookup_isSome_iff]
    obtain ⟨x, hx, rfl⟩ := List.mem_map.1 hmem
    exact ⟨x, hx, beq_self_eq_true _⟩
  rw [stored_bit, h.dram, List.take_of_length_le hi, put_rows_eq _ _ _ _ _ hcol, last_word, hword]
  rfl

/-- After `init_rows`, whatever then becomes of the board, `read_rows` and
`get_bitflips` give for every row read the bits that differ from those
written. -/
theorem get_bitflips_exact {bank : CInt} {row_ids : List CInt} {wr_words : List WriteWord_t} {rows_read : List CInt}
    {p q : Program} (hp : init_rows bank row_ids wr_words = some p) (hq : read_rows bank rows_read = some q)
    (hpx : Platform.Executable p) (hqx : Platform.Executable q) (hne : row_ids ≠ []) (hqne : rows_read ≠ [])
    (hsub : ∀ row_id ∈ rows_read, row_id ∈ row_ids) (signed : Bool) (other : Mnemonic → Board → Board × List Cmd) (b : Board) :
    ∃ b1 es1, Halts (p.get_inst_seq.map (Board.isa signed other).act) 0 b es1 b1 ∧
      ∀ b2, ∃ b3 es2, Halts (q.get_inst_seq.map (Board.isa signed other).act) 0 b2 es2 b3 ∧
        ∃ flips, get_bitflips (readback es2) (rows_read.map fun row_id _ => last_word row_ids wr_words row_id) =
          some (flips, []) ∧ flips.length = rows_read.length ∧
          ∀ (j : Nat) (row_id : CInt) (row : List (BitVec 64)), rows_read[j]? = some row_id → flips[j]? = some row →
            row.length = 1024 ∧
            (∀ (k : Nat) (w : BitVec 64), row[k]? = some w → ∀ b < 64, w.getLsbD b =
              (stored_bit b2.dram (false, bank) row_id k b != stored_bit b1.dram (false, bank) row_id k b)) ∧
            popcount_uint64 row = differing_bits b2.dram b1.dram (false, bank) row_id := by
  have hlen : row_ids.length ≤ wr_words.length := init_rows_words hp
  have hzip : (row_ids.zip wr_words).length ≤ row_ids.length := by
    rw [List.length_zip]
    exact min_le_left _ _
  obtain ⟨b1, es1, hinit, hw⟩ := init_rows_run hp hpx hne signed other b
  refine ⟨b1, es1, hinit, fun b2 => ?_⟩
  obtain ⟨b3, es2, hread, hr⟩ := read_rows_run hq hqx signed other b2
  have hn : rows_read.length < 2048 := read_rows_length hq hqx
  obtain ⟨flips, hget, hflips, hrows⟩ := get_bitflips_readback (false, bank) b2.dram (lt_trans hn (by decide))
    fun row_id _ => last_word row_ids wr_words row_id
  have hback : readback es2 = readback (rows_read.flatMap (read_cmds (false, bank) b2.dram (columns 0 128))) := by
    rw [hr.issued, List.take_length, visited, if_neg hqne]
    rfl
  refine ⟨b3, es2, hread, flips, by rw [hback, hget], hflips, fun j row_id row hj hrow => ?_⟩
  obtain ⟨hlength, hbits⟩ := hrows j row_id row hj hrow
  have hdiff : ∀ (k : Nat) (w : BitVec 64), row[k]? = some w → ∀ b < 64, w.getLsbD b =
      (stored_bit b2.dram (false, bank) row_id k b != stored_bit b1.dram (false, bank) row_id k b) := by
    intro k w hkw b hb
    have hk : k < 1024 := by
      rw [← hlength]
      exact (List.getElem?_eq_some_iff.1 hkw).1
    rw [hbits k w hkw b hb, stored_bit_written hw hzip hlen (hsub row_id (List.mem_of_getElem? hj)) hk]
    have hpat : (List.ofFn fun _ : Fin 16 => last_word row_ids wr_words row_id).getD (2 * (k % 8) + b / 32) 0 =
        last_word row_ids wr_words row_id := by
      rw [List.getD_eq_getElem _ _ (by rw [List.length_ofFn]; omega), List.getElem_ofFn]
    rw [hpat, Bool.xor_comm]
  exact ⟨hlength, hdiff, popcount_masks hlength hdiff⟩

/-- A row written twice and read once. -/
theorem get_bitflips_row_twice : ∃ p q, init_rows 1 [5, 5] [7, 8] = some p ∧ read_rows 1 [5] = some q ∧
    ∃ b1 es1, Halts (p.get_inst_seq.map (Board.isa false fun _ b => (b, [])).act) 0 .zero es1 b1 ∧
      ∀ b2, ∃ b3 es2, Halts (q.get_inst_seq.map (Board.isa false fun _ b => (b, [])).act) 0 b2 es2 b3 ∧
        ∃ flips, get_bitflips (readback es2) [fun _ => 8] = some (flips, []) ∧ flips.length = 1 := by
  obtain ⟨p, hp, hpx⟩ : ∃ p, init_rows 1 [5, 5] [7, 8] = some p ∧ Platform.Executable p :=
    init_rows_generates 1 (by simp) (by simp)
  obtain ⟨q, hq, hqx⟩ : ∃ q, read_rows 1 [5] = some q ∧ Platform.Executable q := read_rows_generates 1 (by simp)
  obtain ⟨b1, es1, hinit, hread⟩ := get_bitflips_exact hp hq hpx hqx (by simp) (by simp) (by simp) false
    (fun _ b => (b, [])) .zero
  refine ⟨p, q, hp, hq, b1, es1, hinit, fun b2 => ?_⟩
  obtain ⟨b3, es2, hh, flips, hget, hflips, -⟩ := hread b2
  exact ⟨b3, es2, hh, flips, hget, hflips⟩

end DCT
