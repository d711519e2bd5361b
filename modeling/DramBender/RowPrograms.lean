import Mathlib
import DramBender.StraightWords
/-!
# What `init_rows` and `read_rows` do to a board

`init_rows` keeps the row addresses and the words in the data memory and writes
one row in each pass of its loop; `read_rows` keeps the row addresses and reads
one row in each pass.
-/

namespace DCT

open DRAMBender Machine
open DRAMBender.Board
open Program (Piece Block listing listing_append loop)
open Call (add_inst add_inst4 add_mininst pack_minprogram)
open ReservedReg

/-! ## The columns of a row -/

/-- The addresses of the first `k` columns from `c` on. -/
def columns (c : CInt) (k : Nat) : List CInt := (List.range k).map fun i => c + BitVec.ofNat 32 (8 * i)

theorem columns_succ (c : CInt) (k : Nat) : columns c (k + 1) = columns c k ++ [c + BitVec.ofNat 32 (8 * k)] := by
  rw [columns, List.range_succ, List.map_append]
  rfl

/-- The commands that read the columns of a row. -/
def read_cmds (bank : Bank) (cells : Bank → CInt → CInt → Line) (cols : List CInt) (row_id : CInt) : List Cmd :=
  .ACT bank row_id :: (cols.map fun col => .RD bank col false (cells bank row_id col)) ++ [.PRE bank]

/-- The commands that write a line to the columns of a row. -/
def write_cmds (bank : Bank) (cols : List CInt) (row_id : CInt) (line : Line) : List Cmd :=
  .ACT bank row_id :: (cols.map fun col => .WR bank col false line) ++ [.PRE bank]

/-- The words a READ returns. -/
def returned : Cmd → List CInt
  | .RD _ _ _ data => (List.finRange 16).map fun i => data (BitVec.ofFin i)
  | _ => []

/-- What the READs of a run return, in order. -/
def readback (es : List Cmd) : List CInt := es.flatMap returned

/-- The lines of a row, at the columns. -/
def row_words (line : CInt → Line) (cols : List CInt) : List CInt :=
  cols.flatMap fun col => (List.finRange 16).map fun i => line col (BitVec.ofFin i)

section
variable (other : Mnemonic → Board → Board × List Cmd)

/-- The READs of `k` columns. -/
def reads (k : Nat) : List Mnemonic := (List.range k).flatMap fun _ => [only (.RD 4 false 3 true false false), NOPS]

/-- The WRITEs of `k` columns. -/
def writes (k : Nat) : List Mnemonic := (List.range k).flatMap fun _ => [only (.WR 4 false 3 true false false), NOPS]

theorem straight_reads (k : Nat) : Straight (reads k) := straight_flatMap (by simp)

theorem straight_writes (k : Nat) : Straight (writes k) := straight_flatMap (by simp)

theorem length_reads (k : Nat) : (reads k).length = 2 * k := by
  rw [reads, List.length_flatMap]
  simp [Nat.mul_comm]

theorem length_writes (k : Nat) : (writes k).length = 2 * k := by
  rw [writes, List.length_flatMap]
  simp [Nat.mul_comm]

theorem add_stride (c : CInt) (k : Nat) : c + BitVec.ofNat 32 (8 * k) + 8#32 = c + BitVec.ofNat 32 (8 * (k + 1)) := by
  rw [BitVec.add_assoc, Nat.mul_succ, BitVec.ofNat_add]

theorem exec_READ (b : Board) : exec_all other [only (.RD 4 false 3 true false false), NOPS] b =
    (b.set_reg 3#4 (b.regs 3#4 + b.regs 0#4),
      [.RD (false, b.regs 4#4) (b.regs 3#4) false (b.dram (false, b.regs 4#4) (b.row (false, b.regs 4#4)) (b.regs 3#4))]) := by
  rw [exec_all_only]
  rfl

/-- The READs of a row move CAR and return the row. -/
theorem exec_read_columns (b : Board) (hs : b.regs 0#4 = 8#32) (k : Nat) : exec_all other (reads k) b =
    (b.set_reg 3#4 (b.regs 3#4 + BitVec.ofNat 32 (8 * k)), (columns (b.regs 3#4) k).map fun col =>
      .RD (false, b.regs 4#4) col false (b.dram (false, b.regs 4#4) (b.row (false, b.regs 4#4)) col)) := by
  have h := exec_all_flatMap other (l := List.range k) (f := fun _ => [only (.RD 4 false 3 true false false), NOPS])
    (b := b) (fun xs b' es => b' = b.set_reg 3#4 (b.regs 3#4 + BitVec.ofNat 32 (8 * xs.length)) ∧
      es = (columns (b.regs 3#4) xs.length).map fun col =>
        .RD (false, b.regs 4#4) col false (b.dram (false, b.regs 4#4) (b.row (false, b.regs 4#4)) col)) ?_ ?_
  · rw [List.length_range] at h
    exact Prod.ext h.1 h.2
  · refine ⟨?_, rfl⟩
    simp [set_reg]
  · rintro xs x ys b' es - ⟨rfl, rfl⟩
    rw [exec_READ, List.length_append, List.length_singleton, columns_succ, ← add_stride]
    refine ⟨?_, ?_⟩
    · simp [set_reg, hs]
    · simp

/-- The cells with a line at the columns of a row. -/
def put_row (bank : Bank) (cols : List CInt) (cells : Bank → CInt → CInt → Line) (row_id : CInt) (line : Line) :
    Bank → CInt → CInt → Line :=
  fun bk r c => if bk = bank ∧ r = row_id ∧ c ∈ cols then line else cells bk r c

@[simp] theorem put_row_nil (bank : Bank) (cells : Bank → CInt → CInt → Line) (row_id : CInt) (line : Line) :
    put_row bank [] cells row_id line = cells := by
  funext bk r c
  simp [put_row]

theorem put_row_append (bank : Bank) (cols cols' : List CInt) (cells : Bank → CInt → CInt → Line) (row_id : CInt)
    (line : Line) : put_row bank (cols ++ cols') cells row_id line =
      put_row bank cols' (put_row bank cols cells row_id line) row_id line := by
  funext bk r c
  simp only [put_row, List.mem_append]
  split_ifs <;> tauto

theorem update_eq_put_row (bank : Bank) (col : CInt) (cells : Bank → CInt → CInt → Line) (row_id : CInt) (line : Line) :
    Function.update cells bank (Function.update (cells bank) row_id (Function.update (cells bank row_id) col line)) =
      put_row bank [col] cells row_id line := by
  funext bk r c
  by_cases hb : bk = bank
  · by_cases hr : r = row_id
    · by_cases hc : c = col
      · simp [put_row, hb, hr, hc]
      · simp [put_row, hb, hr, hc]
    · simp [put_row, hb, hr]
  · simp [put_row, hb]

theorem exec_WRITE (b : Board) : exec_all other [only (.WR 4 false 3 true false false), NOPS] b =
    ({ b with
      dram := put_row (false, b.regs 4#4) [b.regs 3#4] b.dram (b.row (false, b.regs 4#4)) b.wide
      regs := Function.update b.regs 3#4 (b.regs 3#4 + b.regs 0#4) },
      [.WR (false, b.regs 4#4) (b.regs 3#4) false b.wide]) := by
  rw [exec_all_only, ← update_eq_put_row]
  rfl

/-- `b'` is `b` with the wide data register written to the columns of the open
row of the bank in BAR. -/
structure Written (b b' : Board) (cols : List CInt) : Prop where
  mem : b'.mem = b.mem
  wide : b'.wide = b.wide
  row : b'.row = b.row
  dram : b'.dram = put_row (false, b.regs 4#4) cols b.dram (b.row (false, b.regs 4#4)) b.wide

/-- The WRITEs of a row move CAR and write the row. -/
theorem exec_write_columns (b : Board) (hs : b.regs 0#4 = 8#32) (k : Nat) :
    let r := exec_all other (writes k) b
    r.1.regs = Function.update b.regs 3#4 (b.regs 3#4 + BitVec.ofNat 32 (8 * k)) ∧
      Written b r.1 (columns (b.regs 3#4) k) ∧
      r.2 = (columns (b.regs 3#4) k).map fun col => .WR (false, b.regs 4#4) col false b.wide := by
  have h := exec_all_flatMap other (l := List.range k) (f := fun _ => [only (.WR 4 false 3 true false false), NOPS])
    (b := b) (fun xs b' es => b'.regs = Function.update b.regs 3#4 (b.regs 3#4 + BitVec.ofNat 32 (8 * xs.length)) ∧
      Written b b' (columns (b.regs 3#4) xs.length) ∧
      es = (columns (b.regs 3#4) xs.length).map fun col => .WR (false, b.regs 4#4) col false b.wide) ?_ ?_
  · rwa [List.length_range] at h
  · exact ⟨by simp, ⟨rfl, rfl, rfl, by simp [columns]⟩, rfl⟩
  · rintro xs x ys b' es - ⟨hregs, hw, rfl⟩
    have hbar : b'.regs 4#4 = b.regs 4#4 := by simp [hregs]
    have hcar : b'.regs 3#4 = b.regs 3#4 + BitVec.ofNat 32 (8 * xs.length) := by simp [hregs]
    rw [exec_WRITE, List.length_append, List.length_singleton]
    refine ⟨?_, ⟨hw.mem, hw.wide, hw.row, ?_⟩, ?_⟩
    · rw [← add_stride]
      simp [hregs, hs]
    · rw [columns_succ, put_row_append, ← hw.dram, hbar, hcar, hw.row, hw.wide]
    · rw [hbar, hcar, hw.wide, columns_succ, List.map_append]
      rfl

/-- The word in PATTERN_REG goes to all places of the wide data register. -/
theorem exec_load_word (b : Board) : exec_all other ((List.range 16).map fun i => .LDWD (BitVec.ofNat 4 i) 6#4) b =
    ({ b with wide := fun _ => b.regs 6#4 }, []) := by
  have hmap : ((List.range 16).map fun i => Mnemonic.LDWD (BitVec.ofNat 4 i) 6#4) =
      (List.range 16).flatMap fun i => [.LDWD (BitVec.ofNat 4 i) 6#4] := List.map_eq_flatMap
  have h := exec_all_flatMap other (l := List.range 16) (f := fun i => [.LDWD (BitVec.ofNat 4 i) 6#4]) (b := b)
    (fun xs b' es => es = [] ∧ ∃ w, b' = { b with wide := w } ∧ ∀ i : Reg, i.toNat ∈ xs → w i = b.regs 6#4) ?_ ?_
  · obtain ⟨hes, w, hb, hw⟩ := h
    have hwide : w = fun _ => b.regs 6#4 := funext fun i => hw i (List.mem_range.2 i.isLt)
    rw [hmap]
    exact Prod.ext (hb.trans (by rw [hwide])) hes
  · exact ⟨rfl, b.wide, rfl, by simp⟩
  · rintro xs x ys b' es hl ⟨rfl, w, rfl, hw⟩
    refine ⟨rfl, Function.update w (BitVec.ofNat 4 x) (b.regs 6#4), rfl, fun i hi => ?_⟩
    by_cases hx : i = BitVec.ofNat 4 x
    · rw [hx, Function.update_self]
    · rw [Function.update_of_ne hx]
      refine hw i ((List.mem_append.1 hi).resolve_right fun hi => hx ?_)
      rw [← List.mem_singleton.1 hi, BitVec.ofNat_toNat, BitVec.setWidth_eq]

/-! ## Tables in the data memory -/

/-- Row addresses, each stored where it stands in the list. -/
def id_table (row_ids : List CInt) : List Mnemonic :=
  row_ids.zipIdx.flatMap fun x => [.LI 9#4 x.1, .ST 8#4 (BitVec.ofNat 16 x.2) 9#4]

/-- Row addresses and words, stored one after the other. -/
def pair_table (pairs : List (CInt × CInt)) : List Mnemonic :=
  pairs.flatMap fun x => [.LI 10#4 x.1, .ST 9#4 0#16 10#4, .LI 6#4 x.2, .ST 9#4 1#16 6#4, .ADDI 9#4 9#4 2#16]

theorem straight_id_table (row_ids : List CInt) : Straight (id_table row_ids) := straight_flatMap (by simp)

theorem straight_pair_table (pairs : List (CInt × CInt)) : Straight (pair_table pairs) :=
  straight_flatMap (by simp)

theorem length_pair_table (pairs : List (CInt × CInt)) : (pair_table pairs).length = 5 * pairs.length := by
  simp [pair_table, List.length_flatMap, Nat.mul_comm]

theorem ofNat_ne {i j : Nat} (h : i ≠ j) (hi : i < 2 ^ 32) (hj : j < 2 ^ 32) : BitVec.ofNat 32 i ≠ BitVec.ofNat 32 j := by
  intro he
  have := congrArg BitVec.toNat he
  rw [BitVec.toNat_ofNat, BitVec.toNat_ofNat, Nat.mod_eq_of_lt hi, Nat.mod_eq_of_lt hj] at this
  exact h this

/-- Storing the row addresses: the `j`-th one ends at address `j`. -/
theorem exec_store_row_ids {row_ids : List CInt} (hlen : row_ids.length ≤ 65536) (b : Board) (hptr : b.regs 8#4 = 0#32) :
    let r := exec_all other (id_table row_ids) b
    Frame [9#4] b r.1 ∧ (∀ x ∈ row_ids.zipIdx, r.1.mem (BitVec.ofNat 32 x.2) = x.1) ∧
      r.1.dram = b.dram ∧ r.2 = [] := by
  refine exec_all_flatMap other (fun (xs : List (CInt × Nat)) b' es => Frame [9#4] b b' ∧
    (∀ x ∈ xs, b'.mem (BitVec.ofNat 32 x.2) = x.1) ∧ b'.dram = b.dram ∧ es = []) ⟨.of_regs rfl, by simp, rfl, rfl⟩ ?_
  rintro xs x ys b' es hl ⟨hregs, hmem, hdram, rfl⟩
  have hlt : ∀ y ∈ row_ids.zipIdx, y.2 < 65536 := fun y hy => lt_of_lt_of_le (List.snd_lt_of_mem_zipIdx hy) hlen
  have hx : x.2 < 65536 := hlt x (by rw [hl]; simp)
  have hnd : (row_ids.zipIdx.map Prod.snd).Nodup := by
    rw [List.zipIdx_map_snd]
    exact List.nodup_range'
  rw [hl, List.map_append, List.map_cons] at hnd
  have haddr : b'.regs 8#4 + (BitVec.ofNat 16 x.2).setWidth 32 = BitVec.ofNat 32 x.2 := by
    rw [hregs _ (by decide), hptr]
    bv_omega
  rw [exec_all_LI, exec_all_ST, exec_all_nil]
  refine ⟨hregs.set_reg (by simp) _, fun y hy => ?_, hdram, rfl⟩
  · have h8 : (b'.set_reg 9#4 x.1).regs 8#4 = b'.regs 8#4 := by simp
    simp only [set_reg_regs, set_reg_mem, Function.update_self] at h8 ⊢
    rw [h8, haddr]
    rcases List.mem_append.1 hy with hy | hy
    · have hne : y.2 ≠ x.2 := (List.nodup_append.1 hnd).2.2 y.2 (List.mem_map_of_mem hy) x.2 (by simp)
      have hy' : y.2 < 65536 := hlt y (by rw [hl]; simp [hy])
      rw [Function.update_of_ne (ofNat_ne hne (by omega) (by omega))]
      exact hmem y hy
    · rw [List.mem_singleton.1 hy, Function.update_self]

theorem exec_store_pair (x : CInt × CInt) (b : Board) :
    let r := exec_all other [.LI 10#4 x.1, .ST 9#4 0#16 10#4, .LI 6#4 x.2, .ST 9#4 1#16 6#4, .ADDI 9#4 9#4 2#16] b
    r.1.regs 7#4 = b.regs 7#4 ∧ r.1.regs 9#4 = b.regs 9#4 + 2#32 ∧
      r.1.mem = Function.update (Function.update b.mem (b.regs 9#4) x.1) (b.regs 9#4 + 1#32) x.2 ∧
      r.1.dram = b.dram ∧ r.2 = [] := by
  simp

/-- Storing the row addresses and the words: the `j`-th pair ends at the
addresses `2 * j` and `2 * j + 1`. -/
theorem exec_store_pairs {pairs : List (CInt × CInt)} (hlen : pairs.length ≤ 65536) (b : Board) (hptr : b.regs 9#4 = 0#32) :
    let r := exec_all other (pair_table pairs) b
    r.1.regs 7#4 = b.regs 7#4 ∧ (∀ j x, pairs[j]? = some x →
      r.1.mem (BitVec.ofNat 32 (2 * j)) = x.1 ∧ r.1.mem (BitVec.ofNat 32 (2 * j + 1)) = x.2) ∧
      r.1.dram = b.dram ∧ r.2 = [] := by
  have h := exec_all_flatMap other (l := pairs) (f := fun x =>
      [.LI 10#4 x.1, .ST 9#4 0#16 10#4, .LI 6#4 x.2, .ST 9#4 1#16 6#4, .ADDI 9#4 9#4 2#16]) (b := b)
    (fun xs b' es => b'.regs 7#4 = b.regs 7#4 ∧ b'.regs 9#4 = BitVec.ofNat 32 (2 * xs.length) ∧ (∀ j x, xs[j]? = some x →
      b'.mem (BitVec.ofNat 32 (2 * j)) = x.1 ∧ b'.mem (BitVec.ofNat 32 (2 * j + 1)) = x.2) ∧ b'.dram = b.dram ∧ es = [])
    ?_ ?_
  · exact ⟨h.1, h.2.2⟩
  · exact ⟨rfl, hptr, by simp, rfl, rfl⟩
  · rintro xs x ys b' es hl ⟨hnum, hptr', hmem, hdram, rfl⟩
    have hxs : xs.length < 65536 := by
      rw [hl, List.length_append, List.length_cons] at hlen
      omega
    obtain ⟨h7, h9, hm, hd, hes⟩ := exec_store_pair other x b'
    have hsucc : b'.regs 9#4 + 1#32 = BitVec.ofNat 32 (2 * xs.length + 1) := by rw [hptr', BitVec.ofNat_add]
    refine ⟨h7.trans hnum, ?_, fun j y hj => ?_, hd.trans hdram, hes⟩
    · rw [h9, hptr', List.length_append, List.length_singleton, Nat.mul_succ, BitVec.ofNat_add]
    · rw [hm, hsucc, hptr']
      rcases Nat.lt_trichotomy j xs.length with hlt | rfl | hgt
      · rw [List.getElem?_append_left hlt] at hj
        obtain ⟨h1, h2⟩ := hmem j y hj
        rw [Function.update_of_ne (ofNat_ne (by omega) (by omega) (by omega)),
          Function.update_of_ne (ofNat_ne (by omega) (by omega) (by omega)),
          Function.update_of_ne (ofNat_ne (by omega) (by omega) (by omega)),
          Function.update_of_ne (ofNat_ne (by omega) (by omega) (by omega))]
        exact ⟨h1, h2⟩
      · rw [List.getElem?_append_right le_rfl, Nat.sub_self, List.getElem?_cons_zero] at hj
        obtain rfl := Option.some.inj hj
        rw [Function.update_of_ne (ofNat_ne (by omega) (by omega) (by omega)), Function.update_self, Function.update_self]
        exact ⟨rfl, rfl⟩
      · rw [List.getElem?_eq_none (by rw [List.length_append, List.length_singleton]; omega)] at hj
        cases hj

end

/-! ## `read_rows` -/

section
variable (other : Mnemonic → Board → Board × List Cmd)

theorem spells_read_columns : Spells read_columns (reads 128) :=
  spells_flatMap fun _ _ => spells_pieces _ (by simp) (by simp)

theorem spells_store_row_ids {row_ids : List CInt} (hlen : row_ids.length ≤ 65536) :
    Spells (store_row_ids (Last + 1) (Last + 2) row_ids) (id_table row_ids) := by
  refine spells_flatMap fun x hx => spells_pieces _ (by simp) ?_
  rw [listing_LI _ (by decide), listing_ST _ (by decide) (ofNat_lt_65536 hlen hx) (by decide)]
  simp

/-- One pass: load the address, open the row, read it, close it. -/
theorem exec_read_pass {b : Board} (hs : b.regs 0#4 = 8#32) {samt : BitVec 32} {k : Nat} {r : Board × List Cmd}
    (hr : exec_all other ([.LD 5#4 8#4 0#16, NOPS, only (.ACT 4 false 5 false false), .LI 3#4 0#32, NOPS] ++ reads k ++
      [.SLEEP samt] ++ [.ADDI 8#4 8#4 1#16, only (.PRE 4 false false false)]) b = r) :
    Frame [3#4, 5#4, 8#4] b r.1 ∧ r.1.regs 8#4 = b.regs 8#4 + 1#32 ∧
      r.1.mem = b.mem ∧ r.1.dram = b.dram ∧
      r.2 = read_cmds (false, b.regs 4#4) b.dram (columns 0 k) (b.mem (b.regs 8#4)) := by
  obtain ⟨b1, hopen, hregs, h3, hmem, hdram, hrow⟩ : ∃ b1,
      exec_all other [.LD 5#4 8#4 0#16, NOPS, only (.ACT 4 false 5 false false), .LI 3#4 0#32, NOPS] b =
        (b1, [.ACT (false, b.regs 4#4) (b.mem (b.regs 8#4))]) ∧
      Frame [3#4, 5#4] b b1 ∧ b1.regs 3#4 = 0#32 ∧ b1.mem = b.mem ∧ b1.dram = b.dram ∧
      b1.row (false, b.regs 4#4) = b.mem (b.regs 8#4) := by
    simp only [exec_all_LD, exec_all_NOPS, exec_all_ACT, exec_all_LI, exec_all_nil]
    refine ⟨_, Prod.ext rfl ?_, ?_, ?_, rfl, rfl, ?_⟩
    · simp
    · exact ((Frame.of_regs rfl).set_reg (by simp) _).set_reg (by simp) _
    · simp
    · simp
  have h4 : b1.regs 4#4 = b.regs 4#4 := hregs 4#4 (by decide)
  have h0 : b1.regs 0#4 = 8#32 := (hregs 0#4 (by decide)).trans hs
  simp only [exec_all_append, hopen, exec_read_columns other b1 h0, exec_all_SLEEP, exec_all_ADDI, exec_all_PRE,
    exec_all_nil] at hr
  rw [← hr]
  refine ⟨?_, ?_, hmem, hdram, ?_⟩
  · exact ((hregs.mono (by simp)).set_reg (by simp) _).set_reg (by simp) _
  · simp [hregs 8#4 (by decide)]
  · simp [read_cmds, h3, h4, hdram, hrow]

end

/-- What holds before every pass of `read_rows`, and the commands so far. -/
structure Reading (bank : CInt) (num : Nat) (rows : List CInt) (cells : Bank → CInt → CInt → Line) (i : Nat) (b : Board)
    (es : List Cmd) : Prop where
  bar : b.regs 4#4 = bank
  stride : b.regs 0#4 = 8#32
  num : b.regs 7#4 = BitVec.ofNat 32 num
  ptr : b.regs 8#4 = BitVec.ofNat 32 i
  table : ∀ x ∈ rows.zipIdx, b.mem (BitVec.ofNat 32 x.2) = x.1
  dram : b.dram = cells
  issued : es = .PRE (false, bank) :: (rows.take i).flatMap (read_cmds (false, bank) cells (columns 0 128))

/-- The rows `read_rows` reads: without any, the one the data memory happens to
hold. -/
def visited (row_ids : List CInt) (b : Board) : List CInt := if row_ids = [] then [b.mem 0] else row_ids

section
variable (other : Mnemonic → Board → Board × List Cmd)

/-- What `read_rows` does before its loop. -/
theorem reading_start {bank : CInt} {row_ids : List CInt} (hlen : row_ids.length ≤ 65536) (b : Board) :
    let r := exec_all other ([.LI 7#4 (BitVec.ofNat 32 row_ids.length), .LI 8#4 0#32] ++ id_table row_ids ++
      [.LI 4#4 bank, .LI 0#4 8#32, only (.PRE 4 false false false), NOPS, NOPS]) b
    Reading bank row_ids.length (visited row_ids b) b.dram 0 r.1 r.2 := by
  obtain ⟨hregs, hmem, hdram, hes⟩ :=
    exec_store_row_ids other hlen ((b.set_reg 7#4 (BitVec.ofNat 32 row_ids.length)).set_reg 8#4 0#32) (by simp)
  simp only [exec_all_append, exec_all_LI, exec_all_PRE, exec_all_NOPS, exec_all_nil]
  refine ⟨by simp, by simp, ?_, ?_, ?_, hdram, ?_⟩
  · simp [hregs 7#4 (by decide)]
  · simp [hregs 8#4 (by decide)]
  · by_cases hne : row_ids = []
    · simp [visited, hne, id_table]
    · rw [visited, if_neg hne]
      exact hmem
  · simp [hes]

/-- What one pass of `read_rows` does. -/
theorem reading_step {bank : CInt} {num : Nat} {rows : List CInt} {cells : Bank → CInt → CInt → Line} {i : Nat}
    (hi : i < rows.length) {b : Board} {es : List Cmd} (h : Reading bank num rows cells i b es) (samt : BitVec 32)
    {r : Board × List Cmd}
    (hr : exec_all other ([.LD 5#4 8#4 0#16, NOPS, only (.ACT 4 false 5 false false), .LI 3#4 0#32, NOPS] ++ reads 128 ++
      [.SLEEP samt] ++ [.ADDI 8#4 8#4 1#16, only (.PRE 4 false false false)]) b = r) :
    Reading bank num rows cells (i + 1) r.1 (es ++ r.2) := by
  obtain ⟨hregs, hptr, hmem, hdram, hes⟩ := exec_read_pass other h.stride hr
  have hrow : b.mem (BitVec.ofNat 32 i) = rows[i] := h.table (rows[i], i) (by simp [List.mem_zipIdx_iff_getElem?])
  refine ⟨?_, ?_, ?_, ?_, ?_, ?_, ?_⟩
  · rw [hregs _ (by decide), h.bar]
  · rw [hregs _ (by decide), h.stride]
  · rw [hregs _ (by decide), h.num]
  · rw [hptr, h.ptr, BitVec.ofNat_add]
  · rw [hmem]
    exact h.table
  · rw [hdram, h.dram]
  · rw [h.issued, hes, h.dram, h.bar, h.ptr, hrow, List.take_add_one, List.getElem?_eq_getElem hi, Option.toList_some,
      List.flatMap_append, List.flatMap_singleton]
    rfl

end

/-- A pass that opens a row, goes over its columns, waits and goes on. -/
theorem spells_row_pass {opening columns waiting closing : List Call} {os ms cs : List Mnemonic} {cycles : CInt}
    (hcolumns : Spells columns ms) (hwaiting : sleep cycles = some waiting) (hopening : ∀ c ∈ opening, Piece c)
    (hos : listing opening = os) (hclosing : ∀ c ∈ closing, Piece c) (hcs : listing closing = cs) :
    Spells (opening ++ columns ++ waiting ++ closing) (os ++ ms ++ [.SLEEP (cycles - 2)] ++ cs) :=
  (((spells_pieces _ hopening hos).append hcolumns).append (spells_sleep hwaiting)).append (spells_pieces _ hclosing hcs)

theorem spells_read_pass {sleep3 : List Call} (hs3 : sleep 3 = some sleep3) :
    Spells ([add_inst (SMC_LD (Last + 1) 0 RAR), ddr (SMC_ACT BAR 0 RAR 0), add_inst (SMC_LI 0 CAR), nops] ++
      read_columns ++ sleep3 ++ [add_inst (SMC_ADDI (Last + 1) 1 (Last + 1)), ddr (SMC_PRE BAR 0 0)])
      ([.LD 5#4 8#4 0#16, NOPS, only (.ACT 4 false 5 false false), .LI 3#4 0#32, NOPS] ++ reads 128 ++ [.SLEEP (3 - 2)] ++
        [.ADDI 8#4 8#4 1#16, only (.PRE 4 false false false)]) :=
  spells_row_pass spells_read_columns hs3 (by simp) (by simp) (by simp) (by simp)

theorem spells_read_row (bank row_id : CInt) {sleep4 sleep3 : List Call} (hs4 : sleep 4 = some sleep4)
    (hs3 : sleep 3 = some sleep3) :
    Spells ([add_inst (SMC_LI bank BAR), add_inst (SMC_LI row_id RAR), add_inst (SMC_LI 8 CASR), ddr (SMC_PRE BAR 0 0),
        add_inst (SMC_LI 0 CAR), nops, nops, ddr (SMC_ACT BAR 0 RAR 0), nops, nops] ++ read_columns ++ sleep4 ++
        [ddr (SMC_PRE BAR 0 0)] ++ sleep3)
      ([.LI 4#4 bank, .LI 5#4 row_id, .LI 0#4 8#32] ++
        [only (.PRE 4 false false false), .LI 3#4 0#32, NOPS, NOPS, only (.ACT 4 false 5 false false), NOPS, NOPS] ++
        reads 128 ++ [.SLEEP (4 - 2)] ++ [only (.PRE 4 false false false)] ++ [.SLEEP (3 - 2)]) :=
  (spells_row_pass spells_read_columns hs4 (by simp) (by simp) (by simp) (by simp)).append (spells_sleep hs3)

theorem spells_read_start {bank : CInt} {row_ids : List CInt} (hlen : row_ids.length ≤ 65536) :
    Spells ([add_inst (SMC_LI (BitVec.ofNat 32 row_ids.length) Last), add_inst (SMC_LI 0 (Last + 1))] ++
      store_row_ids (Last + 1) (Last + 2) row_ids ++
      [add_inst (SMC_LI bank BAR), add_inst (SMC_LI 8 CASR), ddr (SMC_PRE BAR 0 0), nops, nops])
      ([.LI 7#4 (BitVec.ofNat 32 row_ids.length), .LI 8#4 0#32] ++ id_table row_ids ++
        [.LI 4#4 bank, .LI 0#4 8#32, only (.PRE 4 false false false), NOPS, NOPS]) :=
  ((spells_pieces _ (by simp) (by simp)).append (spells_store_row_ids hlen)).append (spells_pieces _ (by simp) (by simp))

/-- For a short list `read_rows` is executable. -/
theorem read_rows_generates (bank : CInt) {row_ids : List CInt} (hn : row_ids.length ≤ 256) :
    ∃ p, read_rows bank row_ids = some p ∧ Platform.Executable p := by
  obtain ⟨sleep3, hs3⟩ := exists_sleep (show (2 : CInt) < 3 by decide)
  have hlen : (id_table row_ids).length = 2 * row_ids.length := by
    simp [id_table, List.length_flatMap, Nat.mul_comm]
  unfold read_rows
  rw [hs3, Option.bind_eq_bind, Option.bind_some]
  refine loop_generates (spells_read_start (by omega)) (spells_read_pass hs3) spells_nil (by decide) (by decide) ?_ _
  simp only [List.length_append, hlen, length_reads, List.length_cons, List.length_nil]
  omega

theorem length_visited (row_ids : List CInt) (b : Board) : (visited row_ids b).length = max 1 row_ids.length := by
  rw [visited]
  split_ifs with h
  · simp [h]
  · exact (max_eq_right (List.length_pos_iff.2 h)).symm

/-- A run of `read_rows` reads the rows in the order of the list, and changes none. -/
theorem read_rows_run {bank : CInt} {row_ids : List CInt} {p : Program} (h : read_rows bank row_ids = some p)
    (hx : Platform.Executable p) (signed : Bool) (other : Mnemonic → Board → Board × List Cmd) (b : Board) :
    ∃ b' es, Halts (p.get_inst_seq.map (Board.isa signed other).act) 0 b es b' ∧
      Reading bank row_ids.length (visited row_ids b) b.dram (visited row_ids b).length b' es := by
  have hlt := read_rows_length h hx
  have hvisited := length_visited row_ids b
  unfold read_rows at h
  obtain ⟨sleep3, hs3, h⟩ := Option.bind_eq_some_iff.1 h
  obtain ⟨b', es, hh, hJ⟩ : ∃ b1 es1, Halts (p.get_inst_seq.map (Board.isa signed other).act) 0 b (es1 ++ []) b1 ∧
      Reading bank row_ids.length (visited row_ids b) b.dram (visited row_ids b).length b1 es1 := by
    refine halts_on_board h hx (spells_read_start (by omega)) (spells_read_pass hs3) spells_nil (by decide) (by decide)
      ?_ ?_ straight_nil signed other (by omega) (Reading bank row_ids.length (visited row_ids b) b.dram) b ?_ ?_
    · simp [straight_id_table]
    · simp [straight_reads]
    · exact reading_start other (by omega) b
    · intro i b1 es1 hi hJ
      have hstep := reading_step other hi hJ (3 - 2) rfl
      refine ⟨hstep, (lt_counters signed other hstep.ptr hstep.num (by omega) (by omega)).trans ?_⟩
      exact decide_eq_decide.2 (by omega)
  rw [List.append_nil] at hh
  exact ⟨b', es, hh, hJ⟩

/-! ## `init_rows` -/

/-- The word in PATTERN_REG to all places of the wide data register. -/
def load_words : List Mnemonic := (List.range 16).map fun i => .LDWD (BitVec.ofNat 4 i) 6#4

theorem straight_load_words : Straight load_words := List.forall_mem_map.2 fun _ _ => rfl

theorem spells_write_columns : Spells write_columns (writes 128) :=
  spells_flatMap fun _ _ => spells_pieces _ (by simp) (by simp)

theorem spells_load_word : Spells load_word load_words := by
  rw [load_word, load_words, List.map_eq_flatMap, List.map_eq_flatMap]
  refine spells_flatMap fun i hi => spells_pieces _ (by simp) ?_
  rw [listing_LDWD _ (by decide) (ofNat_lt_16 (List.mem_range.1 hi))]
  simp

theorem spells_pair_table (pairs : List (CInt × CInt)) : Spells (pairs.flatMap fun x =>
    [add_inst (SMC_LI x.1 (Last + 3)), add_inst (SMC_ST (Last + 2) 0 (Last + 3)), add_inst (SMC_LI x.2 PATTERN_REG),
      add_inst (SMC_ST (Last + 2) 1 PATTERN_REG), add_inst (SMC_ADDI (Last + 2) 2 (Last + 2))]) (pair_table pairs) :=
  spells_flatMap fun _ _ => spells_pieces _ (by simp) (by simp)

section
variable (other : Mnemonic → Board → Board × List Cmd)

/-- One pass: load the address and the word, open the row, write it, close it. -/
theorem exec_write_pass {b : Board} (hs : b.regs 0#4 = 8#32) {samt : BitVec 32} {k : Nat} {r : Board × List Cmd}
    (hr : exec_all other ([.LD 5#4 9#4 0#16, NOPS, .LD 6#4 9#4 1#16, NOPS] ++ load_words ++
      [only (.ACT 4 false 5 false false), .LI 3#4 0#32, .ADDI 9#4 9#4 2#16] ++ writes k ++
      [.SLEEP samt] ++ [.ADDI 8#4 8#4 1#16, only (.PRE 4 false false false)]) b = r) :
    Frame [3#4, 5#4, 6#4, 8#4, 9#4] b r.1 ∧
      r.1.regs 8#4 = b.regs 8#4 + 1#32 ∧ r.1.regs 9#4 = b.regs 9#4 + 2#32 ∧ r.1.mem = b.mem ∧
      r.1.dram = put_row (false, b.regs 4#4) (columns 0 k) b.dram (b.mem (b.regs 9#4))
        (fun _ => b.mem (b.regs 9#4 + 1#32)) ∧
      r.2 = write_cmds (false, b.regs 4#4) (columns 0 k) (b.mem (b.regs 9#4)) (fun _ => b.mem (b.regs 9#4 + 1#32)) := by
  obtain ⟨b1, hopen, hregs, h3, h9, hmem, hdram, hrow, hwide⟩ : ∃ b1,
      exec_all other ([.LD 5#4 9#4 0#16, NOPS, .LD 6#4 9#4 1#16, NOPS] ++ load_words ++
        [only (.ACT 4 false 5 false false), .LI 3#4 0#32, .ADDI 9#4 9#4 2#16]) b =
        (b1, [.ACT (false, b.regs 4#4) (b.mem (b.regs 9#4))]) ∧
      Frame [3#4, 5#4, 6#4, 9#4] b b1 ∧ b1.regs 3#4 = 0#32 ∧
      b1.regs 9#4 = b.regs 9#4 + 2#32 ∧ b1.mem = b.mem ∧ b1.dram = b.dram ∧
      b1.row (false, b.regs 4#4) = b.mem (b.regs 9#4) ∧ b1.wide = fun _ => b.mem (b.regs 9#4 + 1#32) := by
    simp only [exec_all_append, exec_all_LD, exec_all_NOPS, load_words, exec_load_word, exec_all_ACT, exec_all_LI,
      exec_all_ADDI, exec_all_nil]
    refine ⟨_, Prod.ext rfl ?_, ?_, ?_, ?_, rfl, rfl, ?_, ?_⟩
    · simp
    · intro rt hrt
      simp only [List.mem_cons, List.not_mem_nil, or_false, not_or] at hrt
      simp [hrt]
    · simp
    · simp
    · simp
    · simp
  have h4 : b1.regs 4#4 = b.regs 4#4 := hregs 4#4 (by decide)
  have h0 : b1.regs 0#4 = 8#32 := (hregs 0#4 (by decide)).trans hs
  obtain ⟨b2, hwrite, hregs', hmem', hdram'⟩ : ∃ b2,
      exec_all other (writes k) b1 = (b2, (columns 0 k).map fun col =>
        .WR (false, b.regs 4#4) col false fun _ => b.mem (b.regs 9#4 + 1#32)) ∧
      Frame [3#4] b1 b2 ∧ b2.mem = b.mem ∧
      b2.dram = put_row (false, b.regs 4#4) (columns 0 k) b.dram (b.mem (b.regs 9#4)) fun _ => b.mem (b.regs 9#4 + 1#32) := by
    obtain ⟨hr2, hw, hes⟩ := exec_write_columns other b1 h0 k
    refine ⟨_, Prod.ext rfl ?_, fun rt hrt => ?_, hw.mem.trans hmem, ?_⟩
    · rw [hes, h3, h4, hwide]
      rfl
    · rw [hr2, Function.update_of_ne (List.ne_of_not_mem_cons hrt)]
    · rw [hw.dram, h3, h4, hdram, hrow, hwide]
      rfl
  rw [exec_all_append, exec_all_append, exec_all_append, hopen] at hr
  simp only [hwrite, exec_all_SLEEP, exec_all_ADDI, exec_all_PRE, exec_all_nil] at hr
  have h8 : b2.regs 8#4 = b.regs 8#4 := (hregs' 8#4 (by decide)).trans (hregs 8#4 (by decide))
  rw [← hr]
  refine ⟨?_, ?_, ?_, hmem', hdram', ?_⟩
  · exact ((hregs.mono (by simp)).trans (hregs'.mono (by simp))).set_reg (by simp) _
  · simp [h8]
  · simp [hregs' 9#4 (by decide), h9]
  · simp [write_cmds, hregs' 4#4 (by decide), h4]

/-- The cells with the words written to the rows, one after the other. -/
def put_rows (bank : Bank) (cols : List CInt) (cells : Bank → CInt → CInt → Line) (pairs : List (CInt × CInt)) :
    Bank → CInt → CInt → Line :=
  pairs.foldl (fun cells x => put_row bank cols cells x.1 fun _ => x.2) cells

/-- What holds before every pass of `init_rows`, and the commands so far. -/
structure Writing (bank : CInt) (pairs : List (CInt × CInt)) (cells : Bank → CInt → CInt → Line) (i : Nat) (b : Board)
    (es : List Cmd) : Prop where
  bar : b.regs 4#4 = bank
  stride : b.regs 0#4 = 8#32
  num : b.regs 7#4 = BitVec.ofNat 32 pairs.length
  cnt : b.regs 8#4 = BitVec.ofNat 32 i
  ptr : b.regs 9#4 = BitVec.ofNat 32 (2 * i)
  table : ∀ j x, pairs[j]? = some x → b.mem (BitVec.ofNat 32 (2 * j)) = x.1 ∧ b.mem (BitVec.ofNat 32 (2 * j + 1)) = x.2
  dram : b.dram = put_rows (false, bank) (columns 0 128) cells (pairs.take i)
  issued : es = .PRE (false, bank) ::
    (pairs.take i).flatMap fun x => write_cmds (false, bank) (columns 0 128) x.1 fun _ => x.2

/-- What `init_rows` does before its loop. -/
theorem writing_start {bank : CInt} {pairs : List (CInt × CInt)} (hlen : pairs.length ≤ 65536) (b : Board) :
    let r := exec_all other ([.LI 7#4 (BitVec.ofNat 32 pairs.length), .LI 9#4 0#32] ++ pair_table pairs ++
      [.LI 9#4 0#32, .LI 4#4 bank, .LI 0#4 8#32, only (.PRE 4 false false false), .LI 3#4 0#32, .LI 8#4 0#32]) b
    Writing bank pairs b.dram 0 r.1 r.2 := by
  obtain ⟨hnum, hmem, hdram, hes⟩ :=
    exec_store_pairs other hlen ((b.set_reg 7#4 (BitVec.ofNat 32 pairs.length)).set_reg 9#4 0#32) (by simp)
  simp only [exec_all_append, exec_all_LI, exec_all_PRE, exec_all_nil]
  refine ⟨by simp, by simp, ?_, by simp, by simp, hmem, hdram, ?_⟩
  · simp [hnum]
  · simp [hes]

/-- What one pass of `init_rows` does. -/
theorem writing_step {bank : CInt} {pairs : List (CInt × CInt)} {cells : Bank → CInt → CInt → Line} {i : Nat}
    (hi : i < pairs.length) {b : Board} {es : List Cmd} (h : Writing bank pairs cells i b es) (samt : BitVec 32)
    {r : Board × List Cmd}
    (hr : exec_all other ([.LD 5#4 9#4 0#16, NOPS, .LD 6#4 9#4 1#16, NOPS] ++ load_words ++
      [only (.ACT 4 false 5 false false), .LI 3#4 0#32, .ADDI 9#4 9#4 2#16] ++ writes 128 ++
      [.SLEEP samt] ++ [.ADDI 8#4 8#4 1#16, only (.PRE 4 false false false)]) b = r) :
    Writing bank pairs cells (i + 1) r.1 (es ++ r.2) := by
  obtain ⟨hregs, hcnt, hptr, hmem, hdram, hes⟩ := exec_write_pass other h.stride hr
  obtain ⟨hrow, hword⟩ := h.table i pairs[i] (List.getElem?_eq_getElem hi)
  have hsucc : b.regs 9#4 + 1#32 = BitVec.ofNat 32 (2 * i + 1) := by rw [h.ptr, BitVec.ofNat_add]
  have htake : pairs.take (i + 1) = pairs.take i ++ [pairs[i]] := by
    rw [List.take_add_one, List.getElem?_eq_getElem hi, Option.toList_some]
  rw [hsucc, h.ptr, h.bar, hrow, hword] at hdram hes
  refine ⟨?_, ?_, ?_, ?_, ?_, ?_, ?_, ?_⟩
  · rw [hregs _ (by decide), h.bar]
  · rw [hregs _ (by decide), h.stride]
  · rw [hregs _ (by decide), h.num]
  · rw [hcnt, h.cnt, BitVec.ofNat_add]
  · rw [hptr, h.ptr, Nat.mul_succ, BitVec.ofNat_add]
  · rw [hmem]
    exact h.table
  · rw [hdram, h.dram, htake, put_rows, put_rows, List.foldl_append, List.foldl_cons, List.foldl_nil]
  · rw [h.issued, hes, htake, List.flatMap_append, List.flatMap_singleton]
    rfl

end

theorem spells_write_start (bank : CInt) {row_ids : List CInt} {wr_words : List WriteWord_t}
    (hlen : row_ids.length ≤ wr_words.length) :
    Spells ([add_inst (SMC_LI (BitVec.ofNat 32 row_ids.length) Last), add_inst (SMC_LI 0 (Last + 2))] ++
      (row_ids.zip wr_words).flatMap (fun x =>
        [add_inst (SMC_LI x.1 (Last + 3)), add_inst (SMC_ST (Last + 2) 0 (Last + 3)),
          add_inst (SMC_LI x.2 PATTERN_REG), add_inst (SMC_ST (Last + 2) 1 PATTERN_REG),
          add_inst (SMC_ADDI (Last + 2) 2 (Last + 2))]) ++
      [add_inst (SMC_LI 0 (Last + 2)), add_inst (SMC_LI bank BAR), add_inst (SMC_LI 8 CASR), ddr (SMC_PRE BAR 0 0),
        add_inst (SMC_LI 0 CAR), add_inst (SMC_LI 0 (Last + 1))])
      ([.LI 7#4 (BitVec.ofNat 32 (row_ids.zip wr_words).length), .LI 9#4 0#32] ++ pair_table (row_ids.zip wr_words) ++
        [.LI 9#4 0#32, .LI 4#4 bank, .LI 0#4 8#32, only (.PRE 4 false false false), .LI 3#4 0#32, .LI 8#4 0#32]) :=
  ((spells_pieces _ (by simp) (by simp [List.length_zip, hlen])).append (spells_pair_table _)).append
    (spells_pieces _ (by simp) (by simp))

theorem spells_write_pass {sleep3 : List Call} (hs3 : sleep 3 = some sleep3) :
    Spells ([add_inst (SMC_LD (Last + 2) 0 RAR), add_inst (SMC_LD (Last + 2) 1 PATTERN_REG)] ++ load_word ++
      [ddr (SMC_ACT BAR 0 RAR 0), add_inst (SMC_LI 0 CAR), add_inst (SMC_ADDI (Last + 2) 2 (Last + 2))] ++
      write_columns ++ sleep3 ++ [add_inst (SMC_ADDI (Last + 1) 1 (Last + 1)), ddr (SMC_PRE BAR 0 0)])
      ([.LD 5#4 9#4 0#16, NOPS, .LD 6#4 9#4 1#16, NOPS] ++ load_words ++
        [only (.ACT 4 false 5 false false), .LI 3#4 0#32, .ADDI 9#4 9#4 2#16] ++ writes 128 ++ [.SLEEP (3 - 2)] ++
        [.ADDI 8#4 8#4 1#16, only (.PRE 4 false false false)]) :=
  (((((spells_pieces _ (by simp) (by simp)).append spells_load_word).append (spells_pieces _ (by simp) (by simp))).append
    spells_write_columns).append (spells_sleep hs3)).append (spells_pieces _ (by simp) (by simp))

theorem init_rows_words {bank : CInt} {row_ids : List CInt} {wr_words : List WriteWord_t} {p : Program}
    (h : init_rows bank row_ids wr_words = some p) : row_ids.length ≤ wr_words.length := by
  obtain ⟨u, hwords, -⟩ := Option.bind_eq_some_iff.1 h
  by_contra hle
  simp [guard, hle] at hwords

/-- For a short list `init_rows` is executable. -/
theorem init_rows_generates (bank : CInt) {row_ids : List CInt} {wr_words : List WriteWord_t}
    (hlen : row_ids.length ≤ wr_words.length) (hn : row_ids.length ≤ 128) :
    ∃ p, init_rows bank row_ids wr_words = some p ∧ Platform.Executable p := by
  obtain ⟨sleep3, hs3⟩ := exists_sleep (show (2 : CInt) < 3 by decide)
  have hload : load_words.length = 16 := rfl
  unfold init_rows
  rw [guard, if_pos hlen, Option.bind_eq_bind, Option.pure_def, Option.bind_some, hs3, Option.bind_eq_bind, Option.bind_some]
  refine loop_generates (spells_write_start bank hlen) (spells_write_pass hs3) spells_nil (by decide) (by decide) ?_ _
  simp only [List.length_append, length_pair_table, length_writes, List.length_cons, List.length_nil, List.length_zip, hload]
  omega

/-- A run of `init_rows` writes the words to the rows, in the order of the list. -/
theorem init_rows_run {bank : CInt} {row_ids : List CInt} {wr_words : List WriteWord_t} {p : Program}
    (h : init_rows bank row_ids wr_words = some p) (hx : Platform.Executable p) (hne : row_ids ≠ []) (signed : Bool)
    (other : Mnemonic → Board → Board × List Cmd) (b : Board) :
    ∃ b' es, Halts (p.get_inst_seq.map (Board.isa signed other).act) 0 b es b' ∧
      Writing bank (row_ids.zip wr_words) b.dram row_ids.length b' es := by
  have hzip : (row_ids.zip wr_words).length = row_ids.length := by
    rw [List.length_zip, min_eq_left (init_rows_words h)]
  have hle := init_rows_words h
  unfold init_rows at h
  obtain ⟨-, -, h⟩ := Option.bind_eq_some_iff.1 h
  obtain ⟨sleep3, hs3, h⟩ := Option.bind_eq_some_iff.1 h
  have hpre := spells_write_start bank hle
  have hbody := spells_write_pass hs3
  have hlt : (row_ids.zip wr_words).length < 2048 := by
    have hlen := length_before_loop hpre.block hbody.block .nil (by decide) (by decide) h hx
    rw [hpre.listing, List.length_append, List.length_append, length_pair_table] at hlen
    omega
  obtain ⟨b', es, hh, hJ⟩ : ∃ b1 es1, Halts (p.get_inst_seq.map (Board.isa signed other).act) 0 b (es1 ++ []) b1 ∧
      Writing bank (row_ids.zip wr_words) b.dram row_ids.length b1 es1 := by
    refine halts_on_board h hx hpre hbody spells_nil (by decide) (by decide) ?_ ?_ straight_nil signed other
      (List.length_pos_iff.2 hne) (Writing bank (row_ids.zip wr_words) b.dram) b ?_ ?_
    · simp [straight_pair_table]
    · simp [straight_load_words, straight_writes]
    · exact writing_start other (by omega) b
    · intro i b1 es1 hi hJ
      have hstep := writing_step other (by omega) hJ (3 - 2) rfl
      have hnum := hstep.num
      rw [hzip] at hlt hnum
      exact ⟨hstep, lt_counters signed other hstep.cnt hnum (by omega) (by omega)⟩
  rw [List.append_nil] at hh
  exact ⟨b', es, hh, hJ⟩

end DCT
