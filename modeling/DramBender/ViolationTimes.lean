import Mathlib
import DramBender.Agreement
import DramBender.RowRanges
import DramBender.Spacing
/-!
# The times of the programs that violate timings

`rowclone`, `multirow_act`, `frac` and `tWR_test` queue the commands whose
distance they vary. A queue issues its commands slot by slot (`time_all_queue`),
so that the distances are those asked for, up to the end of the last word.
-/

namespace DCT

open DRAMBender Machine
open DRAMBender.Board
open Program (Piece Block listing packed padding queued fills)
open Call (add_inst add_mininst pack_minprogram)
open ReservedReg

/-- Open two rows, one after the other: the first one is closed after `nT1`
slots, the second one opened `nT2` slots later. The type of the rows is missing in
the source, which takes their `logical_id`s. -/
def multirow_act (bank rowA rowB nT1 nT2 : CInt) : Option Program := do
  let ROW_A := Last
  let ROW_B := Last + 1
  let sleep3 ← sleep 3
  generate (
    [add_inst (SMC_LI bank BAR), add_inst (SMC_LI rowA ROW_A), add_inst (SMC_LI rowB ROW_B),
      add_inst (SMC_LI 8 CASR), ddr (SMC_PRE BAR 0 0), add_inst (SMC_LI 0 CAR), nops, nops] ++
    minprogram [add_mininst (SMC_ACT BAR 0 ROW_A 0) nT1.toInt, add_mininst (SMC_PRE BAR 0 0) nT2.toInt,
      add_mininst (SMC_ACT BAR 0 ROW_B 0) 24, add_mininst (SMC_PRE BAR 0 0) 0] ++
    sleep3)

/-- `rowclone` is `multirow_act` with a nominal tRAS. -/
theorem rowclone_eq (bank src_id dst_id nT1 : CInt) : rowclone bank src_id dst_id nT1 = multirow_act bank src_id dst_id 24 nT1 := rfl

/-- Calls that spell words are always a program. -/
theorem Spells.generates {cs : List Call} {ms : List Mnemonic} (h : Spells cs ms) : ∃ p, generate cs = some p := by
  obtain ⟨p', r, hp', -, -⟩ := Program.conclude_spec (Program.linkable_build h.block.made)
  exact ⟨p', hp'⟩

/-! ## Queued commands -/

/-- `add_mininst` of commands, each with the NOPs behind it. -/
def queue_calls (xs : List (Mini × Int)) : List Call := xs.map fun x => add_mininst x.1.encode x.2

/-- The words of a queue. -/
def queue_words (xs : List (Mini × Int)) : List Mnemonic := (packed ((queue_calls xs).flatMap queued)).map decode_inst

/-- The slots of a queue. -/
def queue_slots (xs : List (Mini × Int)) : Nat := (xs.map fun x => 1 + x.2.toNat).sum

/-- What a queue issues from slot `t` on. -/
def issue_queue (t : Nat) (b : Board) : List (Mini × Int) → Board × List Stamped
  | [] => (b, [])
  | (m, wait_after) :: xs =>
    let (b1, es) := b.issue (decode_ddr m.encode)
    let (b2, es') := issue_queue (t + (1 + wait_after.toNat)) b1 xs
    (b2, es.map (fun c => (t, c)) ++ es')

theorem issue_queue_cons (t : Nat) (b : Board) (x : Mini × Int) (xs : List (Mini × Int)) : issue_queue t b (x :: xs) =
    ((issue_queue (t + (1 + x.2.toNat)) (b.issue (decode_ddr x.1.encode)).1 xs).1,
      (b.issue (decode_ddr x.1.encode)).2.map (fun c => (t, c)) ++
        (issue_queue (t + (1 + x.2.toNat)) (b.issue (decode_ddr x.1.encode)).1 xs).2) := rfl

theorem queue_slots_cons (x : Mini × Int) (xs : List (Mini × Int)) : queue_slots (x :: xs) = 1 + x.2.toNat + queue_slots xs := by
  rw [queue_slots, List.map_cons, List.sum_cons]
  rfl

theorem queue_calls_fills (xs : List (Mini × Int)) : ∀ c ∈ queue_calls xs, fills c :=
  List.forall_mem_map.2 fun x _ => ⟨x.1, rfl⟩

theorem length_queued (xs : List (Mini × Int)) : ((queue_calls xs).flatMap queued).length = queue_slots xs := by
  induction xs with
  | nil => rfl
  | cons x xs ih =>
    rw [queue_slots_cons, ← ih, queue_calls, List.map_cons, List.flatMap_cons, List.length_append, queued, List.length_cons,
      List.length_replicate, queue_calls]
    omega

theorem spells_queue (xs : List (Mini × Int)) : Spells (minprogram (queue_calls xs)) (queue_words xs) := by
  have hfills := queue_calls_fills xs
  have hqueue : Program.queue_after [] (queue_calls xs) = (queue_calls xs).flatMap queued := by
    rw [← Program.build_minprogram, Program.build, Program.foldl_fills hfills]
    rfl
  refine ⟨Program.block_pack hfills, ?_⟩
  rw [minprogram, Program.listing_pack hfills, hqueue, queue_words]

theorem straight_queue_words (xs : List (Mini × Int)) : Straight (queue_words xs) := by
  refine List.forall_mem_map.2 fun w hw => ?_
  have hddr := Program.is_ddr_packed (Program.queued_msb (queue_calls_fills xs)) w hw
  unfold decode_inst
  rw [hddr]
  rfl

theorem length_queue_words (xs : List (Mini × Int)) : (queue_words xs).length = (queue_slots xs + 3) / 4 := by
  rw [queue_words, List.length_map, Program.length_packed _ (Program.queued_msb (queue_calls_fills xs)), length_queued]

theorem map_decode_nops (n : Nat) : (List.replicate n SMC_NOP).map decode_ddr = List.replicate n (.NOP false) := by
  rw [List.map_replicate]
  rfl

/-- The slots of a queue, and the NOPs behind it. -/
theorem issue_slots_queued (xs : List (Mini × Int)) (n t : Nat) (b : Board) :
    b.issue_slots t (((queue_calls xs).flatMap queued ++ List.replicate n SMC_NOP).map decode_ddr) = issue_queue t b xs := by
  induction xs generalizing t b with
  | nil =>
    have h := issue_slots_nops n [] t b
    rw [List.append_nil] at h
    change b.issue_slots t ((List.replicate n SMC_NOP).map decode_ddr) = (b, [])
    rw [map_decode_nops, h]
    rfl
  | cons x xs ih =>
    have hqueue : (queue_calls (x :: xs)).flatMap queued ++ List.replicate n SMC_NOP =
        x.1.encode :: (List.replicate x.2.toNat SMC_NOP ++ ((queue_calls xs).flatMap queued ++ List.replicate n SMC_NOP)) := by
      rw [queue_calls, List.map_cons, List.flatMap_cons, queued, List.cons_append, List.cons_append, List.append_assoc]
      rfl
    have hslot : t + 1 + x.2.toNat = t + (1 + x.2.toNat) := by omega
    rw [hqueue, List.map_cons, List.map_append, map_decode_nops, issue_slots_cons, issue_slots_nops, ih, hslot,
      issue_queue_cons]

/-- The words of a queue issue its commands, each at its slot. -/
theorem time_all_queue (other : Mnemonic → Board → Board × List Cmd) (xs : List (Mini × Int)) (b : Board) (t : Nat) :
    time_all other (queue_words xs) (b, t) =
      (((issue_queue (4 * t) b xs).1, t + (queue_slots xs + 3) / 4), (issue_queue (4 * t) b xs).2) := by
  have hmsb := Program.queued_msb (queue_calls_fills xs)
  have hlen := length_queue_words xs
  rw [queue_words, List.length_map] at hlen
  rw [queue_words, time_all_packed other hmsb, padding, issue_slots_queued, hlen]

theorem issue_queue_append (xs ys : List (Mini × Int)) (t : Nat) (b : Board) : issue_queue t b (xs ++ ys) =
    ((issue_queue (t + queue_slots xs) (issue_queue t b xs).1 ys).1,
      (issue_queue t b xs).2 ++ (issue_queue (t + queue_slots xs) (issue_queue t b xs).1 ys).2) := by
  induction xs generalizing t b with
  | nil => rfl
  | cons x xs ih =>
    have hslot : t + (1 + x.2.toNat) + queue_slots xs = t + queue_slots (x :: xs) := by
      rw [queue_slots_cons]
      omega
    rw [List.cons_append, issue_queue_cons, ih, hslot, issue_queue_cons, List.append_assoc]

/-! ## Straight words on the clock -/

section
variable (other : Mnemonic → Board → Board × List Cmd)

/-- The cycles of straight words do not depend on the board. -/
theorem time_all_clock (ms : List Mnemonic) (b : Board) (t : Nat) :
    (time_all other ms (b, t)).1.2 = t + (ms.map cycles).sum := by
  induction ms generalizing b t with
  | nil => rfl
  | cons m ms ih =>
    have hword : (timed_exec other m (b, t)).1.2 = t + cycles m := by cases m <;> rfl
    have hrest := ih (timed_exec other m (b, t)).1.1 (timed_exec other m (b, t)).1.2
    rw [time_all_cons, List.map_cons, List.sum_cons]
    change (time_all other ms (timed_exec other m (b, t)).1).1.2 = t + (cycles m + (ms.map cycles).sum)
    rw [hrest, hword, Nat.add_assoc]

/-- Words that issue nothing. -/
theorem time_all_quiet {ms : List Mnemonic} {b b' : Board} (h : exec_all other ms b = (b', [])) (t : Nat) :
    time_all other ms (b, t) = ((b', t + (ms.map cycles).sum), []) := by
  have hclock := time_all_clock other ms b t
  rw [time_all_project other ms b t, Prod.mk.injEq, List.map_eq_nil_iff] at h
  exact Prod.ext (Prod.ext h.1 hclock) h.2

/-- One command every other cycle, from cycle `t` on. -/
def every_other (t : Nat) (cs : List Cmd) : List Stamped := cs.mapIdx fun i c => (4 * (t + 2 * i), c)

theorem every_other_concat (t : Nat) (cs : List Cmd) (c : Cmd) :
    every_other t (cs ++ [c]) = every_other t cs ++ [(4 * (t + 2 * cs.length), c)] := List.mapIdx_concat

theorem map_snd_every_other (t : Nat) (cs : List Cmd) : (every_other t cs).map Prod.snd = cs := by
  apply List.ext_getElem?
  intro i
  rw [every_other, List.getElem?_map, List.getElem?_mapIdx, Option.map_map]
  exact Option.map_id'

/-- A command and a word of NOPs, over and over. -/
theorem time_all_every_other {d : Ddr} (hd : ∀ b : Board, ∃ c, (b.issue d).2 = [c]) (k : Nat) (b : Board) (t : Nat) :
    let ms := (List.range k).flatMap fun _ => [only d, NOPS]
    (exec_all other ms b).2.length = k ∧
      time_all other ms (b, t) = (((exec_all other ms b).1, t + 2 * k), every_other t (exec_all other ms b).2) := by
  induction k with
  | zero => exact ⟨rfl, rfl⟩
  | succ k ih =>
    obtain ⟨hlen, htime⟩ := ih
    obtain ⟨c, hc⟩ := hd (exec_all other ((List.range k).flatMap fun _ => [only d, NOPS]) b).1
    have hpass : ∀ b : Board, exec_all other [only d, NOPS] b = b.issue d := by
      intro b
      rw [exec_all_only, exec_all_NOPS, exec_all_nil, List.append_nil]
    have hslots : ∀ (b : Board) (t : Nat), time_all other [only d, NOPS] (b, t) =
        (((b.issue d).1, t + 2), (b.issue d).2.map fun c => (4 * t, c)) := by
      intro b t
      refine Prod.ext rfl ?_
      change ((b.issue d).2.map (fun c => (4 * t, c)) ++ ([] ++ ([] ++ ([] ++ [])))) ++ ([] ++ []) = _
      simp
    dsimp only at hlen htime ⊢
    rw [List.range_succ, List.flatMap_append, List.flatMap_singleton, exec_all_append, time_all_append, htime, hslots, hpass, hc]
    refine ⟨by rw [List.length_append, hlen]; rfl, ?_⟩
    rw [every_other_concat, hlen]
    exact Prod.ext (Prod.ext rfl (by change t + 2 * k + 2 = t + 2 * (k + 1); omega)) rfl

end

/-! ## A row written and a row read -/

/-- The wide data register with a pattern. -/
def line_of (wr_pattern : WritePattern_t) : Line := fun i => wr_pattern i.toFin

/-- What the programs that write one row begin with. -/
def write_row_words (bank row_id : CInt) (wr_pattern : WritePattern_t) : List Mnemonic :=
  [.LI 4#4 bank, .LI 5#4 row_id, .LI 0#4 8#32] ++ pattern_words wr_pattern ++
    [only (.PRE 4 false false false), .LI 3#4 0#32, NOPS, NOPS, only (.ACT 4 false 5 false false), NOPS, NOPS] ++ writes 128

theorem spells_write_row (bank row_id : CInt) (wr_pattern : WritePattern_t) :
    Spells ([add_inst (SMC_LI bank BAR), add_inst (SMC_LI row_id RAR), add_inst (SMC_LI 8 CASR)] ++ load_pattern wr_pattern ++
      [ddr (SMC_PRE BAR 0 0), add_inst (SMC_LI 0 CAR), nops, nops, ddr (SMC_ACT BAR 0 RAR 0), nops, nops] ++ write_columns)
      (write_row_words bank row_id wr_pattern) :=
  (((spells_pieces _ (by simp) (by simp)).append (spells_load_pattern wr_pattern)).append
    (spells_pieces _ (by simp) (by simp))).append spells_write_columns

theorem straight_write_row (bank row_id : CInt) (wr_pattern : WritePattern_t) : Straight (write_row_words bank row_id wr_pattern) := by
  simp [write_row_words, straight_pattern_words, straight_writes]

/-- The registers of a program for one row, and the row it has open. -/
structure OneRow (bank row_id : CInt) (b : Board) : Prop where
  bar : b.regs 4#4 = bank
  rar : b.regs 5#4 = row_id
  stride : b.regs 0#4 = 8#32
  row : b.row (false, bank) = row_id

section
variable {bank row_id : CInt} (other : Mnemonic → Board → Board × List Cmd)

theorem OneRow.of_frame {b b' : Board} (h : OneRow bank row_id b) (rts : List Reg) (hf : Frame rts b b') (h4 : 4#4 ∉ rts)
    (h5 : 5#4 ∉ rts) (h0 : 0#4 ∉ rts) (hrow : b'.row (false, bank) = b.row (false, bank)) : OneRow bank row_id b' :=
  ⟨(hf _ h4).trans h.bar, (hf _ h5).trans h.rar, (hf _ h0).trans h.stride, hrow.trans h.row⟩

theorem cycles_pattern_words (wr_pattern : WritePattern_t) : ((pattern_words wr_pattern).map cycles).sum = 32 := by
  have hones : (pattern_words wr_pattern).map cycles = List.replicate 32 1 := by
    rw [pattern_words, List.map_flatMap]
    rfl
  rw [hones]
  rfl

theorem time_all_pattern (wr_pattern : WritePattern_t) (b : Board) (t : Nat) :
    ∃ b', time_all other (pattern_words wr_pattern) (b, t) = ((b', t + 32), []) ∧ Frame [6#4] b b' ∧
      b'.wide = line_of wr_pattern ∧ b'.dram = b.dram := by
  obtain ⟨hregs, hwide, hdram, hes⟩ := exec_load_pattern other wr_pattern b
  have htime := time_all_quiet other (Prod.ext rfl hes) t
  rw [cycles_pattern_words] at htime
  exact ⟨_, htime, hregs, hwide, hdram⟩

/-- The WRITEs of a row, one every other cycle. -/
theorem time_all_writes {b : Board} (h : OneRow bank row_id b) (t : Nat) :
    ∃ b', time_all other (writes 128) (b, t) = ((b', t + 256),
        every_other t ((columns (b.regs 3#4) 128).map fun col => .WR (false, bank) col false b.wide)) ∧
      OneRow bank row_id b' ∧ b'.dram = put_row (false, bank) (columns (b.regs 3#4) 128) b.dram row_id b.wide := by
  obtain ⟨-, htime⟩ := time_all_every_other other (d := .WR 4 false 3 true false false) (fun b => ⟨_, rfl⟩) 128 b t
  obtain ⟨hregs, hw, hes⟩ := exec_write_columns other b h.stride 128
  rw [← writes] at htime
  generalize exec_all other (writes 128) b = r at htime hregs hw hes
  obtain ⟨b', es⟩ := r
  have hdram := hw.dram
  rw [h.bar, h.row] at hdram
  rw [h.bar] at hes
  rw [hes] at htime
  refine ⟨b', htime, h.of_frame [3#4] (fun rt hrt => ?_) (by decide) (by decide) (by decide) (congrFun hw.row _), hdram⟩
  rw [hregs, Function.update_of_ne (by simpa using hrt)]

/-- The READs of the row, one every other cycle. -/
theorem time_all_reads {b : Board} (h : OneRow bank row_id b) (t : Nat) :
    ∃ b', time_all other (reads 128) (b, t) = ((b', t + 256),
        every_other t ((columns (b.regs 3#4) 128).map fun col =>
          .RD (false, bank) col false (b.dram (false, bank) row_id col))) ∧
      OneRow bank row_id b' ∧ b'.dram = b.dram := by
  have hexec := exec_read_columns other b h.stride 128
  obtain ⟨-, htime⟩ := time_all_every_other other (d := .RD 4 false 3 true false false) (fun b => ⟨_, rfl⟩) 128 b t
  rw [← reads, hexec, h.bar, h.row] at htime
  refine ⟨_, htime, h.of_frame [3#4] ((Frame.of_regs rfl).set_reg (by simp) _) (by decide) (by decide) (by decide) rfl, rfl⟩

/-- Close the bank and open the row in RAR. -/
theorem time_all_open_row {b : Board} (hbar : b.regs 4#4 = bank) (hrar : b.regs 5#4 = row_id) (hstride : b.regs 0#4 = 8#32) (t : Nat) :
    ∃ b', time_all other [only (.PRE 4 false false false), .LI 3#4 0#32, NOPS, NOPS, only (.ACT 4 false 5 false false), NOPS, NOPS]
        (b, t) = ((b', t + 7), [(4 * t, .PRE (false, bank)), (4 * (t + 4), .ACT (false, bank) row_id)]) ∧
      OneRow bank row_id b' ∧ b'.regs 3#4 = 0#32 ∧ b'.wide = b.wide ∧ b'.dram = b.dram := by
  have h4 : (b.set_reg 3#4 0#32).regs 4#4 = bank := by simp [hbar]
  have h5 : (b.set_reg 3#4 0#32).regs 5#4 = row_id := by simp [hrar]
  have htime : time_all other [only (.PRE 4 false false false), .LI 3#4 0#32, NOPS, NOPS, only (.ACT 4 false 5 false false), NOPS, NOPS]
      (b, t) = (({ b.set_reg 3#4 0#32 with
        row := Function.update b.row (false, (b.set_reg 3#4 0#32).regs 4#4) ((b.set_reg 3#4 0#32).regs 5#4) }, t + 7),
        [(4 * t, .PRE (false, b.regs 4#4)),
          (4 * (t + 4), .ACT (false, (b.set_reg 3#4 0#32).regs 4#4) ((b.set_reg 3#4 0#32).regs 5#4))]) := rfl
  rw [htime, hbar, h4, h5]
  exact ⟨_, rfl, ⟨h4, h5, by simp [hstride], Function.update_self ..⟩, by simp, rfl, rfl⟩

/-- The row is opened in cycle 39 and written from cycle 42 on. -/
theorem time_all_write_row (bank row_id : CInt) (wr_pattern : WritePattern_t) (b : Board) (t : Nat) :
    ∃ b', time_all other (write_row_words bank row_id wr_pattern) (b, t) = ((b', t + 298),
        (4 * (t + 35), .PRE (false, bank)) :: (4 * (t + 39), .ACT (false, bank) row_id) ::
          every_other (t + 42) ((columns 0 128).map fun col => .WR (false, bank) col false (line_of wr_pattern))) ∧
      OneRow bank row_id b' ∧ b'.dram = put_row (false, bank) (columns 0 128) b.dram row_id (line_of wr_pattern) := by
  have hload : time_all other [.LI 4#4 bank, .LI 5#4 row_id, .LI 0#4 8#32] (b, t) =
      ((((b.set_reg 4#4 bank).set_reg 5#4 row_id).set_reg 0#4 8#32, t + 3), []) := rfl
  obtain ⟨b1, h1, hregs1, hwide1, hdram1⟩ := time_all_pattern other wr_pattern
    (((b.set_reg 4#4 bank).set_reg 5#4 row_id).set_reg 0#4 8#32) (t + 3)
  have hbar : b1.regs 4#4 = bank := by simp [hregs1 4#4 (by decide)]
  have hrar : b1.regs 5#4 = row_id := by simp [hregs1 5#4 (by decide)]
  have hstride : b1.regs 0#4 = 8#32 := by simp [hregs1 0#4 (by decide)]
  obtain ⟨b2, h2, hone2, hcar2, hwide2, hdram2⟩ := time_all_open_row other hbar hrar hstride (t + 35)
  obtain ⟨b3, h3, hone3, hdram3⟩ := time_all_writes other hone2 (t + 42)
  rw [hcar2, hwide2, hwide1] at h3 hdram3
  rw [hdram2, hdram1] at hdram3
  refine ⟨b3, ?_, hone3, hdram3⟩
  rw [write_row_words, time_all_append, time_all_append, time_all_append, hload, h1, h2, h3]
  simp only [List.nil_append, List.cons_append, Nat.add_assoc, Nat.reduceAdd, BitVec.ofNat_eq_ofNat]

end

/-! ## `rowclone` and `multirow_act` -/

/-- Two rows opened one after the other, from slot `t` on. The second one stays
open for a nominal tRAS. -/
def two_openings (bank : Bank) (rowA rowB : CInt) (nT1 nT2 t : Nat) : List Stamped :=
  [(t, .ACT bank rowA), (t + (1 + nT1), .PRE bank), (t + (2 + nT1 + nT2), .ACT bank rowB), (t + (27 + nT1 + nT2), .PRE bank)]

/-- The queue of `multirow_act`. -/
def two_openings_queue (nT1 nT2 : Int) : List (Mini × Int) :=
  [(.ACT BAR 0 Last 0 0, nT1), (.PRE BAR 0 0 0, nT2), (.ACT BAR 0 (Last + 1) 0 0, 24), (.PRE BAR 0 0 0, 0)]

theorem issue_two_openings (bank rowA rowB : CInt) {b : Board} (hbar : b.regs 4#4 = bank) (hA : b.regs 7#4 = rowA)
    (hB : b.regs 8#4 = rowB) (nT1 nT2 : Int) (t : Nat) : ∃ b', issue_queue t b (two_openings_queue nT1 nT2) =
      (b', two_openings (false, bank) rowA rowB nT1.toNat nT2.toNat t) ∧ b'.dram = b.dram := by
  have hactA : decode_ddr (Mini.ACT BAR 0 Last 0 0).encode = .ACT 4 false 7 false false := by decide
  have hactB : decode_ddr (Mini.ACT BAR 0 (Last + 1) 0 0).encode = .ACT 4 false 8 false false := by decide
  have hpre : decode_ddr (Mini.PRE BAR 0 0 0).encode = .PRE 4 false false false := by decide
  obtain ⟨b', hissue, hdram⟩ : ∃ b', issue_queue t b (two_openings_queue nT1 nT2) = (b', [(t, .ACT (false, b.regs 4#4) (b.regs 7#4)),
      (t + (1 + nT1.toNat), .PRE (false, b.regs 4#4)),
      (t + (1 + nT1.toNat) + (1 + nT2.toNat), .ACT (false, b.regs 4#4) (b.regs 8#4)),
      (t + (1 + nT1.toNat) + (1 + nT2.toNat) + (1 + 24), .PRE (false, b.regs 4#4))]) ∧ b'.dram = b.dram := by
    rw [two_openings_queue, issue_queue_cons, issue_queue_cons, issue_queue_cons, issue_queue_cons, hactA, hactB, hpre]
    exact ⟨_, rfl, rfl⟩
  have hact : t + (1 + nT1.toNat) + (1 + nT2.toNat) = t + (2 + nT1.toNat + nT2.toNat) := by omega
  have hpre2 : t + (2 + nT1.toNat + nT2.toNat) + (1 + 24) = t + (27 + nT1.toNat + nT2.toNat) := by omega
  rw [hact, hpre2, hbar, hA, hB] at hissue
  exact ⟨b', hissue, hdram⟩

theorem spells_multirow_act (bank rowA rowB nT1 nT2 : CInt) {sleep3 : List Call} (hs3 : sleep 3 = some sleep3) :
    Spells ([add_inst (SMC_LI bank BAR), add_inst (SMC_LI rowA Last), add_inst (SMC_LI rowB (Last + 1)),
        add_inst (SMC_LI 8 CASR), ddr (SMC_PRE BAR 0 0), add_inst (SMC_LI 0 CAR), nops, nops] ++
      minprogram (queue_calls (two_openings_queue nT1.toInt nT2.toInt)) ++ sleep3)
      ([.LI 4#4 bank, .LI 7#4 rowA, .LI 8#4 rowB, .LI 0#4 8#32, only (.PRE 4 false false false), .LI 3#4 0#32, NOPS, NOPS] ++
        queue_words (two_openings_queue nT1.toInt nT2.toInt) ++ [.SLEEP (3 - 2)]) :=
  ((spells_pieces _ (by simp) (by simp)).append (spells_queue _)).append (spells_sleep hs3)

/-- A run of `multirow_act` opens the two rows with the distances asked for. -/
theorem multirow_act_run {bank rowA rowB nT1 nT2 : CInt} {p : Program} (h : multirow_act bank rowA rowB nT1 nT2 = some p)
    (signed : Bool) (other : Mnemonic → Board → Board × List Cmd) (b : Board) (t : Nat) :
    ∃ b' t', Halts (p.get_inst_seq.map (timed signed other).act) 0 (b, t)
      ((4 * (t + 4), .PRE (false, bank)) ::
        two_openings (false, bank) rowA rowB nT1.toInt.toNat nT2.toInt.toNat (4 * (t + 8))) (b', t') ∧ b'.dram = b.dram := by
  unfold multirow_act at h
  obtain ⟨sleep3, hs3, h⟩ := Option.bind_eq_some_iff.1 h
  have hspells := spells_multirow_act bank rowA rowB nT1 nT2 hs3
  have hstraight : Straight ([.LI 4#4 bank, .LI 7#4 rowA, .LI 8#4 rowB, .LI 0#4 8#32, only (.PRE 4 false false false),
      .LI 3#4 0#32, NOPS, NOPS] ++ queue_words (two_openings_queue nT1.toInt nT2.toInt) ++ [.SLEEP (3 - 2)]) := by
    simp [straight_queue_words]
  have hh := halts_block (timed signed other) h hspells hstraight (b, t)
  have heffect : ∀ (ms : List Mnemonic) s, effects (ms.map (timed signed other).exec) s = time_all other ms s := fun _ _ => rfl
  have hload : time_all other [.LI 4#4 bank, .LI 7#4 rowA, .LI 8#4 rowB, .LI 0#4 8#32, only (.PRE 4 false false false),
      .LI 3#4 0#32, NOPS, NOPS] (b, t) = ((((((b.set_reg 4#4 bank).set_reg 7#4 rowA).set_reg 8#4 rowB).set_reg 0#4 8#32).set_reg
        3#4 0#32, t + 8), [(4 * (t + 4), .PRE (false,
          ((((b.set_reg 4#4 bank).set_reg 7#4 rowA).set_reg 8#4 rowB).set_reg 0#4 8#32).regs 4#4))]) := rfl
  obtain ⟨b', hqueue, hdram⟩ := issue_two_openings bank rowA rowB
    (b := ((((b.set_reg 4#4 bank).set_reg 7#4 rowA).set_reg 8#4 rowB).set_reg 0#4 8#32).set_reg 3#4 0#32) (by simp) (by simp) (by simp)
    nT1.toInt nT2.toInt (4 * (t + 8))
  have hbar : ((((b.set_reg 4#4 bank).set_reg 7#4 rowA).set_reg 8#4 rowB).set_reg 0#4 8#32).regs 4#4 = bank := by simp
  rw [heffect, time_all_append, time_all_append, hload, time_all_queue, hqueue, hbar, time_all_SLEEP, time_all_nil,
    List.append_nil] at hh
  exact ⟨_, _, hh, hdram⟩

/-! ## `frac` -/

/-- `n` openings of a row, each closed after `Tfrac1` slots, `Tfrac2` slots apart. -/
def frac_openings (bank : Bank) (row_id : CInt) (Tfrac1 Tfrac2 n t : Nat) : List Stamped :=
  (List.range n).flatMap fun i => [(t + (2 + Tfrac1 + Tfrac2) * i, .ACT bank row_id),
    (t + (2 + Tfrac1 + Tfrac2) * i + (1 + Tfrac1), .PRE bank)]

def frac_queue (Tfrac1 Tfrac2 : Int) (n : Nat) : List (Mini × Int) :=
  (List.range n).flatMap fun _ => [(.ACT BAR 0 RAR 0 0, Tfrac1), (.PRE BAR 0 0 0, Tfrac2)]

theorem frac_queue_succ (Tfrac1 Tfrac2 : Int) (n : Nat) : frac_queue Tfrac1 Tfrac2 (n + 1) =
    frac_queue Tfrac1 Tfrac2 n ++ [(.ACT BAR 0 RAR 0 0, Tfrac1), (.PRE BAR 0 0 0, Tfrac2)] := by
  rw [frac_queue, List.range_succ, List.flatMap_append]
  rfl

theorem queue_slots_append (xs ys : List (Mini × Int)) : queue_slots (xs ++ ys) = queue_slots xs + queue_slots ys := by
  rw [queue_slots, List.map_append, List.sum_append]
  rfl

theorem queue_slots_frac (Tfrac1 Tfrac2 : Int) (n : Nat) :
    queue_slots (frac_queue Tfrac1 Tfrac2 n) = (2 + Tfrac1.toNat + Tfrac2.toNat) * n := by
  induction n with
  | zero => rfl
  | succ n ih =>
    rw [frac_queue_succ, queue_slots_append, ih, queue_slots_cons, queue_slots_cons, Nat.mul_succ]
    change _ + (1 + Tfrac1.toNat + (1 + Tfrac2.toNat + 0)) = _
    omega

theorem issue_frac {bank row_id : CInt} {b : Board} (h : OneRow bank row_id b) (Tfrac1 Tfrac2 : Int) (n t : Nat) :
    ∃ b', issue_queue t b (frac_queue Tfrac1 Tfrac2 n) =
        (b', frac_openings (false, bank) row_id Tfrac1.toNat Tfrac2.toNat n t) ∧
      OneRow bank row_id b' ∧ b'.dram = b.dram := by
  induction n with
  | zero => exact ⟨b, rfl, h, rfl⟩
  | succ n ih =>
    obtain ⟨b1, h1, hone, hdram⟩ := ih
    have hact : decode_ddr (Mini.ACT BAR 0 RAR 0 0).encode = .ACT 4 false 5 false false := by decide
    have hpre : decode_ddr (Mini.PRE BAR 0 0 0).encode = .PRE 4 false false false := by decide
    obtain ⟨b2, h2, hrow, hregs, hdram2⟩ : ∃ b2, issue_queue (t + (2 + Tfrac1.toNat + Tfrac2.toNat) * n) b1
        [(.ACT BAR 0 RAR 0 0, Tfrac1), (.PRE BAR 0 0 0, Tfrac2)] = (b2,
          [(t + (2 + Tfrac1.toNat + Tfrac2.toNat) * n, .ACT (false, b1.regs 4#4) (b1.regs 5#4)),
            (t + (2 + Tfrac1.toNat + Tfrac2.toNat) * n + (1 + Tfrac1.toNat), .PRE (false, b1.regs 4#4))]) ∧
        b2.row (false, b1.regs 4#4) = b1.regs 5#4 ∧ b2.regs = b1.regs ∧ b2.dram = b1.dram := by
      rw [issue_queue_cons, issue_queue_cons, hact, hpre]
      exact ⟨_, rfl, Function.update_self .., rfl, rfl⟩
    rw [hone.bar, hone.rar] at h2 hrow
    refine ⟨b2, ?_, ⟨?_, ?_, ?_, hrow⟩, hdram2.trans hdram⟩
    · rw [frac_queue_succ, issue_queue_append, h1, queue_slots_frac, h2, frac_openings, frac_openings, List.range_succ,
        List.flatMap_append, List.flatMap_singleton]
    · rw [hregs, hone.bar]
    · rw [hregs, hone.rar]
    · rw [hregs, hone.stride]

theorem time_all_pauses (other : Mnemonic → Board → Board × List Cmd) (k : Nat) (b : Board) (t : Nat) :
    time_all other (List.replicate k NOPS) (b, t) = ((b, t + k), []) := by
  induction k generalizing t with
  | zero => rfl
  | succ k ih => rw [List.replicate_succ, time_all_NOPS, ih, Nat.add_right_comm, Nat.add_assoc]

/-- Open the row again and read it. -/
def read_back_words (k : Nat) : List Mnemonic :=
  [only (.ACT 4 false 5 false false), .LI 3#4 0#32] ++ List.replicate k NOPS ++ reads 128 ++ [.SLEEP (4 - 2)] ++
    [only (.PRE 4 false false false)] ++ [.SLEEP (3 - 2)]

theorem straight_read_back (k : Nat) : Straight (read_back_words k) := by
  have hpauses : Straight (List.replicate k NOPS) := fun m hm => by
    rw [List.eq_of_mem_replicate hm]
    rfl
  simp [read_back_words, hpauses, straight_reads]

theorem spells_pauses (k : Nat) : Spells (List.replicate k nops) (List.replicate k NOPS) := by
  induction k with
  | zero => exact spells_nil
  | succ k ih =>
    have hnops : Spells [nops] [NOPS] := spells_pieces _ (by simp) (by simp)
    exact hnops.append ih

theorem Spells.read_back {cs : List Call} {ms : List Mnemonic} (h : Spells cs ms) (k : Nat) {sleep4 sleep3 : List Call}
    (hs4 : sleep 4 = some sleep4) (hs3 : sleep 3 = some sleep3) :
    Spells (cs ++ ([ddr (SMC_ACT BAR 0 RAR 0), add_inst (SMC_LI 0 CAR)] ++ List.replicate k nops) ++ read_columns ++ sleep4 ++
      [ddr (SMC_PRE BAR 0 0)] ++ sleep3) (ms ++ read_back_words k) := by
  have hopen : Spells [ddr (SMC_ACT BAR 0 RAR 0), add_inst (SMC_LI 0 CAR)] [only (.ACT 4 false 5 false false), .LI 3#4 0#32] :=
    spells_pieces _ (by simp) (by simp)
  have hpre : Spells [ddr (SMC_PRE BAR 0 0)] [only (.PRE 4 false false false)] := spells_pieces _ (by simp) (by simp)
  have hread := ((((h.append (hopen.append (spells_pauses k))).append spells_read_columns).append (spells_sleep hs4)).append
    hpre).append (spells_sleep hs3)
  have hwords : ms ++ read_back_words k = ms ++ ([only (.ACT 4 false 5 false false), .LI 3#4 0#32] ++ List.replicate k NOPS) ++
      reads 128 ++ [.SLEEP (4 - 2)] ++ [only (.PRE 4 false false false)] ++ [.SLEEP (3 - 2)] := by
    simp only [read_back_words, List.append_assoc]
  rw [hwords]
  exact hread

/-- The row is read from `2 + k` cycles after its ACT on. -/
theorem time_all_read_back {bank row_id : CInt} (other : Mnemonic → Board → Board × List Cmd) {b : Board}
    (h : OneRow bank row_id b) (k t : Nat) :
    ∃ b' t', time_all other (read_back_words k) (b, t) = ((b', t'), (4 * t, .ACT (false, bank) row_id) ::
        (every_other (t + 2 + k) ((columns 0 128).map fun col =>
          .RD (false, bank) col false (b.dram (false, bank) row_id col)) ++
        [(4 * (t + 2 + k + 260), .PRE (false, bank))])) ∧ b'.dram = b.dram := by
  obtain ⟨b1, hopen, hone, hcar, hdram1⟩ : ∃ b1, time_all other [only (.ACT 4 false 5 false false), .LI 3#4 0#32] (b, t) =
      ((b1, t + 2), [(4 * t, .ACT (false, b.regs 4#4) (b.regs 5#4))]) ∧ OneRow bank row_id b1 ∧ b1.regs 3#4 = 0#32 ∧
      b1.dram = b.dram :=
    ⟨{ b.set_reg 3#4 0#32 with row := Function.update b.row (false, b.regs 4#4) (b.regs 5#4) }, rfl,
      ⟨by simp [h.bar], by simp [h.rar], by simp [h.stride], by simp [h.bar, h.rar]⟩, by simp, rfl⟩
  obtain ⟨b2, h2, hone2, hdram2⟩ := time_all_reads other hone (t + 2 + k)
  have hclose : time_all other ([.SLEEP (4 - 2)] ++ [only (.PRE 4 false false false)] ++ [.SLEEP (3 - 2)]) (b2, t + 2 + k + 256) =
      ((b2, t + 2 + k + 256 + 4 + 1 + 3), [(4 * (t + 2 + k + 256 + 4), .PRE (false, b2.regs 4#4))]) := rfl
  rw [h.bar, h.rar] at hopen
  rw [hcar, hdram1] at h2
  rw [hone2.bar] at hclose
  have hwords : read_back_words k = [only (.ACT 4 false 5 false false), .LI 3#4 0#32] ++ List.replicate k NOPS ++ reads 128 ++
      ([.SLEEP (4 - 2)] ++ [only (.PRE 4 false false false)] ++ [.SLEEP (3 - 2)]) := by
    simp only [read_back_words, List.append_assoc]
  have hread : time_all other ([only (.ACT 4 false 5 false false), .LI 3#4 0#32] ++ List.replicate k NOPS ++ reads 128) (b, t) =
      ((b2, t + 2 + k + 256), (4 * t, .ACT (false, bank) row_id) :: every_other (t + 2 + k) ((columns 0#32 128).map fun col =>
        .RD (false, bank) col false (b.dram (false, bank) row_id col))) := by
    rw [time_all_append, time_all_append, hopen, time_all_pauses, h2]
    simp only [List.append_nil, List.cons_append, List.nil_append]
  refine ⟨b2, t + 2 + k + 256 + 4 + 1 + 3, ?_, hdram2.trans hdram1⟩
  rw [hwords, time_all_append, hread, hclose]
  simp only [List.cons_append, BitVec.ofNat_eq_ofNat, Nat.add_assoc, Nat.reduceAdd]

/-- What was written is read. -/
theorem reads_put_row (bank : Bank) (cols : List CInt) (cells : Bank → CInt → CInt → Line) (row_id : CInt) (line : Line) :
    (cols.map fun col => Cmd.RD bank col false (put_row bank cols cells row_id line bank row_id col)) =
      cols.map fun col => .RD bank col false line := by
  refine List.map_congr_left fun col hcol => ?_
  rw [put_row, if_pos ⟨rfl, rfl, hcol⟩]

/-- The words of `frac`. -/
def frac_words (bank row_id : CInt) (wr_word : WriteWord_t) (Tfrac1 Tfrac2 : Int) (n : Nat) : List Mnemonic :=
  write_row_words bank row_id (fun _ => wr_word) ++ ([.SLEEP (4 - 2), only (.PRE 4 false false false), NOPS, NOPS] ++
    (queue_words (frac_queue Tfrac1 Tfrac2 n) ++ read_back_words 2))

theorem queue_calls_frac (Tfrac1 Tfrac2 : Int) (n : Nat) : queue_calls (frac_queue Tfrac1 Tfrac2 n) =
    (List.range n).flatMap fun _ => [add_mininst (SMC_ACT BAR 0 RAR 0) Tfrac1, add_mininst (SMC_PRE BAR 0 0) Tfrac2] := by
  rw [queue_calls, frac_queue, List.map_flatMap]
  rfl

/-- What `frac` issues: the row is written, opened and closed `n` times with the
distances asked for, and read. -/
def frac_trace (bank : Bank) (row_id : CInt) (line : Line) (Tfrac1 Tfrac2 n t : Nat) : List Stamped :=
  (4 * (t + 35), .PRE bank) :: (4 * (t + 39), .ACT bank row_id) ::
    (every_other (t + 42) ((columns 0 128).map fun col => .WR bank col false line) ++
      ((4 * (t + 302), .PRE bank) :: (frac_openings bank row_id Tfrac1 Tfrac2 n (4 * (t + 305)) ++
        let P := ((2 + Tfrac1 + Tfrac2) * n + 3) / 4
        ((4 * (t + 305 + P), .ACT bank row_id) ::
          (every_other (t + 309 + P) ((columns 0 128).map fun col => .RD bank col false line) ++
            [(4 * (t + 569 + P), .PRE bank)])))))

theorem spells_frac (bank row_id : CInt) (wr_word : WriteWord_t) (Tfrac1 Tfrac2 : Int) (n : Nat) {sleep4 sleep3 : List Call}
    (hs4 : sleep 4 = some sleep4) (hs3 : sleep 3 = some sleep3) :
    Spells ([add_inst (SMC_LI bank BAR), add_inst (SMC_LI row_id RAR), add_inst (SMC_LI 8 CASR)] ++
      load_pattern (fun _ => wr_word) ++
      [ddr (SMC_PRE BAR 0 0), add_inst (SMC_LI 0 CAR), nops, nops, ddr (SMC_ACT BAR 0 RAR 0), nops, nops] ++
      write_columns ++ sleep4 ++ [ddr (SMC_PRE BAR 0 0), nops, nops] ++ minprogram (queue_calls (frac_queue Tfrac1 Tfrac2 n)) ++
      [ddr (SMC_ACT BAR 0 RAR 0), add_inst (SMC_LI 0 CAR), nops, nops] ++
      read_columns ++ sleep4 ++ [ddr (SMC_PRE BAR 0 0)] ++ sleep3) (frac_words bank row_id wr_word Tfrac1 Tfrac2 n) := by
  have hclose : Spells [ddr (SMC_PRE BAR 0 0), nops, nops] [only (.PRE 4 false false false), NOPS, NOPS] :=
    spells_pieces _ (by simp) (by simp)
  have hfill := (((spells_write_row bank row_id fun _ => wr_word).append (spells_sleep hs4)).append
    hclose).append (spells_queue (frac_queue Tfrac1 Tfrac2 n))
  have hwords : frac_words bank row_id wr_word Tfrac1 Tfrac2 n = write_row_words bank row_id (fun _ => wr_word) ++
      [.SLEEP (4 - 2)] ++ [only (.PRE 4 false false false), NOPS, NOPS] ++ queue_words (frac_queue Tfrac1 Tfrac2 n) ++
      read_back_words 2 := by
    simp only [frac_words, List.append_assoc, List.cons_append, List.nil_append]
  rw [hwords]
  exact hfill.read_back 2 hs4 hs3

theorem straight_frac_words (bank row_id : CInt) (wr_word : WriteWord_t) (Tfrac1 Tfrac2 : Int) (n : Nat) :
    Straight (frac_words bank row_id wr_word Tfrac1 Tfrac2 n) := by
  simp [frac_words, straight_write_row, straight_queue_words, straight_read_back]

theorem time_all_frac (bank row_id : CInt) (wr_word : WriteWord_t) (Tfrac1 Tfrac2 : Int) (n : Nat)
    (other : Mnemonic → Board → Board × List Cmd) (b : Board) (t : Nat) :
    ∃ b' t', time_all other (frac_words bank row_id wr_word Tfrac1 Tfrac2 n) (b, t) = ((b', t'),
        frac_trace (false, bank) row_id (fun _ => wr_word) Tfrac1.toNat Tfrac2.toNat n t) ∧
      b'.dram = put_row (false, bank) (columns 0 128) b.dram row_id fun _ => wr_word := by
  obtain ⟨b1, h1, hone1, hdram1⟩ := time_all_write_row other bank row_id (fun _ => wr_word) b t
  have hclose : time_all other [.SLEEP (4 - 2), only (.PRE 4 false false false), NOPS, NOPS] (b1, t + 298) =
      ((b1, t + 305), [(4 * (t + 302), .PRE (false, b1.regs 4#4))]) := rfl
  obtain ⟨b2, h2, hone2, hdram2⟩ := issue_frac hone1 Tfrac1 Tfrac2 n (4 * (t + 305))
  have hqueue := time_all_queue other (frac_queue Tfrac1 Tfrac2 n) b1 (t + 305)
  obtain ⟨b3, t3, h3, hdram3⟩ := time_all_read_back other hone2 2
    (t + 305 + ((2 + Tfrac1.toNat + Tfrac2.toNat) * n + 3) / 4)
  rw [h2, queue_slots_frac] at hqueue
  rw [hone1.bar] at hclose
  refine ⟨b3, t3, ?_, hdram3.trans (hdram2.trans hdram1)⟩
  have htail := time_all_append other (queue_words (frac_queue Tfrac1 Tfrac2 n)) (read_back_words 2) (b1, t + 305)
  rw [hqueue, h3, hdram2, hdram1, reads_put_row] at htail
  rw [frac_words, time_all_append, h1, time_all_append, hclose, htail]
  have hread : ∀ P, t + 305 + P + 2 + 2 = t + 309 + P := by omega
  have hend : ∀ P, t + 309 + P + 260 = t + 569 + P := by omega
  rw [hread, hend, frac_trace]
  simp only [List.cons_append, List.nil_append]
  rfl

theorem frac_generates (bank row_id : CInt) (wr_word : WriteWord_t) (Tfrac1 Tfrac2 num_fracs : CInt) :
    ∃ p, frac bank row_id wr_word Tfrac1 Tfrac2 num_fracs = some p := by
  obtain ⟨sleep4, hs4⟩ := exists_sleep (show (2 : CInt) < 4 by decide)
  obtain ⟨sleep3, hs3⟩ := exists_sleep (show (2 : CInt) < 3 by decide)
  unfold frac
  rw [hs4, hs3, Option.bind_eq_bind, Option.bind_some, Option.bind_some, ← queue_calls_frac]
  exact (spells_frac bank row_id wr_word _ _ _ hs4 hs3).generates

theorem frac_run {bank row_id : CInt} {wr_word : WriteWord_t} {Tfrac1 Tfrac2 num_fracs : CInt} {p : Program}
    (h : frac bank row_id wr_word Tfrac1 Tfrac2 num_fracs = some p) (signed : Bool)
    (other : Mnemonic → Board → Board × List Cmd) (b : Board) (t : Nat) :
    ∃ b' t', Halts (p.get_inst_seq.map (timed signed other).act) 0 (b, t)
      (frac_trace (false, bank) row_id (fun _ => wr_word) Tfrac1.toInt.toNat Tfrac2.toInt.toNat num_fracs.toInt.toNat t) (b', t') ∧
      b'.dram = put_row (false, bank) (columns 0 128) b.dram row_id fun _ => wr_word := by
  unfold frac at h
  obtain ⟨sleep4, hs4, h⟩ := Option.bind_eq_some_iff.1 h
  obtain ⟨sleep3, hs3, h⟩ := Option.bind_eq_some_iff.1 h
  rw [← queue_calls_frac] at h
  have hh := halts_block (timed signed other) h (spells_frac bank row_id wr_word Tfrac1.toInt Tfrac2.toInt _ hs4 hs3)
    (straight_frac_words bank row_id wr_word _ _ _) (b, t)
  obtain ⟨b', t', htime, hdram⟩ := time_all_frac bank row_id wr_word Tfrac1.toInt Tfrac2.toInt num_fracs.toInt.toNat other b t
  have heffect : ∀ (ms : List Mnemonic) s, effects (ms.map (timed signed other).exec) s = time_all other ms s := fun _ _ => rfl
  rw [heffect, htime] at hh
  exact ⟨b', t', hh, hdram⟩

/-! ## `tWR_test` -/

/-- The queue of `tWR_test`. -/
def tWR_queue (tWR : Int) : List (Mini × Int) := [(.WRITE BAR 0 CAR 0 0 0, tWR), (.PRE BAR 0 0 0, 10)]

/-- The words of `tWR_test`. -/
def tWR_words (bank row_id col_id : CInt) (wr_word : WriteWord_t) (tWR : Int) : List Mnemonic :=
  write_row_words bank row_id (fun _ => wr_word) ++ ([.LI 3#4 (col_id * 8)] ++ (pattern_words (fun _ => ~~~wr_word) ++
    ([only (.PRE 4 false false false), NOPS, NOPS, only (.ACT 4 false 5 false false), NOPS, NOPS] ++
      (queue_words (tWR_queue tWR) ++ read_back_words 1))))

/-- What the words of a row hold once one column has been written with the
inverted word. -/
def tWR_line (col_id : CInt) (wr_word : WriteWord_t) (col : CInt) : Line :=
  if col = col_id * 8 then fun _ => ~~~wr_word else fun _ => wr_word

/-- What `tWR_test` issues: the row is written, one column is written with the
inverted word, the row is closed `tWR` slots later, and read. -/
def tWR_trace (bank : Bank) (row_id col_id : CInt) (wr_word : WriteWord_t) (tWR t : Nat) : List Stamped :=
  (4 * (t + 35), .PRE bank) :: (4 * (t + 39), .ACT bank row_id) ::
    (every_other (t + 42) ((columns 0 128).map fun col => .WR bank col false fun _ => wr_word) ++
      ((4 * (t + 331), .PRE bank) :: (4 * (t + 334), .ACT bank row_id) ::
        (4 * (t + 337), .WR bank (col_id * 8) false fun _ => ~~~wr_word) :: (4 * (t + 337) + (1 + tWR), .PRE bank) ::
        let P := (12 + tWR + 3) / 4
        ((4 * (t + 337 + P), .ACT bank row_id) ::
          (every_other (t + 340 + P) ((columns 0 128).map fun col => .RD bank col false (tWR_line col_id wr_word col)) ++
            [(4 * (t + 600 + P), .PRE bank)]))))

theorem spells_tWR_test (bank row_id col_id : CInt) (wr_word : WriteWord_t) (tWR : Int) {sleep4 sleep3 : List Call}
    (hs4 : sleep 4 = some sleep4) (hs3 : sleep 3 = some sleep3) :
    Spells ([add_inst (SMC_LI bank BAR), add_inst (SMC_LI row_id RAR), add_inst (SMC_LI 8 CASR)] ++
      load_pattern (fun _ => wr_word) ++
      [ddr (SMC_PRE BAR 0 0), add_inst (SMC_LI 0 CAR), nops, nops, ddr (SMC_ACT BAR 0 RAR 0), nops, nops] ++
      write_columns ++ [add_inst (SMC_LI (col_id * 8) CAR)] ++ load_pattern (fun _ => ~~~wr_word) ++
      [ddr (SMC_PRE BAR 0 0), nops, nops, ddr (SMC_ACT BAR 0 RAR 0), nops, nops] ++
      minprogram (queue_calls (tWR_queue tWR)) ++ [ddr (SMC_ACT BAR 0 RAR 0), add_inst (SMC_LI 0 CAR), nops] ++
      read_columns ++ sleep4 ++ [ddr (SMC_PRE BAR 0 0)] ++ sleep3) (tWR_words bank row_id col_id wr_word tWR) := by
  have hcol : Spells [add_inst (SMC_LI (col_id * 8) CAR)] [.LI 3#4 (col_id * 8)] := spells_pieces _ (by simp) (by simp)
  have hreopen : Spells [ddr (SMC_PRE BAR 0 0), nops, nops, ddr (SMC_ACT BAR 0 RAR 0), nops, nops]
      [only (.PRE 4 false false false), NOPS, NOPS, only (.ACT 4 false 5 false false), NOPS, NOPS] :=
    spells_pieces _ (by simp) (by simp)
  have hfill := ((((spells_write_row bank row_id fun _ => wr_word).append hcol).append
    (spells_load_pattern fun _ => ~~~wr_word)).append hreopen).append (spells_queue (tWR_queue tWR))
  have hwords : tWR_words bank row_id col_id wr_word tWR = write_row_words bank row_id (fun _ => wr_word) ++
      [.LI 3#4 (col_id * 8)] ++ pattern_words (fun _ => ~~~wr_word) ++
      [only (.PRE 4 false false false), NOPS, NOPS, only (.ACT 4 false 5 false false), NOPS, NOPS] ++
      queue_words (tWR_queue tWR) ++ read_back_words 1 := by
    simp only [tWR_words, List.append_assoc]
  rw [hwords]
  exact hfill.read_back 1 hs4 hs3

theorem straight_tWR_words (bank row_id col_id : CInt) (wr_word : WriteWord_t) (tWR : Int) :
    Straight (tWR_words bank row_id col_id wr_word tWR) := by
  simp [tWR_words, straight_write_row, straight_pattern_words, straight_queue_words, straight_read_back]

theorem issue_tWR {bank row_id : CInt} {b : Board} (h : OneRow bank row_id b) (tWR : Int) (t : Nat) :
    ∃ b', issue_queue t b (tWR_queue tWR) =
        (b', [(t, .WR (false, bank) (b.regs 3#4) false b.wide), (t + (1 + tWR.toNat), .PRE (false, bank))]) ∧
      OneRow bank row_id b' ∧ b'.dram = put_row (false, bank) [b.regs 3#4] b.dram row_id b.wide := by
  have hwrite : decode_ddr (Mini.WRITE BAR 0 CAR 0 0 0).encode = .WR 4 false 3 false false false := by decide
  have hpre : decode_ddr (Mini.PRE BAR 0 0 0).encode = .PRE 4 false false false := by decide
  obtain ⟨b', hissue, hregs, hrow, hdram⟩ : ∃ b', issue_queue t b (tWR_queue tWR) = (b',
      [(t, .WR (false, b.regs 4#4) (b.regs 3#4) false b.wide), (t + (1 + tWR.toNat), .PRE (false, b.regs 4#4))]) ∧
      b'.regs = b.regs ∧ b'.row = b.row ∧ b'.dram = put_row (false, b.regs 4#4) [b.regs 3#4] b.dram (b.row (false, b.regs 4#4)) b.wide := by
    rw [tWR_queue, issue_queue_cons, issue_queue_cons, hwrite, hpre]
    exact ⟨_, rfl, rfl, rfl, update_eq_put_row _ _ _ _ _⟩
  rw [h.bar] at hissue hdram
  rw [h.row] at hdram
  refine ⟨b', hissue, ⟨?_, ?_, ?_, ?_⟩, hdram⟩
  · rw [hregs, h.bar]
  · rw [hregs, h.rar]
  · rw [hregs, h.stride]
  · rw [hrow, h.row]

theorem reads_tWR (bank : Bank) (cells : Bank → CInt → CInt → Line) (row_id col_id : CInt) (wr_word : WriteWord_t) :
    ((columns 0 128).map fun col => Cmd.RD bank col false (put_row bank [col_id * 8]
        (put_row bank (columns 0 128) cells row_id fun _ => wr_word) row_id (fun _ => ~~~wr_word) bank row_id col)) =
      (columns 0 128).map fun col => .RD bank col false (tWR_line col_id wr_word col) := by
  refine List.map_congr_left fun col hcol => ?_
  by_cases h : col = col_id * 8
  · rw [put_row, tWR_line, if_pos ⟨rfl, rfl, List.mem_singleton.2 h⟩, if_pos h]
  · rw [put_row, tWR_line, if_neg fun hm => h (List.mem_singleton.1 hm.2.2), if_neg h, put_row, if_pos ⟨rfl, rfl, hcol⟩]

theorem time_all_tWR (bank row_id col_id : CInt) (wr_word : WriteWord_t) (tWR : Int)
    (other : Mnemonic → Board → Board × List Cmd) (b : Board) (t : Nat) :
    ∃ b' t', time_all other (tWR_words bank row_id col_id wr_word tWR) (b, t) = ((b', t'),
        tWR_trace (false, bank) row_id col_id wr_word tWR.toNat t) ∧
      b'.dram = put_row (false, bank) [col_id * 8] (put_row (false, bank) (columns 0 128) b.dram row_id fun _ => wr_word)
        row_id fun _ => ~~~wr_word := by
  obtain ⟨b1, h1, hone1, hdram1⟩ := time_all_write_row other bank row_id (fun _ => wr_word) b t
  have hcol : time_all other [.LI 3#4 (col_id * 8)] (b1, t + 298) = ((b1.set_reg 3#4 (col_id * 8), t + 299), []) := rfl
  obtain ⟨b2, h2, hregs2, hwide2, hdram2⟩ := time_all_pattern other (fun _ => ~~~wr_word) (b1.set_reg 3#4 (col_id * 8)) (t + 299)
  have hbar2 : b2.regs 4#4 = bank := by simp [hregs2 4#4 (by decide), hone1.bar]
  have hrar2 : b2.regs 5#4 = row_id := by simp [hregs2 5#4 (by decide), hone1.rar]
  have hcar2 : b2.regs 3#4 = col_id * 8 := by simp [hregs2 3#4 (by decide)]
  have hstride2 : b2.regs 0#4 = 8#32 := by simp [hregs2 0#4 (by decide), hone1.stride]
  -- the row is opened again
  obtain ⟨b3, h3, hone3, hcar3, hwide3, hdram3⟩ : ∃ b3, time_all other [only (.PRE 4 false false false), NOPS, NOPS,
      only (.ACT 4 false 5 false false), NOPS, NOPS] (b2, t + 331) = ((b3, t + 337),
        [(4 * (t + 331), .PRE (false, b2.regs 4#4)), (4 * (t + 334), .ACT (false, b2.regs 4#4) (b2.regs 5#4))]) ∧
      OneRow bank row_id b3 ∧ b3.regs 3#4 = b2.regs 3#4 ∧ b3.wide = b2.wide ∧ b3.dram = b2.dram :=
    ⟨{ b2 with row := Function.update b2.row (false, b2.regs 4#4) (b2.regs 5#4) }, rfl,
      ⟨hbar2, hrar2, hstride2, by simp [hbar2, hrar2]⟩, rfl, rfl, rfl⟩
  obtain ⟨b4, h4, hone4, hdram4⟩ := issue_tWR hone3 tWR (4 * (t + 337))
  have hqueue := time_all_queue other (tWR_queue tWR) b3 (t + 337)
  have hslots : queue_slots (tWR_queue tWR) = 12 + tWR.toNat := by
    rw [tWR_queue, queue_slots_cons, queue_slots_cons]
    change 1 + tWR.toNat + (1 + 10 + 0) = _
    omega
  obtain ⟨b5, t5, h5, hdram5⟩ := time_all_read_back other hone4 1 (t + 337 + (12 + tWR.toNat + 3) / 4)
  rw [hbar2, hrar2] at h3
  rw [hcar3, hcar2, hwide3, hwide2] at h4 hdram4
  rw [hdram3, hdram2] at hdram4
  change b4.dram = put_row (false, bank) [col_id * 8] b1.dram row_id (line_of fun _ => ~~~wr_word) at hdram4
  rw [hdram1] at hdram4
  rw [h4, hslots] at hqueue
  have htail := time_all_append other (queue_words (tWR_queue tWR)) (read_back_words 1) (b3, t + 337)
  rw [hqueue, h5, hdram4] at htail
  have hreads := reads_tWR (false, bank) b.dram row_id col_id wr_word
  refine ⟨b5, t5, ?_, hdram5.trans hdram4⟩
  rw [tWR_words, time_all_append, h1, time_all_append, hcol, time_all_append, h2, time_all_append, h3, htail]
  have hread : ∀ P, t + 337 + P + 2 + 1 = t + 340 + P := by omega
  have hend : ∀ P, t + 340 + P + 260 = t + 600 + P := by omega
  rw [hread, hend, tWR_trace, ← hreads]
  simp only [List.cons_append, List.nil_append]
  rfl

/-- A run of `tWR_test`. -/
theorem tWR_test_run {bank row_id col_id : CInt} {wr_word : WriteWord_t} {tWR : CInt} {p : Program}
    (h : tWR_test bank row_id col_id wr_word tWR = some p) (signed : Bool)
    (other : Mnemonic → Board → Board × List Cmd) (b : Board) (t : Nat) :
    ∃ b' t', Halts (p.get_inst_seq.map (timed signed other).act) 0 (b, t)
      (tWR_trace (false, bank) row_id col_id wr_word tWR.toInt.toNat t) (b', t') ∧
      b'.dram = put_row (false, bank) [col_id * 8] (put_row (false, bank) (columns 0 128) b.dram row_id fun _ => wr_word)
        row_id fun _ => ~~~wr_word := by
  unfold tWR_test at h
  obtain ⟨sleep4, hs4, h⟩ := Option.bind_eq_some_iff.1 h
  obtain ⟨sleep3, hs3, h⟩ := Option.bind_eq_some_iff.1 h
  have hh := halts_block (timed signed other) h (spells_tWR_test bank row_id col_id wr_word tWR.toInt hs4 hs3)
    (straight_tWR_words bank row_id col_id wr_word _) (b, t)
  obtain ⟨b', t', htime, hdram⟩ := time_all_tWR bank row_id col_id wr_word tWR.toInt other b t
  have heffect : ∀ (ms : List Mnemonic) s, effects (ms.map (timed signed other).exec) s = time_all other ms s := fun _ _ => rfl
  rw [heffect, htime] at hh
  exact ⟨b', t', hh, hdram⟩

/-! ## The distances -/

theorem gap_pre_le (k : Kind) : gap .pre k ≤ tRP := by cases k <;> decide

theorem gap_data_le (j : Kind) : gap j .data ≤ tRCD := by cases j <;> decide

theorem gap_le (j k : Kind) : gap j k ≤ tRAS := by cases j <;> cases k <;> decide

theorem mem_every_other {t : Nat} {cs : List Cmd} {x : Stamped} (hx : x ∈ every_other t cs) :
    ∃ i < cs.length, x.1 = 4 * (t + 2 * i) ∧ x.2 ∈ cs := by
  obtain ⟨i, hi, rfl⟩ := List.mem_mapIdx.1 hx
  exact ⟨i, hi, rfl, List.getElem_mem hi⟩

/-- READs or WRITEs every other cycle are tCCD apart. -/
theorem pairwise_every_other (t : Nat) {cs : List Cmd} (h : ∀ c ∈ cs, kind c = .data) : (every_other t cs).Pairwise Apart := by
  induction cs using List.reverseRecOn with
  | nil => exact .nil
  | append_singleton cs c ih =>
    rw [every_other_concat, List.pairwise_append]
    refine ⟨ih fun c' hc' => h c' (by simp [hc']), List.pairwise_singleton .., fun x hx y hy => ?_⟩
    obtain ⟨i, hi, htime, hmem⟩ := mem_every_other hx
    obtain rfl := List.mem_singleton.1 hy
    rw [Apart, htime, h x.2 (by simp [hmem]), h c (by simp)]
    change 4 * (t + 2 * i) + 8 ≤ 4 * (t + 2 * cs.length)
    omega

theorem pairwise_write_row (bank : Bank) (row_id : CInt) (line : Line) (t : Nat) :
    ((4 * (t + 35), .PRE bank) :: (4 * (t + 39), .ACT bank row_id) ::
      every_other (t + 42) ((columns 0 128).map fun col => .WR bank col false line)).Pairwise Apart := by
  have hdata : ∀ c ∈ (columns 0 128).map fun col => Cmd.WR bank col false line, kind c = .data :=
    List.forall_mem_map.2 fun _ _ => rfl
  rw [List.pairwise_cons, List.pairwise_cons]
  refine ⟨fun y hy => ?_, fun y hy => ?_, pairwise_every_other _ hdata⟩
  · have hgap := gap_pre_le (kind y.2)
    rcases List.mem_cons.1 hy with rfl | hy
    · change 4 * (t + 35) + 10 ≤ 4 * (t + 39)
      omega
    · obtain ⟨i, hi, htime, hmem⟩ := mem_every_other hy
      rw [Apart, htime]
      change 4 * (t + 35) + gap .pre (kind y.2) ≤ _
      change gap .pre (kind y.2) ≤ 10 at hgap
      omega
  · obtain ⟨i, hi, htime, hmem⟩ := mem_every_other hy
    rw [Apart, htime, hdata _ hmem]
    change 4 * (t + 39) + 12 ≤ _
    omega

/-- What comes after an ACT does not come too early for anything before it. -/
def Behind (c : Nat) (y : Stamped) : Prop := c + tRCD ≤ y.1 ∧ kind y.2 = .data ∨ c + tRAS ≤ y.1

theorem behind_apart {c : Nat} {x y : Stamped} (hy : Behind c y) (hx : x.1 ≤ c) : Apart x y := by
  rcases hy with ⟨hy, hdata⟩ | hy
  · have hgap := gap_data_le (kind x.2)
    rw [Apart, hdata]
    omega
  · have hgap := gap_le (kind x.2) (kind y.2)
    rw [Apart]
    omega

theorem behind_reads (bank : Bank) (f : CInt → Line) {c k : Nat} (hk : 1 ≤ k) :
    ∀ y ∈ every_other (c + 2 + k) ((columns 0 128).map fun col => Cmd.RD bank col false (f col)) ++
        [(4 * (c + 2 + k + 260), Cmd.PRE bank)], Behind (4 * c) y := by
  intro y hy
  rcases List.mem_append.1 hy with hy | hy
  · obtain ⟨i, hi, htime, hmem⟩ := mem_every_other hy
    obtain ⟨col, -, hcol⟩ := List.mem_map.1 hmem
    refine .inl ⟨?_, by rw [← hcol]; rfl⟩
    change 4 * c + 12 ≤ y.1
    omega
  · obtain rfl := List.mem_singleton.1 hy
    refine .inr ?_
    change 4 * c + 24 ≤ 4 * (c + 2 + k + 260)
    omega

theorem pairwise_reads (bank : Bank) (f : CInt → Line) (t : Nat) :
    (every_other t ((columns 0 128).map fun col => .RD bank col false (f col)) ++
      [(4 * (t + 260), Cmd.PRE bank)]).Pairwise Apart := by
  have hdata : ∀ c ∈ (columns 0 128).map fun col => Cmd.RD bank col false (f col), kind c = .data :=
    List.forall_mem_map.2 fun _ _ => rfl
  rw [List.pairwise_append]
  refine ⟨pairwise_every_other _ hdata, List.pairwise_singleton .., fun x hx y hy => ?_⟩
  obtain ⟨i, hi, htime, hmem⟩ := mem_every_other hx
  obtain rfl := List.mem_singleton.1 hy
  rw [List.length_map, length_columns] at hi
  rw [Apart, htime, hdata _ hmem]
  change 4 * (t + 2 * i) + 0 ≤ 4 * (t + 260)
  omega

theorem written_by (bank : Bank) (row_id : CInt) (line : Line) (t : Nat) {a : Nat} (ha : t + 302 ≤ a) :
    ∀ x ∈ (4 * (t + 35), Cmd.PRE bank) :: (4 * (t + 39), .ACT bank row_id) ::
      every_other (t + 42) ((columns 0 128).map fun col => .WR bank col false line), x.1 + tRAS ≤ 4 * a := by
  intro x hx
  change x.1 + 24 ≤ 4 * a
  simp only [List.mem_cons] at hx
  rcases hx with rfl | rfl | hx
  · change 4 * (t + 35) + 24 ≤ 4 * a
    omega
  · change 4 * (t + 39) + 24 ≤ 4 * a
    omega
  · obtain ⟨i, hi, htime, -⟩ := mem_every_other hx
    rw [List.length_map, length_columns] at hi
    omega

/-- Between a row written and a row read, only what is queued can come too
early. -/
theorem pairwise_between {pre mid post : List Stamped} {lo c : Nat} (bank : Bank) (row_id : CInt) (hpre : pre.Pairwise Apart)
    (hpost : post.Pairwise Apart) (hbehind : ∀ y ∈ post, Behind c y) (hlo : ∀ x ∈ pre, x.1 + tRAS ≤ lo)
    (hmid : ∀ x ∈ mid, lo ≤ x.1 ∧ x.1 ≤ c) (hc : lo ≤ c) :
    (pre ++ (mid ++ (c, .ACT bank row_id) :: post)).Pairwise Apart ↔
      mid.Pairwise Apart ∧ ∀ x ∈ mid, x.1 + gap (kind x.2) .act ≤ c := by
  have hfar : ∀ x ∈ pre, ∀ y ∈ mid ++ (c, .ACT bank row_id) :: post, Apart x y := by
    intro x hx y hy
    have hgap := gap_le (kind x.2) (kind y.2)
    have hxlo := hlo x hx
    rw [Apart]
    rcases List.mem_append.1 hy with hy | hy
    · have := (hmid y hy).1
      omega
    · rcases List.mem_cons.1 hy with rfl | hy
      · change x.1 + _ ≤ c
        omega
      · exact behind_apart (hbehind y hy) (by omega)
  have hopen : ((c, Cmd.ACT bank row_id) :: post).Pairwise Apart :=
    List.pairwise_cons.2 ⟨fun y hy => behind_apart (hbehind y hy) (Nat.le_refl c), hpost⟩
  rw [List.pairwise_append, List.pairwise_append]
  constructor
  · rintro ⟨-, ⟨hmid', -, hcross⟩, -⟩
    exact ⟨hmid', fun x hx => hcross x hx _ List.mem_cons_self⟩
  · rintro ⟨hmid', hact⟩
    refine ⟨hpre, ⟨hmid', hopen, fun x hx y hy => ?_⟩, hfar⟩
    rcases List.mem_cons.1 hy with rfl | hy
    · exact hact x hx
    · exact behind_apart (hbehind y hy) (hmid x hx).2

theorem mem_frac_openings {bank : Bank} {row_id : CInt} {Tfrac1 Tfrac2 n t : Nat} {x : Stamped}
    (hx : x ∈ frac_openings bank row_id Tfrac1 Tfrac2 n t) :
    ∃ i < n, x = (t + (2 + Tfrac1 + Tfrac2) * i, .ACT bank row_id) ∨
      x = (t + (2 + Tfrac1 + Tfrac2) * i + (1 + Tfrac1), .PRE bank) := by
  obtain ⟨i, hi, hx⟩ := List.mem_flatMap.1 hx
  exact ⟨i, List.mem_range.1 hi, by simpa using hx⟩

theorem mul_lt_step {L i j : Nat} (h : i < j) : L * i + L ≤ L * j := by
  rw [← Nat.mul_succ]
  exact Nat.mul_le_mul_left L h

/-- The openings of `frac` are far enough apart if the waits are. -/
theorem pairwise_frac_openings (bank : Bank) (row_id : CInt) (Tfrac1 Tfrac2 n t : Nat) :
    (frac_openings bank row_id Tfrac1 Tfrac2 n t).Pairwise Apart ↔ n = 0 ∨ 23 ≤ Tfrac1 ∧ (n = 1 ∨ 9 ≤ Tfrac2) := by
  rw [frac_openings, List.pairwise_flatMap]
  have hpass : ∀ i, [(t + (2 + Tfrac1 + Tfrac2) * i, Cmd.ACT bank row_id),
      (t + (2 + Tfrac1 + Tfrac2) * i + (1 + Tfrac1), .PRE bank)].Pairwise Apart ↔ 23 ≤ Tfrac1 := by
    intro i
    rw [List.pairwise_pair]
    change t + _ + 24 ≤ _ ↔ _
    omega
  constructor
  · rintro ⟨hone, htwo⟩
    rcases Nat.eq_zero_or_pos n with hn | hn
    · exact .inl hn
    have hRAS := (hpass 0).1 (hone 0 (List.mem_range.2 hn))
    refine .inr ⟨hRAS, ?_⟩
    rcases Nat.lt_or_ge 1 n with hn1 | hn1
    · have h01 := List.pairwise_iff_getElem.1 htwo 0 1 (by simpa using hn) (by simpa using hn1) (by decide)
      rw [List.getElem_range, List.getElem_range] at h01
      have hRP := h01 (t + (2 + Tfrac1 + Tfrac2) * 0 + (1 + Tfrac1), .PRE bank) (by simp)
        (t + (2 + Tfrac1 + Tfrac2) * 1, .ACT bank row_id) (by simp)
      change _ + 10 ≤ _ at hRP
      dsimp only at hRP
      omega
    · exact .inl (by omega)
  · intro h
    rcases h with rfl | ⟨hRAS, hn⟩
    · exact ⟨by simp, .nil⟩
    refine ⟨fun i _ => (hpass i).2 hRAS, List.pairwise_iff_getElem.2 fun i j hi hj hij x hx y hy => ?_⟩
    rw [List.length_range] at hi hj
    rw [List.getElem_range] at hx hy
    -- two passes are only there for two openings
    have hRP : 9 ≤ Tfrac2 := by omega
    have hstep := mul_lt_step (L := 2 + Tfrac1 + Tfrac2) hij
    simp only [List.mem_cons, List.not_mem_nil, or_false] at hx hy
    rcases hx with rfl | rfl <;> rcases hy with rfl | rfl <;> rw [Apart] <;> simp only [kind, gap, tRP, tRAS] <;> omega

/-- The nominal timings of `frac`: the waits of the openings, and the wait for
the last word to end. -/
theorem pairwise_frac_trace (bank : Bank) (row_id : CInt) (line : Line) (Tfrac1 Tfrac2 n t : Nat) :
    (frac_trace bank row_id line Tfrac1 Tfrac2 n t).Pairwise Apart ↔
      (n = 0 ∨ 23 ≤ Tfrac1 ∧ (n = 1 ∨ 9 ≤ Tfrac2)) ∧
        ∀ i < n, (2 + Tfrac1 + Tfrac2) * i + Tfrac1 + 11 ≤ 4 * (((2 + Tfrac1 + Tfrac2) * n + 3) / 4) := by
  have hP := Nat.div_add_mod ((2 + Tfrac1 + Tfrac2) * n + 3) 4
  have hmod := Nat.mod_lt ((2 + Tfrac1 + Tfrac2) * n + 3) (show 4 > 0 by decide)
  have hlast : ∀ i < n, (2 + Tfrac1 + Tfrac2) * i + (2 + Tfrac1 + Tfrac2) ≤ (2 + Tfrac1 + Tfrac2) * n := fun i hi => mul_lt_step hi
  rw [frac_trace]
  generalize ((2 + Tfrac1 + Tfrac2) * n + 3) / 4 = P at hP ⊢
  have hlo : ∀ x ∈ (4 * (t + 35), Cmd.PRE bank) :: (4 * (t + 39), .ACT bank row_id) ::
      every_other (t + 42) ((columns 0 128).map fun col => .WR bank col false line), x.1 + tRAS ≤ 4 * (t + 302) :=
    written_by bank row_id line t (by omega)
  have hmid : ∀ x ∈ (4 * (t + 302), Cmd.PRE bank) :: frac_openings bank row_id Tfrac1 Tfrac2 n (4 * (t + 305)),
      4 * (t + 302) ≤ x.1 ∧ x.1 ≤ 4 * (t + 305 + P) := by
    intro x hx
    rcases List.mem_cons.1 hx with rfl | hx
    · dsimp only
      omega
    · obtain ⟨i, hi, hx⟩ := mem_frac_openings hx
      have hi := hlast i hi
      rcases hx with rfl | rfl <;> dsimp only <;> omega
  have h := pairwise_between bank row_id (pairwise_write_row bank row_id line t)
    (pairwise_reads bank (fun _ => line) (t + 305 + P + 2 + 2)) (behind_reads bank (fun _ => line) (by decide)) hlo hmid (by omega)
  have hread : t + 305 + P + 2 + 2 = t + 309 + P := by omega
  have hend : t + 309 + P + 260 = t + 569 + P := by omega
  rw [hread, hend] at h
  apply h.trans
  rw [List.pairwise_cons, pairwise_frac_openings, List.forall_mem_cons]
  constructor
  · rintro ⟨⟨-, hn⟩, -, hact⟩
    refine ⟨hn, fun i hi => ?_⟩
    have hpre : (4 * (t + 305) + (2 + Tfrac1 + Tfrac2) * i + (1 + Tfrac1), Cmd.PRE bank) ∈
        frac_openings bank row_id Tfrac1 Tfrac2 n (4 * (t + 305)) :=
      List.mem_flatMap.2 ⟨i, List.mem_range.2 hi, by simp⟩
    have hact := hact _ hpre
    change 4 * (t + 305) + _ + (1 + Tfrac1) + 10 ≤ _ at hact
    omega
  · rintro ⟨hn, hpre⟩
    refine ⟨⟨fun y hy => ?_, hn⟩, ?_, fun x hx => ?_⟩
    · have hgap := gap_pre_le (kind y.2)
      change 4 * (t + 302) + gap .pre (kind y.2) ≤ y.1
      have htime : 4 * (t + 302) + tRP ≤ y.1 := by
        rw [tRP]
        obtain ⟨i, -, rfl | rfl⟩ := mem_frac_openings hy <;> dsimp only <;> omega
      exact (Nat.add_le_add_left hgap _).trans htime
    · dsimp only [kind, gap, tRP]
      omega
    · obtain ⟨i, hi, hx⟩ := mem_frac_openings hx
      have hi' := hlast i hi
      have hpre := hpre i hi
      rcases hx with rfl | rfl
      · change _ + 0 ≤ _
        omega
      · change _ + 10 ≤ _
        omega

/-- `frac` writes a row, opens it as often as asked for, each time for `Tfrac1`
slots with `Tfrac2` slots in between, and reads the row. The nominal timings
hold if the waits are long enough, or if the end of the last word makes up for
the wait of the only opening. -/
theorem frac_times (bank row_id : CInt) (wr_word : WriteWord_t) (Tfrac1 Tfrac2 num_fracs : CInt) :
    let T1 := Tfrac1.toInt.toNat
    let T2 := Tfrac2.toInt.toNat
    let n := num_fracs.toInt.toNat
    (∃ p, frac bank row_id wr_word Tfrac1 Tfrac2 num_fracs = some p ∧
      ∀ (signed : Bool) (other : Mnemonic → Board → Board × List Cmd) (b : Board) (t : Nat),
        ∃ b' t', Halts (p.get_inst_seq.map (timed signed other).act) 0 (b, t)
          (frac_trace (false, bank) row_id (fun _ => wr_word) T1 T2 n t) (b', t') ∧
          b'.dram = put_row (false, bank) (columns 0 128) b.dram row_id fun _ => wr_word) ∧
    ∀ t, (frac_trace (false, bank) row_id (fun _ => wr_word) T1 T2 n t).Pairwise Apart ↔
      n = 0 ∨ 23 ≤ T1 ∧ (9 ≤ T2 ∨ n = 1 ∧ T1 + 11 ≤ 4 * ((5 + T1 + T2) / 4)) := by
  intro T1 T2 n
  refine ⟨?_, fun t => ?_⟩
  · obtain ⟨p, hp⟩ := frac_generates bank row_id wr_word Tfrac1 Tfrac2 num_fracs
    exact ⟨p, hp, fun signed other b t => frac_run hp signed other b t⟩
  · rw [pairwise_frac_trace]
    constructor
    · rintro ⟨hn | ⟨hRAS, hn⟩, hlast⟩
      · exact .inl hn
      refine .inr ⟨hRAS, ?_⟩
      rcases hn with hn | hRP
      · have hlast := hlast 0 (by omega)
        rw [hn, Nat.mul_zero, Nat.mul_one, Nat.zero_add] at hlast
        have hslots : 2 + T1 + T2 + 3 = 5 + T1 + T2 := by omega
        rw [hslots] at hlast
        exact .inr ⟨hn, hlast⟩
      · exact .inl hRP
    · rintro (hn | ⟨hRAS, hn⟩)
      · exact ⟨.inl hn, fun i hi => by omega⟩
      rcases hn with hRP | ⟨hn, hlast⟩
      · refine ⟨.inr ⟨hRAS, .inr hRP⟩, fun i hi => ?_⟩
        have hstep := mul_lt_step (L := 2 + T1 + T2) hi
        omega
      · refine ⟨.inr ⟨hRAS, .inl hn⟩, fun i hi => ?_⟩
        have hslots : 2 + T1 + T2 + 3 = 5 + T1 + T2 := by omega
        obtain rfl : i = 0 := by omega
        rw [hn, Nat.mul_zero, Nat.mul_one, Nat.zero_add, hslots]
        exact hlast

theorem tWR_test_generates (bank row_id col_id : CInt) (wr_word : WriteWord_t) (tWR : CInt) :
    ∃ p, tWR_test bank row_id col_id wr_word tWR = some p := by
  obtain ⟨sleep4, hs4⟩ := exists_sleep (show (2 : CInt) < 4 by decide)
  obtain ⟨sleep3, hs3⟩ := exists_sleep (show (2 : CInt) < 3 by decide)
  unfold tWR_test
  rw [hs4, hs3, Option.bind_eq_bind, Option.bind_some, Option.bind_some]
  exact (spells_tWR_test bank row_id col_id wr_word tWR.toInt hs4 hs3).generates

/-- The only distances of `tWR_test` that depend on `tWR` are those to the PRE
behind the WRITE. -/
theorem pairwise_tWR_trace (bank : Bank) (row_id col_id : CInt) (wr_word : WriteWord_t) (tWR t : Nat) :
    (tWR_trace bank row_id col_id wr_word tWR t).Pairwise Apart ↔ 11 ≤ tWR := by
  rw [tWR_trace]
  have hP := Nat.div_add_mod (12 + tWR + 3) 4
  have hmod := Nat.mod_lt (12 + tWR + 3) (show 4 > 0 by decide)
  generalize (12 + tWR + 3) / 4 = P at hP ⊢
  have hlo : ∀ x ∈ (4 * (t + 35), Cmd.PRE bank) :: (4 * (t + 39), .ACT bank row_id) ::
      every_other (t + 42) ((columns 0 128).map fun col => .WR bank col false fun _ => wr_word), x.1 + tRAS ≤ 4 * (t + 331) :=
    written_by bank row_id _ t (by omega)
  have hmid : ∀ x ∈ [(4 * (t + 331), Cmd.PRE bank), (4 * (t + 334), .ACT bank row_id),
      (4 * (t + 337), .WR bank (col_id * 8) false fun _ => ~~~wr_word), (4 * (t + 337) + (1 + tWR), .PRE bank)],
      4 * (t + 331) ≤ x.1 ∧ x.1 ≤ 4 * (t + 337 + P) := by
    intro x hx
    simp only [List.mem_cons, List.not_mem_nil, or_false] at hx
    rcases hx with rfl | rfl | rfl | rfl <;> dsimp only <;> omega
  have h := pairwise_between bank row_id (pairwise_write_row bank row_id (fun _ => wr_word) t)
    (pairwise_reads bank (tWR_line col_id wr_word) (t + 337 + P + 2 + 1)) (behind_reads bank (tWR_line col_id wr_word) (by decide))
    hlo hmid (by omega)
  have hread : t + 337 + P + 2 + 1 = t + 340 + P := by omega
  have hend : t + 340 + P + 260 = t + 600 + P := by omega
  rw [hread, hend] at h
  apply h.trans
  simp only [List.pairwise_cons, List.forall_mem_cons, List.not_mem_nil, false_imp_iff, implies_true, List.Pairwise.nil, and_true, Apart, kind, gap, tRP, tRAS,
    tRCD]
  omega

/-- `tWR_test` writes a row, then one column of it with the inverted word,
closes it after `tWR` more slots and reads it. The nominal timings hold from a
`tWR` of 11 slots on: below, the row is not open for tRAS either. -/
theorem tWR_test_times (bank row_id col_id : CInt) (wr_word : WriteWord_t) (tWR : CInt) :
    (∃ p, tWR_test bank row_id col_id wr_word tWR = some p ∧
      ∀ (signed : Bool) (other : Mnemonic → Board → Board × List Cmd) (b : Board) (t : Nat),
        ∃ b' t', Halts (p.get_inst_seq.map (timed signed other).act) 0 (b, t)
          (tWR_trace (false, bank) row_id col_id wr_word tWR.toInt.toNat t) (b', t') ∧
          b'.dram = put_row (false, bank) [col_id * 8] (put_row (false, bank) (columns 0 128) b.dram row_id fun _ => wr_word)
            row_id fun _ => ~~~wr_word) ∧
    ∀ t, (tWR_trace (false, bank) row_id col_id wr_word tWR.toInt.toNat t).Pairwise Apart ↔ 11 ≤ tWR.toInt := by
  refine ⟨?_, fun t => ?_⟩
  · obtain ⟨p, hp⟩ := tWR_test_generates bank row_id col_id wr_word tWR
    exact ⟨p, hp, fun signed other b t => tWR_test_run hp signed other b t⟩
  · rw [pairwise_tWR_trace]
    omega

theorem multirow_act_generates (bank rowA rowB nT1 nT2 : CInt) : ∃ p, multirow_act bank rowA rowB nT1 nT2 = some p := by
  obtain ⟨sleep3, hs3⟩ := exists_sleep (show (2 : CInt) < 3 by decide)
  unfold multirow_act
  rw [hs3, Option.bind_eq_bind, Option.bind_some]
  exact (spells_multirow_act bank rowA rowB nT1 nT2 hs3).generates

/-- `multirow_act` opens two rows with the waits asked for between the three
commands, and `rowclone` is the one with a nominal first wait. The nominal
timings hold from 23 and 9 slots on. -/
theorem multirow_act_times (bank rowA rowB nT1 nT2 : CInt) :
    let es := fun t => (4 * (t + 4), Cmd.PRE (false, bank)) ::
      two_openings (false, bank) rowA rowB nT1.toInt.toNat nT2.toInt.toNat (4 * (t + 8))
    (∃ p, multirow_act bank rowA rowB nT1 nT2 = some p ∧ (nT1 = 24 → rowclone bank rowA rowB nT2 = some p) ∧
      ∀ (signed : Bool) (other : Mnemonic → Board → Board × List Cmd) (b : Board) (t : Nat),
        ∃ b' t', Halts (p.get_inst_seq.map (timed signed other).act) 0 (b, t) (es t) (b', t') ∧ b'.dram = b.dram) ∧
    ∀ t, (es t).Pairwise Apart ↔ 23 ≤ nT1.toInt ∧ 9 ≤ nT2.toInt := by
  intro es
  refine ⟨?_, fun t => ?_⟩
  · obtain ⟨p, hp⟩ := multirow_act_generates bank rowA rowB nT1 nT2
    refine ⟨p, hp, fun hnT1 => ?_, fun signed other b t => multirow_act_run hp signed other b t⟩
    rw [rowclone_eq, ← hnT1, hp]
  · simp only [es, two_openings, List.pairwise_cons, List.forall_mem_cons, List.not_mem_nil, false_imp_iff, implies_true, List.Pairwise.nil, and_true, Apart,
      kind, gap, tRP, tRAS]
    omega

end DCT
