import Mathlib
import DramBender.Device
import DramBender.Bitflips
import DramBender.Hammer
/-!
# What the generated programs do

A request is a generator with its arguments. What a request is for is said
without boards and programs: the lines it writes (`puts`), and the rows whose
lines it then returns (`rows_read`). Every program generated for a request does
just that (`Request.run`).
-/

namespace DCT

open DRAMBender Machine
open DRAMBender.Board
open Program (Piece)
open Call (add_inst)
open ReservedReg
open DRAMBender.Platform (Word_t)

/-! ## Programs for one row -/

section
variable {bank row_id : CInt} {p : Program} (signed : Bool) (other : Mnemonic → Board → Board × List Cmd) (b : Board)

/-- A run of `init_row` writes the row. -/
theorem init_row_run {wr_pattern : WritePattern_t} (h : init_row bank row_id wr_pattern = some p) :
    ∃ b', Halts (p.get_inst_seq.map (isa signed other).act) 0 b
      (.PRE (false, bank) :: write_cmds (false, bank) (columns 0 128) row_id (line_of wr_pattern)) b' := by
  unfold init_row at h
  obtain ⟨sleep4, hs4, h⟩ := Option.bind_eq_some_iff.1 h
  have hclose : Spells [ddr (SMC_PRE BAR 0 0), nops, nops] [only (.PRE 4 false false false), NOPS, NOPS] :=
    spells_pieces _ (by simp) (by simp)
  have hspells := ((spells_write_row bank row_id wr_pattern).append (spells_sleep hs4)).append hclose
  have hh := halts_block (timed signed other) h hspells (by simp [straight_write_row]) (b, 0)
  have heffect : ∀ (ms : List Mnemonic) s, effects (ms.map (timed signed other).exec) s = time_all other ms s := fun _ _ => rfl
  obtain ⟨b1, h1, hone, -⟩ := time_all_write_row other bank row_id wr_pattern b 0
  have hlast : time_all other [.SLEEP (4 - 2)] (b1, 0 + 298) = ((b1, 302), []) := rfl
  have hpre : time_all other [only (.PRE 4 false false false), NOPS, NOPS] (b1, 302) =
      ((b1, 305), [(4 * 302, .PRE (false, b1.regs 4#4))]) := rfl
  rw [heffect, time_all_append, time_all_append, h1, hlast, hpre, hone.bar] at hh
  have hrun := halts_project hh
  rw [List.append_nil, List.map_append, List.map_cons, List.map_cons, map_snd_every_other] at hrun
  exact ⟨b1, hrun⟩

/-- A run of `read_row` reads the row. -/
theorem read_row_run (h : read_row bank row_id = some p) :
    ∃ b', Halts (p.get_inst_seq.map (isa signed other).act) 0 b
      (.PRE (false, bank) :: read_cmds (false, bank) b.dram (columns 0 128) row_id) b' := by
  unfold read_row at h
  obtain ⟨sleep4, hs4, h⟩ := Option.bind_eq_some_iff.1 h
  obtain ⟨sleep3, hs3, h⟩ := Option.bind_eq_some_iff.1 h
  have hh := halts_block (timed signed other) h (spells_read_row bank row_id hs4 hs3) (by simp [straight_reads]) (b, 0)
  have heffect : ∀ (ms : List Mnemonic) s, effects (ms.map (timed signed other).exec) s = time_all other ms s := fun _ _ => rfl
  have hload : time_all other [.LI 4#4 bank, .LI 5#4 row_id, .LI 0#4 8#32] (b, 0) =
      ((((b.set_reg 4#4 bank).set_reg 5#4 row_id).set_reg 0#4 8#32, 3), []) := rfl
  have hbar : (((b.set_reg 4#4 bank).set_reg 5#4 row_id).set_reg 0#4 8#32).regs 4#4 = bank := by simp
  have hrar : (((b.set_reg 4#4 bank).set_reg 5#4 row_id).set_reg 0#4 8#32).regs 5#4 = row_id := by simp
  have hstride : (((b.set_reg 4#4 bank).set_reg 5#4 row_id).set_reg 0#4 8#32).regs 0#4 = 8#32 := by simp
  obtain ⟨b1, h1, hone1, hcar1, -, hdram1⟩ := time_all_open_row other hbar hrar hstride 3
  obtain ⟨b2, h2, hone2, -⟩ := time_all_reads other hone1 (3 + 7)
  have hlast : time_all other [.SLEEP (4 - 2)] (b2, 3 + 7 + 256) = ((b2, 270), []) := rfl
  have hclose : time_all other [only (.PRE 4 false false false)] (b2, 270) = ((b2, 271), [(4 * 270, .PRE (false, b2.regs 4#4))]) := rfl
  have hend : time_all other [.SLEEP (3 - 2)] (b2, 271) = ((b2, 274), []) := rfl
  rw [hcar1, hdram1] at h2
  rw [heffect, time_all_append, time_all_append, time_all_append, time_all_append, time_all_append, hload, h1, h2, hlast, hclose,
    hend, hone2.bar] at hh
  have hrun := halts_project hh
  simp only [List.nil_append, List.append_nil, List.cons_append, List.map_cons, List.map_append, List.map_nil,
    map_snd_every_other] at hrun
  exact ⟨b2, hrun⟩

end

/-! ## Requests -/

/-- A generator with its arguments. -/
inductive Request where
  | init_row (bank row_id : CInt) (wr_pattern : WritePattern_t)
  | init_rows (bank : CInt) (row_ids : List CInt) (wr_words : List WriteWord_t)
  | init_row_range (bank start_row end_row : CInt) (wr_pattern : WritePattern_t)
  | read_row (bank row_id : CInt)
  | read_rows (bank : CInt) (row_ids : List CInt)
  | read_row_range (bank start_row end_row : CInt)
  | act_row (bank row_id nRAS nRP : CInt)
  | act_rows (bank : CInt) (row_ids : List CInt) (nRAS nRP : CInt)
  | refresh_all_rows (bank num_rows : CInt)
  | singleside_hammer (bank aggr_id hammer_count nAggON nAggOFF : CInt)
  | doubleside_hammer (bank aggr1_id aggr2_id hammer_count nAggON1 nAggOFF1 nAggON2 nAggOFF2 : CInt)
  | rowclone (bank src_id dst_id nT1 : CInt)
  | multirow_act (bank rowA rowB nT1 nT2 : CInt)
  | tWR_test (bank row_id col_id : CInt) (wr_word : WriteWord_t) (tWR : CInt)
  | frac (bank row_id : CInt) (wr_word : WriteWord_t) (Tfrac1 Tfrac2 num_fracs : CInt)

/-- A line written to columns of a row. -/
structure Put where
  row : CInt
  cols : List CInt
  line : Line

/-- The cells after the lines are written, one after the other. -/
def written (bank : Bank) (cells : Cells) (xs : List Put) : Cells :=
  xs.foldl (fun cells x => put_row bank x.cols cells x.row x.line) cells

namespace Request

def program : Request → Option Program
  | .init_row bank row_id wr_pattern => DCT.init_row bank row_id wr_pattern
  | .init_rows bank row_ids wr_words => DCT.init_rows bank row_ids wr_words
  | .init_row_range bank start_row end_row wr_pattern => DCT.init_row_range bank start_row end_row wr_pattern
  | .read_row bank row_id => DCT.read_row bank row_id
  | .read_rows bank row_ids => DCT.read_rows bank row_ids
  | .read_row_range bank start_row end_row => DCT.read_row_range bank start_row end_row
  | .act_row bank row_id nRAS nRP => DCT.act_row bank row_id nRAS nRP
  | .act_rows bank row_ids nRAS nRP => DCT.act_rows bank row_ids nRAS nRP
  | .refresh_all_rows bank num_rows => DCT.refresh_all_rows bank num_rows
  | .singleside_hammer bank aggr_id hammer_count nAggON nAggOFF =>
    DCT.singleside_hammer bank aggr_id hammer_count nAggON nAggOFF
  | .doubleside_hammer bank aggr1_id aggr2_id hammer_count nAggON1 nAggOFF1 nAggON2 nAggOFF2 =>
    DCT.doubleside_hammer bank aggr1_id aggr2_id hammer_count nAggON1 nAggOFF1 nAggON2 nAggOFF2
  | .rowclone bank src_id dst_id nT1 => DCT.rowclone bank src_id dst_id nT1
  | .multirow_act bank rowA rowB nT1 nT2 => DCT.multirow_act bank rowA rowB nT1 nT2
  | .tWR_test bank row_id col_id wr_word tWR => DCT.tWR_test bank row_id col_id wr_word tWR
  | .frac bank row_id wr_word Tfrac1 Tfrac2 num_fracs => DCT.frac bank row_id wr_word Tfrac1 Tfrac2 num_fracs

/-- What a request needs: a row where it lists rows, a pass of its loop where it
counts them, and waits that can be slept. -/
def Served : Request → Prop
  | .init_rows _ row_ids _ => row_ids ≠ []
  | .read_rows _ row_ids => row_ids ≠ []
  | .act_rows _ row_ids _ _ => row_ids ≠ []
  | .refresh_all_rows _ num_rows => 0 < num_rows.toInt
  | .singleside_hammer _ _ hammer_count nAggON nAggOFF =>
    0 < hammer_count.toInt ∧ above_one 5 nAggON < 2 ^ 31 ∧ above_one 3 nAggOFF < 2 ^ 31
  | .doubleside_hammer _ _ _ hammer_count nAggON1 nAggOFF1 nAggON2 nAggOFF2 =>
    0 < hammer_count.toInt ∧ (above_one 5 nAggON1 < 2 ^ 31 ∧ above_one 3 nAggOFF1 < 2 ^ 31) ∧
      above_one 5 nAggON2 < 2 ^ 31 ∧ above_one 3 nAggOFF2 < 2 ^ 31
  | _ => True

/-- The bank, of rank 0. -/
def bank : Request → Bank
  | .init_row bank .. | .init_rows bank .. | .init_row_range bank .. | .read_row bank .. | .read_rows bank ..
  | .read_row_range bank .. | .act_row bank .. | .act_rows bank .. | .refresh_all_rows bank .. | .singleside_hammer bank ..
  | .doubleside_hammer bank .. | .rowclone bank .. | .multirow_act bank .. | .tWR_test bank .. | .frac bank .. => (false, bank)

/-- The lines a request writes, in order. -/
def puts (signed : Bool) : Request → List Put
  | .init_row _ row_id wr_pattern => [⟨row_id, columns 0 128, line_of wr_pattern⟩]
  | .init_rows _ row_ids wr_words => (row_ids.zip wr_words).map fun x => ⟨x.1, columns 0 128, fun _ => x.2⟩
  | .init_row_range _ start_row end_row wr_pattern => (List.range (range_passes signed start_row end_row)).map fun j =>
    ⟨start_row + BitVec.ofNat 32 j, columns (BitVec.ofNat 32 (1024 * j)) 128, line_of wr_pattern⟩
  | .tWR_test _ row_id col_id wr_word _ =>
    [⟨row_id, columns 0 128, fun _ => wr_word⟩, ⟨row_id, [col_id * 8], fun _ => ~~~wr_word⟩]
  | .frac _ row_id wr_word _ _ _ => [⟨row_id, columns 0 128, fun _ => wr_word⟩]
  | _ => []

/-- The rows a request then reads, in order. -/
def rows_read (signed : Bool) : Request → List CInt
  | .read_row _ row_id => [row_id]
  | .read_rows _ row_ids => row_ids
  | .read_row_range _ start_row end_row =>
    (List.range (range_passes signed start_row end_row)).map fun j => start_row + BitVec.ofNat 32 j
  | .tWR_test _ row_id _ _ _ => [row_id]
  | .frac _ row_id _ _ _ _ => [row_id]
  | _ => []

/-- The cells after a request. -/
def effect (signed : Bool) (r : Request) (cells : Cells) : Cells := written r.bank cells (r.puts signed)

/-- The words a request returns. -/
def words (signed : Bool) (r : Request) (cells : Cells) : List Word_t :=
  (r.rows_read signed).flatMap fun row_id => row_words (r.effect signed cells r.bank row_id) (columns 0 128)

/-- A run does what the request is for. -/
structure Performed (signed : Bool) (r : Request) (b : Board) (es : List Cmd) (b' : Board) : Prop where
  no_refresh : .REF true ∉ es
  effect : b'.dram = r.effect signed b.dram
  words : readback es = r.words signed b.dram

end Request

/-! ### Commands that write nothing -/

/-- A row is opened, or a bank closed. -/
def quiet : Cmd → Bool
  | .ACT _ _ => true
  | .PRE _ => true
  | _ => false

section
variable {signed : Bool} {ws : List Inst} {b b' : Board} {es : List Cmd} {r : Request}

theorem dram_of_run (h : Halts (ws.map (isa signed told).act) 0 b es b') : b'.dram = (b.device.commands es).cells :=
  congrArg Dram.cells (h.track (List.forall_mem_map.2 fun w _ => tracks_told signed w))

theorem Request.performed_quiet (h : Halts (ws.map (isa signed told).act) 0 b es b') (hes : ∀ c ∈ es, quiet c = true)
    (hputs : r.puts signed = []) (hrows : r.rows_read signed = []) : r.Performed signed b es b' := by
  refine ⟨fun hc => by simpa [quiet] using hes _ hc, ?_, ?_⟩
  · rw [dram_of_run h, Dram.commands_quiet, Request.effect, hputs]
    · rfl
    · rintro c hc bank col ap line rfl
      simpa [quiet] using hes _ hc
  · rw [Request.words, hrows, List.flatMap_nil, readback, List.flatMap_eq_nil_iff]
    intro c hc
    have hq := hes c hc
    cases c <;> first | rfl | cases hq

theorem Request.performed_writes {xs : List Put}
    (h : Halts (ws.map (isa signed told).act) 0 b (.PRE r.bank :: xs.flatMap fun x => write_cmds r.bank x.cols x.row x.line) b')
    (hputs : r.puts signed = xs) (hrows : r.rows_read signed = []) :
    r.Performed signed b (.PRE r.bank :: xs.flatMap fun x => write_cmds r.bank x.cols x.row x.line) b' := by
  refine ⟨?_, ?_, ?_⟩
  · simp [write_cmds]
  · rw [dram_of_run h, Dram.commands_cons, Dram.cells_flatMap_write_cmds, Request.effect, hputs]
    rfl
  · rw [Request.words, hrows, List.flatMap_nil, readback, List.flatMap_eq_nil_iff]
    intro c hc
    simp only [write_cmds, List.mem_cons, List.mem_flatMap, List.mem_append, List.mem_map, List.not_mem_nil, or_false] at hc
    obtain rfl | ⟨x, -, (rfl | ⟨col, -, rfl⟩) | rfl⟩ := hc <;> rfl

theorem Request.performed_reads {rows : List CInt}
    (h : Halts (ws.map (isa signed told).act) 0 b (.PRE r.bank :: rows.flatMap (read_cmds r.bank b.dram (columns 0 128))) b')
    (hputs : r.puts signed = []) (hrows : r.rows_read signed = rows) :
    r.Performed signed b (.PRE r.bank :: rows.flatMap (read_cmds r.bank b.dram (columns 0 128))) b' := by
  have heffect : r.effect signed b.dram = b.dram := by
    rw [Request.effect, hputs]
    rfl
  refine ⟨?_, ?_, ?_⟩
  · simp [read_cmds]
  · rw [dram_of_run h, Dram.commands_quiet, heffect]
    · rfl
    · intro c hc bank col ap line
      simp only [read_cmds, List.mem_cons, List.mem_flatMap, List.mem_append, List.mem_map, List.not_mem_nil, or_false] at hc
      obtain rfl | ⟨x, -, (rfl | ⟨col, -, rfl⟩) | rfl⟩ := hc <;> simp
  · rw [Request.words, heffect, hrows, ← readback_rows]
    rfl

end

/-! ### Every request -/

namespace Request

variable {p : Program} (signed : Bool) (b : Board)

theorem init_row_performed {bank row_id : CInt} {wr_pattern : WritePattern_t} (hp : DCT.init_row bank row_id wr_pattern = some p) :
    ∃ b' es, Halts (p.get_inst_seq.map (isa signed told).act) 0 b es b' ∧
      (init_row bank row_id wr_pattern).Performed signed b es b' := by
  obtain ⟨b', hh⟩ := init_row_run signed told b hp
  rw [← List.flatMap_singleton (fun x : Put => write_cmds (false, bank) x.cols x.row x.line)
    ⟨row_id, columns 0 128, line_of wr_pattern⟩] at hh
  exact ⟨b', _, hh, performed_writes hh rfl rfl⟩

theorem init_rows_performed {bank : CInt} {row_ids : List CInt} {wr_words : List WriteWord_t}
    (hp : DCT.init_rows bank row_ids wr_words = some p) (hx : Platform.Executable p) (hne : row_ids ≠ []) :
    ∃ b' es, Halts (p.get_inst_seq.map (isa signed told).act) 0 b es b' ∧
      (init_rows bank row_ids wr_words).Performed signed b es b' := by
  obtain ⟨b', es, hh, hw⟩ := init_rows_run hp hx hne signed told b
  have hle : (row_ids.zip wr_words).length ≤ row_ids.length := by
    rw [List.length_zip]
    exact min_le_left _ _
  have hes : es = .PRE (false, bank) :: (puts signed (init_rows bank row_ids wr_words)).flatMap fun x =>
      write_cmds (false, bank) x.cols x.row x.line := by
    rw [hw.issued, List.take_of_length_le hle, puts, List.flatMap_map]
  subst hes
  exact ⟨b', _, hh, performed_writes hh rfl rfl⟩

theorem init_row_range_performed {bank start_row end_row : CInt} {wr_pattern : WritePattern_t}
    (hp : DCT.init_row_range bank start_row end_row wr_pattern = some p) (hx : Platform.Executable p) :
    ∃ b' es, Halts (p.get_inst_seq.map (isa signed told).act) 0 b es b' ∧
      (init_row_range bank start_row end_row wr_pattern).Performed signed b es b' := by
  obtain ⟨b', es, hh, hw⟩ := init_row_range_run hp hx signed told b
  have hes : es = .PRE (false, bank) :: (puts signed (init_row_range bank start_row end_row wr_pattern)).flatMap fun x =>
      write_cmds (false, bank) x.cols x.row x.line := by
    rw [hw.issued, puts, List.flatMap_map]
    rfl
  subst hes
  exact ⟨b', _, hh, performed_writes hh rfl rfl⟩

theorem read_row_performed {bank row_id : CInt} (hp : DCT.read_row bank row_id = some p) :
    ∃ b' es, Halts (p.get_inst_seq.map (isa signed told).act) 0 b es b' ∧ (read_row bank row_id).Performed signed b es b' := by
  obtain ⟨b', hh⟩ := read_row_run signed told b hp
  rw [← List.flatMap_singleton (read_cmds (false, bank) b.dram (columns 0 128)) row_id] at hh
  exact ⟨b', _, hh, performed_reads hh rfl rfl⟩

theorem read_rows_performed {bank : CInt} {row_ids : List CInt} (hp : DCT.read_rows bank row_ids = some p)
    (hx : Platform.Executable p) (hne : row_ids ≠ []) :
    ∃ b' es, Halts (p.get_inst_seq.map (isa signed told).act) 0 b es b' ∧ (read_rows bank row_ids).Performed signed b es b' := by
  obtain ⟨b', es, hh, hr⟩ := read_rows_run hp hx signed told b
  obtain rfl := hr.issued
  rw [List.take_length, visited, if_neg hne] at hh
  exact ⟨b', _, hh, performed_reads hh rfl rfl⟩

theorem read_row_range_performed {bank start_row end_row : CInt} (hp : DCT.read_row_range bank start_row end_row = some p)
    (hx : Platform.Executable p) :
    ∃ b' es, Halts (p.get_inst_seq.map (isa signed told).act) 0 b es b' ∧
      (read_row_range bank start_row end_row).Performed signed b es b' := by
  obtain ⟨b', es, hh, hr⟩ := read_row_range_run hp hx signed told b
  have hes : es = .PRE (false, bank) :: (rows_read signed (read_row_range bank start_row end_row)).flatMap
      (read_cmds (false, bank) b.dram (columns 0 128)) := by
    rw [hr.issued, rows_read, List.flatMap_map]
  subst hes
  exact ⟨b', _, hh, performed_reads hh rfl rfl⟩

theorem act_row_performed {bank row_id nRAS nRP : CInt} (hp : DCT.act_row bank row_id nRAS nRP = some p) :
    ∃ b' es, Halts (p.get_inst_seq.map (isa signed told).act) 0 b es b' ∧
      (act_row bank row_id nRAS nRP).Performed signed b es b' := by
  obtain ⟨s', t0, t1, hh⟩ := act_row_run hp signed told b 0
  have hrun := halts_project hh
  exact ⟨_, _, hrun, performed_quiet hrun (by simp [visit, quiet]) rfl rfl⟩

theorem act_rows_performed {bank : CInt} {row_ids : List CInt} {nRAS nRP : CInt}
    (hp : DCT.act_rows bank row_ids nRAS nRP = some p) (hx : Platform.Executable p) (hne : row_ids ≠ []) :
    ∃ b' es, Halts (p.get_inst_seq.map (isa signed told).act) 0 b es b' ∧
      (act_rows bank row_ids nRAS nRP).Performed signed b es b' := by
  obtain ⟨s', t0, ts, -, hh⟩ := act_rows_run hp hx hne signed told b 0
  have hrun := halts_project hh
  refine ⟨_, _, hrun, performed_quiet hrun ?_ rfl rfl⟩
  intro c hc
  simp only [row_visits, visit, List.map_cons, List.map_flatMap, List.mem_cons, List.mem_flatMap, List.map_nil, List.not_mem_nil,
    or_false] at hc
  obtain rfl | ⟨x, -, rfl | rfl | rfl | rfl⟩ := hc <;> rfl

/-- A positive count is what the loop is given. -/
theorem count_of_pos {n : CInt} (h : 0 < n.toInt) : ∃ k, 0 < k ∧ k < 2 ^ 31 ∧ n = BitVec.ofNat 32 k := by
  refine ⟨n.toNat, ?_, ?_, by simp⟩
  · by_contra h0
    have hz : n = 0#32 := BitVec.eq_of_toNat_eq (by simpa using h0)
    rw [hz] at h
    simp at h
  · have hlt := n.isLt
    rw [BitVec.toInt_eq_toNat_cond] at h
    split at h <;> omega

theorem quiet_act_cmds (bank : Bank) (rows : List CInt) : ∀ c ∈ rows.flatMap (act_cmds bank), quiet c = true := by
  intro c hc
  simp only [act_cmds, List.mem_flatMap, List.mem_cons, List.not_mem_nil, or_false] at hc
  obtain ⟨x, -, rfl | rfl⟩ := hc <;> rfl

theorem refresh_all_rows_performed {bank num_rows : CInt} (hp : DCT.refresh_all_rows bank num_rows = some p)
    (hs : 0 < num_rows.toInt) :
    ∃ b' es, Halts (p.get_inst_seq.map (isa signed told).act) 0 b es b' ∧
      (refresh_all_rows bank num_rows).Performed signed b es b' := by
  obtain ⟨n, hpos, hn, rfl⟩ := count_of_pos hs
  obtain ⟨p', hp', -, b', es, hh, rfl⟩ := refresh_all_rows_run bank hpos hn signed told b
  obtain rfl := Option.some.inj (hp.symm.trans hp')
  refine ⟨b', _, hh, performed_quiet hh ?_ rfl rfl⟩
  exact List.forall_mem_append.2 ⟨quiet_act_cmds _ _, by simp [quiet]⟩

theorem hammer_performed {r : Request} {s' : Board × Nat} {bank : Bank} {xs : List Hit}
    (hh : Halts (p.get_inst_seq.map (timed signed told).act) 0 (b, 0) (xs.flatMap (Hit.cmds bank)) s')
    (hputs : r.puts signed = []) (hrows : r.rows_read signed = []) :
    ∃ b' es, Halts (p.get_inst_seq.map (isa signed told).act) 0 b es b' ∧ r.Performed signed b es b' := by
  have hrun := halts_project hh
  rw [map_snd_hits] at hrun
  exact ⟨_, _, hrun, performed_quiet hrun (quiet_act_cmds _ _) hputs hrows⟩

theorem singleside_hammer_performed {bank aggr_id hammer_count nAggON nAggOFF : CInt}
    (hp : DCT.singleside_hammer bank aggr_id hammer_count nAggON nAggOFF = some p)
    (hs : (singleside_hammer bank aggr_id hammer_count nAggON nAggOFF).Served) :
    ∃ b' es, Halts (p.get_inst_seq.map (isa signed told).act) 0 b es b' ∧
      (singleside_hammer bank aggr_id hammer_count nAggON nAggOFF).Performed signed b es b' := by
  obtain ⟨hcount, hon, hoff⟩ := hs
  obtain ⟨n, hpos, hn, rfl⟩ := count_of_pos hcount
  obtain ⟨p', hp', -, hrun⟩ := singleside_hammer_run bank aggr_id hpos hn hon hoff
  obtain rfl := Option.some.inj (hp.symm.trans hp')
  obtain ⟨s', es, hh, rfl⟩ := hrun signed told b 0
  exact hammer_performed signed b hh rfl rfl

theorem doubleside_hammer_performed {bank aggr1_id aggr2_id hammer_count nAggON1 nAggOFF1 nAggON2 nAggOFF2 : CInt}
    (hp : DCT.doubleside_hammer bank aggr1_id aggr2_id hammer_count nAggON1 nAggOFF1 nAggON2 nAggOFF2 = some p)
    (hs : (doubleside_hammer bank aggr1_id aggr2_id hammer_count nAggON1 nAggOFF1 nAggON2 nAggOFF2).Served) :
    ∃ b' es, Halts (p.get_inst_seq.map (isa signed told).act) 0 b es b' ∧
      (doubleside_hammer bank aggr1_id aggr2_id hammer_count nAggON1 nAggOFF1 nAggON2 nAggOFF2).Performed signed b es b' := by
  obtain ⟨hcount, ⟨hon1, hoff1⟩, hon2, hoff2⟩ := hs
  obtain ⟨n, hpos, hn, rfl⟩ := count_of_pos hcount
  obtain ⟨p', hp', -, hrun⟩ := doubleside_hammer_run bank aggr1_id aggr2_id hpos hn hon1 hoff1 hon2 hoff2
  obtain rfl := Option.some.inj (hp.symm.trans hp')
  obtain ⟨s', es, hh, rfl⟩ := hrun signed told b 0
  exact hammer_performed signed b hh rfl rfl

theorem multirow_act_quiet {r : Request} {bank rowA rowB nT1 nT2 : CInt} (hp : DCT.multirow_act bank rowA rowB nT1 nT2 = some p)
    (hputs : r.puts signed = []) (hrows : r.rows_read signed = []) :
    ∃ b' es, Halts (p.get_inst_seq.map (isa signed told).act) 0 b es b' ∧ r.Performed signed b es b' := by
  obtain ⟨b', t', hh, -⟩ := multirow_act_run hp signed told b 0
  have hrun := halts_project hh
  exact ⟨_, _, hrun, performed_quiet hrun (by simp [two_openings, quiet]) hputs hrows⟩

@[simp] theorem readback_nil : readback [] = [] := rfl

theorem readback_append (cs cs' : List Cmd) : readback (cs ++ cs') = readback cs ++ readback cs' := List.flatMap_append

theorem readback_cons (c : Cmd) (cs : List Cmd) : readback (c :: cs) = returned c ++ readback cs := List.flatMap_cons

theorem readback_reads (bank : Bank) (f : CInt → Line) (cols : List CInt) :
    readback (cols.map fun col => .RD bank col false (f col)) = row_words f cols := by
  rw [readback, List.flatMap_map]
  rfl

theorem readback_silent {cs : List Cmd} (h : ∀ c ∈ cs, returned c = []) : readback cs = [] := List.flatMap_eq_nil_iff.2 h

theorem readback_writes (bank : Bank) (cols : List CInt) (line : Line) :
    readback (cols.map fun col => .WR bank col false line) = [] :=
  readback_silent (List.forall_mem_map.2 fun _ _ => rfl)

theorem row_words_put_row (bank : Bank) (cols : List CInt) (cells : Cells) (row_id : CInt) (line : Line) :
    row_words (put_row bank cols cells row_id line bank row_id) cols = row_words (fun _ => line) cols := by
  refine List.flatMap_congr fun col hcol => ?_
  rw [put_row, if_pos ⟨rfl, rfl, hcol⟩]

theorem frac_performed {bank row_id : CInt} {wr_word : WriteWord_t} {Tfrac1 Tfrac2 num_fracs : CInt}
    (hp : DCT.frac bank row_id wr_word Tfrac1 Tfrac2 num_fracs = some p) :
    ∃ b' es, Halts (p.get_inst_seq.map (isa signed told).act) 0 b es b' ∧
      (frac bank row_id wr_word Tfrac1 Tfrac2 num_fracs).Performed signed b es b' := by
  obtain ⟨b', t', hh, hdram⟩ := frac_run hp signed told b 0
  refine ⟨b', _, halts_project hh, ?_, hdram, ?_⟩
  · simp [frac_trace, frac_openings, map_snd_every_other]
  · have hopenings : readback ((frac_openings (false, bank) row_id Tfrac1.toInt.toNat Tfrac2.toInt.toNat num_fracs.toInt.toNat
        (4 * (0 + 305))).map Prod.snd) = [] := by
      apply readback_silent
      intro c hc
      obtain ⟨x, hx, rfl⟩ := List.mem_map.1 hc
      obtain ⟨i, -, rfl | rfl⟩ := mem_frac_openings hx <;> rfl
    have hwords : (frac bank row_id wr_word Tfrac1 Tfrac2 num_fracs).words signed b.dram =
        row_words (fun _ _ => wr_word) (columns 0 128) := by
      change List.flatMap _ [row_id] = _
      rw [List.flatMap_singleton]
      exact row_words_put_row ..
    rw [hwords, frac_trace]
    simp only [List.map_cons, List.map_append, map_snd_every_other, readback_cons, readback_append, readback_writes, hopenings,
      readback_reads, readback_nil, returned, List.nil_append, List.append_nil, List.map_nil]

theorem tWR_test_performed {bank row_id col_id : CInt} {wr_word : WriteWord_t} {tWR : CInt}
    (hp : DCT.tWR_test bank row_id col_id wr_word tWR = some p) :
    ∃ b' es, Halts (p.get_inst_seq.map (isa signed told).act) 0 b es b' ∧
      (tWR_test bank row_id col_id wr_word tWR).Performed signed b es b' := by
  obtain ⟨b', t', hh, hdram⟩ := tWR_test_run hp signed told b 0
  refine ⟨b', _, halts_project hh, ?_, hdram, ?_⟩
  · simp [tWR_trace, map_snd_every_other]
  · have hwords : (tWR_test bank row_id col_id wr_word tWR).words signed b.dram =
        row_words (tWR_line col_id wr_word) (columns 0 128) := by
      have heffect : (tWR_test bank row_id col_id wr_word tWR).effect signed b.dram = put_row (false, bank) [col_id * 8]
          (put_row (false, bank) (columns 0 128) b.dram row_id fun _ => wr_word) row_id fun _ => ~~~wr_word := rfl
      have hreads := congrArg readback (reads_tWR (false, bank) b.dram row_id col_id wr_word)
      rw [readback_reads, readback_reads, ← heffect] at hreads
      change List.flatMap _ [row_id] = _
      rw [List.flatMap_singleton]
      exact hreads
    rw [hwords, tWR_trace]
    simp only [List.map_cons, List.map_append, map_snd_every_other, readback_cons, readback_append, readback_writes,
      readback_reads, readback_nil, returned, List.nil_append, List.append_nil, List.map_nil]

/-- Every program generated for a request ends and does what the request is
for, from any state of the board. -/
theorem told_run {r : Request} (hp : r.program = some p) (hx : Platform.Executable p) (hs : r.Served) :
    ∃ b' es, Halts (p.get_inst_seq.map (isa signed told).act) 0 b es b' ∧ r.Performed signed b es b' := by
  cases r with
  | init_row => exact init_row_performed signed b hp
  | init_rows => exact init_rows_performed signed b hp hx hs
  | init_row_range => exact init_row_range_performed signed b hp hx
  | read_row => exact read_row_performed signed b hp
  | read_rows => exact read_rows_performed signed b hp hx hs
  | read_row_range => exact read_row_range_performed signed b hp hx
  | act_row => exact act_row_performed signed b hp
  | act_rows => exact act_rows_performed signed b hp hx hs
  | refresh_all_rows => exact refresh_all_rows_performed signed b hp hs
  | singleside_hammer => exact singleside_hammer_performed signed b hp hs
  | doubleside_hammer => exact doubleside_hammer_performed signed b hp hs
  | rowclone => exact multirow_act_quiet signed b ((rowclone_eq ..).symm.trans hp) rfl rfl
  | multirow_act => exact multirow_act_quiet signed b hp rfl rfl
  | tWR_test => exact tWR_test_performed signed b hp
  | frac => exact frac_performed signed b hp

end Request

/-- Whatever the words nothing is said about do. -/
theorem Request.run {r : Request} {p : Program} (hp : r.program = some p) (hx : Platform.Executable p) (hs : r.Served)
    (signed : Bool) (b : Board) :
    ∃ b' es, (∀ other, Halts (p.get_inst_seq.map (isa signed other).act) 0 b es b') ∧
      b'.dram = r.effect signed b.dram ∧ readback es = r.words signed b.dram := by
  obtain ⟨b', es, hh, hr⟩ := told_run signed b hp hx hs
  obtain ⟨b2, hall, -⟩ := halts_device hr.no_refresh ⟨b', hh⟩
  obtain ⟨-, rfl⟩ := hh.det (hall told)
  exact ⟨b', es, hall, hr.effect, hr.words⟩

end DCT
