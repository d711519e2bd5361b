import Mathlib
import DramBender.Announcements
import DramBender.Requests
/-!
# Reads of generated programs

The generators put every label where no DDR words go on behind a branch to it
that would read: in front of a label stands no DDR word, or the DDR words behind
it read nothing. So all reads of a generated program are announced
(`generated_announces`).
-/

namespace DCT

open DRAMBender Machine Segment
open Program (Block listing loop build ended words)
open Call (add_inst)
open ReservedReg

/-! ## Blocks and loops -/

/-- A program without branches. -/
theorem announces_block {cs : List Call} {p : Program} (hp : DCT.generate cs = some p) (h : Block cs)
    (hlen : p.program.length < 524288) : Announces p.program := by
  have hl := Program.linkable_build h.made
  refine Program.announces_of_enters hl (Program.crafted_build h.made) hp hlen fun b tgt n _ hb => ?_
  rw [h.branch_none] at hb
  cases hb

/-- The DDR words behind a loop's label do not go on from DDR words in front of
it, or read nothing. -/
def ReadsApart (ms ns : List Mnemonic) : Prop :=
  (∃ m, ms.getLast? = some m ∧ m.isDdr = false) ∨
    ∃ as m bs, ns = as ++ m :: bs ∧ m.isDdr = false ∧ ∀ a ∈ as, a.reads = 0

section
variable {pre body post : List Call} {rs1 rs2 : CInt} {tgt : String} {p : Program} {ms ns qs : List Mnemonic}

/-- The words of a loop, as they are printed. -/
theorem decode_loop (post : List Call) (rs1 rs2 : CInt) (tgt : String) (hpre : Spells pre ms) (hbody : Spells body ns) :
    ∃ rest, (ended (build (loop pre body post rs1 rs2 tgt))).map decode_inst = ms ++ (ns ++ rest) := by
  refine ⟨((Program.emitted (place_holder .BL rs1 rs2) ++ words [] post) ++ [SMC_END]).map decode_inst, ?_⟩
  rw [ended, Program.build_program, Program.words_loop hpre.block hbody.block, List.append_assoc, List.append_assoc,
    List.map_append, List.map_append, ← hpre.listing, ← hbody.listing]
  rfl

theorem announces_loop (hp : DCT.generate (loop pre body post rs1 rs2 tgt) = some p) (hpre : Spells pre ms)
    (hbody : Spells body ns) (hpost : Spells post qs) (h1 : rs1 < 16) (h2 : rs2 < 16) (h : ReadsApart ms ns)
    (hlen : p.program.length < 524288) : Announces p.program := by
  have hmade : ∀ c ∈ loop pre body post rs1 rs2 tgt, c.WellMade := Program.loop_made hpre.block hbody.block hpost.block h1 h2
  have hlabelled : Program.Labelled (loop pre body post rs1 rs2 tgt) :=
    Program.loop_labelled hpre.block hbody.block hpost.block
  refine Program.announces_of_enters (Program.linkable_build hmade) (Program.crafted_build hmade) hp hlen ?_
  intro b tgt' n _ hb hpos hat hruns hmax
  obtain ⟨rest, hdecode⟩ := decode_loop post rs1 rs2 tgt hpre hbody
  have hword : ∀ i : Nat, ((ended (build (loop pre body post rs1 rs2 tgt)))[i]?).map decode_inst = (ms ++ (ns ++ rest))[i]? := by
    intro i
    rw [← hdecode, List.getElem?_map]
  -- the only label is the loop's
  have hlabel : (build (loop pre body post rs1 rs2 tgt)).labels.getD tgt' 0 = ms.length := by
    rw [Program.labels_getD hmade hlabelled hb]
    rw [Program.branches_loop hpre.block hbody.block hpost.block] at hb
    have htgt : tgt' = tgt := by
      rw [Std.ExtTreeMap.getElem?_insert] at hb
      split at hb
      · exact (Option.some.inj hb).symm
      · cases hb
    rw [htgt, Program.label_pc_loop hpre.block, hpre.listing]
  rw [hlabel] at hpos hat hruns hmax ⊢
  rcases h with ⟨m, hlast, hno⟩ | ⟨as, m, bs, rfl, hm, has⟩
  · obtain ⟨w, hw, hd⟩ := hat
    have hget := hword (ms.length - 1)
    rw [hw, Option.map_some, List.getElem?_append_left (by omega), ← List.getLast?_eq_getElem?, hlast] at hget
    have hwm : decode_inst w = m := Option.some.inj hget
    rw [isDdrWord, hwm, hno] at hd
    cases hd
  · -- the DDR words end before `m`
    have hn : n ≤ as.length := by
      by_contra hlt
      obtain ⟨w, hw, hd⟩ := hruns (ms.length + as.length) (by omega) (by omega)
      have hget := hword (ms.length + as.length)
      rw [hw, Option.map_some, List.getElem?_append_right (by omega), Nat.add_sub_cancel_left, List.append_assoc,
        List.getElem?_append_right le_rfl, Nat.sub_self] at hget
      have hwm : decode_inst w = m := Option.some.inj hget
      rw [isDdrWord, hwm, hm] at hd
      cases hd
    refine .inl ((total_eq_zero_iff).2 fun i hi hin => ?_)
    have hget := hword i
    rw [List.getElem?_append_right hi, List.append_assoc, List.getElem?_append_left (by omega)] at hget
    have hmap : ∀ o : Option Inst, (o.map fun w => (decode_inst w).reads) = (o.map decode_inst).map Mnemonic.reads := by
      intro o
      cases o <;> rfl
    rw [hmap, hget]
    cases ha : as[i - ms.length]? with
    | none => rfl
    | some a => exact has a (List.mem_of_getElem? ha)

end

/-! ## The generators -/

theorem spells_of_sleep_above_one {step n : CInt} {cs : List Call} (h : sleep_above_one step n = some cs) : ∃ ms, Spells cs ms := by
  unfold sleep_above_one at h
  split at h
  · exact ⟨_, spells_sleep h⟩
  · cases h
    exact ⟨_, spells_nil⟩

theorem reads_writes (n : Nat) : ∀ m ∈ writes n, m.reads = 0 := by
  intro m hm
  obtain ⟨k, -, hm⟩ := List.mem_flatMap.1 hm
  rcases List.mem_cons.1 hm with rfl | hm
  · rfl
  · rw [List.mem_singleton.1 hm]
    rfl

/-- A generated program announces its READs: whatever the registers hold, words
with 1 to 1024 of them that control comes to have an INFO in front of them. -/
theorem generated_announces (r : Request) {p : Program} (hp : r.program = some p) (hx : Platform.Executable p) :
    Announces p.program := by
  have hlen : p.program.length < 524288 := lt_of_le_of_lt hx.2 (by decide)
  cases r with
  | init_row bank row_id wr_pattern =>
    replace hp : DCT.init_row bank row_id wr_pattern = some p := hp
    unfold DCT.init_row at hp
    obtain ⟨sleep4, hs4, h⟩ := Option.bind_eq_some_iff.1 hp
    have hclose : Spells [ddr (SMC_PRE BAR 0 0), nops, nops] [only (.PRE 4 false false false), NOPS, NOPS] :=
      spells_pieces _ (by simp) (by simp)
    exact announces_block h (((spells_write_row bank row_id wr_pattern).append (spells_sleep hs4)).append hclose).block hlen
  | init_rows bank row_ids wr_words =>
    have hle := init_rows_words hp
    replace hp : DCT.init_rows bank row_ids wr_words = some p := hp
    unfold DCT.init_rows at hp
    obtain ⟨u, -, h⟩ := Option.bind_eq_some_iff.1 hp
    obtain ⟨sleep3, hs3, h⟩ := Option.bind_eq_some_iff.1 h
    refine announces_loop h (spells_write_start bank hle) (spells_write_pass hs3) spells_nil (by decide) (by decide) ?_ hlen
    exact .inl ⟨.LI 8#4 0#32, by rw [List.getLast?_append_of_ne_nil _ (by simp)]; rfl, rfl⟩
  | init_row_range bank start_row end_row wr_pattern =>
    replace hp : DCT.init_row_range bank start_row end_row wr_pattern = some p := hp
    unfold DCT.init_row_range at hp
    obtain ⟨sleep4, hs4, h⟩ := Option.bind_eq_some_iff.1 hp
    refine announces_loop h (spells_write_range_start bank start_row end_row wr_pattern) (spells_write_range_pass hs4) spells_nil
      (by decide) (by decide) ?_ hlen
    -- the writes of a row end with a SLEEP
    refine .inr ⟨[only (.ACT 4 false 5 false false), NOPS, NOPS] ++ writes 128, .SLEEP (4 - 2),
      [only (.PRE 4 false false false), NOPS, .ADDI 5#4 5#4 1#16], ?_, rfl, ?_⟩
    · rw [List.append_assoc]
      rfl
    · exact List.forall_mem_append.2 ⟨by decide, reads_writes 128⟩
  | read_row bank row_id =>
    replace hp : DCT.read_row bank row_id = some p := hp
    unfold DCT.read_row at hp
    obtain ⟨sleep4, hs4, h⟩ := Option.bind_eq_some_iff.1 hp
    obtain ⟨sleep3, hs3, h⟩ := Option.bind_eq_some_iff.1 h
    exact announces_block h (spells_read_row bank row_id hs4 hs3).block hlen
  | read_rows bank row_ids =>
    have hlt := read_rows_length hp hx
    replace hp : DCT.read_rows bank row_ids = some p := hp
    unfold DCT.read_rows at hp
    obtain ⟨sleep3, hs3, h⟩ := Option.bind_eq_some_iff.1 hp
    exact announces_loop h (spells_read_start (by omega)) (spells_read_pass hs3) spells_nil (by decide) (by decide)
      (.inr ⟨[], .LD 5#4 8#4 0#16, _, rfl, rfl, by simp⟩) hlen
  | read_row_range bank start_row end_row =>
    replace hp : DCT.read_row_range bank start_row end_row = some p := hp
    unfold DCT.read_row_range at hp
    obtain ⟨sleep3, hs3, h⟩ := Option.bind_eq_some_iff.1 hp
    exact announces_loop h (spells_read_range_start bank start_row end_row hs3) (spells_read_range_pass hs3) spells_nil
      (by decide) (by decide) (.inl ⟨_, rfl, rfl⟩) hlen
  | act_row bank row_id nRAS nRP =>
    replace hp : DCT.act_row bank row_id nRAS nRP = some p := hp
    unfold DCT.act_row at hp
    obtain ⟨sleep3, hs3, h⟩ := Option.bind_eq_some_iff.1 hp
    exact announces_block h (spells_act_row bank row_id nRAS nRP hs3).block hlen
  | act_rows bank row_ids nRAS nRP =>
    have hlt := act_rows_length hp hx
    exact announces_loop hp (spells_visiting_start bank (by omega)) (spells_visiting_pass nRAS nRP) spells_nil (by decide)
      (by decide) (.inr ⟨[], .LD 5#4 8#4 0#16, _, rfl, rfl, by simp⟩) hlen
  | refresh_all_rows bank num_rows =>
    replace hp : DCT.refresh_all_rows bank num_rows = some p := hp
    unfold DCT.refresh_all_rows at hp
    obtain ⟨sleep6, hs6, h⟩ := Option.bind_eq_some_iff.1 hp
    obtain ⟨sleep3, hs3, h⟩ := Option.bind_eq_some_iff.1 h
    exact announces_loop h (spells_refresh_start bank num_rows hs6) spells_refresh_pass (spells_refresh_end hs3) (by decide)
      (by decide) (.inl ⟨_, rfl, rfl⟩) hlen
  | singleside_hammer bank aggr_id hammer_count nAggON nAggOFF =>
    replace hp : DCT.singleside_hammer bank aggr_id hammer_count nAggON nAggOFF = some p := hp
    unfold DCT.singleside_hammer at hp
    obtain ⟨sleepON, hON, h⟩ := Option.bind_eq_some_iff.1 hp
    obtain ⟨sleepOFF, hOFF, h⟩ := Option.bind_eq_some_iff.1 h
    obtain ⟨on, hon⟩ := spells_of_sleep_above_one hON
    obtain ⟨off, hoff⟩ := spells_of_sleep_above_one hOFF
    have hpre : Spells [ddr (SMC_PRE BAR 0 0), add_inst (SMC_ADDI (Last + 1) 1 (Last + 1))]
        [only (.PRE 4 false false false), .ADDI 8#4 8#4 1#16] := spells_pieces _ (by simp) (by simp)
    have hact : Spells [ddr_last (SMC_ACT BAR 0 RAR 0)] [only_last (.ACT 4 false 5 false false)] :=
      spells_pieces _ (by simp) (by simp)
    exact announces_loop h (spells_start bank aggr_id hammer_count) (((hon.append hpre).append hoff).append hact) spells_nil
      (by decide) (by decide) (.inl ⟨_, rfl, rfl⟩) hlen
  | doubleside_hammer bank aggr1_id aggr2_id hammer_count nAggON1 nAggOFF1 nAggON2 nAggOFF2 =>
    replace hp : DCT.doubleside_hammer bank aggr1_id aggr2_id hammer_count nAggON1 nAggOFF1 nAggON2 nAggOFF2 = some p := hp
    unfold DCT.doubleside_hammer at hp
    obtain ⟨sleepON1, hON1, h⟩ := Option.bind_eq_some_iff.1 hp
    obtain ⟨sleepOFF1, hOFF1, h⟩ := Option.bind_eq_some_iff.1 h
    obtain ⟨sleep5, hs5, h⟩ := Option.bind_eq_some_iff.1 h
    obtain ⟨sleepON2, hON2, h⟩ := Option.bind_eq_some_iff.1 h
    obtain ⟨sleepOFF2, hOFF2, h⟩ := Option.bind_eq_some_iff.1 h
    obtain ⟨on1, hon1⟩ := spells_of_sleep_above_one hON1
    obtain ⟨off1, hoff1⟩ := spells_of_sleep_above_one hOFF1
    obtain ⟨on2, hon2⟩ := spells_of_sleep_above_one hON2
    obtain ⟨off2, hoff2⟩ := spells_of_sleep_above_one hOFF2
    have hpre1 : Spells [ddr (SMC_PRE BAR 0 0), add_inst (SMC_LI aggr1_id RAR)]
        [only (.PRE 4 false false false), .LI 5#4 aggr1_id] := spells_pieces _ (by simp) (by simp)
    have hact1 : Spells [ddr_last (SMC_ACT BAR 0 RAR 0), add_inst (SMC_LI aggr2_id RAR)]
        [only_last (.ACT 4 false 5 false false), .LI 5#4 aggr2_id] := spells_pieces _ (by simp) (by simp)
    have hpre2 : Spells [ddr (SMC_PRE BAR 0 0), add_inst (SMC_ADDI (Last + 1) 1 (Last + 1))]
        [only (.PRE 4 false false false), .ADDI 8#4 8#4 1#16] := spells_pieces _ (by simp) (by simp)
    have hact2 : Spells [ddr_last (SMC_ACT BAR 0 RAR 0)] [only_last (.ACT 4 false 5 false false)] :=
      spells_pieces _ (by simp) (by simp)
    have hbody := ((((((((hon1.append hpre1).append hoff1).append hact1).append (spells_sleep hs5)).append hon2).append hpre2).append
      hoff2).append hact2)
    exact announces_loop h (spells_start bank aggr1_id hammer_count) hbody spells_nil (by decide) (by decide)
      (.inl ⟨_, rfl, rfl⟩) hlen
  | rowclone bank src_id dst_id nT1 =>
    replace hp : DCT.rowclone bank src_id dst_id nT1 = some p := hp
    unfold DCT.rowclone at hp
    obtain ⟨sleep3, hs3, h⟩ := Option.bind_eq_some_iff.1 hp
    exact announces_block h (spells_multirow_act bank src_id dst_id 24 nT1 hs3).block hlen
  | multirow_act bank rowA rowB nT1 nT2 =>
    replace hp : DCT.multirow_act bank rowA rowB nT1 nT2 = some p := hp
    unfold DCT.multirow_act at hp
    obtain ⟨sleep3, hs3, h⟩ := Option.bind_eq_some_iff.1 hp
    exact announces_block h (spells_multirow_act bank rowA rowB nT1 nT2 hs3).block hlen
  | tWR_test bank row_id col_id wr_word tWR =>
    replace hp : DCT.tWR_test bank row_id col_id wr_word tWR = some p := hp
    unfold DCT.tWR_test at hp
    obtain ⟨sleep4, hs4, h⟩ := Option.bind_eq_some_iff.1 hp
    obtain ⟨sleep3, hs3, h⟩ := Option.bind_eq_some_iff.1 h
    exact announces_block h (spells_tWR_test bank row_id col_id wr_word tWR.toInt hs4 hs3).block hlen
  | frac bank row_id wr_word Tfrac1 Tfrac2 num_fracs =>
    replace hp : DCT.frac bank row_id wr_word Tfrac1 Tfrac2 num_fracs = some p := hp
    unfold DCT.frac at hp
    obtain ⟨sleep4, hs4, h⟩ := Option.bind_eq_some_iff.1 hp
    obtain ⟨sleep3, hs3, h⟩ := Option.bind_eq_some_iff.1 h
    rw [← queue_calls_frac] at h
    exact announces_block h (spells_frac bank row_id wr_word Tfrac1.toInt Tfrac2.toInt _ hs4 hs3).block hlen

/-- The reads of two rows are announced. -/
theorem generated_announces_read_rows : ∃ p, read_rows 1 [5, 6] = some p ∧ Announces p.program := by
  obtain ⟨p, hp, hx⟩ : ∃ p, read_rows 1 [5, 6] = some p ∧ Platform.Executable p := read_rows_generates 1 (by simp)
  exact ⟨p, hp, generated_announces (.read_rows 1 [5, 6]) hp hx⟩

end DCT
