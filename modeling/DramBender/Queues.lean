import Mathlib
import DramBender.BankProtocol
/-!
# Every queue of generated programs keeps to the bank protocol

What each generator gives follows one bank: its calls close the bank before they
open it, and the end of its loop knows at least as much as the beginning.
-/

namespace DCT

open DRAMBender Machine
open Program (Piece Block listing loop)
open Call (add_inst add_mininst)
open ReservedReg

/-! ## The generators -/

/-- What a generator gives follows one bank. -/
def Protocol (p : Program) : Prop := ∃ bank cs, generate cs = some p ∧ Follows bank cs

section
variable {bank : CInt} {p : Program} {a : Phase}

theorem carries_pieces {cs : List Call} (a' : Phase) (h : ∀ c ∈ cs, Piece c)
    (hf : (listing cs).foldlM (Phase.flow bank) a = some a') : Carries bank a cs a' := ⟨block_of_pieces h, hf⟩

theorem protocol_block (bank : CInt) {cs : List Call} (hp : generate cs = some p) (h : Carries bank .start cs a) : Protocol p :=
  ⟨bank, cs, hp, follows_block h⟩

theorem protocol_loop (bank : CInt) {pre body post : List Call} {rs1 rs2 : CInt} {tgt : String} {a1 a2 a3 : Phase}
    (hp : generate (loop pre body post rs1 rs2 tgt) = some p) (hx : Platform.Executable p) (h1 : rs1 < 16) (h2 : rs2 < 16)
    (hpre : Carries bank .start pre a1) (hbody : Carries bank a1 body a2) (hpost : Carries bank a2 post a3)
    (ha : a2 = a1 ∨ a1 = .unknown ∧ a2 ≠ .start) : Protocol p := by
  have hlen := length_before_loop hpre.block hbody.block hpost.block h1 h2 hp hx
  exact ⟨bank, _, hp, follows_loop hpre hbody hpost ha h1 h2 (by omega)⟩

theorem carries_act_and_harden (nRAS nRP : CInt) :
    Carries bank .closed (minprogram (act_and_harden nRAS nRP)) .closed := by
  have hact (n : Int) : Fills .closed [add_mininst (SMC_ACT BAR 0 RAR 0) n] .opened :=
    fills_mininst (.ACT BAR 0 RAR 0 0) n (by decide)
  have hpre (n : Int) : Fills .opened [add_mininst (SMC_PRE BAR 0 0) n] .closed :=
    fills_mininst (.PRE BAR 0 0 0) n (by decide)
  exact (((hact nRAS.toInt).append (hpre nRP.toInt)).append ((hact 24).append (hpre 0))).carries bank

/-! ### Writing rows -/

theorem init_row_protocol {row_id : CInt} {wr_pattern : WritePattern_t} (h : init_row bank row_id wr_pattern = some p) :
    Protocol p := by
  unfold init_row at h
  obtain ⟨sleep4, hs4, h⟩ := Option.bind_eq_some_iff.1 h
  apply protocol_block bank (a := .closed) h
  simp only [List.append_assoc]
  apply (carries_pieces .unknown (by simp) (by simp)).append
  apply (carries_load_pattern wr_pattern).append
  apply (carries_pieces .opened (by simp) (by simp [Phase.ddr])).append
  refine carries_write_columns.append ((carries_sleep hs4).append ?_)
  exact carries_pieces .closed (by simp) (by simp [Phase.ddr])

theorem init_rows_protocol {row_ids : List CInt} {wr_words : List WriteWord_t} (h : init_rows bank row_ids wr_words = some p)
    (hx : Platform.Executable p) : Protocol p := by
  unfold init_rows at h
  obtain ⟨-, -, h⟩ := Option.bind_eq_some_iff.1 h
  obtain ⟨sleep3, hs3, h⟩ := Option.bind_eq_some_iff.1 h
  refine protocol_loop bank h hx (by decide) (by decide) ?_ ?_ (carries_nil bank .closed) (.inl rfl)
  · simp only [List.append_assoc]
    apply (carries_pieces .start (by simp) (by simp)).append
    refine (carries_flatMap fun x _ => carries_pieces .start (by simp) (by simp)).append ?_
    exact carries_pieces .closed (by simp) (by simp [Phase.ddr])
  · simp only [List.append_assoc]
    refine (carries_pieces .closed (by simp) (by simp)).append (carries_load_word.append ?_)
    apply (carries_pieces .opened (by simp) (by simp [Phase.ddr])).append
    refine carries_write_columns.append ((carries_sleep hs3).append ?_)
    exact carries_pieces .closed (by simp) (by simp [Phase.ddr])

theorem init_row_range_protocol {start_row end_row : CInt} {wr_pattern : WritePattern_t}
    (h : init_row_range bank start_row end_row wr_pattern = some p) (hx : Platform.Executable p) : Protocol p := by
  unfold init_row_range at h
  obtain ⟨sleep4, hs4, h⟩ := Option.bind_eq_some_iff.1 h
  refine protocol_loop bank h hx (by decide) (by decide) ?_ ?_ (carries_nil bank .closed) (.inl rfl)
  · simp only [List.append_assoc]
    refine (carries_pieces .unknown (by simp) (by simp)).append ((carries_load_pattern wr_pattern).append ?_)
    exact carries_pieces .closed (by simp) (by simp [Phase.ddr])
  · simp only [List.append_assoc]
    apply (carries_pieces .opened (by simp) (by simp [Phase.ddr])).append
    refine carries_write_columns.append ((carries_sleep hs4).append ?_)
    exact carries_pieces .closed (by simp) (by simp [Phase.ddr])

/-! ### Reading rows -/

theorem read_row_protocol {row_id : CInt} (h : read_row bank row_id = some p) : Protocol p := by
  unfold read_row at h
  obtain ⟨sleep4, hs4, h⟩ := Option.bind_eq_some_iff.1 h
  obtain ⟨sleep3, hs3, h⟩ := Option.bind_eq_some_iff.1 h
  apply protocol_block bank (a := .closed) h
  simp only [List.append_assoc]
  apply (carries_pieces .opened (by simp) (by simp [Phase.ddr])).append
  refine carries_read_columns.append ((carries_sleep hs4).append ?_)
  exact (carries_pieces .closed (by simp) (by simp [Phase.ddr])).append (carries_sleep hs3)

theorem read_rows_protocol {row_ids : List CInt} (h : read_rows bank row_ids = some p) (hx : Platform.Executable p) :
    Protocol p := by
  have hlen := read_rows_length h hx
  unfold read_rows at h
  obtain ⟨sleep3, hs3, h⟩ := Option.bind_eq_some_iff.1 h
  refine protocol_loop bank h hx (by decide) (by decide) ?_ ?_ (carries_nil bank .closed) (.inl rfl)
  · simp only [List.append_assoc]
    apply (carries_pieces .start (by simp) (by simp)).append
    apply (carries_store_row_ids (by decide) (by decide) (by decide) (by omega)).append
    exact carries_pieces .closed (by simp) (by simp [Phase.ddr])
  · simp only [List.append_assoc]
    apply (carries_pieces .opened (by simp) (by simp [Phase.ddr])).append
    refine carries_read_columns.append ((carries_sleep hs3).append ?_)
    exact carries_pieces .closed (by simp) (by simp [Phase.ddr])

theorem read_row_range_protocol {start_row end_row : CInt} (h : read_row_range bank start_row end_row = some p)
    (hx : Platform.Executable p) : Protocol p := by
  unfold read_row_range at h
  obtain ⟨sleep3, hs3, h⟩ := Option.bind_eq_some_iff.1 h
  refine protocol_loop bank h hx (by decide) (by decide) ?_ ?_ (carries_nil bank .closed) (.inl rfl)
  · exact (carries_pieces .closed (by simp) (by simp [Phase.ddr])).append (carries_sleep hs3)
  · simp only [List.append_assoc]
    apply (carries_pieces .opened (by simp) (by simp [Phase.ddr])).append
    refine carries_read_columns.append ((carries_sleep hs3).append ?_)
    exact carries_pieces .closed (by simp) (by simp [Phase.ddr])

/-! ### Activating rows -/

theorem act_row_protocol {row_id nRAS nRP : CInt} (h : act_row bank row_id nRAS nRP = some p) : Protocol p := by
  unfold act_row at h
  obtain ⟨sleep3, hs3, h⟩ := Option.bind_eq_some_iff.1 h
  apply protocol_block bank (a := .closed) h
  simp only [List.append_assoc]
  apply (carries_pieces .closed (by simp) (by simp [Phase.ddr])).append
  exact (carries_act_and_harden nRAS nRP).append (carries_sleep hs3)

theorem act_rows_protocol {row_ids : List CInt} {nRAS nRP : CInt} (h : act_rows bank row_ids nRAS nRP = some p)
    (hx : Platform.Executable p) : Protocol p := by
  have hlen := act_rows_length h hx
  unfold act_rows at h
  refine protocol_loop bank h hx (by decide) (by decide) ?_ ?_ (carries_nil bank .closed) (.inl rfl)
  · simp only [List.append_assoc]
    apply (carries_pieces .unknown (by simp) (by simp)).append
    apply (carries_store_row_ids (by decide) (by decide) (by decide) (by omega)).append
    exact carries_pieces .closed (by simp) (by simp [Phase.ddr])
  · simp only [List.append_assoc]
    refine (carries_pieces .closed (by simp) (by simp)).append ((carries_act_and_harden nRAS nRP).append ?_)
    exact carries_pieces .closed (by simp) (by simp)

theorem refresh_all_rows_protocol {num_rows : CInt} (h : refresh_all_rows bank num_rows = some p)
    (hx : Platform.Executable p) : Protocol p := by
  unfold refresh_all_rows at h
  obtain ⟨sleep6, hs6, h⟩ := Option.bind_eq_some_iff.1 h
  obtain ⟨sleep3, hs3, h⟩ := Option.bind_eq_some_iff.1 h
  exact protocol_loop bank h hx (by decide) (by decide)
    ((carries_pieces .opened (by simp) (by simp [Phase.ddr])).append (carries_sleep hs6))
    (carries_pieces .opened (by simp) (by simp [Phase.ddr]))
    ((carries_pieces .closed (by simp) (by simp [Phase.ddr])).append (carries_sleep hs3)) (.inl rfl)

/-! ### Hammering -/

/-- The row is left open, and the loop begins by closing it. -/
theorem singleside_hammer_protocol {aggr_id hammer_count nAggON nAggOFF : CInt}
    (h : singleside_hammer bank aggr_id hammer_count nAggON nAggOFF = some p) (hx : Platform.Executable p) : Protocol p := by
  unfold singleside_hammer at h
  obtain ⟨sleepON, hsON, h⟩ := Option.bind_eq_some_iff.1 h
  obtain ⟨sleepOFF, hsOFF, h⟩ := Option.bind_eq_some_iff.1 h
  refine protocol_loop bank h hx (by decide) (by decide) (carries_pieces .unknown (by simp) (by simp)) ?_
    (carries_nil bank .opened) (.inr ⟨rfl, by decide⟩)
  simp only [List.append_assoc]
  refine (carries_sleep_above_one hsON).append ?_
  refine (carries_pieces .closed (by simp) (by simp [Phase.ddr])).append ((carries_sleep_above_one hsOFF).append ?_)
  exact carries_pieces .opened (by simp) (by simp [Phase.ddr])

theorem doubleside_hammer_protocol {aggr1_id aggr2_id hammer_count nAggON1 nAggOFF1 nAggON2 nAggOFF2 : CInt}
    (h : doubleside_hammer bank aggr1_id aggr2_id hammer_count nAggON1 nAggOFF1 nAggON2 nAggOFF2 = some p)
    (hx : Platform.Executable p) : Protocol p := by
  unfold doubleside_hammer at h
  obtain ⟨sleepON1, hsON1, h⟩ := Option.bind_eq_some_iff.1 h
  obtain ⟨sleepOFF1, hsOFF1, h⟩ := Option.bind_eq_some_iff.1 h
  obtain ⟨sleep5, hs5, h⟩ := Option.bind_eq_some_iff.1 h
  obtain ⟨sleepON2, hsON2, h⟩ := Option.bind_eq_some_iff.1 h
  obtain ⟨sleepOFF2, hsOFF2, h⟩ := Option.bind_eq_some_iff.1 h
  refine protocol_loop bank h hx (by decide) (by decide) (carries_pieces .unknown (by simp) (by simp)) ?_
    (carries_nil bank .opened) (.inr ⟨rfl, by decide⟩)
  simp only [List.append_assoc]
  refine (carries_sleep_above_one hsON1).append ?_
  refine (carries_pieces .closed (by simp) (by simp [Phase.ddr])).append ((carries_sleep_above_one hsOFF1).append ?_)
  apply (carries_pieces .opened (by simp) (by simp [Phase.ddr])).append
  refine (carries_sleep hs5).append ((carries_sleep_above_one hsON2).append ?_)
  refine (carries_pieces .closed (by simp) (by simp [Phase.ddr])).append ((carries_sleep_above_one hsOFF2).append ?_)
  exact carries_pieces .opened (by simp) (by simp [Phase.ddr])

/-! ### Timing violations -/

theorem fills_ACT (rar : CInt) (n : Int) (h : Phase.closed.ddr (decode_ddr (SMC_ACT BAR 0 rar 0)) = some .opened) :
    Fills .closed [add_mininst (SMC_ACT BAR 0 rar 0) n] .opened := fills_mininst (.ACT BAR 0 rar 0 0) n h

theorem fills_PRE (n : Int) : Fills .opened [add_mininst (SMC_PRE BAR 0 0) n] .closed :=
  fills_mininst (.PRE BAR 0 0 0) n (by decide)

theorem rowclone_protocol {src_id dst_id nT1 : CInt} (h : rowclone bank src_id dst_id nT1 = some p) : Protocol p := by
  unfold rowclone at h
  obtain ⟨sleep3, hs3, h⟩ := Option.bind_eq_some_iff.1 h
  have hclone := ((fills_ACT Last 24 (by decide)).append (fills_PRE nT1.toInt)).append
    ((fills_ACT (Last + 1) 24 (by decide)).append (fills_PRE 0))
  apply protocol_block bank (a := .closed) h
  simp only [List.append_assoc]
  apply (carries_pieces .closed (by simp) (by simp [Phase.ddr])).append
  exact (hclone.carries bank).append (carries_sleep hs3)

theorem tWR_test_protocol {row_id col_id : CInt} {wr_word : WriteWord_t} {tWR : CInt}
    (h : tWR_test bank row_id col_id wr_word tWR = some p) : Protocol p := by
  unfold tWR_test at h
  obtain ⟨sleep4, hs4, h⟩ := Option.bind_eq_some_iff.1 h
  obtain ⟨sleep3, hs3, h⟩ := Option.bind_eq_some_iff.1 h
  have hwrite : Fills .opened [add_mininst (SMC_WRITE BAR 0 CAR 0 0 0) tWR.toInt] .opened :=
    fills_mininst (.WRITE BAR 0 CAR 0 0 0) tWR.toInt (by decide)
  apply protocol_block bank (a := .closed) h
  simp only [List.append_assoc]
  refine (carries_pieces .unknown (by simp) (by simp)).append ((carries_load_pattern _).append ?_)
  refine (carries_pieces .opened (by simp) (by simp [Phase.ddr])).append (carries_write_columns.append ?_)
  refine (carries_pieces .opened (by simp) (by simp)).append ((carries_load_pattern _).append ?_)
  apply (carries_pieces .opened (by simp) (by simp [Phase.ddr])).append
  apply ((hwrite.append (fills_PRE 10)).carries bank).append
  apply (carries_pieces .opened (by simp) (by simp [Phase.ddr])).append
  refine carries_read_columns.append ((carries_sleep hs4).append ?_)
  exact (carries_pieces .closed (by simp) (by simp [Phase.ddr])).append (carries_sleep hs3)

theorem frac_protocol {row_id : CInt} {wr_word : WriteWord_t} {Tfrac1 Tfrac2 num_fracs : CInt}
    (h : frac bank row_id wr_word Tfrac1 Tfrac2 num_fracs = some p) : Protocol p := by
  unfold frac at h
  obtain ⟨sleep4, hs4, h⟩ := Option.bind_eq_some_iff.1 h
  obtain ⟨sleep3, hs3, h⟩ := Option.bind_eq_some_iff.1 h
  have hfracs := fills_flatMap (l := List.range num_fracs.toInt.toNat) fun _ _ =>
    (fills_ACT RAR Tfrac1.toInt (by decide)).append (fills_PRE Tfrac2.toInt)
  apply protocol_block bank (a := .closed) h
  simp only [List.append_assoc]
  refine (carries_pieces .unknown (by simp) (by simp)).append ((carries_load_pattern _).append ?_)
  apply (carries_pieces .opened (by simp) (by simp [Phase.ddr])).append
  refine carries_write_columns.append ((carries_sleep hs4).append ?_)
  refine (carries_pieces .closed (by simp) (by simp [Phase.ddr])).append ((hfracs.carries bank).append ?_)
  apply (carries_pieces .opened (by simp) (by simp [Phase.ddr])).append
  refine carries_read_columns.append ((carries_sleep hs4).append ?_)
  exact (carries_pieces .closed (by simp) (by simp [Phase.ddr])).append (carries_sleep hs3)

end

/-! ## Queues of programs -/

/-- A program some generator gives. -/
inductive Generated : Program → Prop
  | init_row {bank row_id : CInt} {wr_pattern : WritePattern_t} {p : Program} (h : init_row bank row_id wr_pattern = some p) :
    Generated p
  | init_rows {bank : CInt} {row_ids : List CInt} {wr_words : List WriteWord_t} {p : Program}
    (h : init_rows bank row_ids wr_words = some p) : Generated p
  | init_row_range {bank start_row end_row : CInt} {wr_pattern : WritePattern_t} {p : Program}
    (h : init_row_range bank start_row end_row wr_pattern = some p) : Generated p
  | read_row {bank row_id : CInt} {p : Program} (h : read_row bank row_id = some p) : Generated p
  | read_rows {bank : CInt} {row_ids : List CInt} {p : Program} (h : read_rows bank row_ids = some p) : Generated p
  | read_row_range {bank start_row end_row : CInt} {p : Program} (h : read_row_range bank start_row end_row = some p) :
    Generated p
  | act_row {bank row_id nRAS nRP : CInt} {p : Program} (h : act_row bank row_id nRAS nRP = some p) : Generated p
  | act_rows {bank : CInt} {row_ids : List CInt} {nRAS nRP : CInt} {p : Program}
    (h : act_rows bank row_ids nRAS nRP = some p) : Generated p
  | refresh_all_rows {bank num_rows : CInt} {p : Program} (h : refresh_all_rows bank num_rows = some p) : Generated p
  | singleside_hammer {bank aggr_id hammer_count nAggON nAggOFF : CInt} {p : Program}
    (h : singleside_hammer bank aggr_id hammer_count nAggON nAggOFF = some p) : Generated p
  | doubleside_hammer {bank aggr1_id aggr2_id hammer_count nAggON1 nAggOFF1 nAggON2 nAggOFF2 : CInt} {p : Program}
    (h : doubleside_hammer bank aggr1_id aggr2_id hammer_count nAggON1 nAggOFF1 nAggON2 nAggOFF2 = some p) : Generated p
  | rowclone {bank src_id dst_id nT1 : CInt} {p : Program} (h : rowclone bank src_id dst_id nT1 = some p) : Generated p
  | tWR_test {bank row_id col_id : CInt} {wr_word : WriteWord_t} {tWR : CInt} {p : Program}
    (h : tWR_test bank row_id col_id wr_word tWR = some p) : Generated p
  | frac {bank row_id : CInt} {wr_word : WriteWord_t} {Tfrac1 Tfrac2 num_fracs : CInt} {p : Program}
    (h : frac bank row_id wr_word Tfrac1 Tfrac2 num_fracs = some p) : Generated p

theorem Generated.protocol {p : Program} (h : Generated p) (hx : Platform.Executable p) : Protocol p := by
  cases h with
  | init_row h => exact init_row_protocol h
  | init_rows h => exact init_rows_protocol h hx
  | init_row_range h => exact init_row_range_protocol h hx
  | read_row h => exact read_row_protocol h
  | read_rows h => exact read_rows_protocol h hx
  | read_row_range h => exact read_row_range_protocol h hx
  | act_row h => exact act_row_protocol h
  | act_rows h => exact act_rows_protocol h hx
  | refresh_all_rows h => exact refresh_all_rows_protocol h hx
  | singleside_hammer h => exact singleside_hammer_protocol h hx
  | doubleside_hammer h => exact doubleside_hammer_protocol h hx
  | rowclone h => exact rowclone_protocol h
  | tWR_test h => exact tWR_test_protocol h
  | frac h => exact frac_protocol h

/-- Whatever the banks are before it, no queue of generated programs activates
an open bank, or reads or writes a closed one. -/
theorem queue_obeys_protocol {β : Type} [DecidableEq β] (phys : CInt → β) (signed : Bool)
    (other : Mnemonic → Board → Board × List Cmd) (prog_queue : List Program) (hg : ∀ p ∈ prog_queue, Generated p)
    (hx : ∀ p ∈ prog_queue, Platform.Executable p) (b : Board) (m : Banks β) (es : List Cmd)
    (h : (Board.isa signed other).QueueRun prog_queue b es) : Obeys phys m es := by
  induction h generalizing m with
  | nil b =>
    intro es1 c es2 he
    simp at he
  -- the last program, up to where it stands
  | @running p prog_queue b b' es pc hs =>
    obtain ⟨bank, cs, hp, hf⟩ := (hg p (by simp)).protocol (hx p (by simp))
    exact hf.obeys hp (hx p (by simp)) phys hs m
  | @halted p prog_queue b b' es es' hs _ ih =>
    obtain ⟨bank, cs, hp, hf⟩ := (hg p (by simp)).protocol (hx p (by simp))
    obtain ⟨pc, hs, -⟩ := hs
    apply (hf.obeys hp (hx p (by simp)) phys hs m).append phys
    exact ih (fun q hq => hg q (by simp [hq])) (fun q hq => hx q (by simp [hq])) _

/-- On a board with all banks open a row is hammered twice, which leaves it open,
and then another row of its bank is activated twice: nine commands. -/
theorem singleside_hammer_obeys : ∃ p q es, singleside_hammer 1 5 2 1 1 = some p ∧ act_row 1 9 24 9 = some q ∧
    es.length = 9 ∧ (Board.isa true fun _ b => (b, [])).QueueRun [p, q] .zero es ∧ Obeys id (fun _ => true) es := by
  let code : Program → List (Act Board Cmd) := fun p => p.get_inst_seq.map (Board.isa true fun _ b => (b, [])).act
  obtain ⟨p, hp⟩ := Option.isSome_iff_exists.1 (show (singleside_hammer 1 5 2 1 1).isSome = true by decide)
  obtain ⟨q, hq⟩ := Option.isSome_iff_exists.1 (show (act_row 1 9 24 9).isSome = true by decide)
  have hlenp : (singleside_hammer 1 5 2 1 1).map (fun p => p.concluded && p.get_num_insts ≤ 2048) = some true := by decide
  have hlenq : (act_row 1 9 24 9).map (fun q => q.concluded && q.get_num_insts ≤ 2048) = some true := by decide
  have hes : (singleside_hammer 1 5 2 1 1).bind (fun p => (act_row 1 9 24 9).map fun q =>
      (p.get_inst_seq[(run (code p) 20 0 .zero).1]?,
        ((run (code p) 20 0 .zero).2.2 ++ (run (code q) 40 0 (run (code p) 20 0 .zero).2.1).2.2).length)) =
      some (some SMC_END, 9) := by decide
  rw [hp, Option.map_some, Option.some.injEq, Bool.and_eq_true, decide_eq_true_iff] at hlenp
  rw [hq, Option.map_some, Option.some.injEq, Bool.and_eq_true, decide_eq_true_iff] at hlenq
  rw [hp, Option.bind_some, hq, Option.map_some, Option.some.injEq, Prod.mk.injEq] at hes
  obtain ⟨hend, hnine⟩ := hes
  have hhalt : (code p)[(run (code p) 20 0 .zero).1]? = some .halt := by
    rw [List.getElem?_map, hend]
    rfl
  have hrun : (Board.isa true fun _ b => (b, [])).QueueRun [p, q] .zero _ :=
    .halted ⟨_, steps_run (code p) 20 0 .zero, hhalt⟩ (.running (steps_run (code q) 40 0 _))
  refine ⟨p, q, _, hp, hq, hnine, hrun, ?_⟩
  refine queue_obeys_protocol id true _ [p, q] ?_ ?_ .zero _ _ hrun
  · rw [List.forall_mem_cons, List.forall_mem_singleton]
    exact ⟨.singleside_hammer hp, .act_row hq⟩
  · rw [List.forall_mem_cons, List.forall_mem_singleton]
    exact ⟨hlenp, hlenq⟩

end DCT
