import Mathlib
import DramBender.Spacing
/-!
# The generators that violate no timing

Where a generator does not set out to violate a timing, its commands keep their
distances on every path: before its loop, in it, from one round to the next, and
behind it.
-/

namespace DCT

open DRAMBender Machine
open DRAMBender.Board
open Program (Piece Block listing loop)
open Call (add_inst)
open ReservedReg

/-- What a generator gives keeps its distances. -/
def Nominal (p : Program) : Prop := ∃ cs, generate cs = some p ∧ Spaced cs

section
variable {bank : CInt} {p : Program}

theorem nominal_block (a : Since) {cs : List Call} (hp : generate cs = some p) (h : Paces Since.top cs a) : Nominal p :=
  ⟨cs, hp, spaced_block h⟩

theorem nominal_loop (a1 a2 a3 : Since) {pre body post : List Call} {rs1 rs2 : CInt} {tgt : String}
    (hp : generate (loop pre body post rs1 rs2 tgt) = some p) (hx : Platform.Executable p) (h1 : rs1 < 16) (h2 : rs2 < 16)
    (hpre : Paces Since.top pre a1) (hbody : Paces a1 body a2) (hpost : Paces Since.top post a3) : Nominal p := by
  have hlen := length_before_loop hpre.block hbody.block hpost.block h1 h2 hp hx
  exact ⟨_, hp, spaced_loop hpre hbody hpost h1 h2 (by omega)⟩

/-! ## Writing rows -/

theorem init_row_nominal {row_id : CInt} {wr_pattern : WritePattern_t} (h : init_row bank row_id wr_pattern = some p) :
    Nominal p := by
  unfold init_row at h
  obtain ⟨sleep4, hs4, h⟩ := Option.bind_eq_some_iff.1 h
  refine nominal_block ⟨0, 0, 0⟩ h ?_
  simp only [List.append_assoc]
  apply (paces_pieces Since.top (by simp) (by simp)).append
  apply (paces_load_pattern wr_pattern le_rfl).append
  apply (paces_pieces column (by simp) (by simp)).append
  refine paces_write_columns.append ((paces_sleep ⟨0, 24, 0⟩ hs4 (by decide)).append ?_)
  exact paces_pieces _ (by simp) (by simp)

theorem init_rows_nominal {row_ids : List CInt} {wr_words : List WriteWord_t} (h : init_rows bank row_ids wr_words = some p)
    (hx : Platform.Executable p) : Nominal p := by
  unfold init_rows at h
  obtain ⟨-, -, h⟩ := Option.bind_eq_some_iff.1 h
  obtain ⟨sleep3, hs3, h⟩ := Option.bind_eq_some_iff.1 h
  refine nominal_loop ⟨0, 24, 24⟩ ⟨0, 0, 0⟩ _ h hx (by decide) (by decide) ?_ ?_ (paces_nil _)
  · simp only [List.append_assoc]
    apply (paces_pieces Since.top (by simp) (by simp)).append
    refine (paces_flatMap fun x _ => paces_pieces Since.top (by simp) (by simp)).append ?_
    exact paces_pieces _ (by simp) (by simp)
  · simp only [List.append_assoc]
    refine (paces_pieces ⟨16, 24, 24⟩ (by simp) (by simp)).append ((paces_load_word (by decide)).append ?_)
    apply (paces_pieces column (by simp) (by simp)).append
    refine paces_write_columns.append ((paces_sleep ⟨0, 24, 0⟩ hs3 (by decide)).append ?_)
    exact paces_pieces _ (by simp) (by simp)

theorem init_row_range_nominal {start_row end_row : CInt} {wr_pattern : WritePattern_t}
    (h : init_row_range bank start_row end_row wr_pattern = some p) (hx : Platform.Executable p) : Nominal p := by
  unfold init_row_range at h
  obtain ⟨sleep4, hs4, h⟩ := Option.bind_eq_some_iff.1 h
  refine nominal_loop ⟨10, 24, 24⟩ ⟨0, 0, 0⟩ _ h hx (by decide) (by decide) ?_ ?_ (paces_nil _)
  · simp only [List.append_assoc]
    refine (paces_pieces Since.top (by simp) (by simp)).append ((paces_load_pattern wr_pattern le_rfl).append ?_)
    exact paces_pieces _ (by simp) (by simp)
  · simp only [List.append_assoc]
    apply (paces_pieces column (by simp) (by simp)).append
    refine paces_write_columns.append ((paces_sleep ⟨0, 24, 0⟩ hs4 (by decide)).append ?_)
    exact paces_pieces _ (by simp) (by simp)

/-! ## Reading rows -/

theorem read_row_nominal {row_id : CInt} (h : read_row bank row_id = some p) : Nominal p := by
  unfold read_row at h
  obtain ⟨sleep4, hs4, h⟩ := Option.bind_eq_some_iff.1 h
  obtain ⟨sleep3, hs3, h⟩ := Option.bind_eq_some_iff.1 h
  refine nominal_block ⟨0, 0, 0⟩ h ?_
  simp only [List.append_assoc]
  apply (paces_pieces column (by simp) (by simp)).append
  refine paces_read_columns.append ((paces_sleep ⟨0, 24, 0⟩ hs4 (by decide)).append ?_)
  exact (paces_pieces ⟨0, 0, 0⟩ (by simp) (by simp)).append (paces_sleep _ hs3 (by decide))

theorem read_rows_nominal {row_ids : List CInt} (h : read_rows bank row_ids = some p) (hx : Platform.Executable p) :
    Nominal p := by
  have hlen := read_rows_length h hx
  unfold read_rows at h
  obtain ⟨sleep3, hs3, h⟩ := Option.bind_eq_some_iff.1 h
  refine nominal_loop ⟨10, 24, 24⟩ ⟨0, 0, 0⟩ _ h hx (by decide) (by decide) ?_ ?_ (paces_nil _)
  · simp only [List.append_assoc]
    apply (paces_pieces Since.top (by simp) (by simp)).append
    apply (paces_store_row_ids (by decide) (by decide) (by omega) le_rfl).append
    exact paces_pieces _ (by simp) (by simp)
  · simp only [List.append_assoc]
    apply (paces_pieces column (by simp) (by simp)).append
    refine paces_read_columns.append ((paces_sleep ⟨0, 24, 0⟩ hs3 (by decide)).append ?_)
    exact paces_pieces _ (by simp) (by simp)

theorem read_row_range_nominal {start_row end_row : CInt} (h : read_row_range bank start_row end_row = some p)
    (hx : Platform.Executable p) : Nominal p := by
  unfold read_row_range at h
  obtain ⟨sleep3, hs3, h⟩ := Option.bind_eq_some_iff.1 h
  refine nominal_loop ⟨10, 24, 24⟩ ⟨0, 0, 0⟩ _ h hx (by decide) (by decide) ?_ ?_ (paces_nil _)
  · exact (paces_pieces ⟨4, 24, 24⟩ (by simp) (by simp)).append (paces_sleep _ hs3 (by decide))
  · simp only [List.append_assoc]
    apply (paces_pieces column (by simp) (by simp)).append
    refine paces_read_columns.append ((paces_sleep ⟨0, 24, 0⟩ hs3 (by decide)).append ?_)
    exact paces_pieces _ (by simp) (by simp)

/-! ## Activating rows -/

theorem refresh_all_rows_nominal {num_rows : CInt} (h : refresh_all_rows bank num_rows = some p)
    (hx : Platform.Executable p) : Nominal p := by
  unfold refresh_all_rows at h
  obtain ⟨sleep6, hs6, h⟩ := Option.bind_eq_some_iff.1 h
  obtain ⟨sleep3, hs3, h⟩ := Option.bind_eq_some_iff.1 h
  refine nominal_loop ⟨0, 24, 0⟩ ⟨0, 0, 0⟩ ⟨0, 0, 0⟩ h hx (by decide) (by decide) ?_ ?_ ?_
  · exact (paces_pieces ⟨0, 1, 0⟩ (by simp) (by simp)).append (paces_sleep _ hs6 (by decide))
  · exact paces_pieces _ (by simp) (by simp)
  · exact (paces_pieces ⟨0, 0, 0⟩ (by simp) (by simp)).append (paces_sleep _ hs3 (by decide))

/-! ## Hammering -/

theorem singleside_hammer_nominal {aggr_id hammer_count nAggON nAggOFF : CInt}
    (h : singleside_hammer bank aggr_id hammer_count nAggON nAggOFF = some p) (hx : Platform.Executable p) : Nominal p := by
  unfold singleside_hammer at h
  obtain ⟨sleepON, hsON, h⟩ := Option.bind_eq_some_iff.1 h
  obtain ⟨sleepOFF, hsOFF, h⟩ := Option.bind_eq_some_iff.1 h
  refine nominal_loop Since.top ⟨0, 0, 0⟩ _ h hx (by decide) (by decide) (paces_pieces _ (by simp) (by simp))
    ?_ (paces_nil _)
  simp only [List.append_assoc]
  apply (paces_sleep_above_one hsON le_rfl).append
  refine (paces_pieces ⟨8, 24, 24⟩ (by simp) (by simp)).append ((paces_sleep_above_one hsOFF (by decide)).append ?_)
  exact paces_pieces _ (by simp) (by simp)

theorem doubleside_hammer_nominal {aggr1_id aggr2_id hammer_count nAggON1 nAggOFF1 nAggON2 nAggOFF2 : CInt}
    (h : doubleside_hammer bank aggr1_id aggr2_id hammer_count nAggON1 nAggOFF1 nAggON2 nAggOFF2 = some p)
    (hx : Platform.Executable p) : Nominal p := by
  unfold doubleside_hammer at h
  obtain ⟨sleepON1, hsON1, h⟩ := Option.bind_eq_some_iff.1 h
  obtain ⟨sleepOFF1, hsOFF1, h⟩ := Option.bind_eq_some_iff.1 h
  obtain ⟨sleep5, hs5, h⟩ := Option.bind_eq_some_iff.1 h
  obtain ⟨sleepON2, hsON2, h⟩ := Option.bind_eq_some_iff.1 h
  obtain ⟨sleepOFF2, hsOFF2, h⟩ := Option.bind_eq_some_iff.1 h
  refine nominal_loop Since.top ⟨0, 0, 0⟩ _ h hx (by decide) (by decide) (paces_pieces _ (by simp) (by simp))
    ?_ (paces_nil _)
  simp only [List.append_assoc]
  apply (paces_sleep_above_one hsON1 le_rfl).append
  refine (paces_pieces ⟨8, 24, 24⟩ (by simp) (by simp)).append ((paces_sleep_above_one hsOFF1 (by decide)).append ?_)
  refine (paces_pieces ⟨0, 5, 0⟩ (by simp) (by simp)).append ?_
  refine (paces_sleep ⟨0, 24, 0⟩ hs5 (by decide)).append ((paces_sleep_above_one hsON2 (by decide)).append ?_)
  refine (paces_pieces ⟨8, 0, 0⟩ (by simp) (by simp)).append ((paces_sleep_above_one hsOFF2 (by decide)).append ?_)
  exact paces_pieces _ (by simp) (by simp)

end

/-! ## Their runs -/

/-- A program of a generator that sets out to violate no timing. -/
inductive Conforming : Program → Prop
  | init_row {bank row_id : CInt} {wr_pattern : WritePattern_t} {p : Program} (h : init_row bank row_id wr_pattern = some p) :
    Conforming p
  | init_rows {bank : CInt} {row_ids : List CInt} {wr_words : List WriteWord_t} {p : Program}
    (h : init_rows bank row_ids wr_words = some p) : Conforming p
  | init_row_range {bank start_row end_row : CInt} {wr_pattern : WritePattern_t} {p : Program}
    (h : init_row_range bank start_row end_row wr_pattern = some p) : Conforming p
  | read_row {bank row_id : CInt} {p : Program} (h : read_row bank row_id = some p) : Conforming p
  | read_rows {bank : CInt} {row_ids : List CInt} {p : Program} (h : read_rows bank row_ids = some p) : Conforming p
  | read_row_range {bank start_row end_row : CInt} {p : Program} (h : read_row_range bank start_row end_row = some p) :
    Conforming p
  | refresh_all_rows {bank num_rows : CInt} {p : Program} (h : refresh_all_rows bank num_rows = some p) : Conforming p
  | singleside_hammer {bank aggr_id hammer_count nAggON nAggOFF : CInt} {p : Program}
    (h : singleside_hammer bank aggr_id hammer_count nAggON nAggOFF = some p) : Conforming p
  | doubleside_hammer {bank aggr1_id aggr2_id hammer_count nAggON1 nAggOFF1 nAggON2 nAggOFF2 : CInt} {p : Program}
    (h : doubleside_hammer bank aggr1_id aggr2_id hammer_count nAggON1 nAggOFF1 nAggON2 nAggOFF2 = some p) : Conforming p

theorem Conforming.nominal {p : Program} (h : Conforming p) (hx : Platform.Executable p) : Nominal p := by
  cases h with
  | init_row h => exact init_row_nominal h
  | init_rows h => exact init_rows_nominal h hx
  | init_row_range h => exact init_row_range_nominal h hx
  | read_row h => exact read_row_nominal h
  | read_rows h => exact read_rows_nominal h hx
  | read_row_range h => exact read_row_range_nominal h hx
  | refresh_all_rows h => exact refresh_all_rows_nominal h hx
  | singleside_hammer h => exact singleside_hammer_nominal h hx
  | doubleside_hammer h => exact doubleside_hammer_nominal h hx

/-- In every run, every command comes late enough after all the commands before
it, whatever an INFO costs. -/
theorem nominal_timings (info : Nat) (signed : Bool) (other : Mnemonic → Board → Board × List Cmd) {p : Program}
    (hg : Conforming p) (hx : Platform.Executable p) (s s' : Board × Nat) (es : List Stamped) (pc : Nat)
    (hs : Steps (p.get_inst_seq.map (paced info signed other)) 0 s es pc s') : es.Pairwise Apart := by
  obtain ⟨cs, hp, hspaced⟩ := hg.nominal hx
  exact hspaced.apart hp hx hs

/-- Hammering a row twice: 25 slots from the ACT to the PRE behind the branch,
11 from a PRE to the ACT. -/
theorem nominal_timings_twice : ∃ p es, singleside_hammer 1 5 2 1 1 = some p ∧ es.map Prod.fst = [16, 27, 52, 63] ∧
    (∃ pc s, Steps (p.get_inst_seq.map (paced 0 true fun _ b => (b, []))) 0 (.zero, 0) es pc s) ∧ es.Pairwise Apart := by
  obtain ⟨p, hp⟩ := Option.isSome_iff_exists.1 (show (singleside_hammer 1 5 2 1 1).isSome = true by decide)
  have hlen : (singleside_hammer 1 5 2 1 1).map (fun p => p.concluded && p.get_num_insts ≤ 2048) = some true := by decide
  have hes : (singleside_hammer 1 5 2 1 1).map (fun p =>
      (run (p.get_inst_seq.map (paced 0 true fun _ b => (b, []))) 20 0 (.zero, 0)).2.2.map Prod.fst) =
      some [16, 27, 52, 63] := by decide
  rw [hp, Option.map_some, Option.some.injEq] at hlen hes
  rw [Bool.and_eq_true, decide_eq_true_iff] at hlen
  have hrun := steps_run (p.get_inst_seq.map (paced 0 true fun _ b => (b, []))) 20 0 (.zero, 0)
  exact ⟨p, _, hp, hes, ⟨_, _, hrun⟩, nominal_timings 0 true _ (.singleside_hammer hp) hlen _ _ _ _ hrun⟩

end DCT
