import Mathlib
import DramBender.Generators
/-!
# What the generators' calls bring in

Each call the generators make is a `Piece`; its listing is the mnemonic of its
word.
-/

namespace DCT

open DRAMBender
open Program (Piece Block listing loop printed piece_inst piece_inst4 listing_cons listing_inst listing_inst4)
open Call (add_inst add_inst4 add_mininst pack_minprogram)
open ReservedReg

/-! ## Registers -/

@[simp] theorem regs_lt : CASR < 16#32 ∧ CAR < 16#32 ∧ BAR < 16#32 ∧ RAR < 16#32 ∧ PATTERN_REG < 16#32 ∧ Last < 16#32 ∧
    Last + 1#32 < 16#32 ∧ Last + 2#32 < 16#32 ∧ Last + 3#32 < 16#32 := by decide

@[simp] theorem regs_setWidth : CASR.setWidth 4 = 0#4 ∧ CAR.setWidth 4 = 3#4 ∧ BAR.setWidth 4 = 4#4 ∧
    RAR.setWidth 4 = 5#4 ∧ PATTERN_REG.setWidth 4 = 6#4 ∧ Last.setWidth 4 = 7#4 ∧ (Last + 1#32).setWidth 4 = 8#4 ∧
    (Last + 2#32).setWidth 4 = 9#4 ∧ (Last + 3#32).setWidth 4 = 10#4 := by decide

/-! ## Pieces -/

section
variable (rb rt imd : CInt)

@[simp] theorem piece_LI : Piece (add_inst (SMC_LI imd rt)) := piece_inst (.LI imd rt) rfl

@[simp] theorem piece_ADDI : Piece (add_inst (SMC_ADDI rb imd rt)) := piece_inst (.ADDI rb imd rt) rfl

@[simp] theorem piece_LD : Piece (add_inst (SMC_LD rb imd rt)) := piece_inst (.LD rb imd rt) rfl

@[simp] theorem piece_ST : Piece (add_inst (SMC_ST rb imd rt)) := piece_inst (.ST rb imd rt) rfl

@[simp] theorem piece_LDWD : Piece (add_inst (SMC_LDWD rb imd)) := piece_inst (.LDWD rb imd) rfl

theorem piece_SLEEP {samt : CInt} (h : 2 < samt) : Piece (add_inst (sleepWord samt)) := piece_inst (.SLEEP samt h) rfl

@[simp] theorem piece_nops : Piece nops := piece_inst (.pack (.NOP 0) (.NOP 0) (.NOP 0) (.NOP 0)) rfl

end

section
variable (bar ibar car icar rank ap : CInt)

@[simp] theorem piece_PRE : Piece (ddr (SMC_PRE bar ibar icar rank)) :=
  piece_inst4 (.PRE bar ibar icar rank) (.NOP 0) (.NOP 0) (.NOP 0)

@[simp] theorem piece_ACT : Piece (ddr (SMC_ACT bar ibar car icar rank)) :=
  piece_inst4 (.ACT bar ibar car icar rank) (.NOP 0) (.NOP 0) (.NOP 0)

@[simp] theorem piece_WRITE : Piece (ddr (SMC_WRITE bar ibar car icar rank ap)) :=
  piece_inst4 (.WRITE bar ibar car icar rank ap) (.NOP 0) (.NOP 0) (.NOP 0)

@[simp] theorem piece_READ : Piece (ddr (SMC_READ bar ibar car icar rank ap)) :=
  piece_inst4 (.READ bar ibar car icar rank ap) (.NOP 0) (.NOP 0) (.NOP 0)

@[simp] theorem piece_ACT_last : Piece (ddr_last (SMC_ACT bar ibar car icar rank)) :=
  piece_inst4 (.NOP 0) (.NOP 0) (.NOP 0) (.ACT bar ibar car icar rank)

end

/-- Calls that are pieces each. -/
theorem block_of_pieces {cs : List Call} (h : ∀ c ∈ cs, Piece c) : Block cs := by
  induction cs with
  | nil => exact .nil
  | cons c cs ih => exact .cons (h c (by simp)) (ih fun d hd => h d (by simp [hd]))

theorem pieces_flatMap {ι : Type} {l : List ι} {f : ι → List Call} (h : ∀ x, ∀ c ∈ f x, Piece c) :
    ∀ c ∈ l.flatMap f, Piece c := List.forall_mem_flatMap.2 fun x _ => h x

/-! ## Their listings -/

/-- A word with one command. -/
def only (d : Ddr) : Mnemonic := .DDR d (.NOP false) (.NOP false) (.NOP false)

/-- A word with a command in the last slot. -/
def only_last (d : Ddr) : Mnemonic := .DDR (.NOP false) (.NOP false) (.NOP false) d

/-- A word of NOPs. -/
def NOPS : Mnemonic := only (.NOP false)

/-- The operands of the loops over the pattern and over a list of rows fit. -/
theorem ofNat_lt_16 {i : Nat} (h : i < 16) : (BitVec.ofNat 32 i : CInt) < 16 := by bv_omega

theorem ofNat_lt_65536 {row_ids : List CInt} (hlen : row_ids.length ≤ 65536) {x : CInt × Nat} (hx : x ∈ row_ids.zipIdx) :
    (BitVec.ofNat 32 x.2 : CInt) < 65536 := by
  have hlt := List.snd_lt_of_mem_zipIdx hx
  bv_omega

@[simp] theorem listing_nil : listing [] = [] := rfl

section
variable {rb rt imd : CInt} (cs : List Call)

@[simp] theorem listing_LI (ht : rt < 16) : listing (add_inst (SMC_LI imd rt) :: cs) = .LI (rt.setWidth 4) imd :: listing cs := by
  rw [listing_cons (piece_LI rt imd), listing_inst, decode_SMC_LI imd ht]
  rfl

@[simp] theorem listing_ADDI (hb : rb < 16) (hi : imd < 65536) (ht : rt < 16) :
    listing (add_inst (SMC_ADDI rb imd rt) :: cs) =
      .ADDI (rt.setWidth 4) (rb.setWidth 4) (imd.setWidth 16) :: listing cs := by
  rw [listing_cons (piece_ADDI rb rt imd), listing_inst, decode_SMC_ADDI hb hi ht]
  rfl

@[simp] theorem listing_LD (hb : rb < 16) (hi : imd < 65536) (ht : rt < 16) :
    listing (add_inst (SMC_LD rb imd rt) :: cs) =
      .LD (rt.setWidth 4) (rb.setWidth 4) (imd.setWidth 16) :: NOPS :: listing cs := by
  rw [listing_cons (piece_LD rb rt imd), listing_inst, decode_SMC_LD hb hi ht]
  rfl

@[simp] theorem listing_ST (hb : rb < 16) (hi : imd < 65536) (ht : rt < 16) :
    listing (add_inst (SMC_ST rb imd rt) :: cs) =
      .ST (rb.setWidth 4) (imd.setWidth 16) (rt.setWidth 4) :: listing cs := by
  rw [listing_cons (piece_ST rb rt imd), listing_inst, decode_SMC_ST hb hi ht]
  rfl

@[simp] theorem listing_LDWD (hb : rb < 16) (hi : imd < 16) :
    listing (add_inst (SMC_LDWD rb imd) :: cs) = .LDWD (imd.setWidth 4) (rb.setWidth 4) :: listing cs := by
  rw [listing_cons (piece_LDWD rb imd), listing_inst, decode_SMC_LDWD hb hi]
  rfl

theorem listing_SLEEP {samt : CInt} (h : 2 < samt) :
    listing (add_inst (sleepWord samt) :: cs) = .SLEEP (samt - 2) :: listing cs := by
  rw [listing_cons (piece_SLEEP h), listing_inst, decode_sleepWord]
  rfl

@[simp] theorem listing_nops : listing (nops :: cs) = NOPS :: listing cs := by
  rw [listing_cons piece_nops, nops, listing_inst]
  rfl

theorem listing_ddr (m : Mini) (cs : List Call) : listing (ddr m.encode :: cs) = only (decode_ddr m.encode) :: listing cs := by
  have h : Piece (ddr m.encode) := piece_inst4 m (.NOP 0) (.NOP 0) (.NOP 0)
  rw [listing_cons h]
  exact congrArg (· ++ listing cs) (listing_inst4 m (.NOP 0) (.NOP 0) (.NOP 0))

@[simp] theorem listing_PRE : listing (ddr (SMC_PRE BAR 0#32 0#32 0#32) :: cs) = only (.PRE 4 false false false) :: listing cs :=
  listing_ddr (.PRE BAR 0 0 0) cs

@[simp] theorem listing_ACT : listing (ddr (SMC_ACT BAR 0#32 RAR 0#32 0#32) :: cs) = only (.ACT 4 false 5 false false) :: listing cs :=
  listing_ddr (.ACT BAR 0 RAR 0 0) cs

theorem listing_ddr_last (m : Mini) (cs : List Call) :
    listing (ddr_last m.encode :: cs) = only_last (decode_ddr m.encode) :: listing cs := by
  have h : Piece (ddr_last m.encode) := piece_inst4 (.NOP 0) (.NOP 0) (.NOP 0) m
  rw [listing_cons h]
  exact congrArg (· ++ listing cs) (listing_inst4 (.NOP 0) (.NOP 0) (.NOP 0) m)

@[simp] theorem listing_ACT_last :
    listing (ddr_last (SMC_ACT BAR 0#32 RAR 0#32 0#32) :: cs) = only_last (.ACT 4 false 5 false false) :: listing cs :=
  listing_ddr_last (.ACT BAR 0 RAR 0 0) cs

@[simp] theorem listing_WRITE :
    listing (ddr (SMC_WRITE BAR 0#32 CAR 1#32 0#32 0#32) :: cs) = only (.WR 4 false 3 true false false) :: listing cs :=
  listing_ddr (.WRITE BAR 0 CAR 1 0 0) cs

@[simp] theorem listing_READ :
    listing (ddr (SMC_READ BAR 0#32 CAR 1#32 0#32 0#32) :: cs) = only (.RD 4 false 3 true false false) :: listing cs :=
  listing_ddr (.READ BAR 0 CAR 1 0 0) cs

end

/-! ## Pieces that several generators share -/

theorem sleep_eq {samt : CInt} {cs : List Call} (h : sleep samt = some cs) : 2 < samt ∧ cs = [add_inst (sleepWord samt)] := by
  by_cases hs : 2 < samt
  · rw [sleep, SMC_SLEEP_eq hs, Option.map_some, Option.some.injEq] at h
    exact ⟨hs, h.symm⟩
  · rw [sleep, SMC_SLEEP, if_neg hs, Option.map_none] at h
    cases h

theorem sleep_above_one_eq {step n : CInt} {cs : List Call} (h : sleep_above_one step n = some cs) :
    cs = [] ∨ ∃ samt, 2 < samt ∧ cs = [add_inst (sleepWord samt)] := by
  unfold sleep_above_one at h
  split_ifs at h
  · exact .inr ⟨_, sleep_eq h⟩
  · exact .inl (Option.some.inj h).symm

theorem block_store_row_ids (ROW_PTR ROW_ADDR : CInt) (row_ids : List CInt) :
    Block (store_row_ids ROW_PTR ROW_ADDR row_ids) := block_of_pieces (pieces_flatMap (by simp))

/-- Every row address takes some words. -/
theorem length_store_row_ids (ROW_PTR : CInt) {ROW_ADDR : CInt} (ha : ROW_ADDR < 16) (row_ids : List CInt) :
    row_ids.length ≤ (listing (store_row_ids ROW_PTR ROW_ADDR row_ids)).length := by
  rw [store_row_ids, Program.listing_flatMap fun x _ => block_of_pieces (by simp), List.length_flatMap]
  have hlen : row_ids.length = (row_ids.zipIdx.map fun _ => 1).sum := by simp
  rw [hlen]
  apply List.sum_le_sum
  intro x _
  rw [listing_LI _ ha]
  exact Nat.le_add_left 1 _

/-- What stands before a loop fits into an executable image. -/
theorem length_before_loop {p : Program} {pre body post : List Call} {rs1 rs2 : CInt} {tgt : String}
    (hpre : Block pre) (hbody : Block body) (hpost : Block post) (h1 : rs1 < 16) (h2 : rs2 < 16)
    (hp : generate (loop pre body post rs1 rs2 tgt) = some p) (hx : Platform.Executable p) : (listing pre).length < 2048 := by
  have hlt := Program.length_words_lt (Program.loop_made hpre hbody hpost h1 h2) hp
  rw [Program.words_loop hpre hbody, List.length_append, List.length_append] at hlt
  have hle : p.program.length ≤ 2048 := hx.2
  rw [listing, List.length_map]
  omega

/-- The addresses a program stores fit into it. -/
theorem length_row_ids {p : Program} {as bs body post : List Call} {ROW_PTR ROW_ADDR rs1 rs2 : CInt} {row_ids : List CInt} {tgt : String}
    (has : Block as) (hbs : Block bs) (hbody : Block body) (hpost : Block post) (ha : ROW_ADDR < 16) (h1 : rs1 < 16)
    (h2 : rs2 < 16) (hx : Platform.Executable p)
    (hp : generate (loop (as ++ store_row_ids ROW_PTR ROW_ADDR row_ids ++ bs) body post rs1 rs2 tgt) = some p) :
    row_ids.length < 2048 := by
  have hstore := block_store_row_ids ROW_PTR ROW_ADDR row_ids
  have hlen := length_before_loop ((has.append hstore).append hbs) hbody hpost h1 h2 hp hx
  rw [Program.listing_append (has.append hstore), Program.listing_append has, List.length_append, List.length_append] at hlen
  have hrows := length_store_row_ids ROW_PTR ha row_ids
  omega

theorem block_read_columns : Block read_columns := block_of_pieces (pieces_flatMap (by simp))

theorem block_sleep {samt : CInt} {cs : List Call} (h : sleep samt = some cs) : Block cs := by
  obtain ⟨hs, rfl⟩ := sleep_eq h
  exact block_of_pieces (List.forall_mem_singleton.2 (piece_SLEEP hs))

theorem fills_act_and_harden (nRAS nRP : CInt) : ∀ c ∈ act_and_harden nRAS nRP, Program.fills c := by
  simp only [act_and_harden, List.mem_cons, List.not_mem_nil, or_false]
  rintro c (rfl | rfl | rfl | rfl)
  · exact ⟨.ACT BAR 0 RAR 0 0, rfl⟩
  · exact ⟨.PRE BAR 0 0 0, rfl⟩
  · exact ⟨.ACT BAR 0 RAR 0 0, rfl⟩
  · exact ⟨.PRE BAR 0 0 0, rfl⟩

section
variable {bank : CInt} {row_ids : List CInt} {p : Program}

/-- The rows of an executable `read_rows` fit into its image. -/
theorem read_rows_length (h : read_rows bank row_ids = some p) (hx : Platform.Executable p) : row_ids.length < 2048 := by
  unfold read_rows at h
  obtain ⟨sleep3, hs3, h⟩ := Option.bind_eq_some_iff.1 h
  refine length_row_ids (block_of_pieces (by simp)) (block_of_pieces (by simp)) ?_ .nil (by decide) (by decide) (by decide) hx h
  exact (((block_of_pieces (by simp)).append block_read_columns).append (block_sleep hs3)).append (block_of_pieces (by simp))

/-- So do those of `act_rows`. -/
theorem act_rows_length {nRAS nRP : CInt} (h : act_rows bank row_ids nRAS nRP = some p) (hx : Platform.Executable p) :
    row_ids.length < 2048 := by
  refine length_row_ids (block_of_pieces (by simp)) (block_of_pieces (by simp)) ?_ .nil (by decide) (by decide) (by decide) hx h
  have hvisit : Block (minprogram (act_and_harden nRAS nRP)) := Program.block_pack (fills_act_and_harden nRAS nRP)
  exact ((block_of_pieces (by simp)).append hvisit).append (block_of_pieces (by simp))

end

end DCT
