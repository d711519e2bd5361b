import Mathlib
import DramBender.Listing
/-!
# The program generators

The generators of `programs/`, call by call. `none` is a failed assertion of
`SMC_SLEEP`, or a word list shorter than its row list.
-/

namespace DCT

open DRAMBender
open Program (build loop)
open Call (add_inst add_inst4 add_mininst pack_minprogram)

/-- A 32-bit DRAM Bender word of a write pattern. -/
abbrev WriteWord_t := CInt

/-- 512-bit write pattern: 16 words. -/
abbrev WritePattern_t := Fin 16 → WriteWord_t

namespace ReservedReg

def CASR : CInt := 0
def CAR : CInt := 3
def BAR : CInt := 4
def RAR : CInt := 5
def PATTERN_REG : CInt := 6
def Last : CInt := 7

end ReservedReg

open ReservedReg

/-! ## Pieces the generators share -/

/-- `add_inst` of a command and three NOPs. -/
def ddr (m : Mininst) : Call := add_inst4 m SMC_NOP SMC_NOP SMC_NOP

/-- `add_inst` of three NOPs and a command. -/
def ddr_last (m : Mininst) : Call := add_inst4 SMC_NOP SMC_NOP SMC_NOP m

def nops : Call := add_inst all_nops

/-- `add_inst` of a SLEEP whose assertion holds. -/
def sleep (samt : CInt) : Option (List Call) := (SMC_SLEEP samt).map fun w => [add_inst w]

/-- Commands queued and packed into words. -/
def minprogram (cs : List Call) : List Call := cs ++ [pack_minprogram]

/-- The SLEEP of an on or off parameter, in steps of `step` cycles. -/
def sleep_above_one (step n : CInt) : Option (List Call) :=
  if (1 : CInt).slt n then sleep (step * (n - 1)) else some []

/-- Load the cache line into the wide data register. -/
def load_pattern (wr_pattern : WritePattern_t) : List Call :=
  (List.finRange 16).flatMap fun i =>
    [add_inst (SMC_LI (wr_pattern i) PATTERN_REG), add_inst (SMC_LDWD PATTERN_REG (BitVec.ofNat 32 i))]

/-- The word in PATTERN_REG, at every place of the wide data register. -/
def load_word : List Call :=
  (List.range 16).map fun i => add_inst (SMC_LDWD PATTERN_REG (BitVec.ofNat 32 i))

/-- Write to 128 cachelines in a 8KB row. -/
def write_columns : List Call :=
  (List.range 128).flatMap fun _ => [ddr (SMC_WRITE BAR 0 CAR 1 0 0), nops]

def read_columns : List Call :=
  (List.range 128).flatMap fun _ => [ddr (SMC_READ BAR 0 CAR 1 0 0), nops]

def generate (cs : List Call) : Option Program := (build cs).conclude

/-! ## Writing rows -/

def init_row (bank row_id : CInt) (wr_pattern : WritePattern_t) : Option Program := do
  let sleep4 ← sleep 4
  generate (
    [add_inst (SMC_LI bank BAR), add_inst (SMC_LI row_id RAR), add_inst (SMC_LI 8 CASR)] ++
    load_pattern wr_pattern ++
    [ddr (SMC_PRE BAR 0 0), add_inst (SMC_LI 0 CAR), nops, nops,
      ddr (SMC_ACT BAR 0 RAR 0), nops, nops] ++
    write_columns ++ sleep4 ++
    [ddr (SMC_PRE BAR 0 0), nops, nops])

/-- Memory layout: row address, 32-bit word, for each row. -/
def init_rows (bank : CInt) (row_ids : List CInt) (wr_words : List WriteWord_t) : Option Program := do
  let NUM_ROWS := Last
  let ROW_CNT := Last + 1
  let MEM_PTR := Last + 2
  let ROW_ADDR := Last + 3
  guard (row_ids.length ≤ wr_words.length)
  let sleep3 ← sleep 3
  generate (loop
    ([add_inst (SMC_LI (BitVec.ofNat 32 row_ids.length) NUM_ROWS), add_inst (SMC_LI 0 MEM_PTR)] ++
      (row_ids.zip wr_words).flatMap (fun x =>
        [add_inst (SMC_LI x.1 ROW_ADDR), add_inst (SMC_ST MEM_PTR 0 ROW_ADDR),
          add_inst (SMC_LI x.2 PATTERN_REG), add_inst (SMC_ST MEM_PTR 1 PATTERN_REG),
          add_inst (SMC_ADDI MEM_PTR 2 MEM_PTR)]) ++
      [add_inst (SMC_LI 0 MEM_PTR), add_inst (SMC_LI bank BAR), add_inst (SMC_LI 8 CASR),
        ddr (SMC_PRE BAR 0 0), add_inst (SMC_LI 0 CAR), add_inst (SMC_LI 0 ROW_CNT)])
    ([add_inst (SMC_LD MEM_PTR 0 RAR), add_inst (SMC_LD MEM_PTR 1 PATTERN_REG)] ++ load_word ++
      [ddr (SMC_ACT BAR 0 RAR 0), add_inst (SMC_LI 0 CAR), add_inst (SMC_ADDI MEM_PTR 2 MEM_PTR)] ++
      write_columns ++ sleep3 ++
      [add_inst (SMC_ADDI ROW_CNT 1 ROW_CNT), ddr (SMC_PRE BAR 0 0)])
    [] ROW_CNT NUM_ROWS "WR_ROW_BEGIN")

def init_row_range (bank start_row end_row : CInt) (wr_pattern : WritePattern_t) : Option Program := do
  let NUM_ROWS := Last
  let sleep4 ← sleep 4
  generate (loop
    ([add_inst (SMC_LI bank BAR), add_inst (SMC_LI start_row RAR), add_inst (SMC_LI end_row NUM_ROWS),
        add_inst (SMC_LI 8 CASR)] ++
      load_pattern wr_pattern ++
      [ddr (SMC_PRE BAR 0 0), add_inst (SMC_LI 0 CAR), nops, nops])
    ([ddr (SMC_ACT BAR 0 RAR 0), nops, nops] ++
      write_columns ++ sleep4 ++
      [ddr (SMC_PRE BAR 0 0), nops, add_inst (SMC_ADDI RAR 1 RAR)])
    [] RAR NUM_ROWS "WR_ROW_BEGIN")

/-! ## Reading rows -/

def read_row (bank row_id : CInt) : Option Program := do
  let sleep4 ← sleep 4
  let sleep3 ← sleep 3
  generate (
    [add_inst (SMC_LI bank BAR), add_inst (SMC_LI row_id RAR), add_inst (SMC_LI 8 CASR),
      ddr (SMC_PRE BAR 0 0), add_inst (SMC_LI 0 CAR), nops, nops,
      ddr (SMC_ACT BAR 0 RAR 0), nops, nops] ++
    read_columns ++ sleep4 ++ [ddr (SMC_PRE BAR 0 0)] ++ sleep3)

/-- The row addresses, at the addresses from the pointer on. -/
def store_row_ids (ROW_PTR ROW_ADDR : CInt) (row_ids : List CInt) : List Call :=
  row_ids.zipIdx.flatMap fun x =>
    [add_inst (SMC_LI x.1 ROW_ADDR), add_inst (SMC_ST ROW_PTR (BitVec.ofNat 32 x.2) ROW_ADDR)]

def read_rows (bank : CInt) (row_ids : List CInt) : Option Program := do
  let NUM_ROWS := Last
  let ROW_PTR := Last + 1
  let ROW_ADDR := Last + 2
  let sleep3 ← sleep 3
  generate (loop
    ([add_inst (SMC_LI (BitVec.ofNat 32 row_ids.length) NUM_ROWS), add_inst (SMC_LI 0 ROW_PTR)] ++
      store_row_ids ROW_PTR ROW_ADDR row_ids ++
      [add_inst (SMC_LI bank BAR), add_inst (SMC_LI 8 CASR), ddr (SMC_PRE BAR 0 0), nops, nops])
    ([add_inst (SMC_LD ROW_PTR 0 RAR), ddr (SMC_ACT BAR 0 RAR 0), add_inst (SMC_LI 0 CAR), nops] ++
      read_columns ++ sleep3 ++
      [add_inst (SMC_ADDI ROW_PTR 1 ROW_PTR), ddr (SMC_PRE BAR 0 0)])
    [] ROW_PTR NUM_ROWS "RD_ROW_BEGIN")

def read_row_range (bank start_row end_row : CInt) : Option Program := do
  let NUM_ROWS := Last
  let sleep3 ← sleep 3
  generate (loop
    ([add_inst (SMC_LI bank BAR), add_inst (SMC_LI start_row RAR), add_inst (SMC_LI end_row NUM_ROWS),
        add_inst (SMC_LI 8 CASR), ddr (SMC_PRE BAR 0 0)] ++ sleep3)
    ([ddr (SMC_ACT BAR 0 RAR 0), add_inst (SMC_LI 0 CAR), nops] ++
      read_columns ++ sleep3 ++
      [ddr (SMC_PRE BAR 0 0), add_inst (SMC_ADDI RAR 1 RAR)])
    [] RAR NUM_ROWS "RD_ROW_BEGIN")

/-! ## Activating rows -/

/-- Activate and close the row with nRAS and nRP, then "harden" it with nominal
tRAS. -/
def act_and_harden (nRAS nRP : CInt) : List Call :=
  [add_mininst (SMC_ACT BAR 0 RAR 0) nRAS.toInt, add_mininst (SMC_PRE BAR 0 0) nRP.toInt,
    add_mininst (SMC_ACT BAR 0 RAR 0) 24, add_mininst (SMC_PRE BAR 0 0) 0]

def act_row (bank row_id nRAS nRP : CInt) : Option Program := do
  let sleep3 ← sleep 3
  generate (
    [add_inst (SMC_LI bank BAR), add_inst (SMC_LI row_id RAR), add_inst (SMC_LI 8 CASR),
      ddr (SMC_PRE BAR 0 0), add_inst (SMC_LI 0 CAR), nops, nops] ++
    minprogram (act_and_harden nRAS nRP) ++ sleep3)

def act_rows (bank : CInt) (row_ids : List CInt) (nRAS nRP : CInt) : Option Program :=
  let NUM_ROWS := Last
  let ROW_PTR := Last + 1
  let ROW_ADDR := Last + 2
  generate (loop
    ([add_inst (SMC_LI bank BAR), add_inst (SMC_LI 8 CASR),
        add_inst (SMC_LI (BitVec.ofNat 32 row_ids.length) NUM_ROWS), add_inst (SMC_LI 0 ROW_PTR)] ++
      store_row_ids ROW_PTR ROW_ADDR row_ids ++
      [ddr (SMC_PRE BAR 0 0), add_inst (SMC_LI 0 CAR), nops, nops])
    ([add_inst (SMC_LD ROW_PTR 0 RAR)] ++
      minprogram (act_and_harden nRAS nRP) ++
      [add_inst (SMC_ADDI ROW_PTR 1 ROW_PTR)])
    [] ROW_PTR NUM_ROWS "ACT_ROW_BEGIN")

def refresh_all_rows (bank num_rows : CInt) : Option Program := do
  let NUM_ROWS := Last
  let sleep6 ← sleep 6
  let sleep3 ← sleep 3
  generate (loop
    ([add_inst (SMC_LI bank BAR), add_inst (SMC_LI 0 RAR), add_inst (SMC_LI num_rows NUM_ROWS),
        add_inst (SMC_LI 8 CASR), ddr (SMC_PRE BAR 0 0), add_inst (SMC_LI 0 CAR), nops,
        ddr_last (SMC_ACT BAR 0 RAR 0)] ++ sleep6)
    [ddr (SMC_PRE BAR 0 0), nops, add_inst (SMC_ADDI RAR 1 RAR), ddr_last (SMC_ACT BAR 0 RAR 0)]
    ([ddr (SMC_PRE BAR 0 0)] ++ sleep3) RAR NUM_ROWS "ACT_ROW_BEGIN")

/-! ## Hammering -/

def singleside_hammer (bank aggr_id hammer_count nAggON nAggOFF : CInt) : Option Program := do
  let NUM_HMR := Last
  let HMR_COUNTER := Last + 1
  let sleepON ← sleep_above_one 5 nAggON
  let sleepOFF ← sleep_above_one 3 nAggOFF
  generate (loop
    [add_inst (SMC_LI bank BAR), add_inst (SMC_LI aggr_id RAR), add_inst (SMC_LI 0 HMR_COUNTER),
      add_inst (SMC_LI hammer_count NUM_HMR)]
    (sleepON ++ [ddr (SMC_PRE BAR 0 0), add_inst (SMC_ADDI HMR_COUNTER 1 HMR_COUNTER)] ++ sleepOFF ++
      [ddr_last (SMC_ACT BAR 0 RAR 0)])
    [] HMR_COUNTER NUM_HMR "HMR_BEGIN")

def doubleside_hammer (bank aggr1_id aggr2_id hammer_count nAggON1 nAggOFF1 nAggON2 nAggOFF2 : CInt) :
    Option Program := do
  let NUM_HMR := Last
  let HMR_COUNTER := Last + 1
  let sleepON1 ← sleep_above_one 5 nAggON1
  let sleepOFF1 ← sleep_above_one 3 nAggOFF1
  let sleep5 ← sleep 5
  let sleepON2 ← sleep_above_one 5 nAggON2
  let sleepOFF2 ← sleep_above_one 3 nAggOFF2
  generate (loop
    [add_inst (SMC_LI bank BAR), add_inst (SMC_LI aggr1_id RAR), add_inst (SMC_LI 0 HMR_COUNTER),
      add_inst (SMC_LI hammer_count NUM_HMR)]
    (sleepON1 ++ [ddr (SMC_PRE BAR 0 0), add_inst (SMC_LI aggr1_id RAR)] ++ sleepOFF1 ++
      [ddr_last (SMC_ACT BAR 0 RAR 0), add_inst (SMC_LI aggr2_id RAR)] ++ sleep5 ++ sleepON2 ++
      [ddr (SMC_PRE BAR 0 0), add_inst (SMC_ADDI HMR_COUNTER 1 HMR_COUNTER)] ++ sleepOFF2 ++
      [ddr_last (SMC_ACT BAR 0 RAR 0)])
    [] HMR_COUNTER NUM_HMR "HMR_BEGIN")

/-! ## Timing violations -/

def rowclone (bank src_id dst_id nT1 : CInt) : Option Program := do
  let SRC_ROW := Last
  let DST_ROW := Last + 1
  let sleep3 ← sleep 3
  generate (
    [add_inst (SMC_LI bank BAR), add_inst (SMC_LI src_id SRC_ROW), add_inst (SMC_LI dst_id DST_ROW),
      add_inst (SMC_LI 8 CASR), ddr (SMC_PRE BAR 0 0), add_inst (SMC_LI 0 CAR), nops, nops] ++
    minprogram [add_mininst (SMC_ACT BAR 0 SRC_ROW 0) 24, add_mininst (SMC_PRE BAR 0 0) nT1.toInt,
      add_mininst (SMC_ACT BAR 0 DST_ROW 0) 24, add_mininst (SMC_PRE BAR 0 0) 0] ++
    sleep3)

def tWR_test (bank row_id col_id : CInt) (wr_word : WriteWord_t) (tWR : CInt) : Option Program := do
  let sleep4 ← sleep 4
  let sleep3 ← sleep 3
  generate (
    [add_inst (SMC_LI bank BAR), add_inst (SMC_LI row_id RAR), add_inst (SMC_LI 8 CASR)] ++
    load_pattern (fun _ => wr_word) ++
    [ddr (SMC_PRE BAR 0 0), add_inst (SMC_LI 0 CAR), nops, nops,
      ddr (SMC_ACT BAR 0 RAR 0), nops, nops] ++
    write_columns ++
    [add_inst (SMC_LI (col_id * 8) CAR)] ++
    load_pattern (fun _ => ~~~wr_word) ++
    [ddr (SMC_PRE BAR 0 0), nops, nops, ddr (SMC_ACT BAR 0 RAR 0), nops, nops] ++
    minprogram [add_mininst (SMC_WRITE BAR 0 CAR 0 0 0) tWR.toInt, add_mininst (SMC_PRE BAR 0 0) 10] ++
    [ddr (SMC_ACT BAR 0 RAR 0), add_inst (SMC_LI 0 CAR), nops] ++
    read_columns ++ sleep4 ++ [ddr (SMC_PRE BAR 0 0)] ++ sleep3)

def frac (bank row_id : CInt) (wr_word : WriteWord_t) (Tfrac1 Tfrac2 num_fracs : CInt) : Option Program := do
  let sleep4 ← sleep 4
  let sleep3 ← sleep 3
  generate (
    [add_inst (SMC_LI bank BAR), add_inst (SMC_LI row_id RAR), add_inst (SMC_LI 8 CASR)] ++
    load_pattern (fun _ => wr_word) ++
    [ddr (SMC_PRE BAR 0 0), add_inst (SMC_LI 0 CAR), nops, nops,
      ddr (SMC_ACT BAR 0 RAR 0), nops, nops] ++
    write_columns ++ sleep4 ++
    [ddr (SMC_PRE BAR 0 0), nops, nops] ++
    minprogram ((List.range num_fracs.toInt.toNat).flatMap fun _ =>
      [add_mininst (SMC_ACT BAR 0 RAR 0) Tfrac1.toInt, add_mininst (SMC_PRE BAR 0 0) Tfrac2.toInt]) ++
    [ddr (SMC_ACT BAR 0 RAR 0), add_inst (SMC_LI 0 CAR), nops, nops] ++
    read_columns ++ sleep4 ++ [ddr (SMC_PRE BAR 0 0)] ++ sleep3)

end DCT
