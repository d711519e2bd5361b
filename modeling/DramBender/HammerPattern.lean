import Mathlib
import DramBender.ControlFlow
import DramBender.Decoding
import DramBender.Generators
/-!
# The generator of hammer patterns

`hammer_pattern.cpp`, with the Python objects as records. `Except.error` is an
exception with its text, or the failed assertion of `SMC_SLEEP`. The generator
does not conclude its program.
-/

namespace DCT

open DRAMBender
open Program (build loop)
open Call (add_inst add_inst4)

/-- An element of `access_pattern`. -/
structure Access where
  id : CInt
  on : CInt
  off : CInt

structure Pattern where
  access_pattern : List Access
  repetitions : CInt
  pivot_id : CInt
  head_offset : CInt
  tail_offset : CInt

/-- `map_row` is the method of `row_mapper`. -/
structure DramInfo where
  banks : CInt
  rows : CInt
  map_row : CInt → CInt

namespace PatternReg

def NUM_REPETITIONS : CInt := 3
def REPETITIONS_COUNTER : CInt := 4
def BANK_ADDRESS : CInt := 5

end PatternReg

open PatternReg

/-- `map_row_id_to_register`. -/
abbrev Registers := CInt → Option CInt

/-- `add_inst` of a NOP, a command and two NOPs. -/
def ddr_second (m : Mininst) : Call := add_inst4 SMC_NOP m SMC_NOP SMC_NOP

def close_row : Call := ddr (SMC_PRE BANK_ADDRESS 0 0)

def open_row (registers : Registers) (row_id : CInt) : Call :=
  ddr_second (SMC_ACT BANK_ADDRESS 0 ((registers row_id).getD 0) 0)

def count_repetition : Call := add_inst (SMC_ADDI REPETITIONS_COUNTER 1 REPETITIONS_COUNTER)

def sleep_for (samt : CInt) : Except String (List Call) :=
  match sleep samt with
  | some cs => .ok cs
  | none => .error "Cannot sleep for less than 3 cycles."

/-- `n - spent` words of NOPs where `n` is below the bound, else a SLEEP. -/
def wait (below spent n : CInt) : Except String (List Call) :=
  if n < below then .ok (List.replicate (n - spent).toNat nops) else sleep_for (n - spent)

/-- Map rows to registers: a register and its LI for every new id. -/
def map_rows (pattern : Pattern) (dram_info : DramInfo) (pivot_address : CInt) :
    List Access → Registers → CInt → Except String (Registers × List Call)
  | [], registers, _ => .ok (registers, [])
  | a :: as, registers, next_free_register =>
    if registers a.id = none then
      if 15 < next_free_register then
        .error "The maximum number of 10 different aggressor rows has been exceeded!"
      else do
        let physical_row_address := a.id - pattern.pivot_id + pivot_address
        let logical_row_address := dram_info.map_row physical_row_address
        let (registers', cs) ← map_rows pattern dram_info pivot_address as
          (Function.update registers a.id (some next_free_register)) (next_free_register + 1)
        .ok (registers', add_inst (SMC_LI logical_row_address next_free_register) :: cs)
    else map_rows pattern dram_info pivot_address as registers next_free_register

/-- An access that is not the last one of its repetition. -/
def access (on_error : String) (registers : Registers) (a : Access) : Except String (List Call) :=
  if a.on < 5 then .error on_error
  else if a.off < 2 then .error "A minimum of 2 on cycles are required for each row. (t_RP = 12ns)"
  else do
    let sleepON ← sleep_for a.on
    let sleepOFF ← wait 4 1 a.off
    .ok ([open_row registers a.id] ++ sleepON ++ [close_row] ++ sleepOFF)

/-- The rest of the repetitions, from the PRE of the last access on. -/
def rest_of_repetitions (registers : Registers) (accesses : List Access) (last : Access) : Except String (List Call) :=
  if last.on < 5 then .error "A minimum of 5 on cycles are required for each row. (t_RAS = 33ns)"
  else if last.off < 2 then .error "A minimum of 2 off cycles are required for each row. (t_RP = 12ns)"
  else do
    let sleepOFF ← wait 5 2 last.off
    let rows ← accesses.mapM
      (access "A minimum of 6 on cycles are required for each row. (t_RAS = 33ns)" registers)
    let sleepON ← wait 9 6 last.on
    .ok ([close_row, count_repetition] ++ sleepOFF ++ rows.flatten ++ [open_row registers last.id] ++ sleepON)

def hammer_pattern (pattern : Pattern) (dram_info : DramInfo) (bank pivot_address : CInt) : Except String Program :=
  match pattern.access_pattern.getLast? with
  | none => .ok {}
  | some last =>
    if pattern.repetitions = 0 then .ok {}
    else if bank.slt 0 || (dram_info.banks - 1).slt bank then .error "The specified bank is out of bounds."
    else if (pivot_address + pattern.head_offset).slt 0 ||
        (dram_info.rows - 1).slt (pivot_address + pattern.tail_offset) then
      .error "The pattern doesn't fit into the DRAM address space when mounted to pivot_address."
    else do
      let (registers, rows) ← map_rows pattern dram_info pivot_address pattern.access_pattern (fun _ => none) 6
      let first ← pattern.access_pattern.dropLast.mapM
        (access "A minimum of 5 on cycles are required for each row. (t_RAS = 33ns)" registers)
      let sleepON ← sleep_for last.on
      let pre := [add_inst (SMC_LI pattern.repetitions NUM_REPETITIONS), add_inst (SMC_LI 0 REPETITIONS_COUNTER),
          add_inst (SMC_LI bank BANK_ADDRESS)] ++ rows ++ [close_row, count_repetition] ++ first.flatten ++
        [open_row registers last.id] ++ sleepON
      let post := [close_row, add_inst SMC_END]
      if 1 < pattern.repetitions then do
        let body ← rest_of_repetitions registers pattern.access_pattern.dropLast last
        .ok (build (loop pre body post REPETITIONS_COUNTER NUM_REPETITIONS "HMR_BEGIN"))
      else .ok (build (pre ++ post))

end DCT
