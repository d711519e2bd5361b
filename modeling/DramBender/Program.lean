import Mathlib
import DramBender.Instruction
/-!
# The program builder

`program.cpp`: a `Program` is a growing vector of words with a map of labels,
a map of branches waiting for their labels, the INFO words a scan asked for,
and a queue of mini instructions. Addresses are unbounded here; the results
that depend on a field's width say so. `none` is a failed assertion, an access
outside the vector, or `exit`.
-/

namespace DRAMBender

open Std (ExtTreeMap)

structure Program where
  labels : ExtTreeMap String Nat := ∅
  branches : ExtTreeMap Nat String := ∅
  warnings : ExtTreeMap Nat Inst := ∅
  program : List Inst := []
  minprogram : List Mininst := []
  spc : Nat := 0
  dumpRegsCalled : Bool := false
  concluded : Bool := false

inductive BR_TYPE where
  | BEQ | BL | JUMP
  deriving DecidableEq, Repr

/-- The word `add_branch` leaves for `preprocess_branches` to complete. -/
def place_holder (bt : BR_TYPE) (rs1 rs2 : CInt) : Inst :=
  match bt with
  | .BL => SMC_BL rs1 rs2 0
  | .BEQ => SMC_BEQ rs1 rs2 0
  | .JUMP => SMC_JUMP 0

namespace Program

/-! ## Adding to a program -/

/-- A second binding of a name is reported on `stderr` and still made. -/
def add_label (p : Program) (name : String) : Program :=
  { p with labels := p.labels.insert name p.spc }

def add_wait (p : Program) (wait_cycles : Int) : Program :=
  { p with minprogram := p.minprogram ++ List.replicate wait_cycles.toNat SMC_NOP }

def add_mininst (p : Program) (mi : Mininst) (wait_after : Int) : Program :=
  { p with minprogram := p.minprogram ++ mi :: List.replicate wait_after.toNat SMC_NOP }

/-- The `add_inst` of four mini instructions. -/
def add_inst4 (p : Program) (m1 m2 m3 m4 : Mininst) : Program :=
  { p with
    program := p.program ++
      [m4.setWidth 64 <<< 48 ||| m3.setWidth 64 <<< 32 ||| m2.setWidth 64 <<< 16 ||| m1.setWidth 64]
    spc := p.spc + 1 }

/-- A load is followed by a word of NOPs. -/
def add_inst (p : Program) (i : Inst) : Program :=
  let p := { p with program := p.program ++ [i] }
  let p := if is_load i then p.add_inst4 SMC_NOP SMC_NOP SMC_NOP SMC_NOP else p
  { p with spc := p.spc + 1 }

/-- The loop and the switch of `pack_minprogram`: whole words while there are
four commands, then one padded word for what is left. -/
def pack_loop : List Mininst → Program → Program
  | m0 :: m1 :: m2 :: m3 :: rest, p => pack_loop rest (p.add_inst (pack_mininsts m0 m1 m2 m3))
  | [], p => p
  | [m0], p => p.add_inst (pack_mininsts m0 SMC_NOP SMC_NOP SMC_NOP)
  | [m0, m1], p => p.add_inst (pack_mininsts m0 m1 SMC_NOP SMC_NOP)
  | [m0, m1, m2], p => p.add_inst (pack_mininsts m0 m1 m2 SMC_NOP)

def pack_minprogram (p : Program) : Program :=
  { pack_loop p.minprogram p with minprogram := [] }

def add_branch (p : Program) (bt : BR_TYPE) (rs1 rs2 : CInt) (tgt : String) : Program :=
  { p with branches := p.branches.insert p.spc tgt }.add_inst (place_holder bt rs1 rs2)

/-- The queue of `p` is not appended. -/
def add_below (self p : Program) : Program :=
  { self with
    program := self.program ++ p.program
    branches := p.branches.foldl (fun branches pc tgt => branches.insert (pc + self.spc) tgt) self.branches
    labels := p.labels.foldl (fun labels name pc => labels.insert name (pc + self.spc)) self.labels
    spc := self.spc + p.spc }

/-- The words `dump_registers` adds. -/
def dump_words : List Inst :=
  let after (m : Mininst) : Inst := pack_mininsts m SMC_NOP SMC_NOP SMC_NOP
  [SMC_LI 15 13, SMC_LI 0 14, SMC_LI 0 15,
    after (SMC_PRE 13 0 1), all_nops, all_nops, all_nops,
    after (SMC_ACT 13 0 14 0), all_nops, all_nops,
    after (SMC_WRITE 13 0 15 0 0 0), all_nops, all_nops, all_nops,
    after (SMC_READ 13 0 15 0 0 0)] ++
  (List.range 16).map (fun i => SMC_LDWD (BitVec.ofNat 32 i) (BitVec.ofNat 32 i)) ++
  [after (SMC_WRITE 13 0 15 0 0 0), all_nops, all_nops, all_nops,
    after (SMC_READ 13 0 15 0 0 0), all_nops, all_nops,
    after (SMC_PRE 13 0 1)]

/-- Only once per program. -/
def dump_registers (p : Program) : Option Program :=
  if p.dumpRegsCalled then none
  else some (dump_words.foldl add_inst { p with dumpRegsCalled := true })

/-! ## Post-processing -/

/-- The variables of `linear_analysis`. -/
structure Scan where
  inSequence : Bool := false
  seqPc : Nat := 0
  readCtr : Nat := 0
  warnings : ExtTreeMap Nat Inst

/-- One iteration of `linear_analysis`. More than 1024 READs are only warned
about. -/
def Scan.next (s : Scan) (pc : Nat) (cur_inst : Inst) : Scan :=
  if s.inSequence = false then
    if is_ddr cur_inst then
      { s with inSequence := true, seqPc := pc, readCtr := is_ddr_read cur_inst }
    else s
  else if !is_ddr cur_inst && !is_sleep cur_inst then
    if s.readCtr > 1024 then { s with inSequence := false }
    else if s.readCtr > 0 then
      { s with
        inSequence := false
        warnings := s.warnings.insert s.seqPc (SMC_INFO (BitVec.ofNat 32 s.readCtr)) }
    else { s with inSequence := false }
  else { s with readCtr := s.readCtr + is_ddr_read cur_inst }

/-- The iterations from `pc` on. -/
def scan : List Inst → Nat → Scan → Scan
  | [], _, s => s
  | w :: ws, pc, s => scan ws (pc + 1) (s.next pc w)

def linear_analysis (p : Program) : Program :=
  { p with warnings := (scan p.program 0 { warnings := p.warnings }).warnings }

/-- The `n_labels` of one insertion: only the labels that some branch names,
and a name without a label gets address 0. -/
def n_labels (p : Program) (warn_key : Nat) : ExtTreeMap String Nat :=
  p.branches.foldl (fun n_labels _ tgt =>
    let label := p.labels.getD tgt 0
    n_labels.insert tgt (if label > warn_key then label + 1 else label)) ∅

/-- The `n_branches` of one insertion. -/
def n_branches (p : Program) (warn_key : Nat) : ExtTreeMap Nat String :=
  p.branches.foldl (fun n_branches pc tgt =>
    n_branches.insert (if pc ≥ warn_key then pc + 1 else pc) tgt) ∅

/-- One iteration of `insert_generated`. -/
def insert_one (p : Program) (warn_key : Nat) (warn_value : Inst) : Program :=
  { p with
    program := p.program.insertIdx warn_key warn_value
    labels := p.n_labels warn_key
    branches := p.n_branches warn_key }

/-- The while loop of `insert_generated`: every key still to come moves up by
one. -/
def insert_loop : List Inst → List Nat → Program → Program
  | warn_value :: warn_values, warn_key :: warn_keys, p =>
    insert_loop warn_values (warn_keys.map (· + 1)) (p.insert_one warn_key warn_value)
  | _, _, p => p

/-- `warnings` itself is kept. -/
def insert_generated (p : Program) : Program :=
  let warn_keys := p.warnings.toList.map Prod.fst
  let warn_values := p.warnings.toList.map Prod.snd
  insert_loop warn_values warn_keys p

/-- A branch word with the bits of its target set. -/
def link (br : Inst) (lbl : Nat) : Inst :=
  let lbl : CInt := BitVec.ofNat 32 lbl
  let target_b : Inst := lbl.signExtend 64 <<< 8
  let target_j : Inst := lbl.signExtend 64
  br ||| (if is_conditional br then target_b else target_j)

/-- One iteration of `preprocess_branches`. A name without a label is entered
with address 0. -/
def resolve (p : Program) (pc : Nat) (tgt : String) : Option Program := do
  let br ← p.program[pc]?
  let lbl := p.labels.getD tgt 0
  if is_branch br then
    some { p with
      labels := p.labels.insertIfNew tgt 0
      program := p.program.set pc (link br lbl) }
  else none

def preprocess_branches (p : Program) : Option Program :=
  p.branches.foldlM resolve p

def conclude (p : Program) : Option Program := do
  let p ← (p.add_inst SMC_END).linear_analysis.insert_generated.preprocess_branches
  some { p with concluded := true }

/-! ## Reading a program back -/

/-- In bytes, as an `int`. -/
def size (p : Program) : CInt := BitVec.ofNat 32 (p.program.length * 8)

/-- The copied words. `none` where `malloc` is asked for fewer bytes than they
take, or for a negative number. -/
def get_insts (p : Program) : Option (List Inst) :=
  if p.size.toInt < p.program.length * 8 then none else some p.program

/-- The copied words, and the program as the call leaves it. -/
def get_inst_array (p : Program) : Option (List Inst × Program) := do
  let p ← p.linear_analysis.insert_generated.preprocess_branches
  let arr ← p.get_insts
  some (arr, p)

def get_inst_seq (p : Program) : List Inst := p.program

def get_num_insts (p : Program) : Nat := p.program.length

end Program

end DRAMBender
