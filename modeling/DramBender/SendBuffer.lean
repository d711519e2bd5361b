import Mathlib
import DramBender.Isa
import DramBender.Platform
import DramBender.Lib.Blocks
import DramBender.Lib.Buffer
/-!
# The send buffer

`execute`, `resetFPGA` and `setAREF` of `platform.cpp` share one buffer. What
each sends is a row of beats as wide as the AXI datapath, and each leaves the
buffer zero.
-/

namespace DRAMBender

namespace Platform

open Buffer

abbrev Byte := BitVec 8

/-- `sizeof(Inst_t)`. -/
def inst_size : Nat := 8

/-- The bytes of an instruction in memory, low ones first. -/
def inst_bytes (inst : Inst) : List Byte := (List.range inst_size).map fun k => (inst >>> (8 * k)).setWidth 8

/-- What the host can send. -/
inductive SendCall where
  | execute (prog : Program)
  | resetFPGA
  | setAREF (is_on : Bool)

/-- Zero-pad each instruction to align with the AXI datapath width. -/
def pad_insts (iseq : List Inst) (num_insts : Nat) (buf : List Byte) : Option (List Byte) :=
  let stride := axi_datapath_byte_width / inst_size
  (List.range num_insts).foldlM (fun buf i => do
    let inst ← iseq[i]?
    store buf (inst_size * (i * stride)) (inst_bytes inst)) buf

/-- The buffer after a call and the bytes sent. `none` is a failed assertion, or
an access outside of the buffer. -/
def execute (max_num_insts_per_prog : Nat) (prog : Program) (m_send_buffer : List Byte) : Option (List Byte × List Byte) := do
  guard (prog.concluded = true)
  let num_insts := prog.get_num_insts
  guard (num_insts ≤ max_num_insts_per_prog)
  let stride := axi_datapath_byte_width / inst_size
  let send_size := num_insts * inst_size * stride
  let buf ← pad_insts prog.get_inst_seq num_insts m_send_buffer
  let sent ← load buf send_size
  let buf ← fill buf 0 send_size
  guard (sent.length ≠ 0)
  return (buf, sent)

def resetFPGA (m_send_buffer : List Byte) : Option (List Byte × List Byte) := do
  let send_buffer_size := m_send_buffer.length
  let buf ← fill m_send_buffer 0 send_buffer_size
  let buf ← store buf 8 [1]
  let sent ← load buf axi_datapath_byte_width
  let buf ← fill buf 0 send_buffer_size
  return (buf, sent)

def setAREF (is_on : Bool) (m_send_buffer : List Byte) : Option (List Byte × List Byte) := do
  let send_buffer_size := m_send_buffer.length
  let buf ← fill m_send_buffer 0 send_buffer_size
  let buf ← store buf 8 [8]
  let buf ← store buf 0 [(BitVec.ofBool is_on).setWidth 8]
  let sent ← load buf axi_datapath_byte_width
  let buf ← fill buf 0 send_buffer_size
  return (buf, sent)

def SendCall.run (max_num_insts_per_prog : Nat) : SendCall → List Byte → Option (List Byte × List Byte)
  | execute prog => Platform.execute max_num_insts_per_prog prog
  | resetFPGA => Platform.resetFPGA
  | setAREF is_on => Platform.setAREF is_on

/-- The calls in turn, with all the bytes they send. -/
def send_all (max_num_insts_per_prog : Nat) : List SendCall → List Byte → Option (List Byte × List Byte)
  | [], buf => some (buf, [])
  | c :: cs, buf => do
    let (buf, sent) ← c.run max_num_insts_per_prog buf
    let (buf, more) ← send_all max_num_insts_per_prog cs buf
    return (buf, sent ++ more)

/-- The buffer the constructor allocates. -/
def new_send_buffer (max_num_insts_per_prog : Nat) : List Byte := List.replicate (axi_datapath_byte_width * max_num_insts_per_prog) 0

/-! ## Beats -/

/-- An instruction and 24 zero bytes. -/
def inst_beat (inst : Inst) : List Byte := inst_bytes inst ++ List.replicate 24 0

/-- A beat with two bytes given. -/
def control_beat (byte0 byte8 : Byte) : List Byte :=
  (List.range axi_datapath_byte_width).map fun i => if i = 0 then byte0 else if i = 8 then byte8 else 0

def SendCall.beats : SendCall → List (List Byte)
  | execute prog => prog.get_inst_seq.map inst_beat
  | resetFPGA => [control_beat 0 1]
  | setAREF is_on => [control_beat ((BitVec.ofBool is_on).setWidth 8) 8]

/-- What `execute` asserts; the others need a buffer of one beat. -/
def SendCall.Accepted (max_num_insts_per_prog : Nat) : SendCall → Prop
  | execute prog => prog.concluded = true ∧ prog.get_num_insts ≤ max_num_insts_per_prog ∧ prog.get_num_insts ≠ 0
  | resetFPGA => 0 < max_num_insts_per_prog
  | setAREF _ => 0 < max_num_insts_per_prog

instance (max_num_insts_per_prog : Nat) (c : SendCall) : Decidable (c.Accepted max_num_insts_per_prog) :=
  match c with
  | .execute prog => inferInstanceAs (Decidable (prog.concluded = true ∧ prog.get_num_insts ≤ max_num_insts_per_prog ∧
      prog.get_num_insts ≠ 0))
  | .resetFPGA => inferInstanceAs (Decidable (0 < max_num_insts_per_prog))
  | .setAREF _ => inferInstanceAs (Decidable (0 < max_num_insts_per_prog))

theorem length_inst_beat (inst : Inst) : (inst_beat inst).length = axi_datapath_byte_width := by
  simp [inst_beat, inst_bytes, inst_size, axi_datapath_byte_width]

theorem length_inst_bytes (inst : Inst) : (inst_bytes inst).length = inst_size := by
  simp [inst_bytes]

/-- The buffer while the first `n` instructions are written. -/
def padded (max_num_insts_per_prog : Nat) (iseq : List Inst) (n : Nat) : List Byte :=
  (iseq.take n).flatMap inst_beat ++ new_send_buffer (max_num_insts_per_prog - n)

/-- One more instruction. -/
theorem store_inst {max_num_insts_per_prog n : Nat} {iseq : List Inst} (hn : n < max_num_insts_per_prog) {inst : Inst}
    (hinst : iseq[n]? = some inst) :
    store (padded max_num_insts_per_prog iseq n) (axi_datapath_byte_width * n) (inst_bytes inst) =
      some (padded max_num_insts_per_prog iseq (n + 1)) := by
  have hlen := (List.getElem?_eq_some_iff.1 hinst).1
  have hprefix : ((iseq.take n).flatMap inst_beat).length = axi_datapath_byte_width * n := by
    rw [Blocks.length_flatMap fun x _ => length_inst_beat x, List.length_take, Nat.min_eq_left (by omega)]
  -- the zeros behind the instructions, the next beat apart
  have hrest : new_send_buffer (max_num_insts_per_prog - n) =
      List.replicate inst_size 0 ++ (List.replicate 24 0 ++ new_send_buffer (max_num_insts_per_prog - (n + 1))) := by
    unfold new_send_buffer axi_datapath_byte_width inst_size
    rw [List.replicate_append_replicate, List.replicate_append_replicate]
    congr 1
    omega
  unfold padded
  rw [hrest, store_append _ (by rw [List.length_replicate, length_inst_bytes]) hprefix, List.take_add_one, hinst,
    List.flatMap_append, Option.toList_some, List.flatMap_singleton, inst_beat]
  simp only [List.append_assoc]

/-- The loop of `execute`. -/
theorem pad_insts_eq {max_num_insts_per_prog n : Nat} {iseq : List Inst} (hn : n ≤ iseq.length) (hle : n ≤ max_num_insts_per_prog) :
    pad_insts iseq n (new_send_buffer max_num_insts_per_prog) = some (padded max_num_insts_per_prog iseq n) := by
  induction n with
  | zero => rfl
  | succ n ih =>
    have hoff : inst_size * (n * (axi_datapath_byte_width / inst_size)) = axi_datapath_byte_width * n := by
      unfold inst_size axi_datapath_byte_width
      omega
    have hinst := List.getElem?_eq_getElem (show n < iseq.length by omega)
    have hprev := ih (by omega) (by omega)
    unfold pad_insts at hprev ⊢
    rw [List.range_succ, List.foldlM_append, hprev, Option.bind_eq_bind, Option.bind_some, List.foldlM_cons, hinst]
    change (store _ (inst_size * (n * (axi_datapath_byte_width / inst_size))) _).bind _ = _
    rw [hoff, store_inst (by omega) hinst]
    rfl

theorem guard_of {p : Prop} [Decidable p] (h : p) : guard (f := Option) p = some () := if_pos h

theorem guard_of_not {p : Prop} [Decidable p] (h : ¬ p) : guard (f := Option) p = none := if_neg h

theorem execute_eq (max_num_insts_per_prog : Nat) (prog : Program) :
    execute max_num_insts_per_prog prog (new_send_buffer max_num_insts_per_prog) =
      if (SendCall.execute prog).Accepted max_num_insts_per_prog then
        some (new_send_buffer max_num_insts_per_prog, (SendCall.execute prog).beats.flatten) else none := by
  by_cases hconcluded : prog.concluded = true
  · -- the assertions, one after the other
    by_cases hmax : prog.get_num_insts ≤ max_num_insts_per_prog
    · have hpad := pad_insts_eq (show prog.get_num_insts ≤ prog.get_inst_seq.length from le_rfl) hmax
      have hsize : prog.get_num_insts * inst_size * (axi_datapath_byte_width / inst_size) =
          axi_datapath_byte_width * prog.get_num_insts := by
        unfold inst_size axi_datapath_byte_width
        omega
      have hlen : (prog.get_inst_seq.flatMap inst_beat).length = axi_datapath_byte_width * prog.get_num_insts :=
        Blocks.length_flatMap fun x _ => length_inst_beat x
      have hpadded : padded max_num_insts_per_prog prog.get_inst_seq prog.get_num_insts =
          prog.get_inst_seq.flatMap inst_beat ++ new_send_buffer (max_num_insts_per_prog - prog.get_num_insts) := by
        have htake : prog.get_inst_seq.take prog.get_num_insts = prog.get_inst_seq := List.take_length
        rw [padded, htake]
      have hzero : List.replicate (axi_datapath_byte_width * prog.get_num_insts) (0 : Byte) ++
          new_send_buffer (max_num_insts_per_prog - prog.get_num_insts) = new_send_buffer max_num_insts_per_prog := by
        unfold new_send_buffer
        rw [List.replicate_append_replicate, ← Nat.mul_add, Nat.add_sub_cancel' hmax]
      unfold execute
      simp only [guard_of hconcluded, guard_of hmax, hpad, hsize, hpadded, load_append _ hlen, fill_append _ _ hlen, hzero,
        Option.bind_eq_bind, Option.bind_some, hlen]
      -- `sendData` refuses to send nothing
      by_cases hempty : prog.get_num_insts = 0
      · rw [if_neg fun h => h.2.2 hempty, hempty, Nat.mul_zero]
        rfl
      · have hsent : axi_datapath_byte_width * prog.get_num_insts ≠ 0 := by
          unfold axi_datapath_byte_width
          omega
        rw [if_pos ⟨hconcluded, hmax, hempty⟩, guard_of hsent, Option.bind_some]
        rfl
    · unfold execute
      simp only [guard_of hconcluded, guard_of_not hmax, Option.bind_eq_bind, Option.bind_some, Option.bind_none]
      rw [if_neg fun h => hmax h.2.1]
  · rw [if_neg fun h => hconcluded h.1, execute, guard_of_not hconcluded]
    rfl

theorem control_beat_eq (byte0 byte8 : Byte) :
    control_beat byte0 byte8 = [byte0] ++ (List.replicate 7 0 ++ ([byte8] ++ List.replicate 23 0)) := rfl

theorem length_control_beat (byte0 byte8 : Byte) : (control_beat byte0 byte8).length = axi_datapath_byte_width := by
  simp [control_beat]

/-- The buffer, its first beat apart. -/
theorem send_buffer_succ (n : Nat) : new_send_buffer (n + 1) = control_beat 0 0 ++ new_send_buffer n := by
  have hzero : control_beat 0 0 = List.replicate axi_datapath_byte_width 0 := rfl
  unfold new_send_buffer
  rw [hzero, List.replicate_append_replicate, Nat.mul_succ, Nat.add_comm]

theorem store_byte8 (byte0 old byte8 : Byte) (buf : List Byte) :
    store (control_beat byte0 old ++ buf) 8 [byte8] = some (control_beat byte0 byte8 ++ buf) := by
  have hone : [old].length = [byte8].length := rfl
  have hoff : ([byte0] ++ List.replicate 7 0).length = 8 := rfl
  have hstore := store_append (List.replicate 23 0 ++ buf) hone hoff
  rw [control_beat_eq, control_beat_eq]
  simpa only [List.append_assoc] using hstore

theorem store_byte0 (old byte0 byte8 : Byte) (buf : List Byte) :
    store (control_beat old byte8 ++ buf) 0 [byte0] = some (control_beat byte0 byte8 ++ buf) := by
  have hone : [old].length = [byte0].length := rfl
  have hoff : ([] : List Byte).length = 0 := rfl
  have hstore := store_append (List.replicate 7 0 ++ ([byte8] ++ List.replicate 23 0) ++ buf) hone hoff
  rw [control_beat_eq, control_beat_eq]
  simpa only [List.append_assoc, List.nil_append] using hstore

theorem length_send_buffer (n : Nat) : (new_send_buffer n).length = axi_datapath_byte_width * n := List.length_replicate

theorem fill_send_buffer {buf : List Byte} {n : Nat} (h : buf.length = axi_datapath_byte_width * n) :
    fill buf 0 (axi_datapath_byte_width * n) = some (new_send_buffer n) := by
  rw [← h, fill_all, h]
  rfl

theorem length_beat_append (byte0 byte8 : Byte) (n : Nat) :
    (control_beat byte0 byte8 ++ new_send_buffer n).length = axi_datapath_byte_width * (n + 1) := by
  rw [List.length_append, length_control_beat, length_send_buffer, Nat.mul_succ, Nat.add_comm]

theorem resetFPGA_eq (max_num_insts_per_prog : Nat) : resetFPGA (new_send_buffer max_num_insts_per_prog) =
    if SendCall.resetFPGA.Accepted max_num_insts_per_prog then
      some (new_send_buffer max_num_insts_per_prog, SendCall.resetFPGA.beats.flatten) else none := by
  cases max_num_insts_per_prog with
  | zero => rfl
  | succ n =>
    have hacc : SendCall.resetFPGA.Accepted (n + 1) := Nat.succ_pos n
    rw [if_pos hacc]
    unfold resetFPGA
    simp only [length_send_buffer, fill_send_buffer (length_send_buffer (n + 1)), Option.bind_eq_bind, Option.bind_some]
    rw [send_buffer_succ, store_byte8, Option.bind_some, load_append _ (length_control_beat 0 1), Option.bind_some,
      fill_send_buffer (length_beat_append 0 1 n), send_buffer_succ]
    rfl

theorem setAREF_eq (max_num_insts_per_prog : Nat) (is_on : Bool) : setAREF is_on (new_send_buffer max_num_insts_per_prog) =
    if (SendCall.setAREF is_on).Accepted max_num_insts_per_prog then
      some (new_send_buffer max_num_insts_per_prog, (SendCall.setAREF is_on).beats.flatten) else none := by
  cases max_num_insts_per_prog with
  | zero => rfl
  | succ n =>
    have hacc : (SendCall.setAREF is_on).Accepted (n + 1) := Nat.succ_pos n
    rw [if_pos hacc]
    unfold setAREF
    simp only [length_send_buffer, fill_send_buffer (length_send_buffer (n + 1)), Option.bind_eq_bind, Option.bind_some]
    rw [send_buffer_succ, store_byte8, Option.bind_some, store_byte0, Option.bind_some, load_append _ (length_control_beat _ 8),
      Option.bind_some, fill_send_buffer (length_beat_append _ 8 n), send_buffer_succ]
    rfl

/-- What one call sends, and the buffer it leaves. -/
theorem SendCall.run_eq (max_num_insts_per_prog : Nat) (c : SendCall) :
    c.run max_num_insts_per_prog (new_send_buffer max_num_insts_per_prog) =
      if c.Accepted max_num_insts_per_prog then some (new_send_buffer max_num_insts_per_prog, c.beats.flatten) else none := by
  cases c with
  | execute prog => exact execute_eq max_num_insts_per_prog prog
  | resetFPGA => exact resetFPGA_eq max_num_insts_per_prog
  | setAREF is_on => exact setAREF_eq max_num_insts_per_prog is_on

/-- What a sequence of calls sends, and the buffer it leaves. -/
theorem send_all_eq (max_num_insts_per_prog : Nat) (cs : List SendCall) :
    send_all max_num_insts_per_prog cs (new_send_buffer max_num_insts_per_prog) =
      if ∀ c ∈ cs, c.Accepted max_num_insts_per_prog then
        some (new_send_buffer max_num_insts_per_prog, (cs.flatMap SendCall.beats).flatten) else none := by
  induction cs with
  | nil => rfl
  | cons c cs ih =>
    rw [send_all, c.run_eq]
    by_cases hc : c.Accepted max_num_insts_per_prog
    · rw [if_pos hc, Option.bind_eq_bind, Option.bind_some]
      dsimp only
      rw [ih]
      by_cases hcs : ∀ c ∈ cs, c.Accepted max_num_insts_per_prog
      · rw [if_pos hcs, if_pos (List.forall_mem_cons.2 ⟨hc, hcs⟩), Option.bind_some, List.flatMap_cons, List.flatten_append]
        rfl
      · rw [if_neg hcs, if_neg fun h => hcs (List.forall_mem_cons.1 h).2]
        rfl
    · rw [if_neg hc, if_neg fun h => hc (List.forall_mem_cons.1 h).1]
      rfl

theorem inst_beat_byte8 (inst : Inst) : (inst_beat inst)[8]? = some 0 := by
  unfold inst_beat
  rw [List.getElem?_append_right (by rw [length_inst_bytes]; decide), length_inst_bytes]
  rfl

/-- A beat is an instruction's if and only if its byte 8 is zero. -/
theorem SendCall.beat_kind (c : SendCall) {beat : List Byte} (h : beat ∈ c.beats) :
    beat.length = axi_datapath_byte_width ∧ (beat[8]? = some 0 ↔ ∃ prog, c = .execute prog) := by
  cases c with
  | execute prog =>
    obtain ⟨inst, -, rfl⟩ := List.mem_map.1 h
    exact ⟨length_inst_beat inst, fun _ => ⟨prog, rfl⟩, fun _ => inst_beat_byte8 inst⟩
  | resetFPGA =>
    obtain rfl := List.mem_singleton.1 h
    refine ⟨length_control_beat 0 1, fun h8 => ?_, fun ⟨prog, hprog⟩ => by cases hprog⟩
    rw [control_beat_eq] at h8
    cases h8
  | setAREF is_on =>
    obtain rfl := List.mem_singleton.1 h
    refine ⟨length_control_beat _ 8, fun h8 => ?_, fun ⟨prog, hprog⟩ => by cases hprog⟩
    rw [control_beat_eq] at h8
    cases h8

/-- Calls whose assertions hold leave the send buffer zero and send their beats
in turn, one for each instruction, reset or auto refresh setting; byte 8 tells
instructions from control beats. Other calls fail. -/
theorem send_all_framed (max_num_insts_per_prog : Nat) (cs : List SendCall) :
    (send_all max_num_insts_per_prog cs (new_send_buffer max_num_insts_per_prog) =
      if ∀ c ∈ cs, c.Accepted max_num_insts_per_prog then
        some (new_send_buffer max_num_insts_per_prog, (cs.flatMap SendCall.beats).flatten) else none) ∧
    ∀ c ∈ cs, ∀ beat ∈ c.beats, beat.length = axi_datapath_byte_width ∧ (beat[8]? = some 0 ↔ ∃ prog, c = .execute prog) :=
  ⟨send_all_eq max_num_insts_per_prog cs, fun c _ _ h => c.beat_kind h⟩

example : control_beat 1 8 = [1, 0, 0, 0, 0, 0, 0, 0, 8, 0, 0, 0, 0, 0, 0, 0,
    0, 0, 0, 0, 0, 0, 0, 0, 0, 0, 0, 0, 0, 0, 0, 0] := by decide

end Platform

end DRAMBender
