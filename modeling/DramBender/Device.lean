import Mathlib
import DramBender.Lib.Track
import DramBender.ViolationTimes
/-!
# The DRAM behind a board

Of a board only the commands it issues reach the DRAM: a run leaves behind what
they do to the open rows and the cells (`halts_device`), whatever the words
`instruction.h` says nothing about would do.
-/

namespace DRAMBender

open Machine
open DCT

/-- The lines of all rows. -/
abbrev Cells := Bank → CInt → CInt → Line

/-- The row last activated in each bank, and what the rows hold. -/
structure Dram where
  row : Bank → CInt
  cells : Cells

namespace Dram

def command (d : Dram) : Cmd → Dram
  | .ACT bank row_id => { d with row := Function.update d.row bank row_id }
  | .WR bank col _ line => { d with cells := put_row bank [col] d.cells (d.row bank) line }
  | .PRE _ | .PREA _ | .RD _ _ _ _ | .REF _ => d

def commands (d : Dram) (cs : List Cmd) : Dram := cs.foldl command d

theorem commands_cons (d : Dram) (c : Cmd) (cs : List Cmd) : d.commands (c :: cs) = (d.command c).commands cs := rfl

theorem commands_append (d : Dram) (cs cs' : List Cmd) : d.commands (cs ++ cs') = (d.commands cs).commands cs' :=
  List.foldl_append

/-! ## The commands of the generators -/

theorem commands_writes (bank : Bank) (cols : List CInt) (line : Line) (d : Dram) :
    d.commands (cols.map fun col => .WR bank col false line) =
      { d with cells := put_row bank cols d.cells (d.row bank) line } := by
  induction cols generalizing d with
  | nil =>
    rw [put_row_nil]
    rfl
  | cons col cols ih =>
    rw [List.map_cons, commands_cons, ih, command]
    dsimp only
    rw [← put_row_append, List.singleton_append]

/-- Commands that write nothing. -/
theorem commands_quiet {cs : List Cmd} (h : ∀ c ∈ cs, ∀ bank col ap line, c ≠ .WR bank col ap line) (d : Dram) :
    (d.commands cs).cells = d.cells := by
  induction cs generalizing d with
  | nil => rfl
  | cons c cs ih =>
    have hc := h c List.mem_cons_self
    rw [commands_cons, ih fun c' hc' => h c' (List.mem_cons_of_mem _ hc')]
    cases c with
    | WR bank col ap line => exact absurd rfl (hc bank col ap line)
    | _ => rfl

theorem cells_write_cmds (bank : Bank) (cols : List CInt) (row_id : CInt) (line : Line) (d : Dram) :
    (d.commands (write_cmds bank cols row_id line)).cells = put_row bank cols d.cells row_id line := by
  rw [write_cmds, List.cons_append, commands_cons, commands_append, commands_writes]
  change put_row bank cols d.cells (Function.update d.row bank row_id bank) line = _
  rw [Function.update_self]

/-- Rows written one after the other. -/
theorem cells_flatMap_write_cmds {ι : Type} (bank : Bank) (xs : List ι) (cols : ι → List CInt) (row_id : ι → CInt) (line : ι → Line)
    (d : Dram) : (d.commands (xs.flatMap fun x => write_cmds bank (cols x) (row_id x) (line x))).cells =
      xs.foldl (fun cells x => put_row bank (cols x) cells (row_id x) (line x)) d.cells := by
  induction xs generalizing d with
  | nil => rfl
  | cons x xs ih => rw [List.flatMap_cons, commands_append, ih, cells_write_cmds, List.foldl_cons]

end Dram

namespace Board

def device (b : Board) : Dram := ⟨b.row, b.dram⟩

theorem device_increment (b : Board) (flag : Bool) (r stride : Reg) : (b.increment flag r stride).device = b.device := by
  unfold increment
  split <;> rfl

theorem device_issue (b : Board) (d : Ddr) : (b.issue d).1.device = b.device.commands (b.issue d).2 := by
  cases d with
  | WR bar ibar car icar ap rank =>
    change ((Board.increment _ _ _ _).increment _ _ _).device = _
    rw [device_increment, device_increment]
    exact congrArg (Dram.mk b.row) (update_eq_put_row ..)
  | RD bar ibar car icar ap rank =>
    change ((Board.increment _ _ _ _).increment _ _ _).device = _
    rw [device_increment, device_increment]
    rfl
  | PRE bar ibar pall rank =>
    change (Board.increment _ _ _ _).device = _
    rw [device_increment]
    cases pall <;> rfl
  | ACT bar ibar rar irar rank =>
    change ((Board.increment _ _ _ _).increment _ _ _).device = _
    rw [device_increment, device_increment]
    rfl
  | REF rank => rfl
  | SEL_CH ch => rfl
  | NOP ch => rfl
  | skip => rfl

theorem device_issue_all (ds : List Ddr) (b : Board) : (b.issue_all ds).1.device = b.device.commands (b.issue_all ds).2 := by
  induction ds generalizing b with
  | nil => rfl
  | cons d ds ih =>
    rw [issue_all_cons, Dram.commands_append, ← device_issue]
    exact ih _

/-- A word nothing is said about gives itself away by a REF. -/
def told (_ : Mnemonic) (b : Board) : Board × List Cmd := (b, [.REF true])

theorem device_exec (m : Mnemonic) (b : Board) : (exec told m b).1.device = b.device.commands (exec told m b).2 := by
  cases m with
  | DDR s0 s1 s2 s3 => exact device_issue_all [s0, s1, s2, s3] b
  | _ => rfl

theorem tracks_told (signed : Bool) (w : Inst) : ((isa signed told).act w).Tracks device Dram.command := by
  unfold Isa.act
  cases decode_inst w with
  | END => exact .halt
  | INFO => exact .exec fun _ => rfl
  | BL bt rs1 rs2 => exact .branch fun _ => rfl
  | BEQ bt rs1 rs2 => exact .branch fun _ => rfl
  | JUMP jt => exact .branch fun _ => rfl
  | _ => exact .exec (device_exec _)

/-- A word the ISA comment does not describe tells on itself by a REF. -/
theorem project_told (signed : Bool) (other : Mnemonic → Board → Board × List Cmd) (w : Inst) :
    Act.Projects id id (fun c => c ≠ .REF true) ((isa signed told).act w) ((isa signed other).act w) := by
  have hexec : ∀ (f : Board → Board × List Cmd) (s : Board), f (id s) = (id (f s).1, (f s).2.map id) := by
    intro f s
    rw [List.map_id]
    rfl
  unfold Isa.act
  cases decode_inst w with
  | END => exact .halt
  | INFO => exact .exec fun _ _ => rfl
  | BL bt rs1 rs2 => exact .branch (fun _ _ => rfl) fun _ => rfl
  | BEQ bt rs1 rs2 => exact .branch (fun _ _ => rfl) fun _ => rfl
  | JUMP jt => exact .branch (fun _ _ => rfl) fun _ => rfl
  | DDR s0 s1 s2 s3 => exact .exec fun s _ => hexec _ s
  | LI rt imd => exact .exec fun s _ => hexec _ s
  | ADDI rt rs1 imd1 => exact .exec fun s _ => hexec _ s
  | MOV rt rs1 => exact .exec fun s _ => hexec _ s
  | LDWD rt rs1 => exact .exec fun s _ => hexec _ s
  | LD rt rs1 imd1 => exact .exec fun s _ => hexec _ s
  | ST rs1 imd1 rt => exact .exec fun s _ => hexec _ s
  | SLEEP samt => exact .exec fun s _ => hexec _ s
  | _ => exact .exec fun _ h => absurd rfl (h (.REF true) (by simp [Board.isa, exec, told]))

/-- A program that issues the same commands without a REF whatever the other
words do ends, whatever they do, on one board, and the commands say what has
become of its DRAM. -/
theorem halts_device {signed : Bool} {ws : List Inst} {b : Board} {es : List Cmd} (hes : .REF true ∉ es)
    (h : ∃ b', Halts (ws.map (isa signed told).act) 0 b es b') :
    ∃ b', (∀ other, Halts (ws.map (isa signed other).act) 0 b es b') ∧ b'.device = b.device.commands es := by
  obtain ⟨b', hh⟩ := h
  have hproject : ∀ other, List.Forall₂ (Act.Projects id id fun c => c ≠ .REF true) (ws.map (isa signed told).act)
      (ws.map (isa signed other).act) := by
    intro other
    rw [List.forall₂_map_left_iff, List.forall₂_map_right_iff]
    exact List.forall₂_same.2 fun w _ => project_told signed other w
  refine ⟨b', fun other => ?_, hh.track (List.forall_mem_map.2 fun w _ => tracks_told signed w)⟩
  have hrun := hh.project (hproject other) fun c hc hcmd => hes (hcmd ▸ hc)
  rwa [List.map_id] at hrun

end Board

end DRAMBender
