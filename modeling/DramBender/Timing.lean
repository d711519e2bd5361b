import Mathlib
import DramBender.StraightWords
/-!
# A board with a clock

Words take fabric cycles of four DRAM slots each: one for a word, the amount
for a SLEEP, six for a branch. A DDR word issues one command in each of its
slots.
-/

namespace DRAMBender

open Machine

/-- A command and the slot it is issued in. -/
abbrev Stamped := Nat × Cmd

namespace Board

/-- Fabric cycles of a word. `SMC_SLEEP(n)` leaves `n - 2` in it. -/
def cycles : Mnemonic → Nat
  | .SLEEP samt => samt.toNat + 2
  | _ => 1

def branch_cycles : Nat := 6

/-- The commands of a word, from slot `t` on. -/
def issue_slots (t : Nat) (b : Board) : List Ddr → Board × List Stamped
  | [] => (b, [])
  | d :: ds =>
    let (b1, es) := b.issue d
    let (b2, es') := issue_slots (t + 1) b1 ds
    (b2, es.map (fun c => (t, c)) ++ es')

/-- `exec`, at a fabric cycle. -/
def timed_exec (other : Mnemonic → Board → Board × List Cmd) (m : Mnemonic) (s : Board × Nat) : (Board × Nat) × List Stamped :=
  match m with
  | .DDR s0 s1 s2 s3 =>
    let (b, es) := s.1.issue_slots (4 * s.2) [s0, s1, s2, s3]
    ((b, s.2 + 1), es)
  | m =>
    let (b, es) := exec other m s.1
    ((b, s.2 + cycles m), es.map fun c => (4 * s.2, c))

/-- The board with a clock, as an instruction set. -/
def timed (signed : Bool) (other : Mnemonic → Board → Board × List Cmd) : Isa (Board × Nat) Stamped where
  exec := timed_exec other
  branch := fun _ s => ((s.1, s.2 + branch_cycles), [])
  lt := fun s => (isa signed other).lt s.1
  eq := fun s => (isa signed other).eq s.1

/-! ## Without the clock -/

theorem map_snd_stamped (t : Nat) (es : List Cmd) : (es.map fun c => (t, c)).map Prod.snd = es := by
  rw [List.map_map]
  exact List.map_id es

theorem issue_all_cons (b : Board) (d : Ddr) (ds : List Ddr) : b.issue_all (d :: ds) =
    (((b.issue d).1.issue_all ds).1, (b.issue d).2 ++ ((b.issue d).1.issue_all ds).2) := rfl

theorem issue_slots_cons (t : Nat) (b : Board) (d : Ddr) (ds : List Ddr) : b.issue_slots t (d :: ds) =
    (((b.issue d).1.issue_slots (t + 1) ds).1,
      (b.issue d).2.map (fun c => (t, c)) ++ ((b.issue d).1.issue_slots (t + 1) ds).2) := rfl

theorem issue_slots_project (ds : List Ddr) (t : Nat) (b : Board) :
    b.issue_all ds = ((b.issue_slots t ds).1, (b.issue_slots t ds).2.map Prod.snd) := by
  induction ds generalizing t b with
  | nil => rfl
  | cons d ds ih => rw [issue_all_cons, issue_slots_cons, ih (t + 1), List.map_append, map_snd_stamped]

theorem exec_project (other : Mnemonic → Board → Board × List Cmd) (m : Mnemonic) (s : Board × Nat) :
    exec other m s.1 = ((timed_exec other m s).1.1, (timed_exec other m s).2.map Prod.snd) := by
  cases m with
  | DDR s0 s1 s2 s3 => exact issue_slots_project [s0, s1, s2, s3] (4 * s.2) s.1
  | _ => exact Prod.ext rfl (map_snd_stamped (4 * s.2) _).symm

/-- The clock changes nothing. -/
theorem act_project (signed : Bool) (other : Mnemonic → Board → Board × List Cmd) (w : Inst) :
    Act.Projects Prod.fst Prod.snd (fun _ => True) ((timed signed other).act w) ((isa signed other).act w) := by
  have hexec : ∀ m s, (isa signed other).exec m s.1 =
      (((timed signed other).exec m s).1.1, ((timed signed other).exec m s).2.map Prod.snd) := exec_project other
  unfold Isa.act
  cases decode_inst w with
  | END => exact .halt
  | INFO => exact .exec fun _ _ => rfl
  | BL bt rs1 rs2 => exact .branch (fun _ _ => rfl) fun _ => rfl
  | BEQ bt rs1 rs2 => exact .branch (fun _ _ => rfl) fun _ => rfl
  | JUMP jt => exact .branch (fun _ _ => rfl) fun _ => rfl
  | _ => exact .exec fun s _ => hexec _ s

theorem halts_project {signed : Bool} {other : Mnemonic → Board → Board × List Cmd} {ws : List Inst} {s s' : Board × Nat}
    {es : List Stamped} (h : Halts (ws.map (timed signed other).act) 0 s es s') :
    Halts (ws.map (isa signed other).act) 0 s.1 (es.map Prod.snd) s'.1 := by
  refine h.project ?_ fun _ _ => trivial
  rw [List.forall₂_map_left_iff, List.forall₂_map_right_iff]
  exact List.forall₂_same.2 fun w _ => act_project signed other w

end Board

end DRAMBender

namespace DCT

open DRAMBender Machine
open DRAMBender.Board
open Program (loop)

/-! ## Straight words, with the clock -/

/-- The effect of straight words on a board with a clock. -/
def time_all (other : Mnemonic → Board → Board × List Cmd) (ms : List Mnemonic) (s : Board × Nat) :
    (Board × Nat) × List Stamped :=
  effects (ms.map (timed_exec other)) s

section
variable (other : Mnemonic → Board → Board × List Cmd) (ms : List Mnemonic) (b : Board) (t : Nat)

theorem time_all_nil : time_all other [] (b, t) = ((b, t), []) := rfl

theorem time_all_cons (m : Mnemonic) (s : Board × Nat) : time_all other (m :: ms) s =
    ((time_all other ms (timed_exec other m s).1).1,
      (timed_exec other m s).2 ++ (time_all other ms (timed_exec other m s).1).2) := rfl

theorem time_all_append (ns : List Mnemonic) (s : Board × Nat) : time_all other (ms ++ ns) s =
    ((time_all other ns (time_all other ms s).1).1,
      (time_all other ms s).2 ++ (time_all other ns (time_all other ms s).1).2) := by
  rw [time_all, List.map_append, effects_append]
  rfl

/-- The branch takes its cycles and changes nothing else. -/
theorem time_all_branch (signed : Bool) (s : Board × Nat) :
    effects (ms.map (timed signed other).exec ++ [(timed signed other).branch .BL]) s =
      (((time_all other ms s).1.1, (time_all other ms s).1.2 + branch_cycles), (time_all other ms s).2) := by
  rw [effects_append]
  exact Prod.ext rfl (List.append_nil _)

theorem time_all_LI (rt : Reg) (imd : CInt) :
    time_all other (.LI rt imd :: ms) (b, t) = time_all other ms (b.set_reg rt imd, t + 1) := rfl

theorem time_all_ADDI (rt rs1 : Reg) (imd1 : BitVec 16) : time_all other (.ADDI rt rs1 imd1 :: ms) (b, t) =
    time_all other ms (b.set_reg rt (b.regs rs1 + imd1.setWidth 32), t + 1) := rfl

theorem time_all_SLEEP (samt : BitVec 32) :
    time_all other (.SLEEP samt :: ms) (b, t) = time_all other ms (b, t + (samt.toNat + 2)) := rfl

theorem time_all_PRE : time_all other (only (.PRE 4 false false false) :: ms) (b, t) =
    ((time_all other ms (b, t + 1)).1, (4 * t, .PRE (false, b.regs 4#4)) :: (time_all other ms (b, t + 1)).2) := by
  have hexec : timed_exec other (only (.PRE 4 false false false)) (b, t) =
      ((b, t + 1), [(4 * t, .PRE (false, b.regs 4#4))]) := rfl
  rw [time_all, List.map_cons, effects, hexec]
  rfl

theorem time_all_ACT_last : time_all other (only_last (.ACT 4 false 5 false false) :: ms) (b, t) =
    let b' := { b with row := Function.update b.row (false, b.regs 4#4) (b.regs 5#4) }
    ((time_all other ms (b', t + 1)).1, (4 * t + 3, .ACT (false, b.regs 4#4) (b.regs 5#4)) :: (time_all other ms (b', t + 1)).2) := by
  have hexec : timed_exec other (only_last (.ACT 4 false 5 false false)) (b, t) =
      (({ b with row := Function.update b.row (false, b.regs 4#4) (b.regs 5#4) }, t + 1),
        [(4 * t + 3, .ACT (false, b.regs 4#4) (b.regs 5#4))]) := rfl
  rw [time_all, List.map_cons, effects, hexec]
  rfl

end

/-- The loop on a board with a clock. -/
theorem halts_timed {pre body post : List Call} {rs1 rs2 : CInt} {tgt : String} {p : Program} {ms ns qs : List Mnemonic}
    (hp : generate (loop pre body post rs1 rs2 tgt) = some p) (hx : Platform.Executable p) (hpre : Spells pre ms)
    (hbody : Spells body ns) (hpost : Spells post qs) (h1 : rs1 < 16) (h2 : rs2 < 16)
    (hms : Straight ms) (hns : Straight ns) (hqs : Straight qs)
    (signed : Bool) (other : Mnemonic → Board → Board × List Cmd) {n : Nat} (hn : 0 < n)
    (J : Nat → Board → Nat → List Stamped → Prop) (b : Board) (t : Nat)
    (h0 : J 0 (time_all other ms (b, t)).1.1 (time_all other ms (b, t)).1.2 (time_all other ms (b, t)).2)
    (hstep : ∀ i b t es, i < n → J i b t es → ∃ b' t' es', time_all other ns (b, t) = ((b', t'), es') ∧
      J (i + 1) b' (t' + branch_cycles) (es ++ es') ∧
        (Board.isa signed other).lt b' (rs1.setWidth 4) (rs2.setWidth 4) = decide (i + 1 < n)) :
    ∃ b1 t1 es1, Halts (p.get_inst_seq.map (timed signed other).act) 0 (b, t) (es1 ++ (time_all other qs (b1, t1)).2)
      (time_all other qs (b1, t1)).1 ∧ J n b1 t1 es1 := by
  obtain ⟨⟨b1, t1⟩, es1, hh, hJ⟩ : ∃ (s1 : Board × Nat) (es1 : List Stamped),
      Halts (p.get_inst_seq.map (timed signed other).act) 0 (b, t)
      (es1 ++ (time_all other qs s1).2) (time_all other qs s1).1 ∧ J n s1.1 s1.2 es1 := by
    refine halts_generated hp hx hpre hbody hpost h1 h2 hms hns hqs (timed signed other) hn
      (fun i s es => J i s.1 s.2 es) (b, t) h0 ?_
    rintro i ⟨b, t⟩ es hi hJ
    obtain ⟨b', t', es', hr, hJ', hlt⟩ := hstep i b t es hi hJ
    have hbody : effects (ns.map (timed signed other).exec) (b, t) = ((b', t'), es') := hr
    rw [time_all_branch, hbody, hr]
    exact ⟨hJ', hlt⟩
  exact ⟨b1, t1, es1, hh, hJ⟩

end DCT
