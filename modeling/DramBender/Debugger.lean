import Mathlib
import DramBender.Lib.News
import DramBender.Lib.Strings
/-!
# The debugger

`Program::debug(prj_dir, first)` passes commands from the console to a simulation
and prints its answers. After each answer it reads the log of the simulation and
prints the violations that it has not printed before. A word stands for what
`std::cin` extracts, and a line of the log is a list of characters.
-/

namespace DRAMBender

open Strings News

namespace Debugger

abbrev LogLine := List Char

def start_mark : List Char :=
  "sim_tb_top.mem_model_x8.memModels_Ri1[0].memModel1[0].ddr4_model.always_diff_ck.if_diff_ck:VIOLATION:".toList

def end_mark : List Char :=
  "sim_tb_top.mem_model_x8.memModels_Ri1[0].memModel1[1].ddr4_model.always_diff_ck.if_diff_ck:VIOLATION:".toList

def commands : List String := ["reg", "mem", "time", "step", "run", "until", "exit", "btwn", "stat"]

/-! ## Reading the log -/

/-- The lines up to the next end, and those behind it. -/
def details : List LogLine → List LogLine × List LogLine
  | [] => ([], [])
  | line :: log =>
    if find line end_mark ≠ none then ([], log)
    else (line :: (details log).1, (details log).2)

theorem length_details (log : List LogLine) : (details log).2.length ≤ log.length := by
  induction log with
  | nil => exact le_rfl
  | cons line log ih =>
    rw [details]
    split
    · exact Nat.le_succ _
    · exact le_trans ih (Nat.le_succ _)

/-- State 3: the lines printed, and the violations then known. `none` is an
exception of `substr`. -/
def scan (log vios : List LogLine) : Option (List LogLine × List LogLine) :=
  match log with
  | [] => some ([], vios)
  | line :: log =>
    if find line start_mark = none then scan log vios
    else if line ∈ vios then scan log vios
    else do
      let title ← substr line (some 91) none
      let (shown, vios) ← scan (details log).2 (line :: vios)
      some (title :: ((details log).1 ++ shown), vios)
termination_by log.length
decreasing_by
  · exact Nat.lt_succ_self _
  · exact Nat.lt_succ_self _
  · exact Nat.lt_succ_of_le (length_details _)

/-! ## The states -/

/-- `state`, from 0 to 3, and 5. -/
inductive Phase where
  | enter
  | send
  | answer
  | report
  | done
  deriving DecidableEq

/-- What is printed: texts of the debugger, and lines of the log. -/
inductive Shown where
  | text (s : String)
  | line (l : LogLine)

end Debugger

open Debugger in
structure Debugger where
  phase : Phase
  com : String
  param : String
  param2 : String
  msg : String
  buf : String
  vios : List LogLine
  /-- The words still to be extracted. -/
  input : List String
  /-- The messages written to the first pipe. -/
  sent : List String
  shown : List Shown

namespace Debugger

def init (input : List String) : Debugger := ⟨.enter, "", "", "", "", "", [], input, [], []⟩

/-- `std::cin >> word`: at the end of the input the word stays as it is. -/
def extract (word : String) : List String → String × List String
  | [] => (word, [])
  | w :: input => (w, input)

/-- State 0. -/
def enter (d : Debugger) : Debugger :=
  let (com, input) := extract d.com d.input
  let shown := d.shown ++ [.text "Enter command: "]
  if com ∈ commands then
    if com ∈ ["step", "exit", "time", "stat"] then
      { d with phase := .send, com, input, shown, msg := com ++ "_\n" }
    else if com = "btwn" then
      let (param, input) := extract d.param input
      let (param2, input) := extract d.param2 input
      { d with phase := .send, com, param, param2, input, shown, msg := com ++ "_" ++ param ++ "_" ++ param2 ++ "\n" }
    else
      let (param, input) := extract d.param input
      { d with phase := .send, com, param, input, shown, msg := com ++ "_" ++ param ++ "\n" }
  else { d with com, input, shown := shown ++ [.text "Please enter a valid command...\n"] }

/-- State 2. -/
def answer (d : Debugger) : Debugger :=
  if d.com ∈ ["reg", "mem"] then
    { d with phase := .report, shown := d.shown ++ [.text (d.com ++ " " ++ d.param ++ ": " ++ d.buf)] }
  else if d.com = "btwn" then
    { d with phase := .report, shown := d.shown ++ [.text ("Time between " ++ d.param ++ "-" ++ d.param2 ++ ": " ++ d.buf)] }
  else if d.com = "time" then { d with phase := .report, shown := d.shown ++ [.text ("Current time: " ++ d.buf)] }
  else if d.com = "stat" then { d with phase := .report, shown := d.shown ++ [.text ("Stats:\n" ++ d.buf)] }
  else if d.com = "exit" then { d with phase := .done }
  else { d with phase := .report }

/-- One pass of the loop, which ends in state 5. `buf` is what the simulation
answers and `log` its log, where they are read. -/
def step (buf : String) (log : List LogLine) (d : Debugger) : Option Debugger :=
  match d.phase with
  | .enter => some d.enter
  | .send => some { d with phase := .answer, sent := d.sent ++ [d.msg], buf }
  | .answer => some d.answer
  | .report => do
    let (shown, vios) ← scan log d.vios
    some { d with phase := .enter, vios, shown := d.shown ++ shown.map .line }
  | .done => some d

/-- The debugger after a number of passes. -/
def run (bufs : Nat → String) (logs : Nat → List LogLine) (d : Debugger) : Nat → Option Debugger
  | 0 => some d
  | n + 1 => (run bufs logs d n).bind (step (bufs n) (logs n))

/-! ## What a reading of the log prints -/

/-- A violation in the log: its lines are told apart by the marks. -/
structure Violation where
  header : LogLine
  details : List LogLine
  last : LogLine
  header_starts : find header start_mark ≠ none
  details_plain : ∀ line ∈ details, find line start_mark = none ∧ find line end_mark = none
  last_ends : find last start_mark = none ∧ find last end_mark ≠ none

/-- A part of the log: a violation, or a line that starts none. -/
inductive Item where
  | other (line : LogLine) (h : find line start_mark = none)
  | violation (v : Violation)

def Item.lines : Item → List LogLine
  | .other line _ => [line]
  | .violation v => v.header :: (v.details ++ [v.last])

def Item.violation? : Item → Option Violation
  | .other _ _ => none
  | .violation v => some v

def violations (items : List Item) : List Violation := items.filterMap Item.violation?

/-- The title of a violation and its details, as they are printed. -/
def Violation.shown (v : Violation) : List LogLine := v.header.drop 91 :: v.details

theorem substr_title {line : LogLine} (h : find line start_mark ≠ none) : substr line (some 91) none = some (line.drop 91) := by
  have hin : start_mark <:+: line := by
    by_contra hno
    exact h (find_eq_none_iff.2 hno)
  have hlen : start_mark.length ≤ line.length := hin.length_le
  have hmark : start_mark.length = 101 := by decide +kernel
  rw [substr, Option.bind_eq_bind, Option.bind_some, if_neg (by omega)]

theorem scan_skip {line : LogLine} (h : find line start_mark = none) (log vios : List LogLine) :
    scan (line :: log) vios = scan log vios := by
  rw [scan, if_pos h]

theorem scan_known {line : LogLine} {vios : List LogLine} (h : line ∈ vios) (log : List LogLine) :
    scan (line :: log) vios = scan log vios := by
  rw [scan, if_pos h, ite_self]

theorem scan_new {line : LogLine} {vios : List LogLine} (h : find line start_mark ≠ none) (hnew : line ∉ vios) (log : List LogLine) :
    scan (line :: log) vios = (scan (details log).2 (line :: vios)).map fun r => (line.drop 91 :: ((details log).1 ++ r.1), r.2) := by
  rw [scan, if_neg h, if_neg hnew, substr_title h]
  cases scan (details log).2 (line :: vios) <;> rfl

/-- A reading of the log never fails. -/
theorem scan_isSome (log vios : List LogLine) : (scan log vios).isSome := by
  induction log, vios using scan.induct with
  | case1 vios => rw [scan]; rfl
  | case2 vios line log h ih => rwa [scan_skip h]
  | case3 vios line log h hmem ih => rwa [scan_known hmem]
  | case4 vios line log h hmem ih => rw [scan_new h hmem, Option.isSome_map]; exact ih

theorem scan_skip_all {lines : List LogLine} (h : ∀ line ∈ lines, find line start_mark = none) (log vios : List LogLine) :
    scan (lines ++ log) vios = scan log vios := by
  induction lines with
  | nil => rfl
  | cons line lines ih =>
    rw [List.cons_append, scan_skip (h line List.mem_cons_self)]
    exact ih fun l hl => h l (List.mem_cons_of_mem line hl)

theorem details_violation {lines : List LogLine} (h : ∀ line ∈ lines, find line end_mark = none) {last : LogLine}
    (hlast : find last end_mark ≠ none) (log : List LogLine) : details (lines ++ last :: log) = (lines, log) := by
  induction lines with
  | nil => rw [List.nil_append, details, if_pos hlast]
  | cons line lines ih =>
    rw [List.cons_append, details, if_neg (not_not.2 (h line List.mem_cons_self)), ih fun l hl => h l (List.mem_cons_of_mem line hl)]

/-- A reading prints the violations with a new header. -/
theorem scan_items (items : List Item) (vios : List LogLine) :
    scan (items.flatMap Item.lines) vios = some ((news Violation.header vios (violations items)).flatMap Violation.shown,
      seen_after Violation.header vios (violations items)) := by
  induction items generalizing vios with
  | nil => rw [List.flatMap_nil, scan]; rfl
  | cons item items ih =>
    rw [List.flatMap_cons]
    cases item with
    | other line h =>
      rw [Item.lines, List.singleton_append, scan_skip h, ih]
      rfl
    | violation v =>
      have hviolations : violations (.violation v :: items) = v :: violations items := rfl
      rw [Item.lines, List.cons_append, List.append_assoc, List.singleton_append, hviolations]
      by_cases hmem : v.header ∈ vios
      · -- neither the details nor the end of a known violation start one
        rw [scan_known hmem, scan_skip_all (fun line hl => (v.details_plain line hl).1), scan_skip v.last_ends.1, ih, news,
          if_pos hmem, seen_after_cons_old hmem]
      · rw [scan_new v.header_starts hmem, details_violation (fun line hl => (v.details_plain line hl).2) v.last_ends.2, ih,
          news, if_neg hmem, seen_after_cons_new hmem]
        rfl

/-! ## What a pass does -/

theorem enter_sent (d : Debugger) : d.enter.sent = d.sent := by
  unfold enter
  dsimp only
  split_ifs <;> rfl

theorem answer_fields (d : Debugger) : d.answer.input = d.input ∧ d.answer.sent = d.sent ∧ d.answer.com = d.com ∧
    d.answer.phase = if d.com = "exit" then .done else .report := by
  unfold answer
  by_cases h : d.com = "exit"
  · rw [h]
    simp
  · rw [if_neg h]
    split_ifs <;> exact ⟨rfl, rfl, rfl, rfl⟩

/-- Every pass succeeds, and the messages sent before stay. -/
theorem step_total (buf : String) (log : List LogLine) (d : Debugger) : ∃ d', step buf log d = some d' ∧ d.sent <+: d'.sent := by
  unfold step
  cases hphase : d.phase with
  | enter => exact ⟨_, rfl, by rw [enter_sent]⟩
  | send => exact ⟨_, rfl, List.prefix_append _ _⟩
  | answer => exact ⟨_, rfl, by rw [(answer_fields d).2.1]⟩
  | report =>
    obtain ⟨r, hr⟩ := Option.isSome_iff_exists.1 (scan_isSome log d.vios)
    dsimp only
    rw [hr]
    exact ⟨_, rfl, List.prefix_rfl⟩
  | done => exact ⟨d, rfl, List.prefix_rfl⟩

section
variable {bufs : Nat → String} {logs : Nat → List LogLine} {d0 d : Debugger} {n : Nat}

theorem run_succ (h : run bufs logs d0 n = some d) : run bufs logs d0 (n + 1) = step (bufs n) (logs n) d := by
  rw [run, h]
  rfl

theorem run_total (bufs : Nat → String) (logs : Nat → List LogLine) (d0 : Debugger) (n : Nat) : ∃ d, run bufs logs d0 n = some d := by
  induction n with
  | zero => exact ⟨d0, rfl⟩
  | succ n ih =>
    obtain ⟨d, hd⟩ := ih
    obtain ⟨d', hd', -⟩ := step_total (bufs n) (logs n) d
    exact ⟨d', (run_succ hd).trans hd'⟩

/-- What holds at first and is kept by every pass holds in every state. -/
theorem run_invariant {I : Debugger → Prop} (h0 : I d0) (hstep : ∀ buf log d d', I d → step buf log d = some d' → I d')
    (h : run bufs logs d0 n = some d) : I d := by
  induction n generalizing d with
  | zero =>
    cases h
    exact h0
  | succ n ih =>
    obtain ⟨d1, hd1⟩ := run_total bufs logs d0 n
    rw [run_succ hd1] at h
    exact hstep _ _ _ _ (ih hd1) h

theorem run_sent {k : Nat} {d' : Debugger} (h : run bufs logs d0 n = some d) (h' : run bufs logs d0 (n + k) = some d') :
    d.sent <+: d'.sent := by
  induction k generalizing d' with
  | zero =>
    cases h.symm.trans h'
    exact List.prefix_rfl
  | succ k ih =>
    obtain ⟨d1, hd1⟩ := run_total bufs logs d0 (n + k)
    obtain ⟨d2, hd2, hsent⟩ := step_total (bufs (n + k)) (logs (n + k)) d1
    cases ((run_succ hd1).trans hd2).symm.trans h'
    exact (ih hd1).trans hsent

theorem run_done {k : Nat} (h : run bufs logs d0 n = some d) (hdone : d.phase = .done) : run bufs logs d0 (n + k) = some d := by
  induction k with
  | zero => exact h
  | succ k ih =>
    rw [← Nat.add_assoc, run_succ ih, step, hdone]

/-! ## The commands -/

/-- What is typed in: a word that is no command, or a command with its
parameters. -/
inductive Entry where
  | other (word : String) (h : word ∉ commands)
  | plain (com : String) (h : com ∈ ["step", "time", "stat"])
  | btwn (param param2 : String)
  | one (com : String) (h : com ∈ ["reg", "mem", "run", "until"]) (param : String)

def Entry.words : Entry → List String
  | .other word _ => [word]
  | .plain com _ => [com]
  | .btwn param param2 => ["btwn", param, param2]
  | .one com _ param => [com, param]

def Entry.messages : Entry → List String
  | .other _ _ => []
  | .plain com _ => [com ++ "_\n"]
  | .btwn param param2 => ["btwn" ++ "_" ++ param ++ "_" ++ param2 ++ "\n"]
  | .one com _ param => [com ++ "_" ++ param ++ "\n"]

/-- State 0 takes an entry from the input. -/
theorem enter_entry (e : Entry) {rest : List String} (h : d.input = e.words ++ rest) :
    d.enter.input = rest ∧ d.enter.com ≠ "exit" ∧
      (e.messages = [] ∧ d.enter.phase = d.phase ∨ e.messages = [d.enter.msg] ∧ d.enter.phase = .send) := by
  cases e with
  | other word hword =>
    have hne : word ≠ "exit" := by
      rintro rfl
      exact hword (by simp [commands])
    simp only [enter, h, Entry.words, List.singleton_append, extract, if_neg hword]
    simp [Entry.messages, hne]
  | plain com hcom =>
    simp only [List.mem_cons, List.not_mem_nil, or_false] at hcom
    rcases hcom with rfl | rfl | rfl <;> simp [enter, h, Entry.words, extract, commands, Entry.messages]
  | btwn param param2 => simp [enter, h, Entry.words, extract, commands, Entry.messages]
  | one com hcom param =>
    simp only [List.mem_cons, List.not_mem_nil, or_false] at hcom
    rcases hcom with rfl | rfl | rfl | rfl <;> simp [enter, h, Entry.words, extract, commands, Entry.messages]

/-- From a message to the answer and, but for `exit`, back to the console. -/
theorem run_message (h : run bufs logs d0 n = some d) (hsend : d.phase = .send) :
    ∃ d', run bufs logs d0 (n + 2) = some d' ∧ d'.input = d.input ∧ d'.sent = d.sent ++ [d.msg] ∧ d'.com = d.com ∧
      d'.phase = if d.com = "exit" then .done else .report := by
  obtain ⟨d1, hd1, hphase, hfields⟩ : ∃ d1, run bufs logs d0 (n + 1) = some d1 ∧ d1.phase = .answer ∧
      d1.input = d.input ∧ d1.sent = d.sent ++ [d.msg] ∧ d1.com = d.com := by
    rw [run_succ h, step, hsend]
    exact ⟨_, rfl, rfl, rfl, rfl, rfl⟩
  obtain ⟨hinput, hsent, hcom⟩ := hfields
  obtain ⟨hinput', hsent', hcom', hphase'⟩ := answer_fields d1
  refine ⟨d1.answer, ?_, hinput'.trans hinput, hsent'.trans hsent, hcom'.trans hcom, by rw [hphase', hcom]⟩
  rw [run_succ hd1, step, hphase]

/-- The debugger comes back for the next entry. -/
theorem run_entry (h : run bufs logs d0 n = some d) (hphase : d.phase = .enter) (e : Entry) {rest : List String}
    (hinput : d.input = e.words ++ rest) :
    ∃ n' d', run bufs logs d0 n' = some d' ∧ d'.phase = .enter ∧ d'.input = rest ∧ d'.sent = d.sent ++ e.messages := by
  obtain ⟨hrest, hcom, hmsg⟩ := enter_entry e hinput
  have h1 : run bufs logs d0 (n + 1) = some d.enter := by rw [run_succ h, step, hphase]
  rcases hmsg with ⟨hmsg, hstay⟩ | ⟨hmsg, hsend⟩
  · exact ⟨n + 1, d.enter, h1, hstay.trans hphase, hrest, by rw [hmsg, enter_sent, List.append_nil]⟩
  · obtain ⟨d2, h2, hinput2, hsent2, -, hphase2⟩ := run_message h1 hsend
    rw [if_neg hcom] at hphase2
    obtain ⟨d3, h3, hfields⟩ : ∃ d3, run bufs logs d0 (n + 1 + 2 + 1) = some d3 ∧ d3.phase = .enter ∧ d3.input = d2.input ∧
        d3.sent = d2.sent := by
      obtain ⟨r, hr⟩ := Option.isSome_iff_exists.1 (scan_isSome (logs (n + 1 + 2)) d2.vios)
      rw [run_succ h2, step, hphase2]
      dsimp only
      rw [hr]
      exact ⟨_, rfl, rfl, rfl, rfl⟩
    obtain ⟨hphase3, hinput3, hsent3⟩ := hfields
    exact ⟨_, d3, h3, hphase3, by rw [hinput3, hinput2, hrest], by rw [hsent3, hsent2, enter_sent, hmsg]⟩

theorem run_entries (es : List Entry) {rest : List String} (h : run bufs logs d0 n = some d) (hphase : d.phase = .enter)
    (hinput : d.input = es.flatMap Entry.words ++ rest) :
    ∃ n' d', run bufs logs d0 n' = some d' ∧ d'.phase = .enter ∧ d'.input = rest ∧
      d'.sent = d.sent ++ es.flatMap Entry.messages := by
  induction es generalizing n d with
  | nil => exact ⟨n, d, h, hphase, hinput, (List.append_nil _).symm⟩
  | cons e es ih =>
    rw [List.flatMap_cons, List.append_assoc] at hinput
    obtain ⟨n1, d1, h1, hphase1, hinput1, hsent1⟩ := run_entry h hphase e hinput
    obtain ⟨n2, d2, h2, hphase2, hinput2, hsent2⟩ := ih h1 hphase1 hinput1
    exact ⟨n2, d2, h2, hphase2, hinput2, by rw [hsent2, hsent1, List.flatMap_cons, List.append_assoc]⟩

end

/-- The console has not been asked to end. -/
structure Going (d : Debugger) : Prop where
  com : d.com ≠ "exit"
  phase : d.phase ≠ .done
  input : ∃ es : List Entry, d.input = es.flatMap Entry.words

theorem enter_empty {d : Debugger} (h : d.input = []) : d.enter.input = [] ∧ d.enter.com = d.com ∧
    (d.enter.phase = d.phase ∨ d.enter.phase = .send) := by
  unfold enter
  rw [h]
  dsimp only [extract]
  split_ifs <;> simp

theorem Going.step {buf : String} {log : List LogLine} {d d' : Debugger} (h : Going d) (hs : step buf log d = some d') : Going d' := by
  obtain ⟨hcom, hphase, es, hinput⟩ := h
  unfold Debugger.step at hs
  cases hp : d.phase with
  | enter =>
    rw [hp] at hs
    cases hs
    cases es with
    | nil =>
      -- at the end of the input the last command is entered again
      obtain ⟨hin, hc, hph⟩ := enter_empty hinput
      exact ⟨by rwa [hc], by rcases hph with hph | hph <;> rw [hph] <;> simp [hp], [], hin⟩
    | cons e es =>
      obtain ⟨hin, hc, hph⟩ := enter_entry e (hinput.trans List.flatMap_cons)
      exact ⟨hc, by rcases hph with ⟨-, hph⟩ | ⟨-, hph⟩ <;> rw [hph] <;> simp [hp], es, hin⟩
  | send =>
    rw [hp] at hs
    cases hs
    exact ⟨hcom, by simp, es, hinput⟩
  | answer =>
    rw [hp] at hs
    cases hs
    obtain ⟨hin, -, hc, hph⟩ := answer_fields d
    exact ⟨by rwa [hc], by rw [hph, if_neg hcom]; simp, es, hin.trans hinput⟩
  | report =>
    rw [hp] at hs
    obtain ⟨r, -, hr⟩ := Option.bind_eq_some_iff.1 hs
    cases hr
    exact ⟨hcom, by simp, es, hinput⟩
  | done => exact absurd hp hphase

/-- Whatever the simulation answers and logs: the debugger sends a message for
every command typed in, in order, up to the first `exit`, and ends there. Without
an `exit` it never ends. -/
theorem debugger_session (bufs : Nat → String) (logs : Nat → List LogLine) (es : List Entry) :
    (∀ rest, (∀ n, ∃ d, run bufs logs (init (es.flatMap Entry.words ++ "exit" :: rest)) n = some d ∧
        d.sent <+: es.flatMap Entry.messages ++ ["exit_\n"]) ∧
      ∃ n d, run bufs logs (init (es.flatMap Entry.words ++ "exit" :: rest)) n = some d ∧ d.phase = .done ∧
        d.sent = es.flatMap Entry.messages ++ ["exit_\n"]) ∧
      ∀ n, ∃ d, run bufs logs (init (es.flatMap Entry.words)) n = some d ∧ d.phase ≠ .done := by
  refine ⟨fun rest => ?_, fun n => ?_⟩
  · obtain ⟨n, d, hend, hdone, hsent⟩ : ∃ n d, run bufs logs (init (es.flatMap Entry.words ++ "exit" :: rest)) n = some d ∧
        d.phase = .done ∧ d.sent = es.flatMap Entry.messages ++ ["exit_\n"] := by
      have h0 : run bufs logs (init (es.flatMap Entry.words ++ "exit" :: rest)) 0 = some (init (es.flatMap Entry.words ++ "exit" :: rest)) := rfl
      obtain ⟨n, d, h, hphase, hinput, hsent⟩ := run_entries es h0 rfl rfl
      obtain ⟨hcom, hmsg, hsend⟩ : d.enter.com = "exit" ∧ d.enter.msg = "exit_\n" ∧ d.enter.phase = .send := by
        simp [enter, hinput, extract, commands]
      have h1 : run bufs logs (init (es.flatMap Entry.words ++ "exit" :: rest)) (n + 1) = some d.enter := by
        rw [run_succ h, step, hphase]
      obtain ⟨d2, h2, -, hsent2, -, hphase2⟩ := run_message h1 hsend
      rw [if_pos hcom] at hphase2
      exact ⟨_, d2, h2, hphase2, by rw [hsent2, hmsg, enter_sent, hsent]; rfl⟩
    refine ⟨fun m => ?_, n, d, hend, hdone, hsent⟩
    obtain ⟨d', hd'⟩ := run_total bufs logs (init (es.flatMap Entry.words ++ "exit" :: rest)) m
    refine ⟨d', hd', ?_⟩
    rw [← hsent]
    rcases Nat.le_total m n with hle | hle
    · obtain ⟨k, rfl⟩ := Nat.exists_eq_add_of_le hle
      exact run_sent hd' hend
    · obtain ⟨k, rfl⟩ := Nat.exists_eq_add_of_le hle
      cases (run_done hend hdone).symm.trans hd'
      exact List.prefix_rfl
  · obtain ⟨d, hd⟩ := run_total bufs logs (init (es.flatMap Entry.words)) n
    have hgoing : Going d :=
      run_invariant ⟨by simp [init], by simp [init], es, rfl⟩ (fun _ _ _ _ h hs => h.step hs) hd
    exact ⟨d, hd, hgoing.phase⟩

/-! ## The violations of a session -/

def Shown.line? : Shown → Option LogLine
  | .text _ => none
  | .line l => some l

/-- The lines of the log that have been printed. -/
def printed (d : Debugger) : List LogLine := d.shown.filterMap Shown.line?

/-- What is to be printed of a log. -/
def report (items : List Item) : List LogLine := (news Violation.header [] (violations items)).flatMap Violation.shown

theorem enter_printed (d : Debugger) : d.enter.vios = d.vios ∧ printed d.enter = printed d := by
  unfold enter printed
  dsimp only
  split_ifs <;> simp [Shown.line?]

theorem answer_printed (d : Debugger) : d.answer.vios = d.vios ∧ printed d.answer = printed d := by
  unfold answer printed
  split_ifs <;> simp [Shown.line?]

theorem violations_append (items items' : List Item) : violations (items ++ items') = violations items ++ violations items' :=
  List.filterMap_append

theorem report_append (items items' : List Item) : report (items ++ items') = report items ++
    (news Violation.header (seen_after Violation.header [] (violations items)) (violations items')).flatMap Violation.shown := by
  rw [report, violations_append, news_append, List.flatMap_append]
  rfl

/-- The debugger knows and has printed the violations of a log. -/
structure Reported (items : List Item) (d : Debugger) : Prop where
  vios : d.vios = seen_after Violation.header [] (violations items)
  printed : printed d = report items

/-- State 3 catches up with a log that has grown. -/
theorem Reported.scan {items more : List Item} {buf : String} {d : Debugger} (h : Reported items d) (hphase : d.phase = .report) :
    ∃ d', Debugger.step buf ((items ++ more).flatMap Item.lines) d = some d' ∧ Reported (items ++ more) d' := by
  have hscan := scan_items (items ++ more) d.vios
  rw [h.vios, violations_append, news_grown] at hscan
  rw [step, hphase]
  dsimp only
  rw [h.vios, hscan]
  refine ⟨_, rfl, ?_, ?_⟩
  · dsimp only
    -- the violations known before bring nothing new
    have hold : seen_after Violation.header (seen_after Violation.header [] (violations items)) (violations items) =
        seen_after Violation.header [] (violations items) := by
      rw [seen_after, news_eq_nil fun v hv => mem_seen_after.2 (.inr ⟨v, hv, rfl⟩)]
      rfl
    rw [violations_append, seen_after_append, seen_after_append, hold]
  · rw [report_append, ← h.printed, Debugger.printed, Debugger.printed, List.filterMap_append, List.filterMap_map]
    refine congrArg _ ?_
    have hline : (Shown.line? ∘ Shown.line) = some := rfl
    rw [hline, List.filterMap_some]

/-- The other states print nothing of the log. -/
theorem Reported.step {items : List Item} {buf : String} {log : List LogLine} {d d' : Debugger} (h : Reported items d)
    (hphase : d.phase ≠ .report) (hs : step buf log d = some d') : Reported items d' := by
  unfold Debugger.step at hs
  cases hp : d.phase with
  | enter =>
    rw [hp] at hs
    cases hs
    obtain ⟨hvios, hprinted⟩ := enter_printed d
    exact ⟨hvios.trans h.vios, hprinted.trans h.printed⟩
  | send =>
    rw [hp] at hs
    cases hs
    exact ⟨h.vios, h.printed⟩
  | answer =>
    rw [hp] at hs
    cases hs
    obtain ⟨hvios, hprinted⟩ := answer_printed d
    exact ⟨hvios.trans h.vios, hprinted.trans h.printed⟩
  | report => exact absurd hp hphase
  | done =>
    rw [hp] at hs
    cases hs
    exact h

/-- The log after some passes, to which each pass adds a part. -/
def grown (parts : Nat → List Item) (n : Nat) : List Item := (List.range n).flatMap parts

theorem grown_add (parts : Nat → List Item) (n k : Nat) : ∃ more, grown parts (n + k) = grown parts n ++ more := by
  rw [grown, List.range_add, List.flatMap_append]
  exact ⟨_, rfl⟩

theorem Reported.catch_up {parts : Nat → List Item} {k n : Nat} (hk : k ≤ n) {d : Debugger} (h : Reported (grown parts k) d)
    (hphase : d.phase = .report) (buf : String) :
    ∃ d', Debugger.step buf ((grown parts n).flatMap Item.lines) d = some d' ∧ Reported (grown parts n) d' := by
  obtain ⟨j, rfl⟩ := Nat.exists_eq_add_of_le hk
  obtain ⟨more, hmore⟩ := grown_add parts k j
  rw [hmore]
  exact h.scan hphase

/-- Whatever is typed in and answered, while the log of the simulation grows by
whole violations and other lines: the debugger has printed the violations of the
log as it last read it, each header once, in order and with its details, however
often it has read the log before. -/
theorem debugger_reports (bufs : Nat → String) (parts : Nat → List Item) (input : List String) (n : Nat) :
    ∃ d, run bufs (fun n => (grown parts n).flatMap Item.lines) (init input) n = some d ∧ d.vios.Nodup ∧
      (∃ k ≤ n, printed d = report (grown parts k)) ∧
      (d.phase = .report → ∃ d', run bufs (fun n => (grown parts n).flatMap Item.lines) (init input) (n + 1) = some d' ∧
        printed d' = report (grown parts n)) := by
  have hreported : ∃ d, run bufs (fun n => (grown parts n).flatMap Item.lines) (init input) n = some d ∧
      ∃ k ≤ n, Reported (grown parts k) d := by
    induction n with
    | zero => exact ⟨init input, rfl, 0, le_rfl, rfl, rfl⟩
    | succ n ih =>
      obtain ⟨d, hd, k, hk, h⟩ := ih
      rw [run_succ hd]
      by_cases hphase : d.phase = .report
      · obtain ⟨d', hd', h'⟩ := h.catch_up hk hphase (bufs n)
        exact ⟨d', hd', n, Nat.le_succ n, h'⟩
      · obtain ⟨d', hd', -⟩ := step_total (bufs n) ((grown parts n).flatMap Item.lines) d
        exact ⟨d', hd', k, Nat.le_succ_of_le hk, h.step hphase hd'⟩
  obtain ⟨d, hd, k, hk, h⟩ := hreported
  refine ⟨d, hd, by rw [h.vios]; exact news_nodup List.nodup_nil, ⟨k, hk, h.printed⟩, fun hphase => ?_⟩
  obtain ⟨d', hd', h'⟩ := h.catch_up hk hphase (bufs n)
  exact ⟨d', (run_succ hd).trans hd', h'.printed⟩

end Debugger

end DRAMBender
