import Mathlib
import DramBender.SaveLoad
import DramBender.Linker
import DramBender.Lib.Files
import DramBender.Lib.MapFold
import DramBender.Lib.Stops
/-!
# The printed program

`decode_inst` prints a word, `decode_ddr` one of its slots, and `pretty_print` the
whole program, with the labels and the targets of the branches. The text tells all
that `decode_inst` sees of the words, the labels within the program and the targets,
and nothing else (`pretty_print_tells`).
-/

namespace DRAMBender

open Std (ExtTreeMap)
open Files MapFold Stops

/-! ## The texts -/

/-- `%d` and `%ld` -/
def dec (n : Int) : List Char :=
  match n with
  | .ofNat n => Nat.toDigits 10 n
  | .negSucc n => '-' :: Nat.toDigits 10 (n + 1)

/-- `r%d` -/
def reg (r : Reg) : List Char := 'r' :: dec r.toNat

/-- `r%d%s`, with the increment. -/
def reg_inc (r : Reg) (inc : Bool) : List Char := reg r ++ if inc then ['+', '+'] else []

/-- A `%s` with a blank in front, where the flag is set. -/
def flag_word (flag : Bool) (s : String) : List (List Char) := if flag then [s.toList] else []

/-- What `decode_ddr` prints, cut at the blanks. -/
def Ddr.words : Ddr → List (List Char)
  | .WR bar ibar car icar ap rank => ["WR".toList, reg_inc bar ibar, reg_inc car icar] ++ flag_word ap "AP" ++ [dec rank.toNat]
  | .RD bar ibar car icar ap rank => ["RD".toList, reg_inc bar ibar, reg_inc car icar] ++ flag_word ap "AP" ++ [dec rank.toNat]
  | .PRE bar ibar pall rank => ["PRE".toList, reg_inc bar ibar] ++ flag_word pall "PALL" ++ [dec rank.toNat]
  | .ACT bar ibar rar irar rank => ["ACT".toList, reg_inc bar ibar, reg_inc rar irar, dec rank.toNat]
  | .SEL_CH rank => ["SEL_CH".toList, dec rank.toNat]
  | .REF rank => ["REF".toList, dec rank.toNat]
  | .NOP rank => ["NOP".toList, dec rank.toNat]
  | .skip => [[]]

def PC_TYPE.text : PC_TYPE → String
  | .WRITE => "WRITE_COUNTER"
  | .READ => "READ_COUNTER"
  | .PRE => "PRE_COUNTER"
  | .ACT => "ACT_COUNTER"
  | .SEL_CH => "SEL_CH_COUNTER"
  | .REF => "REF_COUNTER"
  | .CYC => "TOTAL_CYCLE"

/-- What `decode_inst` prints, cut at the blanks. -/
def Mnemonic.words : Mnemonic → List (List Char)
  | .DDR s0 s1 s2 s3 => s0.words ++ [':'] :: (s1.words ++ [':'] :: (s2.words ++ [':'] :: s3.words))
  | .END => ["END".toList]
  | .ADD rt rs1 rs2 => ["ADD".toList, reg rt, reg rs1, reg rs2]
  | .ADDI rt rs1 imd1 => ["ADDI".toList, reg rt, reg rs1, dec imd1.toNat]
  | .SUB rt rs1 rs2 => ["SUB".toList, reg rt, reg rs1, reg rs2]
  | .SUBI rt rs1 imd1 => ["SUBI".toList, reg rt, reg rs1, dec imd1.toNat]
  | .MOV rt rs1 => ["MOV".toList, reg rt, reg rs1]
  | .LI rt imd_concat => ["LI".toList, reg rt, dec imd_concat.toNat]
  | .SRC rt rs1 => ["SRC".toList, reg rt, reg rs1]
  | .LDWD rt rs1 => ["LDWD".toList, dec rt.toNat, reg rs1]
  | .LDPC rt counter => ["LDPC".toList, reg rt, counter.text.toList]
  | .SRE => ["SRE".toList]
  | .SRX => ["SRX".toList]
  | .BL bt rs1 rs2 => ["BL".toList, "PC:".toList ++ dec bt.toNat, reg rs1, reg rs2]
  | .BEQ bt rs1 rs2 => ["BEQ".toList, "PC:0x".toList ++ Nat.toDigits 16 bt.toNat, reg rs1, reg rs2]
  | .JUMP jt => ["JUMP".toList, "PC:".toList ++ dec jt.toNat]
  -- `samt` is an `int`
  | .SLEEP samt => ["SLEEP".toList, dec samt.toInt, "cycles".toList]
  | .INFO => ["Auto-generated".toList, "instruction.".toList]
  | .LD rt rs1 imd1 => ["LD".toList, reg rt, '[' :: reg rs1 ++ ']' :: dec imd1.toNat]
  | .ST rs1 imd1 rt => ["ST".toList, '[' :: reg rs1 ++ ']' :: dec imd1.toNat, reg rt]
  | .AND rt rs1 rs2 => ["AND".toList, reg rt, reg rs1, reg rs2]
  | .OR rt rs1 rs2 => ["OR".toList, reg rt, reg rs1, reg rs2]
  | .XOR rt rs1 rs2 => ["XOR".toList, reg rt, reg rs1, reg rs2]
  | .skip => [[]]

def Mnemonic.text (m : Mnemonic) : List Char := [' '].intercalate m.words

/-! ## Numbers and registers -/

/-- A printed number has digits, and a sign in front of them. -/
theorem mem_dec {n : Int} {c : Char} (h : c ∈ dec n) : c = '-' ∨ ∃ d < 10, c = d.digitChar := by
  cases n with
  | ofNat n => exact .inr (mem_toDigits (by decide) h)
  | negSucc n =>
    rcases List.mem_cons.1 h with rfl | h
    · exact .inl rfl
    · exact .inr (mem_toDigits (by decide) h)

theorem not_mem_dec {c : Char} (hsign : c ≠ '-') (hdigit : ∀ d < 10, Nat.digitChar d ≠ c) (n : Int) : c ∉ dec n := by
  intro h
  rcases mem_dec h with rfl | ⟨d, hd, rfl⟩
  · exact hsign rfl
  · exact hdigit d hd rfl

theorem dec_injective : Function.Injective dec := by
  have hminus : ∀ n, '-' ∉ Nat.toDigits 10 n := Program.not_mem_toDigits (by decide)
  intro m n h
  cases m with
  | ofNat m =>
    cases n with
    | ofNat n => rw [toDigits_injective (by decide) (by decide) h]
    | negSucc n =>
      have hm : '-' ∈ dec (.ofNat m) := by rw [h, dec]; exact List.mem_cons_self
      exact absurd hm (hminus m)
  | negSucc m =>
    cases n with
    | ofNat n =>
      have hn : '-' ∈ dec (.ofNat n) := by rw [← h, dec]; exact List.mem_cons_self
      exact absurd hn (hminus n)
    | negSucc n =>
      obtain ⟨-, h⟩ := List.cons.inj h
      rw [Nat.succ.inj (toDigits_injective (by decide) (by decide) h)]

theorem dec_toNat_inj {w : Nat} {x y : BitVec w} : dec x.toNat = dec y.toNat ↔ x = y := by
  rw [dec_injective.eq_iff, Int.natCast_inj, BitVec.toNat_inj]

theorem dec_bool_inj {x y : Bool} : dec x.toNat = dec y.toNat ↔ x = y := by
  rw [dec_injective.eq_iff, Int.natCast_inj]
  cases x <;> cases y <;> decide

theorem reg_inj {x y : Reg} : reg x = reg y ↔ x = y := by
  rw [reg, reg, List.cons_inj_right, dec_toNat_inj]

theorem not_mem_reg {c : Char} (hr : c ≠ 'r') (hsign : c ≠ '-') (hdigit : ∀ d < 10, Nat.digitChar d ≠ c) (x : Reg) : c ∉ reg x := by
  rw [reg, List.mem_cons]
  rintro (h | h)
  · exact hr h
  · exact not_mem_dec hsign hdigit _ h

theorem reg_inc_inj {x y : Reg} {a b : Bool} : reg_inc x a = reg_inc y b ↔ x = y ∧ a = b := by
  refine ⟨fun h => ?_, fun ⟨hx, ha⟩ => by rw [hx, ha]⟩
  have hab : a = b := by
    have hplus : ∀ x : Reg, '+' ∉ reg x := not_mem_reg (by decide) (by decide) (by decide)
    have hmem : ∀ (x : Reg) (a : Bool), '+' ∈ reg_inc x a ↔ a = true := by
      intro x a
      cases a <;> simp [reg_inc, hplus]
    rw [Bool.eq_iff_iff, ← hmem x a, ← hmem y b, h]
  subst hab
  exact ⟨reg_inj.1 (List.append_cancel_right h), rfl⟩

/-! ## The characters of a word -/

/-- Neither blanks, nor the bracket in front of a target. -/
def Plain (w : List Char) : Prop := ∀ c ∈ w, c ≠ ' ' ∧ c ≠ '(' ∧ c ≠ '\n'

@[simp] theorem plain_nil : Plain [] := by simp [Plain]

@[simp] theorem plain_cons {c : Char} {w : List Char} : Plain (c :: w) ↔ (c ≠ ' ' ∧ c ≠ '(' ∧ c ≠ '\n') ∧ Plain w := by
  rw [Plain, List.forall_mem_cons]
  rfl

@[simp] theorem plain_append {w w' : List Char} : Plain (w ++ w') ↔ Plain w ∧ Plain w' := by
  rw [Plain, List.forall_mem_append]
  rfl

theorem plain_digits {b : Nat} (hb : 1 < b) (hb16 : b ≤ 16) (n : Nat) : Plain (Nat.toDigits b n) := by
  have hdigit : ∀ d < 16, d.digitChar ≠ ' ' ∧ d.digitChar ≠ '(' ∧ d.digitChar ≠ '\n' := by decide
  intro c hc
  obtain ⟨d, hd, rfl⟩ := mem_toDigits hb hc
  exact hdigit d (by omega)

@[simp] theorem plain_dec (n : Int) : Plain (dec n) := by
  cases n with
  | ofNat n => exact plain_digits (by decide) (by decide) n
  | negSucc n => exact plain_cons.2 ⟨by decide, plain_digits (by decide) (by decide) _⟩

@[simp] theorem plain_reg (r : Reg) : Plain (reg r) := by simp [reg]

@[simp] theorem plain_reg_inc (r : Reg) (inc : Bool) : Plain (reg_inc r inc) := by cases inc <;> simp [reg_inc]

theorem mem_flag_word {flag : Bool} {s : String} {w : List Char} : w ∈ flag_word flag s ↔ flag = true ∧ w = s.toList := by
  cases flag <;> simp [flag_word]

theorem Ddr.plain_words (s : Ddr) : ∀ w ∈ s.words, Plain w := by
  cases s <;> simp [words, mem_flag_word, or_imp, forall_and]

@[simp] theorem PC_TYPE.plain_text (counter : PC_TYPE) : Plain counter.text.toList := by cases counter <;> simp [text]

theorem Mnemonic.plain_words (m : Mnemonic) : ∀ w ∈ m.words, Plain w := by
  cases m with
  | DDR s0 s1 s2 s3 =>
    intro w hw
    simp only [words, List.mem_append, List.mem_cons] at hw
    rcases hw with hw | rfl | hw | rfl | hw | rfl | hw
    all_goals first | exact Ddr.plain_words _ w hw | simp
  | BEQ bt rs1 rs2 => simp [words, plain_digits]
  | _ => simp [words]

theorem Mnemonic.words_ne_nil (m : Mnemonic) : m.words ≠ [] := by cases m <;> simp [words]

/-! ## The words tell the mnemonic -/

theorem flag_word_inj {a b : Bool} {t : String} : flag_word a t = flag_word b t ↔ a = b := by
  cases a <;> cases b <;> simp [flag_word]

theorem Ddr.words_injective : Function.Injective Ddr.words := by
  intro s s' h
  cases s <;> cases s' <;> simp [words, reg_inc_inj, dec_bool_inj, flag_word_inj, and_assoc] at h ⊢
  all_goals exact h

theorem bracket_inj {x y : Reg} {w w' : List Char} : reg x ++ ']' :: w = reg y ++ ']' :: w' ↔ x = y ∧ w = w' := by
  refine ⟨fun h => ?_, fun ⟨hx, hw⟩ => by rw [hx, hw]⟩
  have hreg : ∀ z : Reg, ∀ c ∈ reg z, c ≠ ']' := by
    rintro z c hc rfl
    exact not_mem_reg (by decide) (by decide) (by decide) z hc
  obtain ⟨hxy, -, hw⟩ := append_cons_inj (hreg x) (hreg y) (by simp) (by simp) h
  exact ⟨reg_inj.1 hxy, hw⟩

theorem PC_TYPE.text_inj {c c' : PC_TYPE} : c.text.toList = c'.text.toList ↔ c = c' := by
  rw [String.toList_inj]
  cases c <;> cases c' <;> decide

theorem colon_ne_dec (n : Int) : [':'] ≠ dec n := fun h => not_mem_dec (by decide) (by decide) n (h ▸ List.mem_singleton_self ':')

theorem Ddr.colon_not_mem_words (s : Ddr) : [':'] ∉ s.words := by
  cases s <;> simp [words, mem_flag_word, reg_inc, reg, colon_ne_dec]

/-- Only the slots of a DDR word are printed with colons between them. -/
theorem Mnemonic.colon_mem_words (m : Mnemonic) : [':'] ∈ m.words ↔ m.isDdr = true := by
  cases m with
  | LDPC rt counter => cases counter <;> simp [words, isDdr, reg, PC_TYPE.text]
  | _ => simp [words, isDdr, reg, colon_ne_dec]

theorem Mnemonic.words_injective : Function.Injective Mnemonic.words := by
  intro m m' h
  have hhex : Function.Injective (Nat.toDigits 16) := toDigits_injective (by decide) (by decide)
  have hddr : m.isDdr = m'.isDdr := by rw [Bool.eq_iff_iff, ← colon_mem_words, ← colon_mem_words, h]
  cases m with
  | DDR s0 s1 s2 s3 =>
    cases m' with
    | DDR t0 t1 t2 t3 =>
      have hcolon : ∀ s : Ddr, ∀ w ∈ s.words, w ≠ [':'] := fun s w hw he => s.colon_not_mem_words (he ▸ hw)
      obtain ⟨h0, -, h⟩ := append_cons_inj (hcolon s0) (hcolon t0) (by simp) (by simp) h
      obtain ⟨h1, -, h⟩ := append_cons_inj (hcolon s1) (hcolon t1) (by simp) (by simp) h
      obtain ⟨h2, -, h3⟩ := append_cons_inj (hcolon s2) (hcolon t2) (by simp) (by simp) h
      rw [Ddr.words_injective h0, Ddr.words_injective h1, Ddr.words_injective h2, Ddr.words_injective h3]
    | _ => cases hddr
  -- the first words differ, or else the words of the operands do
  | _ =>
    cases m' with
    | DDR => cases hddr
    | _ =>
      simp [words, reg_inj, dec_injective.eq_iff, hhex.eq_iff, PC_TYPE.text_inj, bracket_inj, and_assoc, BitVec.toInt_inj,
        ← BitVec.toNat_inj] at h ⊢ <;> exact h

theorem Mnemonic.text_injective : Function.Injective Mnemonic.text := by
  have hblank : ∀ (m : Mnemonic), ∀ w ∈ m.words, ' ' ∉ w := fun m w hw hb => (m.plain_words w hw ' ' hb).1 rfl
  intro m m' h
  exact words_injective (intercalate_inj m.words_ne_nil m'.words_ne_nil (hblank m) (hblank m') h)

/-- No text holds a line break or an opening bracket. -/
theorem Mnemonic.mem_text {m : Mnemonic} {c : Char} (h : c ∈ m.text) : c ≠ '\n' ∧ c ≠ '(' := by
  rcases mem_intercalate h with rfl | ⟨w, hw, hc⟩
  · decide
  · obtain ⟨-, hbracket, hline⟩ := m.plain_words w hw c hc
    exact ⟨hline, hbracket⟩

namespace Program

/-! ## The listing -/

/-- `%04d: ` -/
def print_pc (pc : Nat) : List Char := (dec pc).leftpad 4 '0' ++ [':', ' ']

def print_target (name : String) : List Char := [' ', '('] ++ "TARGET LABEL: ".toList ++ name.toList ++ [')']

/-- The labels that stand at an address. -/
def labels_at (p : Program) (pc : Nat) : List (String × Nat) := p.labels.toList.filter fun label => label.2 = pc

def branches_at (p : Program) (pc : Nat) : List (Nat × String) := p.branches.toList.filter fun branch => branch.1 = pc

/-- The line of a word, with the target of its branch. -/
def word_line (p : Program) (pc : Nat) (inst : Inst) : List Char :=
  print_pc pc ++ (decode_inst inst).text ++ (p.branches_at pc).flatMap fun branch => print_target branch.2

/-- A pass of the loop: the labels that stand at the word, each on a line of its
own, and the word. -/
def print_word (p : Program) (pc : Nat) (inst : Inst) : List Char :=
  ((p.labels_at pc).flatMap fun label => label.1.toList ++ ['\n']) ++ (p.word_line pc inst ++ ['\n'])

def pretty_print (p : Program) : List Char := p.program.zipIdx.flatMap fun x => p.print_word x.2 x.1

/-! ## The lines -/

/-- The lines of a word: those of its labels, and its own. -/
def word_lines (p : Program) (x : Inst × Nat) : List (List Char) × List Char :=
  ((p.labels_at x.2).map fun label => label.1.toList, p.word_line x.2 x.1)

theorem pretty_print_eq (p : Program) :
    p.pretty_print = unlines ((p.program.zipIdx.map p.word_lines).flatMap fun b => b.1 ++ [b.2]) := by
  rw [pretty_print, unlines, List.flatMap_map, List.flatMap_assoc]
  refine List.flatMap_congr fun x _ => ?_
  rw [print_word, List.flatMap_append, word_lines, List.flatMap_map, List.flatMap_singleton]

/-- A branch has one target. -/
theorem print_branches_at (p : Program) (pc : Nat) :
    (p.branches_at pc).flatMap (fun branch => print_target branch.2) = p.branches[pc]?.elim [] print_target := by
  have hat : p.branches_at pc = (p.branches[pc]?.map fun name => (pc, name)).toList := filter_key_toList p.branches pc
  rw [hat]
  cases p.branches[pc]? <;> simp

/-- The bracket in front of a target ends the text of the word. -/
theorem text_target_inj {m m' : Mnemonic} {o o' : Option String}
    (h : m.text ++ o.elim [] print_target = m'.text ++ o'.elim [] print_target) : m = m' ∧ o = o' := by
  have hclear : ∀ m : Mnemonic, '(' ∉ m.text := fun m hm => (Mnemonic.mem_text hm).2 rfl
  have hbracket : ∀ name, '(' ∈ print_target name := fun name => by simp [print_target]
  cases o with
  | none =>
    rw [Option.elim_none, List.append_nil] at h
    cases o' with
    | none =>
      rw [Option.elim_none, List.append_nil] at h
      exact ⟨Mnemonic.text_injective h, rfl⟩
    | some name' => exact absurd (h ▸ List.mem_append_right _ (hbracket name')) (hclear m)
  | some name =>
    cases o' with
    | none =>
      rw [Option.elim_none, List.append_nil] at h
      exact absurd (h ▸ List.mem_append_right _ (hbracket name)) (hclear m')
    | some name' =>
      have hfront : ∀ m : Mnemonic, ∀ c ∈ m.text ++ [' '], c ≠ '(' := by
        rintro m c hc rfl
        simp [hclear m] at hc
      have hcut : ∀ (m : Mnemonic) name, m.text ++ print_target name =
          (m.text ++ [' ']) ++ '(' :: ("TARGET LABEL: ".toList ++ (name.toList ++ [')'])) := by
        intro m name
        rw [print_target]
        simp
      rw [Option.elim_some, Option.elim_some, hcut, hcut] at h
      obtain ⟨htext, -, hname⟩ := append_cons_inj (hfront m) (hfront m') (by simp) (by simp) h
      have hname := List.append_cancel_right (List.append_cancel_left hname)
      exact ⟨Mnemonic.text_injective (List.append_cancel_right htext), congrArg some (String.toList_inj.1 hname)⟩

section
variable {p q : Program}

theorem mem_labels_at {pc : Nat} {label : String × Nat} : label ∈ p.labels_at pc ↔ p.labels[label.1]? = some pc ∧ label.2 = pc := by
  obtain ⟨name, pos⟩ := label
  rw [labels_at, List.mem_filter, ExtTreeMap.mem_toList_iff_getElem?_eq_some, decide_eq_true_eq]
  constructor
  · rintro ⟨h, rfl⟩
    exact ⟨h, rfl⟩
  · rintro ⟨h, rfl⟩
    exact ⟨h, rfl⟩

theorem labels_at_eq_iff {pc : Nat} : (p.labels_at pc).map (fun label => label.1.toList) = (q.labels_at pc).map (fun label => label.1.toList) ↔
    ∀ name : String, p.labels[name]? = some pc ↔ q.labels[name]? = some pc := by
  constructor
  · intro h name
    have hmem : ∀ p : Program, name.toList ∈ (p.labels_at pc).map (fun label => label.1.toList) ↔ p.labels[name]? = some pc := by
      intro p
      rw [List.mem_map]
      constructor
      · rintro ⟨⟨name', pos⟩, hl, hname⟩
        obtain rfl := String.toList_inj.1 hname
        exact (mem_labels_at.1 hl).1
      · exact fun hl => ⟨(name, pc), mem_labels_at.2 ⟨hl, rfl⟩, rfl⟩
    rw [← hmem, ← hmem, h]
  · intro h
    have hat : p.labels_at pc = q.labels_at pc := by
      refine filter_toList_congr fun name pos hpos => ?_
      obtain rfl : pos = pc := of_decide_eq_true hpos
      exact h name
    rw [hat]

/-- The line of a word holds a blank, which no label does. -/
theorem stopped_word_lines (hp : GoodNames p) (x : Inst × Nat) : Stopped (fun l => ' ' ∉ l) (p.word_lines x) := by
  refine ⟨fun l hl => ?_, fun h => h ?_⟩
  · obtain ⟨label, hlabel, rfl⟩ := List.mem_map.1 hl
    exact (hp.1 label.1 _ (mem_labels_at.1 hlabel).1).1
  · simp [word_lines, word_line, print_pc]

theorem newline_not_mem_lines (hp : GoodNames p) :
    ∀ l ∈ (p.program.zipIdx.map p.word_lines).flatMap (fun b => b.1 ++ [b.2]), '\n' ∉ l := by
  intro l hl
  obtain ⟨b, hb, hl⟩ := List.mem_flatMap.1 hl
  obtain ⟨x, -, rfl⟩ := List.mem_map.1 hb
  rcases List.mem_append.1 hl with hl | hl
  · obtain ⟨label, hlabel, rfl⟩ := List.mem_map.1 hl
    exact (hp.1 label.1 _ (mem_labels_at.1 hlabel).1).2
  · rw [List.mem_singleton.1 hl, word_lines, word_line, print_branches_at]
    have hpc : '\n' ∉ print_pc x.2 := by
      have hdec : '\n' ∉ dec x.2 := not_mem_dec (by decide) (by decide) _
      simp [print_pc, List.leftpad, hdec]
    have htext : '\n' ∉ (decode_inst x.1).text := fun h => (Mnemonic.mem_text h).1 rfl
    rw [List.mem_append, List.mem_append]
    rintro ((h | h) | h)
    · exact hpc h
    · exact htext h
    · cases hb : p.branches[x.2]? with
      | none => simp [hb] at h
      | some name =>
        have hname := (hp.2 x.2 name hb).2
        simp [hb, print_target, hname] at h

theorem word_lines_inj {pc : Nat} {i j : Inst} : p.word_lines (i, pc) = q.word_lines (j, pc) ↔
    (∀ name : String, p.labels[name]? = some pc ↔ q.labels[name]? = some pc) ∧ decode_inst i = decode_inst j ∧
      p.branches[pc]? = q.branches[pc]? := by
  rw [word_lines, word_lines, Prod.mk.injEq, labels_at_eq_iff, word_line, word_line, print_branches_at, print_branches_at,
    List.append_assoc, List.append_assoc]
  refine and_congr_right fun _ => ⟨fun h => text_target_inj (List.append_cancel_left h), ?_⟩
  rintro ⟨hij, hb⟩
  rw [hij, hb]

theorem getElem?_word_lines (p : Program) (pc : Nat) :
    (p.program.zipIdx.map p.word_lines)[pc]? = p.program[pc]?.map fun i => p.word_lines (i, pc) := by
  rw [List.getElem?_map, List.getElem?_zipIdx, Option.map_map, Nat.zero_add]
  rfl

theorem map_word_lines_inj : p.program.zipIdx.map p.word_lines = q.program.zipIdx.map q.word_lines ↔
    p.program.map decode_inst = q.program.map decode_inst ∧ ∀ pc < p.program.length,
      (∀ name : String, p.labels[name]? = some pc ↔ q.labels[name]? = some pc) ∧ p.branches[pc]? = q.branches[pc]? := by
  rw [List.ext_getElem?_iff, List.ext_getElem?_iff]
  simp only [getElem?_word_lines]
  simp only [List.getElem?_map]
  constructor
  · intro h
    refine ⟨fun pc => ?_, fun pc hpc => ?_⟩
    · have hpc := h pc
      cases hi : p.program[pc]? with
      | none =>
        rw [hi] at hpc
        rw [Option.map_eq_none_iff.1 hpc.symm]
      | some i =>
        rw [hi] at hpc
        obtain ⟨j, hj, hij⟩ := Option.map_eq_some_iff.1 hpc.symm
        rw [hj, Option.map_some, Option.map_some, (word_lines_inj.1 hij).2.1]
    · have hat := h pc
      rw [List.getElem?_eq_getElem hpc] at hat
      obtain ⟨j, -, hij⟩ := Option.map_eq_some_iff.1 hat.symm
      obtain ⟨hlabels, -, hbranch⟩ := word_lines_inj.1 hij
      exact ⟨fun name => (hlabels name).symm, hbranch.symm⟩
  · rintro ⟨hdecode, hat⟩ pc
    have hpc := hdecode pc
    cases hi : p.program[pc]? with
    | none =>
      rw [hi] at hpc
      rw [Option.map_eq_none_iff.1 hpc.symm]
      rfl
    | some i =>
      rw [hi] at hpc
      obtain ⟨j, hj, hij⟩ := Option.map_eq_some_iff.1 hpc.symm
      obtain ⟨hlabels, hbranch⟩ := hat pc (List.getElem?_eq_some_iff.1 hi).1
      rw [hj, Option.map_some, Option.map_some, word_lines_inj.2 ⟨hlabels, hij.symm, hbranch⟩]

end

/-- The listings of two programs are the same text exactly when `decode_inst` sees
the same words, the same labels stand at them and their branches have the same
targets. -/
theorem pretty_print_tells {p q : Program} (hp : GoodNames p) (hq : GoodNames q) : p.pretty_print = q.pretty_print ↔
    p.program.map decode_inst = q.program.map decode_inst ∧ ∀ pc < p.program.length,
      (∀ name : String, p.labels[name]? = some pc ↔ q.labels[name]? = some pc) ∧ p.branches[pc]? = q.branches[pc]? := by
  have hblocks : ∀ {p : Program}, GoodNames p → ∀ b ∈ p.program.zipIdx.map p.word_lines, Stopped (fun l => ' ' ∉ l) b := by
    intro p hp b hb
    obtain ⟨x, -, rfl⟩ := List.mem_map.1 hb
    exact stopped_word_lines hp x
  rw [pretty_print_eq, pretty_print_eq, ← map_word_lines_inj]
  constructor
  · intro h
    have hlines := congrArg getlines h
    rw [getlines_unlines (newline_not_mem_lines hp), getlines_unlines (newline_not_mem_lines hq)] at hlines
    exact flatMap_block_inj (hblocks hp) (hblocks hq) hlines
  · intro h
    rw [h]

/-- Two loops that differ in the name of their label. -/
theorem pretty_print_tells_loops : (build nopLoop).pretty_print ≠ (build otherLoop).pretty_print := by
  have hlabels : ∀ name : String, (build [.add_label name, .add_inst all_nops, .add_branch .BL 1 2 name]).labels =
      (∅ : ExtTreeMap String Nat).insert name 0 := fun name => rfl
  have hbranches : ∀ name : String, (build [.add_label name, .add_inst all_nops, .add_branch .BL 1 2 name]).branches =
      (∅ : ExtTreeMap Nat String).insert 1 name := fun name => rfl
  have hgood : ∀ name : String, ' ' ∉ name.toList → '\n' ∉ name.toList →
      GoodNames (build [.add_label name, .add_inst all_nops, .add_branch .BL 1 2 name]) := by
    intro name hblank hline
    refine ⟨fun name' t ht => ?_, fun b name' hb => ?_⟩
    · rw [hlabels, ExtTreeMap.getElem?_insert, ExtTreeMap.getElem?_empty] at ht
      split_ifs at ht with he
      rw [← compare_eq_iff_eq.1 he]
      exact ⟨hblank, hline⟩
    · rw [hbranches, ExtTreeMap.getElem?_insert, ExtTreeMap.getElem?_empty] at hb
      split_ifs at hb
      obtain rfl := Option.some.inj hb
      exact ⟨hblank, hline⟩
  intro h
  obtain ⟨-, hat⟩ := (pretty_print_tells (hgood "L" (by simp) (by simp)) (hgood "M" (by simp) (by simp))).1 h
  have hbranch := (hat 1 (by decide)).2
  rw [hbranches, hbranches, ExtTreeMap.getElem?_insert_self, ExtTreeMap.getElem?_insert_self] at hbranch
  exact absurd (Option.some.inj hbranch) (by decide)

end Program

end DRAMBender
