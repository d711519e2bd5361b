import Mathlib
import DramBender.Board
import DramBender.Pieces
import DramBender.Lib.Straight
/-!
# Words of generated programs

What the words between the branches of a generated program do, and the rule for
its loop.
-/

namespace DCT

open DRAMBender Machine
open DRAMBender.Board
open Program (Piece Block listing listing_append linked loop loop_listing)
open Call (add_inst add_inst4 add_mininst pack_minprogram)
open ReservedReg

/-! ## Straight words -/

/-- A word that neither branches nor halts. -/
def straight : Mnemonic → Bool
  | .END => false
  | .INFO => false
  | .BL _ _ _ => false
  | .BEQ _ _ _ => false
  | .JUMP _ => false
  | _ => true

theorem actOf_straight {σ ε : Type} (isa : Isa σ ε) {m : Mnemonic} (h : straight m = true) : isa.actOf m = .exec (isa.exec m) := by
  cases m <;> first | rfl | cases h

/-- Words that neither branch nor halt. -/
def Straight (ms : List Mnemonic) : Prop := ∀ m ∈ ms, straight m = true

@[simp] theorem straight_nil : Straight [] := by simp [Straight]

@[simp] theorem straight_cons {m : Mnemonic} {ms : List Mnemonic} : Straight (m :: ms) ↔ straight m = true ∧ Straight ms :=
  List.forall_mem_cons

@[simp] theorem straight_append {ms ns : List Mnemonic} : Straight (ms ++ ns) ↔ Straight ms ∧ Straight ns :=
  List.forall_mem_append

theorem straight_flatMap {ι : Type} {l : List ι} {f : ι → List Mnemonic} (h : ∀ x, Straight (f x)) :
    Straight (l.flatMap f) := List.forall_mem_flatMap.2 fun x _ => h x

@[simp] theorem straight_words : (∀ rt imd, straight (.LI rt imd) = true) ∧
    (∀ rt rs1 imd1, straight (.ADDI rt rs1 imd1) = true) ∧ (∀ rt rs1 imd1, straight (.LD rt rs1 imd1) = true) ∧
    (∀ rs1 imd1 rt, straight (.ST rs1 imd1 rt) = true) ∧ (∀ rt rs1, straight (.LDWD rt rs1) = true) ∧
    (∀ samt, straight (.SLEEP samt) = true) ∧ (∀ d, straight (only d) = true) ∧ (∀ d, straight (only_last d) = true) ∧
    straight NOPS = true := by
  refine ⟨?_, ?_, ?_, ?_, ?_, ?_, ?_, ?_, ?_⟩ <;> intros <;> rfl

theorem map_actOf {σ ε : Type} (isa : Isa σ ε) {ms : List Mnemonic} (h : Straight ms) :
    ms.map isa.actOf = (ms.map isa.exec).map .exec := by
  rw [List.map_map]
  exact List.map_congr_left fun m hm => actOf_straight isa (h m hm)

/-- The effect of straight words on a board. -/
def exec_all (other : Mnemonic → Board → Board × List Cmd) (ms : List Mnemonic) (b : Board) : Board × List Cmd :=
  effects (ms.map (exec other)) b

/-- A part of a program and its listing. -/
structure Spells (cs : List Call) (ms : List Mnemonic) : Prop where
  block : Block cs
  listing : listing cs = ms

theorem Spells.append {cs ds : List Call} {ms ns : List Mnemonic} (h : Spells cs ms) (h' : Spells ds ns) :
    Spells (cs ++ ds) (ms ++ ns) := by
  refine ⟨h.block.append h'.block, ?_⟩
  rw [listing_append h.block, h.listing, h'.listing]

theorem spells_pieces (ms : List Mnemonic) {cs : List Call} (h : ∀ c ∈ cs, Piece c) (hl : listing cs = ms) : Spells cs ms :=
  ⟨block_of_pieces h, hl⟩

theorem spells_nil : Spells [] [] := ⟨.nil, rfl⟩

theorem spells_flatMap {ι : Type} {l : List ι} {f : ι → List Call} {g : ι → List Mnemonic} (h : ∀ x ∈ l, Spells (f x) (g x)) :
    Spells (l.flatMap f) (l.flatMap g) := by
  refine ⟨Block.flatMap fun x hx => (h x hx).block, ?_⟩
  rw [Program.listing_flatMap fun x hx => (h x hx).block]
  exact List.flatMap_congr fun x hx => (h x hx).listing

theorem spells_sleep {samt : CInt} {cs : List Call} (h : sleep samt = some cs) : Spells cs [.SLEEP (samt - 2)] := by
  obtain ⟨hs, rfl⟩ := sleep_eq h
  exact ⟨(piece_SLEEP hs).block, listing_SLEEP [] hs⟩

theorem Spells.length_words {cs : List Call} {ms : List Mnemonic} (h : Spells cs ms) :
    (Program.words [] cs).length = ms.length := by
  rw [← h.listing, Program.listing, List.length_map]

theorem exists_sleep {samt : CInt} (h : 2 < samt) : ∃ cs, sleep samt = some cs :=
  ⟨_, by rw [sleep, SMC_SLEEP_eq h, Option.map_some]⟩

/-- A short loop is executable. -/
theorem loop_generates {pre body post : List Call} {rs1 rs2 : CInt} {ms ns qs : List Mnemonic} (hpre : Spells pre ms)
    (hbody : Spells body ns) (hpost : Spells post qs) (h1 : rs1 < 16) (h2 : rs2 < 16)
    (hlen : ms.length + ns.length + qs.length < 1023) (tgt : String) :
    ∃ p, generate (loop pre body post rs1 rs2 tgt) = some p ∧ Platform.Executable p := by
  apply Program.conclude_executable (Program.loop_made hpre.block hbody.block hpost.block h1 h2)
  rw [Program.words_loop hpre.block hbody.block, Program.emitted_place_holder h1 h2, List.length_append, List.length_append,
    List.length_append, List.length_singleton, hpre.length_words, hbody.length_words, hpost.length_words]
  omega

section
variable {pre body post : List Call} {rs1 rs2 : CInt} {tgt : String} {p : Program} {ms ns qs : List Mnemonic}
  (hp : generate (loop pre body post rs1 rs2 tgt) = some p) (hx : Platform.Executable p) (hpre : Spells pre ms)
  (hbody : Spells body ns) (hpost : Spells post qs) (h1 : rs1 < 16) (h2 : rs2 < 16)
  (hms : Straight ms) (hns : Straight ns) (hqs : Straight qs)
include hp hx hpre hbody hpost h1 h2 hms hns hqs

/-- A generated loop on any instruction set: `J i` holds after `i` of its `n`
passes. -/
theorem halts_generated {σ ε : Type} (isa : Isa σ ε) {n : Nat} (hn : 0 < n) (J : Nat → σ → List ε → Prop) (s : σ)
    (h0 : J 0 (effects (ms.map isa.exec) s).1 (effects (ms.map isa.exec) s).2)
    (hstep : ∀ i s es, i < n → J i s es →
      J (i + 1) (effects (ns.map isa.exec ++ [isa.branch .BL]) s).1
        (es ++ (effects (ns.map isa.exec ++ [isa.branch .BL]) s).2) ∧
      isa.lt (effects (ns.map isa.exec) s).1 (rs1.setWidth 4) (rs2.setWidth 4) = decide (i + 1 < n)) :
    ∃ s1 es1, Halts (p.get_inst_seq.map isa.act) 0 s (es1 ++ (effects (qs.map isa.exec) s1).2)
      (effects (qs.map isa.exec) s1).1 ∧ J n s1 es1 := by
  have hlen : p.program.length < 524288 := lt_of_le_of_lt hx.2 (by decide)
  have hmade : ∀ c ∈ loop pre body post rs1 rs2 tgt, c.WellMade := Program.loop_made hpre.block hbody.block hpost.block h1 h2
  have hlabelled : Program.Labelled (loop pre body post rs1 rs2 tgt) :=
    Program.loop_labelled hpre.block hbody.block hpost.block
  have hcode : Program.code isa (Program.build (loop pre body post rs1 rs2 tgt)) ++ [.halt] =
      loopCode (ms.map isa.exec) (ns.map isa.exec) (qs.map isa.exec) (isa.branch .BL)
        (fun s => isa.lt s (rs1.setWidth 4) (rs2.setWidth 4)) := by
    rw [Program.code_loop hpre.block hbody.block hpost.block h1 h2, hpre.listing, hbody.listing, hpost.listing,
      map_actOf _ hms, map_actOf _ hns, map_actOf _ hqs, loopCode, List.length_map]
    simp only [List.append_assoc, List.cons_append]
  obtain ⟨s1, es1, hh, hJ⟩ : ∃ s1 es1,
      Halts (loopCode (ms.map isa.exec) (ns.map isa.exec) (qs.map isa.exec) (isa.branch .BL)
        (fun s => isa.lt s (rs1.setWidth 4) (rs2.setWidth 4))) 0 s (es1 ++ (effects (qs.map isa.exec) s1).2)
        (effects (qs.map isa.exec) s1).1 ∧ J n s1 es1 := halts_loop hn J s h0 hstep
  rw [← hcode] at hh
  exact ⟨s1, es1, Program.halts_conclude isa hmade hlabelled
    (fun b tgt' hb => Program.entry_label_pc_lt hmade hlabelled hp hlen hb) hp hh, hJ⟩

/-- The loop on a board. -/
theorem halts_on_board (signed : Bool) (other : Mnemonic → Board → Board × List Cmd) {n : Nat} (hn : 0 < n)
    (J : Nat → Board → List Cmd → Prop) (b : Board) (h0 : J 0 (exec_all other ms b).1 (exec_all other ms b).2)
    (hstep : ∀ i b es, i < n → J i b es →
      J (i + 1) (exec_all other ns b).1 (es ++ (exec_all other ns b).2) ∧
        (Board.isa signed other).lt (exec_all other ns b).1 (rs1.setWidth 4) (rs2.setWidth 4) = decide (i + 1 < n)) :
    ∃ b1 es1, Halts (p.get_inst_seq.map (Board.isa signed other).act) 0 b (es1 ++ (exec_all other qs b1).2)
      (exec_all other qs b1).1 ∧ J n b1 es1 := by
  refine halts_generated hp hx hpre hbody hpost h1 h2 hms hns hqs (Board.isa signed other) hn J b h0 fun i b es hi hJ => ?_
  -- the branch itself changes nothing
  have hbranch : effects (ns.map (Board.isa signed other).exec ++ [(Board.isa signed other).branch .BL]) b =
      exec_all other ns b := by
    rw [effects_append]
    refine Prod.ext rfl ?_
    change (exec_all other ns b).2 ++ ([] ++ []) = _
    rw [List.append_nil, List.append_nil]
  rw [hbranch]
  exact hstep i b es hi hJ

end

/-! ## Single words -/

section
variable (other : Mnemonic → Board → Board × List Cmd) (ms : List Mnemonic) (b : Board)

@[simp] theorem exec_all_nil : exec_all other [] b = (b, []) := rfl

theorem exec_all_append (ns : List Mnemonic) : exec_all other (ms ++ ns) b =
    ((exec_all other ns (exec_all other ms b).1).1,
      (exec_all other ms b).2 ++ (exec_all other ns (exec_all other ms b).1).2) := by
  rw [exec_all, List.map_append, effects_append]
  rfl

@[simp] theorem exec_all_LI (rt : Reg) (imd : CInt) : exec_all other (.LI rt imd :: ms) b = exec_all other ms (b.set_reg rt imd) := rfl

@[simp] theorem exec_all_ADDI (rt rs1 : Reg) (imd1 : BitVec 16) :
    exec_all other (.ADDI rt rs1 imd1 :: ms) b = exec_all other ms (b.set_reg rt (b.regs rs1 + imd1.setWidth 32)) := rfl

@[simp] theorem exec_all_LD (rt rs1 : Reg) (imd1 : BitVec 16) : exec_all other (.LD rt rs1 imd1 :: ms) b =
    exec_all other ms (b.set_reg rt (b.mem (b.regs rs1 + imd1.setWidth 32))) := rfl

@[simp] theorem exec_all_ST (rs1 : Reg) (imd1 : BitVec 16) (rt : Reg) : exec_all other (.ST rs1 imd1 rt :: ms) b =
    exec_all other ms { b with mem := Function.update b.mem (b.regs rs1 + imd1.setWidth 32) (b.regs rt) } := rfl

@[simp] theorem exec_all_LDWD (rt rs1 : Reg) : exec_all other (.LDWD rt rs1 :: ms) b =
    exec_all other ms { b with wide := Function.update b.wide rt (b.regs rs1) } := rfl

@[simp] theorem exec_all_SLEEP (samt : BitVec 32) : exec_all other (.SLEEP samt :: ms) b = exec_all other ms b := rfl

@[simp] theorem exec_all_NOPS : exec_all other (NOPS :: ms) b = exec_all other ms b := rfl

theorem exec_all_only (d : Ddr) : exec_all other (only d :: ms) b =
    ((exec_all other ms (b.issue d).1).1, (b.issue d).2 ++ (exec_all other ms (b.issue d).1).2) := by
  change ((exec_all other ms (b.issue d).1).1, ((b.issue d).2 ++ []) ++ (exec_all other ms (b.issue d).1).2) = _
  rw [List.append_nil]

theorem exec_all_ACT : exec_all other (only (.ACT 4 false 5 false false) :: ms) b =
    let b' := { b with row := Function.update b.row (false, b.regs 4#4) (b.regs 5#4) }
    ((exec_all other ms b').1, .ACT (false, b.regs 4#4) (b.regs 5#4) :: (exec_all other ms b').2) := by
  rw [exec_all_only]
  rfl

theorem exec_all_PRE : exec_all other (only (.PRE 4 false false false) :: ms) b =
    ((exec_all other ms b).1, .PRE (false, b.regs 4#4) :: (exec_all other ms b).2) := by
  rw [exec_all_only]
  rfl

theorem exec_all_ACT_last : exec_all other (only_last (.ACT 4 false 5 false false) :: ms) b =
    let b' := { b with row := Function.update b.row (false, b.regs 4#4) (b.regs 5#4) }
    ((exec_all other ms b').1, .ACT (false, b.regs 4#4) (b.regs 5#4) :: (exec_all other ms b').2) := by
  have hexec : exec other (only_last (.ACT 4 false 5 false false)) b =
      ({ b with row := Function.update b.row (false, b.regs 4#4) (b.regs 5#4) }, [.ACT (false, b.regs 4#4) (b.regs 5#4)]) := rfl
  rw [exec_all, List.map_cons, effects, hexec]
  rfl

/-- The rule for a loop in a generator. -/
theorem exec_all_flatMap {ι : Type} {l : List ι} {f : ι → List Mnemonic} {b : Board} (P : List ι → Board → List Cmd → Prop)
    (h0 : P [] b [])
    (hstep : ∀ xs x ys b es, l = xs ++ x :: ys → P xs b es →
      P (xs ++ [x]) (exec_all other (f x) b).1 (es ++ (exec_all other (f x) b).2)) :
    P l (exec_all other (l.flatMap f) b).1 (exec_all other (l.flatMap f) b).2 := by
  rw [exec_all, List.map_flatMap]
  exact effects_flatMap P h0 hstep

end

/-- Two counters below `2 ^ 31` compare as the numbers they hold. -/
theorem lt_counters (signed : Bool) (other : Mnemonic → Board → Board × List Cmd) {b : Board} {rs1 rs2 : Reg} {i n : Nat}
    (h1 : b.regs rs1 = BitVec.ofNat 32 i) (h2 : b.regs rs2 = BitVec.ofNat 32 n) (hi : i < 2 ^ 31) (hn : n < 2 ^ 31) :
    (Board.isa signed other).lt b rs1 rs2 = decide (i < n) := by
  have hlt : (BitVec.ofNat 32 i).slt (BitVec.ofNat 32 n) = decide (i < n) := by
    rw [BitVec.slt_eq_decide, BitVec.toInt_ofNat', BitVec.toInt_ofNat', Int.bmod_eq_of_le (by omega) (by omega),
      Int.bmod_eq_of_le (by omega) (by omega)]
    exact decide_eq_decide.2 Nat.cast_lt
  have hult : (BitVec.ofNat 32 i).ult (BitVec.ofNat 32 n) = decide (i < n) := by
    rw [BitVec.ult_eq_decide, BitVec.toNat_ofNat, BitVec.toNat_ofNat, Nat.mod_eq_of_lt (by omega), Nat.mod_eq_of_lt (by omega)]
  change (if signed then (b.regs rs1).slt (b.regs rs2) else (b.regs rs1).ult (b.regs rs2)) = _
  rw [h1, h2, hlt, hult, ite_self]

end DCT
