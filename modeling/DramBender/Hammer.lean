import Mathlib
import DramBender.Activations
import DramBender.Timing
/-!
# Hammering

A pass of the hammer loops closes the row of the pass before and opens the next
one, after a SLEEP of the on and off parameters each. What a run issues is a list
of hits (`Hit`): the cycles of a PRE and of the ACT behind it.
-/

namespace DCT

open DRAMBender Machine
open DRAMBender.Board
open Program (Piece Block listing listing_append loop)
open Call (add_inst add_inst4 add_mininst pack_minprogram)
open ReservedReg

/-! ## The optional SLEEPs -/

/-- The cycles an on or off parameter adds: steps of `step` cycles above one. -/
def above_one (step : Nat) (n : CInt) : Nat := step * (n.toInt - 1).toNat

/-- A SLEEP of `k` cycles, if any. -/
def idle (k : Nat) : List Mnemonic := if k = 0 then [] else [.SLEEP (BitVec.ofNat 32 (k - 2))]

theorem straight_idle (k : Nat) : Straight (idle k) := by
  unfold idle
  split
  · exact straight_nil
  · simp

theorem length_idle (k : Nat) : (idle k).length ≤ 1 := by
  unfold idle
  split
  · exact Nat.zero_le 1
  · exact le_rfl

/-- The amount of a SLEEP in C's arithmetic. -/
theorem mul_sub_one_eq {step : Nat} {n : CInt} (hn : 1 < n.toInt) :
    BitVec.ofNat 32 step * (n - 1) = BitVec.ofNat 32 (above_one step n) := by
  obtain ⟨m, hm⟩ : ∃ m : Nat, n.toInt = ((m + 1 : Nat) : Int) := ⟨(n.toInt - 1).toNat, by omega⟩
  have heq : n = BitVec.ofNat 32 (m + 1) := by
    rw [← BitVec.ofInt_toInt (x := n), hm]
    exact BitVec.ofInt_natCast 32 (m + 1)
  have habove : above_one step n = step * m := by
    unfold above_one
    rw [hm]
    congr 1
    omega
  rw [habove, heq, BitVec.ofNat_add, BitVec.ofNat_mul]
  congr 1
  exact BitVec.add_sub_cancel _ _

theorem above_one_pos {step : Nat} (hstep : 2 < step) {n : CInt} (hn : 1 < n.toInt) : 2 < above_one step n := by
  unfold above_one
  have hone : 1 ≤ (n.toInt - 1).toNat := by omega
  exact lt_of_lt_of_le hstep (Nat.le_mul_of_pos_right step hone)

theorem above_one_eq_zero {step : Nat} {n : CInt} (hn : ¬ 1 < n.toInt) : above_one step n = 0 := by
  unfold above_one
  have hzero : (n.toInt - 1).toNat = 0 := by omega
  rw [hzero, Nat.mul_zero]

theorem one_slt_iff (n : CInt) : (1 : CInt).slt n = decide (1 < n.toInt) := BitVec.slt_eq_decide

/-- The SLEEP of a parameter is one of the cycles it adds. -/
theorem spells_sleep_above_one (step : Nat) (hstep : 2 < step) {n : CInt} (h : above_one step n < 2 ^ 31) :
    ∃ cs, sleep_above_one (BitVec.ofNat 32 step) n = some cs ∧ Spells cs (idle (above_one step n)) := by
  unfold sleep_above_one
  rw [one_slt_iff]
  by_cases hn : 1 < n.toInt
  · have hpos := above_one_pos hstep hn
    obtain ⟨cs, hcs⟩ := exists_sleep (show (2 : CInt) < BitVec.ofNat 32 (above_one step n) by bv_omega)
    refine ⟨cs, ?_, ?_⟩
    · rw [if_pos (by simpa using hn), mul_sub_one_eq hn]
      exact hcs
    · have hsamt : BitVec.ofNat 32 (above_one step n - 2) = BitVec.ofNat 32 (above_one step n) - 2 := by bv_omega
      unfold idle
      rw [if_neg (by omega), hsamt]
      exact spells_sleep hcs
  · refine ⟨[], ?_, ?_⟩
    · rw [if_neg (by simpa using hn)]
    · rw [above_one_eq_zero hn]
      exact spells_nil

/-- `k` is no SLEEP or the length of one. -/
def Sleepable (k : Nat) : Prop := (k = 0 ∨ 2 < k) ∧ k < 2 ^ 31

theorem sleepable_above_one {step : Nat} (hstep : 2 < step) {n : CInt} (h : above_one step n < 2 ^ 31) :
    Sleepable (above_one step n) := by
  refine ⟨?_, h⟩
  by_cases hn : 1 < n.toInt
  · exact .inr (above_one_pos hstep hn)
  · exact .inl (above_one_eq_zero hn)

theorem time_all_idle (other : Mnemonic → Board → Board × List Cmd) {k : Nat} (hk : Sleepable k) (ms : List Mnemonic)
    (b : Board) (t : Nat) : time_all other (idle k ++ ms) (b, t) = time_all other ms (b, t + k) := by
  obtain ⟨hk, hlt⟩ := hk
  unfold idle
  split
  · next hz => rw [hz, List.nil_append, Nat.add_zero]
  · have hsamt : (BitVec.ofNat 32 (k - 2)).toNat + 2 = k := by
      rw [BitVec.toNat_ofNat, Nat.mod_eq_of_lt (by omega)]
      omega
    rw [List.singleton_append, time_all_SLEEP, hsamt]

/-! ## Hits -/

/-- A PRE and the ACT behind it: the cycles of their words. -/
structure Hit where
  pre : Nat
  act : Nat
  row : CInt

/-- The PRE is in the first slot of its word, the ACT in the last. -/
def Hit.cmds (bank : Bank) (x : Hit) : List Stamped := [(4 * x.pre, .PRE bank), (4 * x.act + 3, .ACT bank x.row)]

theorem map_snd_hits (bank : Bank) (hits : List Hit) :
    (hits.flatMap (Hit.cmds bank)).map Prod.snd = (hits.map Hit.row).flatMap (act_cmds bank) := by
  rw [List.map_flatMap, List.flatMap_map]
  rfl

/-- The hits of `n` passes, one every `period` cycles. -/
def hits (pass : Nat → List Hit) (period t0 n : Nat) : List Hit :=
  (List.range n).flatMap fun j => pass (t0 + period * j)

/-- What holds before every pass of a hammer loop, and the commands so far. -/
structure Hammering (bank : CInt) (n : Nat) (pass : Nat → List Hit) (period t0 i : Nat) (b : Board) (t : Nat)
    (es : List Stamped) : Prop where
  bar : b.regs 4#4 = bank
  num : b.regs 7#4 = BitVec.ofNat 32 n
  cnt : b.regs 8#4 = BitVec.ofNat 32 i
  clock : t = t0 + period * i
  issued : es = (hits pass period t0 i).flatMap (Hit.cmds (false, bank))

theorem Hammering.succ {bank : CInt} {n period t0 i t t' : Nat} {pass : Nat → List Hit} {b b' : Board} {es : List Stamped}
    (h : Hammering bank n pass period t0 i b t es) (ht : t' = t + period) (hbar : b'.regs 4#4 = b.regs 4#4) (hnum : b'.regs 7#4 = b.regs 7#4)
    (hcnt : b'.regs 8#4 = b.regs 8#4 + 1#32) :
    Hammering bank n pass period t0 (i + 1) b' t' (es ++ (pass t).flatMap (Hit.cmds (false, bank))) := by
  refine ⟨hbar.trans h.bar, hnum.trans h.num, ?_, ?_, ?_⟩
  · rw [hcnt, h.cnt]
    exact (BitVec.ofNat_add i 1).symm
  · rw [ht, h.clock, Nat.mul_add, Nat.mul_one, Nat.add_assoc]
  · rw [h.issued, hits, hits, List.range_succ, List.flatMap_append, List.flatMap_singleton, List.flatMap_append, ← h.clock]

/-- The words in front of the loop. -/
def start (bank aggr_id hammer_count : CInt) : List Call :=
  [add_inst (SMC_LI bank BAR), add_inst (SMC_LI aggr_id RAR), add_inst (SMC_LI 0 (Last + 1)), add_inst (SMC_LI hammer_count Last)]

theorem spells_start (bank aggr_id hammer_count : CInt) : Spells (start bank aggr_id hammer_count)
    [.LI 4#4 bank, .LI 5#4 aggr_id, .LI 8#4 0#32, .LI 7#4 hammer_count] :=
  spells_pieces _ (by simp [start]) (by simp [start])

theorem hammer_generates (bank aggr_id hammer_count : CInt) {body : List Call} {ns : List Mnemonic} (hbody : Spells body ns)
    (hlen : ns.length < 1000) :
    ∃ p, generate (loop (start bank aggr_id hammer_count) body [] (Last + 1) Last "HMR_BEGIN") = some p ∧
      Platform.Executable p := by
  refine loop_generates (spells_start bank aggr_id hammer_count) hbody spells_nil (by decide) (by decide) ?_ _
  simp only [List.length_cons, List.length_nil]
  omega

/-- A hammer loop whose passes do `pass`. `K` is what a pass needs to find. -/
theorem hammer_run {bank aggr_id : CInt} {h period : Nat} (hpos : 0 < h) (hlt : h < 2 ^ 31) {body : List Call}
    {ns : List Mnemonic} {p : Program} (hbody : Spells body ns) (hns : Straight ns)
    (hp : generate (loop (start bank aggr_id (BitVec.ofNat 32 h)) body [] (Last + 1) Last "HMR_BEGIN") = some p)
    (hx : Platform.Executable p) (signed : Bool) (other : Mnemonic → Board → Board × List Cmd) (pass : Nat → List Hit)
    (K : Board → Prop) (hK : ∀ b : Board, b.regs 5#4 = aggr_id → K b)
    (hpass : ∀ b t, K b → b.regs 4#4 = bank →
      ∃ b' t', time_all other ns (b, t) = ((b', t'), (pass t).flatMap (Hit.cmds (false, bank))) ∧
        t' + branch_cycles = t + period ∧ b'.regs 4#4 = b.regs 4#4 ∧ b'.regs 7#4 = b.regs 7#4 ∧
        b'.regs 8#4 = b.regs 8#4 + 1#32 ∧ K b')
    (b : Board) (t : Nat) :
    ∃ s' es, Halts (p.get_inst_seq.map (timed signed other).act) 0 (b, t) es s' ∧
      es = (hits pass period (t + 4) h).flatMap (Hit.cmds (false, bank)) := by
  obtain ⟨b1, t1, es1, hh, hJ, -⟩ : ∃ b1 t1 es1, Halts (p.get_inst_seq.map (timed signed other).act) 0 (b, t)
      (es1 ++ (time_all other [] (b1, t1)).2) (time_all other [] (b1, t1)).1 ∧
      (Hammering bank h pass period (t + 4) h b1 t1 es1 ∧ K b1) := by
    refine halts_timed hp hx (spells_start _ _ _) hbody spells_nil (by decide) (by decide) ?_ hns straight_nil signed other
      hpos (fun i b' t' es => Hammering bank h pass period (t + 4) i b' t' es ∧ K b') b t ?_ ?_
    · simp
    · rw [time_all_LI, time_all_LI, time_all_LI, time_all_LI, time_all_nil]
      exact ⟨⟨by simp, by simp, by simp, rfl, rfl⟩, hK _ (by simp)⟩
    · rintro i b t es hi ⟨hJ, hk⟩
      obtain ⟨b', t', hr, ht, hbar, hnum, hcnt, hk'⟩ := hpass b t hk hJ.bar
      have hnext := hJ.succ ht hbar hnum hcnt
      exact ⟨b', t', _, hr, ⟨hnext, hk'⟩, lt_counters signed other hnext.cnt hnext.num (by omega) hlt⟩
  refine ⟨_, _, hh, ?_⟩
  rw [time_all_nil, List.append_nil, hJ.issued]

/-! ## `singleside_hammer` -/

def single_pass (aggr_id : CInt) (on off t : Nat) : List Hit := [⟨t + on, t + on + 2 + off, aggr_id⟩]

def single_words (on off : Nat) : List Mnemonic :=
  idle on ++ [only (.PRE 4 false false false), .ADDI 8#4 8#4 1#16] ++ idle off ++ [only_last (.ACT 4 false 5 false false)]

theorem spells_single_pass {sleepON sleepOFF : List Call} {on off : Nat} (hon : Spells sleepON (idle on))
    (hoff : Spells sleepOFF (idle off)) :
    Spells (sleepON ++ [ddr (SMC_PRE BAR 0 0), add_inst (SMC_ADDI (Last + 1) 1 (Last + 1))] ++ sleepOFF ++
      [ddr_last (SMC_ACT BAR 0 RAR 0)]) (single_words on off) :=
  ((hon.append (spells_pieces _ (by simp) (by simp))).append hoff).append (spells_pieces _ (by simp) (by simp))

theorem straight_single_words (on off : Nat) : Straight (single_words on off) := by
  simp [single_words, straight_idle]

theorem length_single_words (on off : Nat) : (single_words on off).length < 1000 := by
  have hon := length_idle on
  have hoff := length_idle off
  simp only [single_words, List.length_append, List.length_cons, List.length_nil]
  omega

/-- One pass of `singleside_hammer`. -/
theorem time_single_words (other : Mnemonic → Board → Board × List Cmd) {on off : Nat} (hon : Sleepable on)
    (hoff : Sleepable off) (b : Board) (t : Nat) :
    ∃ b', time_all other (single_words on off) (b, t) =
        ((b', t + on + off + 3), (single_pass (b.regs 5#4) on off t).flatMap (Hit.cmds (false, b.regs 4#4))) ∧
      b'.regs = Function.update b.regs 8#4 (b.regs 8#4 + 1#32) := by
  unfold single_words
  simp only [List.append_assoc, List.cons_append, List.nil_append]
  rw [time_all_idle other hon, time_all_PRE, time_all_ADDI, time_all_idle other hoff]
  simp only [time_all_ACT_last, time_all_nil]
  have hact : t + on + 1 + 1 + off = t + on + 2 + off := by omega
  have hend : t + on + 2 + off + 1 = t + on + off + 3 := by omega
  rw [hact, hend]
  exact ⟨_, Prod.ext rfl (by simp [single_pass, Hit.cmds]), rfl⟩

/-- `singleside_hammer` is executable, and the hits of its runs. -/
theorem singleside_hammer_run (bank aggr_id : CInt) {h : Nat} (hpos : 0 < h) (hlt : h < 2 ^ 31) {nAggON nAggOFF : CInt}
    (hon : above_one 5 nAggON < 2 ^ 31) (hoff : above_one 3 nAggOFF < 2 ^ 31) :
    ∃ p, singleside_hammer bank aggr_id (BitVec.ofNat 32 h) nAggON nAggOFF = some p ∧ Platform.Executable p ∧
      ∀ signed other b t, ∃ s' es, Halts (p.get_inst_seq.map (timed signed other).act) 0 (b, t) es s' ∧
        es = (hits (single_pass aggr_id (above_one 5 nAggON) (above_one 3 nAggOFF))
          (above_one 5 nAggON + above_one 3 nAggOFF + 9) (t + 4) h).flatMap (Hit.cmds (false, bank)) := by
  obtain ⟨sleepON, hsON, hspON⟩ := spells_sleep_above_one 5 (by decide) hon
  obtain ⟨sleepOFF, hsOFF, hspOFF⟩ := spells_sleep_above_one 3 (by decide) hoff
  have hbody := spells_single_pass hspON hspOFF
  obtain ⟨p, hp, hx⟩ := hammer_generates bank aggr_id (BitVec.ofNat 32 h) hbody (length_single_words _ _)
  refine ⟨p, ?_, hx, ?_⟩
  · unfold singleside_hammer
    change (sleep_above_one (BitVec.ofNat 32 5) nAggON).bind _ = _
    rw [hsON, Option.bind_some]
    change (sleep_above_one (BitVec.ofNat 32 3) nAggOFF).bind _ = _
    rw [hsOFF, Option.bind_some]
    exact hp
  · intro signed other
    refine hammer_run hpos hlt hbody (straight_single_words _ _) hp hx signed other _ (fun b => b.regs 5#4 = aggr_id)
      (fun b hb => hb) ?_
    intro b t hrar hbar
    obtain ⟨b', hr, hregs⟩ := time_single_words other (sleepable_above_one (by decide) hon)
      (sleepable_above_one (by decide) hoff) b t
    rw [hbar, hrar] at hr
    refine ⟨b', _, hr, ?_, by simp [hregs], by simp [hregs], by simp [hregs], by simpa [hregs] using hrar⟩
    unfold branch_cycles
    omega

/-! ## `doubleside_hammer` -/

def double_pass (aggr1_id aggr2_id : CInt) (on1 off1 on2 off2 t : Nat) : List Hit :=
  [⟨t + on1, t + on1 + 2 + off1, aggr1_id⟩,
    ⟨t + on1 + off1 + on2 + 9, t + on1 + off1 + on2 + 11 + off2, aggr2_id⟩]

def double_words (aggr1_id aggr2_id : CInt) (on1 off1 on2 off2 : Nat) : List Mnemonic :=
  idle on1 ++ [only (.PRE 4 false false false), .LI 5#4 aggr1_id] ++ idle off1 ++
    [only_last (.ACT 4 false 5 false false), .LI 5#4 aggr2_id] ++ [.SLEEP (5 - 2)] ++ idle on2 ++
    [only (.PRE 4 false false false), .ADDI 8#4 8#4 1#16] ++ idle off2 ++ [only_last (.ACT 4 false 5 false false)]

theorem spells_double_pass (aggr1_id aggr2_id : CInt) {sleepON1 sleepOFF1 sleep5 sleepON2 sleepOFF2 : List Call}
    {on1 off1 on2 off2 : Nat} (hon1 : Spells sleepON1 (idle on1)) (hoff1 : Spells sleepOFF1 (idle off1))
    (hs5 : sleep 5 = some sleep5) (hon2 : Spells sleepON2 (idle on2)) (hoff2 : Spells sleepOFF2 (idle off2)) :
    Spells (sleepON1 ++ [ddr (SMC_PRE BAR 0 0), add_inst (SMC_LI aggr1_id RAR)] ++ sleepOFF1 ++
      [ddr_last (SMC_ACT BAR 0 RAR 0), add_inst (SMC_LI aggr2_id RAR)] ++ sleep5 ++ sleepON2 ++
      [ddr (SMC_PRE BAR 0 0), add_inst (SMC_ADDI (Last + 1) 1 (Last + 1))] ++ sleepOFF2 ++
      [ddr_last (SMC_ACT BAR 0 RAR 0)]) (double_words aggr1_id aggr2_id on1 off1 on2 off2) := by
  have hpre1 : Spells [ddr (SMC_PRE BAR 0 0), add_inst (SMC_LI aggr1_id RAR)]
      [only (.PRE 4 false false false), .LI 5#4 aggr1_id] := spells_pieces _ (by simp) (by simp)
  have hact1 : Spells [ddr_last (SMC_ACT BAR 0 RAR 0), add_inst (SMC_LI aggr2_id RAR)]
      [only_last (.ACT 4 false 5 false false), .LI 5#4 aggr2_id] := spells_pieces _ (by simp) (by simp)
  have hpre2 : Spells [ddr (SMC_PRE BAR 0 0), add_inst (SMC_ADDI (Last + 1) 1 (Last + 1))]
      [only (.PRE 4 false false false), .ADDI 8#4 8#4 1#16] := spells_pieces _ (by simp) (by simp)
  have hfirst := (((hon1.append hpre1).append hoff1).append hact1).append (spells_sleep hs5)
  exact (((hfirst.append hon2).append hpre2).append hoff2).append (spells_pieces _ (by simp) (by simp))

theorem straight_double_words (aggr1_id aggr2_id : CInt) (on1 off1 on2 off2 : Nat) :
    Straight (double_words aggr1_id aggr2_id on1 off1 on2 off2) := by
  simp [double_words, straight_idle]

theorem length_double_words (aggr1_id aggr2_id : CInt) (on1 off1 on2 off2 : Nat) :
    (double_words aggr1_id aggr2_id on1 off1 on2 off2).length < 1000 := by
  have hon1 := length_idle on1
  have hoff1 := length_idle off1
  have hon2 := length_idle on2
  have hoff2 := length_idle off2
  simp only [double_words, List.length_append, List.length_cons, List.length_nil]
  omega

/-- One pass of `doubleside_hammer`. -/
theorem time_double_words (other : Mnemonic → Board → Board × List Cmd) (aggr1_id aggr2_id : CInt) {on1 off1 on2 off2 : Nat}
    (hon1 : Sleepable on1) (hoff1 : Sleepable off1) (hon2 : Sleepable on2) (hoff2 : Sleepable off2) (b : Board) (t : Nat) :
    ∃ b', time_all other (double_words aggr1_id aggr2_id on1 off1 on2 off2) (b, t) =
        ((b', t + (on1 + off1 + on2 + off2 + 12)),
          (double_pass aggr1_id aggr2_id on1 off1 on2 off2 t).flatMap (Hit.cmds (false, b.regs 4#4))) ∧
      Frame [5#4, 8#4] b b' ∧ b'.regs 8#4 = b.regs 8#4 + 1#32 := by
  unfold double_words
  simp only [List.append_assoc, List.cons_append, List.nil_append]
  rw [time_all_idle other hon1, time_all_PRE, time_all_LI, time_all_idle other hoff1]
  simp only [time_all_ACT_last, time_all_LI, time_all_SLEEP]
  rw [time_all_idle other hon2, time_all_PRE, time_all_ADDI, time_all_idle other hoff2]
  simp only [time_all_ACT_last, time_all_nil]
  have hs : (5 - 2 : BitVec 32).toNat + 2 = 5 := rfl
  rw [hs]
  refine ⟨_, Prod.ext (Prod.ext rfl ?_) ?_, ?_, ?_⟩
  · dsimp only
    omega
  · simp [double_pass, Hit.cmds]
    omega
  · exact (((Frame.of_regs rfl).set_reg (by simp) _).set_reg (by simp) _).set_reg (by simp) _
  · simp

/-- `doubleside_hammer` is executable, and the hits of its runs. -/
theorem doubleside_hammer_run (bank aggr1_id aggr2_id : CInt) {h : Nat} (hpos : 0 < h) (hlt : h < 2 ^ 31)
    {nAggON1 nAggOFF1 nAggON2 nAggOFF2 : CInt} (hon1 : above_one 5 nAggON1 < 2 ^ 31) (hoff1 : above_one 3 nAggOFF1 < 2 ^ 31)
    (hon2 : above_one 5 nAggON2 < 2 ^ 31) (hoff2 : above_one 3 nAggOFF2 < 2 ^ 31) :
    ∃ p, doubleside_hammer bank aggr1_id aggr2_id (BitVec.ofNat 32 h) nAggON1 nAggOFF1 nAggON2 nAggOFF2 = some p ∧
      Platform.Executable p ∧ ∀ signed other b t, ∃ s' es,
        Halts (p.get_inst_seq.map (timed signed other).act) 0 (b, t) es s' ∧
        es = (hits (double_pass aggr1_id aggr2_id (above_one 5 nAggON1) (above_one 3 nAggOFF1) (above_one 5 nAggON2)
            (above_one 3 nAggOFF2))
          (above_one 5 nAggON1 + above_one 3 nAggOFF1 + above_one 5 nAggON2 + above_one 3 nAggOFF2 + 18) (t + 4) h).flatMap
          (Hit.cmds (false, bank)) := by
  obtain ⟨sleepON1, hsON1, hspON1⟩ := spells_sleep_above_one 5 (by decide) hon1
  obtain ⟨sleepOFF1, hsOFF1, hspOFF1⟩ := spells_sleep_above_one 3 (by decide) hoff1
  obtain ⟨sleep5, hs5⟩ := exists_sleep (show (2 : CInt) < 5 by decide)
  obtain ⟨sleepON2, hsON2, hspON2⟩ := spells_sleep_above_one 5 (by decide) hon2
  obtain ⟨sleepOFF2, hsOFF2, hspOFF2⟩ := spells_sleep_above_one 3 (by decide) hoff2
  have hbody := spells_double_pass aggr1_id aggr2_id hspON1 hspOFF1 hs5 hspON2 hspOFF2
  obtain ⟨p, hp, hx⟩ := hammer_generates bank aggr1_id (BitVec.ofNat 32 h) hbody (length_double_words _ _ _ _ _ _)
  refine ⟨p, ?_, hx, ?_⟩
  · unfold doubleside_hammer
    change (sleep_above_one (BitVec.ofNat 32 5) nAggON1).bind _ = _
    rw [hsON1, Option.bind_some]
    change (sleep_above_one (BitVec.ofNat 32 3) nAggOFF1).bind _ = _
    rw [hsOFF1, Option.bind_some, hs5, Option.bind_eq_bind, Option.bind_some]
    change (sleep_above_one (BitVec.ofNat 32 5) nAggON2).bind _ = _
    rw [hsON2, Option.bind_some]
    change (sleep_above_one (BitVec.ofNat 32 3) nAggOFF2).bind _ = _
    rw [hsOFF2, Option.bind_some]
    exact hp
  · intro signed other
    refine hammer_run hpos hlt hbody (straight_double_words _ _ _ _ _ _) hp hx signed other _ (fun _ => True)
      (fun _ _ => trivial) ?_
    rintro b t - hbar
    obtain ⟨b', hr, hregs, hcnt⟩ := time_double_words other aggr1_id aggr2_id (sleepable_above_one (by decide) hon1)
      (sleepable_above_one (by decide) hoff1) (sleepable_above_one (by decide) hon2) (sleepable_above_one (by decide) hoff2) b t
    rw [hbar] at hr
    refine ⟨b', _, hr, ?_, hregs _ (by decide), hregs _ (by decide), hcnt, trivial⟩
    unfold branch_cycles
    omega

/-! ## Counting activations -/

/-- Activates the rows in turn, each directly behind a PRE of the bank, and
nothing else. -/
structure Hammers (bank : Bank) (row_ids : List CInt) (es : List Cmd) : Prop where
  rows : acts es = row_ids.map fun row_id => (bank, row_id)
  precharged : ∀ es1 bk row_id es2, es = es1 ++ .ACT bk row_id :: es2 → ∃ es0, es1 = es0 ++ [.PRE bk]

theorem precharged_flatMap (bank : Bank) (row_ids : List CInt) {es1 es2 : List Cmd} {bk : Bank} {row_id : CInt}
    (h : row_ids.flatMap (act_cmds bank) = es1 ++ .ACT bk row_id :: es2) : ∃ es0, es1 = es0 ++ [.PRE bk] := by
  induction row_ids generalizing es1 with
  | nil =>
    have hnil := congrArg List.length h
    simp at hnil
  | cons row row_ids ih =>
    change .PRE bank :: .ACT bank row :: row_ids.flatMap (act_cmds bank) = _ at h
    cases es1 with
    | nil => cases h
    | cons c es1 =>
      cases es1 with
      | nil =>
        cases h
        exact ⟨[], rfl⟩
      | cons c es1 =>
        obtain ⟨es0, rfl⟩ := ih (List.cons.inj (List.cons.inj h).2).2
        exact ⟨_ :: _ :: es0, rfl⟩

theorem hammers_flatMap (bank : Bank) (row_ids : List CInt) : Hammers bank row_ids (row_ids.flatMap (act_cmds bank)) := by
  refine ⟨?_, fun es1 bk row_id es2 h => precharged_flatMap bank row_ids h⟩
  have hacts := acts_flatMap bank row_ids []
  rw [List.append_nil] at hacts
  rw [hacts]
  exact List.append_nil _

theorem rows_hits {pass : Nat → List Hit} {row_ids : List CInt} (hpass : ∀ t, (pass t).map Hit.row = row_ids)
    (period t0 n : Nat) : (hits pass period t0 n).map Hit.row = (List.replicate n row_ids).flatten := by
  unfold hits
  rw [List.map_flatMap]
  induction n with
  | zero => rfl
  | succ n ih => rw [List.range_succ, List.flatMap_append, ih, List.flatMap_singleton, hpass, List.replicate_succ',
      List.flatten_append, List.flatten_singleton]

/-- A run with a clock, seen without it. -/
theorem hammers_of_hits {p : Program} {signed : Bool} {other : Mnemonic → Board → Board × List Cmd} {b : Board} {t : Nat}
    {s' : Board × Nat} {es : List Stamped} {bank : CInt} {pass : Nat → List Hit} {period t0 n : Nat} {row_ids : List CInt}
    (hpass : ∀ t, (pass t).map Hit.row = row_ids)
    (hh : Halts (p.get_inst_seq.map (timed signed other).act) 0 (b, t) es s')
    (he : es = (hits pass period t0 n).flatMap (Hit.cmds (false, bank))) :
    ∃ b' es, Halts (p.get_inst_seq.map (Board.isa signed other).act) 0 b es b' ∧
      Hammers (false, bank) (List.replicate n row_ids).flatten es := by
  refine ⟨s'.1, es.map Prod.snd, halts_project hh, ?_⟩
  rw [he, map_snd_hits, rows_hits hpass]
  exact hammers_flatMap _ _

/-- The hammer loops hammer as often as asked for: `h` times, or `h` times each
of the two rows. -/
theorem hammer_counts_exact (bank : CInt) {h : Nat} (hpos : 0 < h) (hlt : h < 2 ^ 31) (signed : Bool)
    (other : Mnemonic → Board → Board × List Cmd) (b : Board) :
    (∀ aggr_id nAggON nAggOFF, above_one 5 nAggON < 2 ^ 31 → above_one 3 nAggOFF < 2 ^ 31 →
      ∃ p, singleside_hammer bank aggr_id (BitVec.ofNat 32 h) nAggON nAggOFF = some p ∧ Platform.Executable p ∧
        ∃ b' es, Halts (p.get_inst_seq.map (Board.isa signed other).act) 0 b es b' ∧
          Hammers (false, bank) (List.replicate h aggr_id) es) ∧
    ∀ aggr1_id aggr2_id nAggON1 nAggOFF1 nAggON2 nAggOFF2, above_one 5 nAggON1 < 2 ^ 31 → above_one 3 nAggOFF1 < 2 ^ 31 →
      above_one 5 nAggON2 < 2 ^ 31 → above_one 3 nAggOFF2 < 2 ^ 31 →
      ∃ p, doubleside_hammer bank aggr1_id aggr2_id (BitVec.ofNat 32 h) nAggON1 nAggOFF1 nAggON2 nAggOFF2 = some p ∧
        Platform.Executable p ∧ ∃ b' es, Halts (p.get_inst_seq.map (Board.isa signed other).act) 0 b es b' ∧
          Hammers (false, bank) (List.replicate h [aggr1_id, aggr2_id]).flatten es := by
  constructor
  · intro aggr_id nAggON nAggOFF hon hoff
    obtain ⟨p, hp, hx, hruns⟩ := singleside_hammer_run bank aggr_id hpos hlt hon hoff
    obtain ⟨s', es, hh, he⟩ := hruns signed other b 0
    have hpass : ∀ t, (single_pass aggr_id (above_one 5 nAggON) (above_one 3 nAggOFF) t).map Hit.row = [aggr_id] := fun _ => rfl
    have hrun := hammers_of_hits hpass hh he
    rw [List.flatten_replicate_singleton] at hrun
    exact ⟨p, hp, hx, hrun⟩
  · intro aggr1_id aggr2_id nAggON1 nAggOFF1 nAggON2 nAggOFF2 hon1 hoff1 hon2 hoff2
    obtain ⟨p, hp, hx, hruns⟩ := doubleside_hammer_run bank aggr1_id aggr2_id hpos hlt hon1 hoff1 hon2 hoff2
    obtain ⟨s', es, hh, he⟩ := hruns signed other b 0
    exact ⟨p, hp, hx, hammers_of_hits (fun t => rfl) hh he⟩

/-- A million times, with a SLEEP of ten cycles while the row is open. -/
theorem hammer_counts_exact_million : ∃ p, singleside_hammer 1 7 1000000 3 1 = some p ∧ Platform.Executable p ∧
    ∃ b' es, Halts (p.get_inst_seq.map (Board.isa false fun _ b => (b, [])).act) 0 .zero es b' ∧
      Hammers (false, 1) (List.replicate 1000000 7) es :=
  (hammer_counts_exact 1 (h := 1000000) (by decide) (by decide) false (fun _ b => (b, [])) .zero).1 7 3 1 (by decide) (by decide)

end DCT
