import Mathlib
import DramBender.ControlFlow
import DramBender.Lib.Paths
/-!
# Whether every executed READ is announced

The INFO words stand where the scan saw a run of DDR words begin. A path that
comes to the run's first word passes its INFO; one that a branch takes into the
middle of the run does not (`conclude_announces_iff`).
-/

namespace DRAMBender

open Std (ExtTreeMap)
open Insert Segment Paths Machine

/-! ## Paths of words -/

/-- Where control may go from a word, whatever the registers hold. -/
def Mnemonic.nexts (m : Mnemonic) (pc : Nat) : List Nat :=
  match m with
  | .END => []
  | .BL bt _ _ => [pc + 1, bt.toNat]
  | .BEQ bt _ _ => [pc + 1, bt.toNat]
  | .JUMP jt => [jt.toNat]
  | _ => [pc + 1]

def nexts (w : Inst) (pc : Nat) : List Nat := (decode_inst w).nexts pc

theorem nexts_of_isDdrWord (w : Inst) (pc : Nat) (h : isDdrWord w = true) : nexts w pc = [pc + 1] := by
  unfold isDdrWord at h
  unfold nexts
  cases hd : decode_inst w <;> first | rfl | simp [hd, Mnemonic.isDdr] at h

theorem goes_of_next {σ ε : Type} (isa : Isa σ ε) {ws : List Inst} {pc pc1 : Nat} {s s1 : σ} {es : List ε}
    (h : next (ws.map isa.act) pc s = some (pc1, s1, es)) : Goes nexts ws pc pc1 := by
  unfold next at h
  rw [List.getElem?_map] at h
  cases hw : ws[pc]? with
  | none => simp [hw] at h
  | some w =>
    refine ⟨w, hw, ?_⟩
    rw [hw, Option.map_some, Isa.act] at h
    unfold nexts
    cases hd : decode_inst w with
    | END => simp [hd, Isa.actOf] at h
    | BL bt rs1 rs2 =>
      simp only [hd, Isa.actOf, Option.some.injEq, Prod.mk.injEq] at h
      obtain ⟨rfl, -⟩ := h
      split <;> simp [Mnemonic.nexts]
    | BEQ bt rs1 rs2 =>
      simp only [hd, Isa.actOf, Option.some.injEq, Prod.mk.injEq] at h
      obtain ⟨rfl, -⟩ := h
      split <;> simp [Mnemonic.nexts]
    | JUMP jt =>
      simp only [hd, Isa.actOf, Option.some.injEq, Prod.mk.injEq] at h
      obtain ⟨rfl, -⟩ := h
      simp [Mnemonic.nexts]
    | _ =>
      simp only [hd, Isa.actOf, nop, Option.some.injEq, Prod.mk.injEq] at h
      obtain ⟨rfl, -⟩ := h
      exact List.mem_singleton_self _

/-- Every run of every board is on a path. -/
theorem reached_of_steps {σ ε : Type} (isa : Isa σ ε) {ws : List Inst} {pc : Nat} {s s' : σ} {es : List ε}
    (h : Steps (ws.map isa.act) 0 s es pc s') : Reached nexts ws pc := by
  have hrun : ∀ {pc pc' : Nat} {s s' : σ} {es : List ε}, Steps (ws.map isa.act) pc s es pc' s' →
      Reached nexts ws pc → Reached nexts ws pc' := by
    intro pc pc' s s' es h
    induction h with
    | refl => exact id
    | step hn _ ih => exact fun hr => ih (hr.tail (goes_of_next isa hn))
  exact hrun h .refl

/-- The READ slots of the words executed on the way. -/
def executed_reads (ws : List Inst) (run : List Nat) : Nat := (run.map fun i => readSlots ws i (i + 1)).sum

/-- Whenever a path executes DDR words with 1 to 1024 READs, from where it comes
to them to where it leaves them, the word before them is an INFO for at least as
many (`n` is its `int`). -/
def Announces (ws : List Inst) : Prop :=
  ∀ before run after, Path nexts ws (before ++ run ++ [after]) → (∀ i ∈ run, At isDdrWord ws i) →
    ¬ At isDdrWord ws after → (∀ i, before.getLast? = some i → ¬ At isDdrWord ws i) →
    1 ≤ executed_reads ws run → executed_reads ws run ≤ 1024 →
    ∃ i n, before.getLast? = some i ∧ ws[i]? = some (SMC_INFO (BitVec.ofNat 32 n)) ∧
      executed_reads ws run ≤ n ∧ n < 2147483648

theorem executed_reads_range' (ws : List Inst) (y n : Nat) :
    executed_reads ws (List.range' y n) = readSlots ws y (y + n) := by
  unfold executed_reads
  induction n generalizing y with
  | zero => simp [readSlots, total]
  | succ n ih =>
    have hsplit : readSlots ws y (y + (n + 1)) = readSlots ws y (y + 1) + readSlots ws (y + 1) (y + (n + 1)) :=
      total_split (by omega) (by omega)
    rw [List.range'_succ, List.map_cons, List.sum_cons, ih, hsplit, Nat.add_right_comm, Nat.add_assoc]

namespace Program

/-! ## The source of an image -/

/-- The words `conclude` works on. -/
def ended (p : Program) : List Inst := p.program ++ [SMC_END]

/-- They with their labels filled in. -/
def filled (p : Program) : List Inst :=
  (ended p).mapIdx fun b w =>
    match p.branches[b]? with
    | some tgt => link w (p.labels.getD tgt 0)
    | none => w

/-- No path comes to a branch whose label stands between two DDR words, unless
no READ or more than 1024 come from there to the end of the DDR words. -/
def EntersAtStarts (p : Program) : Prop :=
  ∀ (b : Nat) tgt n, Reached nexts (filled p) b → p.branches[b]? = some tgt → 0 < p.labels.getD tgt 0 →
    At isDdrWord (ended p) (p.labels.getD tgt 0 - 1) →
    Runs isDdrWord (ended p) (p.labels.getD tgt 0) (p.labels.getD tgt 0 + n) →
    ¬ At isDdrWord (ended p) (p.labels.getD tgt 0 + n) →
    readSlots (ended p) (p.labels.getD tgt 0) (p.labels.getD tgt 0 + n) = 0 ∨
      1024 < readSlots (ended p) (p.labels.getD tgt 0) (p.labels.getD tgt 0 + n)

/-! ## Programs of encoded words -/

/-- Everything but the post-processing, with words from the encoders. -/
def Crafting (_ : Program) : Op → Prop
  | .call c => c.WellMade
  | .dump_registers => True
  | .conclude => False
  | .get_inst_array => False

theorem encoded_dump : ∀ w ∈ dump_words, Encoded w := by
  have hnops : Encoded all_nops := encoded_pack exists_NOP exists_NOP exists_NOP exists_NOP
  have hafter : ∀ m : Mini, Encoded (pack_mininsts m.encode SMC_NOP SMC_NOP SMC_NOP) := fun m =>
    encoded_pack ⟨m, rfl⟩ exists_NOP exists_NOP exists_NOP
  refine List.forall_mem_append.2 ⟨List.forall_mem_append.2 ⟨?_, ?_⟩, ?_⟩
  · simp only [List.forall_mem_cons]
    exact ⟨⟨.LI 15 13, rfl, rfl⟩, ⟨.LI 0 14, rfl, rfl⟩, ⟨.LI 0 15, rfl, rfl⟩, hafter (.PRE 13 0 1 0), hnops, hnops, hnops,
      hafter (.ACT 13 0 14 0 0), hnops, hnops, hafter (.WRITE 13 0 15 0 0 0), hnops, hnops, hnops,
      hafter (.READ 13 0 15 0 0 0), by simp⟩
  · intro w hw
    obtain ⟨i, -, rfl⟩ := List.mem_map.1 hw
    exact ⟨.LDWD (BitVec.ofNat 32 i) (BitVec.ofNat 32 i), rfl, rfl⟩
  · simp only [List.forall_mem_cons]
    exact ⟨hafter (.WRITE 13 0 15 0 0 0), hnops, hnops, hnops, hafter (.READ 13 0 15 0 0 0), hnops, hnops,
      hafter (.PRE 13 0 1 0), by simp⟩

theorem Crafted.dump_registers {p q : Program} (h : Crafted p) (hq : p.dump_registers = some q) : Crafted q := by
  have hws : ∀ w ∈ dump_words.flatMap emitted, Encoded w := by
    intro w hw
    obtain ⟨w', hw', hw⟩ := List.mem_flatMap.1 hw
    exact encoded_emitted (encoded_dump w' hw') w hw
  rw [dump_registers_some hq]
  exact h.extend rfl (fun _ hi => hi) (fun i w hi _ => hws w (List.mem_of_getElem? hi)) h.queue

theorem Crafted.add_below {self p : Program} (hs : Crafted self) (hr : RepInv self) (hp : Crafted p) :
    Crafted (self.add_below p) := by
  have hspc := hr.spc_eq
  refine hs.extend rfl (fun i hi => ?_) (fun i w hw hi => ?_) hs.queue
  · cases hb : self.branches[i]? with
    | none => rfl
    | some tgt =>
      rw [add_below_branch_left hr hb] at hi
      cases hi
  · apply hp.word i w hw
    cases hb : p.branches[i]? with
    | none => rfl
    | some tgt =>
      rw [← hspc, Nat.add_comm, add_below_branch_right hb] at hi
      cases hi

theorem crafted_of_reach {p : Program} (h : Reach Crafting p) : Linkable p ∧ Crafted p := by
  refine Reach.inv (fun p => Linkable p ∧ Crafted p) ⟨linkable_of_unlinked .new, crafted_new⟩ ?_ ?_ h
  · rintro p op q ⟨hl, hc⟩ hg hq
    cases op with
    | call c =>
      cases hq
      have hb : Building p (.call c) := by
        rintro bt rs1 rs2 tgt rfl
        exact hg
      exact ⟨hl.step hb rfl, hc.call hl.spc_eq hg⟩
    | dump_registers => exact ⟨hl.step (show Building p .dump_registers from trivial) hq, hc.dump_registers hq⟩
    | conclude => exact hg.elim
    | get_inst_array => exact hg.elim
  · rintro self p ⟨hls, hcs⟩ ⟨hlp, hcp⟩
    exact ⟨linkable_add_below hls hlp, hcs.add_below hls.toRepInv hcp⟩

/-! ## The image -/

section
variable {p p' : Program} (hl : Linkable p) (hc : Crafted p)
include hl hc

theorem exists_encode : ∃ as : List Asm, p.program = as.map Asm.encode := by
  have hword : ∀ w ∈ p.program, w ∈ Set.range Asm.encode := by
    intro w hw
    obtain ⟨i, hi⟩ := List.mem_iff_getElem?.1 hw
    cases hb : p.branches[i]? with
    | none =>
      obtain ⟨a, -, rfl⟩ := hc.word i w hi hb
      exact ⟨a, rfl⟩
    | some tgt =>
      obtain ⟨w', hw', bt, rs1, rs2, -, -, rfl⟩ := hl.holder i tgt hb
      obtain rfl := Option.some.inj (hi.symm.trans hw')
      cases bt with
      | BL => exact ⟨.BL rs1 rs2 0, rfl⟩
      | BEQ => exact ⟨.BEQ rs1 rs2 0, rfl⟩
      | JUMP => exact ⟨.JUMP 0, rfl⟩
  have hrange : p.program ∈ Set.range (List.map Asm.encode) := by
    rw [Set.range_list_map]
    exact hword
  obtain ⟨as, has⟩ := hrange
  exact ⟨as, has.symm⟩

/-- The INFO words `conclude` asks for. -/
theorem warned_iff (k : Nat) (w : Inst) : (p.append [SMC_END]).linear_analysis.warnings[k]? = some w ↔
    ∃ n, DdrRun (ended p) k n ∧ 1 ≤ readSlots (ended p) k (k + n) ∧ readSlots (ended p) k (k + n) ≤ 1024 ∧
      w = SMC_INFO (BitVec.ofNat 32 (readSlots (ended p) k (k + n))) := by
  obtain ⟨as, has⟩ := exists_encode hl hc
  have hended : ended p = (as ++ [Asm.END]).map Asm.encode := by
    rw [ended, has, List.map_append]
    rfl
  have hnone : (p.append [SMC_END]).warnings[k]? = none := by
    change p.warnings[k]? = none
    rw [hl.warnings, ExtTreeMap.getElem?_empty]
  rw [analysis_spec, hnone, hended, ← announced_encode, ← hended]
  simp [append, ended]

theorem mark_iff (k : Nat) : p.concludeMark k = true ↔
    ∃ n, DdrRun (ended p) k n ∧ 1 ≤ readSlots (ended p) k (k + n) ∧ readSlots (ended p) k (k + n) ≤ 1024 := by
  refine Option.isSome_iff_exists.trans ⟨?_, ?_⟩
  · rintro ⟨w, hw⟩
    obtain ⟨n, hr, hpos, hle, -⟩ := (warned_iff hl hc k w).1 hw
    exact ⟨n, hr, hpos, hle⟩
  · rintro ⟨n, hr, hpos, hle⟩
    exact ⟨_, (warned_iff hl hc k _).2 ⟨n, hr, hpos, hle, rfl⟩⟩

/-- Nothing is inserted behind a DDR word. -/
theorem unmarked_of_ddr {k : Nat} (h : At isDdrWord (ended p) k) : p.concludeMark (k + 1) = false := by
  by_contra hm
  obtain ⟨n, hr, -⟩ := (mark_iff hl hc (k + 1)).1 (Bool.eq_true_of_not_eq_false hm)
  apply hr.maximal k (Nat.lt_succ_self k) h
  intro m hm hm'
  obtain rfl : m = k := by omega
  exact h

/-- DDR words stay together. -/
theorem place_run {t n : Nat} (h : Runs isDdrWord (ended p) t (t + n)) : ∀ m ≤ n,
    place p.concludeMark (t + m) = place p.concludeMark t + m := by
  intro m hm
  induction m with
  | zero => rfl
  | succ m ih =>
    have hunmarked := unmarked_of_ddr hl hc (h (t + m) (by omega) (by omega))
    rw [← Nat.add_assoc, ← Nat.add_assoc, place_of_unmarked hunmarked, ← place_succ, ih (by omega)]

end

section
variable {p p' : Program} (hl : Linkable p) (hc : Crafted p) (h : p.conclude = some p') (hlen : p'.program.length < 524288)
include hl h

theorem image_eq : p'.program = expand (fun k => (p.append [SMC_END]).linear_analysis.warnings[k]?)
    ((ended p).mapIdx ((p.append [SMC_END]).retarget p.concludeMark)) := by
  obtain ⟨p'', r, hp', rfl, hr⟩ := conclude_spec hl
  obtain rfl := Option.some.inj (hp'.symm.trans h)
  exact hr.program

theorem length_image : p'.program.length = entry p.concludeMark (ended p).length := by
  rw [image_eq hl h, length_expand, List.length_mapIdx]
  rfl

theorem image_place {k : Nat} {w : Inst} (hw : (ended p)[k]? = some w) :
    p'.program[place p.concludeMark k]? = some ((p.append [SMC_END]).retarget p.concludeMark k w) := by
  rw [image_eq hl h]
  refine (getElem?_place _ _ (by rw [List.length_mapIdx]; exact (List.getElem?_eq_some_iff.1 hw).1)).trans ?_
  rw [List.getElem?_mapIdx, hw]
  rfl

theorem image_plain {k : Nat} {w : Inst} (hw : (ended p)[k]? = some w) (hb : p.branches[k]? = none) :
    p'.program[place p.concludeMark k]? = some w := by
  rw [image_place hl h hw]
  exact congrArg some (retarget_none hb _ w)

include hlen

theorem entry_label_lt {b : Nat} {tgt : String} (_ : p.branches[b]? = some tgt) :
    entry p.concludeMark (p.labels.getD tgt 0) < 524288 := by
  have hle := hl.toRepInv.label_getD_le tgt
  have hmono : entry p.concludeMark (p.labels.getD tgt 0) ≤ entry p.concludeMark (ended p).length :=
    entry_le_iff.2 (by rw [ended, List.length_append]; omega)
  have hlength := length_image hl h
  omega

theorem label_lt {b : Nat} {tgt : String} (hb : p.branches[b]? = some tgt) : p.labels.getD tgt 0 < 524288 :=
  lt_of_le_of_lt (Nat.le_add_right _ _) (entry_label_lt hl h hlen hb)

omit hlen in
theorem image_entry (hc : Crafted p) {k : Nat} (hm : p.concludeMark k = true) :
    ∃ n, DdrRun (ended p) k n ∧ readSlots (ended p) k (k + n) ≤ 1024 ∧
      p'.program[entry p.concludeMark k]? = some (SMC_INFO (BitVec.ofNat 32 (readSlots (ended p) k (k + n)))) := by
  obtain ⟨w, hw⟩ := Option.isSome_iff_exists.1 hm
  obtain ⟨n, hr, -, hle, rfl⟩ := (warned_iff hl hc k w).1 hw
  refine ⟨n, hr, hle, ?_⟩
  rw [image_eq hl h]
  refine getElem?_entry _ _ hw ?_
  rw [List.length_mapIdx]
  exact hr.first.lt

/-- A recorded branch, in the source and in the image. -/
theorem image_branch {b : Nat} {tgt : String} (hb : p.branches[b]? = some tgt) :
    ∃ bt rs1 rs2, (ended p)[b]? = some (place_holder bt rs1 rs2) ∧
      decode_inst (place_holder bt rs1 rs2) = bt.mnemonic 0 (rs1.setWidth 4) (rs2.setWidth 4) ∧
      (∃ w, (filled p)[b]? = some w ∧ decode_inst w = bt.mnemonic (p.labels.getD tgt 0) (rs1.setWidth 4) (rs2.setWidth 4)) ∧
      ∃ w, p'.program[place p.concludeMark b]? = some w ∧
        decode_inst w = bt.mnemonic (entry p.concludeMark (p.labels.getD tgt 0)) (rs1.setWidth 4) (rs2.setWidth 4) := by
  obtain ⟨w, hw, bt, rs1, rs2, h1, h2, rfl⟩ := hl.holder b tgt hb
  have hended : (ended p)[b]? = some (place_holder bt rs1 rs2) := by
    rw [ended, List.getElem?_append_left (List.getElem?_eq_some_iff.1 hw).1, hw]
  refine ⟨bt, rs1, rs2, hended, decode_place_holder h1 h2 bt,
    ⟨link (place_holder bt rs1 rs2) (p.labels.getD tgt 0), ?_, decode_link_place_holder h1 h2 bt (label_lt hl h hlen hb)⟩,
    link (place_holder bt rs1 rs2) (entry p.concludeMark (p.labels.getD tgt 0)), ?_,
    decode_link_place_holder h1 h2 bt (entry_label_lt hl h hlen hb)⟩
  · rw [filled, List.getElem?_mapIdx, hended, Option.map_some, hb]
  · rw [image_place hl h hended, retarget_some (p := p.append [SMC_END]) hb]
    rfl

end

theorem isDdr_mnemonic (bt : BR_TYPE) (t : Nat) (rs1 rs2 : Reg) : (bt.mnemonic t rs1 rs2).isDdr = false := by
  cases bt <;> rfl

/-- Where a branch goes. -/
theorem nexts_mnemonic (bt : BR_TYPE) {t : Nat} (ht : t < 524288) (rs1 rs2 : Reg) (pc : Nat) :
    (bt.mnemonic t rs1 rs2).nexts pc = match bt with | .JUMP => [t] | _ => [pc + 1, t] := by
  have h19 : (BitVec.ofNat 19 t).toNat = t := by
    rw [BitVec.toNat_ofNat]
    exact Nat.mod_eq_of_lt ht
  have h27 : (BitVec.ofNat 27 t).toNat = t := by
    rw [BitVec.toNat_ofNat]
    exact Nat.mod_eq_of_lt (by omega)
  cases bt with
  | BL => rw [BR_TYPE.mnemonic, Mnemonic.nexts, h19]
  | BEQ => rw [BR_TYPE.mnemonic, Mnemonic.nexts, h19]
  | JUMP => rw [BR_TYPE.mnemonic, Mnemonic.nexts, h27]

/-- The words no branch was recorded for. -/
theorem ended_plain {p : Program} (hc : Crafted p) {k : Nat} {w : Inst} (hw : (ended p)[k]? = some w)
    (hb : p.branches[k]? = none) : (decode_inst w).isBranch = false := by
  rcases Nat.lt_or_ge k p.program.length with hk | hk
  · rw [ended, List.getElem?_append_left hk] at hw
    exact hc.plain.word k w hw hb
  · rw [ended, List.getElem?_append_right hk] at hw
    rw [List.mem_singleton.1 (List.mem_of_getElem? hw), decode_SMC_END]
    rfl

theorem nexts_plain {w : Inst} (h : (decode_inst w).isBranch = false) (pc : Nat) :
    nexts w pc = if decode_inst w = .END then [] else [pc + 1] := by
  unfold nexts
  cases hd : decode_inst w <;> first | rfl | simp [hd, Mnemonic.isBranch] at h

theorem decode_announcement {n : Nat} (h : n < 2147483648) : decode_inst (SMC_INFO (BitVec.ofNat 32 n)) = .INFO := by
  have hn : BitVec.ofNat 32 n < 2147483648#32 := by bv_omega
  exact decode_SMC_INFO hn

section
variable {p p' : Program} (hl : Linkable p) (hc : Crafted p) (h : p.conclude = some p') (hlen : p'.program.length < 524288)
include hl hc h hlen

/-- The image has the paths of the source. -/
theorem relocates_image : Relocates nexts p.concludeMark (filled p) p'.program := by
  have hfilled : (filled p).length = (ended p).length := List.length_mapIdx
  refine ⟨by rw [hfilled, length_image hl h], fun k x hx => ?_, fun k hm _ => ?_⟩
  · cases hb : p.branches[k]? with
    | none =>
      rw [filled, List.getElem?_mapIdx, hb] at hx
      obtain ⟨w, hw, rfl⟩ := Option.map_eq_some_iff.1 hx
      have hplain := ended_plain hc hw hb
      refine ⟨w, image_plain hl h hw hb, ?_⟩
      change nexts w _ = (nexts w k).map _
      rw [nexts_plain hplain, nexts_plain hplain, place_succ]
      split <;> rfl
    | some tgt =>
      obtain ⟨bt, rs1, rs2, -, -, ⟨w, hw, hd⟩, w', hw', hd'⟩ := image_branch hl h hlen hb
      obtain rfl := Option.some.inj (hx.symm.trans hw)
      refine ⟨w', hw', ?_⟩
      rw [nexts, hd', nexts, hd, nexts_mnemonic bt (entry_label_lt hl h hlen hb), nexts_mnemonic bt (label_lt hl h hlen hb),
        place_succ]
      cases bt <;> rfl
  · obtain ⟨n, -, hle, hinfo⟩ := image_entry hl h hc hm
    refine ⟨_, hinfo, ?_⟩
    rw [nexts, decode_announcement (by omega), place_of_marked hm]
    rfl

omit hc in
/-- Words keep whether they are DDR words, and how many READs they hold. -/
theorem image_word {k : Nat} {w : Inst} (hw : (ended p)[k]? = some w) : ∃ w', p'.program[place p.concludeMark k]? = some w' ∧
    isDdrWord w' = isDdrWord w ∧ (decode_inst w').reads = (decode_inst w).reads := by
  cases hb : p.branches[k]? with
  | none => exact ⟨w, image_plain hl h hw hb, rfl, rfl⟩
  | some tgt =>
    obtain ⟨bt, rs1, rs2, hended, hd, -, w', hw', hd'⟩ := image_branch hl h hlen hb
    obtain rfl := Option.some.inj (hw.symm.trans hended)
    refine ⟨w', hw', ?_, ?_⟩
    · rw [isDdrWord, isDdrWord, hd, hd', isDdr_mnemonic, isDdr_mnemonic]
    · rw [hd, hd', Mnemonic.reads_of_not_isDdr (isDdr_mnemonic ..), Mnemonic.reads_of_not_isDdr (isDdr_mnemonic ..)]

omit hc in
theorem at_image {k : Nat} : At isDdrWord p'.program (place p.concludeMark k) ↔ At isDdrWord (ended p) k := by
  cases hw : (ended p)[k]? with
  | none =>
    refine ⟨fun ha => ?_, fun ha => ?_⟩
    · have hlt := ha.lt
      rw [length_image hl h] at hlt
      have hge : entry p.concludeMark (ended p).length ≤ entry p.concludeMark k :=
        entry_le_iff.2 (List.getElem?_eq_none_iff.1 hw)
      have hplace : entry p.concludeMark k ≤ place p.concludeMark k := entry_le_place k
      omega
    · obtain ⟨w, hw', -⟩ := ha
      rw [hw] at hw'
      cases hw'
  | some w =>
    obtain ⟨w', hw', hd, -⟩ := image_word hl h hlen hw
    rw [at_iff hw', at_iff hw, hd]

/-- A run of DDR words, in the image. -/
theorem image_run {t n : Nat} (hr : Runs isDdrWord (ended p) t (t + n)) :
    Runs isDdrWord p'.program (place p.concludeMark t) (place p.concludeMark t + n) ∧
      readSlots p'.program (place p.concludeMark t) (place p.concludeMark t + n) = readSlots (ended p) t (t + n) := by
  have hplace := place_run hl hc hr
  constructor
  · intro m hm hm'
    obtain ⟨i, rfl⟩ := Nat.exists_eq_add_of_le hm
    rw [← hplace i (by omega)]
    exact (at_image hl h hlen).2 (hr (t + i) (by omega) (by omega))
  · rw [← executed_reads_range', ← executed_reads_range', executed_reads, executed_reads, List.range'_eq_map_range,
      List.range'_eq_map_range, List.map_map, List.map_map]
    congr 1
    apply List.map_congr_left
    intro i hi
    have hi : i < n := List.mem_range.1 hi
    obtain ⟨w, hw, -⟩ := hr (t + i) (by omega) (by omega)
    obtain ⟨w', hw', -, hreads⟩ := image_word hl h hlen hw
    rw [hplace i hi.le] at hw'
    change readSlots p'.program (place p.concludeMark t + i) (place p.concludeMark t + i + 1) = readSlots (ended p) (t + i) (t + i + 1)
    rw [readSlots_word, readSlots_word, hw, hw', Option.map_some, Option.map_some, hreads]

/-! ## Paths into a run -/

/-- A path into the middle of a run passes no INFO. -/
theorem enters_of_announces (ha : Announces p'.program) : EntersAtStarts p := by
  intro b tgt n hb htgt hpos hprev hrun hend
  by_contra hne
  set t := p.labels.getD tgt 0
  have hreloc := relocates_image hl hc h hlen
  obtain ⟨bt, rs1, rs2, hended, hd, ⟨w, hw, hdw⟩, w', hw', hd'⟩ := image_branch hl h hlen htgt
  -- the branch goes to the label's word itself
  have hunmarked : p.concludeMark t = false := by
    have hsucc := unmarked_of_ddr hl hc hprev
    rwa [Nat.sub_add_cancel hpos] at hsucc
  have hgo : Goes nexts p'.program (place p.concludeMark b) (place p.concludeMark t) := by
    rw [place_of_unmarked hunmarked]
    refine hreloc.goes ⟨w, hw, ?_⟩
    have ht : t < 524288 := label_lt hl h hlen htgt
    rw [nexts, hdw, nexts_mnemonic bt ht]
    cases bt <;> simp
  obtain ⟨pcs, hpath⟩ := exists_path (hreloc.reached_place (hreloc.reached hb) (List.getElem?_eq_some_iff.1 hw).1)
  obtain ⟨hruns, hreads⟩ := image_run hl hc h hlen hrun
  have hnot : ¬ At isDdrWord p'.program (place p.concludeMark b) := by
    rw [at_iff hw', isDdrWord, hd', isDdr_mnemonic]
    decide
  have hafter : ¬ At isDdrWord p'.program (place p.concludeMark t + n) := by
    rw [← place_run hl hc hrun n le_rfl, at_image hl h hlen]
    exact hend
  -- from the branch through the rest of the run
  have hwhole : Path nexts p'.program (pcs ++ [place p.concludeMark b] ++
      List.range' (place p.concludeMark t) n ++ [place p.concludeMark t + n]) := by
    have happend := hpath.append (isChain_range' nexts_of_isDdrWord hruns) fun j hj => by
      rw [List.range'_succ] at hj
      obtain rfl := Option.some.inj hj
      exact hgo
    rwa [List.range'_1_concat, ← List.append_assoc] at happend
  obtain ⟨i, k, hi, hinfo, -, hk⟩ := ha _ _ _ hwhole
    (fun i hi => by
      rw [List.mem_range'_1] at hi
      exact hruns i hi.1 hi.2)
    hafter
    (fun i hi => by
      rw [List.getLast?_append, List.getLast?_singleton] at hi
      obtain rfl := Option.some.inj hi
      exact hnot)
    (by
      rw [executed_reads_range', hreads]
      omega)
    (by
      rw [executed_reads_range', hreads]
      omega)
  rw [List.getLast?_append, List.getLast?_singleton] at hi
  obtain rfl := Option.some.inj hi
  obtain rfl := Option.some.inj (hinfo.symm.trans hw')
  rw [decode_announcement hk] at hd'
  cases bt <;> cases hd'

/-- Where a path comes to a run: at its INFO, or in its middle over a branch. -/
theorem goes_into_run {x k n : Nat} (hgo : Goes nexts p'.program x (place p.concludeMark k))
    (hx : ¬ At isDdrWord p'.program x) (hrun : Runs isDdrWord (ended p) k (k + n)) (hend : ¬ At isDdrWord (ended p) (k + n))
    (hpos : 1 ≤ readSlots (ended p) k (k + n)) (hle : readSlots (ended p) k (k + n) ≤ 1024) :
    p'.program[x]? = some (SMC_INFO (BitVec.ofNat 32 (readSlots (ended p) k (k + n)))) ∨
      ∃ b tgt, x = place p.concludeMark b ∧ p.branches[b]? = some tgt ∧ p.labels.getD tgt 0 = k ∧ 0 < k ∧
        At isDdrWord (ended p) (k - 1) := by
  have hreloc := relocates_image hl hc h hlen
  rcases hreloc.goes_cases hgo with ⟨k', hm, rfl, hk⟩ | ⟨i, j, hij, rfl, hj⟩
  · -- from the INFO in front of it
    obtain rfl := place_inj hk
    obtain ⟨n', hr, -, hinfo⟩ := image_entry hl h hc hm
    obtain rfl := hr.runs.length_unique hr.ends hrun hend
    exact .inl hinfo
  · -- from another word, with nothing in front of the run
    obtain ⟨rfl, hunmarked⟩ := eq_of_place_eq_entry hj
    have hfirst : At isDdrWord (ended p) k := by
      apply hrun k le_rfl
      by_contra hn
      rw [readSlots, total, Finset.Ico_eq_empty (by omega), Finset.sum_empty] at hpos
      omega
    have hprev : 0 < k ∧ At isDdrWord (ended p) (k - 1) := by
      by_contra hno
      have hstart : DdrRun (ended p) k n := by
        refine ⟨⟨hfirst, fun j hjk hje hr => hno ⟨by omega, hr (k - 1) (by omega) (by omega)⟩⟩, hrun, hend⟩
      rw [(mark_iff hl hc k).2 ⟨n, hstart, hpos, hle⟩] at hunmarked
      cases hunmarked
    have hne : k ≠ i + 1 := by
      rintro rfl
      exact hx ((at_image hl h hlen).2 hprev.2)
    obtain ⟨w, hw, hk⟩ := hij
    right
    cases hb : p.branches[i]? with
    | none =>
      rw [filled, List.getElem?_mapIdx, hb] at hw
      obtain ⟨w', hw', rfl⟩ := Option.map_eq_some_iff.1 hw
      exfalso
      change k ∈ nexts w' i at hk
      rw [nexts_plain (ended_plain hc hw' hb)] at hk
      split at hk
      · cases hk
      · exact hne (List.mem_singleton.1 hk)
    | some tgt =>
      obtain ⟨bt, rs1, rs2, -, -, ⟨w', hw', hd⟩, -⟩ := image_branch hl h hlen hb
      obtain rfl := Option.some.inj (hw.symm.trans hw')
      rw [nexts, hd, nexts_mnemonic bt (label_lt hl h hlen hb)] at hk
      refine ⟨i, tgt, rfl, hb, ?_, hprev⟩
      cases bt with
      | JUMP => exact (List.mem_singleton.1 hk).symm
      | BL => exact ((List.mem_pair.1 hk).resolve_left hne).symm
      | BEQ => exact ((List.mem_pair.1 hk).resolve_left hne).symm

/-- A run of the image that a path comes to where no DDR word stands before it. -/
theorem run_starts {y : Nat} (hy : At isDdrWord p'.program y) : ∃ k, y = place p.concludeMark k ∧ At isDdrWord (ended p) k := by
  have hlt := hy.lt
  rw [length_image hl h] at hlt
  obtain ⟨k, -, rfl | ⟨hm, rfl⟩⟩ := exists_of_lt_entry hlt
  · exact ⟨k, rfl, (at_image hl h hlen).1 hy⟩
  · -- an INFO is no DDR word
    obtain ⟨n, -, hle, hinfo⟩ := image_entry hl h hc hm
    rw [at_iff hinfo, isDdrWord, decode_announcement (by omega)] at hy
    cases hy

/-- A run of the image is one of the source. -/
theorem run_source {k n : Nat} (hrun : Runs isDdrWord p'.program (place p.concludeMark k) (place p.concludeMark k + n))
    (hend : ¬ At isDdrWord p'.program (place p.concludeMark k + n)) (hk : At isDdrWord (ended p) k) :
    Runs isDdrWord (ended p) k (k + n) ∧ ¬ At isDdrWord (ended p) (k + n) := by
  obtain ⟨i, m, hseg, hik, hki⟩ := exists_segment isDdrWord_of_ddr hk
  obtain ⟨e, he⟩ := Nat.exists_eq_add_of_lt hki
  have hsource : Runs isDdrWord (ended p) k (k + (e + 1)) := fun j hj hj' => hseg.runs j (by omega) (by omega)
  have hlast : ¬ At isDdrWord (ended p) (k + (e + 1)) := by
    have hends := hseg.ends
    rwa [he, Nat.add_assoc] at hends
  have hn : n = e + 1 := by
    apply hrun.length_unique hend (image_run hl hc h hlen hsource).1
    rw [← place_run hl hc hsource (e + 1) le_rfl, at_image hl h hlen]
    exact hlast
  rw [hn]
  exact ⟨hsource, hlast⟩

/-- Where no branch goes into the middle of a run, every path passes the INFOs. -/
theorem announces_of_enters (he : EntersAtStarts p) : Announces p'.program := by
  intro before run after hpath hddr hafter hlast hpos hle
  obtain ⟨y, run, rfl⟩ : ∃ y ys, run = y :: ys := by
    apply List.exists_cons_of_ne_nil
    rintro rfl
    cases hpos
  -- the run is that of the words from `y` on
  have hchain : (y :: (run ++ [after])).IsChain (Goes nexts p'.program) := by
    have hright := hpath.2
    rw [List.append_assoc] at hright
    exact hright.right_of_append
  obtain ⟨hrun, rfl⟩ := run_eq nexts_of_isDdrWord hchain hddr
  set n := run.length + 1
  obtain ⟨k, rfl, hk⟩ := run_starts hl hc h hlen (hddr y (by simp))
  have hruns : Runs isDdrWord p'.program (place p.concludeMark k) (place p.concludeMark k + n) := by
    intro m hm hm'
    apply hddr m
    rw [hrun, List.mem_range'_1]
    exact ⟨hm, hm'⟩
  obtain ⟨hsource, hend⟩ := run_source hl hc h hlen hruns hafter hk
  rw [hrun, executed_reads_range', (image_run hl hc h hlen hsource).2] at hpos hle ⊢
  rcases List.eq_nil_or_concat' before with rfl | ⟨bs, x, rfl⟩
  · -- the program starts with an INFO then
    have hzero : place p.concludeMark k = entry p.concludeMark 0 := by
      rw [entry_zero]
      exact Option.some.inj hpath.1
    obtain ⟨rfl, hunmarked⟩ := eq_of_place_eq_entry hzero
    have hstart : DdrRun (ended p) 0 n := ⟨⟨hk, fun j hj => absurd hj (Nat.not_lt_zero j)⟩, hsource, hend⟩
    rw [(mark_iff hl hc 0).2 ⟨n, hstart, hpos, hle⟩] at hunmarked
    cases hunmarked
  · have hgo : Goes nexts p'.program x (place p.concludeMark k) := by
      have hmiddle := hpath.2
      rw [List.append_assoc, List.append_assoc] at hmiddle
      exact hmiddle.right_of_append.rel
    have hx : ¬ At isDdrWord p'.program x := hlast x (by simp)
    rcases goes_into_run hl hc h hlen hgo hx hsource hend hpos hle with hinfo | ⟨b, tgt, rfl, hb, rfl, hk0, hprev⟩
    · exact ⟨x, _, by simp, hinfo, le_rfl, by omega⟩
    · have hbranch : Path nexts p'.program (bs ++ [place p.concludeMark b]) := by
        rw [List.append_assoc] at hpath
        exact hpath.left (by simp)
      have hreached : Reached nexts (filled p) b :=
        (relocates_image hl hc h hlen).of_reached_place hbranch.reached
      rcases he b tgt n hreached hb hk0 hprev hsource hend with hno | hmany <;> omega

end

/-- Every executed READ is announced if and only if no branch goes into the
middle of a run of DDR words. -/
theorem conclude_announces_iff {p : Program} (hp : Reach Crafting p) :
    ∃ p', p.conclude = some p' ∧ (p'.program.length < 524288 → (Announces p'.program ↔ EntersAtStarts p)) := by
  obtain ⟨hl, hc⟩ := crafted_of_reach hp
  obtain ⟨p', r, h, -, -⟩ := conclude_spec hl
  exact ⟨p', h, fun hlen => ⟨enters_of_announces hl hc h hlen, announces_of_enters hl hc h hlen⟩⟩

theorem reach_crafting {cs : List Call} (h : ∀ c ∈ cs, c.WellMade) : Reach Crafting (build cs) :=
  reach_build cs fun _ c hc => h c hc

/-- A loop that starts at its label. -/
theorem announces_readLoop : ∃ p', (build readLoop).conclude = some p' ∧ Announces p'.program := by
  obtain ⟨p', hp', h⟩ := conclude_announces_iff (reach_crafting readLoop_wellMade)
  have hlen : ((build readLoop).conclude.map fun p => p.program.length) = some 4 := by decide
  rw [hp', Option.map_some, Option.some.injEq] at hlen
  refine ⟨p', hp', (h (by omega)).2 ?_⟩
  intro b tgt n _ hb hpos
  have hbranches : (build readLoop).branches.toList = [(1, "L")] := by decide
  have hmem : (b, tgt) ∈ (build readLoop).branches.toList :=
    ExtTreeMap.mem_toList_iff_getElem?_eq_some.2 hb
  rw [hbranches] at hmem
  cases List.mem_singleton.1 hmem
  exact absurd hpos (by decide)

/-- The loop's label stands between two READs. -/
def midLoop : List Call :=
  [.add_inst4 (SMC_READ 4 0 3 1 0 0) SMC_NOP SMC_NOP SMC_NOP, .add_label "L",
    .add_inst4 (SMC_READ 4 0 3 1 0 0) SMC_NOP SMC_NOP SMC_NOP, .add_branch .BL 1 2 "L"]

theorem midLoop_wellMade : ∀ c ∈ midLoop, c.WellMade := by
  have hread : Call.WellMade (.add_inst4 (SMC_READ 4 0 3 1 0 0) SMC_NOP SMC_NOP SMC_NOP) :=
    ⟨.READ 4 0 3 1 0 0, .NOP 0, .NOP 0, .NOP 0, rfl, rfl, rfl, rfl⟩
  intro c hc
  simp only [midLoop, List.mem_cons, List.not_mem_nil, or_false] at hc
  rcases hc with rfl | rfl | rfl | rfl
  · exact hread
  · trivial
  · exact hread
  · exact ⟨by decide, by decide⟩

/-- The loop's second pass reads without an INFO. -/
theorem midLoop_unannounced :
    ¬ ∀ p p', Reach Crafting p → p.conclude = some p' → p'.program.length < 524288 → Announces p'.program := by
  intro h
  have himage : ((build midLoop).conclude.map Program.program) = some [SMC_INFO 2,
      pack_mininsts (SMC_READ 4 0 3 1 0 0) SMC_NOP SMC_NOP SMC_NOP,
      pack_mininsts (SMC_READ 4 0 3 1 0 0) SMC_NOP SMC_NOP SMC_NOP, SMC_BL 1 2 2, SMC_END] := by decide
  obtain ⟨p', hp', hwords⟩ := Option.map_eq_some_iff.1 himage
  have ha := h _ p' (reach_crafting midLoop_wellMade) hp' (by rw [hwords]; decide)
  rw [hwords] at ha
  -- twice through the label
  obtain ⟨i, n, hi, hinfo, -, hn⟩ := ha [0, 1, 2, 3] [2] 3
    ⟨rfl, by
      simp only [List.cons_append, List.nil_append, List.isChain_cons_cons]
      exact ⟨⟨_, rfl, by decide⟩, ⟨_, rfl, by decide⟩, ⟨_, rfl, by decide⟩, ⟨_, rfl, by decide⟩, ⟨_, rfl, by decide⟩,
        .singleton 3⟩⟩
    (by
      intro i hi
      obtain rfl := List.mem_singleton.1 hi
      exact ⟨_, rfl, by decide⟩)
    (by
      rintro ⟨x, hx, hd⟩
      obtain rfl := Option.some.inj hx
      revert hd
      decide)
    (by
      intro i hi
      obtain rfl := Option.some.inj hi
      rintro ⟨x, hx, hd⟩
      obtain rfl := Option.some.inj hx
      revert hd
      decide)
    (by decide) (by decide)
  obtain rfl := Option.some.inj hi
  have hdecode : decode_inst (SMC_BL 1 2 2) = .INFO := by
    rw [Option.some.inj hinfo]
    exact decode_announcement hn
  revert hdecode
  decide

end Program

end DRAMBender
