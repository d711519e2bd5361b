import Mathlib
import DramBender.Announcements
/-!
# The word behind a load

`add_inst` puts a word of NOPs behind every load. No operation puts anything but an
INFO between the two, and no label and no branch goes there
(`load_hazard_buffered`).
-/

namespace DRAMBender

open Std (ExtTreeMap)
open Insert Paths

/-- Directly behind every load is the word of NOPs. -/
def Buffered (ws : List Inst) : Prop := ∀ (i : Nat) w, ws[i]? = some w → is_load w = true → ws[i + 1]? = some all_nops

/-- The word of NOPs, or an INFO and then the word of NOPs. -/
def BufferAt (ws : List Inst) (j : Nat) : Prop :=
  ws[j]? = some all_nops ∨
    ∃ n, n ≤ 1024 ∧ ws[j]? = some (SMC_INFO (BitVec.ofNat 32 n)) ∧ ws[j + 1]? = some all_nops

/-- A load with operands in range. -/
def LoadAt (ws : List Inst) (i : Nat) : Prop :=
  ∃ rb offset rt, (Asm.LD rb offset rt).InRange ∧ ws[i]? = some (SMC_LD rb offset rt)

/-- Where a branch word goes when it is taken. -/
def Mnemonic.targets : Mnemonic → List Nat
  | .BL bt _ _ => [bt.toNat]
  | .BEQ bt _ _ => [bt.toNat]
  | .JUMP jt => [jt.toNat]
  | _ => []

/-- Loads are buffered, and no branch goes to the word directly behind one. -/
structure HazardFree (ws : List Inst) : Prop where
  buffer : ∀ (i : Nat) w, ws[i]? = some w → is_load w = true → BufferAt ws (i + 1)
  target_le : ∀ (b : Nat) w t, ws[b]? = some w → t ∈ (decode_inst w).targets → t ≤ ws.length
  target : ∀ (b : Nat) w t, ws[b]? = some w → t ∈ (decode_inst w).targets → ∀ (i : Nat) w', t = i + 1 →
    ws[i]? = some w' → is_load w' = false

/-! ## Words behind words -/

theorem buffered_nil : Buffered [] := by
  intro i w hw
  simp at hw

theorem Buffered.append {ws ws' : List Inst} (h : Buffered ws) (h' : Buffered ws') : Buffered (ws ++ ws') := by
  intro i w hw hl
  rcases Nat.lt_or_ge i ws.length with hi | hi
  · rw [List.getElem?_append_left hi] at hw
    have hnext := h i w hw hl
    rwa [List.getElem?_append_left (List.getElem?_eq_some_iff.1 hnext).1]
  · rw [List.getElem?_append_right hi] at hw
    have hsub : i + 1 - ws.length = i - ws.length + 1 := by omega
    rw [List.getElem?_append_right (by omega), hsub]
    exact h' _ w hw hl

/-- The last word is no load. -/
theorem Buffered.last {ws : List Inst} (h : Buffered ws) {i : Nat} {w : Inst} (hi : ws.length = i + 1)
    (hw : ws[i]? = some w) : is_load w = false := by
  by_contra hl
  have hnext := h i w hw (Bool.eq_true_of_not_eq_false hl)
  have hlt := (List.getElem?_eq_some_iff.1 hnext).1
  omega

theorem Buffered.flatMap {α : Type} {l : List α} {f : α → List Inst} (h : ∀ x ∈ l, Buffered (f x)) :
    Buffered (l.flatMap f) := by
  induction l with
  | nil => exact buffered_nil
  | cons x l ih =>
    rw [List.flatMap_cons]
    exact (h x (by simp)).append (ih fun y hy => h y (by simp [hy]))

/-- Words behind a program, whose branches still go to 0. -/
theorem HazardFree.append {ws ws' : List Inst} (h : HazardFree ws) (hb : Buffered ws')
    (ht : ∀ w ∈ ws', ∀ t ∈ (decode_inst w).targets, t = 0) : HazardFree (ws ++ ws') := by
  have hleft : ∀ {j : Nat} {w : Inst}, ws[j]? = some w → (ws ++ ws')[j]? = some w := by
    intro j w hw
    rwa [List.getElem?_append_left (List.getElem?_eq_some_iff.1 hw).1]
  have hword : ∀ {b : Nat} {w : Inst}, (ws ++ ws')[b]? = some w → ws[b]? = some w ∨ w ∈ ws' := by
    intro b w hw
    rcases Nat.lt_or_ge b ws.length with hlt | hge
    · rw [List.getElem?_append_left hlt] at hw
      exact .inl hw
    · rw [List.getElem?_append_right hge] at hw
      exact .inr (List.mem_of_getElem? hw)
  refine ⟨fun i w hw hl => ?_, fun b w t hw htw => ?_, fun b w t hw htw i w' hi hw' => ?_⟩
  · rcases Nat.lt_or_ge i ws.length with hi | hi
    · rw [List.getElem?_append_left hi] at hw
      rcases h.buffer i w hw hl with hnops | ⟨n, hn, hinfo, hnops⟩
      · exact .inl (hleft hnops)
      · exact .inr ⟨n, hn, hleft hinfo, hleft hnops⟩
    · rw [List.getElem?_append_right hi] at hw
      have hsub : i + 1 - ws.length = i - ws.length + 1 := by omega
      refine .inl ?_
      rw [List.getElem?_append_right (by omega), hsub]
      exact hb _ w hw hl
  · rcases hword hw with hw | hw
    · have hle := h.target_le b w t hw htw
      rw [List.length_append]
      omega
    · rw [ht w hw t htw]
      exact Nat.zero_le _
  · rcases hword hw with hw | hw
    · have hle := h.target_le b w t hw htw
      rw [List.getElem?_append_left (by omega)] at hw'
      exact h.target b w t hw htw i w' hi hw'
    · rw [ht w hw t htw] at hi
      omega

theorem hazardFree_nil : HazardFree [] := by
  refine ⟨fun i w hw => ?_, fun b w t hw => ?_, fun b w t hw => ?_⟩
  · simp at hw
  · simp at hw
  · simp at hw

namespace Program

/-! ## The words of the calls -/

theorem buffered_emitted (i : Inst) : Buffered (emitted i) := by
  have hnops : is_load all_nops = false := by decide
  intro j w hw hl
  unfold emitted at hw ⊢
  split_ifs at hw ⊢ with hi
  · match j with
    | 0 => rfl
    -- the NOPs are no load themselves
    | 1 =>
      obtain rfl : all_nops = w := Option.some.inj hw
      rw [hnops] at hl
      cases hl
    | j + 2 => simp at hw
  · match j with
    | 0 =>
      obtain rfl : i = w := Option.some.inj hw
      exact absurd hl hi
    | j + 1 => simp at hw

theorem buffered_packed (ms : List Mininst) : Buffered (packed ms) := by
  induction ms using packed.induct with
  | case1 m0 m1 m2 m3 rest ih => exact (buffered_emitted _).append ih
  | case2 => exact buffered_nil
  | case3 m0 => exact buffered_emitted _
  | case4 m0 m1 => exact buffered_emitted _
  | case5 m0 m1 m2 => exact buffered_emitted _

theorem is_load_pack (m1 m2 m3 : Mininst) {m4 : Mininst} (h : m4.getLsbD 15 = true) :
    is_load (pack_mininsts m1 m2 m3 m4) = false := by
  rw [← decode_isLoad, decode_pack _ _ _ _ h]
  rfl

/-- Words of the encoders, and branches without a target. -/
def Made (w : Inst) : Prop := Encoded w ∨ IsHolder w

theorem targets_made {w : Inst} (h : Made w) : ∀ t ∈ (decode_inst w).targets, t = 0 := by
  intro t ht
  rcases h with ⟨a, ha, rfl⟩ | ⟨bt, rs1, rs2, h1, h2, rfl⟩
  · have hplain := encode_not_branch a ha
    cases hd : decode_inst a.encode <;> simp [hd, Mnemonic.targets, Mnemonic.isBranch] at ht hplain
  · rw [decode_place_holder h1 h2] at ht
    cases bt <;> simpa [BR_TYPE.mnemonic, Mnemonic.targets] using ht

theorem made_call_words {ms : List Mininst} (hms : ∀ m ∈ ms, ∃ i : Mini, m = i.encode) {c : Call} (hc : c.WellMade) :
    ∀ w ∈ call_words ms c, Made w := by
  intro w hw
  cases c with
  | add_inst i => exact .inl (encoded_emitted hc w hw)
  | add_inst4 m1 m2 m3 m4 =>
    obtain ⟨i1, i2, i3, i4, h1, h2, h3, h4⟩ := hc
    rw [List.mem_singleton.1 hw]
    exact .inl (encoded_pack ⟨i1, h1⟩ ⟨i2, h2⟩ ⟨i3, h3⟩ ⟨i4, h4⟩)
  | add_branch bt rs1 rs2 tgt =>
    obtain ⟨h1, h2⟩ := hc
    change w ∈ emitted (place_holder bt rs1 rs2) at hw
    rw [emitted_place_holder h1 h2] at hw
    rw [List.mem_singleton.1 hw]
    exact .inr ⟨bt, rs1, rs2, h1, h2, rfl⟩
  | pack_minprogram => exact .inl (encoded_packed hms w hw)
  | add_label name => cases hw
  | add_mininst mi wait_after => cases hw
  | add_wait wait_cycles => cases hw

theorem buffered_call_words (ms : List Mininst) {c : Call} (hc : c.WellMade) : Buffered (call_words ms c) := by
  cases c with
  | add_inst i => exact buffered_emitted i
  | add_inst4 m1 m2 m3 m4 =>
    obtain ⟨i1, i2, i3, i4, rfl, rfl, rfl, rfl⟩ := hc
    have hemitted := buffered_emitted (pack_mininsts i1.encode i2.encode i3.encode i4.encode)
    unfold emitted at hemitted
    rwa [is_load_pack _ _ _ i4.encode_msb] at hemitted
  | add_branch bt rs1 rs2 tgt => exact buffered_emitted _
  | pack_minprogram => exact buffered_packed ms
  | add_label name => exact buffered_nil
  | add_mininst mi wait_after => exact buffered_nil
  | add_wait wait_cycles => exact buffered_nil

/-! ## Labels -/

/-- Loads are buffered, and no label is between a load and its NOPs. -/
structure LoadSafe (p : Program) : Prop where
  buffered : Buffered p.program
  label : ∀ (name : String) t, p.labels[name]? = some t → ∀ (i : Nat) w, t = i + 1 → p.program[i]? = some w →
    is_load w = false

theorem loadSafe_new : LoadSafe {} := by
  refine ⟨buffered_nil, fun name t ht => ?_⟩
  rw [ExtTreeMap.getElem?_empty] at ht
  cases ht

/-- More words behind the labels. -/
theorem LoadSafe.extend {p q : Program} (h : LoadSafe p) (hr : RepInv p) {ws : List Inst} (hws : Buffered ws)
    (hprogram : q.program = p.program ++ ws)
    (hlabel : ∀ (name : String) t, q.labels[name]? = some t → p.labels[name]? = some t ∨ t = p.program.length) :
    LoadSafe q := by
  refine ⟨by rw [hprogram]; exact h.buffered.append hws, fun name t ht i w hi hw => ?_⟩
  rw [hprogram] at hw
  rcases hlabel name t ht with ht | rfl
  · -- an old label
    have hle := hr.label_le name t ht
    rw [List.getElem?_append_left (by omega)] at hw
    exact h.label name t ht i w hi hw
  · -- a label at the end, where no load stands last
    rw [List.getElem?_append_left (by omega)] at hw
    exact h.buffered.last hi hw

theorem LoadSafe.call {p : Program} (h : LoadSafe p) (hr : RepInv p) {c : Call} (hc : c.WellMade) : LoadSafe (p.call c) := by
  apply h.extend hr (buffered_call_words p.minprogram hc) (call_program p c)
  intro name t ht
  by_cases he : c = .add_label name
  · subst he
    rw [Program.call, add_label, ExtTreeMap.getElem?_insert_self] at ht
    rw [← hr.spc_eq]
    exact .inr (Option.some.inj ht).symm
  · rw [call_labels p c he] at ht
    exact .inl ht

theorem LoadSafe.add_below {self p : Program} (hs : LoadSafe self) (hr : RepInv self) (hp : LoadSafe p) :
    LoadSafe (self.add_below p) := by
  refine ⟨hs.buffered.append hp.buffered, fun name t ht i w hi hw => ?_⟩
  have hspc := hr.spc_eq
  have hprogram : (self.add_below p).program = self.program ++ p.program := rfl
  rw [hprogram] at hw
  rcases add_below_label ht with ⟨t0, ht0, rfl⟩ | ⟨ht, -⟩
  · cases t0 with
    -- the first label of `p` comes to stand behind the last word of `self`
    | zero =>
      rw [List.getElem?_append_left (by omega)] at hw
      exact hs.buffered.last (by omega) hw
    | succ t0 =>
      rw [List.getElem?_append_right (by omega)] at hw
      exact hp.label name (t0 + 1) ht0 (i - self.program.length) w (by omega) hw
  · have hle := hr.label_le name t ht
    rw [List.getElem?_append_left (by omega)] at hw
    exact hs.label name t ht i w hi hw

theorem loadSafe_of_reach {p : Program} (h : Reach Crafting p) : Linkable p ∧ Crafted p ∧ LoadSafe p := by
  induction h with
  | new => exact ⟨(crafted_of_reach .new).1, crafted_new, loadSafe_new⟩
  | @step p q op h hg hq ih =>
    obtain ⟨hl, hc, hs⟩ := ih
    obtain ⟨hl', hc'⟩ := crafted_of_reach (.step op h hg hq)
    refine ⟨hl', hc', ?_⟩
    cases op with
    | call c =>
      cases hq
      exact hs.call hl.toRepInv hg
    | dump_registers =>
      rw [dump_registers_some hq]
      exact hs.extend hl.toRepInv (.flatMap fun i _ => buffered_emitted i) rfl fun name t ht => .inl ht
    | conclude => exact hg.elim
    | get_inst_array => exact hg.elim
  | add_below hself hp ihs ihp =>
    obtain ⟨hl, hc⟩ := crafted_of_reach (.add_below hself hp)
    exact ⟨hl, hc, ihs.2.2.add_below ihs.1.toRepInv ihp.2.2⟩

/-- Before `conclude` every branch still goes to 0. -/
theorem made_of_reach {p : Program} (h : Reach Crafting p) : ∀ w ∈ p.program, Made w := by
  obtain ⟨hl, hc⟩ := crafted_of_reach h
  intro w hw
  obtain ⟨i, hi⟩ := List.mem_iff_getElem?.1 hw
  cases hb : p.branches[i]? with
  | none => exact .inl (hc.word i w hi hb)
  | some tgt =>
    obtain ⟨w', hw', hholder⟩ := hl.holder i tgt hb
    obtain rfl := Option.some.inj (hi.symm.trans hw')
    exact .inr hholder

theorem hazardFree_append_crafted {ws : List Inst} {p : Program} (h : HazardFree ws) (hp : Reach Crafting p) :
    HazardFree (ws ++ p.program) := by
  obtain ⟨-, -, hs⟩ := loadSafe_of_reach hp
  exact h.append hs.buffered fun w hw => targets_made (made_of_reach hp w hw)

/-! ## The image -/

theorem buffered_ended {p : Program} (h : Buffered p.program) : Buffered (ended p) := by
  have hend : Buffered [SMC_END] := by
    have hemitted := buffered_emitted SMC_END
    rwa [emitted_END] at hemitted
  exact h.append hend

section
variable {p p' : Program} (hl : Linkable p) (hc : Crafted p) (h : p.conclude = some p') (hlen : p'.program.length < 524288)
include hl hc h hlen

/-- The words of the image are the words of the source and the INFO words. -/
theorem image_cases {j : Nat} {w : Inst} (hw : p'.program[j]? = some w) :
    (∃ k w0, j = place p.concludeMark k ∧ (ended p)[k]? = some w0 ∧ p.branches[k]? = none ∧ w = w0) ∨
      (∃ k tgt bt rs1 rs2, j = place p.concludeMark k ∧ p.branches[k]? = some tgt ∧
        decode_inst w = BR_TYPE.mnemonic bt (entry p.concludeMark (p.labels.getD tgt 0)) rs1 rs2) ∨
      decode_inst w = .INFO := by
  have hj : j < entry p.concludeMark (ended p).length := by
    rw [← length_image hl h]
    exact (List.getElem?_eq_some_iff.1 hw).1
  rcases exists_of_lt_entry hj with ⟨k, hk, rfl | ⟨hm, rfl⟩⟩
  · have hended : (ended p)[k]? = some (ended p)[k] := List.getElem?_eq_getElem hk
    cases hb : p.branches[k]? with
    | none =>
      rw [image_plain hl h hended hb] at hw
      exact .inl ⟨k, _, rfl, hended, hb, (Option.some.inj hw).symm⟩
    | some tgt =>
      obtain ⟨bt, rs1, rs2, -, -, -, w', hw', hd⟩ := image_branch hl h hlen hb
      obtain rfl := Option.some.inj (hw.symm.trans hw')
      exact .inr (.inl ⟨k, tgt, bt, _, _, rfl, hb, hd⟩)
  · obtain ⟨n, -, hle, hinfo⟩ := image_entry hl h hc hm
    obtain rfl := Option.some.inj (hw.symm.trans hinfo)
    exact .inr (.inr (decode_announcement (by omega)))

/-- The loads of the image are the loads of the source. -/
theorem image_load {j : Nat} {w : Inst} (hw : p'.program[j]? = some w) (hload : is_load w = true) :
    ∃ k, j = place p.concludeMark k ∧ (ended p)[k]? = some w := by
  rw [← decode_isLoad] at hload
  rcases image_cases hl hc h hlen hw with ⟨k, w0, rfl, hended, -, rfl⟩ | ⟨k, tgt, bt, rs1, rs2, -, -, hd⟩ | hd
  · exact ⟨k, rfl, hended⟩
  · rw [hd] at hload
    cases bt <;> cases hload
  · rw [hd] at hload
    cases hload

theorem image_buffer (hs : LoadSafe p) {j : Nat} {w : Inst} (hw : p'.program[j]? = some w) (hload : is_load w = true) :
    BufferAt p'.program (j + 1) := by
  obtain ⟨k, rfl, hended⟩ := image_load hl hc h hlen hw hload
  have hnops := buffered_ended hs.buffered k w hended hload
  have hb : p.branches[k + 1]? = none := by
    by_contra hne
    -- a branch word is no word of NOPs
    obtain ⟨tgt, hb⟩ := Option.ne_none_iff_exists'.1 hne
    obtain ⟨bt, rs1, rs2, hholder, hd, -⟩ := image_branch hl h hlen hb
    rw [hnops] at hholder
    have hddr : (decode_inst all_nops).isDdr = true := by decide
    rw [Option.some.inj hholder, hd, isDdr_mnemonic] at hddr
    cases hddr
  have himage := image_plain hl h hnops hb
  rw [place_succ]
  cases hm : p.concludeMark (k + 1) with
  | false =>
    rw [place_of_unmarked hm] at himage
    exact .inl himage
  | true =>
    -- an INFO for the run of DDR words that the NOPs begin
    obtain ⟨n, -, hle, hinfo⟩ := image_entry hl h hc hm
    rw [place_of_marked hm] at himage
    exact .inr ⟨_, hle, hinfo, himage⟩

theorem image_target (hs : LoadSafe p) {b t : Nat} {w : Inst} (hw : p'.program[b]? = some w)
    (ht : t ∈ (decode_inst w).targets) : t ≤ p'.program.length ∧
      ∀ i w', t = i + 1 → p'.program[i]? = some w' → is_load w' = false := by
  rcases image_cases hl hc h hlen hw with ⟨k, w0, -, hended, hb, rfl⟩ | ⟨k, tgt, bt, rs1, rs2, -, hb, hd⟩ | hd
  · have hplain := ended_plain hc hended hb
    cases hd : decode_inst w <;> simp [hd, Mnemonic.targets, Mnemonic.isBranch] at ht hplain
  · have hlt := entry_label_lt hl h hlen hb
    have htarget : t = entry p.concludeMark (p.labels.getD tgt 0) := by
      rw [hd] at ht
      cases bt with
      | BL =>
        rw [List.mem_singleton.1 ht, BitVec.toNat_ofNat]
        exact Nat.mod_eq_of_lt hlt
      | BEQ =>
        rw [List.mem_singleton.1 ht, BitVec.toNat_ofNat]
        exact Nat.mod_eq_of_lt hlt
      | JUMP =>
        rw [List.mem_singleton.1 ht, BitVec.toNat_ofNat]
        exact Nat.mod_eq_of_lt (by omega)
    refine ⟨?_, fun i w' hi hw' => ?_⟩
    · rw [htarget, length_image hl h]
      apply entry_le_iff.2
      have hle := hl.toRepInv.label_getD_le tgt
      rw [ended, List.length_append]
      omega
    · by_contra hload
      obtain ⟨j, rfl, hended⟩ := image_load hl hc h hlen hw' (Bool.eq_true_of_not_eq_false hload)
      -- the target's label stands directly behind the load
      rw [place_succ] at hi
      have hlabel := entry_inj (htarget.symm.trans hi)
      have hsome : p.labels[tgt]? = some (j + 1) := by
        cases hn : p.labels[tgt]? with
        | none =>
          rw [ExtTreeMap.getD_eq_getD_getElem?, hn] at hlabel
          cases hlabel
        | some t0 => rw [← hlabel, getD_of_getElem? hn]
      have hle := hl.toRepInv.label_le tgt (j + 1) hsome
      rw [ended, List.getElem?_append_left (by omega)] at hended
      exact hload (hs.label tgt (j + 1) hsome j w' rfl hended)
  · rw [hd] at ht
    cases ht

theorem hazardFree_image (hs : LoadSafe p) : HazardFree p'.program := by
  refine ⟨fun i w hw hload => image_buffer hl hc h hlen hs hw hload, fun b w t hw ht => ?_, fun b w t hw ht => ?_⟩
  · exact (image_target hl hc h hlen hs hw ht).1
  · exact (image_target hl hc h hlen hs hw ht).2

end

/-! ## Programs concluded at most once -/

/-- The programs reached by the public operations with one `conclude`. What
`add_below` appends is not concluded. -/
inductive ReachOnce : Program → Prop
  | crafted {p : Program} (h : Reach Crafting p) : ReachOnce p
  | conclude {p q : Program} (h : Reach Crafting p) (hq : p.conclude = some q) (hlen : q.program.length < 524288) :
    ReachOnce q
  | call {p : Program} (h : ReachOnce p) (c : Call) (hc : c.WellMade) : ReachOnce (p.call c)
  | add_below {self p : Program} (hs : ReachOnce self) (hp : Reach Crafting p) : ReachOnce (self.add_below p)

theorem conclude_minprogram {p q : Program} (h : p.conclude = some q) (hl : Linkable p) : q.minprogram = p.minprogram := by
  obtain ⟨q', r, hq, rfl, hr⟩ := conclude_spec hl
  obtain rfl := Option.some.inj (hq.symm.trans h)
  change r.minprogram = p.minprogram
  rw [hr.frame]
  rfl

/-- One step at a time. -/
theorem hazardFree_of_reachOnce {p : Program} (h : ReachOnce p) :
    HazardFree p.program ∧ ∀ m ∈ p.minprogram, ∃ i : Mini, m = i.encode := by
  induction h with
  | crafted h => exact ⟨hazardFree_append_crafted hazardFree_nil h, (crafted_of_reach h).2.queue⟩
  | conclude h hq hlen =>
    obtain ⟨hl, hc, hs⟩ := loadSafe_of_reach h
    refine ⟨hazardFree_image hl hc hq hlen hs, ?_⟩
    rw [conclude_minprogram hq hl]
    exact hc.queue
  | @call p h c hc ih =>
    obtain ⟨hf, hms⟩ := ih
    rw [call_program, call_minprogram]
    refine ⟨hf.append (buffered_call_words _ hc) fun w hw => targets_made (made_call_words hms hc w hw), ?_⟩
    apply encoded_queue hms
    intro mi wait_after e
    subst e
    exact hc
  | add_below hs hp ih => exact ⟨hazardFree_append_crafted ih.1 hp, ih.2⟩

theorem is_load_SMC_LD {rb offset rt : CInt} (h : (Asm.LD rb offset rt).InRange) : is_load (SMC_LD rb offset rt) = true := by
  obtain ⟨hb, ho, ht⟩ := h
  rw [← decode_isLoad, decode_SMC_LD hb ho ht]
  rfl

/-- In every program every load is followed by its NOPs, with at most an INFO
between; no branch goes to the word behind a load; and every path executes the INFO
or the NOPs next. -/
theorem load_hazard_buffered {p : Program} (h : ReachOnce p) :
    (∀ i, LoadAt p.program i → BufferAt p.program (i + 1)) ∧
      (∀ (b : Nat) w t, p.program[b]? = some w → t ∈ (decode_inst w).targets → ∀ i, t = i + 1 → ¬ LoadAt p.program i) ∧
      ∀ i j, LoadAt p.program i → Goes nexts p.program i j → p.program[j]? = some all_nops ∨
        ∃ n, n ≤ 1024 ∧ p.program[j]? = some (SMC_INFO (BitVec.ofNat 32 n)) ∧
          ∀ k, Goes nexts p.program j k → p.program[k]? = some all_nops := by
  obtain ⟨⟨hbuffer, -, htarget⟩, -⟩ := hazardFree_of_reachOnce h
  have hload : ∀ i, LoadAt p.program i → BufferAt p.program (i + 1) := by
    rintro i ⟨rb, offset, rt, hr, hw⟩
    exact hbuffer i _ hw (is_load_SMC_LD hr)
  refine ⟨hload, ?_, ?_⟩
  · rintro b w t hw ht i hi ⟨rb, offset, rt, hr, hi'⟩
    have hno := htarget b w t hw ht i _ hi hi'
    rw [is_load_SMC_LD hr] at hno
    cases hno
  · intro i j hi hgo
    have hj : j = i + 1 := by
      obtain ⟨rb, offset, rt, ⟨hb, ho, ht⟩, hw⟩ := hi
      obtain ⟨w, hw', hnext⟩ := hgo
      obtain rfl := Option.some.inj (hw.symm.trans hw')
      rw [nexts, decode_SMC_LD hb ho ht] at hnext
      exact List.mem_singleton.1 hnext
    subst hj
    rcases hload i hi with hnops | ⟨n, hn, hinfo, hnops⟩
    · exact .inl hnops
    · refine .inr ⟨n, hn, hinfo, fun k hk => ?_⟩
      obtain ⟨w, hw, hnext⟩ := hk
      obtain rfl := Option.some.inj (hinfo.symm.trans hw)
      rw [nexts, decode_announcement (by omega)] at hnext
      rw [List.mem_singleton.1 hnext]
      exact hnops

/-- A load, and a READ that uses what it loads. -/
def load_read : List Call :=
  [.add_inst (SMC_LD 1 0 2), .add_inst4 (SMC_READ 0 0 2 0 0 0) SMC_NOP SMC_NOP SMC_NOP]

theorem load_hazard_load_read : ∃ q, (build load_read).conclude = some q ∧ BufferAt q.program 1 := by
  have hmade : ∀ c ∈ load_read, c.WellMade := by
    simp only [load_read, List.mem_cons, List.not_mem_nil, or_false]
    rintro c (rfl | rfl)
    · exact ⟨.LD 1 0 2, rfl, rfl⟩
    · exact ⟨.READ 0 0 2 0 0 0, .NOP 0, .NOP 0, .NOP 0, rfl, rfl, rfl, rfl⟩
  have hc : (build load_read).conclude.map (fun q => (decide (q.program.length < 524288), q.program[0]?)) =
      some (true, some (SMC_LD 1 0 2)) := by decide
  obtain ⟨q, hq, he⟩ := Option.map_eq_some_iff.1 hc
  rw [Prod.mk.injEq] at he
  have hreach : ReachOnce q :=
    .conclude (reach_build load_read fun _ c hc => hmade c hc) hq (of_decide_eq_true he.1)
  exact ⟨q, hq, (load_hazard_buffered hreach).1 0 ⟨1, 0, 2, ⟨by decide, by decide, by decide⟩, he.2⟩⟩

end Program

end DRAMBender
