import Mathlib
import DramBender.Packing
/-!
# The commands of a program

A command reaches the program with the word it is added in, or with the next
`pack_minprogram` (`flushed`). `conclude` does not pack: what is still queued is not
in the program (`conclude_in_flush_order`).
-/

namespace DRAMBender

open Std (ExtTreeMap)
open Insert

/-- Not a NOP. -/
def is_command (m : Mininst) : Bool := m >>> 12 != 15

/-- The commands in the slots of a DDR word. -/
def commands (w : Inst) : List Mininst := if is_ddr w then (slots w).filter is_command else []

theorem commands_of_not_ddr {w : Inst} (h : is_ddr w = false) : commands w = [] := by
  unfold commands
  rw [h]
  rfl

theorem commands_all_nops : commands all_nops = [] := by decide

theorem is_ddr_of_is_branch {w : Inst} (h : is_branch w = true) : is_ddr w = false := by
  unfold is_branch at h
  unfold is_ddr
  have hop : w >>> 59 = 8 := eq_of_beq h
  have hshift : w >>> 63 = w >>> 59 >>> 4 := by rw [← BitVec.shiftRight_add]
  rw [hshift, hop]
  rfl

theorem commands_pack (m1 m2 m3 : Mininst) {m4 : Mininst} (h : m4.getLsbD 15 = true) :
    commands (pack_mininsts m1 m2 m3 m4) = [m1, m2, m3, m4].filter is_command := by
  unfold commands
  rw [is_ddr_pack, h, slots_pack]
  rfl

/-- Mini instructions come from the encoders. -/
def Call.FromEncoders : Call → Prop
  | .add_inst4 m1 m2 m3 m4 => ∃ i1 i2 i3 i4 : Mini, m1 = i1.encode ∧ m2 = i2.encode ∧ m3 = i3.encode ∧ m4 = i4.encode
  | .add_mininst mi _ => ∃ m : Mini, mi = m.encode
  | _ => True

namespace Program

/-- The commands a call supplies. -/
def supplied : Call → List Mininst
  | .add_inst i => commands i
  | .add_inst4 m1 m2 m3 m4 => [m1, m2, m3, m4].filter is_command
  | .add_mininst mi _ => [mi].filter is_command
  | _ => []

/-- The commands in the order in which they get into the program, where `ms` are
waiting in the queue. What waits at the end does not get in. -/
def flushed (ms : List Mininst) : List Call → List Mininst
  | [] => []
  | .add_mininst mi wait_after :: cs => flushed (ms ++ supplied (.add_mininst mi wait_after)) cs
  | .pack_minprogram :: cs => ms ++ flushed [] cs
  | c :: cs => supplied c ++ flushed ms cs

/-- A call that puts commands into the program at once. -/
def Direct (c : Call) : Prop := supplied c ≠ [] ∧ ∀ mi wait_after, c ≠ .add_mininst mi wait_after

/-- Behind every queued command comes a `pack_minprogram`, and before any command
that is not queued. -/
def PackedInTime (cs : List Call) : Prop :=
  ∀ pre mi wait_after post, cs = pre ++ .add_mininst mi wait_after :: post → is_command mi = true →
    ∃ mid post', post = mid ++ .pack_minprogram :: post' ∧ ∀ c ∈ mid, ¬ Direct c

/-! ## The order of the flushes -/

theorem flushed_direct {ms : List Mininst} {c : Call} {cs : List Call} (hpack : c ≠ .pack_minprogram)
    (hqueue : ∀ mi wait_after, c ≠ .add_mininst mi wait_after) :
    flushed ms (c :: cs) = supplied c ++ flushed ms cs := by
  cases c with
  | pack_minprogram => exact absurd rfl hpack
  | add_mininst mi wait_after => exact absurd rfl (hqueue mi wait_after)
  | _ => rfl

theorem PackedInTime.tail {c : Call} {cs : List Call} (h : PackedInTime (c :: cs)) : PackedInTime cs := by
  intro pre mi wait_after post hsplit
  exact h (c :: pre) mi wait_after post (by rw [hsplit]; rfl)

/-- What waits for a later pack still waits behind a call that does not pack. -/
theorem waits_tail {c : Call} {cs : List Call} (hc : c ≠ .pack_minprogram)
    (h : ∃ mid post, c :: cs = mid ++ .pack_minprogram :: post ∧ ∀ d ∈ mid, ¬ Direct d) :
    (∃ mid post, cs = mid ++ .pack_minprogram :: post ∧ ∀ d ∈ mid, ¬ Direct d) ∧ ¬ Direct c := by
  obtain ⟨mid, post, hsplit, hmid⟩ := h
  cases mid with
  | nil =>
    rw [List.nil_append, List.cons.injEq] at hsplit
    exact absurd hsplit.1 hc
  | cons d mid =>
    rw [List.cons_append, List.cons.injEq] at hsplit
    obtain ⟨rfl, rfl⟩ := hsplit
    exact ⟨⟨mid, post, rfl, fun e he => hmid e (by simp [he])⟩, hmid c (by simp)⟩

theorem flushed_in_time {ms : List Mininst} {cs : List Call}
    (hms : ms = [] ∨ ∃ mid post, cs = mid ++ .pack_minprogram :: post ∧ ∀ c ∈ mid, ¬ Direct c) (h : PackedInTime cs) :
    flushed ms cs = ms ++ cs.flatMap supplied := by
  induction cs generalizing ms with
  | nil =>
    rcases hms with rfl | ⟨mid, post, hsplit, -⟩
    · rfl
    · simp at hsplit
  | cons c cs ih =>
    have hnext : c ≠ .pack_minprogram → ms = [] ∨
        (∃ mid post, cs = mid ++ .pack_minprogram :: post ∧ ∀ d ∈ mid, ¬ Direct d) ∧ ¬ Direct c :=
      fun hc => hms.imp_right (waits_tail hc)
    -- a call that queues nothing and does not pack
    have hdirect : c ≠ .pack_minprogram → (∀ mi wait_after, c ≠ .add_mininst mi wait_after) →
        flushed ms (c :: cs) = ms ++ (c :: cs).flatMap supplied := by
      intro hpack hqueue
      rw [flushed_direct hpack hqueue]
      rcases hnext hpack with rfl | ⟨hms, hnot⟩
      · rw [ih (.inl rfl) h.tail]
        rfl
      · have hnone : supplied c = [] := by
          by_contra hne
          exact hnot ⟨hne, hqueue⟩
        rw [ih (.inr hms) h.tail, List.flatMap_cons, hnone]
        rfl
    cases c with
    | pack_minprogram =>
      rw [flushed, ih (.inl rfl) h.tail]
      rfl
    | add_mininst mi wait_after =>
      have hms' : ms ++ supplied (.add_mininst mi wait_after) = [] ∨
          ∃ mid post, cs = mid ++ .pack_minprogram :: post ∧ ∀ c ∈ mid, ¬ Direct c := by
        by_cases hmi : is_command mi = true
        · exact .inr (h [] mi wait_after cs rfl hmi)
        · have hnone : supplied (.add_mininst mi wait_after) = [] := by simp [supplied, hmi]
          rw [hnone, List.append_nil]
          exact (hnext (by simp)).imp_right And.left
      rw [flushed, ih hms' h.tail, List.flatMap_cons, List.append_assoc]
    | add_inst i => exact hdirect (by simp) (by simp)
    | add_inst4 m1 m2 m3 m4 => exact hdirect (by simp) (by simp)
    | add_label name => exact hdirect (by simp) (by simp)
    | add_branch bt rs1 rs2 tgt => exact hdirect (by simp) (by simp)
    | add_wait wait_cycles => exact hdirect (by simp) (by simp)

/-! ## The words of the calls -/

theorem commands_emitted (i : Inst) : (emitted i).flatMap commands = commands i := by
  unfold emitted
  split_ifs
  · rw [List.flatMap_cons, List.flatMap_singleton, commands_all_nops, List.append_nil]
  · exact List.flatMap_singleton _ _

theorem is_ddr_emitted_pack (m1 m2 m3 : Mininst) {m4 : Mininst} (h : m4.getLsbD 15 = true) :
    ∀ w ∈ emitted (pack_mininsts m1 m2 m3 m4), is_ddr w = true := by
  intro w hw
  rw [emitted_pack m1 m2 m3 h] at hw
  rw [List.mem_singleton.1 hw, is_ddr_pack, h]

theorem is_ddr_packed {ms : List Mininst} (h : ∀ m ∈ ms, m.getLsbD 15 = true) : ∀ w ∈ packed ms, is_ddr w = true := by
  induction ms using packed.induct with
  | case1 m0 m1 m2 m3 rest ih =>
    intro w hw
    rw [packed] at hw
    rcases List.mem_append.1 hw with hw | hw
    · exact is_ddr_emitted_pack m0 m1 m2 (h m3 (by simp)) w hw
    · exact ih (fun m hm => h m (by simp [hm])) w hw
  | case2 => simp [packed]
  | case3 m0 => exact is_ddr_emitted_pack m0 _ _ SMC_NOP_msb
  | case4 m0 m1 => exact is_ddr_emitted_pack m0 m1 _ SMC_NOP_msb
  | case5 m0 m1 m2 => exact is_ddr_emitted_pack m0 m1 m2 SMC_NOP_msb

theorem filter_nops (n : Nat) : (List.replicate n SMC_NOP).filter is_command = [] := by
  rw [List.filter_eq_nil_iff]
  intro m hm
  rw [List.eq_of_mem_replicate hm]
  decide

theorem commands_packed {ms : List Mininst} (h : ∀ m ∈ ms, m.getLsbD 15 = true) :
    (packed ms).flatMap commands = ms.filter is_command := by
  have hslots : (packed ms).flatMap commands = ((packed ms).flatMap slots).filter is_command := by
    rw [List.filter_flatMap]
    apply List.flatMap_congr
    intro w hw
    unfold commands
    rw [is_ddr_packed h w hw]
    rfl
  rw [hslots, slots_packed ms h, List.filter_append, padding, filter_nops, List.append_nil]

/-- A call that queues nothing and does not pack leaves the waiting commands. -/
theorem filter_call_queue (ms : List Mininst) {c : Call} (hpack : c ≠ .pack_minprogram)
    (hqueue : ∀ mi wait_after, c ≠ .add_mininst mi wait_after) :
    (call_queue ms c).filter is_command = ms.filter is_command := by
  cases c with
  | add_wait wait_cycles => rw [call_queue, List.filter_append, filter_nops, List.append_nil]
  | add_mininst mi wait_after => exact absurd rfl (hqueue mi wait_after)
  | pack_minprogram => exact absurd rfl hpack
  | _ => rfl

/-- The commands in the words of the calls are in the order of the flushes. -/
theorem commands_words {ms : List Mininst} {cs : List Call} (hcs : ∀ c ∈ cs, c.FromEncoders)
    (hbranch : ∀ bt rs1 rs2 tgt, .add_branch bt rs1 rs2 tgt ∈ cs → is_branch (place_holder bt rs1 rs2) = true)
    (hms : ∀ m ∈ ms, ∃ i : Mini, m = i.encode) :
    (words ms cs).flatMap commands = flushed (ms.filter is_command) cs := by
  induction cs generalizing ms with
  | nil => rfl
  | cons c cs ih =>
    have hqueue : ∀ m ∈ call_queue ms c, ∃ i : Mini, m = i.encode := by
      apply encoded_queue hms
      intro mi wait_after e
      subst e
      exact hcs _ List.mem_cons_self
    have hrest := ih (fun d hd => hcs d (by simp [hd])) (fun bt rs1 rs2 tgt hb => hbranch bt rs1 rs2 tgt (by simp [hb]))
      hqueue
    have hdirect : c ≠ .pack_minprogram → (∀ mi wait_after, c ≠ .add_mininst mi wait_after) →
        (call_words ms c).flatMap commands = supplied c →
        (words ms (c :: cs)).flatMap commands = flushed (ms.filter is_command) (c :: cs) := by
      intro hpack hno hwords
      rw [words, List.flatMap_append, hrest, filter_call_queue ms hpack hno, flushed_direct hpack hno, hwords]
    cases c with
    | add_inst i => exact hdirect (by simp) (by simp) (commands_emitted i)
    | add_inst4 m1 m2 m3 m4 =>
      obtain ⟨i1, i2, i3, i4, rfl, rfl, rfl, rfl⟩ := hcs _ List.mem_cons_self
      apply hdirect (by simp) (by simp)
      exact (List.flatMap_singleton _ _).trans (commands_pack _ _ _ i4.encode_msb)
    | add_label name => exact hdirect (by simp) (by simp) rfl
    | add_branch bt rs1 rs2 tgt =>
      have hholder := is_ddr_of_is_branch (hbranch bt rs1 rs2 tgt (by simp))
      apply hdirect (by simp) (by simp)
      exact (commands_emitted _).trans (commands_of_not_ddr hholder)
    | add_mininst mi wait_after =>
      have hown : (mi :: List.replicate wait_after.toNat SMC_NOP).filter is_command = [mi].filter is_command := by
        rw [List.filter_cons, List.filter_cons, filter_nops]
        rfl
      rw [words, List.flatMap_append, hrest, call_queue, List.filter_append, hown, flushed, supplied]
      rfl
    | add_wait wait_cycles => exact hdirect (by simp) (by simp) rfl
    | pack_minprogram =>
      have hmsb : ∀ m ∈ ms, m.getLsbD 15 = true := by
        intro m hm
        obtain ⟨i, rfl⟩ := hms m hm
        exact i.encode_msb
      have hwords : (call_words ms .pack_minprogram).flatMap commands = ms.filter is_command := commands_packed hmsb
      rw [words, List.flatMap_append, hrest, hwords, flushed]
      rfl

/-! ## The concluded program -/

theorem build_warnings (cs : List Call) : (build cs).warnings = ∅ := by
  induction cs using List.reverseRecOn with
  | nil => rfl
  | append_singleton cs c ih =>
    rw [build_append, List.foldl_cons, List.foldl_nil, call_warnings, ih]

/-- `conclude` moves no command: END, the INFO words and the branches hold none. -/
theorem commands_conclude {cs : List Call} {q : Program} (h : (build cs).conclude = some q)
    (hlen : q.program.length < 2147483648) : q.program.flatMap commands = (words [] cs).flatMap commands := by
  obtain ⟨r, hr, rfl⟩ := conclude_some h
  have hsane : Sane ((build cs).append [SMC_END]) :=
    (sane_of_reach (reach_build (G := fun _ _ => True) cs fun _ _ _ => trivial)).append _
  have hp := hsane.processed hr
  have hinfo : ∀ (k : Nat) w, ((build cs).append [SMC_END]).linear_analysis.warnings[k]? = some w → commands w = [] := by
    intro k w hw
    rcases (analysis_spec _ k w).1 hw with ⟨n, -, -, hle, rfl⟩ | ⟨hw, -⟩
    · apply commands_of_not_ddr
      rw [is_ddr_eq, SMC_INFO_top]
      · rfl
      · rw [BitVec.lt_def, BitVec.toNat_ofNat]
        exact lt_of_le_of_lt (Nat.mod_le _ _) ((show _ < 2147483648 by omega))
    · rw [append, build_warnings, ExtTreeMap.getElem?_empty] at hw
      cases hw
  have hlink : ∀ i w, ((build cs).append [SMC_END]).program[i]? = some w →
      commands (((build cs).append [SMC_END]).retarget ((build cs).append [SMC_END]).infoMark i w) = commands w := by
    intro i w hw
    cases hb : ((build cs).append [SMC_END]).branches[i]? with
    | none => rw [retarget_none hb]
    | some tgt =>
      obtain ⟨w', hw', hbr⟩ := hsane.branchesAt hr i tgt hb
      obtain rfl := Option.some.inj (hw.symm.trans hw')
      have hddr := is_ddr_of_is_branch hbr
      have hle : entry ((build cs).append [SMC_END]).infoMark (((build cs).append [SMC_END]).labels.getD tgt 0) ≤
          r.program.length := by
        rw [length_processed hp]
        exact entry_le_iff.2 (hsane.label_getD_le tgt)
      rw [retarget_some hb, commands_of_not_ddr hddr]
      apply commands_of_not_ddr
      rw [is_ddr_link w (lt_of_le_of_lt hle hlen), hddr]
  have hend : commands SMC_END = [] := by decide
  calc r.program.flatMap commands
      = (((build cs).append [SMC_END]).program.mapIdx (((build cs).append [SMC_END]).retarget
          ((build cs).append [SMC_END]).infoMark)).flatMap commands := by
        rw [hp.program, flatMap_expand _ hinfo]
    _ = ((build cs).append [SMC_END]).program.flatMap commands := flatMap_mapIdx _ hlink
    _ = (words [] cs).flatMap commands := by
        rw [append, List.flatMap_append, List.flatMap_singleton, hend, List.append_nil, build_program]

theorem is_branch_of_conclude {cs : List Call} {q : Program} (h : (build cs).conclude = some q) {bt : BR_TYPE}
    {rs1 rs2 : CInt} {tgt : String} (hb : .add_branch bt rs1 rs2 tgt ∈ cs) : is_branch (place_holder bt rs1 rs2) = true := by
  obtain ⟨r, hr, -⟩ := conclude_some h
  have hsane : Sane ((build cs).append [SMC_END]) :=
    (sane_of_reach (reach_build (G := fun _ _ => True) cs fun _ _ _ => trivial)).append _
  obtain ⟨pre, post, rfl⟩ := List.append_of_mem hb
  obtain ⟨w, hw, hbr⟩ := hsane.branchesAt hr _ tgt (build_branch pre post bt rs1 rs2 tgt)
  have hword : (build (pre ++ .add_branch bt rs1 rs2 tgt :: post)).program[(build pre).program.length]? =
      some (place_holder bt rs1 rs2) := build_branch_word pre post
  rw [append, List.getElem?_append_left (List.getElem?_eq_some_iff.1 hword).1, hword] at hw
  rwa [Option.some.inj hw]

/-- The concluded program has the commands in the order in which they are flushed,
which is the order of the calls when every queued command is packed in time. -/
theorem conclude_in_flush_order {cs : List Call} (hcs : ∀ c ∈ cs, c.FromEncoders) :
    ((∀ bt rs1 rs2 tgt, .add_branch bt rs1 rs2 tgt ∈ cs → rs1 < 16 ∧ rs2 < 16) → ∃ q, (build cs).conclude = some q) ∧
      ∀ q, (build cs).conclude = some q → q.program.length < 2147483648 →
        q.program.flatMap commands = flushed [] cs ∧
          (PackedInTime cs → q.program.flatMap commands = cs.flatMap supplied) := by
  constructor
  · intro hregs
    have hreach : Unlinked (build cs) := by
      apply reach_build cs
      intro p c hc bt rs1 rs2 tgt e
      subst e
      exact hregs bt rs1 rs2 tgt hc
    obtain ⟨q, -, hq, -⟩ := conclude_spec (linkable_of_unlinked hreach)
    exact ⟨q, hq⟩
  · intro q hq hlen
    have hflushed : q.program.flatMap commands = flushed [] cs := by
      rw [commands_conclude hq hlen]
      exact commands_words hcs (fun bt rs1 rs2 tgt hb => is_branch_of_conclude hq hb) (by simp)
    refine ⟨hflushed, fun htime => ?_⟩
    rw [hflushed, flushed_in_time (.inl rfl) htime]
    rfl

/-- A PRE is queued, an ACT is added, and then the queue is packed; a REF is queued
at the end. -/
def overtaken : List Call :=
  [.add_mininst (SMC_PRE 0 0 0) 0, .add_inst4 (SMC_ACT 0 0 1 0) SMC_NOP SMC_NOP SMC_NOP, .pack_minprogram,
    .add_mininst (SMC_REF 0) 0]

theorem overtaken_from_encoders : ∀ c ∈ overtaken, c.FromEncoders := by
  simp only [overtaken, List.mem_cons, List.not_mem_nil, or_false]
  rintro c (rfl | rfl | rfl | rfl)
  · exact ⟨.PRE 0 0 0 0, rfl⟩
  · exact ⟨.ACT 0 0 1 0 0, .NOP 0, .NOP 0, .NOP 0, rfl, rfl, rfl, rfl⟩
  · trivial
  · exact ⟨.REF 0, rfl⟩

theorem conclude_overtaken : ∃ q, (build overtaken).conclude = some q ∧
    q.program.flatMap commands = [SMC_ACT 0 0 1 0, SMC_PRE 0 0 0] := by
  obtain ⟨hsome, horder⟩ := conclude_in_flush_order overtaken_from_encoders
  obtain ⟨q, hq⟩ := hsome (by simp [overtaken])
  have hlen : (build overtaken).conclude.map (fun q => decide (q.program.length < 2147483648)) = some true := by decide
  rw [hq] at hlen
  refine ⟨q, hq, (horder q hq (of_decide_eq_true (Option.some.inj hlen))).1.trans ?_⟩
  decide

/-- The ACT comes first, and there is no REF. -/
theorem conclude_reorders : ¬ ∀ cs : List Call, (∀ c ∈ cs, c.FromEncoders) → ∀ q, (build cs).conclude = some q →
    q.program.flatMap commands = cs.flatMap supplied := by
  intro h
  have hc : (build overtaken).conclude.map (fun q => q.program.flatMap commands) =
      some [SMC_ACT 0 0 1 0, SMC_PRE 0 0 0] := by decide
  obtain ⟨q, hq, he⟩ := Option.map_eq_some_iff.1 hc
  rw [h overtaken overtaken_from_encoders q hq] at he
  exact absurd he (by decide)

end Program

end DRAMBender
