import Mathlib
import DramBender.Linker
import DramBender.Isa
/-!
# What concluding does to a program's runs

The words, labels and branches of a program are read off the calls that built
it. `conclude` relocates the words (`conclude_relocated`), so the image it
leaves runs as the words with their labels filled in
(`conclude_preserves_control_flow`).
-/

namespace DRAMBender

open Std (ExtTreeMap)
open Insert Machine

namespace Program

/-! ## The words of a sequence of calls -/

/-- The words a call adds to a program with the queue `ms`. -/
def call_words (ms : List Mininst) : Call → List Inst
  | .add_inst i => emitted i
  | .add_inst4 m1 m2 m3 m4 => [pack_mininsts m1 m2 m3 m4]
  | .add_branch bt rs1 rs2 _ => emitted (place_holder bt rs1 rs2)
  | .pack_minprogram => packed ms
  | _ => []

/-- The queue a call leaves. -/
def call_queue (ms : List Mininst) : Call → List Mininst
  | .add_mininst mi wait_after => ms ++ mi :: List.replicate wait_after.toNat SMC_NOP
  | .add_wait wait_cycles => ms ++ List.replicate wait_cycles.toNat SMC_NOP
  | .pack_minprogram => []
  | _ => ms

/-- The words of a sequence of calls. -/
def words (ms : List Mininst) : List Call → List Inst
  | [] => []
  | c :: cs => call_words ms c ++ words (call_queue ms c) cs

theorem call_program (p : Program) (c : Call) : (p.call c).program = p.program ++ call_words p.minprogram c := by
  cases c with
  | add_inst i => rw [call, add_inst_eq]; rfl
  | add_inst4 m1 m2 m3 m4 => rfl
  | add_branch bt rs1 rs2 tgt => rw [call, add_branch, add_inst_eq]; rfl
  | pack_minprogram => rw [call, pack_minprogram, pack_loop_eq]; rfl
  | _ => exact (List.append_nil _).symm

theorem call_minprogram (p : Program) (c : Call) : (p.call c).minprogram = call_queue p.minprogram c := by
  cases c with
  | add_inst i => rw [call, add_inst_eq]; rfl
  | add_branch bt rs1 rs2 tgt => rw [call, add_branch, add_inst_eq]; rfl
  | _ => rfl

theorem call_spc (p : Program) (c : Call) : (p.call c).spc = p.spc + (call_words p.minprogram c).length := by
  cases c with
  | add_inst i => rw [call, add_inst_eq]; rfl
  | add_branch bt rs1 rs2 tgt => rw [call, add_branch, add_inst_eq]; rfl
  | pack_minprogram => rw [call, pack_minprogram, pack_loop_eq]; rfl
  | _ => rfl

theorem foldl_call_program (cs : List Call) (p : Program) :
    (cs.foldl call p).program = p.program ++ words p.minprogram cs := by
  induction cs generalizing p with
  | nil => exact (List.append_nil _).symm
  | cons c cs ih => rw [List.foldl_cons, ih, call_program, call_minprogram, words, List.append_assoc]

theorem build_program (cs : List Call) : (build cs).program = words [] cs := foldl_call_program cs {}

theorem build_append (cs ds : List Call) : build (cs ++ ds) = ds.foldl call (build cs) := List.foldl_append

/-! ## Labels and branches of a sequence of calls -/

theorem call_labels (p : Program) (c : Call) {tgt : String} (h : c ≠ .add_label tgt) :
    (p.call c).labels[tgt]? = p.labels[tgt]? := by
  cases c with
  | add_inst i => rw [call, add_inst_eq]; rfl
  | add_branch bt rs1 rs2 tgt => rw [call, add_branch, add_inst_eq]; rfl
  | pack_minprogram => rw [call, pack_minprogram, pack_loop_eq]; rfl
  | add_label name => exact MapFold.getElem?_insert_ne fun e => h (by rw [e])
  | _ => rfl

theorem foldl_call_labels (cs : List Call) (p : Program) {tgt : String} (h : Call.add_label tgt ∉ cs) :
    (cs.foldl call p).labels[tgt]? = p.labels[tgt]? := by
  induction cs generalizing p with
  | nil => rfl
  | cons c cs ih =>
    rw [List.mem_cons, not_or] at h
    rw [List.foldl_cons, ih _ h.2, call_labels p c (Ne.symm h.1)]

theorem call_branches (p : Program) (c : Call) {b : Nat} (h : b ≠ p.spc) :
    (p.call c).branches[b]? = p.branches[b]? := by
  cases c with
  | add_inst i => rw [call, add_inst_eq]; rfl
  | add_branch bt rs1 rs2 tgt =>
    rw [call, add_branch, add_inst_eq]
    exact MapFold.getElem?_insert_ne (Ne.symm h)
  | pack_minprogram => rw [call, pack_minprogram, pack_loop_eq]; rfl
  | _ => rfl

theorem call_add_branch (p : Program) (bt : BR_TYPE) (rs1 rs2 : CInt) (tgt : String) :
    (p.call (.add_branch bt rs1 rs2 tgt)).branches[p.spc]? = some tgt := by
  rw [call, add_branch, add_inst_eq]
  exact ExtTreeMap.getElem?_insert_self

theorem foldl_call_branches (cs : List Call) (p : Program) {b : Nat} (h : b < p.spc) :
    (cs.foldl call p).branches[b]? = p.branches[b]? := by
  induction cs generalizing p with
  | nil => rfl
  | cons c cs ih => rw [List.foldl_cons, ih _ (by rw [call_spc]; omega), call_branches p c (Nat.ne_of_lt h)]

theorem build_spc (cs : List Call) : (build cs).spc = (build cs).program.length := by
  induction cs using List.reverseRecOn with
  | nil => rfl
  | append_singleton cs c ih =>
    rw [build_append, List.foldl_cons, List.foldl_nil, call_spc, call_program, List.length_append, ih]

/-- Where a sequence of calls puts a label: behind the words of the calls
before it. -/
def label_pc (cs : List Call) (tgt : String) : Nat :=
  (build (cs.takeWhile fun c => c ≠ .add_label tgt)).program.length

theorem label_pc_split (pre post : List Call) {tgt : String} (h : Call.add_label tgt ∉ pre) :
    label_pc (pre ++ .add_label tgt :: post) tgt = (build pre).program.length := by
  have hpre : ∀ c ∈ pre, decide (c ≠ .add_label tgt) = true := by
    intro c hc
    rw [decide_eq_true_iff]
    rintro rfl
    exact h hc
  rw [label_pc, List.takeWhile_append_of_pos hpre, List.takeWhile_cons_of_neg (by simp), List.append_nil]

theorem build_label {cs : List Call} {tgt : String} (h : cs.count (.add_label tgt) = 1) :
    (build cs).labels[tgt]? = some (label_pc cs tgt) := by
  obtain ⟨pre, post, rfl⟩ := List.append_of_mem (List.count_pos_iff.1 (by omega : 0 < cs.count (.add_label tgt)))
  rw [List.count_append, List.count_cons_self] at h
  have hpre : Call.add_label tgt ∉ pre := List.count_eq_zero.1 (by omega)
  have hpost : Call.add_label tgt ∉ post := List.count_eq_zero.1 (by omega)
  rw [label_pc_split pre post hpre, build_append, List.foldl_cons, foldl_call_labels post _ hpost, ← build_spc]
  exact ExtTreeMap.getElem?_insert_self

theorem build_branch (pre post : List Call) (bt : BR_TYPE) (rs1 rs2 : CInt) (tgt : String) :
    (build (pre ++ .add_branch bt rs1 rs2 tgt :: post)).branches[(build pre).program.length]? = some tgt := by
  have hlt : (build pre).program.length < ((build pre).call (.add_branch bt rs1 rs2 tgt)).spc := by
    rw [call_spc, build_spc]
    exact Nat.lt_add_of_pos_right (Nat.succ_pos _)
  rw [build_append, List.foldl_cons, foldl_call_branches post _ hlt, ← build_spc, call_add_branch]

theorem build_branch_word (pre post : List Call) {bt : BR_TYPE} {rs1 rs2 : CInt} {tgt : String} :
    (build (pre ++ .add_branch bt rs1 rs2 tgt :: post)).program[(build pre).program.length]? =
      some (place_holder bt rs1 rs2) := by
  rw [build_append, foldl_call_program, List.getElem?_append_right le_rfl, Nat.sub_self]
  rfl

/-- Every recorded branch was recorded by a call. -/
theorem exists_add_branch {cs : List Call} {b : Nat} {tgt : String} (h : (build cs).branches[b]? = some tgt) :
    ∃ pre post bt rs1 rs2, cs = pre ++ .add_branch bt rs1 rs2 tgt :: post ∧ (build pre).program.length = b := by
  induction cs using List.reverseRecOn with
  | nil =>
    rw [build, List.foldl_nil, ExtTreeMap.getElem?_empty] at h
    cases h
  | append_singleton cs c ih =>
    rw [build_append, List.foldl_cons, List.foldl_nil] at h
    by_cases hb : b = (build cs).spc
    · have hnone : (build cs).branches[b]? = none := by
        by_contra hne
        obtain ⟨tgt', hb'⟩ := Option.ne_none_iff_exists'.1 hne
        have hs : Sane (build cs) := sane_of_reach (reach_build (G := fun _ _ => True) cs fun _ _ _ => trivial)
        have := hs.branch_lt b tgt' hb'
        have := build_spc cs
        omega
      cases c with
      | add_branch bt rs1 rs2 tgt' =>
        rw [hb, call_add_branch] at h
        obtain rfl := Option.some.inj h
        exact ⟨cs, [], bt, rs1, rs2, rfl, by rw [hb, build_spc]⟩
      | add_inst i =>
        rw [call, add_inst_eq] at h
        cases hnone.symm.trans h
      | pack_minprogram =>
        rw [call, pack_minprogram, pack_loop_eq] at h
        cases hnone.symm.trans h
      | _ => cases hnone.symm.trans h
    · rw [call_branches _ c hb] at h
      obtain ⟨pre, post, bt, rs1, rs2, rfl, hlen⟩ := ih h
      exact ⟨pre, post ++ [c], bt, rs1, rs2, by simp, hlen⟩

theorem SMC_NOP_msb : (SMC_NOP).getLsbD 15 = true := by decide

theorem emitted_place_holder {bt : BR_TYPE} {rs1 rs2 : CInt} (h1 : rs1 < 16) (h2 : rs2 < 16) :
    emitted (place_holder bt rs1 rs2) = [place_holder bt rs1 rs2] := by
  rw [emitted, is_load_place_holder h1 h2]
  rfl

/-! ## Words from the encoders -/

/-- A word that an encoder other than the branches' made. -/
def Encoded (w : Inst) : Prop := ∃ a : Asm, a.isBranch = false ∧ w = a.encode

theorem encoded_pack {m1 m2 m3 m4 : Mininst} (h1 : ∃ i : Mini, m1 = i.encode) (h2 : ∃ i : Mini, m2 = i.encode)
    (h3 : ∃ i : Mini, m3 = i.encode) (h4 : ∃ i : Mini, m4 = i.encode) : Encoded (pack_mininsts m1 m2 m3 m4) := by
  obtain ⟨i1, rfl⟩ := h1
  obtain ⟨i2, rfl⟩ := h2
  obtain ⟨i3, rfl⟩ := h3
  obtain ⟨i4, rfl⟩ := h4
  exact ⟨.pack i1 i2 i3 i4, rfl, rfl⟩

theorem exists_NOP : ∃ i : Mini, SMC_NOP = i.encode := ⟨.NOP 0, rfl⟩

theorem encoded_emitted {i : Inst} (h : Encoded i) : ∀ w ∈ emitted i, Encoded w := by
  intro w hw
  unfold emitted at hw
  split_ifs at hw
  · rcases List.mem_cons.1 hw with rfl | hw
    · exact h
    · rw [List.mem_singleton.1 hw]
      exact encoded_pack exists_NOP exists_NOP exists_NOP exists_NOP
  · rw [List.mem_singleton.1 hw]
    exact h

theorem encoded_packed {ms : List Mininst} (h : ∀ m ∈ ms, ∃ i : Mini, m = i.encode) : ∀ w ∈ packed ms, Encoded w := by
  induction ms using packed.induct with
  | case1 m0 m1 m2 m3 rest ih =>
    intro w hw
    rcases List.mem_append.1 hw with hw | hw
    · exact encoded_emitted (encoded_pack (h m0 (by simp)) (h m1 (by simp)) (h m2 (by simp)) (h m3 (by simp))) w hw
    · exact ih (fun m hm => h m (by simp [hm])) w hw
  | case2 => simp [packed]
  | case3 m0 => exact encoded_emitted (encoded_pack (h m0 (by simp)) exists_NOP exists_NOP exists_NOP)
  | case4 m0 m1 => exact encoded_emitted (encoded_pack (h m0 (by simp)) (h m1 (by simp)) exists_NOP exists_NOP)
  | case5 m0 m1 m2 => exact encoded_emitted (encoded_pack (h m0 (by simp)) (h m1 (by simp)) (h m2 (by simp)) exists_NOP)

end Program

/-- Words and mini instructions come from the encoders, branch words only from
`add_branch`, and `add_branch` gets register numbers. -/
def Call.WellMade : Call → Prop
  | .add_inst i => ∃ a : Asm, a.isBranch = false ∧ i = a.encode
  | .add_inst4 m1 m2 m3 m4 => ∃ i1 i2 i3 i4 : Mini, m1 = i1.encode ∧ m2 = i2.encode ∧ m3 = i3.encode ∧ m4 = i4.encode
  | .add_mininst mi _ => ∃ m : Mini, mi = m.encode
  | .add_branch _ rs1 rs2 _ => rs1 < 16 ∧ rs2 < 16
  | _ => True

namespace Program

/-- All words but the recorded branches come from the encoders, and so do the
queued mini instructions. -/
structure Crafted (p : Program) : Prop where
  word : ∀ (i : Nat) w, p.program[i]? = some w → p.branches[i]? = none → Encoded w
  queue : ∀ m ∈ p.minprogram, ∃ i : Mini, m = i.encode

theorem crafted_new : Crafted {} := ⟨fun i w hw => by simp at hw, fun m hm => by simp at hm⟩

theorem Crafted.extend {p q : Program} (h : Crafted p) {ws : List Inst} (hp : q.program = p.program ++ ws)
    (hb : ∀ i : Nat, q.branches[i]? = none → p.branches[i]? = none)
    (hws : ∀ i w, ws[i]? = some w → q.branches[p.program.length + i]? = none → Encoded w)
    (hq : ∀ m ∈ q.minprogram, ∃ i : Mini, m = i.encode) : Crafted q := by
  refine ⟨fun i w hw hn => ?_, hq⟩
  rw [hp] at hw
  rcases Nat.lt_or_ge i p.program.length with hi | hi
  · rw [List.getElem?_append_left hi] at hw
    exact h.word i w hw (hb i hn)
  · rw [List.getElem?_append_right hi] at hw
    apply hws _ w hw
    rwa [Nat.add_sub_cancel' hi]

/-- The queue holds encoders' mini instructions and NOPs. -/
theorem encoded_queue {ms : List Mininst} (hms : ∀ m ∈ ms, ∃ i : Mini, m = i.encode) {c : Call}
    (hc : ∀ mi wait_after, c = .add_mininst mi wait_after → ∃ i : Mini, mi = i.encode) :
    ∀ m ∈ call_queue ms c, ∃ i : Mini, m = i.encode := by
  have hnops : ∀ n, ∀ m ∈ List.replicate n SMC_NOP, ∃ i : Mini, m = i.encode := by
    intro n m hm
    rw [List.eq_of_mem_replicate hm]
    exact exists_NOP
  intro m hm
  cases c with
  | add_mininst mi wait_after =>
    rcases List.mem_append.1 hm with hm | hm
    · exact hms m hm
    · rcases List.mem_cons.1 hm with rfl | hm
      · exact hc m wait_after rfl
      · exact hnops _ m hm
  | add_wait wait_cycles =>
    rcases List.mem_append.1 hm with hm | hm
    · exact hms m hm
    · exact hnops _ m hm
  | pack_minprogram => cases hm
  | _ => exact hms m hm

theorem Crafted.call {p : Program} (h : Crafted p) (hspc : p.spc = p.program.length) {c : Call} (hc : c.WellMade) :
    Crafted (p.call c) := by
  have hbranches : ∀ i : Nat, (p.call c).branches[i]? = none → p.branches[i]? = none := by
    intro i hi
    by_cases he : i = p.spc
    · cases c with
      | add_branch bt rs1 rs2 tgt =>
        rw [he, call_add_branch] at hi
        cases hi
      | add_inst i => rw [Program.call, add_inst_eq] at hi; exact hi
      | pack_minprogram => rw [Program.call, pack_minprogram, pack_loop_eq] at hi; exact hi
      | _ => exact hi
    · rwa [call_branches p c he] at hi
  have hmem {ws : List Inst} (hws : ∀ w ∈ ws, Encoded w) (i : Nat) (w : Inst)
      (hi : ws[i]? = some w) (_ : (p.call c).branches[p.program.length + i]? = none) :
      Encoded w := hws w (List.mem_of_getElem? hi)
  refine h.extend (call_program p c) hbranches ?_ ?_
  · cases c with
    | add_inst i => exact hmem (encoded_emitted hc)
    | add_inst4 m1 m2 m3 m4 =>
      obtain ⟨i1, i2, i3, i4, h1, h2, h3, h4⟩ := hc
      apply hmem
      intro w hw
      rw [List.mem_singleton.1 hw]
      exact encoded_pack ⟨i1, h1⟩ ⟨i2, h2⟩ ⟨i3, h3⟩ ⟨i4, h4⟩
    | add_branch bt rs1 rs2 tgt =>
      obtain ⟨h1, h2⟩ := hc
      intro i w hi hn
      change (emitted (place_holder bt rs1 rs2))[i]? = some w at hi
      rw [emitted_place_holder h1 h2] at hi
      have hlt := (List.getElem?_eq_some_iff.1 hi).1
      rw [List.length_singleton, Nat.lt_one_iff] at hlt
      rw [hlt, Nat.add_zero, ← hspc, call_add_branch] at hn
      cases hn
    | pack_minprogram => exact hmem (encoded_packed h.queue)
    | _ => exact fun i w hi _ => by cases hi
  · rw [call_minprogram]
    apply encoded_queue h.queue
    intro mi wait_after e
    subst e
    exact hc

theorem crafted_build {cs : List Call} (h : ∀ c ∈ cs, c.WellMade) : Crafted (build cs) := by
  induction cs using List.reverseRecOn with
  | nil => exact crafted_new
  | append_singleton cs c ih =>
    rw [build_append]
    exact (ih fun d hd => h d (by simp [hd])).call (build_spc cs) (h c (by simp))

/-- Only the recorded branches are branch words, and the queue holds mini
instructions. -/
structure Plain (p : Program) : Prop where
  word : ∀ (i : Nat) w, p.program[i]? = some w → p.branches[i]? = none → (decode_inst w).isBranch = false
  queue : ∀ m ∈ p.minprogram, m.getLsbD 15 = true

theorem Crafted.plain {p : Program} (h : Crafted p) : Plain p := by
  refine ⟨fun i w hw hb => ?_, fun m hm => ?_⟩
  · obtain ⟨a, ha, rfl⟩ := h.word i w hw hb
    exact encode_not_branch a ha
  · obtain ⟨i, rfl⟩ := h.queue m hm
    exact i.encode_msb

theorem plain_build {cs : List Call} (h : ∀ c ∈ cs, c.WellMade) : Plain (build cs) := (crafted_build h).plain

theorem linkable_build {cs : List Call} (h : ∀ c ∈ cs, c.WellMade) : Linkable (build cs) := by
  refine linkable_of_unlinked (reach_build cs fun p c hc bt rs1 rs2 tgt e => ?_)
  subst e
  exact h _ hc

/-! ## The image and the words with their labels filled in -/

/-- Every branch's label is added exactly once. -/
def Labelled (cs : List Call) : Prop :=
  ∀ bt rs1 rs2 tgt, Call.add_branch bt rs1 rs2 tgt ∈ cs → cs.count (.add_label tgt) = 1

/-- The words and END, with every recorded branch sent to where its label
stands among them. -/
def linked (cs : List Call) : List Inst :=
  ((build cs).program ++ [SMC_END]).mapIdx fun b w =>
    match (build cs).branches[b]? with
    | some tgt => link w (label_pc cs tgt)
    | none => w

/-- The image `p'` is the words and END with an INFO directly in front of every
pc the analysis recorded; branches and their targets have moved by as many
words as were inserted below them, and no other word has changed. -/
structure Relocated (cs : List Call) (p' : Program) : Prop where
  length : p'.program.length = entry (build cs).concludeMark ((build cs).program.length + 1)
  info : ∀ k, (build cs).concludeMark k = true → k < (build cs).program.length ∧
    ∃ r, 0 < r ∧ r ≤ 1024 ∧
      p'.program[entry (build cs).concludeMark k]? = some (SMC_INFO (BitVec.ofNat 32 r)) ∧
      place (build cs).concludeMark k = entry (build cs).concludeMark k + 1
  branch : ∀ pre post bt rs1 rs2 tgt, cs = pre ++ .add_branch bt rs1 rs2 tgt :: post →
    ∃ w, p'.program[place (build cs).concludeMark (build pre).program.length]? = some w ∧
      w = branch_word bt rs1 rs2 (BitVec.ofNat 32 (entry (build cs).concludeMark (label_pc cs tgt))) ∧
      branch_target w = entry (build cs).concludeMark (label_pc cs tgt)
  other : ∀ (i : Nat) w, ((build cs).program ++ [SMC_END])[i]? = some w →
    (∀ pre post bt rs1 rs2 tgt, cs = pre ++ .add_branch bt rs1 rs2 tgt :: post → (build pre).program.length ≠ i) →
    p'.program[place (build cs).concludeMark i]? = some w

/-- The image reaches the states of the source with the same events, at the
instruction that stands for the source's or at the INFO in front of it. -/
structure SameRuns {σ ε : Type} (isa : Isa σ ε) (mark : Nat → Bool) (src img : List Inst) : Prop where
  steps : ∀ s es pc s', Steps (img.map isa.act) 0 s es (entry mark pc) s' ↔ Steps (src.map isa.act) 0 s es pc s'
  only : ∀ s es q s', Steps (img.map isa.act) 0 s es q s' →
    ∃ pc, Steps (src.map isa.act) 0 s es pc s' ∧ (q = entry mark pc ∨ q = place mark pc)
  halts : ∀ s es s', Halts (img.map isa.act) 0 s es s' ↔ Halts (src.map isa.act) 0 s es s'

theorem sameRuns_of_relocate {σ ε : Type} {isa : Isa σ ε} {mark : Nat → Bool} {src img : List Inst}
    (h : img.map isa.act = relocate mark (src.map isa.act)) : SameRuns isa mark src img := by
  have h0 : entry mark 0 = 0 := entry_zero
  refine ⟨fun s es pc s' => ?_, fun s es q s' hs => ?_, fun s es s' => ?_⟩
  · have hs : Steps (relocate mark (src.map isa.act)) (entry mark 0) s es (entry mark pc) s' ↔
        Steps (src.map isa.act) 0 s es pc s' := steps_relocate_iff
    rwa [h0, ← h] at hs
  · rw [h, ← h0] at hs
    exact steps_of_relocate hs
  · have hs : Halts (relocate mark (src.map isa.act)) (entry mark 0) s es s' ↔ Halts (src.map isa.act) 0 s es s' :=
      halts_relocate_iff
    rwa [h0, ← h] at hs

/-- The INFO words do `g`, only branches have targets, and linking sends a branch
to its address. -/
structure Relinks {σ ε : Type} (act : Inst → Act σ ε) (g : σ → σ × List ε) : Prop where
  info : ∀ r, r ≤ 1024 → act (SMC_INFO (BitVec.ofNat 32 r)) = .exec g
  plain : ∀ w f, (decode_inst w).isBranch = false → (act w).retarget f = act w
  link : ∀ bt rs1 rs2 t, rs1 < 16 → rs2 < 16 → t < 524288 →
    act (link (place_holder bt rs1 rs2) t) = (act (place_holder bt rs1 rs2)).retarget fun _ => t

theorem relinks_act {σ ε : Type} (isa : Isa σ ε) : Relinks isa.act fun s => (s, []) where
  info _ hr := isa.act_INFO hr
  plain _ f hw := isa.retarget_act hw f
  link bt _ _ _ h1 h2 ht := isa.act_link_place_holder h1 h2 bt ht

section
variable {cs : List Call} (hc : ∀ c ∈ cs, c.WellMade) (hl : Labelled cs)
include hc hl

theorem labels_getD {b : Nat} {tgt : String} (h : (build cs).branches[b]? = some tgt) :
    (build cs).labels.getD tgt 0 = label_pc cs tgt := by
  obtain ⟨pre, post, bt, rs1, rs2, rfl, -⟩ := exists_add_branch h
  exact getD_of_getElem? (build_label (hl bt rs1 rs2 tgt (by simp)))

theorem label_pc_le {b : Nat} {tgt : String} (h : (build cs).branches[b]? = some tgt) :
    label_pc cs tgt ≤ (build cs).program.length := by
  rw [← labels_getD hc hl h]
  exact (linkable_build hc).toRepInv.label_getD_le tgt

omit hl in
/-- The INFO words of a program built by calls. -/
theorem exists_info {k : Nat} {w : Inst} (h : ((build cs).append [SMC_END]).linear_analysis.warnings[k]? = some w) :
    k < (build cs).program.length ∧ ∃ r, 0 < r ∧ r ≤ 1024 ∧ w = SMC_INFO (BitVec.ofNat 32 r) := by
  rcases (analysis_spec _ k w).1 h with ⟨n, ⟨hs, hn⟩, hpos, hle, rfl⟩ | ⟨hw, -⟩
  · have := hs.pos stays_of_is_ddr
    rw [append, List.length_append, List.length_singleton] at hn
    exact ⟨by omega, _, hpos, hle, rfl⟩
  · rw [append, (linkable_build hc).warnings, ExtTreeMap.getElem?_empty] at hw
    cases hw

theorem conclude_relocated {p' : Program} (h : (build cs).conclude = some p') (hlen : p'.program.length < 524288) :
    Relocated cs p' := by
  obtain ⟨p'', r, hp', rfl, hr⟩ := conclude_spec (linkable_build hc)
  obtain rfl := Option.some.inj (hp'.symm.trans h)
  refine ⟨?_, fun k hk => ?_, fun pre post bt rs1 rs2 tgt e => ?_, fun i w hw hno => ?_⟩
  · apply (length_processed hr).trans
    rw [append, List.length_append]
    rfl
  · obtain ⟨w, hw⟩ := Option.isSome_iff_exists.1 hk
    obtain ⟨hlt, n, hpos, hle, rfl⟩ := exists_info hc hw
    refine ⟨hlt, n, hpos, hle, ?_, place_of_marked hk⟩
    change r.program[_]? = _
    rw [hr.program]
    refine getElem?_entry _ _ hw ?_
    rw [List.length_mapIdx, append, List.length_append]
    omega
  · have hb : (build cs).branches[(build pre).program.length]? = some tgt := by rw [e, build_branch]
    have hp : (build cs).program[(build pre).program.length]? = some (place_holder bt rs1 rs2) := by
      rw [e, build_branch_word]
    obtain ⟨h1, h2⟩ : rs1 < 16 ∧ rs2 < 16 := hc (.add_branch bt rs1 rs2 tgt) (by simp [e])
    obtain ⟨bt', rs1', rs2', h1', h2', hw, hbr, ht⟩ := conclude_branch (linkable_build hc) h hlen hb
    rw [labels_getD hc hl hb, ← link_place_holder h1' h2', ← Option.some.inj (hp.symm.trans hw),
      link_place_holder h1 h2] at hbr ht
    exact ⟨_, hbr, rfl, ht⟩
  · have hnone : (build cs).branches[i]? = none := by
      by_contra hne
      obtain ⟨tgt, hb⟩ := Option.ne_none_iff_exists'.1 hne
      obtain ⟨pre, post, bt, rs1, rs2, e, hp⟩ := exists_add_branch hb
      exact hno pre post bt rs1 rs2 tgt e hp
    change r.program[_]? = _
    rw [hr.program]
    refine (getElem?_place _ _ (by rw [List.length_mapIdx]; exact (List.getElem?_eq_some_iff.1 hw).1)).trans ?_
    rw [List.getElem?_mapIdx]
    change (((build cs).program ++ [SMC_END])[i]?).map _ = _
    rw [hw, Option.map_some, retarget]
    change some (match (build cs).branches[i]? with
      | some tgt => link w (entry _ ((build cs).labels.getD tgt 0))
      | none => w) = some w
    rw [hnone]

/-- The image is the relocated source, whatever the words do, as long as the
addresses fit. -/
theorem conclude_map_of_targets {σ ε : Type} {act : Inst → Act σ ε} {g : σ → σ × List ε} (hact : Relinks act g)
    (hfit : ∀ (b : Nat) tgt, (build cs).branches[b]? = some tgt → entry (build cs).concludeMark (label_pc cs tgt) < 524288)
    {p' : Program} (h : (build cs).conclude = some p') :
    p'.program.map act = relocateWith g (build cs).concludeMark ((linked cs).map act) := by
  obtain ⟨p'', r, hp', rfl, hr⟩ := conclude_spec (linkable_build hc)
  obtain rfl := Option.some.inj (hp'.symm.trans h)
  change r.program.map act = _
  rw [hr.program, map_expand, relocateWith]
  congr 1
  · funext k
    cases hk : ((build cs).append [SMC_END]).linear_analysis.warnings[k]? with
    | none => simp [concludeMark, infoMark, marks, hk]
    | some w =>
      obtain ⟨-, n, -, hle, rfl⟩ := exists_info hc hk
      simp [concludeMark, infoMark, marks, hk, hact.info n hle]
  · apply List.ext_getElem?
    intro i
    simp only [List.getElem?_map, linked, List.getElem?_mapIdx]
    change Option.map _ (Option.map _ (((build cs).program ++ [SMC_END])[i]?)) = _
    cases hw : ((build cs).program ++ [SMC_END])[i]? with
    | none => rfl
    | some w =>
      simp only [Option.map_some, Option.some.injEq]
      change act (match (build cs).branches[i]? with
        | some tgt => link w (entry _ ((build cs).labels.getD tgt 0))
        | none => w) = _
      cases hb : (build cs).branches[i]? with
      | none =>
        refine (hact.plain w _ ?_).symm
        rcases Nat.lt_or_ge i (build cs).program.length with hi | hi
        · rw [List.getElem?_append_left hi] at hw
          exact (plain_build hc).word i w hw hb
        · rw [List.getElem?_append_right hi] at hw
          rw [List.mem_singleton.1 (List.mem_of_getElem? hw), decode_SMC_END]
          rfl
      | some tgt =>
        obtain ⟨w', hw', bt, rs1, rs2, h1, h2, rfl⟩ := (linkable_build hc).holder i tgt hb
        rw [List.getElem?_append_left (List.getElem?_eq_some_iff.1 hw').1, hw'] at hw
        obtain rfl := Option.some.inj hw
        have hlt := hfit i tgt hb
        have hentry : label_pc cs tgt ≤ entry (build cs).concludeMark (label_pc cs tgt) := Nat.le_add_right _ _
        change act (link _ (entry _ ((build cs).labels.getD tgt 0))) =
          (act (link _ (label_pc cs tgt))).retarget _
        rw [labels_getD hc hl hb, hact.link bt rs1 rs2 _ h1 h2 (lt_of_le_of_lt hentry hlt), Act.retarget_retarget]
        exact hact.link bt rs1 rs2 _ h1 h2 hlt

/-- Addresses inside a short image fit. -/
theorem entry_label_pc_lt {p' : Program} (h : (build cs).conclude = some p') (hlen : p'.program.length < 524288) {b : Nat}
    {tgt : String} (hb : (build cs).branches[b]? = some tgt) : entry (build cs).concludeMark (label_pc cs tgt) < 524288 := by
  have hle := label_pc_le hc hl hb
  have hmono : entry (build cs).concludeMark (label_pc cs tgt) ≤
      entry (build cs).concludeMark ((build cs).program.length + 1) := entry_le_iff.2 (by omega)
  have hlength := (conclude_relocated hc hl h hlen).length
  omega

theorem conclude_map {σ ε : Type} {act : Inst → Act σ ε} {g : σ → σ × List ε} (hact : Relinks act g) {p' : Program}
    (h : (build cs).conclude = some p') (hlen : p'.program.length < 524288) :
    p'.program.map act = relocateWith g (build cs).concludeMark ((linked cs).map act) :=
  conclude_map_of_targets hc hl hact (fun _ _ hb => entry_label_pc_lt hc hl h hlen hb) h

/-- The image is the relocated source, if the targets fit. -/
theorem conclude_map_act_of_targets {σ ε : Type} (isa : Isa σ ε)
    (hfit : ∀ (b : Nat) tgt, (build cs).branches[b]? = some tgt → entry (build cs).concludeMark (label_pc cs tgt) < 524288)
    {p' : Program} (h : (build cs).conclude = some p') :
    p'.program.map isa.act = relocate (build cs).concludeMark ((linked cs).map isa.act) :=
  conclude_map_of_targets hc hl (relinks_act isa) hfit h

theorem conclude_map_act {σ ε : Type} (isa : Isa σ ε) {p' : Program} (h : (build cs).conclude = some p')
    (hlen : p'.program.length < 524288) :
    p'.program.map isa.act = relocate (build cs).concludeMark ((linked cs).map isa.act) :=
  conclude_map_act_of_targets hc hl isa (fun _ _ hb => entry_label_pc_lt hc hl h hlen hb) h

end

/-- Concluding relocates the program and keeps every run. -/
theorem conclude_preserves_control_flow (cs : List Call) (hc : ∀ c ∈ cs, c.WellMade) (hl : Labelled cs) :
    ∃ p', (build cs).conclude = some p' ∧ (p'.program.length < 524288 →
      Relocated cs p' ∧
      ∀ (σ ε : Type) (isa : Isa σ ε), SameRuns isa (build cs).concludeMark (linked cs) p'.program) := by
  obtain ⟨p', r, h, -, -⟩ := conclude_spec (linkable_build hc)
  exact ⟨p', h, fun hlen => ⟨conclude_relocated hc hl h hlen, fun σ ε isa =>
    sameRuns_of_relocate (conclude_map_act hc hl isa h hlen)⟩⟩

/-- A loop over one READ. -/
def readLoop : List Call :=
  [.add_label "L", .add_inst4 (SMC_READ 4 0 3 1 0 0) SMC_NOP SMC_NOP SMC_NOP, .add_branch .BL 1 2 "L"]

theorem readLoop_wellMade : ∀ c ∈ readLoop, c.WellMade := by
  intro c hc
  simp only [readLoop, List.mem_cons, List.not_mem_nil, or_false] at hc
  rcases hc with rfl | rfl | rfl
  · trivial
  · exact ⟨.READ 4 0 3 1 0 0, .NOP 0, .NOP 0, .NOP 0, rfl, rfl, rfl, rfl⟩
  · exact ⟨by decide, by decide⟩

theorem readLoop_labelled : Labelled readLoop := by
  intro bt rs1 rs2 tgt h
  simp only [readLoop, List.mem_cons, List.not_mem_nil, or_false, reduceCtorEq, false_or, Call.add_branch.injEq] at h
  obtain ⟨-, -, -, rfl⟩ := h
  decide

/-- The loop's INFO stands at the label, and the branch comes back to it. -/
theorem conclude_readLoop : ∃ p', (build readLoop).conclude = some p' ∧ Relocated readLoop p' ∧
    ∀ (σ ε : Type) (isa : Isa σ ε), SameRuns isa (build readLoop).concludeMark (linked readLoop) p'.program := by
  obtain ⟨p', hp, h⟩ := conclude_preserves_control_flow readLoop readLoop_wellMade readLoop_labelled
  refine ⟨p', hp, h ?_⟩
  have hlen : ((build readLoop).conclude.map fun p => p.program.length) = some 4 := by decide
  rw [hp, Option.map_some] at hlen
  have := Option.some.inj hlen
  omega

end Program

end DRAMBender
