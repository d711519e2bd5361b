import Mathlib
import DramBender.Postprocess
import DramBender.Link
/-!
# Runs of the builder

`Op` is a public operation on a program and `Reach` the programs some sequence
of them reaches. `RepInv` ties the program counter, the branches and the labels
to the program vector; it holds in every run in which `add_branch` gets register
numbers and post-processing inserts nothing (`repInv_of_reach`).
-/

namespace DRAMBender

open Std (ExtTreeMap)
open Insert

/-- A call that adds to a program. -/
inductive Call where
  | add_inst (i : Inst)
  | add_inst4 (m1 m2 m3 m4 : Mininst)
  | add_label (name : String)
  | add_branch (bt : BR_TYPE) (rs1 rs2 : CInt) (tgt : String)
  | add_mininst (mi : Mininst) (wait_after : Int)
  | add_wait (wait_cycles : Int)
  | pack_minprogram
  deriving DecidableEq

/-- A public operation, `add_below` apart. -/
inductive Op where
  | call (c : Call)
  | dump_registers
  | conclude
  | get_inst_array

namespace Program

def call (p : Program) : Call → Program
  | .add_inst i => p.add_inst i
  | .add_inst4 m1 m2 m3 m4 => p.add_inst4 m1 m2 m3 m4
  | .add_label name => p.add_label name
  | .add_branch bt rs1 rs2 tgt => p.add_branch bt rs1 rs2 tgt
  | .add_mininst mi wait_after => p.add_mininst mi wait_after
  | .add_wait wait_cycles => p.add_wait wait_cycles
  | .pack_minprogram => p.pack_minprogram

/-- The program a sequence of calls builds from the empty one. -/
def build (cs : List Call) : Program := cs.foldl call {}

def run (p : Program) : Op → Option Program
  | .call c => some (p.call c)
  | .dump_registers => p.dump_registers
  | .conclude => p.conclude
  | .get_inst_array => p.get_inst_array.map Prod.snd

/-- The programs reached from the empty one, with every operation allowed by
`G`. -/
inductive Reach (G : Program → Op → Prop) : Program → Prop
  | new : Reach G {}
  | step {p q : Program} (op : Op) (h : Reach G p) (hg : G p op) (hq : p.run op = some q) : Reach G q
  | add_below {self p : Program} (hs : Reach G self) (hp : Reach G p) : Reach G (self.add_below p)

/-- What every operation keeps holds in every reachable program. -/
theorem Reach.inv {G : Program → Op → Prop} (I : Program → Prop) (h0 : I {})
    (hstep : ∀ p op q, I p → G p op → p.run op = some q → I q)
    (hbelow : ∀ self p, I self → I p → I (self.add_below p)) {p : Program} (h : Reach G p) : I p := by
  induction h with
  | new => exact h0
  | step _ _ hg hq ih => exact hstep _ _ _ ih hg hq
  | add_below _ _ ihs ihp => exact hbelow _ _ ihs ihp

theorem reach_build {G : Program → Op → Prop} (cs : List Call) (h : ∀ p, ∀ c ∈ cs, G p (.call c)) :
    Reach G (build cs) := by
  induction cs using List.reverseRecOn with
  | nil => exact .new
  | append_singleton cs c ih =>
    rw [build, List.foldl_append]
    exact .step (.call c) (ih fun p d hd => h p d (by simp [hd])) (h _ c (by simp)) rfl

/-! ## Appending words -/

/-- The words one `add_inst` puts into the program. -/
def emitted (i : Inst) : List Inst := i :: if is_load i then [all_nops] else []

/-- The words that go with the queue `ms`. -/
def packed : List Mininst → List Inst
  | m0 :: m1 :: m2 :: m3 :: rest => emitted (pack_mininsts m0 m1 m2 m3) ++ packed rest
  | [] => []
  | [m0] => emitted (pack_mininsts m0 SMC_NOP SMC_NOP SMC_NOP)
  | [m0, m1] => emitted (pack_mininsts m0 m1 SMC_NOP SMC_NOP)
  | [m0, m1, m2] => emitted (pack_mininsts m0 m1 m2 SMC_NOP)

/-- `p` with the words `ws` at its end. -/
def append (p : Program) (ws : List Inst) : Program :=
  { p with program := p.program ++ ws, spc := p.spc + ws.length }

theorem append_append (p : Program) (ws ws' : List Inst) : (p.append ws).append ws' = p.append (ws ++ ws') := by
  simp [append, Nat.add_assoc]

theorem append_nil (p : Program) : p.append [] = p := by simp [append]

theorem add_inst_eq (p : Program) (i : Inst) : p.add_inst i = p.append (emitted i) := by
  unfold add_inst emitted
  split_ifs
  · simp only [add_inst4, append, List.append_assoc, List.length_cons, List.length_nil]
    rfl
  · rfl

theorem pack_loop_eq (ms : List Mininst) (p : Program) : pack_loop ms p = p.append (packed ms) := by
  induction ms, p using pack_loop.induct with
  | case1 p m0 m1 m2 m3 rest ih => rw [pack_loop, ih, add_inst_eq, append_append, packed]
  | case2 p => rw [pack_loop, packed, append_nil]
  | case3 p m0 => rw [pack_loop, packed, add_inst_eq]
  | case4 p m0 m1 => rw [pack_loop, packed, add_inst_eq]
  | case5 p m0 m1 m2 => rw [pack_loop, packed, add_inst_eq]

theorem foldl_add_inst (ws : List Inst) (p : Program) : ws.foldl add_inst p = p.append (ws.flatMap emitted) := by
  induction ws generalizing p with
  | nil => exact p.append_nil.symm
  | cons w ws ih => rw [List.foldl_cons, ih, add_inst_eq, append_append, List.flatMap_cons]

theorem dump_registers_some {p q : Program} (h : p.dump_registers = some q) :
    q = { p with dumpRegsCalled := true }.append (dump_words.flatMap emitted) := by
  unfold dump_registers at h
  split_ifs at h
  rw [← foldl_add_inst]
  exact (Option.some.inj h).symm

theorem emitted_END : emitted SMC_END = [SMC_END] := by decide

theorem conclude_some {p q : Program} (h : p.conclude = some q) :
    ∃ r, (p.append [SMC_END]).linear_analysis.insert_generated.preprocess_branches = some r ∧
      q = { r with concluded := true } := by
  rw [conclude, add_inst_eq, emitted_END] at h
  obtain ⟨r, hr, h⟩ := Option.bind_eq_some_iff.1 h
  exact ⟨r, hr, (Option.some.inj h).symm⟩

/-- An `int` holds the size of fewer than 2^28 words. -/
theorem get_insts_eq (p : Program) : p.get_insts = if p.program.length < 268435456 then some p.program else none := by
  have hsize : p.size.toInt < p.program.length * 8 ↔ ¬ p.program.length < 268435456 := by
    rw [size, BitVec.toInt_eq_toNat_cond, BitVec.toNat_ofNat]
    split <;> omega
  rw [get_insts]
  by_cases h : p.program.length < 268435456
  · rw [if_neg (mt hsize.1 (not_not_intro h)), if_pos h]
  · rw [if_pos (hsize.2 h), if_neg h]

theorem get_inst_array_some {p q : Program} {ws : List Inst} (h : p.get_inst_array = some (ws, q)) :
    p.linear_analysis.insert_generated.preprocess_branches = some q ∧ ws = q.program ∧ q.program.length < 268435456 := by
  rw [get_inst_array] at h
  obtain ⟨r, hr, h⟩ := Option.bind_eq_some_iff.1 h
  obtain ⟨arr, harr, h⟩ := Option.bind_eq_some_iff.1 h
  cases h
  rw [get_insts_eq] at harr
  split_ifs at harr with hlen
  exact ⟨hr, (Option.some.inj harr).symm, hlen⟩

/-! ## The maps of `add_below` -/

theorem add_below_branch {self p : Program} {c : Nat} {tgt : String}
    (h : (self.add_below p).branches[c]? = some tgt) :
    (∃ b, p.branches[b]? = some tgt ∧ b + self.spc = c) ∨
      self.branches[c]? = some tgt ∧ ∀ b tgt, p.branches[b]? = some tgt → b + self.spc ≠ c := by
  refine (MapFold.of_getElem?_rebuild (m := p.branches) (k := fun pc _ => pc + self.spc) (v := fun _ tgt => tgt)
    ?_ h).imp_left ?_
  · intro a tgt a' tgt' h h' e
    obtain rfl : a = a' := by omega
    exact Option.some.inj (h.symm.trans h')
  · rintro ⟨b, tgt, hb, e, rfl⟩
    exact ⟨b, hb, e⟩

theorem add_below_label {self p : Program} {name : String} {t : Nat}
    (h : (self.add_below p).labels[name]? = some t) :
    (∃ t0, p.labels[name]? = some t0 ∧ t0 + self.spc = t) ∨
      self.labels[name]? = some t ∧ p.labels[name]? = none := by
  rcases MapFold.of_getElem?_rebuild (m := p.labels) (k := fun name _ => name) (v := fun _ pc => pc + self.spc)
    (fun a b a' b' ha ha' (e : a = a') => by subst e; rw [Option.some.inj (ha.symm.trans ha')]) h with
    ⟨a, t0, h0, rfl, e⟩ | ⟨h, hno⟩
  · exact .inl ⟨t0, h0, e⟩
  · refine .inr ⟨h, ?_⟩
    cases ht : p.labels[name]? with
    | none => rfl
    | some t0 => exact absurd rfl (hno name t0 ht)

theorem add_below_getElem? (self p : Program) (b : Nat) (w : Inst) (h : p.program[b]? = some w)
    (hs : self.spc = self.program.length) : (self.add_below p).program[b + self.spc]? = some w := by
  rw [hs, Nat.add_comm]
  exact (List.getElem?_append_right (Nat.le_add_right _ _)).trans (by rw [Nat.add_sub_cancel_left]; exact h)

/-! ## Where the recorded branches stand -/

/-- Every recorded branch stands at a word with the property. -/
def BranchesAt (P : Inst → Prop) (p : Program) : Prop :=
  ∀ (b : Nat) tgt, p.branches[b]? = some tgt → ∃ w, p.program[b]? = some w ∧ P w

section
variable {P : Inst → Prop} {p : Program}

theorem BranchesAt.append (h : BranchesAt P p) (ws : List Inst) : BranchesAt P (p.append ws) := by
  intro b tgt hb
  obtain ⟨w, hw, hP⟩ := h b tgt hb
  exact ⟨w, (List.getElem?_append_left (List.getElem?_eq_some_iff.1 hw).1).trans hw, hP⟩

theorem BranchesAt.add_branch (h : BranchesAt P p) (hspc : p.spc = p.program.length) {bt : BR_TYPE}
    {rs1 rs2 : CInt} (hP : P (place_holder bt rs1 rs2)) (tgt : String) :
    BranchesAt P (p.add_branch bt rs1 rs2 tgt) := by
  intro b tgt' hb
  rw [Program.add_branch, add_inst_eq] at hb ⊢
  by_cases he : p.spc = b
  · subst he
    refine ⟨place_holder bt rs1 rs2, ?_, hP⟩
    rw [hspc]
    exact (List.getElem?_append_right le_rfl).trans (by rw [Nat.sub_self]; rfl)
  · exact h.append _ b tgt' ((MapFold.getElem?_insert_ne he).symm.trans hb)

theorem BranchesAt.call (h : BranchesAt P p) (hspc : p.spc = p.program.length) (c : Call)
    (hP : ∀ bt rs1 rs2 tgt, c = .add_branch bt rs1 rs2 tgt → P (place_holder bt rs1 rs2)) :
    BranchesAt P (p.call c) := by
  cases c with
  | add_inst i =>
    rw [Program.call, add_inst_eq]
    exact h.append _
  | add_inst4 m1 m2 m3 m4 => exact h.append _
  | add_branch bt rs1 rs2 tgt => exact h.add_branch hspc (hP bt rs1 rs2 tgt rfl) tgt
  | pack_minprogram =>
    rw [Program.call, Program.pack_minprogram, pack_loop_eq]
    exact h.append _
  | _ => exact h

theorem BranchesAt.add_below {self : Program} (hs : BranchesAt P self) (hp : BranchesAt P p)
    (hspc : self.spc = self.program.length) : BranchesAt P (self.add_below p) := by
  intro c tgt hc
  rcases add_below_branch hc with ⟨b, hb, rfl⟩ | ⟨hc, -⟩
  · obtain ⟨w, hw, hP⟩ := hp b tgt hb
    exact ⟨w, add_below_getElem? self p b w hw hspc, hP⟩
  · obtain ⟨w, hw, hP⟩ := hs c tgt hc
    exact ⟨w, (List.getElem?_append_left (List.getElem?_eq_some_iff.1 hw).1).trans hw, hP⟩

end

/-! ## The representation invariant -/

/-- The program counter is the size of the vector, every recorded branch stands
at a branch word, and no label is past the end. -/
structure RepInv (p : Program) : Prop where
  spc_eq : p.spc = p.program.length
  branch : ∀ (b : Nat) tgt, p.branches[b]? = some tgt → ∃ w, p.program[b]? = some w ∧ is_branch w = true
  label_le : ∀ (name : String) t, p.labels[name]? = some t → t ≤ p.program.length

theorem RepInv.append {p : Program} (h : RepInv p) (ws : List Inst) : RepInv (p.append ws) := by
  refine ⟨?_, BranchesAt.append h.branch ws, fun name t ht => ?_⟩
  · rw [Program.append, List.length_append, h.spc_eq]
  · have := h.label_le name t ht
    simp only [Program.append, List.length_append]
    omega

theorem RepInv.add_label {p : Program} (h : RepInv p) (name : String) : RepInv (p.add_label name) := by
  refine ⟨h.spc_eq, h.branch, fun name' t ht => ?_⟩
  by_cases he : name = name'
  · subst he
    rw [Program.add_label, ExtTreeMap.getElem?_insert_self] at ht
    exact (Option.some.inj ht).ge.trans h.spc_eq.le
  · rw [Program.add_label, MapFold.getElem?_insert_ne he] at ht
    exact h.label_le name' t ht

theorem RepInv.call {p : Program} (h : RepInv p) (c : Call)
    (hc : ∀ bt rs1 rs2 tgt, c = .add_branch bt rs1 rs2 tgt → rs1 < 16 ∧ rs2 < 16) : RepInv (p.call c) := by
  have hb : BranchesAt (fun w => is_branch w = true) (p.call c) := by
    apply BranchesAt.call h.branch h.spc_eq c
    intro bt rs1 rs2 tgt e
    obtain ⟨h1, h2⟩ := hc bt rs1 rs2 tgt e
    exact is_branch_place_holder h1 h2 bt
  cases c with
  | add_inst i =>
    rw [Program.call, add_inst_eq]
    exact h.append _
  | add_inst4 m1 m2 m3 m4 => exact h.append _
  | add_label name => exact h.add_label name
  | add_branch bt rs1 rs2 tgt =>
    have ha := h.append (emitted (place_holder bt rs1 rs2))
    rw [Program.call, Program.add_branch, add_inst_eq] at hb ⊢
    exact ⟨ha.spc_eq, hb, ha.label_le⟩
  | add_mininst mi wait_after => exact ⟨h.spc_eq, h.branch, h.label_le⟩
  | add_wait wait_cycles => exact ⟨h.spc_eq, h.branch, h.label_le⟩
  | pack_minprogram =>
    have ha := h.append (packed p.minprogram)
    rw [Program.call, Program.pack_minprogram, pack_loop_eq]
    exact ⟨ha.spc_eq, ha.branch, ha.label_le⟩

theorem RepInv.add_below {self p : Program} (hs : RepInv self) (hp : RepInv p) : RepInv (self.add_below p) := by
  have hlen : (self.add_below p).program.length = self.program.length + p.program.length := List.length_append
  refine ⟨?_, BranchesAt.add_below hs.branch hp.branch hs.spc_eq, fun name t ht => ?_⟩
  · rw [hlen, ← hs.spc_eq, ← hp.spc_eq]
    rfl
  · rw [hlen]
    rcases add_below_label ht with ⟨t0, ht0, rfl⟩ | ⟨ht, -⟩
    · have := hp.label_le name t0 ht0
      have := hs.spc_eq
      omega
    · have := hs.label_le name t ht
      omega

theorem RepInv.label_getD_le {p : Program} (h : RepInv p) (tgt : String) : p.labels.getD tgt 0 ≤ p.program.length := by
  cases ht : p.labels[tgt]? with
  | none => rw [ExtTreeMap.getD_eq_getD_getElem?, ht]; exact Nat.zero_le _
  | some t => rw [getD_of_getElem? ht]; exact h.label_le tgt t ht

/-- Linking keeps the invariant while addresses fit an `int`. -/
theorem RepInv.preprocess {p q : Program} (h : RepInv p) (hlen : p.program.length < 2147483648)
    (hq : p.preprocess_branches = some q) : RepInv q := by
  obtain ⟨r, hr, hprog, hused, hunused, hframe⟩ := preprocess_spec p h.branch
  obtain rfl : r = q := Option.some.inj (hr.symm.trans hq)
  have hl : r.program.length = p.program.length := by rw [hprog, List.length_mapIdx]
  refine ⟨?_, fun b tgt hb => ?_, fun name t ht => ?_⟩
  · rw [hl, hframe]
    exact h.spc_eq
  · rw [hframe] at hb
    obtain ⟨w, hw, hwb⟩ := h.branch b tgt hb
    refine ⟨link w (p.labels.getD tgt 0), ?_, ?_⟩
    · rw [hprog, List.getElem?_mapIdx, hw]
      simp [linkAt, hb]
    · rw [is_branch_link w (lt_of_le_of_lt (h.label_getD_le tgt) hlen), hwb]
  · rw [hl]
    by_cases hu : ∃ b : Nat, p.branches[b]? = some name
    · obtain ⟨b, hb⟩ := hu
      rw [hused b name hb] at ht
      exact (Option.some.inj ht).ge.trans (h.label_getD_le name)
    · rw [hunused name fun b hb => hu ⟨b, hb⟩] at ht
      exact h.label_le name t ht

/-! ## Runs -/

/-- What even a program with a lost count keeps: the counter does not pass the
end, and warnings, labels and branches are for pcs inside. -/
structure Sane (p : Program) : Prop where
  spc_le : p.spc ≤ p.program.length
  warned_lt : ∀ (k : Nat) w, p.warnings[k]? = some w → k < p.program.length
  label_le : ∀ (name : String) t, p.labels[name]? = some t → t ≤ p.program.length
  branch_lt : ∀ (b : Nat) tgt, p.branches[b]? = some tgt → b < p.program.length

theorem Sane.append {p : Program} (h : Sane p) (ws : List Inst) : Sane (p.append ws) := by
  have hlen : (p.append ws).program.length = p.program.length + ws.length := List.length_append
  refine ⟨?_, fun k w hk => ?_, fun name t ht => ?_, fun b tgt hb => ?_⟩
  · rw [hlen]
    exact Nat.add_le_add_right h.spc_le _
  · have := h.warned_lt k w hk
    omega
  · have := h.label_le name t ht
    omega
  · have := h.branch_lt b tgt hb
    omega

theorem Sane.add_branch {p : Program} (h : Sane p) (bt : BR_TYPE) (rs1 rs2 : CInt) (tgt : String) :
    Sane (p.add_branch bt rs1 rs2 tgt) := by
  have ha := h.append (emitted (place_holder bt rs1 rs2))
  rw [Program.add_branch, add_inst_eq]
  refine ⟨ha.spc_le, ha.warned_lt, ha.label_le, fun b tgt' hb => ?_⟩
  by_cases he : p.spc = b
  · subst he
    have := h.spc_le
    simp only [Program.append, List.length_append, emitted, List.length_cons]
    omega
  · exact ha.branch_lt b tgt' ((MapFold.getElem?_insert_ne he).symm.trans hb)

theorem Sane.call {p : Program} (h : Sane p) (c : Call) : Sane (p.call c) := by
  cases c with
  | add_inst i =>
    rw [Program.call, add_inst_eq]
    exact h.append _
  | add_inst4 m1 m2 m3 m4 => exact h.append _
  | add_label name =>
    refine ⟨h.spc_le, h.warned_lt, fun name' t ht => ?_, h.branch_lt⟩
    by_cases he : name = name'
    · subst he
      rw [Program.call, Program.add_label, ExtTreeMap.getElem?_insert_self] at ht
      exact (Option.some.inj ht).ge.trans h.spc_le
    · rw [Program.call, Program.add_label, MapFold.getElem?_insert_ne he] at ht
      exact h.label_le name' t ht
  | add_branch bt rs1 rs2 tgt => exact h.add_branch bt rs1 rs2 tgt
  | pack_minprogram =>
    have ha := h.append (packed p.minprogram)
    rw [Program.call, Program.pack_minprogram, pack_loop_eq]
    exact ⟨ha.spc_le, ha.warned_lt, ha.label_le, ha.branch_lt⟩
  | _ => exact ⟨h.spc_le, h.warned_lt, h.label_le, h.branch_lt⟩

theorem Sane.warned_analysis {p : Program} (h : Sane p) (k : Nat) (w : Inst)
    (hk : p.linear_analysis.warnings[k]? = some w) : k < p.program.length := by
  rcases (analysis_spec p k w).1 hk with ha | ⟨hk, -⟩
  · exact ha.lt
  · exact h.warned_lt k w hk

theorem Sane.label_getD_le {p : Program} (h : Sane p) (tgt : String) : p.labels.getD tgt 0 ≤ p.program.length := by
  cases ht : p.labels[tgt]? with
  | none => rw [ExtTreeMap.getD_eq_getD_getElem?, ht]; exact Nat.zero_le _
  | some t => rw [getD_of_getElem? ht]; exact h.label_le tgt t ht

/-- The passes succeed on programs whose recorded branches are branch words. -/
theorem Sane.branchesAt {p r : Program} (h : Sane p)
    (hr : p.linear_analysis.insert_generated.preprocess_branches = some r) :
    BranchesAt (fun w => is_branch w = true) p := by
  intro b tgt hb
  have hi := insert_generated_spec p.linear_analysis h.warned_analysis
  obtain ⟨w, hw, hwb⟩ := (preprocess_some hr).2 _ tgt ((hi.branches _ tgt).2 ⟨b, hb, rfl⟩)
  rw [hi.program] at hw
  exact ⟨w, (getElem?_place _ _ (h.branch_lt b tgt hb)).symm.trans hw, hwb⟩

/-- When they succeed, they have relocated the program. -/
theorem Sane.processed {p r : Program} (h : Sane p)
    (hr : p.linear_analysis.insert_generated.preprocess_branches = some r) : Processed p r := by
  obtain ⟨r', hr', hp⟩ := postprocess_spec p (h.branchesAt hr) h.warned_analysis
  obtain rfl := Option.some.inj (hr'.symm.trans hr)
  exact hp

theorem length_processed {p r : Program} (h : Processed p r) :
    r.program.length = entry p.infoMark p.program.length := by
  rw [h.program, length_expand, List.length_mapIdx]
  rfl

theorem Sane.postprocess {p r : Program} (h : Sane p)
    (hr : p.linear_analysis.insert_generated.preprocess_branches = some r) : Sane r := by
  have hp := h.processed hr
  have hl := length_processed hp
  have hle : p.program.length ≤ r.program.length := by rw [hl]; exact Nat.le_add_right _ _
  refine ⟨?_, fun k w hk => ?_, fun name t ht => ?_, fun c tgt hc => ?_⟩
  · rw [hp.frame]
    exact h.spc_le.trans hle
  · rw [hp.frame] at hk
    exact lt_of_lt_of_le (h.warned_analysis k w hk) hle
  · rw [hp.label_val name t ht, hl]
    exact entry_le_iff.2 (h.label_getD_le name)
  · obtain ⟨b, hb, rfl⟩ := (hp.branches c tgt).1 hc
    rw [hl, ← Nat.succ_le_iff, Nat.succ_eq_add_one, place_succ]
    exact entry_le_iff.2 (h.branch_lt b tgt hb)

theorem Sane.add_below {self p : Program} (hs : Sane self) (hp : Sane p) : Sane (self.add_below p) := by
  have hlen : (self.add_below p).program.length = self.program.length + p.program.length := List.length_append
  refine ⟨?_, fun k w hk => ?_, fun name t ht => ?_, fun c tgt hc => ?_⟩
  · rw [hlen]
    exact Nat.add_le_add hs.spc_le hp.spc_le
  · have := hs.warned_lt k w hk
    omega
  · rcases add_below_label ht with ⟨t0, ht0, rfl⟩ | ⟨ht, -⟩
    · have := hp.label_le name t0 ht0
      have := hs.spc_le
      omega
    · have := hs.label_le name t ht
      omega
  · rcases add_below_branch hc with ⟨b, hb, rfl⟩ | ⟨hc, -⟩
    · have := hp.branch_lt b tgt hb
      have := hs.spc_le
      omega
    · have := hs.branch_lt c tgt hc
      omega

theorem sane_new : Sane {} := by
  refine ⟨le_rfl, fun k w hk => ?_, fun name t ht => ?_, fun b tgt hb => ?_⟩
  · rw [ExtTreeMap.getElem?_empty] at hk; cases hk
  · rw [ExtTreeMap.getElem?_empty] at ht; cases ht
  · rw [ExtTreeMap.getElem?_empty] at hb; cases hb

/-- Whatever the operations, no run leaves the vector's bounds. -/
theorem sane_of_reach {G : Program → Op → Prop} {p : Program} (h : Reach G p) : Sane p := by
  refine Reach.inv Sane sane_new (fun p op q hi _ hq => ?_) (fun self p hs hp => hs.add_below hp) h
  cases op with
  | call c => cases hq; exact hi.call c
  | dump_registers =>
    rw [dump_registers_some hq]
    have hd : Sane { p with dumpRegsCalled := true } := ⟨hi.spc_le, hi.warned_lt, hi.label_le, hi.branch_lt⟩
    exact hd.append _
  | conclude =>
    obtain ⟨r, hr, rfl⟩ := conclude_some hq
    have hp := (hi.append [SMC_END]).postprocess hr
    exact ⟨hp.spc_le, hp.warned_lt, hp.label_le, hp.branch_lt⟩
  | get_inst_array =>
    obtain ⟨⟨ws, q'⟩, ha, rfl⟩ := Option.map_eq_some_iff.1 hq
    exact hi.postprocess (get_inst_array_some ha).1

/-- `add_branch` gets register numbers, and post-processing meets no closed
segment with 1 to 1024 READs in a program of fewer than 2^31 words. -/
def Quiet (p : Program) : Op → Prop
  | .call c => ∀ bt rs1 rs2 tgt, c = .add_branch bt rs1 rs2 tgt → rs1 < 16 ∧ rs2 < 16
  | .dump_registers => True
  | .conclude => (∀ k w, ¬ Announced (p.program ++ [SMC_END]) k w) ∧ p.program.length + 1 < 2147483648
  | .get_inst_array => (∀ k w, ¬ Announced p.program k w) ∧ p.program.length < 2147483648

theorem call_warnings (p : Program) (c : Call) : (p.call c).warnings = p.warnings := by
  cases c with
  | add_inst i => rw [call, add_inst_eq]; rfl
  | add_branch bt rs1 rs2 tgt => rw [call, add_branch, add_inst_eq]; rfl
  | pack_minprogram => rw [call, pack_minprogram, pack_loop_eq]; rfl
  | _ => rfl

/-- One quiet operation keeps the invariant, and leaves no warnings behind. -/
theorem repInv_step {p q : Program} {op : Op} (h : RepInv p ∧ p.warnings = ∅) (hg : Quiet p op)
    (hq : p.run op = some q) : RepInv q ∧ q.warnings = ∅ := by
  obtain ⟨h, hw⟩ := h
  cases op with
  | call c =>
    cases hq
    exact ⟨h.call c hg, (call_warnings p c).trans hw⟩
  | dump_registers =>
    rw [dump_registers_some hq]
    have hd : RepInv { p with dumpRegsCalled := true } := ⟨h.spc_eq, h.branch, h.label_le⟩
    exact ⟨hd.append _, hw⟩
  | conclude =>
    obtain ⟨r, hr, rfl⟩ := conclude_some hq
    have hno : (p.append [SMC_END]).NoInfo := ⟨hw, hg.1⟩
    rw [postprocess_noInfo hno] at hr
    have hi := (h.append [SMC_END]).preprocess (by simpa [append] using hg.2) hr
    exact ⟨⟨hi.spc_eq, hi.branch, hi.label_le⟩, (preprocess_some hr).1.2.1.trans hw⟩
  | get_inst_array =>
    obtain ⟨⟨ws, q'⟩, ha, rfl⟩ := Option.map_eq_some_iff.1 hq
    obtain ⟨hr, -⟩ := get_inst_array_some ha
    have hno : p.NoInfo := ⟨hw, hg.1⟩
    rw [postprocess_noInfo hno] at hr
    exact ⟨h.preprocess hg.2 hr, (preprocess_some hr).1.2.1.trans hw⟩

theorem repInv_new : RepInv {} := by
  refine ⟨rfl, fun b tgt hb => ?_, fun name t ht => ?_⟩
  · rw [ExtTreeMap.getElem?_empty] at hb; cases hb
  · rw [ExtTreeMap.getElem?_empty] at ht; cases ht

/-- `spc`, which is an `int` that the operations only add to. -/
def int_spc (p : Program) : Int := (BitVec.ofNat 32 p.spc).toInt

theorem RepInv.int_spc_eq {p : Program} (h : RepInv p) (hlen : p.program.length < 2147483648) : p.int_spc = p.program.length := by
  rw [int_spc, h.spc_eq, BitVec.toInt_eq_toNat_of_lt, BitVec.toNat_ofNat, Nat.mod_eq_of_lt (by omega)]
  rw [BitVec.toNat_ofNat]
  omega

/-- The invariant holds in every state of a run of quiet operations, and the `int`
is the size of the vector as long as an `int` can be. -/
theorem repInv_of_reach {p : Program} (h : Reach Quiet p) :
    RepInv p ∧ (p.program.length < 2147483648 → p.int_spc = p.program.length) := by
  have hi : RepInv p ∧ p.warnings = ∅ := Reach.inv (fun p => RepInv p ∧ p.warnings = ∅) ⟨repInv_new, rfl⟩
    (fun _ _ _ hi hg hq => repInv_step hi hg hq) (fun _ _ hs hp => ⟨hs.1.add_below hp.1, hs.2⟩) h
  exact ⟨hi.1, hi.1.int_spc_eq⟩

/-! ## Programs not linked yet -/

/-- Everything but the post-processing, with register numbers for
`add_branch`. -/
def Building (_ : Program) : Op → Prop
  | .call c => ∀ bt rs1 rs2 tgt, c = .add_branch bt rs1 rs2 tgt → rs1 < 16 ∧ rs2 < 16
  | .dump_registers => True
  | .conclude => False
  | .get_inst_array => False

/-- A program built by the public operations that no pass has touched yet. -/
def Unlinked (p : Program) : Prop := Reach Building p

/-- A branch word still without a target. -/
def IsHolder (w : Inst) : Prop := ∃ bt rs1 rs2, rs1 < 16 ∧ rs2 < 16 ∧ w = place_holder bt rs1 rs2

/-- What the passes rely on. -/
structure Linkable (p : Program) : Prop extends RepInv p where
  warnings : p.warnings = ∅
  holder : BranchesAt IsHolder p

theorem Linkable.sane {p : Program} (h : Linkable p) : Sane p := by
  refine ⟨h.spc_eq.le, fun k w hk => ?_, h.label_le, fun b tgt hb => ?_⟩
  · rw [h.warnings, ExtTreeMap.getElem?_empty] at hk
    cases hk
  · obtain ⟨w, hw, -⟩ := h.branch b tgt hb
    exact (List.getElem?_eq_some_iff.1 hw).1

theorem Linkable.step {p q : Program} {op : Op} (h : Linkable p) (hg : Building p op) (hq : p.run op = some q) :
    Linkable q := by
  cases op with
  | call c =>
    cases hq
    refine ⟨h.toRepInv.call c hg, (call_warnings p c).trans h.warnings, h.holder.call h.spc_eq c ?_⟩
    intro bt rs1 rs2 tgt e
    obtain ⟨h1, h2⟩ := hg bt rs1 rs2 tgt e
    exact ⟨bt, rs1, rs2, h1, h2, rfl⟩
  | dump_registers =>
    have hi : RepInv p ∧ p.warnings = ∅ := ⟨h.toRepInv, h.warnings⟩
    obtain ⟨hi, hw⟩ := repInv_step hi (show Quiet p .dump_registers from trivial) hq
    refine ⟨hi, hw, ?_⟩
    rw [dump_registers_some hq]
    exact BranchesAt.append (p := { p with dumpRegsCalled := true }) h.holder _
  | conclude => exact hg.elim
  | get_inst_array => exact hg.elim

theorem linkable_of_unlinked {p : Program} (h : Unlinked p) : Linkable p := by
  refine Reach.inv Linkable ⟨repInv_new, rfl, fun b tgt hb => ?_⟩ (fun p op q hi hg hq => hi.step hg hq)
    (fun self p hs hp => ⟨hs.toRepInv.add_below hp.toRepInv, hs.warnings, hs.holder.add_below hp.holder hs.spc_eq⟩) h
  rw [ExtTreeMap.getElem?_empty] at hb
  cases hb

/-- A loop over one word of NOPs. -/
def nopLoop : List Call := [.add_label "L", .add_inst all_nops, .add_branch .BL 1 2 "L"]

theorem repInv_nopLoop : ∃ p, (build nopLoop).conclude = some p ∧ RepInv p ∧ p.int_spc = 3 := by
  have hb : Reach Quiet (build nopLoop) := by
    apply reach_build nopLoop
    intro p c hc
    simp only [nopLoop, List.mem_cons, List.not_mem_nil, or_false] at hc
    rcases hc with rfl | rfl | rfl <;> rintro _ _ _ _ ⟨⟩
    decide
  have hno : ((build nopLoop).append [SMC_END]).NoInfo := noInfo_iff.2 (ExtTreeMap.isEmpty_iff.1 (by decide))
  obtain ⟨p, hp⟩ := Option.isSome_iff_exists.1 (show (build nopLoop).conclude.isSome = true by decide)
  have hlen := show ((build nopLoop).conclude.map fun q => q.program.length) = some 3 by decide
  rw [hp, Option.map_some, Option.some.injEq] at hlen
  obtain ⟨hrep, hspc⟩ := repInv_of_reach (.step .conclude hb ⟨hno.2, by decide⟩ hp)
  exact ⟨p, hp, hrep, by rw [hspc (by omega), hlen]; rfl⟩

/-- A READ and nothing else. -/
def oneRead : List Call := [.add_inst (pack_mininsts (SMC_READ 4 0 3 1 0 0) SMC_NOP SMC_NOP SMC_NOP)]

/-- Concluding it makes three words and counts two. -/
theorem conclude_loses_spc : ¬ ∀ p, Reach (fun _ _ => True) p → RepInv p := by
  intro h
  have hc : (build oneRead).conclude.map (fun q => (q.spc, q.program.length)) = some (2, 3) := by decide
  obtain ⟨q, hq, he⟩ := Option.map_eq_some_iff.1 hc
  have hr : Reach (fun _ _ => True) q :=
    .step .conclude (reach_build oneRead fun _ _ _ => trivial) trivial hq
  have hs := (h q hr).spc_eq
  rw [Prod.mk.injEq] at he
  omega

end Program

end DRAMBender
