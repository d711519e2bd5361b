import Mathlib
import DramBender.Announcements
import DramBender.Listing
import DramBender.Lib.Compose
/-!
# Programs one behind the other

`add_below` puts one program behind another and `dump_registers` a fixed block
of words. A program that is only ended by `conclude` runs to its end, and then
what stands behind it runs as it would by itself (`add_below_runs`).
-/

namespace DRAMBender

open Std (ExtTreeMap)
open Insert Machine

namespace Program

/-! ## Images and the code of their programs -/

section
variable {σ ε : Type} (isa : Isa σ ε) {p p' : Program}

theorem branches_end (hl : Linkable p) {i : Nat} (hi : p.program.length ≤ i) : p.branches[i]? = none := by
  by_contra hne
  obtain ⟨tgt, hb⟩ := Option.ne_none_iff_exists'.1 hne
  obtain ⟨w, hw, -⟩ := hl.holder i tgt hb
  exact absurd (List.getElem?_eq_some_iff.1 hw).1 (by omega)

theorem act_END : isa.act SMC_END = .halt := by
  rw [Isa.act, decode_SMC_END]
  rfl

/-- The code and a halt are the code of the words with the END. -/
theorem code_ended (hl : Linkable p) (i : Nat) : (code isa p ++ [.halt])[i]? = (ended p)[i]?.map fun w =>
    match p.branches[i]? with
    | some tgt => (isa.act w).retarget fun _ => p.labels.getD tgt 0
    | none => isa.act w := by
  rcases Nat.lt_or_ge i p.program.length with hi | hi
  · rw [ended, List.getElem?_append_left hi, List.getElem?_append_left (by simpa [code] using hi), code]
    exact List.getElem?_mapIdx
  · have hlen : (code isa p).length = p.program.length := List.length_mapIdx
    rw [ended, List.getElem?_append_right hi, List.getElem?_append_right (by omega), hlen, branches_end hl hi]
    cases i - p.program.length with
    | zero => exact congrArg some (act_END isa).symm
    | succ k => rfl

/-- An image is its program's code and a halt, relocated. -/
theorem map_act_image (hl : Linkable p) (hc : Crafted p) (h : p.conclude = some p') (hlen : p'.program.length < 524288) :
    p'.program.map isa.act = relocate p.concludeMark (code isa p ++ [.halt]) := by
  rw [image_eq hl h, map_expand, relocate]
  congr 1
  · funext k
    cases hk : (p.append [SMC_END]).linear_analysis.warnings[k]? with
    | none => simp [concludeMark, infoMark, marks, hk]
    | some w =>
      obtain ⟨n, -, -, hle, rfl⟩ := (warned_iff hl hc k w).1 hk
      simp [concludeMark, infoMark, marks, hk, isa.act_INFO hle]
  · apply List.ext_getElem?
    intro i
    rw [List.getElem?_map, List.getElem?_map, List.getElem?_mapIdx, code_ended isa hl]
    cases hw : (ended p)[i]? with
    | none => rfl
    | some w =>
      rw [Option.map_some, Option.map_some, Option.map_some, Option.map_some]
      refine congrArg some ?_
      cases hb : p.branches[i]? with
      | none =>
        rw [retarget_none (p := p.append [SMC_END]) hb, isa.retarget_act (ended_plain hc hw hb)]
      | some tgt =>
        obtain ⟨w', hw', bt, rs1, rs2, h1, h2, rfl⟩ := hl.holder i tgt hb
        rw [ended, List.getElem?_append_left (List.getElem?_eq_some_iff.1 hw').1, hw'] at hw
        obtain rfl := Option.some.inj hw
        rw [retarget_some (p := p.append [SMC_END]) hb, Act.retarget_retarget]
        exact isa.act_link_place_holder h1 h2 bt (entry_label_lt hl h hlen hb)

/-- Concluding keeps the halting runs. -/
theorem halts_image (hl : Linkable p) (hc : Crafted p) (h : p.conclude = some p') (hlen : p'.program.length < 524288)
    {s s' : σ} {es : List ε} : Halts (p'.get_inst_seq.map isa.act) 0 s es s' ↔ Halts (code isa p ++ [.halt]) 0 s es s' := by
  have hrelocate : Halts (relocate p.concludeMark (code isa p ++ [.halt])) (entry p.concludeMark 0) s es s' ↔
      Halts (code isa p ++ [.halt]) 0 s es s' := halts_relocate_iff
  rwa [entry_zero, ← map_act_image isa hl hc h hlen] at hrelocate

/-! ## Programs that run to their end -/

/-- No word of the program ends it. -/
def NoEnd (p : Program) : Prop := ∀ w ∈ p.program, decode_inst w ≠ .END

theorem noEnd_readLoop : NoEnd (build readLoop) := by
  intro w hw
  have hwords : (build readLoop).program =
      [pack_mininsts (SMC_READ 4 0 3 1 0 0) SMC_NOP SMC_NOP SMC_NOP, place_holder .BL 1 2] := rfl
  rw [hwords, List.mem_cons, List.mem_singleton] at hw
  rcases hw with rfl | rfl
  · rw [decode_pack _ _ _ _ SMC_NOP_msb]
    simp
  · rw [decode_place_holder (by decide) (by decide)]
    simp [BR_TYPE.mnemonic]

theorem actOf_ne_halt {m : Mnemonic} (h : m ≠ .END) : isa.actOf m ≠ .halt := by
  cases m <;> first | exact absurd rfl h | simp [Isa.actOf, nop]

theorem fallsThrough_code (hl : Linkable p) (hc : Crafted p) (hend : NoEnd p) : FallsThrough (code isa p) := by
  intro a ha
  obtain ⟨i, hi⟩ := List.getElem?_of_mem ha
  rw [code, List.getElem?_mapIdx] at hi
  obtain ⟨w, hw, rfl⟩ := Option.map_eq_some_iff.1 hi
  have hne : isa.act w ≠ .halt := actOf_ne_halt isa (hend w (List.mem_of_getElem? hw))
  cases hb : p.branches[i]? with
  | none =>
    refine ⟨hne, fun f taken tgt e => ?_⟩
    have hplain := hc.plain.word i w hw hb
    rw [isa.isBranch_of_actOf e] at hplain
    cases hplain
  | some name =>
    have hle : p.labels.getD name 0 ≤ (code isa p).length := by
      rw [code, List.length_mapIdx]
      exact hl.toRepInv.label_getD_le name
    dsimp only
    cases ha : isa.act w with
    | exec f => simp [Act.retarget]
    | branch f taken tgt =>
      have htgt : (Act.branch f taken tgt).retarget (fun _ => p.labels.getD name 0) = .branch f taken (p.labels.getD name 0) := rfl
      rw [htgt]
      refine ⟨by simp, fun f' taken' tgt' e => ?_⟩
      cases e
      exact hle
    | halt => exact absurd ha hne

/-- Words behind a program change none of its own. -/
theorem code_append (hl : Linkable p) (ws : List Inst) : code isa (p.append ws) = code isa p ++ ws.map isa.act := by
  apply List.ext_getElem?
  intro i
  rw [code, append, List.getElem?_mapIdx]
  dsimp only
  rcases Nat.lt_or_ge i p.program.length with hi | hi
  · rw [List.getElem?_append_left hi, List.getElem?_append_left (by simpa [code] using hi), code, List.getElem?_mapIdx]
  · rw [List.getElem?_append_right hi, List.getElem?_append_right (by simpa [code] using hi), code,
      List.length_mapIdx, List.getElem?_map, branches_end hl hi]

end

/-! ## Programs linked by `add_below` -/

/-- Every branch's label is one of the program's own. -/
def OwnLabels (p : Program) : Prop := ∀ (b : Nat) tgt, p.branches[b]? = some tgt → ∃ t, p.labels[tgt]? = some t

section
variable {σ ε : Type} (isa : Isa σ ε) {self p : Program}

/-- The code of the linked program is the code of the two, the second one moved
along. -/
theorem code_add_below (hs : Linkable self) (hps : Crafted p) (hls : OwnLabels self) (hlp : OwnLabels p)
    (hn : NoCapture self p) :
    code isa (self.add_below p) = code isa self ++ behind (code isa self).length (code isa p) := by
  have hlen : (code isa self).length = self.program.length := List.length_mapIdx
  have hspc := hs.spc_eq
  have hprogram : (self.add_below p).program = self.program ++ p.program := rfl
  apply List.ext_getElem?
  intro i
  rw [code, List.getElem?_mapIdx, hprogram]
  rcases Nat.lt_or_ge i self.program.length with hi | hi
  · -- a word of `self`
    rw [List.getElem?_append_left hi, List.getElem?_append_left (by omega), code, List.getElem?_mapIdx]
    refine congrArg (fun f => Option.map f _) (funext fun w => ?_)
    cases hb : self.branches[i]? with
    | some tgt =>
      rw [add_below_branch_left hs.toRepInv hb]
      obtain ⟨t, ht⟩ := hls i tgt hb
      have hlabel : (self.add_below p).labels.getD tgt 0 = self.labels.getD tgt 0 := by
        rw [getD_of_getElem? ht]
        cases ht' : p.labels[tgt]? with
        | none => exact add_below_label_left ht ht'
        | some t' =>
          obtain ⟨h1, h2⟩ := hn i tgt t t' hb ht ht'
          rw [add_below_label_right ht']
          omega
      dsimp only
      rw [hlabel]
    | none =>
      have hnone : (self.add_below p).branches[i]? = none := by
        by_contra hne
        obtain ⟨tgt, hb'⟩ := Option.ne_none_iff_exists'.1 hne
        rcases add_below_branch hb' with ⟨b, -, hbi⟩ | ⟨hbs, -⟩
        · omega
        · rw [hb] at hbs
          cases hbs
      rw [hnone]
  · -- a word of `p`
    obtain ⟨k, rfl⟩ := Nat.exists_eq_add_of_le hi
    rw [List.getElem?_append_right hi, Nat.add_sub_cancel_left, ← hlen, getElem?_behind, hlen, code, List.getElem?_mapIdx,
      Option.map_map]
    cases hw : p.program[k]? with
    | none => rfl
    | some w =>
      rw [Option.map_some, Option.map_some, Function.comp_apply]
      refine congrArg some ?_
      cases hb : p.branches[k]? with
      | some tgt =>
        have hb' : (self.add_below p).branches[k + self.spc]? = some tgt := add_below_branch_right hb
        rw [hspc, Nat.add_comm] at hb'
        obtain ⟨t, ht⟩ := hlp k tgt hb
        rw [hb']
        dsimp only
        rw [add_below_label_right ht, getD_of_getElem? ht, Act.retarget_retarget, hspc, Nat.add_comm]
      | none =>
        have hnone : (self.add_below p).branches[self.program.length + k]? = none := by
          by_contra hne
          obtain ⟨tgt, hb'⟩ := Option.ne_none_iff_exists'.1 hne
          rcases add_below_branch hb' with ⟨b, hbp, hbi⟩ | ⟨hbs, -⟩
          · obtain rfl : b = k := by omega
            rw [hb] at hbp
            cases hbp
          · rw [branches_end hs (Nat.le_add_right _ _)] at hbs
            cases hbs
        rw [hnone, isa.retarget_act (hps.plain.word k w hw hb)]

/-- Linking two programs and executing the result is executing them one after
the other, if the first one is ended by `conclude` only and no label of the
second one takes the place of one of its own. -/
theorem add_below_runs (hs : Reach Crafting self) (hp : Reach Crafting p) (hls : OwnLabels self) (hlp : OwnLabels p)
    (hn : NoCapture self p) (hend : NoEnd self) {self' p' q : Program} (hself : self.conclude = some self')
    (hp' : p.conclude = some p') (hq : (self.add_below p).conclude = some q) (hlself : self'.program.length < 524288)
    (hlp' : p'.program.length < 524288) (hlq : q.program.length < 524288) (s s' : σ) (es : List ε) :
    Halts (q.get_inst_seq.map isa.act) 0 s es s' ↔
      ∃ es1 s1 es2, Halts (self'.get_inst_seq.map isa.act) 0 s es1 s1 ∧ Halts (p'.get_inst_seq.map isa.act) 0 s1 es2 s' ∧
        es = es1 ++ es2 := by
  obtain ⟨hls1, hcs⟩ := crafted_of_reach hs
  obtain ⟨hlp1, hcp⟩ := crafted_of_reach hp
  have hbehind : behind (code isa self).length (code isa p) ++ [.halt] =
      behind (code isa self).length (code isa p ++ [.halt]) := by
    rw [behind_append]
    rfl
  rw [halts_image isa (linkable_add_below hls1 hlp1) (hcs.add_below hls1.toRepInv hcp) hq hlq,
    code_add_below isa hls1 hcp hls hlp hn, List.append_assoc, hbehind, halts_behind_iff (fallsThrough_code isa hls1 hcs hend)]
  simp only [halts_image isa hls1 hcs hself hlself, halts_image isa hlp1 hcp hp' hlp']

end

theorem ownLabels_build {cs : List Call} (hl : Labelled cs) : OwnLabels (build cs) := by
  intro b tgt hb
  obtain ⟨pre, post, bt, rs1, rs2, rfl, -⟩ := exists_add_branch hb
  exact ⟨_, build_label (hl bt rs1 rs2 tgt (by simp))⟩

/-- A loop and a load behind it. -/
theorem add_below_runs_readLoop : ∃ self' p' q, (build readLoop).conclude = some self' ∧
    (build [.add_inst (SMC_LI 7 5)]).conclude = some p' ∧
    ((build readLoop).add_below (build [.add_inst (SMC_LI 7 5)])).conclude = some q ∧
    ∀ (σ ε : Type) (isa : Isa σ ε) (s s' : σ) (es : List ε), Halts (q.get_inst_seq.map isa.act) 0 s es s' ↔
      ∃ es1 s1 es2, Halts (self'.get_inst_seq.map isa.act) 0 s es1 s1 ∧ Halts (p'.get_inst_seq.map isa.act) 0 s1 es2 s' ∧
        es = es1 ++ es2 := by
  have hmade : ∀ c ∈ [Call.add_inst (SMC_LI 7 5)], c.WellMade := by
    rw [List.forall_mem_singleton]
    exact ⟨.LI 7 5, rfl, rfl⟩
  have hlabelled : Labelled [.add_inst (SMC_LI 7 5)] := by simp [Labelled]
  have h1 : ((build readLoop).conclude.map fun p => p.program.length) = some 4 := by decide
  have h2 : ((build [.add_inst (SMC_LI 7 5)]).conclude.map fun p => p.program.length) = some 2 := by decide
  have h3 : (((build readLoop).add_below (build [.add_inst (SMC_LI 7 5)])).conclude.map fun p => p.program.length) = some 5 := by
    decide
  obtain ⟨self', hself, hlself⟩ := Option.map_eq_some_iff.1 h1
  obtain ⟨p', hp', hlp'⟩ := Option.map_eq_some_iff.1 h2
  obtain ⟨q, hq, hlq⟩ := Option.map_eq_some_iff.1 h3
  refine ⟨self', p', q, hself, hp', hq, fun σ ε isa => ?_⟩
  refine add_below_runs isa (reach_crafting readLoop_wellMade) (reach_crafting hmade) (ownLabels_build readLoop_labelled)
    (ownLabels_build hlabelled) ?_ noEnd_readLoop hself hp' hq (by omega) (by omega) (by omega)
  intro b tgt t t' _ _ ht
  exact absurd ht (by simp [build, call, add_inst_eq, append])

end Program

end DRAMBender
