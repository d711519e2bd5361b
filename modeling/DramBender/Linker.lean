import Mathlib
import DramBender.Builder
/-!
# Linking twice, and linking two programs

`get_inst_array` runs the passes of `conclude` again: `get_inst_array_idempotent_iff`
says for which programs the second run changes nothing. `add_below` merges two
label maps by name: `add_below_links_iff` says when both programs' branches
still reach their own labels.
-/

namespace DRAMBender

open Std (ExtTreeMap)
open Insert

namespace Program

/-! ## A second run of the passes -/

/-- `n` calls of `get_inst_array`: what they return, and the program they
leave. -/
def get_times : Nat → Program → Option (List (List Inst) × Program)
  | 0, p => some ([], p)
  | n + 1, p => do
    let (ws, q) ← p.get_inst_array
    let (wss, r) ← get_times n q
    some (ws :: wss, r)

/-- Every branch's target field holds its label's address. -/
def TargetsRight (p : Program) : Prop :=
  ∀ (b : Nat) tgt, p.branches[b]? = some tgt →
    ∃ w t, p.program[b]? = some w ∧ p.labels[tgt]? = some t ∧ branch_target w = t

/-- However often `get_inst_array` is called, it returns the words that
`get_inst_seq` sends, and changes neither words nor labels nor branches. -/
def Idempotent (p : Program) : Prop :=
  ∀ n, ∃ wss q, p.get_times n = some (wss, q) ∧ (∀ ws ∈ wss, ws = p.get_inst_seq) ∧
    q.program = p.program ∧ q.labels = p.labels ∧ q.branches = p.branches ∧ TargetsRight q

/-- Nothing to insert, and every branch already linked to its label. -/
structure Settled (p : Program) : Prop where
  noInfo : p.NoInfo
  linked : ∀ (b : Nat) tgt, p.branches[b]? = some tgt → ∃ w t, p.program[b]? = some w ∧ is_branch w = true ∧
    p.labels[tgt]? = some t ∧ link w t = w ∧ branch_target w = t

/-- A settled program is a fixed point of the passes. -/
theorem get_inst_array_settled {p : Program} (h : Settled p) (hlen : p.program.length < 268435456) :
    p.get_inst_array = some (p.program, p) := by
  have hbr : ∀ (b : Nat) tgt, p.branches[b]? = some tgt → ∃ w, p.program[b]? = some w ∧ is_branch w = true := by
    intro b tgt hb
    obtain ⟨w, t, hw, hwb, -⟩ := h.linked b tgt hb
    exact ⟨w, hw, hwb⟩
  obtain ⟨r, hr, hprog, hused, hunused, hframe⟩ := preprocess_spec p hbr
  have hprog' : r.program = p.program := by
    rw [hprog]
    apply List.ext_getElem?
    intro i
    rw [List.getElem?_mapIdx]
    cases hb : p.branches[i]? with
    | none => cases p.program[i]? <;> simp [linkAt, hb]
    | some tgt =>
      obtain ⟨w, t, hw, -, ht, hl, -⟩ := h.linked i tgt hb
      simp [linkAt, hb, hw, getD_of_getElem? ht, hl]
  have hlabels : r.labels = p.labels := by
    apply ExtTreeMap.ext_getElem?
    intro tgt
    by_cases hu : ∃ b : Nat, p.branches[b]? = some tgt
    · obtain ⟨b, hb⟩ := hu
      obtain ⟨w, t, -, -, ht, -⟩ := h.linked b tgt hb
      rw [hused b tgt hb, getD_of_getElem? ht, ht]
    · exact hunused tgt fun b hb => hu ⟨b, hb⟩
  have hrp : r = p := by rw [hframe, hprog', hlabels]
  rw [get_inst_array, postprocess_noInfo h.noInfo, hr, hrp, Option.bind_eq_bind, Option.bind_some, get_insts_eq, if_pos hlen]
  rfl

theorem get_times_settled {p : Program} (h : Settled p) (hlen : p.program.length < 268435456) (n : Nat) :
    p.get_times n = some (List.replicate n p.program, p) := by
  induction n with
  | zero => rfl
  | succ n ih =>
    simp only [get_times, get_inst_array_settled h hlen, Option.bind_eq_bind, Option.bind_some, ih]
    rfl

theorem idempotent_of_settled {p : Program} (h : Settled p) (hlen : p.program.length < 268435456) : Idempotent p := by
  intro n
  refine ⟨_, p, get_times_settled h hlen n, fun ws hws => List.eq_of_mem_replicate hws, rfl, rfl, rfl, ?_⟩
  intro b tgt hb
  obtain ⟨w, t, hw, -, ht, -, hwt⟩ := h.linked b tgt hb
  exact ⟨w, t, hw, ht, hwt⟩

/-- Words of the same kind are announced alike. -/
theorem announced_congr {l l' : List Inst} (hlen : l.length = l'.length)
    (h : ∀ (i : Nat) w w', l[i]? = some w → l'[i]? = some w' →
      is_ddr w = is_ddr w' ∧ stays w = stays w' ∧ (stays w = true → is_ddr_read w = is_ddr_read w'))
    {k : Nat} {v : Inst} (ha : Announced l k v) : Announced l' k v := by
  have hat : ∀ (P : Inst → Bool) (m : Nat), (∀ w w', l[m]? = some w → l'[m]? = some w' → P w = P w') →
      (Segment.At P l m ↔ Segment.At P l' m) := by
    intro P m hP
    rcases Nat.lt_or_ge m l.length with hm | hm
    · have e := List.getElem?_eq_getElem hm
      have e' := List.getElem?_eq_getElem (hlen ▸ hm)
      simp only [Segment.At, e, e', Option.some.injEq, exists_eq_left']
      rw [hP _ _ e e']
    · have e := List.getElem?_eq_none hm
      have e' := List.getElem?_eq_none (hlen ▸ hm)
      simp [Segment.At, e, e']
  have hd : ∀ m, Segment.At is_ddr l m ↔ Segment.At is_ddr l' m := fun m => hat _ m fun w w' e e' => (h m w w' e e').1
  have hs : ∀ m, Segment.At stays l m ↔ Segment.At stays l' m := fun m => hat _ m fun w w' e e' => (h m w w' e e').2.1
  obtain ⟨n, ⟨hseg, hn⟩, hv⟩ := ha
  have hreads : readsIn l k (k + n) = readsIn l' k (k + n) := by
    unfold readsIn Segment.total
    apply Finset.sum_congr rfl
    intro m hm
    rw [Finset.mem_Ico] at hm
    obtain ⟨w, hw, hst⟩ := hseg.runs m hm.1 hm.2
    obtain ⟨w', hw', -⟩ := (hs m).1 ⟨w, hw, hst⟩
    rw [hw, hw']
    exact (h m w w' hw hw').2.2 hst
  refine ⟨n, ⟨hseg.of_at hd hs, hlen ▸ hn⟩, ?_⟩
  rw [← hreads]
  exact hv

theorem noInfo_of_linked {p r : Program} (h : p.NoInfo) (hw : r.warnings = p.warnings)
    (hprog : r.program = p.program.mapIdx (linkAt (fun b => p.branches[b]?) p.labels))
    (hbr : ∀ (b : Nat) tgt w, p.branches[b]? = some tgt → p.program[b]? = some w →
      is_branch w = true ∧ p.labels.getD tgt 0 < 2147483648) : r.NoInfo := by
  refine ⟨hw.trans h.1, fun k v ha => h.2 k v ?_⟩
  rw [hprog] at ha
  refine announced_congr List.length_mapIdx (fun i w w' hw hw' => ?_) ha
  rw [List.getElem?_mapIdx, hw'] at hw
  cases hb : p.branches[i]? with
  | none =>
    simp only [Option.map_some, linkAt, hb, Option.some.injEq] at hw
    subst hw
    exact ⟨rfl, rfl, fun _ => rfl⟩
  | some tgt =>
    simp only [Option.map_some, linkAt, hb, Option.some.injEq] at hw
    subst hw
    obtain ⟨hwb, hlt⟩ := hbr i tgt w' hb hw'
    have hst : stays (link w' (p.labels.getD tgt 0)) = stays w' := by
      rw [stays, stays, is_ddr_link w' hlt, is_sleep_link w' hlt]
    refine ⟨is_ddr_link w' hlt, hst, fun hs => ?_⟩
    -- a branch word is neither a DDR word nor a SLEEP
    rw [hst, stays, is_ddr_eq, is_sleep, Bool.or_eq_true, beq_iff_eq, beq_iff_eq] at hs
    rw [is_branch_eq, beq_iff_eq] at hwb
    rcases hs with hs | hs <;>
    · exfalso
      bv_omega

/-- Concluding without INFO words settles a program whose branch words can take
their targets. -/
theorem settled_of_preprocess {p r : Program} (h : p.NoInfo) (hr : p.preprocess_branches = some r)
    (hfit : ∀ (b : Nat) tgt w, p.branches[b]? = some tgt → p.program[b]? = some w →
      p.labels.getD tgt 0 < target_range w ∧ branch_target w ||| p.labels.getD tgt 0 = p.labels.getD tgt 0) :
    Settled r := by
  obtain ⟨⟨-, hw, -⟩, hbr⟩ := preprocess_some hr
  obtain ⟨r', hr', hprog, hused, -, hframe⟩ := preprocess_spec p hbr
  obtain rfl : r' = r := Option.some.inj (hr'.symm.trans hr)
  have hlt : ∀ (b : Nat) tgt w, p.branches[b]? = some tgt → p.program[b]? = some w →
      p.labels.getD tgt 0 < 2147483648 := by
    intro b tgt w hb hw
    have := (hfit b tgt w hb hw).1
    have := target_range_le w
    omega
  refine ⟨noInfo_of_linked h hw hprog fun b tgt w hb hw => ⟨?_, hlt b tgt w hb hw⟩, fun b tgt hb => ?_⟩
  · obtain ⟨w', hw', hwb⟩ := hbr b tgt hb
    obtain rfl : w = w' := Option.some.inj (hw.symm.trans hw')
    exact hwb
  · have hb' : p.branches[b]? = some tgt := by rw [hframe] at hb; exact hb
    obtain ⟨w, hwp, hwb⟩ := hbr b tgt hb'
    have hl := hlt b tgt w hb' hwp
    obtain ⟨hr1, hr2⟩ := hfit b tgt w hb' hwp
    refine ⟨link w (p.labels.getD tgt 0), p.labels.getD tgt 0, ?_, ?_, hused b tgt hb', link_link w hl, ?_⟩
    · rw [hprog, List.getElem?_mapIdx, hwp]
      simp [linkAt, hb']
    · rw [is_branch_link w hl, hwb]
    · rw [branch_target_link w hl, Nat.mod_eq_of_lt hr1, hr2]

/-- Where INFO words were inserted, the passes insert them again. -/
theorem postprocess_grows {p r : Program} (h : Sane p) (hinfo : p.linear_analysis.warnings ≠ ∅)
    (hr : p.linear_analysis.insert_generated.preprocess_branches = some r) :
    p.program.length < r.program.length := by
  have hi := insert_generated_spec p.linear_analysis fun k w hk => h.warned_analysis k w hk
  obtain ⟨k, hk⟩ : ∃ k, p.linear_analysis.warnings[k]? ≠ none := by
    by_contra hno
    refine hinfo (ExtTreeMap.ext_getElem? fun k => ?_)
    rw [ExtTreeMap.getElem?_empty]
    by_contra hne
    exact hno ⟨k, hne⟩
  obtain ⟨w, hw⟩ := Option.ne_none_iff_exists'.1 hk
  have hklt := h.warned_analysis k w hw
  have hmark : marks (fun k => p.linear_analysis.warnings[k]?) k = true := by simp [marks, hw]
  have hone : before (marks fun k => p.linear_analysis.warnings[k]?) (k + 1) ≤
      before (marks fun k => p.linear_analysis.warnings[k]?) p.program.length := before_mono hklt
  rw [before_succ, hmark] at hone
  rw [(preprocess_some hr).1.2.2, hi.program, length_expand]
  change p.program.length < entry _ p.program.length
  rw [entry]
  simp only [if_true] at hone
  omega

/-- The second run of the passes changes nothing if and only if the first one
inserted no INFO word and every branch word could take its target: the address
fits the field, and the field held no other bits. The words have to fit into the
array, whose size is an `int`. -/
theorem get_inst_array_idempotent_iff {p0 p : Program} (hr : Reach (fun _ _ => True) p0)
    (hc : p0.conclude = some p) :
    Idempotent p ↔
      (p0.warnings = ∅ ∧ ∀ k w, ¬ Announced (p0.program ++ [SMC_END]) k w) ∧
      (∀ (b : Nat) tgt w, p0.branches[b]? = some tgt → (p0.program ++ [SMC_END])[b]? = some w →
        p0.labels.getD tgt 0 < target_range w ∧
        branch_target w ||| p0.labels.getD tgt 0 = p0.labels.getD tgt 0) ∧
      p.program.length < 268435456 := by
  obtain ⟨r, hpost, rfl⟩ := conclude_some hc
  have hs1 : Sane (p0.append [SMC_END]) := (sane_of_reach hr).append _
  constructor
  · intro h
    obtain ⟨wss, q, hq, -, hqp, -⟩ := h 1
    simp only [get_times, Option.bind_eq_bind] at hq
    obtain ⟨⟨ws, q'⟩, ha, hq⟩ := Option.bind_eq_some_iff.1 hq
    simp only [Option.bind_some, Option.some.injEq, Prod.mk.injEq] at hq
    obtain ⟨-, rfl⟩ := hq
    obtain ⟨ha, -, hlen⟩ := get_inst_array_some ha
    rw [hqp] at hlen
    have hno : (p0.append [SMC_END]).NoInfo := by
      rw [noInfo_iff]
      by_contra hinfo
      -- the warnings are still there, so the next call inserts them again
      have hsr := hs1.postprocess hpost
      have hs : Sane { r with concluded := true } := ⟨hsr.spc_le, hsr.warned_lt, hsr.label_le, hsr.branch_lt⟩
      refine absurd (postprocess_grows hs (fun he => hinfo ?_) ha) (by rw [hqp]; exact lt_irrefl _)
      rw [← (postprocess_frame hpost).2.1]
      exact (noInfo_iff.2 he).1
    rw [postprocess_noInfo hno] at hpost
    obtain ⟨-, hbr⟩ := preprocess_some hpost
    obtain ⟨r', hr', hprog, hused, -, hframe⟩ := preprocess_spec _ hbr
    obtain rfl : r' = r := Option.some.inj (hr'.symm.trans hpost)
    refine ⟨hno, fun b tgt w hb hw => ?_, hlen⟩
    obtain ⟨wss, q, hq, -, hqp, hql, hqb, ht⟩ := h 0
    obtain ⟨w', t, hw', ht, hwt⟩ := ht b tgt (by rw [hqb, hframe]; exact hb)
    rw [hqp, hprog, List.getElem?_mapIdx] at hw'
    rw [hql, hused b tgt hb] at ht
    have hlink : w' = link w (p0.labels.getD tgt 0) := by
      change (((p0.program ++ [SMC_END])[b]?).map _) = some w' at hw'
      rw [hw] at hw'
      have hb' : (p0.append [SMC_END]).branches[b]? = some tgt := hb
      simp only [Option.map_some, linkAt, hb', Option.some.injEq] at hw'
      exact hw'.symm
    obtain rfl : p0.labels.getD tgt 0 = t := Option.some.inj ht
    have hfit : p0.labels.getD tgt 0 < 134217728 := by
      have := branch_target_lt w'
      have := target_range_le w'
      omega
    have hlt := branch_target_link w (show p0.labels.getD tgt 0 < 2147483648 by omega)
    rw [← hlink, hwt] at hlt
    -- the field's value is below its range, so the address is
    have hrange : p0.labels.getD tgt 0 < target_range w := by
      obtain ⟨n, hn⟩ := target_range_pow w
      rw [hn] at hlt ⊢
      rw [hlt]
      exact Nat.or_lt_two_pow (hn ▸ branch_target_lt w) (Nat.mod_lt _ (Nat.two_pow_pos n))
    rw [Nat.mod_eq_of_lt hrange] at hlt
    exact ⟨hrange, hlt.symm⟩
  · rintro ⟨hno, hfit, hlen⟩
    rw [postprocess_noInfo (p := p0.append [SMC_END]) hno] at hpost
    have hset := settled_of_preprocess (p := p0.append [SMC_END]) hno hpost hfit
    exact idempotent_of_settled ⟨hset.noInfo, hset.linked⟩ hlen

/-- Without a READ the second run changes nothing. -/
theorem get_inst_array_nopLoop : ∃ p, (build nopLoop).conclude = some p ∧ Idempotent p := by
  obtain ⟨p, hp⟩ := Option.isSome_iff_exists.1 (show (build nopLoop).conclude.isSome = true by decide)
  have hno : ((build nopLoop).append [SMC_END]).NoInfo := noInfo_iff.2 (ExtTreeMap.isEmpty_iff.1 (by decide))
  have hlen : p.program.length < 268435456 := by
    have h := show ((build nopLoop).conclude.map fun q => q.program.length) = some 3 by decide
    rw [hp, Option.map_some, Option.some.injEq] at h
    omega
  refine ⟨p, hp, (get_inst_array_idempotent_iff (reach_build nopLoop fun _ _ _ => trivial) hp).2
    ⟨hno, fun b tgt w hb hw => ?_, hlen⟩⟩
  obtain rfl : b = 1 := by
    have hk : ∀ x ∈ (build nopLoop).branches.toList, x.1 = 1 := by decide
    exact hk (b, tgt) (ExtTreeMap.mem_toList_iff_getElem?_eq_some.2 hb)
  obtain rfl : "L" = tgt := Option.some.inj ((show (build nopLoop).branches[1]? = some "L" by decide).symm.trans hb)
  cases hw
  decide

/-- One READ: the second run inserts two more INFO words. -/
theorem get_inst_array_inserts_again :
    ¬ ∀ p0 p, Reach (fun _ _ => True) p0 → p0.conclude = some p → Idempotent p := by
  intro h
  have hc : (build oneRead).conclude.isSome = true := by decide
  obtain ⟨p, hp⟩ := Option.isSome_iff_exists.1 hc
  obtain ⟨wss, q, hq, hws, -⟩ := h _ p (reach_build oneRead fun _ _ _ => trivial) hp 1
  have hlen : ((build oneRead).conclude.bind fun p => (p.get_times 1).map fun r =>
      (p.get_inst_seq.length, r.1.map List.length)) = some (3, [5]) := by decide
  rw [hp, Option.bind_some, hq, Option.map_some, Option.some.injEq, Prod.mk.injEq] at hlen
  obtain ⟨h3, h5⟩ := hlen
  cases wss with
  | nil => simp at h5
  | cons ws wss =>
    have hw : ws = p.get_inst_seq := hws ws (by simp)
    rw [List.map_cons, hw, h3] at h5
    simp at h5

/-! ## The concluded image of a program not linked yet -/

/-- Whether `conclude` puts an INFO word in front of pc `k`. -/
def concludeMark (p : Program) : Nat → Bool := (p.append [SMC_END]).infoMark

theorem conclude_spec {p : Program} (h : Linkable p) :
    ∃ p' r, p.conclude = some p' ∧ p' = { r with concluded := true } ∧ Processed (p.append [SMC_END]) r := by
  have ha := h.toRepInv.append [SMC_END]
  have hs : Sane (p.append [SMC_END]) := h.sane.append _
  obtain ⟨r, hr, hp⟩ := postprocess_spec _ ha.branch hs.warned_analysis
  refine ⟨_, r, ?_, rfl, hp⟩
  rw [conclude, add_inst_eq, emitted_END, hr]
  rfl

/-- The word at a recorded branch, in the final image. -/
theorem processed_branch {p r : Program} (h : Processed p r) {b : Nat} {tgt : String} {w : Inst}
    (hb : p.branches[b]? = some tgt) (hw : p.program[b]? = some w) :
    r.program[place p.infoMark b]? = some (link w (entry p.infoMark (p.labels.getD tgt 0))) := by
  have hlt : b < p.program.length := (List.getElem?_eq_some_iff.1 hw).1
  rw [h.program]
  refine (getElem?_place _ _ (by rw [List.length_mapIdx]; exact hlt)).trans ?_
  rw [List.getElem?_mapIdx, hw]
  simp [retarget, hb]

/-- A branch left by `add_branch` is linked to its label's address. -/
theorem conclude_branch_link {p p' : Program} (h : Linkable p) (hc : p.conclude = some p') {b : Nat} {tgt : String}
    (hb : p.branches[b]? = some tgt) :
    ∃ bt rs1 rs2, rs1 < 16 ∧ rs2 < 16 ∧ p.program[b]? = some (place_holder bt rs1 rs2) ∧
      p'.program[place p.concludeMark b]? =
        some (link (place_holder bt rs1 rs2) (entry p.concludeMark (p.labels.getD tgt 0))) := by
  obtain ⟨p'', r, hc', rfl, hr⟩ := conclude_spec h
  obtain rfl := Option.some.inj (hc'.symm.trans hc)
  obtain ⟨w, hw, bt, rs1, rs2, h1, h2, rfl⟩ := h.holder b tgt hb
  have hw' : (p.append [SMC_END]).program[b]? = some (place_holder bt rs1 rs2) :=
    (List.getElem?_append_left (List.getElem?_eq_some_iff.1 hw).1).trans hw
  have hbr : (p.append [SMC_END]).branches[b]? = some tgt := hb
  exact ⟨bt, rs1, rs2, h1, h2, hw, processed_branch hr hbr hw'⟩

/-- In an image the target field can address, that address is its target. -/
theorem conclude_branch {p p' : Program} (h : Linkable p) (hc : p.conclude = some p')
    (hlen : p'.program.length < 524288) {b : Nat} {tgt : String} (hb : p.branches[b]? = some tgt) :
    ∃ bt rs1 rs2, rs1 < 16 ∧ rs2 < 16 ∧ p.program[b]? = some (place_holder bt rs1 rs2) ∧
      p'.program[place p.concludeMark b]? =
        some (branch_word bt rs1 rs2 (BitVec.ofNat 32 (entry p.concludeMark (p.labels.getD tgt 0)))) ∧
      branch_target (branch_word bt rs1 rs2 (BitVec.ofNat 32 (entry p.concludeMark (p.labels.getD tgt 0)))) =
        entry p.concludeMark (p.labels.getD tgt 0) := by
  obtain ⟨bt, rs1, rs2, h1, h2, hw, hbr⟩ := conclude_branch_link h hc hb
  obtain ⟨p'', r, hc', rfl, hr⟩ := conclude_spec h
  obtain rfl := Option.some.inj (hc'.symm.trans hc)
  have haddr : entry p.concludeMark (p.labels.getD tgt 0) < 524288 := by
    have hle : entry p.concludeMark (p.labels.getD tgt 0) ≤ entry p.concludeMark (p.program.length + 1) :=
      entry_le_iff.2 ((h.toRepInv.label_getD_le tgt).trans (Nat.le_succ _))
    have hl : r.program.length = entry p.concludeMark (p.program.length + 1) := by
      rw [length_processed hr]
      simp [concludeMark, append]
    change r.program.length < 524288 at hlen
    omega
  have hrange := le_target_range (place_holder bt rs1 rs2)
  refine ⟨bt, rs1, rs2, h1, h2, hw, ?_, ?_⟩
  · rw [← link_place_holder h1 h2]
    exact hbr
  · rw [← link_place_holder h1 h2, branch_target_link _ (by omega), branch_target_place_holder h1 h2,
      Nat.zero_or, Nat.mod_eq_of_lt (by omega)]

/-! ## Two programs in one -/

/-- In the image `p'` of `self.add_below p`, every branch of either program has
as target where control enters its own program's label: the instruction there,
or the INFO word directly in front of it. -/
def LinksRight (self p p' : Program) : Prop :=
  let mark := (self.add_below p).concludeMark
  (∀ (b : Nat) tgt t, self.branches[b]? = some tgt → self.labels[tgt]? = some t →
    ∃ w, p'.program[place mark b]? = some w ∧ branch_target w = entry mark t) ∧
  (∀ (b : Nat) tgt t, p.branches[b]? = some tgt → p.labels[tgt]? = some t →
    ∃ w, p'.program[place mark (b + self.program.length)]? = some w ∧
      branch_target w = entry mark (t + self.program.length))

/-- The label of a branch of `self` that `p` defines too stands at the end of
`self` and at the start of `p`, so that both names mean one address. -/
def NoCapture (self p : Program) : Prop :=
  ∀ (b : Nat) tgt t t', self.branches[b]? = some tgt → self.labels[tgt]? = some t → p.labels[tgt]? = some t' →
    t = self.program.length ∧ t' = 0

theorem linkable_add_below {self p : Program} (hs : Linkable self) (hp : Linkable p) : Linkable (self.add_below p) :=
  ⟨hs.toRepInv.add_below hp.toRepInv, hs.warnings, hs.holder.add_below hp.holder hs.spc_eq⟩

section
variable {self p : Program}

/-- A branch of `p`, moved behind `self`. -/
theorem add_below_branch_right {b : Nat} {tgt : String} (hb : p.branches[b]? = some tgt) :
    (self.add_below p).branches[b + self.spc]? = some tgt :=
  MapFold.getElem?_rebuild_of (m := p.branches) (k := fun pc _ => pc + self.spc) (v := fun _ tgt => tgt)
    (fun a b a' b' ha ha' e => by
      obtain rfl : a = a' := by omega
      exact Option.some.inj (ha.symm.trans ha')) hb

/-- A branch of `self` stays where it is. -/
theorem add_below_branch_left (hs : RepInv self) {b : Nat} {tgt : String} (hb : self.branches[b]? = some tgt) :
    (self.add_below p).branches[b]? = some tgt := by
  refine (MapFold.getElem?_rebuild_of_not (m := p.branches) (k := fun pc _ => pc + self.spc)
    (v := fun _ tgt => tgt) fun a b' _ e => ?_).trans hb
  obtain ⟨w, hw, -⟩ := hs.branch b tgt hb
  have := (List.getElem?_eq_some_iff.1 hw).1
  have := hs.spc_eq
  omega

/-- A label of `p` moves along, whatever `self` called by its name. -/
theorem add_below_label_right {tgt : String} {t : Nat} (ht : p.labels[tgt]? = some t) :
    (self.add_below p).labels.getD tgt 0 = t + self.spc :=
  getD_of_getElem? (MapFold.getElem?_rebuild_of (m := p.labels) (k := fun name _ => name)
    (v := fun _ pc => pc + self.spc)
    (fun a b a' b' ha ha' (e : a = a') => by subst e; rw [Option.some.inj (ha.symm.trans ha')]) ht)

theorem add_below_label_left {tgt : String} {t : Nat} (ht : self.labels[tgt]? = some t)
    (hp : p.labels[tgt]? = none) : (self.add_below p).labels.getD tgt 0 = t := by
  refine getD_of_getElem? ((MapFold.getElem?_rebuild_of_not (m := p.labels) (k := fun name _ => name)
    (v := fun _ pc => pc + self.spc) fun a b ha (e : a = tgt) => ?_).trans ht)
  subst e
  rw [hp] at ha
  cases ha

end

/-- After `add_below` every branch still reaches its own label if and only if
`p` redefines no label a branch of `self` uses, other than with the same
address. -/
theorem add_below_links_iff {self p : Program} (hs : Unlinked self) (hp : Unlinked p) :
    ∃ p', (self.add_below p).conclude = some p' ∧
      (p'.program.length < 524288 → (LinksRight self p p' ↔ NoCapture self p)) := by
  have hs := linkable_of_unlinked hs
  have hp := linkable_of_unlinked hp
  have hspc := hs.spc_eq
  obtain ⟨p', -, hc, -⟩ := conclude_spec (linkable_add_below hs hp)
  refine ⟨p', hc, fun hlen => ?_⟩
  have hbranch {b : Nat} {tgt : String} (hb : (self.add_below p).branches[b]? = some tgt) :=
    conclude_branch (linkable_add_below hs hp) hc hlen hb
  set mark := (self.add_below p).concludeMark with hmark
  constructor
  · rintro ⟨hleft, -⟩ b tgt t t' hb ht ht'
    obtain ⟨bt, rs1, rs2, -, -, -, hw, htgt⟩ := hbranch (add_below_branch_left hs.toRepInv hb)
    obtain ⟨w, hw', hwt⟩ := hleft b tgt t hb ht
    obtain rfl := Option.some.inj (hw'.symm.trans hw)
    rw [hwt, add_below_label_right ht'] at htgt
    have he : t = t' + self.spc := entry_inj htgt
    have := hs.label_le tgt t ht
    omega
  · intro h
    refine ⟨fun b tgt t hb ht => ?_, fun b tgt t hb ht => ?_⟩
    · obtain ⟨bt, rs1, rs2, -, -, -, hw, htgt⟩ := hbranch (add_below_branch_left hs.toRepInv hb)
      refine ⟨_, hw, htgt.trans (congrArg _ ?_)⟩
      cases ht' : p.labels[tgt]? with
      | none => exact add_below_label_left ht ht'
      | some t' =>
        obtain ⟨h1, h2⟩ := h b tgt t t' hb ht ht'
        rw [add_below_label_right ht']
        omega
    · obtain ⟨bt, rs1, rs2, -, -, -, hw, htgt⟩ := hbranch (add_below_branch_right hb)
      rw [hspc] at hw
      refine ⟨_, hw, htgt.trans (congrArg _ ?_)⟩
      rw [add_below_label_right ht, hspc]

/-- The loop of `nopLoop`, under another name. -/
def otherLoop : List Call := [.add_label "M", .add_inst all_nops, .add_branch .BL 1 2 "M"]

theorem unlinked_loop (name : String) :
    Unlinked (build [.add_label name, .add_inst all_nops, .add_branch .BL 1 2 name]) := by
  apply reach_build _
  intro p c hc
  simp only [List.mem_cons, List.not_mem_nil, or_false] at hc
  rcases hc with rfl | rfl | rfl <;> rintro _ _ _ _ ⟨⟩
  decide

theorem loops_link : ∃ p', ((build nopLoop).add_below (build otherLoop)).conclude = some p' ∧
    LinksRight (build nopLoop) (build otherLoop) p' := by
  obtain ⟨p', hc, h⟩ := add_below_links_iff (unlinked_loop "L") (unlinked_loop "M")
  refine ⟨p', hc, (h ?_).2 ?_⟩
  · have hlen : (((build nopLoop).add_below (build otherLoop)).conclude.map fun p' => p'.program.length) = some 5 := by
      decide
    rw [show ((build nopLoop).add_below (build otherLoop)).conclude = some p' from hc, Option.map_some] at hlen
    have := Option.some.inj hlen
    omega
  · intro b tgt t t' hb ht ht'
    exfalso
    have hL : ∀ x ∈ (build nopLoop).labels.toList, x.1 = "L" := by decide
    have hM : ∀ x ∈ (build otherLoop).labels.toList, x.1 = "M" := by decide
    have eL := hL (tgt, t) (ExtTreeMap.mem_toList_iff_getElem?_eq_some.2 ht)
    have eM := hM (tgt, t') (ExtTreeMap.mem_toList_iff_getElem?_eq_some.2 ht')
    dsimp only at eL eM
    rw [eL] at eM
    exact absurd eM (by decide)

/-- The same loop twice: the first copy's branch jumps into the second. -/
theorem second_copy_captures : ¬ ∀ self p p', Unlinked self → Unlinked p →
    (self.add_below p).conclude = some p' → LinksRight self p p' := by
  intro h
  have hsome : ((build nopLoop).add_below (build nopLoop)).conclude.isSome = true := by decide
  obtain ⟨p', hc⟩ := Option.isSome_iff_exists.1 hsome
  obtain ⟨w, hw, ht⟩ := (h _ _ p' (unlinked_loop "L") (unlinked_loop "L") hc).1 1 "L" 0 (by decide) (by decide)
  have hword : (((build nopLoop).add_below (build nopLoop)).conclude.bind fun p' =>
      p'.program[place ((build nopLoop).add_below (build nopLoop)).concludeMark 1]?.map branch_target) = some 2 := by
    decide
  rw [hc, Option.bind_some] at hword
  rw [show (build [.add_label "L", .add_inst all_nops, .add_branch .BL 1 2 "L"]) = build nopLoop from rfl] at hw ht
  rw [hw, Option.map_some, ht, entry_zero] at hword
  exact absurd (Option.some.inj hword) (by decide)

end Program

end DRAMBender
