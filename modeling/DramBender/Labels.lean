import Mathlib
import DramBender.ControlFlow
/-!
# Labels added never, or twice

`add_label` reports a second binding of a name and makes it all the same, and
`preprocess_branches` enters a missing name with address 0: a branch reaches the
first binding of its label if and only if the label was added, and never at two
pcs (`labels_resolved_iff`).
-/

namespace DRAMBender

open Std (ExtTreeMap)
open Insert

namespace Program

/-! ## Where labels are added -/

/-- The pcs the labels of `self.add_below p` were added at: a label of `p`
replaces one of `self` without a report. -/
def moved (spc : Nat) (adds adds' : String → List Nat) : String → List Nat := fun name =>
  if adds' name = [] then adds name else (adds' name).map (· + spc)

/-- `p` is built by the public operations, and `adds name` are the pcs `name`
was added at, in this order. -/
inductive Built : Program → (String → List Nat) → Prop
  | new : Built {} fun _ => []
  | add_label {p : Program} {adds : String → List Nat} (h : Built p adds) (name : String) :
    Built (p.add_label name) (Function.update adds name (adds name ++ [p.spc]))
  | step {p q : Program} {adds : String → List Nat} (op : Op) (h : Built p adds) (hg : Building p op)
    (hl : ∀ name, op ≠ .call (.add_label name)) (hq : p.run op = some q) : Built q adds
  | add_below {self p : Program} {adds adds' : String → List Nat} (hs : Built self adds) (hp : Built p adds') :
    Built (self.add_below p) (moved self.spc adds adds')

theorem unlinked_of_built {p : Program} {adds : String → List Nat} (h : Built p adds) : Unlinked p := by
  induction h with
  | new => exact .new
  | add_label _ name ih =>
    refine .step (.call (.add_label name)) ih ?_ rfl
    rintro _ _ _ _ ⟨⟩
  | step op _ hg _ hq ih => exact .step op ih hg hq
  | add_below _ _ ihs ihp => exact .add_below ihs ihp

/-- Every program no pass has touched has such a history. -/
theorem exists_built {p : Program} (h : Unlinked p) : ∃ adds, Built p adds := by
  induction h with
  | new => exact ⟨_, .new⟩
  | step op _ hg hq ih =>
    obtain ⟨adds, ih⟩ := ih
    by_cases hl : ∃ name, op = .call (.add_label name)
    · obtain ⟨name, rfl⟩ := hl
      cases hq
      exact ⟨_, ih.add_label name⟩
    · rw [not_exists] at hl
      exact ⟨_, ih.step op hg hl hq⟩
  | add_below _ _ ihs ihp =>
    obtain ⟨adds, ihs⟩ := ihs
    obtain ⟨adds', ihp⟩ := ihp
    exact ⟨_, ihs.add_below ihp⟩

/-! ## The label map -/

/-- The label map holds the last binding of every name, and bindings come in the
order of their pcs. -/
structure Tracked (p : Program) (adds : String → List Nat) : Prop where
  linkable : Linkable p
  bound : ∀ name : String, p.labels[name]? = (adds name).getLast?
  ordered : ∀ name, (adds name).Pairwise (· ≤ ·)
  le : ∀ name, ∀ t ∈ adds name, t ≤ p.spc

theorem call_le_spc (p : Program) (c : Call) : p.spc ≤ (p.call c).spc := by
  cases c with
  | add_inst i => rw [call, add_inst_eq]; exact Nat.le_add_right _ _
  | add_inst4 m1 m2 m3 m4 => exact Nat.le_succ _
  | add_branch bt rs1 rs2 tgt => rw [call, add_branch, add_inst_eq]; exact Nat.le_add_right _ _
  | pack_minprogram => rw [call, pack_minprogram, pack_loop_eq]; exact Nat.le_add_right _ _
  | _ => exact le_rfl

/-- What binds no label moves none. -/
theorem run_keeps_labels {p q : Program} {op : Op} (hg : Building p op) (hl : ∀ name, op ≠ .call (.add_label name))
    (hq : p.run op = some q) : (∀ name : String, q.labels[name]? = p.labels[name]?) ∧ p.spc ≤ q.spc := by
  cases op with
  | call c =>
    cases hq
    refine ⟨fun name => call_labels p c fun hc => hl name ?_, call_le_spc p c⟩
    rw [hc]
  | dump_registers =>
    rw [dump_registers_some hq]
    exact ⟨fun _ => rfl, Nat.le_add_right _ _⟩
  | conclude => exact hg.elim
  | get_inst_array => exact hg.elim

theorem add_below_labels (self p : Program) (name : String) : (self.add_below p).labels[name]? =
    match p.labels[name]? with
    | some t => some (t + self.spc)
    | none => self.labels[name]? := by
  cases ht : p.labels[name]? with
  | some t =>
    refine MapFold.getElem?_rebuild_of (m := p.labels) (k := fun name _ => name) (v := fun _ pc => pc + self.spc) ?_ ht
    intro a b a' b' ha ha' (e : a = a')
    subst e
    rw [Option.some.inj (ha.symm.trans ha')]
  | none =>
    refine MapFold.getElem?_rebuild_of_not (m := p.labels) (k := fun name _ => name) (v := fun _ pc => pc + self.spc) ?_
    intro a b ha (e : a = name)
    rw [e, ht] at ha
    cases ha

theorem Tracked.add_label {p : Program} {adds : String → List Nat} (h : Tracked p adds) (name : String) :
    Tracked (p.add_label name) (Function.update adds name (adds name ++ [p.spc])) := by
  have hbuilding : Building p (.call (.add_label name)) := by rintro _ _ _ _ ⟨⟩
  have hlinkable : Linkable (p.call (.add_label name)) := h.linkable.step hbuilding rfl
  refine ⟨hlinkable, fun n => ?_, fun n => ?_, fun n => ?_⟩
  · by_cases hn : n = name
    · subst hn
      rw [Function.update_self, List.getLast?_concat]
      exact ExtTreeMap.getElem?_insert_self
    · rw [Function.update_of_ne hn, ← h.bound n]
      exact MapFold.getElem?_insert_ne (Ne.symm hn)
  · by_cases hn : n = name
    · subst hn
      rw [Function.update_self, List.pairwise_append]
      refine ⟨h.ordered n, List.pairwise_singleton _ _, fun t ht u hu => ?_⟩
      rw [List.mem_singleton.1 hu]
      exact h.le n t ht
    · rw [Function.update_of_ne hn]
      exact h.ordered n
  · by_cases hn : n = name
    · subst hn
      rw [Function.update_self]
      intro t ht
      rcases List.mem_append.1 ht with ht | ht
      · exact h.le n t ht
      · exact (List.mem_singleton.1 ht).le
    · rw [Function.update_of_ne hn]
      exact h.le n

theorem Tracked.add_below {self p : Program} {adds adds' : String → List Nat} (hs : Tracked self adds) (hp : Tracked p adds') :
    Tracked (self.add_below p) (moved self.spc adds adds') := by
  refine ⟨linkable_add_below hs.linkable hp.linkable, fun name => ?_, fun name => ?_, fun name => ?_⟩
  · rw [add_below_labels, hp.bound name, moved]
    by_cases hn : adds' name = []
    · rw [if_pos hn, hn]
      exact hs.bound name
    · -- a label of `p` replaces the one of `self`
      rw [if_neg hn, List.getLast?_map, List.getLast?_eq_some_getLast hn]
      rfl
  · rw [moved]
    split_ifs
    · exact hs.ordered name
    · exact List.pairwise_map.2 ((hp.ordered name).imp fun htu => Nat.add_le_add_right htu _)
  · rw [moved]
    split_ifs
    · exact fun t ht => (hs.le name t ht).trans (Nat.le_add_right _ _)
    · intro t ht
      obtain ⟨u, hu, rfl⟩ := List.mem_map.1 ht
      have hle := hp.le name u hu
      change u + self.spc ≤ self.spc + p.spc
      omega

theorem tracked_of_built {p : Program} {adds : String → List Nat} (h : Built p adds) : Tracked p adds := by
  induction h with
  | new =>
    refine ⟨linkable_of_unlinked .new, fun name => ?_, fun _ => .nil, fun name t ht => ?_⟩
    · rw [ExtTreeMap.getElem?_empty]
      rfl
    · cases ht
  | add_label _ name ih => exact ih.add_label name
  | step op _ hg hl hq ih =>
    obtain ⟨hlabels, hspc⟩ := run_keeps_labels hg hl hq
    exact ⟨ih.linkable.step hg hq, fun name => (hlabels name).trans (ih.bound name), ih.ordered,
      fun name t ht => (ih.le name t ht).trans hspc⟩
  | add_below _ _ ihs ihp => exact ihs.add_below ihp

/-! ## Where branches go -/

/-- A branch word goes astray: without a label it goes to pc 0, with one it
goes elsewhere than to the first binding. -/
def Astray (mark : Nat → Bool) (first : Option Nat) (w : Inst) : Prop :=
  match first with
  | none => branch_target w = 0
  | some t => branch_target w ≠ entry mark t

/-- Bindings in order are all one if and only if the last is the first. -/
theorem getLast_eq_head_iff {l : List Nat} (hl : l.Pairwise (· ≤ ·)) {t u : Nat} (ht : l.head? = some t)
    (hu : l.getLast? = some u) : u = t ↔ ∀ a ∈ l, ∀ b ∈ l, a = b := by
  have htl : t ∈ l := List.mem_of_head? ht
  have hul : u ∈ l := List.mem_of_getLast? hu
  constructor
  · rintro rfl
    have heq : ∀ a ∈ l, a = u := by
      intro a ha
      -- the list is ascending, so that everything in it is between its ends
      have hlow : u ≤ a := by
        cases l with
        | nil => cases ha
        | cons x xs =>
          obtain rfl := Option.some.inj ht
          rcases List.mem_cons.1 ha with rfl | ha
          · exact le_rfl
          · exact List.rel_of_pairwise_cons hl ha
      have hhigh : a ≤ u := by
        obtain ⟨xs, rfl⟩ := List.getLast?_eq_some_iff.1 hu
        rcases List.mem_append.1 ha with ha | ha
        · exact (List.pairwise_append.1 hl).2.2 a ha u (List.mem_singleton_self u)
        · exact (List.mem_singleton.1 ha).le
      exact le_antisymm hhigh hlow
    intro a ha b hb
    rw [heq a ha, heq b hb]
  · intro h
    exact h u hul t htl

/-- The address a branch to `tgt` is linked to: the last binding's, and 0 where
the map enters the name. -/
def address (p : Program) (adds : String → List Nat) (tgt : String) : Nat :=
  entry p.concludeMark ((adds tgt).getLast?.getD 0)

theorem Tracked.address_eq {p : Program} {adds : String → List Nat} (h : Tracked p adds) (tgt : String) :
    entry p.concludeMark (p.labels.getD tgt 0) = address p adds tgt := by
  rw [address, ExtTreeMap.getD_eq_getD_getElem?, h.bound tgt]

/-- The address is the first binding's if and only if there is one binding. -/
theorem Tracked.address_iff {p : Program} {adds : String → List Nat} (h : Tracked p adds) (tgt : String) :
    (∃ t, (adds tgt).head? = some t ∧ address p adds tgt = entry p.concludeMark t) ↔
      adds tgt ≠ [] ∧ ∀ t ∈ adds tgt, ∀ u ∈ adds tgt, t = u := by
  have hordered := h.ordered tgt
  rw [address]
  cases hadds : adds tgt with
  | nil => simp
  | cons t ts =>
    rw [hadds] at hordered
    have hlast := List.getLast?_eq_some_getLast (List.cons_ne_nil t ts)
    rw [← getLast_eq_head_iff hordered rfl hlast, hlast, List.head?_cons, Option.getD_some]
    constructor
    · rintro ⟨u, hu, he⟩
      obtain rfl := Option.some.inj hu
      exact ⟨List.cons_ne_nil t ts, entry_inj he⟩
    · rintro ⟨-, he⟩
      exact ⟨t, rfl, by rw [he]⟩

/-- A branch whose target is the address, cut to its field, is not astray if and
only if that is the first binding's. -/
theorem not_astray_iff {p : Program} {adds : String → List Nat} {tgt : String} {w : Inst} {range : Nat}
    (hw : branch_target w = address p adds tgt % range) :
    ¬ Astray p.concludeMark (adds tgt).head? w ↔
      ∃ t, (adds tgt).head? = some t ∧ address p adds tgt % range = entry p.concludeMark t := by
  cases hadds : adds tgt with
  | nil =>
    -- the map enters the name with address 0
    have hzero : branch_target w = 0 := by simp [hw, address, hadds]
    simp [Astray, hzero]
  | cons t ts => simp [Astray, hw]

/-- `conclude` always marks the program as concluded. A branch does not go astray
if and only if its label was added, and the last binding's address, cut to the
target field, is the first one's; where the field holds the address, if and only
if the label was added, and never at two pcs. -/
theorem labels_resolved_iff {p : Program} {adds : String → List Nat} (h : Built p adds) {b : Nat} {tgt : String}
    (hb : p.branches[b]? = some tgt) :
    ∃ p' i w, p.conclude = some p' ∧ p'.concluded = true ∧ p.program[b]? = some i ∧
      p'.program[place p.concludeMark b]? = some w ∧
      (address p adds tgt < 2147483648 → (¬ Astray p.concludeMark (adds tgt).head? w ↔
        ∃ t, (adds tgt).head? = some t ∧ address p adds tgt % target_range i = entry p.concludeMark t)) ∧
      (address p adds tgt < 524288 → (¬ Astray p.concludeMark (adds tgt).head? w ↔
        adds tgt ≠ [] ∧ ∀ t ∈ adds tgt, ∀ u ∈ adds tgt, t = u)) := by
  have htracked := tracked_of_built h
  obtain ⟨p', r, hc, rfl, hr⟩ := conclude_spec htracked.linkable
  obtain ⟨bt, rs1, rs2, h1, h2, hi, hw⟩ := conclude_branch_link htracked.linkable hc hb
  rw [htracked.address_eq] at hw
  have htarget (haddr : address p adds tgt < 2147483648) :
      branch_target (link (place_holder bt rs1 rs2) (address p adds tgt)) =
        address p adds tgt % target_range (place_holder bt rs1 rs2) := by
    rw [branch_target_link _ haddr, branch_target_place_holder h1 h2, Nat.zero_or]
  refine ⟨_, _, _, hc, rfl, hi, hw, fun haddr => not_astray_iff (htarget haddr), fun haddr => ?_⟩
  rw [not_astray_iff (htarget (by omega)), Nat.mod_eq_of_lt (haddr.trans_le (le_target_range _))]
  exact htracked.address_iff tgt

theorem built_call {p : Program} {adds : String → List Nat} (h : Built p adds) {c : Call} (hl : ∀ name, c ≠ .add_label name)
    (hr : ∀ bt rs1 rs2 tgt, c = .add_branch bt rs1 rs2 tgt → rs1 < 16 ∧ rs2 < 16) : Built (p.call c) adds :=
  h.step (.call c) hr (fun name hc => hl name (Op.call.inj hc)) rfl

theorem built_word {p : Program} {adds : String → List Nat} (h : Built p adds) (i : Inst) : Built (p.add_inst i) adds :=
  built_call (c := .add_inst i) h (fun _ => nofun) (fun _ _ _ _ => nofun)

theorem built_branch {p : Program} {adds : String → List Nat} (h : Built p adds) (tgt : String) :
    Built (p.add_branch .BL 1 2 tgt) adds := by
  apply built_call (c := .add_branch .BL 1 2 tgt) h (fun _ => nofun)
  rintro _ _ _ _ ⟨⟩
  decide

/-- A loop over one word of NOPs. -/
theorem labels_resolved_nopLoop : ∃ p', (build nopLoop).conclude = some p' ∧ ∃ w,
    p'.program[place (build nopLoop).concludeMark 1]? = some w ∧ ¬ Astray (build nopLoop).concludeMark (some 0) w := by
  have hbuilt : Built (build nopLoop) (Function.update (fun _ => []) "L" ([] ++ [0])) :=
    built_branch (built_word (Built.new.add_label "L") all_nops) "L"
  have hbranch : (build nopLoop).branches[1]? = some "L" := by decide
  obtain ⟨p', i, w, hc, -, -, hw, -, h⟩ := labels_resolved_iff hbuilt hbranch
  rw [address, Function.update_self] at h
  exact ⟨p', hc, w, hw, (h (by decide)).2 ⟨by simp, by simp⟩⟩

/-- A branch to a label nobody adds. -/
def noLabel : List Call := [.add_inst all_nops, .add_branch .BL 1 2 "L"]

/-- A branch to a label added at pc 0 and at pc 1. -/
def twoLabels : List Call :=
  [.add_label "L", .add_inst all_nops, .add_label "L", .add_inst all_nops, .add_branch .BL 1 2 "L"]

/-- Where labels meet the condition, `conclude` leaves no branch astray. -/
def NeverAstray (cond : List Nat → Prop) : Prop :=
  ∀ p adds b tgt p' w, Built p adds → p.branches[(b : Nat)]? = some tgt → cond (adds tgt) → p.conclude = some p' →
    p'.concluded = true → p'.program[place p.concludeMark b]? = some w → ¬ Astray p.concludeMark (adds tgt).head? w

/-- A missing label sends its branch to pc 0, and a second binding sends it
there. -/
theorem labels_go_astray : ¬ NeverAstray (· = []) ∧ ¬ NeverAstray fun ts => ∃ t ∈ ts, ∃ u ∈ ts, t ≠ u := by
  constructor
  · intro h
    have hbuilt : Built (build noLabel) fun _ => [] := built_branch (built_word .new all_nops) "L"
    have hword : ((build noLabel).conclude.bind fun p' =>
        (p'.program[place (build noLabel).concludeMark 1]?).map fun w => (p'.concluded, branch_target w)) = some (true, 0) := by
      decide
    obtain ⟨p', hc, hword⟩ := Option.bind_eq_some_iff.1 hword
    obtain ⟨w, hw, hword⟩ := Option.map_eq_some_iff.1 hword
    rw [Prod.mk.injEq] at hword
    exact h _ _ 1 "L" p' w hbuilt (by decide) rfl hc hword.1 hw hword.2
  · intro h
    have hbuilt : Built (build twoLabels) (Function.update (Function.update (fun _ => []) "L" ([] ++ [0])) "L"
        ((Function.update (fun _ => []) "L" ([] ++ [0])) "L" ++ [1])) :=
      built_branch (built_word ((built_word (Built.new.add_label "L") all_nops).add_label "L") all_nops) "L"
    have hword : ((build twoLabels).conclude.bind fun p' =>
        (p'.program[place (build twoLabels).concludeMark 2]?).map fun w => (p'.concluded, branch_target w)) = some (true, 1) := by
      decide
    obtain ⟨p', hc, hword⟩ := Option.bind_eq_some_iff.1 hword
    obtain ⟨w, hw, hword⟩ := Option.map_eq_some_iff.1 hword
    rw [Prod.mk.injEq] at hword
    refine h _ _ 2 "L" p' w hbuilt (by decide) ?_ hc hword.1 hw ?_
    · simp
    · simp [Astray, hword.2]

end Program

end DRAMBender
