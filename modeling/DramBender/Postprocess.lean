import Mathlib
import DramBender.Analysis
import DramBender.Lib.Insert
/-!
# What the post-processing passes do

`insert_generated` puts every INFO word in front of its pc and moves labels and
branches along (`insert_generated_spec`); `preprocess_branches` sets the target
bits of every recorded branch (`preprocess_spec`). Together they give the
relocated image (`postprocess_spec`).
-/

namespace DRAMBender

open Std (ExtTreeMap)
open Insert

namespace Program

/-! ## Inserting the INFO words -/

/-- What `q` is once the words `ins` have been put into `p`. -/
structure Inserted (p : Program) (ins : Nat → Option Inst) (q : Program) : Prop where
  program : q.program = expand ins p.program
  branches : ∀ c tgt, q.branches[c]? = some tgt ↔ ∃ b, p.branches[b]? = some tgt ∧ place (marks ins) b = c
  label : ∀ (b : Nat) tgt, p.branches[b]? = some tgt → q.labels.getD tgt 0 = entry (marks ins) (p.labels.getD tgt 0)
  label_val : ∀ tgt t, q.labels[tgt]? = some t → t = entry (marks ins) (p.labels.getD tgt 0)
  frame : q = { p with program := q.program, labels := q.labels, branches := q.branches }

theorem getD_of_getElem? {m : ExtTreeMap String Nat} {tgt : String} {t : Nat} (h : m[tgt]? = some t) :
    m.getD tgt 0 = t := by
  rw [ExtTreeMap.getD_eq_getD_getElem?, h]
  rfl

theorem inserted_nil (p : Program) : Inserted p (fun _ => none) p := by
  refine ⟨(expand_none (fun _ => rfl) _).symm, fun c tgt => ?_, fun b tgt _ => (entry_none _).symm,
    fun tgt t h => ?_, rfl⟩
  · simp [place_none]
  · rw [entry_none, getD_of_getElem? h]

theorem n_branches_iff (q : Program) (K c : Nat) (tgt : String) :
    (q.n_branches K)[c]? = some tgt ↔ ∃ b, q.branches[b]? = some tgt ∧ (if b ≥ K then b + 1 else b) = c := by
  refine Iff.trans (MapFold.getElem?_rebuild_iff (m := q.branches) (k := fun pc _ => if pc ≥ K then pc + 1 else pc)
    (v := fun _ tgt => tgt) ?_) ?_
  · intro a tgt a' tgt' h h' e
    have : a = a' := by split_ifs at e <;> omega
    subst this
    exact Option.some.inj (h.symm.trans h')
  · constructor
    · rintro ⟨b, tgt, h, e, rfl⟩
      exact ⟨b, h, e⟩
    · rintro ⟨b, h, e⟩
      exact ⟨b, tgt, h, e, rfl⟩

theorem n_labels_iff (q : Program) (K : Nat) (tgt : String) (t : Nat) :
    (q.n_labels K)[tgt]? = some t ↔ ∃ b : Nat, q.branches[b]? = some tgt ∧
      (if q.labels.getD tgt 0 > K then q.labels.getD tgt 0 + 1 else q.labels.getD tgt 0) = t := by
  refine Iff.trans (MapFold.getElem?_rebuild_iff (m := q.branches) (k := fun _ tgt => tgt)
    (v := fun _ tgt => if q.labels.getD tgt 0 > K then q.labels.getD tgt 0 + 1 else q.labels.getD tgt 0) ?_) ?_
  · rintro a tgt a' tgt' - - rfl
    rfl
  · constructor
    · rintro ⟨b, tgt, h, rfl, e⟩
      exact ⟨b, h, e⟩
    · rintro ⟨b, h, e⟩
      exact ⟨b, tgt, h, rfl, e⟩

/-- One more INFO word, above the ones already in. -/
theorem inserted_one {p q : Program} {ins : Nat → Option Inst} (h : Inserted p ins q) {k : Nat} (v : Inst)
    (hins : ∀ j, k ≤ j → ins j = none) (hk : k < p.program.length) :
    Inserted p (Function.update ins k (some v)) (q.insert_one (entry (marks ins) k) v) := by
  have hm : marks ins k = false := by simp [marks, hins k le_rfl]
  have hshift : ∀ n, (if entry (marks ins) n > entry (marks ins) k then entry (marks ins) n + 1
      else entry (marks ins) n) = entry (Function.update (marks ins) k true) n := by
    intro n
    rw [entry_update hm]
    rcases Nat.lt_or_ge k n with hlt | hge
    · rw [if_pos (entry_lt hlt), if_pos hlt]
    · rw [if_neg (by simpa using entry_le_iff.2 hge), if_neg (by omega), Nat.add_zero]
  refine ⟨?_, fun c tgt => ?_, fun b tgt hb => ?_, fun tgt t ht => ?_, ?_⟩
  · rw [expand_update _ _ hk hins, ← h.program]
    rfl
  · have hcase : ∀ b, (if place (marks ins) b ≥ entry (marks ins) k then place (marks ins) b + 1
        else place (marks ins) b) = place (Function.update (marks ins) k true) b := by
      intro b
      rw [place_update hm]
      by_cases hkb : k ≤ b
      · rw [if_pos (entry_le_place_iff.2 hkb), if_pos hkb]
      · rw [if_neg (fun h' => hkb (entry_le_place_iff.1 h')), if_neg hkb, Nat.add_zero]
    rw [marks_update]
    refine (n_branches_iff q _ c tgt).trans ⟨?_, ?_⟩
    · rintro ⟨c', hc', rfl⟩
      obtain ⟨b, hb, rfl⟩ := (h.branches c' tgt).1 hc'
      exact ⟨b, hb, (hcase b).symm⟩
    · rintro ⟨b, hb, rfl⟩
      exact ⟨_, (h.branches _ tgt).2 ⟨b, hb, rfl⟩, hcase b⟩
  · have hq : q.branches[place (marks ins) b]? = some tgt := (h.branches _ tgt).2 ⟨b, hb, rfl⟩
    have hl := (n_labels_iff q (entry (marks ins) k) tgt _).2 ⟨_, hq, rfl⟩
    rw [h.label b tgt hb, hshift] at hl
    rw [marks_update]
    exact getD_of_getElem? hl
  · obtain ⟨c, hc, e⟩ := (n_labels_iff q _ tgt t).1 ht
    obtain ⟨b, hb, -⟩ := (h.branches c tgt).1 hc
    rw [h.label b tgt hb, hshift] at e
    rw [marks_update, e]
  · rw [insert_one, h.frame]

/-- The loop, for warnings in ascending order. -/
theorem insert_loop_spec {p q : Program} {ins : Nat → Option Inst} (h : Inserted p ins q) (l : List (Nat × Inst))
    (hl : l.Pairwise fun a b => a.1 < b.1) (hins : ∀ x ∈ l, ∀ j, x.1 ≤ j → ins j = none)
    (hlen : ∀ x ∈ l, x.1 < p.program.length) :
    Inserted p (MapFold.overwrite ins l)
      (insert_loop (l.map Prod.snd) (l.map fun x => entry (marks ins) x.1) q) := by
  induction l generalizing q ins with
  | nil => exact h
  | cons x l ih =>
    rw [List.pairwise_cons] at hl
    have hm : marks ins x.1 = false := by simp [marks, hins x (by simp) x.1 le_rfl]
    -- the keys left over move by the word just inserted
    have hkeys : (l.map fun y => entry (marks ins) y.1).map (· + 1) =
        l.map fun y => entry (marks (Function.update ins x.1 (some x.2))) y.1 := by
      rw [List.map_map]
      apply List.map_congr_left
      intro y hy
      rw [marks_update, entry_update hm, if_pos (hl.1 y hy)]
      rfl
    rw [List.map_cons, List.map_cons, insert_loop, hkeys, MapFold.overwrite, List.foldl_cons]
    refine ih (inserted_one h x.2 (hins x (by simp)) (hlen x (by simp))) hl.2 ?_ fun y hy => hlen y (by simp [hy])
    intro y hy j hj
    have := hl.1 y hy
    rw [Function.update_of_ne (by omega)]
    exact hins x (by simp) j (by omega)

/-- Every INFO word stands in front of its pc. -/
theorem insert_generated_spec (p : Program) (h : ∀ k w, p.warnings[k]? = some w → k < p.program.length) :
    Inserted p (fun k => p.warnings[k]?) p.insert_generated := by
  have hl : p.warnings.toList.Pairwise fun a b => a.1 < b.1 :=
    ExtTreeMap.ordered_keys_toList.imp fun h => Nat.compare_eq_lt.1 h
  have hloop := insert_loop_spec (inserted_nil p) p.warnings.toList hl (fun _ _ _ _ => rfl)
    (fun x hx => h x.1 x.2 (ExtTreeMap.mem_toList_iff_getElem?_eq_some.1 hx))
  rw [MapFold.overwrite_toList] at hloop
  simp only [entry_none] at hloop
  exact hloop

/-! ## Setting the targets -/

/-- The word at a branch's pc gets its label's address, the others stay. -/
def linkAt (branches : Nat → Option String) (labels : ExtTreeMap String Nat) (i : Nat) (w : Inst) : Inst :=
  match branches i with
  | some tgt => link w (labels.getD tgt 0)
  | none => w

theorem mapIdx_linkAt_none (labels : ExtTreeMap String Nat) (ws : List Inst) :
    ws.mapIdx (linkAt (fun _ => none) labels) = ws := by
  apply List.ext_getElem?
  intro i
  rw [List.getElem?_mapIdx]
  exact Option.map_id' (x := ws[i]?)

/-- What `r` is once the branches `l` of `q` have been resolved. -/
structure Resolved (q : Program) (l : List (Nat × String)) (r : Program) : Prop where
  program : r.program = q.program.mapIdx (linkAt (MapFold.overwrite (fun _ => none) l) q.labels)
  used : ∀ x ∈ l, r.labels[x.2]? = some (q.labels.getD x.2 0)
  unused : ∀ tgt, (∀ x ∈ l, x.2 ≠ tgt) → r.labels[tgt]? = q.labels[tgt]?
  frame : r = { q with program := r.program, labels := r.labels }

theorem resolved_labels {q r : Program} {l : List (Nat × String)} (h : Resolved q l r) (tgt : String) :
    r.labels.getD tgt 0 = q.labels.getD tgt 0 := by
  -- a name looked up before is in the map now, with the value it had
  by_cases hu : ∃ x ∈ l, x.2 = tgt
  · obtain ⟨x, hx, rfl⟩ := hu
    exact getD_of_getElem? (h.used x hx)
  · rw [ExtTreeMap.getD_eq_getD_getElem?, ExtTreeMap.getD_eq_getD_getElem?,
      h.unused tgt fun x hx e => hu ⟨x, hx, e⟩]

/-- One more branch, at a pc not resolved yet. -/
theorem resolve_step {q r : Program} {l : List (Nat × String)} (h : Resolved q l r) {pc : Nat} {tgt : String}
    {w : Inst} (hnew : ∀ x ∈ l, x.1 ≠ pc) (hw : q.program[pc]? = some w) (hbr : is_branch w = true) :
    ∃ r', r.resolve pc tgt = some r' ∧ Resolved q (l ++ [(pc, tgt)]) r' := by
  have hpc : MapFold.overwrite (fun _ => none) l pc = none := MapFold.overwrite_of_not hnew _
  have hword : r.program[pc]? = some w := by
    rw [h.program, List.getElem?_mapIdx, hw]
    simp [linkAt, hpc]
  have hsnoc : MapFold.overwrite (fun _ => none) (l ++ [(pc, tgt)]) =
      Function.update (MapFold.overwrite (fun _ => none) l) pc (some tgt) := by
    simp [MapFold.overwrite]
  refine ⟨_, by simp only [resolve, hword, Option.bind_eq_bind, Option.bind_some, hbr, if_true]; rfl, ?_, ?_, ?_, ?_⟩
  · rw [hsnoc, h.program, resolved_labels h]
    apply List.ext_getElem?
    intro i
    rw [List.getElem?_set, List.getElem?_mapIdx, List.getElem?_mapIdx, List.length_mapIdx]
    -- the word at the branch's pc, and the others
    by_cases hi : pc = i
    · subst hi
      have hlt : pc < q.program.length := (List.getElem?_eq_some_iff.1 hw).1
      rw [if_pos rfl, if_pos hlt, hw]
      simp [linkAt]
    · rw [if_neg hi]
      congr 1
      funext x
      simp only [linkAt, Function.update_of_ne (Ne.symm hi)]
  · intro x hx
    by_cases hx2 : tgt = x.2
    · subst hx2
      rw [MapFold.getElem?_insertIfNew_self, resolved_labels h]
    · rw [MapFold.getElem?_insertIfNew_ne hx2]
      rcases List.mem_append.1 hx with hx | hx
      · exact h.used x hx
      · rw [List.mem_singleton] at hx
        subst hx
        exact absurd rfl hx2
  · intro tgt' hu
    rw [MapFold.getElem?_insertIfNew_ne (hu (pc, tgt) (by simp))]
    exact h.unused tgt' fun x hx => hu x (by simp [hx])
  · rw [h.frame]

theorem resolve_loop {q r : Program} {done : List (Nat × String)} (h : Resolved q done r)
    (todo : List (Nat × String)) (hkeys : (done ++ todo).Pairwise fun a b => a.1 ≠ b.1)
    (hbr : ∀ x ∈ todo, ∃ w, q.program[x.1]? = some w ∧ is_branch w = true) :
    ∃ r', todo.foldlM (fun p x => p.resolve x.1 x.2) r = some r' ∧ Resolved q (done ++ todo) r' := by
  induction todo generalizing done r with
  | nil => exact ⟨r, rfl, by simpa using h⟩
  | cons x todo ih =>
    obtain ⟨w, hw, hb⟩ := hbr x (by simp)
    have hnew : ∀ y ∈ done, y.1 ≠ x.1 := fun y hy => (List.pairwise_append.1 hkeys).2.2 y hy x (by simp)
    obtain ⟨r1, hr1, h1⟩ := resolve_step h hnew hw hb
    obtain ⟨r', hr', h'⟩ := ih h1 (by simpa using hkeys) fun y hy => hbr y (by simp [hy])
    refine ⟨r', ?_, by simpa using h'⟩
    rw [List.foldlM_cons, hr1]
    exact hr'

theorem preprocess_spec (q : Program)
    (hbr : ∀ (b : Nat) tgt, q.branches[b]? = some tgt → ∃ w, q.program[b]? = some w ∧ is_branch w = true) :
    ∃ r, q.preprocess_branches = some r ∧
      r.program = q.program.mapIdx (linkAt (fun b => q.branches[b]?) q.labels) ∧
      (∀ (b : Nat) tgt, q.branches[b]? = some tgt → r.labels[tgt]? = some (q.labels.getD tgt 0)) ∧
      (∀ tgt, (∀ b : Nat, q.branches[b]? ≠ some tgt) → r.labels[tgt]? = q.labels[tgt]?) ∧
      r = { q with program := r.program, labels := r.labels } := by
  have h0 : Resolved q [] q :=
    ⟨(mapIdx_linkAt_none ..).symm, fun x hx => by simp at hx, fun _ _ => rfl, rfl⟩
  obtain ⟨r, hr, h⟩ := resolve_loop h0 q.branches.toList (MapFold.keys_distinct _)
    fun x hx => hbr x.1 x.2 (ExtTreeMap.mem_toList_iff_getElem?_eq_some.1 hx)
  rw [List.nil_append] at h
  refine ⟨r, ?_, ?_, fun b tgt hb => ?_, fun tgt hu => ?_, h.frame⟩
  · rw [preprocess_branches, ExtTreeMap.foldlM_eq_foldlM_toList]
    exact hr
  · rw [h.program, MapFold.overwrite_toList]
  · exact h.used (b, tgt) (ExtTreeMap.mem_toList_iff_getElem?_eq_some.2 hb)
  · refine h.unused tgt fun x hx e => hu x.1 ?_
    rw [← e]
    exact ExtTreeMap.mem_toList_iff_getElem?_eq_some.1 hx

/-! ## Both passes -/

/-- Whether the scan asks for an INFO word in front of pc `k`. -/
def infoMark (p : Program) : Nat → Bool := marks fun k => p.linear_analysis.warnings[k]?

/-- The word at pc `b` with its branch target at the label's new address. -/
def retarget (p : Program) (mark : Nat → Bool) (b : Nat) (w : Inst) : Inst :=
  match p.branches[b]? with
  | some tgt => link w (entry mark (p.labels.getD tgt 0))
  | none => w

theorem retarget_none {p : Program} {b : Nat} (h : p.branches[b]? = none) (mark : Nat → Bool) (w : Inst) :
    p.retarget mark b w = w := by
  unfold retarget
  rw [h]

theorem retarget_some {p : Program} {b : Nat} {tgt : String} (h : p.branches[b]? = some tgt) (mark : Nat → Bool) (w : Inst) :
    p.retarget mark b w = link w (entry mark (p.labels.getD tgt 0)) := by
  unfold retarget
  rw [h]

/-- What `r` is once `p` has been analysed, extended and linked. -/
structure Processed (p r : Program) : Prop where
  program : r.program =
    expand (fun k => p.linear_analysis.warnings[k]?) (p.program.mapIdx (p.retarget p.infoMark))
  branches : ∀ c tgt, r.branches[c]? = some tgt ↔ ∃ b, p.branches[b]? = some tgt ∧ place p.infoMark b = c
  label : ∀ (b : Nat) tgt, p.branches[b]? = some tgt →
    r.labels[tgt]? = some (entry p.infoMark (p.labels.getD tgt 0))
  label_val : ∀ tgt t, r.labels[tgt]? = some t → t = entry p.infoMark (p.labels.getD tgt 0)
  frame : r = { p.linear_analysis with program := r.program, labels := r.labels, branches := r.branches }

section
variable {p q : Program} (hi : Inserted p.linear_analysis (fun k => p.linear_analysis.warnings[k]?) q)
include hi

/-- A word of `p` is linked exactly when it was recorded. -/
theorem linkAt_place (i : Nat) (w : Inst) :
    linkAt (fun b => q.branches[b]?) q.labels (place p.infoMark i) w = p.retarget p.infoMark i w := by
  cases hb : p.branches[i]? with
  | some tgt =>
    have hc : q.branches[place p.infoMark i]? = some tgt := (hi.branches _ tgt).2 ⟨i, hb, rfl⟩
    rw [retarget_some hb, linkAt, hc]
    exact congrArg (link w) (hi.label i tgt hb)
  | none =>
    have hc : q.branches[place p.infoMark i]? = none := by
      by_contra hne
      obtain ⟨tgt, hc⟩ := Option.ne_none_iff_exists'.1 hne
      obtain ⟨b, hb', he⟩ := (hi.branches _ tgt).1 hc
      have hib : b = i := place_inj he
      subst hib
      have hnone : p.linear_analysis.branches[b]? = none := hb
      rw [hnone] at hb'
      cases hb'
    rw [retarget_none hb, linkAt, hc]

/-- An INFO word is no branch. -/
theorem linkAt_entry {k : Nat} (hm : p.infoMark k = true) (w : Inst) :
    linkAt (fun b => q.branches[b]?) q.labels (entry p.infoMark k) w = w := by
  have hc : q.branches[entry p.infoMark k]? = none := by
    by_contra hne
    obtain ⟨tgt, hc⟩ := Option.ne_none_iff_exists'.1 hne
    obtain ⟨b, -, he⟩ := (hi.branches _ tgt).1 hc
    exact place_ne_entry hm he
  rw [linkAt, hc]

end

theorem postprocess_spec (p : Program)
    (hbr : ∀ (b : Nat) tgt, p.branches[b]? = some tgt → ∃ w, p.program[b]? = some w ∧ is_branch w = true)
    (hinfo : ∀ (k : Nat) w, p.linear_analysis.warnings[k]? = some w → k < p.program.length) :
    ∃ r, p.linear_analysis.insert_generated.preprocess_branches = some r ∧ Processed p r := by
  have hi := insert_generated_spec p.linear_analysis hinfo
  set q := p.linear_analysis.insert_generated
  have hq : ∀ (c : Nat) tgt, q.branches[c]? = some tgt → ∃ w, q.program[c]? = some w ∧ is_branch w = true := by
    intro c tgt hc
    obtain ⟨b, hb, rfl⟩ := (hi.branches c tgt).1 hc
    obtain ⟨w, hw, hwb⟩ := hbr b tgt hb
    refine ⟨w, ?_, hwb⟩
    rw [hi.program]
    exact (getElem?_place _ _ (List.getElem?_eq_some_iff.1 hw).1).trans hw
  obtain ⟨r, hr, hprog, hused, hunused, hframe⟩ := preprocess_spec q hq
  have hbranches : ∀ c tgt, q.branches[c]? = some tgt ↔ ∃ b, p.branches[b]? = some tgt ∧ place p.infoMark b = c :=
    hi.branches
  refine ⟨r, hr, ?_, ?_, fun b tgt hb => ?_, fun tgt t ht => ?_, ?_⟩
  · rw [hprog, hi.program]
    refine mapIdx_expand _ _ _ _ (fun i x _ => linkAt_place hi i x) (fun k v _ hv => linkAt_entry hi ?_ v)
    simp [infoMark, marks, hv]
  · intro c tgt
    rw [hframe]
    exact hbranches c tgt
  · obtain hc := (hbranches _ tgt).2 ⟨b, hb, rfl⟩
    rw [hused _ tgt hc]
    exact congrArg some (hi.label b tgt hb)
  · by_cases hu : ∃ c : Nat, q.branches[c]? = some tgt
    · obtain ⟨c, hc⟩ := hu
      obtain ⟨b, hb, -⟩ := (hbranches c tgt).1 hc
      rw [hused c tgt hc] at ht
      exact (Option.some.inj ht).symm.trans (hi.label b tgt hb)
    · rw [hunused tgt fun c hc => hu ⟨c, hc⟩] at ht
      exact hi.label_val tgt t ht
  · rw [hframe, hi.frame]

/-! ## What the passes never change -/

theorem insert_loop_frame (warn_values : List Inst) (warn_keys : List Nat) (p : Program) :
    (insert_loop warn_values warn_keys p).spc = p.spc ∧
      (insert_loop warn_values warn_keys p).warnings = p.warnings ∧
      p.program.length ≤ (insert_loop warn_values warn_keys p).program.length := by
  induction warn_values generalizing warn_keys p with
  | nil => exact ⟨by simp [insert_loop], by simp [insert_loop], by simp [insert_loop]⟩
  | cons v vs ih =>
    cases warn_keys with
    | nil => exact ⟨rfl, rfl, le_rfl⟩
    | cons k ks =>
      obtain ⟨h1, h2, h3⟩ := ih (ks.map (· + 1)) (p.insert_one k v)
      refine ⟨h1, h2, le_trans ?_ h3⟩
      rw [insert_one, List.length_insertIdx]
      split_ifs <;> omega

theorem resolve_some {p q : Program} {pc : Nat} {tgt : String} (h : p.resolve pc tgt = some q) :
    ∃ w, p.program[pc]? = some w ∧ is_branch w = true ∧
      q = { p with labels := p.labels.insertIfNew tgt 0,
                   program := p.program.set pc (link w (p.labels.getD tgt 0)) } := by
  cases hw : p.program[pc]? with
  | none => simp [resolve, hw] at h
  | some w =>
    cases hb : is_branch w with
    | false => simp [resolve, hw, hb] at h
    | true =>
      simp only [resolve, hw, Option.bind_eq_bind, Option.bind_some, hb, if_true, Option.some.injEq] at h
      exact ⟨w, rfl, hb, h.symm⟩

theorem resolve_loop_some {p q : Program} (l : List (Nat × String)) (hkeys : l.Pairwise fun a b => a.1 ≠ b.1)
    (h : l.foldlM (fun p x => p.resolve x.1 x.2) p = some q) :
    (q.spc = p.spc ∧ q.warnings = p.warnings ∧ q.program.length = p.program.length) ∧
      ∀ x ∈ l, ∃ w, p.program[x.1]? = some w ∧ is_branch w = true := by
  induction l generalizing p with
  | nil =>
    cases h
    exact ⟨⟨rfl, rfl, rfl⟩, by simp⟩
  | cons x l ih =>
    rw [List.pairwise_cons] at hkeys
    rw [List.foldlM_cons] at h
    obtain ⟨p1, h1, h⟩ := Option.bind_eq_some_iff.1 h
    obtain ⟨w, hw, hb, rfl⟩ := resolve_some h1
    obtain ⟨⟨e1, e2, e3⟩, hl⟩ := ih hkeys.2 h
    refine ⟨⟨e1, e2, by rw [e3, List.length_set]⟩, fun y hy => ?_⟩
    rcases List.mem_cons.1 hy with rfl | hy
    · exact ⟨w, hw, hb⟩
    · obtain ⟨w', hw', hb'⟩ := hl y hy
      rw [List.getElem?_set_ne (hkeys.1 y hy)] at hw'
      exact ⟨w', hw', hb'⟩

/-- The assertion of `preprocess_branches` passed for every recorded branch. -/
theorem preprocess_some {q r : Program} (h : q.preprocess_branches = some r) :
    (r.spc = q.spc ∧ r.warnings = q.warnings ∧ r.program.length = q.program.length) ∧
      ∀ (b : Nat) tgt, q.branches[b]? = some tgt → ∃ w, q.program[b]? = some w ∧ is_branch w = true := by
  rw [preprocess_branches, ExtTreeMap.foldlM_eq_foldlM_toList] at h
  obtain ⟨hf, hl⟩ := resolve_loop_some _ (MapFold.keys_distinct _) h
  exact ⟨hf, fun b tgt hb => hl (b, tgt) (ExtTreeMap.mem_toList_iff_getElem?_eq_some.2 hb)⟩

theorem postprocess_frame {p r : Program}
    (h : p.linear_analysis.insert_generated.preprocess_branches = some r) :
    r.spc = p.spc ∧ r.warnings = p.linear_analysis.warnings ∧ p.program.length ≤ r.program.length := by
  obtain ⟨⟨e1, e2, e3⟩, -⟩ := preprocess_some h
  obtain ⟨i1, i2, i3⟩ := insert_loop_frame (p.linear_analysis.warnings.toList.map Prod.snd)
    (p.linear_analysis.warnings.toList.map Prod.fst) p.linear_analysis
  exact ⟨e1.trans i1, e2.trans i2, e3 ▸ i3⟩

/-! ## Nothing to insert -/

/-- No warning is left over, and the scan finds none. -/
def NoInfo (p : Program) : Prop := p.warnings = ∅ ∧ ∀ k w, ¬ Announced p.program k w

theorem linear_analysis_noInfo {p : Program} (h : p.NoInfo) : p.linear_analysis = p := by
  have hw : p.linear_analysis.warnings = ∅ := by
    apply ExtTreeMap.ext_getElem?
    intro k
    rw [ExtTreeMap.getElem?_empty]
    by_contra hne
    obtain ⟨w, hk⟩ := Option.ne_none_iff_exists'.1 hne
    rcases (analysis_spec p k w).1 hk with ha | ⟨hk, -⟩
    · exact h.2 k w ha
    · rw [h.1, ExtTreeMap.getElem?_empty] at hk
      cases hk
  have he : p.linear_analysis = { p with warnings := p.linear_analysis.warnings } := rfl
  rw [he, hw, ← h.1]

theorem noInfo_iff {p : Program} : p.NoInfo ↔ p.linear_analysis.warnings = ∅ := by
  constructor
  · intro h
    rw [linear_analysis_noInfo h, h.1]
  · intro h
    have hno : ∀ k w, ¬ Announced p.program k w := by
      intro k w ha
      have hk := (analysis_spec p k w).2 (.inl ha)
      rw [h, ExtTreeMap.getElem?_empty] at hk
      cases hk
    refine ⟨ExtTreeMap.ext_getElem? fun k => ?_, hno⟩
    rw [ExtTreeMap.getElem?_empty]
    by_contra hne
    obtain ⟨w, hk⟩ := Option.ne_none_iff_exists'.1 hne
    have hk' := (analysis_spec p k w).2 (.inr ⟨hk, hno k⟩)
    rw [h, ExtTreeMap.getElem?_empty] at hk'
    cases hk'

theorem postprocess_noInfo {p : Program} (h : p.NoInfo) :
    p.linear_analysis.insert_generated.preprocess_branches = p.preprocess_branches := by
  have ht : p.warnings.toList = [] := ExtTreeMap.toList_eq_nil_iff.2 h.1
  rw [linear_analysis_noInfo h, insert_generated, ht]
  rfl

end Program

end DRAMBender
