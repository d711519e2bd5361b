import Mathlib
import DramBender.Builder
import DramBender.Lib.Files
/-!
# Saving and loading

`save_bin` writes the words to one file, behind their count, and the two maps
to another, line by line; the constructor `Program(fname)` reads them back. The
count is `spc`, the words come from a copy of the vector whose size is an `int`:
`save_load_iff` says when that is the same thing.
-/

namespace DRAMBender

open Std (ExtTreeMap)
open Files

/-- The contents of `fname.bin` and `fname.meta`. -/
structure SavedFiles where
  binFile : List (BitVec 8)
  metaFile : List Char

namespace Program

def label_line (label : String × Nat) : List Char := label.1.toList ++ ' ' :: Nat.toDigits 10 label.2

def branch_line (branch : Nat × String) : List Char := Nat.toDigits 10 branch.1 ++ ' ' :: branch.2.toList

/-- `none` where the copied array is read past its end. -/
def save_bin (p : Program) : Option SavedFiles := do
  let insts ← p.get_insts
  let no_insts := p.spc
  if insts.length < no_insts then none
  else
    some {
      binFile := toBytes 4 no_insts ++ (insts.take no_insts).flatMap fun i => toBytes 8 i.toNat
      metaFile := (p.labels.toList.flatMap fun label => label_line label ++ ['\n']) ++
        (['-', '\n'] ++ p.branches.toList.flatMap fun branch => branch_line branch ++ ['\n']) }

/-- The words of a file, as many as were announced. -/
def read_insts : Nat → List (BitVec 8) → Option (List Inst)
  | 0, _ => some []
  | n + 1, bs =>
    if bs.length < 8 then none
    else do
      let insts ← read_insts n (bs.drop 8)
      some (BitVec.ofNat 64 (ofBytes (bs.take 8)) :: insts)

/-- The variables of the loop over `fname.meta`. -/
structure MetaState where
  parseLabels : Bool := true
  labels : ExtTreeMap String Nat := ∅
  branches : ExtTreeMap Nat String := ∅

/-- An `int` stored as `uint`. -/
def to_uint (v : Int) : Nat := (v % 4294967296).toNat

/-- One iteration. The label lines end at a line `-`; label and target stand in
opposite order in the two halves. -/
def load_line (s : MetaState) (line : List Char) : Option MetaState :=
  if s.parseLabels then
    if line = ['-'] then some { s with parseLabels := false }
    else do
      let label := before_space line
      let target := after_space line
      let v ← stoi target
      some { s with labels := s.labels.insert (String.ofList label) (to_uint v) }
  else do
    let target := before_space line
    let label := after_space line
    let v ← stoi target
    some { s with branches := s.branches.insert (to_uint v) (String.ofList label) }

/-- `Program(fname)`. `none` for a short file, a negative count or an exception
of `stoi`. -/
def load (f : SavedFiles) : Option Program := do
  if f.binFile.length < 4 then none
  else
    let no_insts := (BitVec.ofNat 32 (ofBytes (f.binFile.take 4))).toInt
    if no_insts < 0 then none
    else
      let insts ← read_insts no_insts.toNat (f.binFile.drop 4)
      let s ← (getlines f.metaFile).foldlM load_line {}
      some { labels := s.labels, branches := s.branches, program := insts, spc := insts.length }

/-- Loading what `save_bin` wrote gives the same words, labels and branches. -/
def RoundTrip (p : Program) : Prop :=
  ∃ f q, p.save_bin = some f ∧ load f = some q ∧ q.program = p.program ∧ q.labels = p.labels ∧
    q.branches = p.branches

/-- No name holds a space or a line feed. -/
def GoodNames (p : Program) : Prop :=
  (∀ (name : String) t, p.labels[name]? = some t → ' ' ∉ name.toList ∧ '\n' ∉ name.toList) ∧
  ∀ (b : Nat) name, p.branches[b]? = some name → ' ' ∉ name.toList ∧ '\n' ∉ name.toList

/-! ## The words -/

theorem read_insts_flatMap (ws : List Inst) (rest : List (BitVec 8)) :
    read_insts ws.length ((ws.flatMap fun i => toBytes 8 i.toNat) ++ rest) = some ws := by
  induction ws with
  | nil => rfl
  | cons w ws ih =>
    rw [List.flatMap_cons, List.append_assoc, List.length_cons, read_insts, if_neg (by simp),
      List.drop_left' (length_toBytes 8 _), List.take_left' (length_toBytes 8 _), ih, ofBytes_toBytes]
    have hw : w.toNat % 256 ^ 8 = w.toNat := Nat.mod_eq_of_lt w.isLt
    rw [hw, BitVec.ofNat_toNat, BitVec.setWidth_eq]
    rfl

theorem read_insts_length {n : Nat} {bs : List (BitVec 8)} {ws : List Inst} (h : read_insts n bs = some ws) :
    ws.length = n := by
  induction n generalizing bs ws with
  | zero => cases h; rfl
  | succ n ih =>
    rw [read_insts] at h
    split_ifs at h
    obtain ⟨ws', hws, h⟩ := Option.bind_eq_some_iff.1 h
    cases h
    rw [List.length_cons, ih hws]

/-! ## The maps -/

theorem to_uint_ofNat {n : Nat} (h : n < 2147483648) : to_uint n = n := by
  rw [to_uint]
  omega

theorem not_mem_toDigits {c : Char} (h : c.isDigit = false) (n : Nat) : c ∉ Nat.toDigits 10 n := by
  intro hm
  rw [Nat.isDigit_of_mem_toDigits (by omega) (by omega) hm] at h
  cases h

theorem load_label_line {s : MetaState} (hs : s.parseLabels = true) {label : String × Nat}
    (hname : ' ' ∉ label.1.toList) (ht : label.2 < 2147483648) :
    load_line s (label_line label) = some { s with labels := s.labels.insert label.1 label.2 } := by
  have hne : label_line label ≠ ['-'] := by
    intro e
    have hm : ' ' ∈ label_line label := by simp [label_line]
    rw [e] at hm
    simp at hm
  rw [load_line, if_pos hs, if_neg hne]
  dsimp only
  rw [label_line, before_space_append hname, after_space_append hname, stoi_toDigits ht]
  simp [to_uint_ofNat ht]

theorem load_branch_line {s : MetaState} (hs : s.parseLabels = false) {branch : Nat × String}
    (hb : branch.1 < 2147483648) :
    load_line s (branch_line branch) = some { s with branches := s.branches.insert branch.1 branch.2 } := by
  have hsp : ' ' ∉ Nat.toDigits 10 branch.1 := not_mem_toDigits (by decide) _
  rw [load_line, if_neg (by simp [hs])]
  dsimp only
  rw [branch_line, before_space_append hsp, after_space_append hsp, stoi_toDigits hb]
  simp [to_uint_ofNat hb]

theorem load_label_lines (l : List (String × Nat)) (s : MetaState) (hs : s.parseLabels = true)
    (h : ∀ x ∈ l, ' ' ∉ x.1.toList ∧ x.2 < 2147483648) :
    (l.map label_line).foldlM load_line s =
      some { s with labels := l.foldl (fun labels x => labels.insert x.1 x.2) s.labels } := by
  induction l generalizing s with
  | nil => rfl
  | cons x l ih =>
    obtain ⟨hname, ht⟩ := h x (by simp)
    rw [List.map_cons, List.foldlM_cons, load_label_line hs hname ht]
    exact ih _ hs fun y hy => h y (by simp [hy])

theorem load_branch_lines (l : List (Nat × String)) (s : MetaState) (hs : s.parseLabels = false)
    (h : ∀ x ∈ l, x.1 < 2147483648) :
    (l.map branch_line).foldlM load_line s =
      some { s with branches := l.foldl (fun branches x => branches.insert x.1 x.2) s.branches } := by
  induction l generalizing s with
  | nil => rfl
  | cons x l ih =>
    rw [List.map_cons, List.foldlM_cons, load_branch_line hs (h x (by simp))]
    exact ih _ hs fun y hy => h y (by simp [hy])

/-- The text file gives back both maps. -/
theorem load_metaFile {p : Program} (hg : GoodNames p)
    (hl : ∀ (name : String) t, p.labels[name]? = some t → t < 2147483648)
    (hb : ∀ (b : Nat) name, p.branches[b]? = some name → b < 2147483648) :
    (getlines ((p.labels.toList.flatMap fun label => label_line label ++ ['\n']) ++
      (['-', '\n'] ++ p.branches.toList.flatMap fun branch => branch_line branch ++ ['\n']))).foldlM load_line {} =
      some { parseLabels := false, labels := p.labels, branches := p.branches } := by
  have hdig : ∀ n, '\n' ∉ Nat.toDigits 10 n := not_mem_toDigits (by decide)
  have hlines : ∀ x ∈ p.labels.toList, '\n' ∉ label_line x := by
    rintro ⟨name, t⟩ hx
    have := (hg.1 name t (ExtTreeMap.mem_toList_iff_getElem?_eq_some.1 hx)).2
    simp [label_line, this, hdig]
  have hblines : ∀ x ∈ p.branches.toList, '\n' ∉ branch_line x := by
    rintro ⟨b, name⟩ hx
    have := (hg.2 b name (ExtTreeMap.mem_toList_iff_getElem?_eq_some.1 hx)).2
    simp [branch_line, this, hdig]
  have hsplit := getlines_flatMap branch_line p.branches.toList hblines []
  rw [List.append_nil] at hsplit
  -- the line between the labels and the branches
  have hdash : getlines (['-', '\n'] ++ p.branches.toList.flatMap fun branch => branch_line branch ++ ['\n']) =
      ['-'] :: p.branches.toList.map branch_line := by
    change getlines (['-'] ++ '\n' :: p.branches.toList.flatMap fun branch => branch_line branch ++ ['\n']) = _
    rw [getlines_line (by simp), hsplit, getlines, List.append_nil]
  have hlabels := load_label_lines p.labels.toList {} rfl fun x hx => by
    have hx := ExtTreeMap.mem_toList_iff_getElem?_eq_some.1 hx
    exact ⟨(hg.1 x.1 x.2 hx).1, hl x.1 x.2 hx⟩
  have hbranches := load_branch_lines p.branches.toList { parseLabels := false, labels := p.labels } rfl
    fun x hx => hb x.1 x.2 (ExtTreeMap.mem_toList_iff_getElem?_eq_some.1 hx)
  rw [MapFold.foldl_insert_toList] at hlabels hbranches
  rw [getlines_flatMap label_line _ hlines, hdash, List.foldlM_append, hlabels]
  exact hbranches

/-! ## The round trip -/

theorem load_count {p : Program} (h : p.spc < 2147483648) (words : List (BitVec 8)) :
    (BitVec.ofNat 32 (ofBytes ((toBytes 4 p.spc ++ words).take 4))).toInt = p.spc := by
  rw [List.take_left' (length_toBytes 4 _), ofBytes_toBytes, BitVec.toInt_eq_toNat_cond, BitVec.toNat_ofNat]
  have h1 : p.spc % 256 ^ 4 = p.spc := Nat.mod_eq_of_lt (by omega)
  rw [h1, Nat.mod_eq_of_lt (by omega), if_pos (by omega)]

/-- Saving succeeds when the copy of the words does. -/
theorem save_bin_eq {p : Program} (hs : Sane p) : p.save_bin = if p.program.length < 268435456 then some
    { binFile := toBytes 4 p.spc ++ (p.program.take p.spc).flatMap fun i => toBytes 8 i.toNat
      metaFile := (p.labels.toList.flatMap fun label => label_line label ++ ['\n']) ++
        (['-', '\n'] ++ p.branches.toList.flatMap fun branch => branch_line branch ++ ['\n']) } else none := by
  rw [save_bin, get_insts_eq]
  split_ifs with hlen
  · rw [Option.bind_eq_bind, Option.bind_some, if_neg (by have := hs.spc_le; omega)]
  · rfl

theorem load_save {p : Program} {f : SavedFiles} (hs : Sane p) (hg : GoodNames p) (hlen : p.program.length < 268435456)
    (hspc : p.spc = p.program.length) (hf : p.save_bin = some f) :
    load f = some { labels := p.labels, branches := p.branches, program := p.program, spc := p.program.length } := by
  rw [save_bin_eq hs, if_pos hlen] at hf
  obtain rfl := Option.some.inj hf
  have hcount := load_count (p := p) (by omega) ((p.program.take p.spc).flatMap fun i => toBytes 8 i.toNat)
  have hmeta := load_metaFile hg (fun name t ht => by have := hs.label_le name t ht; omega)
    (fun b name hb => by have := hs.branch_lt b name hb; omega)
  have hwords := read_insts_flatMap p.program []
  rw [List.append_nil] at hwords
  rw [load, if_neg (by simp)]
  dsimp only
  rw [hcount, if_neg (by omega), Int.toNat_natCast, List.drop_left' (length_toBytes 4 _), hspc, List.take_length,
    hwords, hmeta]
  rfl

/-- Loading gives back the program if and only if the counter is the size of
the vector, and an `int` holds that size in bytes. -/
theorem save_load_iff {p : Program} (h : Reach (fun _ _ => True) p) (hg : GoodNames p) :
    RoundTrip p ↔ p.spc = p.program.length ∧ p.program.length < 268435456 := by
  have hs := sane_of_reach h
  constructor
  · rintro ⟨f, q, hf, hq, hprog, -⟩
    rw [save_bin_eq hs] at hf
    split_ifs at hf with hsize
    obtain rfl := Option.some.inj hf
    have hle := hs.spc_le
    rw [load, if_neg (by simp)] at hq
    dsimp only at hq
    rw [load_count (by omega), if_neg (by omega)] at hq
    obtain ⟨ws, hws, hq⟩ := Option.bind_eq_some_iff.1 hq
    obtain ⟨s, -, hq⟩ := Option.bind_eq_some_iff.1 hq
    cases hq
    have hread := read_insts_length hws
    rw [show ws = p.program from hprog, Int.toNat_natCast] at hread
    exact ⟨hread.symm, hsize⟩
  · rintro ⟨hspc, hlen⟩
    obtain ⟨f, hf⟩ : ∃ f, p.save_bin = some f := by
      rw [save_bin_eq hs, if_pos hlen]
      exact ⟨_, rfl⟩
    exact ⟨f, _, hf, load_save hs hg hlen hspc hf, rfl, rfl, rfl⟩

theorem save_load_nopLoop : RoundTrip (build nopLoop) := by
  refine (save_load_iff (reach_build nopLoop fun _ _ _ => trivial) ⟨fun name t ht => ?_, fun b name hb => ?_⟩).2
    (by decide)
  · have hk : ∀ x ∈ (build nopLoop).labels.toList, ' ' ∉ x.1.toList ∧ '\n' ∉ x.1.toList := by decide
    exact hk (name, t) (ExtTreeMap.mem_toList_iff_getElem?_eq_some.2 ht)
  · have hk : ∀ x ∈ (build nopLoop).branches.toList, ' ' ∉ x.2.toList ∧ '\n' ∉ x.2.toList := by decide
    exact hk (b, name) (ExtTreeMap.mem_toList_iff_getElem?_eq_some.2 hb)

/-- One READ, concluded: the END word is not saved. -/
theorem save_drops_end : ¬ ∀ p, Reach (fun _ _ => True) p → GoodNames p → RoundTrip p := by
  intro h
  have hc : ((build oneRead).conclude.map fun p => (p.labels.isEmpty, p.branches.isEmpty)) = some (true, true) := by
    decide
  obtain ⟨p, hp, he⟩ := Option.map_eq_some_iff.1 hc
  rw [Prod.mk.injEq, ExtTreeMap.isEmpty_iff, ExtTreeMap.isEmpty_iff] at he
  have hr : Reach (fun _ _ => True) p :=
    .step .conclude (reach_build oneRead fun _ _ _ => trivial) trivial hp
  have hg : GoodNames p := by
    refine ⟨fun name t ht => ?_, fun b name hb => ?_⟩
    · rw [he.1, ExtTreeMap.getElem?_empty] at ht; cases ht
    · rw [he.2, ExtTreeMap.getElem?_empty] at hb; cases hb
  obtain ⟨f, q, hf, hq, hprog, -⟩ := h p hr hg
  have hlen : ((build oneRead).conclude.bind fun p => p.save_bin.bind fun f => (load f).map fun q =>
      (q.program.length, p.program.length)) = some (2, 3) := by decide
  rw [hp, Option.bind_some, hf, Option.bind_some, hq, Option.map_some, Option.some.injEq, Prod.mk.injEq, hprog] at hlen
  omega

end Program

end DRAMBender
