import Mathlib
import DramBender.Program
import DramBender.Lib.Files
/-!
# Memory images

`save_coe` and `save_coe_here` write the words of a program as memory images for
the simulation: `.coe` files, where the last word ends with a semicolon, and a
`.mif` file. Read back, the files give the words of the program, but for a `.coe`
file without words, which has no end (`images_read_back`).
-/

namespace DRAMBender

open Files

namespace Program

/-! ## Writing -/

/-- `std::bitset<64>`, printed. -/
def bits64 (inst : Inst) : List Char := (List.range 64).map fun i => if inst.getMsbD i then '1' else '0'

def coe_header : List Char := "memory_initialization_radix=2;\nmemory_initialization_vector=\n".toList

/-- The loop over the words. -/
def coe_words (insts : List Inst) : List Char :=
  insts.zipIdx.flatMap fun x => bits64 x.1 ++ if x.2 = insts.length - 1 then [';'] else [',', '\n']

/-- `program.coe`, and the program after `get_inst_array`. -/
def save_coe_here (p : Program) : Option (List Char × Program) := do
  let (insts, p) ← p.get_inst_array
  some (coe_header ++ coe_words insts, p)

/-- The files `save_coe` writes. -/
structure Images where
  coeFile : List Char
  coeFile2 : List Char
  mifFile : List Char

def save_coe (p : Program) : Option (Images × Program) := do
  let (insts, p) ← p.get_inst_array
  some (⟨coe_header ++ coe_words insts, coe_header ++ coe_words insts, insts.flatMap fun inst => bits64 inst ++ ['\n']⟩, p)

/-! ## Reading -/

/-- A word of a memory in radix 2. -/
def read_bits (s : List Char) : Option Inst :=
  if s.length = 64 ∧ ∀ c ∈ s, c = '0' ∨ c = '1' then some ((BitVec.ofBoolListBE (s.map fun c => c = '1')).setWidth 64)
  else none

/-- The words of a vector: a comma stands behind each but the last. -/
def read_words : List (List Char) → Option (List Inst)
  | [] => none
  | [l] => if l.getLast? = some ';' then (read_bits l.dropLast).map fun inst => [inst] else none
  | l :: ls => if l.getLast? = some ',' then do
      let inst ← read_bits l.dropLast
      let insts ← read_words ls
      some (inst :: insts)
    else none

def read_coe (text : List Char) : Option (List Inst) :=
  match getlines text with
  | radix :: vector :: ls =>
    if radix = "memory_initialization_radix=2;".toList ∧ vector = "memory_initialization_vector=".toList then read_words ls
    else none
  | _ => none

def read_mif (text : List Char) : Option (List Inst) := (getlines text).mapM read_bits

/-! ## The round trip -/

theorem mem_bits64 {inst : Inst} {c : Char} (h : c ∈ bits64 inst) : c = '0' ∨ c = '1' := by
  obtain ⟨i, -, rfl⟩ := List.mem_map.1 h
  by_cases hi : inst.getMsbD i
  · exact .inr (if_pos hi)
  · exact .inl (if_neg hi)

theorem newline_not_mem_bits64 (inst : Inst) : '\n' ∉ bits64 inst := by
  intro h
  rcases mem_bits64 h with h | h <;> cases h

theorem read_bits_bits64 (inst : Inst) : read_bits (bits64 inst) = some inst := by
  have hlen : (bits64 inst).length = 64 := by simp [bits64]
  rw [read_bits, if_pos ⟨hlen, fun c => mem_bits64⟩]
  refine congrArg some (BitVec.eq_of_getLsbD_eq fun i hi => ?_)
  have hback : (bits64 inst).map (fun c => decide (c = '1')) = (List.range 64).map fun i => inst.getMsbD i := by
    rw [bits64, List.map_map]
    refine List.map_congr_left fun i _ => ?_
    by_cases hi : inst.getMsbD i <;> simp [hi]
  rw [BitVec.getLsbD_setWidth, BitVec.getLsbD_ofBoolListBE, hback]
  have hget : ((List.range 64).map fun i => inst.getMsbD i).getD (63 - i) false = inst.getMsbD (63 - i) := by
    rw [List.getD_eq_getElem _ _ (by simp; omega), List.getElem_map, List.getElem_range]
  simp only [List.length_map, List.length_range, hi, decide_true, Bool.true_and]
  rw [hget, BitVec.getMsbD, decide_eq_true (by omega), Bool.true_and]
  congr 1
  omega

theorem coe_words_append (insts : List Inst) (last : Inst) : coe_words (insts ++ [last]) =
    (insts.flatMap fun inst => (bits64 inst ++ [',']) ++ ['\n']) ++ (bits64 last ++ [';']) := by
  rw [coe_words, List.zipIdx_append, List.flatMap_append, List.length_append]
  congr 1
  · -- none of these words is the last one
    have hcomma : ∀ x ∈ insts.zipIdx, bits64 x.1 ++ (if x.2 = insts.length + [last].length - 1 then [';'] else [',', '\n']) =
        (bits64 x.1 ++ [',']) ++ ['\n'] := by
      intro x hx
      have hlt := List.snd_lt_of_mem_zipIdx hx
      rw [if_neg (by rw [List.length_singleton]; omega), List.append_assoc]
      rfl
    rw [List.flatMap_congr hcomma, ← List.flatMap_map Prod.fst fun inst => (bits64 inst ++ [',']) ++ ['\n'], List.zipIdx_map_fst]
  · simp

theorem getlines_last {l : List Char} (h : '\n' ∉ l) (hne : l ≠ []) : getlines l = [l] := by
  induction l with
  | nil => exact absurd rfl hne
  | cons c l ih =>
    rw [getlines, if_neg fun he => h (by simp [he])]
    cases l with
    | nil => rfl
    | cons d l => rw [ih (fun hm => h (List.mem_cons_of_mem c hm)) (List.cons_ne_nil d l)]

theorem read_words_append (insts : List Inst) (last : Inst) :
    read_words (insts.map (fun inst => bits64 inst ++ [',']) ++ [bits64 last ++ [';']]) = some (insts ++ [last]) := by
  induction insts with
  | nil => simp [read_words, read_bits_bits64]
  | cons inst insts ih =>
    obtain ⟨l, ls, hls⟩ := List.exists_cons_of_ne_nil
      (show insts.map (fun inst => bits64 inst ++ [',']) ++ [bits64 last ++ [';']] ≠ [] by simp)
    rw [List.map_cons, List.cons_append, hls, read_words, ← hls, ih]
    · simp [read_bits_bits64]
    · simp

theorem getlines_coe (insts : List Inst) (last : Inst) : getlines (coe_header ++ coe_words (insts ++ [last])) =
    "memory_initialization_radix=2;".toList :: "memory_initialization_vector=".toList ::
      (insts.map (fun inst => bits64 inst ++ [',']) ++ [bits64 last ++ [';']]) := by
  have hheader : coe_header = "memory_initialization_radix=2;".toList ++ '\n' :: ("memory_initialization_vector=".toList ++ ['\n']) := by
    decide +kernel
  rw [hheader, List.append_assoc, List.cons_append, getlines_line (by simp), List.append_assoc, List.singleton_append,
    getlines_line (by simp), coe_words_append, getlines_flatMap (fun inst => bits64 inst ++ [',']), getlines_last]
  · simp [newline_not_mem_bits64]
  · simp
  · simp [newline_not_mem_bits64]

/-- A `.coe` file gives back the words, if there are any. -/
theorem read_coe_words (insts : List Inst) : read_coe (coe_header ++ coe_words insts) = if insts = [] then none else some insts := by
  rcases List.eq_nil_or_concat insts with rfl | ⟨init, last, rfl⟩
  · decide
  · rw [List.concat_eq_append, read_coe, getlines_coe]
    simp [read_words_append]

theorem read_mif_words (insts : List Inst) : read_mif (insts.flatMap fun inst => bits64 inst ++ ['\n']) = some insts := by
  have hlines : getlines (insts.flatMap fun inst => bits64 inst ++ ['\n']) = insts.map bits64 := by
    have h := getlines_flatMap bits64 insts (fun inst _ => newline_not_mem_bits64 inst) []
    rwa [List.append_nil, getlines, List.append_nil] at h
  have hread : ∀ insts : List Inst, (insts.map bits64).mapM read_bits = some insts := by
    intro insts
    induction insts with
    | nil => rfl
    | cons inst insts ih => simp [List.mapM_cons, read_bits_bits64, ih]
  rw [read_mif, hlines, hread]

/-- The images hold the words that `get_inst_array` returns, which leaves the
program as it does. The two `.coe` files are one, and `program.coe` is too; only
without words there is nothing to read in them. -/
theorem images_read_back (p : Program) :
    (p.save_coe.map fun r => (read_coe r.1.coeFile, read_coe r.1.coeFile2, read_mif r.1.mifFile, r.2)) =
      (p.get_inst_array.map fun r =>
        (if r.1 = [] then none else some r.1, if r.1 = [] then none else some r.1, some r.1, r.2)) ∧
      p.save_coe_here = p.save_coe.map fun r => (r.1.coeFile, r.2) := by
  rw [save_coe, save_coe_here]
  cases p.get_inst_array with
  | none => exact ⟨rfl, rfl⟩
  | some r =>
    obtain ⟨insts, q⟩ := r
    refine ⟨congrArg some ?_, rfl⟩
    dsimp only
    rw [read_coe_words, read_mif_words]

end Program

end DRAMBender
