import Mathlib
import DramBender.Listing
import DramBender.Lib.Blocks
/-!
# Packing the queue

`pack_minprogram` puts the queue into words of four slots. The slots of its words,
read from low to high, are the queue and the NOPs that complete the last word
(`slots_packed`), so that two commands are as far apart as their waits say
(`pack_minprogram_exact`).
-/

namespace DRAMBender

/-- The slots of a word, from low to high. -/
def slots (w : Inst) : List Mininst := (List.range 4).map (slot w)

theorem slots_pack (m1 m2 m3 m4 : Mininst) : slots (pack_mininsts m1 m2 m3 m4) = [m1, m2, m3, m4] := by
  obtain ⟨h1, h2, h3, h4⟩ := slot_pack m1 m2 m3 m4
  have hrange : List.range 4 = [0, 1, 2, 3] := rfl
  unfold slots
  rw [hrange, List.map_cons, List.map_cons, List.map_cons, List.map_singleton, h1, h2, h3, h4]

theorem length_slots (w : Inst) : (slots w).length = 4 := rfl

namespace Program

/-- What a call puts into the queue: a command and its wait, or a wait. A wait is a
NOP for each cycle, and a negative one is none. -/
def queued : Call → List Mininst
  | .add_mininst mi wait_after => mi :: List.replicate wait_after.toNat SMC_NOP
  | .add_wait wait_cycles => List.replicate wait_cycles.toNat SMC_NOP
  | _ => []

/-- The NOPs that complete the last word of `n` slots. -/
def padding (n : Nat) : List Mininst := List.replicate ((4 - n % 4) % 4) SMC_NOP

/-- Slot `k` of the program, counted through its words. -/
def slot_at (p : Program) (k : Nat) : Option Mininst := p.program[k / 4]?.map fun w => slot w (k % 4)

/-! ## The words of a queue -/

/-- A word of commands brings no NOPs of a load with it. -/
theorem emitted_pack (m1 m2 m3 : Mininst) {m4 : Mininst} (h : m4.getLsbD 15 = true) :
    emitted (pack_mininsts m1 m2 m3 m4) = [pack_mininsts m1 m2 m3 m4] := by
  unfold emitted
  rw [← decode_isLoad, decode_pack _ _ _ _ h]
  rfl

theorem slots_packed (ms : List Mininst) (h : ∀ m ∈ ms, m.getLsbD 15 = true) :
    (packed ms).flatMap slots = ms ++ padding ms.length := by
  induction ms using packed.induct with
  | case1 m0 m1 m2 m3 rest ih =>
    have hrest : ∀ m ∈ rest, m.getLsbD 15 = true := fun m hm => h m (by simp [hm])
    have hpad : padding (m0 :: m1 :: m2 :: m3 :: rest).length = padding rest.length := by
      unfold padding
      rw [show (m0 :: m1 :: m2 :: m3 :: rest).length = rest.length + 4 from rfl, Nat.add_mod_right]
    rw [packed, emitted_pack m0 m1 m2 (h m3 (by simp)), List.flatMap_append, ih hrest, hpad, List.flatMap_singleton,
      slots_pack]
    rfl
  | case2 => rfl
  | case3 m0 => rw [packed, emitted_pack _ _ _ SMC_NOP_msb, List.flatMap_singleton, slots_pack]; rfl
  | case4 m0 m1 => rw [packed, emitted_pack _ _ _ SMC_NOP_msb, List.flatMap_singleton, slots_pack]; rfl
  | case5 m0 m1 m2 => rw [packed, emitted_pack _ _ _ SMC_NOP_msb, List.flatMap_singleton, slots_pack]; rfl

/-- As many words as the slots need. -/
theorem length_packed (ms : List Mininst) (h : ∀ m ∈ ms, m.getLsbD 15 = true) :
    (packed ms).length = (ms.length + 3) / 4 := by
  have hslots := congrArg List.length (slots_packed ms h)
  have hwords : ((packed ms).flatMap slots).length = 4 * (packed ms).length :=
    Blocks.length_flatMap fun w _ => length_slots w
  rw [hwords, List.length_append, padding, List.length_replicate] at hslots
  omega

/-- The slots of the words behind a program. -/
theorem slot_at_append (p : Program) (ws : List Inst) (k : Nat) :
    (p.append ws).slot_at (4 * p.program.length + k) = (ws.flatMap slots)[k]? := by
  have hk : k = 4 * (k / 4) + k % 4 := (Nat.div_add_mod k 4).symm
  have hlt : k % 4 < 4 := Nat.mod_lt k (by norm_num)
  have hdiv : (4 * p.program.length + k) / 4 = p.program.length + k / 4 := by omega
  have hmod : (4 * p.program.length + k) % 4 = k % 4 := by omega
  have hslots : (ws.flatMap slots)[k]? = ws[k / 4]?.bind fun w => (slots w)[k % 4]? := by
    conv_lhs => rw [hk]
    exact Blocks.getElem?_flatMap (fun w _ => length_slots w) (k / 4) hlt
  rw [hslots, slot_at, append, hdiv, hmod, List.getElem?_append_right (Nat.le_add_right _ _), Nat.add_sub_cancel_left]
  cases ws[k / 4]? with
  | none => rfl
  | some w =>
    rw [Option.map_some, Option.bind_some, slots, List.getElem?_map, List.getElem?_range hlt]
    rfl

/-! ## The calls that fill the queue -/

theorem call_fills {c : Call} (h : fills c) (p : Program) :
    p.call c = { p with minprogram := p.minprogram ++ queued c } := by
  cases c with
  | add_mininst mi wait_after => rfl
  | add_wait wait_cycles => rfl
  | _ => exact h.elim

theorem foldl_fills {cs : List Call} (h : ∀ c ∈ cs, fills c) (p : Program) :
    cs.foldl call p = { p with minprogram := p.minprogram ++ cs.flatMap queued } := by
  induction cs generalizing p with
  | nil => simp
  | cons c cs ih =>
    rw [List.foldl_cons, ih (fun d hd => h d (by simp [hd])), call_fills (h c (by simp)), List.flatMap_cons,
      List.append_assoc]

theorem queued_msb {cs : List Call} (h : ∀ c ∈ cs, fills c) : ∀ m ∈ cs.flatMap queued, m.getLsbD 15 = true := by
  have hq := fills_queue h
  rwa [← build_minprogram, build, foldl_fills h] at hq

/-- The slots that a wait and the waits added after it take. -/
def wait_slots (wait_after : Int) (waits : List Int) : Nat := wait_after.toNat + (waits.map Int.toNat).sum

/-- Behind a command stand the NOPs of the waits, up to the next command. -/
theorem queued_waits (mi : Mininst) (wait_after : Int) (waits : List Int) (post : List Call) :
    (.add_mininst mi wait_after :: (waits.map .add_wait ++ post)).flatMap queued =
      mi :: (List.replicate (wait_slots wait_after waits) SMC_NOP ++ post.flatMap queued) := by
  have hwaits : ∀ waits : List Int, (waits.map Call.add_wait).flatMap queued =
      List.replicate (waits.map Int.toNat).sum SMC_NOP := by
    intro waits
    induction waits with
    | nil => rfl
    | cons w waits ih =>
      rw [List.map_cons, List.flatMap_cons, ih, List.map_cons, List.sum_cons, List.replicate_add]
      rfl
  rw [List.flatMap_cons, List.flatMap_append, hwaits, wait_slots, List.replicate_add, List.append_assoc]
  rfl

/-! ## What packing keeps -/

/-- The second command stands the slots of the waits behind the first, and every
slot between them is a NOP. -/
def Behind (p : Program) (k : Nat) (m m' : Mininst) (gap : Nat) : Prop :=
  p.slot_at k = some m ∧ p.slot_at (k + 1 + gap) = some m' ∧ ∀ j < gap, p.slot_at (k + 1 + j) = some SMC_NOP

theorem behind_of_slots {p : Program} {ws : List Inst} {ms ms' : List Mininst} {m m' : Mininst} {gap : Nat}
    (h : ws.flatMap slots = ms ++ m :: (List.replicate gap SMC_NOP ++ m' :: ms')) :
    Behind (p.append ws) (4 * p.program.length + ms.length) m m' gap := by
  -- the slots from the first of the two commands on
  have hat : ∀ j, (p.append ws).slot_at (4 * p.program.length + ms.length + j) =
      (m :: (List.replicate gap SMC_NOP ++ m' :: ms'))[j]? := by
    intro j
    rw [Nat.add_assoc, slot_at_append, h, List.getElem?_append_right (Nat.le_add_right _ _), Nat.add_sub_cancel_left]
  refine ⟨hat 0, ?_, fun j hj => ?_⟩
  · rw [Nat.add_assoc, hat, Nat.add_comm 1, List.getElem?_cons_succ,
      List.getElem?_append_right (by rw [List.length_replicate]), List.length_replicate, Nat.sub_self]
    rfl
  · rw [Nat.add_assoc, hat, Nat.add_comm 1, List.getElem?_cons_succ,
      List.getElem?_append_left (by rwa [List.length_replicate]), List.getElem?_replicate_of_lt hj]

/-- Packing an empty queue filled by `add_mininst` and `add_wait` keeps the order
and the distances, pads the last word, and changes nothing else. -/
theorem pack_minprogram_exact {p : Program} (hp : p.minprogram = []) {cs : List Call} (hcs : ∀ c ∈ cs, fills c) :
    ∃ ws, (cs.foldl call p).pack_minprogram = p.append ws ∧
      ws.length = ((cs.flatMap queued).length + 3) / 4 ∧
      ws.flatMap slots = cs.flatMap queued ++ padding (cs.flatMap queued).length ∧
      (p.append ws).minprogram = [] ∧
      ∀ (pre : List Call) mi wait_after (waits : List Int) mi' wait_after' post,
        cs = pre ++ .add_mininst mi wait_after :: (waits.map .add_wait ++ .add_mininst mi' wait_after' :: post) →
        Behind (p.append ws) (4 * p.program.length + (pre.flatMap queued).length) mi mi' (wait_slots wait_after waits) := by
  have hmsb := queued_msb hcs
  have hslots := slots_packed (cs.flatMap queued) hmsb
  refine ⟨packed (cs.flatMap queued), ?_, length_packed _ hmsb, hslots, hp, ?_⟩
  · -- the queue was empty, so that it now holds what the calls put there
    rw [foldl_fills hcs, hp, List.nil_append, pack_minprogram, pack_loop_eq, append, append, hp]
  · intro pre mi wait_after waits mi' wait_after' post hsplit
    apply behind_of_slots
    · rw [hslots]
      conv_lhs => arg 1; rw [hsplit]
      rw [List.flatMap_append, queued_waits, List.flatMap_cons]
      simp only [queued, List.append_assoc, List.cons_append]
      rfl

/-- An ACT, and a PRE behind five NOPs and a negative wait. -/
def act_pre : List Call :=
  [.add_mininst (SMC_ACT 0 0 1 0 0) 2, .add_wait 3, .add_wait (-7), .add_mininst (SMC_PRE 0 0 0) (-1)]

theorem act_pre_fills : ∀ c ∈ act_pre, fills c := by
  simp only [act_pre, List.mem_cons, List.not_mem_nil, or_false]
  rintro c (rfl | rfl | rfl | rfl)
  · exact ⟨.ACT 0 0 1 0 0, rfl⟩
  · trivial
  · trivial
  · exact ⟨.PRE 0 0 0 0, rfl⟩

theorem pack_minprogram_act_pre :
    Behind (act_pre.foldl call {}).pack_minprogram 0 (SMC_ACT 0 0 1 0 0) (SMC_PRE 0 0 0) 5 := by
  have hsplit : act_pre = [] ++ .add_mininst (SMC_ACT 0 0 1 0 0) 2 ::
      (([3, -7] : List Int).map Call.add_wait ++ [.add_mininst (SMC_PRE 0 0 0) (-1)]) := rfl
  obtain ⟨ws, hws, -, -, -, hbehind⟩ := pack_minprogram_exact (p := {}) rfl act_pre_fills
  have hgap := hbehind [] (SMC_ACT 0 0 1 0 0) 2 [3, -7] (SMC_PRE 0 0 0) (-1) [] hsplit
  rw [hws]
  exact hgap

end Program

end DRAMBender
