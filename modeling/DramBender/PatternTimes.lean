import Mathlib
import DramBender.HammerPattern
import DramBender.Timing
/-!
# The times of a hammer pattern

A run of `hammer_pattern` opens the rows of the pattern one after the other
(`opened`), for as long as the accesses say, except that the last access of a
looped repetition is open for at least the six cycles of the branch and one
more (`hammer_pattern_exact_iff`).
-/

namespace DCT

open DRAMBender Machine
open DRAMBender.Board
open Program (Piece Block listing listing_append linked loop build)
open Call (add_inst add_inst4)
open PatternReg

/-! ## Openings -/

/-- A row is opened, closed `on + 1` cycles later, and the next one is opened
`off` cycles after that. -/
structure Opening where
  row : CInt
  on : Nat
  off : Nat

/-- The commands of openings from cycle `c` on: the ACT is in the second slot of
its word, the PRE in the first. -/
def opened (bank : Bank) : Nat → List Opening → List Stamped
  | _, [] => []
  | c, x :: xs =>
    (4 * c + 1, .ACT bank x.row) :: (4 * (c + x.on + 1), .PRE bank) :: opened bank (c + x.on + 1 + x.off) xs

/-- The cycles of openings. -/
def span (xs : List Opening) : Nat := (xs.map fun x => x.on + 1 + x.off).sum

theorem span_cons (x : Opening) (xs : List Opening) : span (x :: xs) = x.on + 1 + x.off + span xs := by
  rw [span, List.map_cons, List.sum_cons]
  rfl

theorem span_append (xs ys : List Opening) : span (xs ++ ys) = span xs + span ys := by
  rw [span, List.map_append, List.sum_append]
  rfl

theorem opened_append (bank : Bank) (c : Nat) (xs ys : List Opening) :
    opened bank c (xs ++ ys) = opened bank c xs ++ opened bank (c + span xs) ys := by
  induction xs generalizing c with
  | nil => rfl
  | cons x xs ih =>
    have hc : c + x.on + 1 + x.off + span xs = c + span (x :: xs) := by
      rw [span_cons]
      omega
    rw [List.cons_append, opened, ih, hc]
    rfl

/-- Rows and open times can be read off the commands. -/
theorem opened_inj {bank : Bank} {c c' : Nat} {xs ys : List Opening} (h : opened bank c xs = opened bank c' ys) :
    xs.map Opening.on = ys.map Opening.on := by
  induction xs generalizing c c' ys with
  | nil =>
    cases ys with
    | nil => rfl
    | cons y ys => cases h
  | cons x xs ih =>
    cases ys with
    | nil => cases h
    | cons y ys =>
      rw [opened, opened, List.cons.injEq, List.cons.injEq, Prod.mk.injEq, Prod.mk.injEq] at h
      obtain ⟨⟨hact, -⟩, ⟨hpre, -⟩, hrest⟩ := h
      rw [List.map_cons, List.map_cons, ih hrest]
      congr 1
      omega

/-! ## Single words -/

/-- A word with a command in the second slot. -/
def only_second (d : Ddr) : Mnemonic := .DDR (.NOP false) d (.NOP false) (.NOP false)

@[simp] theorem straight_only_second (d : Ddr) : straight (only_second d) = true := rfl

/-- The word that closes the row of the bank. -/
def close_word : Mnemonic := only (.PRE 5 false false false)

/-- The word that opens a row. -/
def open_word (r : CInt) : Mnemonic := only_second (.ACT 5 false (r.setWidth 4) false false)

theorem spells_close : Spells [close_row] [close_word] :=
  spells_pieces _ (by simp [close_row]) (listing_ddr (.PRE 5 0 0 0) [])

theorem spells_count : Spells [count_repetition] [.ADDI 4#4 4#4 1#16] := by
  apply spells_pieces _ (by simp [count_repetition])
  rw [count_repetition, listing_ADDI _ (by decide) (by decide) (by decide)]
  rfl

theorem spells_open {registers : Registers} {row_id r : CInt} (hr : registers row_id = some r) (h : r < 16) :
    Spells [open_row registers row_id] [open_word r] := by
  have hpiece : Piece (ddr_second (Mini.ACT 5 0 r 0 0).encode) :=
    Program.piece_inst4 (.NOP 0) (.ACT 5 0 r 0 0) (.NOP 0) (.NOP 0)
  have hrow : open_row registers row_id = ddr_second (Mini.ACT 5 0 r 0 0).encode := by
    rw [open_row, hr]
    rfl
  have hdecode := (Mini.decode_encode (.ACT 5 0 r 0 0) ⟨by decide, by decide, h, by decide, by decide⟩).1
  rw [hrow]
  refine ⟨hpiece.block, (Program.listing_inst4 (.NOP 0) (.ACT 5 0 r 0 0) (.NOP 0) (.NOP 0)).trans ?_⟩
  rw [hdecode]
  rfl

theorem spells_LI {imd rt : CInt} (h : rt < 16) : Spells [add_inst (SMC_LI imd rt)] [.LI (rt.setWidth 4) imd] :=
  spells_pieces _ (by simp) (listing_LI [] h)

theorem spells_END : Spells [add_inst SMC_END] [.END] := by
  refine ⟨(Program.piece_inst .END rfl).block, ?_⟩
  rw [Program.listing_inst, decode_SMC_END]
  rfl

section
variable (other : Mnemonic → Board → Board × List Cmd) (ms : List Mnemonic) (b : Board) (t : Nat)

theorem time_all_close : time_all other (close_word :: ms) (b, t) =
    ((time_all other ms (b, t + 1)).1, (4 * t, .PRE (false, b.regs 5#4)) :: (time_all other ms (b, t + 1)).2) := by
  have hexec : timed_exec other close_word (b, t) = ((b, t + 1), [(4 * t, .PRE (false, b.regs 5#4))]) := rfl
  rw [time_all, List.map_cons, effects, hexec]
  rfl

theorem time_all_open (r : CInt) : time_all other (open_word r :: ms) (b, t) =
    let b' := { b with row := Function.update b.row (false, b.regs 5#4) (b.regs (r.setWidth 4)) }
    ((time_all other ms (b', t + 1)).1,
      (4 * t + 1, .ACT (false, b.regs 5#4) (b.regs (r.setWidth 4))) :: (time_all other ms (b', t + 1)).2) := by
  have hexec : timed_exec other (open_word r) (b, t) =
      (({ b with row := Function.update b.row (false, b.regs 5#4) (b.regs (r.setWidth 4)) }, t + 1),
        [(4 * t + 1, .ACT (false, b.regs 5#4) (b.regs (r.setWidth 4)))]) := rfl
  rw [time_all, List.map_cons, effects, hexec]
  rfl

end

/-! ## Waits -/

/-- The words of a wait. -/
def pause (below spent n : CInt) : List Mnemonic :=
  if n < below then List.replicate (n - spent).toNat NOPS else [.SLEEP (n - spent - 2)]

theorem straight_pause (below spent n : CInt) : Straight (pause below spent n) := by
  unfold pause
  split
  · intro m hm
    rw [List.eq_of_mem_replicate hm]
    rfl
  · simp

theorem bind_ok {α β : Type} (a : α) (f : α → Except String β) : ((.ok a : Except String α) >>= f) = f a := rfl

theorem sleep_for_eq {samt : CInt} (h : 2 < samt) :
    ∃ cs, sleep_for samt = .ok cs ∧ Spells cs [.SLEEP (samt - 2)] := by
  obtain ⟨cs, hcs⟩ := exists_sleep h
  refine ⟨cs, ?_, spells_sleep hcs⟩
  rw [sleep_for, hcs]

/-- A wait never fails where what is left at the bound can be slept. -/
theorem wait_eq (below spent n : CInt) (h : ¬ n < below → 2 < n - spent) :
    ∃ cs, wait below spent n = .ok cs ∧ Spells cs (pause below spent n) := by
  unfold wait pause
  split
  · -- short waits are words of NOPs
    refine ⟨_, rfl, ?_⟩
    have hcalls : ∀ k, List.replicate k nops = (List.range k).flatMap fun _ => [nops] := by
      intro k
      rw [← List.map_eq_flatMap, List.map_const', List.length_range]
    have hwords : ∀ k, List.replicate k NOPS = (List.range k).flatMap fun _ => [NOPS] := by
      intro k
      rw [← List.map_eq_flatMap, List.map_const', List.length_range]
    rw [hcalls, hwords]
    exact spells_flatMap fun _ _ => spells_pieces _ (by simp) (listing_nops [])
  · next hn => exact sleep_for_eq (h hn)

theorem time_all_pause (other : Mnemonic → Board → Board × List Cmd) (below spent n : CInt)
    (h : ¬ n < below → 2 < n - spent) (ms : List Mnemonic) (b : Board) (t : Nat) :
    time_all other (pause below spent n ++ ms) (b, t) = time_all other ms (b, t + (n - spent).toNat) := by
  unfold pause
  split
  · -- every word of NOPs takes a cycle
    generalize (n - spent).toNat = k
    induction k generalizing t with
    | zero => rfl
    | succ k ih =>
      have hk : t + 1 + k = t + (k + 1) := by omega
      rw [List.replicate_succ, List.cons_append]
      change time_all other (List.replicate k NOPS ++ ms) (b, t + 1) = _
      rw [ih, hk]
  · next hn =>
    have hsleep : (n - spent - 2).toNat + 2 = (n - spent).toNat := by
      have := h hn
      bv_omega
    rw [List.singleton_append, time_all_SLEEP, hsleep]

/-! ## Rows in registers -/

/-- The rows seen so far have registers from 6 on, and `next` is the first free
one. -/
structure Allotted (registers : Registers) (next : CInt) (seen : Finset CInt) : Prop where
  mem : ∀ id, registers id ≠ none ↔ id ∈ seen
  range : ∀ id r, registers id = some r → 6 ≤ r.toNat ∧ r.toNat < next.toNat
  next : next.toNat = 6 + seen.card

theorem allotted_none : Allotted (fun _ => none) 6 ∅ := by
  refine ⟨fun id => ?_, fun id r hr => ?_, rfl⟩
  · simp
  · cases hr

theorem Allotted.insert {registers : Registers} {next : CInt} {seen : Finset CInt} (h : Allotted registers next seen) {id : CInt}
    (hid : registers id = none) (hcard : seen.card < 10) :
    Allotted (Function.update registers id (some next)) (next + 1) (insert id seen) := by
  have hnext := h.next
  have hsucc : (next + 1).toNat = next.toNat + 1 := by bv_omega
  have hnotMem : id ∉ seen := fun hmem => (h.mem id).2 hmem hid
  refine ⟨fun i => ?_, fun i r hr => ?_, ?_⟩
  · rw [Finset.mem_insert]
    by_cases hi : i = id
    · simp [hi]
    · rw [Function.update_of_ne hi, h.mem i]
      simp [hi]
  · by_cases hi : i = id
    · rw [hi, Function.update_self, Option.some.injEq] at hr
      subst hr
      omega
    · rw [Function.update_of_ne hi] at hr
      have hrange := h.range i r hr
      omega
  · rw [Finset.card_insert_of_notMem hnotMem]
    omega

/-- Ten rows fit into the registers from 6 to 15. -/
theorem Allotted.low {registers : Registers} {next : CInt} {seen : Finset CInt} (h : Allotted registers next seen)
    (hcard : seen.card ≤ 10) : ∀ id r, registers id = some r → 6 ≤ r.toNat ∧ r.toNat < 16 := by
  intro id r hr
  have hrange := h.range id r hr
  have hnext := h.next
  omega

/-- The registers hold the addresses of their rows. -/
def Loaded (addr : CInt → CInt) (registers : Registers) (b : Board) : Prop :=
  ∀ id r, registers id = some r → b.regs (r.setWidth 4) = addr id

theorem Loaded.of_regs {addr : CInt → CInt} {registers : Registers} {b b' : Board} (h : Loaded addr registers b)
    (hregs : b'.regs = b.regs) : Loaded addr registers b' := by
  intro id r hr
  rw [hregs]
  exact h id r hr

/-- The repetition counter's register is none of the rows'. -/
theorem Loaded.set_counter {addr : CInt → CInt} {registers : Registers} {b : Board} (h : Loaded addr registers b)
    (hlow : ∀ id r, registers id = some r → 6 ≤ r.toNat ∧ r.toNat < 16) (v : CInt) :
    Loaded addr registers (b.set_reg 4#4 v) := by
  intro id r hr
  have hrange := hlow id r hr
  have hne : r.setWidth 4 ≠ 4#4 := by bv_omega
  rw [set_reg_regs, Function.update_of_ne hne]
  exact h id r hr

/-- The words put the addresses of new rows into their registers, and leave the
first six registers alone. -/
structure LoadsRows (addr : CInt → CInt) (registers registers' : Registers) (ms : List Mnemonic) : Prop where
  straight : Straight ms
  run : ∀ other b t, Loaded addr registers b → ∃ b', time_all other ms (b, t) = ((b', t + ms.length), []) ∧
    Loaded addr registers' b' ∧ ∀ q : Reg, q < 6#4 → b'.regs q = b.regs q

theorem LoadsRows.cons {addr : CInt → CInt} {registers registers' : Registers} {next : CInt} {seen : Finset CInt} {id : CInt}
    {ms : List Mnemonic} (h : Allotted registers next seen) (hcard : seen.card < 10)
    (hrest : LoadsRows addr (Function.update registers id (some next)) registers' ms) :
    LoadsRows addr registers registers' (.LI (next.setWidth 4) (addr id) :: ms) := by
  have hnext := h.next
  refine ⟨by simp [hrest.straight], fun other b t hb => ?_⟩
  have hloaded : Loaded addr (Function.update registers id (some next)) (b.set_reg (next.setWidth 4) (addr id)) := by
    intro i r hr
    rw [set_reg_regs]
    by_cases hi : i = id
    · rw [hi, Function.update_self, Option.some.injEq] at hr
      rw [hi, ← hr, Function.update_self]
    · rw [Function.update_of_ne hi] at hr
      have hrange := h.range i r hr
      have hne : r.setWidth 4 ≠ next.setWidth 4 := by bv_omega
      rw [Function.update_of_ne hne]
      exact hb i r hr
  obtain ⟨b', hrun, hb', hframe⟩ := hrest.run other _ (t + 1) hloaded
  refine ⟨b', ?_, hb', fun q hq => ?_⟩
  · rw [time_all_LI, hrun, List.length_cons, Nat.add_assoc, Nat.add_comm 1]
  · have hne : q ≠ next.setWidth 4 := by bv_omega
    rw [hframe q hq, set_reg_regs, Function.update_of_ne hne]

/-- Up to ten rows get registers. -/
theorem map_rows_spec (pattern : Pattern) (dram_info : DramInfo) (pivot_address : CInt) (as : List Access)
    {registers : Registers} {next : CInt} {seen : Finset CInt} (h : Allotted registers next seen)
    (hcard : (seen ∪ (as.map Access.id).toFinset).card ≤ 10) :
    ∃ registers' next' cs ms, map_rows pattern dram_info pivot_address as registers next = .ok (registers', cs) ∧
      Allotted registers' next' (seen ∪ (as.map Access.id).toFinset) ∧ Spells cs ms ∧
      LoadsRows (fun id => dram_info.map_row (id - pattern.pivot_id + pivot_address)) registers registers' ms ∧
      ms.length ≤ as.length := by
  induction as generalizing registers next seen with
  | nil =>
    refine ⟨registers, next, [], [], rfl, by simpa using h, spells_nil, ⟨straight_nil, ?_⟩, le_rfl⟩
    intro other b t hb
    exact ⟨b, rfl, hb, fun _ _ => rfl⟩
  | cons a as ih =>
    rw [map_rows]
    by_cases hid : registers a.id = none
    · -- a new row takes the next register
      have hseen : seen ∪ ((a :: as).map Access.id).toFinset = insert a.id seen ∪ (as.map Access.id).toFinset := by
        rw [List.map_cons, List.toFinset_cons, Finset.union_insert, Finset.insert_union]
      have hnotMem : a.id ∉ seen := fun hmem => (h.mem a.id).2 hmem hid
      rw [hseen] at hcard ⊢
      have hlt : seen.card < 10 := by
        have hsub : insert a.id seen ⊆ insert a.id seen ∪ (as.map Access.id).toFinset := Finset.subset_union_left
        have hle := Finset.card_le_card hsub
        rw [Finset.card_insert_of_notMem hnotMem] at hle
        omega
      have hnext := h.next
      have hfree : ¬ 15 < next := by bv_omega
      have hrt : next < 16 := by bv_omega
      obtain ⟨registers', next', cs, ms, hmap, hallotted, hspells, hloads, hlen⟩ := ih (h.insert hid hlt) hcard
      rw [if_pos hid, if_neg hfree, hmap]
      exact ⟨registers', next', _, _, rfl, hallotted, (spells_LI hrt).append hspells, hloads.cons h hlt,
        Nat.succ_le_succ hlen⟩
    · -- a row seen before keeps its register
      have hmem : a.id ∈ seen := (h.mem a.id).1 hid
      have hseen : seen ∪ ((a :: as).map Access.id).toFinset = seen ∪ (as.map Access.id).toFinset := by
        rw [List.map_cons, List.toFinset_cons, Finset.union_insert, Finset.insert_eq_of_mem (Finset.mem_union_left _ hmem)]
      rw [hseen] at hcard ⊢
      obtain ⟨registers', next', cs, ms, hmap, hallotted, hspells, hloads, hlen⟩ := ih h hcard
      rw [if_neg hid]
      exact ⟨registers', next', cs, ms, hmap, hallotted, hspells, hloads, hlen.trans (Nat.le_succ _)⟩

/-! ## Accesses -/

def opening (addr : CInt → CInt) (a : Access) : Opening := ⟨addr a.id, a.on.toNat, a.off.toNat⟩

/-- The bounds the generator checks. -/
def Access.Bounded (a : Access) : Prop := 5 ≤ a.on ∧ 2 ≤ a.off

def access_words (registers : Registers) (a : Access) : List Mnemonic :=
  [open_word ((registers a.id).getD 0)] ++ [.SLEEP (a.on - 2)] ++ [close_word] ++ pause 4 1 a.off

/-- The row of an access has a register. -/
def Placed (registers : Registers) (a : Access) : Prop := ∃ r, registers a.id = some r ∧ r < 16

theorem Allotted.placed {registers : Registers} {next : CInt} {seen : Finset CInt} (h : Allotted registers next seen)
    (hcard : seen.card ≤ 10) {a : Access} (ha : a.id ∈ seen) : Placed registers a := by
  obtain ⟨r, hr⟩ := Option.ne_none_iff_exists'.1 ((h.mem a.id).2 ha)
  have hrange := h.low hcard a.id r hr
  exact ⟨r, hr, by bv_omega⟩

section
variable {registers : Registers}

theorem spells_open_placed {a : Access} (h : Placed registers a) :
    Spells [open_row registers a.id] [open_word ((registers a.id).getD 0)] := by
  obtain ⟨r, hr, hlt⟩ := h
  have hspells := spells_open hr hlt
  rw [hr]
  exact hspells

theorem access_eq (on_error : String) {a : Access} (hplaced : Placed registers a) (h : a.Bounded) :
    ∃ cs, access on_error registers a = .ok cs ∧ Spells cs (access_words registers a) := by
  obtain ⟨hon, hoff⟩ := h
  obtain ⟨sleepON, hsleep, hspON⟩ := sleep_for_eq (show 2 < a.on by bv_omega)
  obtain ⟨sleepOFF, hwait, hspOFF⟩ := wait_eq 4 1 a.off (fun hn => by bv_omega)
  unfold access
  rw [if_neg (by bv_omega), if_neg (by bv_omega), hsleep, bind_ok, hwait, bind_ok]
  exact ⟨_, rfl, (((spells_open_placed hplaced).append hspON).append spells_close).append hspOFF⟩

theorem accesses_eq (on_error : String) {as : List Access} (hplaced : ∀ a ∈ as, Placed registers a)
    (h : ∀ a ∈ as, a.Bounded) :
    ∃ css, as.mapM (access on_error registers) = .ok css ∧ Spells css.flatten (as.flatMap (access_words registers)) := by
  induction as with
  | nil => exact ⟨[], rfl, spells_nil⟩
  | cons a as ih =>
    obtain ⟨cs, hcs, hspells⟩ := access_eq on_error (hplaced a (by simp)) (h a (by simp))
    obtain ⟨css, hcss, hrest⟩ := ih (fun a' ha => hplaced a' (by simp [ha])) fun a' ha => h a' (by simp [ha])
    refine ⟨cs :: css, ?_, hspells.append hrest⟩
    rw [List.mapM_cons, hcs, hcss]
    rfl

theorem straight_access_words (a : Access) : Straight (access_words registers a) := by
  simp [access_words, straight_pause, open_word, close_word]

/-- An access opens its row for as long as it says. -/
theorem time_all_access (other : Mnemonic → Board → Board × List Cmd) {addr : CInt → CInt} {a : Access} (hplaced : Placed registers a)
    (h : a.Bounded) (ms : List Mnemonic) {b : Board} (hb : Loaded addr registers b) (t : Nat) :
    ∃ b', b'.regs = b.regs ∧ time_all other (access_words registers a ++ ms) (b, t) =
      ((time_all other ms (b', t + span [opening addr a])).1,
        opened (false, b.regs 5#4) t [opening addr a] ++ (time_all other ms (b', t + span [opening addr a])).2) := by
  obtain ⟨hon, hoff⟩ := h
  obtain ⟨r, hr, -⟩ := hplaced
  have hsleep : (a.on - 2).toNat + 2 = a.on.toNat := by bv_omega
  -- the ACT, the SLEEP and the PRE, and then the wait
  have hpause : t + 1 + a.on.toNat + 1 + (a.off - 1).toNat = t + span [opening addr a] := by
    have hoff1 : (a.off - 1).toNat = a.off.toNat - 1 := by bv_omega
    have hpos : 1 ≤ a.off.toNat := by bv_omega
    rw [span_cons]
    change _ = t + (a.on.toNat + 1 + a.off.toNat + 0)
    omega
  have hclose : t + 1 + a.on.toNat = t + a.on.toNat + 1 := by omega
  have hwait := time_all_pause other 4 1 a.off (fun hn => by bv_omega) ms
  simp only [access_words, List.cons_append, List.nil_append, hr, Option.getD_some]
  simp only [time_all_open, time_all_SLEEP, time_all_close, hsleep, hwait, hpause, hb a.id r hr]
  rw [hclose]
  exact ⟨{ b with row := Function.update b.row (false, b.regs 5#4) (addr a.id) }, rfl, rfl⟩

theorem time_all_accesses (other : Mnemonic → Board → Board × List Cmd) {addr : CInt → CInt} {as : List Access}
    (hplaced : ∀ a ∈ as, Placed registers a) (h : ∀ a ∈ as, a.Bounded) (ms : List Mnemonic) {b : Board}
    (hb : Loaded addr registers b) (t : Nat) :
    ∃ b', b'.regs = b.regs ∧ time_all other (as.flatMap (access_words registers) ++ ms) (b, t) =
      ((time_all other ms (b', t + span (as.map (opening addr)))).1,
        opened (false, b.regs 5#4) t (as.map (opening addr)) ++
          (time_all other ms (b', t + span (as.map (opening addr)))).2) := by
  induction as generalizing b t with
  | nil => exact ⟨b, rfl, rfl⟩
  | cons a as ih =>
    obtain ⟨b1, hregs1, hrun1⟩ := time_all_access other (hplaced a (by simp)) (h a (by simp))
      (as.flatMap (access_words registers) ++ ms) hb t
    obtain ⟨b2, hregs2, hrun2⟩ := ih (fun a' ha => hplaced a' (by simp [ha])) (fun a' ha => h a' (by simp [ha]))
      (hb.of_regs hregs1) (t + span [opening addr a])
    refine ⟨b2, hregs2.trans hregs1, ?_⟩
    have hsplit : (a :: as).map (opening addr) = [opening addr a] ++ as.map (opening addr) := rfl
    rw [List.flatMap_cons, List.append_assoc, hrun1, hrun2, hsplit, opened_append, span_append, hregs1, List.append_assoc,
      Nat.add_assoc]

end

/-! ## Programs that end themselves -/

theorem map_act_ended {σ ε : Type} (isa : Isa σ ε) {qs : List Mnemonic} (hqs : Straight qs) :
    (qs ++ [Mnemonic.END]).map isa.actOf = (qs.map isa.exec).map .exec ++ [.halt] := by
  rw [List.map_append, map_actOf _ hqs]
  rfl

section
variable {pre body post : List Call} {rs1 rs2 : CInt} {tgt : String} {ms ns qs : List Mnemonic}

/-- INFO words at most double the address of a loop's label. -/
theorem loop_target_lt (hpre : Spells pre ms) (hbody : Spells body ns) (hpost : Block post) (hlen : ms.length < 262144)
    {b : Nat} {tgt' : String} (hb : (build (loop pre body post rs1 rs2 tgt)).branches[b]? = some tgt') :
    Insert.entry (build (loop pre body post rs1 rs2 tgt)).concludeMark
      (Program.label_pc (loop pre body post rs1 rs2 tgt) tgt') < 524288 := by
  have htgt : tgt' = tgt := by
    rw [Program.branches_loop hpre.block hbody.block hpost] at hb
    by_cases he : b = (Program.words [] pre ++ Program.words [] body).length
    · rw [he, Std.ExtTreeMap.getElem?_insert_self] at hb
      exact (Option.some.inj hb).symm
    · rw [MapFold.getElem?_insert_ne (Ne.symm he), Std.ExtTreeMap.getElem?_empty] at hb
      cases hb
  have hle : Insert.before (build (loop pre body post rs1 rs2 tgt)).concludeMark ms.length ≤ ms.length := Nat.count_le _
  rw [htgt, Program.label_pc_loop hpre.block, hpre.listing, Insert.entry]
  omega

/-- A loop whose last word is an END, on any instruction set: `J i` holds after
`i` of its `n` passes. -/
theorem halts_ended_loop (hpre : Spells pre ms) (hbody : Spells body ns) (hpost : Spells post (qs ++ [.END])) (h1 : rs1 < 16)
    (h2 : rs2 < 16) (hms : Straight ms) (hns : Straight ns) (hqs : Straight qs) {σ ε : Type} (isa : Isa σ ε) {n : Nat}
    (hn : 0 < n) (J : Nat → σ → List ε → Prop) (s : σ) (h0 : J 0 (effects (ms.map isa.exec) s).1 (effects (ms.map isa.exec) s).2)
    (hstep : ∀ i s es, i < n → J i s es →
      J (i + 1) (effects (ns.map isa.exec ++ [isa.branch .BL]) s).1
        (es ++ (effects (ns.map isa.exec ++ [isa.branch .BL]) s).2) ∧
      isa.lt (effects (ns.map isa.exec) s).1 (rs1.setWidth 4) (rs2.setWidth 4) = decide (i + 1 < n)) :
    ∃ s1 es1, Halts (Program.code isa (build (loop pre body post rs1 rs2 tgt))) 0 s (es1 ++ (effects (qs.map isa.exec) s1).2)
      (effects (qs.map isa.exec) s1).1 ∧ J n s1 es1 := by
  have hcode : Program.code isa (build (loop pre body post rs1 rs2 tgt)) =
      loopCode (ms.map isa.exec) (ns.map isa.exec) (qs.map isa.exec) (isa.branch .BL)
        (fun s => isa.lt s (rs1.setWidth 4) (rs2.setWidth 4)) := by
    rw [Program.code_loop hpre.block hbody.block hpost.block h1 h2, hpre.listing, hbody.listing, hpost.listing,
      map_actOf _ hms, map_actOf _ hns, map_act_ended _ hqs, loopCode, List.length_map]
  rw [hcode]
  exact halts_loop hn J s h0 hstep

end

/-- A program without branches whose last word is an END. -/
theorem halts_ended_block {cs : List Call} {qs : List Mnemonic} (hcs : Spells cs (qs ++ [.END])) (hqs : Straight qs)
    {σ ε : Type} (isa : Isa σ ε) (s : σ) :
    Halts (Program.code isa (build cs)) 0 s (effects (qs.map isa.exec) s).2 (effects (qs.map isa.exec) s).1 := by
  rw [Program.code_block isa hcs.block, hcs.listing, map_act_ended _ hqs]
  exact halts_straight _ s

/-! ## Repetitions -/

theorem span_last (xs : List Opening) (x : Opening) : span (xs ++ [x]) = span xs + (x.on + 1 + x.off) :=
  span_append xs [x]

theorem opened_last (bank : Bank) (c : Nat) (xs : List Opening) (x : Opening) : opened bank c (xs ++ [x]) =
    opened bank c xs ++ [(4 * (c + span xs) + 1, .ACT bank x.row), (4 * (c + span xs + x.on + 1), .PRE bank)] :=
  opened_append bank c xs [x]

/-- The accesses of a repetition up to the ACT of the last one. -/
theorem time_all_repetition (other : Mnemonic → Board → Board × List Cmd) {addr : CInt → CInt} {registers : Registers}
    {init : List Access} {last : Access} (hplaced : ∀ a ∈ init ++ [last], Placed registers a)
    (h : ∀ a ∈ init ++ [last], a.Bounded) (ms : List Mnemonic) {b : Board} (hb : Loaded addr registers b) (t : Nat) :
    ∃ b', b'.regs = b.regs ∧
      time_all other (init.flatMap (access_words registers) ++ open_word ((registers last.id).getD 0) :: ms) (b, t) =
        ((time_all other ms (b', t + span (init.map (opening addr)) + 1)).1,
          opened (false, b.regs 5#4) t (init.map (opening addr)) ++
            (4 * (t + span (init.map (opening addr))) + 1, .ACT (false, b.regs 5#4) (addr last.id)) ::
              (time_all other ms (b', t + span (init.map (opening addr)) + 1)).2) := by
  have hinit : ∀ a ∈ init, a ∈ init ++ [last] := fun a ha => List.mem_append_left _ ha
  obtain ⟨b1, hregs, hrun⟩ := time_all_accesses other (fun a ha => hplaced a (hinit a ha)) (fun a ha => h a (hinit a ha))
    (open_word ((registers last.id).getD 0) :: ms) hb t
  obtain ⟨r, hr, -⟩ := hplaced last (by simp)
  rw [hr, Option.getD_some] at hrun ⊢
  rw [hrun]
  simp only [time_all_open, hregs, hb last.id r hr]
  exact ⟨{ b1 with row := Function.update b1.row (false, b.regs 5#4) (addr last.id) }, hregs, by rw [← hregs]⟩

/-- The last access of a looped repetition is open for the six cycles of the
branch, and for what `last_on - 6` says in `uint`. -/
def looped (addr : CInt → CInt) (last : Access) : Opening := ⟨addr last.id, (last.on - 6).toNat + 6, last.off.toNat⟩

/-- The openings of the first repetition and of `i` looped ones. -/
def rounds (addr : CInt → CInt) (init : List Access) (last : Access) (i : Nat) : List Opening :=
  (init ++ [last]).map (opening addr) ++ (List.replicate i (init.map (opening addr) ++ [looped addr last])).flatten

theorem rounds_zero (addr : CInt → CInt) (init : List Access) (last : Access) :
    rounds addr init last 0 = init.map (opening addr) ++ [opening addr last] := by
  rw [rounds, List.replicate_zero, List.flatten_nil, List.append_nil, List.map_append]
  rfl

theorem rounds_succ (addr : CInt → CInt) (init : List Access) (last : Access) (i : Nat) :
    rounds addr init last (i + 1) = rounds addr init last i ++ (init.map (opening addr) ++ [looped addr last]) := by
  rw [rounds, rounds, List.replicate_succ', List.flatten_append, List.flatten_singleton, List.append_assoc]

/-- What holds at the label after `i` looped repetitions, where the PRE of the
last access comes next, and the commands so far. -/
structure Repeating (bank repetitions : CInt) (addr : CInt → CInt) (registers : Registers) (c off : Nat) (xs : List Opening)
    (i : Nat) (b : Board) (t : Nat) (es : List Stamped) : Prop where
  bar : b.regs 5#4 = bank
  num : b.regs 3#4 = repetitions
  cnt : b.regs 4#4 = BitVec.ofNat 32 (i + 1)
  loaded : Loaded addr registers b
  clock : t + off = c + 2 + span xs
  issued : es ++ [(4 * t, .PRE (false, bank))] = (4 * c, .PRE (false, bank)) :: opened (false, bank) (c + 2) xs

/-- The words in front of the label. -/
def first_words (repetitions bank : CInt) (registers : Registers) (loads : List Mnemonic) (init : List Access) (last : Access) :
    List Mnemonic :=
  [.LI 3#4 repetitions, .LI 4#4 0#32, .LI 5#4 bank] ++ loads ++ [close_word, .ADDI 4#4 4#4 1#16] ++
    init.flatMap (access_words registers) ++ [open_word ((registers last.id).getD 0)] ++ [.SLEEP (last.on - 2)]

/-- The words between the label and the branch. -/
def looped_words (registers : Registers) (init : List Access) (last : Access) : List Mnemonic :=
  [close_word, .ADDI 4#4 4#4 1#16] ++ pause 5 2 last.off ++ init.flatMap (access_words registers) ++
    [open_word ((registers last.id).getD 0)] ++ pause 9 6 last.on

theorem rest_of_repetitions_eq {registers : Registers} {init : List Access} {last : Access}
    (hplaced : ∀ a ∈ init ++ [last], Placed registers a) (h : ∀ a ∈ init ++ [last], a.Bounded) :
    ∃ body, rest_of_repetitions registers init last = .ok body ∧ Spells body (looped_words registers init last) := by
  obtain ⟨hon, hoff⟩ := h last (by simp)
  have hinit : ∀ a ∈ init, a ∈ init ++ [last] := fun a ha => List.mem_append_left _ ha
  obtain ⟨sleepOFF, hwait, hspOFF⟩ := wait_eq 5 2 last.off (fun hn => by bv_omega)
  obtain ⟨rows, hrows, hsprows⟩ := accesses_eq "A minimum of 6 on cycles are required for each row. (t_RAS = 33ns)"
    (fun a ha => hplaced a (hinit a ha)) fun a ha => h a (hinit a ha)
  obtain ⟨sleepON, hend, hspON⟩ := wait_eq 9 6 last.on (fun hn => by bv_omega)
  unfold rest_of_repetitions
  rw [if_neg (by bv_omega), if_neg (by bv_omega), hwait, bind_ok, hrows, bind_ok, hend, bind_ok]
  exact ⟨_, rfl, ((((spells_close.append spells_count).append hspOFF).append hsprows).append
    (spells_open_placed (hplaced last (by simp)))).append hspON⟩

section
variable (other : Mnemonic → Board → Board × List Cmd) {bank repetitions : CInt} {addr : CInt → CInt} {registers : Registers}
  {init : List Access} {last : Access} (hplaced : ∀ a ∈ init ++ [last], Placed registers a)
  (h : ∀ a ∈ init ++ [last], a.Bounded)
include hplaced h

theorem repeating_start {loads : List Mnemonic} (hloads : LoadsRows addr (fun _ => none) registers loads)
    (hlow : ∀ id r, registers id = some r → 6 ≤ r.toNat ∧ r.toNat < 16) (b : Board) (t : Nat) :
    let r := time_all other (first_words repetitions bank registers loads init last) (b, t)
    Repeating bank repetitions addr registers (t + 3 + loads.length) last.off.toNat (rounds addr init last 0) 0 r.1.1 r.1.2 r.2 := by
  obtain ⟨b1, hrun1, hloaded1, hframe1⟩ := hloads.run other (((b.set_reg 3#4 repetitions).set_reg 4#4 0#32).set_reg 5#4 bank)
    (t + 1 + 1 + 1) (by intro id r hr; cases hr)
  have h3 : b1.regs 3#4 = repetitions := by simp [hframe1]
  have h4 : b1.regs 4#4 = 0#32 := by simp [hframe1]
  have h5 : b1.regs 5#4 = bank := by simp [hframe1]
  have hloaded2 := hloaded1.set_counter hlow (b1.regs 4#4 + (1#16).setWidth 32)
  obtain ⟨b2, hregs2, hrun2⟩ := time_all_repetition other hplaced h [.SLEEP (last.on - 2)] hloaded2
    (t + 1 + 1 + 1 + loads.length + 1 + 1)
  obtain ⟨hon, -⟩ := h last (by simp)
  have hsleep : (last.on - 2).toNat + 2 = last.on.toNat := by bv_omega
  have hwords : first_words repetitions bank registers loads init last = .LI 3#4 repetitions :: .LI 4#4 0#32 :: .LI 5#4 bank ::
      (loads ++ close_word :: .ADDI 4#4 4#4 1#16 :: (init.flatMap (access_words registers) ++
        open_word ((registers last.id).getD 0) :: [.SLEEP (last.on - 2)])) := by
    simp [first_words]
  have hbar : (b1.set_reg 4#4 (b1.regs 4#4 + (1#16).setWidth 32)).regs 5#4 = bank := by simp [h5]
  rw [hwords, time_all_LI, time_all_LI, time_all_LI, time_all_append, hrun1]
  simp only [time_all_close, time_all_ADDI, hrun2, time_all_SLEEP, time_all_nil, hsleep, hbar, h5]
  refine ⟨?_, ?_, ?_, ?_, ?_, ?_⟩
  · rw [hregs2, hbar]
  · simp [hregs2, h3]
  · simp [hregs2, h4]
  · exact hloaded2.of_regs hregs2
  · rw [rounds_zero, span_last]
    change _ = t + 3 + loads.length + 2 + (span (init.map (opening addr)) + (last.on.toNat + 1 + last.off.toNat))
    omega
  · have hpre : t + 1 + 1 + 1 + loads.length + 1 + 1 + span (init.map (opening addr)) + 1 + last.on.toNat =
        t + 3 + loads.length + 2 + span (init.map (opening addr)) + last.on.toNat + 1 := by omega
    rw [rounds_zero, opened_last, hpre]
    simp only [List.nil_append, List.cons_append, List.append_assoc]
    rfl

/-- The words between the label and the branch close the last row and open the
rows of a repetition. -/
theorem time_all_looped (hlow : ∀ id r, registers id = some r → 6 ≤ r.toNat ∧ r.toNat < 16) {b : Board}
    (hb : Loaded addr registers b) (t : Nat) :
    ∃ b', b'.regs = Function.update b.regs 4#4 (b.regs 4#4 + 1#32) ∧ Loaded addr registers b' ∧
      time_all other (looped_words registers init last) (b, t) =
        ((b', t + last.off.toNat + span (init.map (opening addr)) + 1 + (last.on - 6).toNat),
          (4 * t, .PRE (false, b.regs 5#4)) :: (opened (false, b.regs 5#4) (t + last.off.toNat) (init.map (opening addr)) ++
            [(4 * (t + last.off.toNat + span (init.map (opening addr))) + 1, .ACT (false, b.regs 5#4) (addr last.id))])) := by
  obtain ⟨hon, hoff⟩ := h last (by simp)
  have hloaded1 := hb.set_counter hlow (b.regs 4#4 + (1#16).setWidth 32)
  -- the PRE and the ADDI are part of the wait
  have hoff2 : t + 1 + 1 + (last.off - 2).toNat = t + last.off.toNat := by
    have hsub : (last.off - 2).toNat = last.off.toNat - 2 := by bv_omega
    have hpos : 2 ≤ last.off.toNat := by bv_omega
    omega
  have hwait := time_all_pause other 5 2 last.off (fun hn => by bv_omega)
    (init.flatMap (access_words registers) ++ open_word ((registers last.id).getD 0) :: pause 9 6 last.on)
  have htail := time_all_pause other 9 6 last.on (fun hn => by bv_omega) []
  obtain ⟨b2, hregs2, hrun2⟩ := time_all_repetition other hplaced h (pause 9 6 last.on) hloaded1 (t + last.off.toNat)
  have hwords : looped_words registers init last = close_word :: .ADDI 4#4 4#4 1#16 :: (pause 5 2 last.off ++
      (init.flatMap (access_words registers) ++ open_word ((registers last.id).getD 0) :: pause 9 6 last.on)) := by
    simp [looped_words]
  have hbar : (b.set_reg 4#4 (b.regs 4#4 + (1#16).setWidth 32)).regs 5#4 = b.regs 5#4 := by simp
  rw [List.append_nil] at htail
  rw [hwords, time_all_close, time_all_ADDI, hwait, hoff2, hrun2, htail, time_all_nil, hbar]
  exact ⟨b2, hregs2, hloaded1.of_regs hregs2, rfl⟩

/-- One looped repetition. -/
theorem repeating_step {c i : Nat} {b : Board} {t : Nat} {es : List Stamped}
    (hr : Repeating bank repetitions addr registers c last.off.toNat (rounds addr init last i) i b t es)
    (hlow : ∀ id r, registers id = some r → 6 ≤ r.toNat ∧ r.toNat < 16) {r : (Board × Nat) × List Stamped}
    (hrun : time_all other (looped_words registers init last) (b, t) = r) :
    Repeating bank repetitions addr registers c last.off.toNat (rounds addr init last (i + 1)) (i + 1) r.1.1
      (r.1.2 + branch_cycles) (es ++ r.2) := by
  obtain ⟨b', hregs, hloaded, hlooped⟩ := time_all_looped other hplaced h hlow hr.loaded t
  rw [hlooped, hr.bar] at hrun
  subst hrun
  -- the branch is part of the time the last row is open
  have hopen : t + last.off.toNat + span (init.map (opening addr)) + 1 + (last.on - 6).toNat + branch_cycles =
      t + last.off.toNat + span (init.map (opening addr)) + ((last.on - 6).toNat + 6) + 1 := by
    unfold branch_cycles
    omega
  refine ⟨?_, ?_, ?_, hloaded, ?_, ?_⟩
  · simp [hregs, hr.bar]
  · simp [hregs, hr.num]
  · simp [hregs, hr.cnt, BitVec.ofNat_add]
  · have hclock := hr.clock
    have hspan : span [looped addr last] = (last.on - 6).toNat + 6 + 1 + last.off.toNat := rfl
    rw [rounds_succ, span_append, span_append, hspan]
    dsimp only
    omega
  · -- the PRE of the last row and the openings behind it
    have hjoin : ∀ xs, (4 * c, Cmd.PRE (false, bank)) :: (opened (false, bank) (c + 2) (rounds addr init last i) ++ xs) =
        es ++ (4 * t, .PRE (false, bank)) :: xs := by
      intro xs
      rw [← List.cons_append, ← hr.issued, List.append_assoc]
      rfl
    dsimp only
    rw [rounds_succ, opened_append, ← hr.clock, opened_last, hopen, hjoin]
    simp only [List.cons_append, List.append_assoc, List.nil_append]
    rfl

end

/-! ## Runs -/

/-- The logical address of the row with an id. -/
def row_address (pattern : Pattern) (dram_info : DramInfo) (pivot_address id : CInt) : CInt :=
  dram_info.map_row (id - pattern.pivot_id + pivot_address)

/-- A pattern that passes the checks. -/
structure Admitted (pattern : Pattern) (dram_info : DramInfo) (bank pivot_address : CInt) : Prop where
  nonempty : pattern.access_pattern ≠ []
  ids : (pattern.access_pattern.map Access.id).toFinset.card ≤ 10
  bounds : ∀ a ∈ pattern.access_pattern, a.Bounded
  repetitions : pattern.repetitions ≠ 0
  bank : (bank.slt 0 || (dram_info.banks - 1).slt bank) = false
  fits : ((pivot_address + pattern.head_offset).slt 0 ||
    (dram_info.rows - 1).slt (pivot_address + pattern.tail_offset)) = false

theorem length_access_words (registers : Registers) {a : Access} (h : a.Bounded) : (access_words registers a).length ≤ 5 := by
  obtain ⟨-, hoff⟩ := h
  have hpause : (pause 4 1 a.off).length ≤ 2 := by
    unfold pause
    split
    · rw [List.length_replicate]
      bv_omega
    · exact Nat.le_succ 1
  unfold access_words
  simp only [List.length_append, List.length_cons, List.length_nil]
  omega

theorem length_flatMap_access_words (registers : Registers) {as : List Access} (h : ∀ a ∈ as, a.Bounded) :
    (as.flatMap (access_words registers)).length ≤ 5 * as.length := by
  induction as with
  | nil => exact le_rfl
  | cons a as ih =>
    have ha := length_access_words registers (h a (by simp))
    have has := ih fun a' ha' => h a' (by simp [ha'])
    rw [List.flatMap_cons, List.length_append, List.length_cons]
    omega

/-- The program of an admitted pattern. -/
theorem hammer_pattern_eq {pattern : Pattern} {dram_info : DramInfo} {bank pivot_address : CInt}
    (h : Admitted pattern dram_info bank pivot_address) {init : List Access} {last : Access}
    (hsplit : pattern.access_pattern = init ++ [last]) :
    ∃ registers loads pre body, hammer_pattern pattern dram_info bank pivot_address =
        .ok (if 1 < pattern.repetitions then
          build (loop pre body [close_row, add_inst SMC_END] REPETITIONS_COUNTER NUM_REPETITIONS "HMR_BEGIN")
          else build (pre ++ [close_row, add_inst SMC_END])) ∧
      Spells pre (first_words pattern.repetitions bank registers loads init last) ∧
      Spells body (looped_words registers init last) ∧
      LoadsRows (row_address pattern dram_info pivot_address) (fun _ => none) registers loads ∧
      loads.length ≤ pattern.access_pattern.length ∧ (∀ a ∈ init ++ [last], Placed registers a) ∧
      ∀ id r, registers id = some r → 6 ≤ r.toNat ∧ r.toNat < 16 := by
  have hbounds := h.bounds
  have hids := h.ids
  obtain ⟨registers, next, cs, loads, hmap, hallotted, hspells, hloads, hlen⟩ :=
    map_rows_spec pattern dram_info pivot_address pattern.access_pattern allotted_none (by simpa using hids)
  rw [Finset.empty_union] at hallotted
  have hplaced : ∀ a ∈ init ++ [last], Placed registers a := by
    intro a ha
    apply hallotted.placed hids
    rw [hsplit, List.mem_toFinset]
    exact List.mem_map_of_mem ha
  rw [hsplit] at hbounds
  obtain ⟨hon, hoff⟩ := hbounds last (by simp)
  have hinit : ∀ a ∈ init, a ∈ init ++ [last] := fun a ha => List.mem_append_left _ ha
  obtain ⟨first, hfirst, hspfirst⟩ := accesses_eq "A minimum of 5 on cycles are required for each row. (t_RAS = 33ns)"
    (fun a ha => hplaced a (hinit a ha)) fun a ha => hbounds a (hinit a ha)
  obtain ⟨sleepON, hsleep, hspON⟩ := sleep_for_eq (show 2 < last.on by bv_omega)
  obtain ⟨body, hbody, hspbody⟩ := rest_of_repetitions_eq hplaced hbounds
  have hopen := spells_open_placed (hplaced last (by simp))
  have hclose := spells_close.append spells_count
  have hstart : Spells [add_inst (SMC_LI pattern.repetitions NUM_REPETITIONS), add_inst (SMC_LI 0 REPETITIONS_COUNTER),
      add_inst (SMC_LI bank BANK_ADDRESS)] [.LI 3#4 pattern.repetitions, .LI 4#4 0#32, .LI 5#4 bank] :=
    ((spells_LI (by decide)).append (spells_LI (by decide))).append (spells_LI (by decide))
  refine ⟨registers, loads, _, body, ?_, ((((hstart.append hspells).append hclose).append hspfirst).append hopen).append hspON,
    hspbody, hloads, hlen, hplaced, hallotted.low hids⟩
  unfold hammer_pattern
  rw [hmap, hsplit, List.getLast?_concat, List.dropLast_concat]
  dsimp only
  -- no check fails
  rw [if_neg h.repetitions, if_neg (by rw [h.bank]; decide), if_neg (by rw [h.fits]; decide), bind_ok, hfirst, bind_ok,
    hsleep, bind_ok, hbody]
  split
  · rfl
  · rfl

/-- The branch is taken while repetitions are left. -/
theorem lt_repetitions {signed : Bool} (other : Mnemonic → Board → Board × List Cmd) {repetitions : CInt}
    (hs : signed = true → repetitions.toNat < 2 ^ 31) {b : Board} {i : Nat} (hcnt : b.regs 4#4 = BitVec.ofNat 32 (i + 1))
    (hnum : b.regs 3#4 = repetitions) (hi : i < repetitions.toNat) :
    (Board.isa signed other).lt b 4#4 3#4 = decide (i + 1 < repetitions.toNat) := by
  have hlt := repetitions.isLt
  cases signed with
  | true =>
    refine lt_counters true other hcnt ?_ (by have := hs rfl; omega) (hs rfl)
    rw [hnum, BitVec.ofNat_toNat, BitVec.setWidth_eq]
  | false =>
    change (b.regs 4#4).ult (b.regs 3#4) = _
    rw [hcnt, hnum, BitVec.ult_eq_decide, BitVec.toNat_ofNat]
    rcases Nat.lt_or_ge (i + 1) (2 ^ 32) with hsmall | hlarge
    · rw [Nat.mod_eq_of_lt hsmall]
    · omega

theorem straight_first_words {repetitions bank : CInt} {registers : Registers} {loads : List Mnemonic} (h : Straight loads)
    (init : List Access) (last : Access) : Straight (first_words repetitions bank registers loads init last) := by
  have hinit : Straight (init.flatMap (access_words registers)) := straight_flatMap straight_access_words
  simp [first_words, h, hinit, close_word, open_word]

theorem straight_looped_words (registers : Registers) (init : List Access) (last : Access) :
    Straight (looped_words registers init last) := by
  have hinit : Straight (init.flatMap (access_words registers)) := straight_flatMap straight_access_words
  simp [looped_words, hinit, straight_pause, close_word, open_word]

theorem spells_post : Spells [close_row, add_inst SMC_END] ([close_word] ++ [.END]) := spells_close.append spells_END

theorem straight_post : Straight [close_word] := by simp [close_word]

/-- The PRE at the end closes the last opening. -/
theorem Repeating.closed {bank repetitions : CInt} {addr : CInt → CInt} {registers : Registers} {c off : Nat} {xs : List Opening}
    {i : Nat} {b : Board} {t : Nat} {es : List Stamped} (h : Repeating bank repetitions addr registers c off xs i b t es)
    (other : Mnemonic → Board → Board × List Cmd) :
    es ++ (time_all other [close_word] (b, t)).2 = (4 * c, .PRE (false, bank)) :: opened (false, bank) (c + 2) xs := by
  rw [time_all_close, time_all_nil, h.bar]
  exact h.issued

/-- The code issues a PRE and then opens the rows, from any board and any time. -/
def Opens (bank : CInt) (xs : List Opening) (code : List (Act (Board × Nat) Stamped)) : Prop :=
  ∀ (b : Board) (t : Nat), ∃ c s', Halts code 0 (b, t) ((4 * c, .PRE (false, bank)) :: opened (false, bank) (c + 2) xs) s'

section
variable {bank repetitions : CInt} {addr : CInt → CInt} {registers : Registers} {loads : List Mnemonic} {init : List Access}
  {last : Access} {pre body : List Call} (hplaced : ∀ a ∈ init ++ [last], Placed registers a)
  (h : ∀ a ∈ init ++ [last], a.Bounded) (hloads : LoadsRows addr (fun _ => none) registers loads)
  (hlow : ∀ id r, registers id = some r → 6 ≤ r.toNat ∧ r.toNat < 16)
  (hpre : Spells pre (first_words repetitions bank registers loads init last))
  (signed : Bool) (other : Mnemonic → Board → Board × List Cmd)
include hplaced h hloads hlow hpre

/-- One repetition. -/
theorem opens_single : Opens bank (rounds addr init last 0)
    (Program.code (timed signed other) (build (pre ++ [close_row, add_inst SMC_END]))) := by
  intro b t
  have hspells : Spells (pre ++ [close_row, add_inst SMC_END])
      (first_words repetitions bank registers loads init last ++ [close_word] ++ [.END]) := by
    rw [List.append_assoc]
    exact hpre.append spells_post
  have hstraight : Straight (first_words repetitions bank registers loads init last ++ [close_word]) :=
    straight_append.2 ⟨straight_first_words hloads.straight init last, straight_post⟩
  have hh := halts_ended_block hspells hstraight (timed signed other) (b, t)
  have heffect : ∀ (ms : List Mnemonic) s, effects (ms.map (timed signed other).exec) s = time_all other ms s := fun _ _ => rfl
  have hr : Repeating bank repetitions addr registers _ _ _ 0 _ _ _ :=
    repeating_start other hplaced h hloads hlow b t
  rw [heffect, time_all_append, hr.closed other] at hh
  exact ⟨_, _, hh⟩

/-- Repetitions in the loop. -/
theorem opens_repeated (hbody : Spells body (looped_words registers init last)) (hone : 1 < repetitions)
    (hs : signed = true → repetitions.toNat < 2 ^ 31) : Opens bank (rounds addr init last (repetitions.toNat - 1))
    (Program.code (timed signed other)
      (build (loop pre body [close_row, add_inst SMC_END] REPETITIONS_COUNTER NUM_REPETITIONS "HMR_BEGIN"))) := by
  intro b t
  have hn : 0 < repetitions.toNat - 1 := by bv_omega
  obtain ⟨⟨b1, t1⟩, es1, hh, hr⟩ : ∃ (s1 : Board × Nat) (es1 : List Stamped),
      Halts (Program.code (timed signed other)
          (build (loop pre body [close_row, add_inst SMC_END] REPETITIONS_COUNTER NUM_REPETITIONS "HMR_BEGIN"))) 0 (b, t)
        (es1 ++ (time_all other [close_word] s1).2) (time_all other [close_word] s1).1 ∧
      Repeating bank repetitions addr registers (t + 3 + loads.length) last.off.toNat
        (rounds addr init last (repetitions.toNat - 1)) (repetitions.toNat - 1) s1.1 s1.2 es1 := by
    refine halts_ended_loop hpre hbody spells_post (by decide) (by decide) (straight_first_words hloads.straight init last)
      (straight_looped_words registers init last) straight_post (timed signed other) hn
      (fun i s es => Repeating bank repetitions addr registers (t + 3 + loads.length) last.off.toNat
        (rounds addr init last i) i s.1 s.2 es) (b, t) (repeating_start other hplaced h hloads hlow b t) ?_
    rintro i ⟨b, t⟩ es hi hr
    have hnext := repeating_step other hplaced h hr hlow rfl
    rw [time_all_branch]
    refine ⟨hnext, (lt_repetitions other hs hnext.cnt hnext.num (by omega)).trans ?_⟩
    exact decide_eq_decide.2 (by omega)
  rw [hr.closed other] at hh
  exact ⟨_, _, hh⟩

end

/-- A run of an admitted pattern. -/
theorem hammer_pattern_run {pattern : Pattern} {dram_info : DramInfo} {bank pivot_address : CInt}
    (h : Admitted pattern dram_info bank pivot_address) {init : List Access} {last : Access}
    (hsplit : pattern.access_pattern = init ++ [last]) {signed : Bool}
    (hs : signed = true → pattern.repetitions.toNat < 2 ^ 31) (other : Mnemonic → Board → Board × List Cmd) :
    ∃ p, hammer_pattern pattern dram_info bank pivot_address = .ok p ∧
      Opens bank (rounds (row_address pattern dram_info pivot_address) init last (pattern.repetitions.toNat - 1))
        (Program.code (timed signed other) p) := by
  have hbounds := h.bounds
  rw [hsplit] at hbounds
  obtain ⟨registers, loads, pre, body, hgen, hpre, hbody, hloads, -, hplaced, hlow⟩ := hammer_pattern_eq h hsplit
  have hnonzero : pattern.repetitions.toNat ≠ 0 := fun hzero => h.repetitions (BitVec.eq_of_toNat_eq hzero)
  by_cases hone : 1 < pattern.repetitions
  · rw [if_pos hone] at hgen
    exact ⟨_, hgen, opens_repeated hplaced hbounds hloads hlow hpre signed other hbody hone hs⟩
  · rw [if_neg hone] at hgen
    have hzero : pattern.repetitions.toNat - 1 = 0 := by bv_omega
    rw [hzero]
    exact ⟨_, hgen, opens_single hplaced hbounds hloads hlow hpre signed other⟩

/-- With 40000 accesses the address of the label fits into its branch, and the
concluded program does the same. -/
theorem hammer_pattern_concludes {pattern : Pattern} {dram_info : DramInfo} {bank pivot_address : CInt}
    (h : Admitted pattern dram_info bank pivot_address) (hlen : pattern.access_pattern.length ≤ 40000) :
    ∃ p img, hammer_pattern pattern dram_info bank pivot_address = .ok p ∧ p.conclude = some img ∧
      ∀ signed other xs, Opens bank xs (Program.code (timed signed other) p) →
        Opens bank xs (img.get_inst_seq.map (timed signed other).act) := by
  obtain ⟨init, last, hsplit⟩ := (List.eq_nil_or_concat' pattern.access_pattern).resolve_left h.nonempty
  have hbounds := h.bounds
  rw [hsplit] at hbounds
  obtain ⟨registers, loads, pre, body, hgen, hpre, hbody, hloads, hrows, -, -⟩ := hammer_pattern_eq h hsplit
  have hshort : (first_words pattern.repetitions bank registers loads init last).length < 262144 := by
    have hinit := length_flatMap_access_words registers fun a ha => hbounds a (List.mem_append_left _ ha)
    rw [hsplit, List.length_append, List.length_singleton] at hlen hrows
    simp only [first_words, List.length_append, List.length_cons, List.length_nil]
    omega
  obtain ⟨cs, hcs, hmade, hlabelled, hfit⟩ : ∃ cs, hammer_pattern pattern dram_info bank pivot_address = .ok (build cs) ∧
      (∀ c ∈ cs, c.WellMade) ∧ Program.Labelled cs ∧ ∀ (b : Nat) tgt, (build cs).branches[b]? = some tgt →
        Insert.entry (build cs).concludeMark (Program.label_pc cs tgt) < 524288 := by
    by_cases hone : 1 < pattern.repetitions
    · rw [if_pos hone] at hgen
      exact ⟨_, hgen, Program.loop_made hpre.block hbody.block spells_post.block (by decide) (by decide),
        Program.loop_labelled hpre.block hbody.block spells_post.block,
        fun b tgt hb => loop_target_lt hpre hbody spells_post.block hshort hb⟩
    · rw [if_neg hone] at hgen
      have hblock := (hpre.append spells_post).block
      exact ⟨_, hgen, hblock.made, hblock.labelled, fun b tgt hb => by rw [hblock.branch_none] at hb; cases hb⟩
  obtain ⟨img, -, himg, -⟩ := Program.conclude_spec (Program.linkable_build hmade)
  refine ⟨_, img, hcs, himg, fun signed other xs hopens b t => ?_⟩
  obtain ⟨c, s', hh⟩ := hopens b t
  exact ⟨c, s', Program.halts_conclude _ hmade hlabelled hfit himg (hh.append [.halt])⟩

/-! ## Exact times -/

/-- The openings a pattern asks for. -/
def openings (pattern : Pattern) (dram_info : DramInfo) (pivot_address : CInt) : List Opening :=
  (List.replicate pattern.repetitions.toNat
    (pattern.access_pattern.map (opening (row_address pattern dram_info pivot_address)))).flatten

/-- The generator returns, and a run of its program opens the rows as the pattern
asks, and issues nothing else but a PRE before. -/
def Exact (pattern : Pattern) (dram_info : DramInfo) (bank pivot_address : CInt) (signed : Bool)
    (other : Mnemonic → Board → Board × List Cmd) : Prop :=
  ∃ p, hammer_pattern pattern dram_info bank pivot_address = .ok p ∧
    Opens bank (openings pattern dram_info pivot_address) (Program.code (timed signed other) p)

/-- The generator returns, and a run of its program, once concluded, does the
same. -/
def ImageExact (pattern : Pattern) (dram_info : DramInfo) (bank pivot_address : CInt) (signed : Bool)
    (other : Mnemonic → Board → Board × List Cmd) : Prop :=
  ∃ p img, hammer_pattern pattern dram_info bank pivot_address = .ok p ∧ p.conclude = some img ∧
    Opens bank (openings pattern dram_info pivot_address) (img.get_inst_seq.map (timed signed other).act)

theorem looped_eq {addr : CInt → CInt} {last : Access} (h : 6 ≤ last.on) : looped addr last = opening addr last := by
  have hon : (last.on - 6).toNat + 6 = last.on.toNat := by bv_omega
  unfold looped opening
  rw [hon]

section
variable {pattern : Pattern} {dram_info : DramInfo} {bank pivot_address : CInt} {init : List Access} {last : Access}
  (hsplit : pattern.access_pattern = init ++ [last])
include hsplit

theorem rounds_eq_openings (hpos : pattern.repetitions ≠ 0) (h : pattern.repetitions = 1 ∨ 6 ≤ last.on) :
    rounds (row_address pattern dram_info pivot_address) init last (pattern.repetitions.toNat - 1) =
      openings pattern dram_info pivot_address := by
  unfold openings
  rw [hsplit]
  rcases h with hone | hon
  · rw [hone]
    change rounds _ init last 0 = (List.replicate 1 _).flatten
    rw [rounds_zero, List.replicate_one, List.flatten_singleton, List.map_append]
    rfl
  · have hnonzero : pattern.repetitions.toNat ≠ 0 := fun hzero => hpos (BitVec.eq_of_toNat_eq hzero)
    obtain ⟨n, hn⟩ := Nat.exists_eq_succ_of_ne_zero hnonzero
    rw [hn, Nat.succ_sub_one, rounds, looped_eq hon, List.replicate_succ, List.flatten_cons, List.map_append]
    rfl

/-- Of the openings one can read off that the last one in the loop is long
enough. -/
theorem on_of_rounds_eq (hone : 1 < pattern.repetitions)
    (h : (rounds (row_address pattern dram_info pivot_address) init last (pattern.repetitions.toNat - 1)).map Opening.on =
      (openings pattern dram_info pivot_address).map Opening.on) : 6 ≤ last.on := by
  obtain ⟨n, hn⟩ : ∃ n, pattern.repetitions.toNat = n + 1 + 1 := ⟨pattern.repetitions.toNat - 2, by bv_omega⟩
  unfold rounds openings at h
  rw [hsplit, hn, Nat.add_sub_cancel, List.replicate_succ, List.replicate_succ, List.replicate_succ, List.flatten_cons,
    List.flatten_cons, List.flatten_cons] at h
  simp only [List.map_append] at h
  -- the second repetition's last opening is the loop's
  have hsecond := List.append_cancel_left h
  have hblock := (List.append_inj hsecond (by simp)).1
  have hlast := List.append_cancel_left hblock
  have hon : (last.on - 6).toNat + 6 = last.on.toNat := List.head_eq_of_cons_eq hlast
  bv_omega

/-- What code can be said to open is what it opens. -/
theorem opens_openings_iff (hnonzero : pattern.repetitions ≠ 0) {code : List (Act (Board × Nat) Stamped)}
    (hrun : Opens bank (rounds (row_address pattern dram_info pivot_address) init last (pattern.repetitions.toNat - 1)) code) :
    Opens bank (openings pattern dram_info pivot_address) code ↔ pattern.repetitions = 1 ∨ 6 ≤ last.on := by
  constructor
  · intro hopens
    obtain ⟨c, s1, hh⟩ := hrun .zero 0
    obtain ⟨c', s2, hh'⟩ := hopens .zero 0
    obtain ⟨hes, -⟩ := hh.det hh'
    rw [List.cons.injEq] at hes
    by_cases hone : pattern.repetitions = 1
    · exact .inl hone
    · exact .inr (on_of_rounds_eq hsplit (by bv_omega) (opened_inj hes.2))
  · intro hwhen
    rw [← rounds_eq_openings hsplit hnonzero hwhen]
    exact hrun

variable (h : Admitted pattern dram_info bank pivot_address) {signed : Bool}
  (hs : signed = true → pattern.repetitions.toNat < 2 ^ 31) (other : Mnemonic → Board → Board × List Cmd)
include h hs

theorem exact_iff_of_split :
    Exact pattern dram_info bank pivot_address signed other ↔ pattern.repetitions = 1 ∨ 6 ≤ last.on := by
  obtain ⟨p, hp, hrun⟩ := hammer_pattern_run h hsplit hs other
  refine Iff.trans ⟨?_, fun hopens => ⟨p, hp, hopens⟩⟩ (opens_openings_iff hsplit h.repetitions hrun)
  rintro ⟨p', hp', hopens⟩
  obtain rfl := Except.ok.inj (hp.symm.trans hp')
  exact hopens

theorem imageExact_iff_of_split (hlen : pattern.access_pattern.length ≤ 40000) :
    ImageExact pattern dram_info bank pivot_address signed other ↔ pattern.repetitions = 1 ∨ 6 ≤ last.on := by
  obtain ⟨p, hp, hrun⟩ := hammer_pattern_run h hsplit hs other
  obtain ⟨p', img, hp', himg, hconcludes⟩ := hammer_pattern_concludes h hlen
  obtain rfl := Except.ok.inj (hp.symm.trans hp')
  refine Iff.trans ⟨?_, fun hopens => ⟨p, img, hp, himg, hopens⟩⟩
    (opens_openings_iff hsplit h.repetitions (hconcludes signed other _ hrun))
  rintro ⟨p', img', hp', himg', hopens⟩
  obtain rfl := Except.ok.inj (hp.symm.trans hp')
  obtain rfl := Option.some.inj (himg.symm.trans himg')
  exact hopens

end

/-- A pattern is hammered with exact times if and only if it is not repeated or
its last access is on for at least six cycles, and so it is by the concluded
program, as long as the address of the label fits into its branch. -/
theorem hammer_pattern_exact_iff {pattern : Pattern} {dram_info : DramInfo} {bank pivot_address : CInt}
    (h : Admitted pattern dram_info bank pivot_address) {last : Access}
    (hlast : pattern.access_pattern.getLast? = some last) {signed : Bool}
    (hs : signed = true → pattern.repetitions.toNat < 2 ^ 31) (other : Mnemonic → Board → Board × List Cmd) :
    (Exact pattern dram_info bank pivot_address signed other ↔ pattern.repetitions = 1 ∨ 6 ≤ last.on) ∧
      (pattern.access_pattern.length ≤ 40000 →
        (ImageExact pattern dram_info bank pivot_address signed other ↔ pattern.repetitions = 1 ∨ 6 ≤ last.on)) := by
  obtain ⟨init, hsplit⟩ := List.getLast?_eq_some_iff.1 hlast
  exact ⟨exact_iff_of_split hsplit h hs other, imageExact_iff_of_split hsplit h hs other⟩

/-- Two rows, hammered three times. -/
def twoRows : Pattern := ⟨[⟨0, 5, 2⟩, ⟨2, 6, 2⟩], 3, 1, -1, 1⟩

/-- A row that is on for the least time, hammered twice. -/
def oneRow : Pattern := ⟨[⟨0, 5, 2⟩], 2, 0, 0, 0⟩

def plainInfo : DramInfo := ⟨16, 65536, fun row => row⟩

theorem hammer_pattern_exact_twoRows : Exact twoRows plainInfo 1 100 false (fun _ b => (b, [])) ∧
    ImageExact twoRows plainInfo 1 100 false fun _ b => (b, []) := by
  have h : Admitted twoRows plainInfo 1 100 := by
    refine ⟨by simp [twoRows], by decide, ?_, by decide, by decide, by decide⟩
    simp only [twoRows, List.mem_cons, List.not_mem_nil, or_false]
    rintro a (rfl | rfl)
    · exact ⟨by decide, by decide⟩
    · exact ⟨by decide, by decide⟩
  have hs : false = true → twoRows.repetitions.toNat < 2 ^ 31 := by decide
  obtain ⟨hexact, himage⟩ := hammer_pattern_exact_iff h rfl hs fun _ b => (b, [])
  exact ⟨hexact.2 (.inr (by decide)), (himage (by decide)).2 (.inr (by decide))⟩

/-- In the loop `last_on - 6` wraps around: the row stays on for more than
`2 ^ 32` cycles. -/
theorem hammer_pattern_late : ¬ ∀ pattern dram_info bank pivot_address, Admitted pattern dram_info bank pivot_address →
    Exact pattern dram_info bank pivot_address false fun _ b => (b, []) := by
  intro hall
  have h : Admitted oneRow plainInfo 1 100 := by
    refine ⟨by simp [oneRow], by decide, ?_, by decide, by decide, by decide⟩
    simp only [oneRow, List.mem_cons, List.not_mem_nil, or_false]
    rintro a rfl
    exact ⟨by decide, by decide⟩
  have hexact := hall _ _ _ _ h
  have hsplit : oneRow.access_pattern = [] ++ [⟨0, 5, 2⟩] := rfl
  have hwhen := (exact_iff_of_split hsplit h (by decide) _).1 hexact
  rcases hwhen with hone | hon
  · exact absurd hone (by decide)
  · exact absurd hon (by decide)

end DCT
