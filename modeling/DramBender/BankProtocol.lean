import Mathlib
import DramBender.Board
import DramBender.Pieces
import DramBender.Lib.Monitor
/-!
# The bank protocol

A machine that tracks which banks have an open row allows an ACT only on a
closed bank and a READ or WRITE only on an open one. `flow` follows what the
generators' words do to the one bank they address; where it gets through the
calls, the image keeps to the protocol (`Follows.obeys`).
-/

namespace DCT

open DRAMBender Machine
open DRAMBender.Board
open Program (Piece Block listing packed queue_after linked loop loop_listing build)
open Call (add_inst add_inst4 add_mininst pack_minprogram)
open ReservedReg

/-! ## Tracking the banks -/

section
variable {β : Type} [DecidableEq β] (phys : CInt → β)

/-- Which banks have an open row. `phys` is the bank that the content of a bank
address register stands for. -/
abbrev Banks (β : Type) := Bool × β → Bool

def phys_bank (bank : Bank) : Bool × β := (bank.1, phys bank.2)

/-- What a command needs of the banks. -/
def allowed (m : Banks β) : Cmd → Bool
  | .ACT bank _ => !m (phys_bank phys bank)
  | .WR bank _ _ _ => m (phys_bank phys bank)
  | .RD bank _ _ _ => m (phys_bank phys bank)
  | _ => true

/-- What a command does to the banks. -/
def track (m : Banks β) : Cmd → Banks β
  | .ACT bank _ => Function.update m (phys_bank phys bank) true
  | .PRE bank => Function.update m (phys_bank phys bank) false
  | .PREA rank => fun x => m x && x.1 != rank
  | .WR bank _ ap _ => if ap then Function.update m (phys_bank phys bank) false else m
  | .RD bank _ ap _ => if ap then Function.update m (phys_bank phys bank) false else m
  | .REF _ => m

/-- No command comes when the banks do not allow it. -/
def Obeys (m : Banks β) (es : List Cmd) : Prop :=
  ∀ es1 c es2, es = es1 ++ c :: es2 → allowed phys (es1.foldl (track phys) m) c = true

/-- `allowed` and `track` as a monitor. -/
def watch (m : Banks β) (c : Cmd) : Option (Banks β) := if allowed phys m c then some (track phys m c) else none

theorem foldl_track {m m' : Banks β} {es : List Cmd} (h : es.foldlM (watch phys) m = some m') :
    es.foldl (track phys) m = m' := by
  induction es generalizing m with
  | nil => exact Option.some.inj h
  | cons c es ih =>
    rw [List.foldlM_cons, watch] at h
    split_ifs at h
    · exact ih h
    · cases h

theorem obeys_of_watch {m m' : Banks β} {es : List Cmd} (h : es.foldlM (watch phys) m = some m') : Obeys phys m es := by
  rintro es1 c es2 rfl
  rw [List.foldlM_append] at h
  obtain ⟨m1, h1, h2⟩ := Option.bind_eq_some_iff.1 h
  rw [foldl_track phys h1]
  by_contra hc
  rw [List.foldlM_cons, watch, if_neg hc] at h2
  cases h2

theorem Obeys.append {m : Banks β} {es es' : List Cmd} (h : Obeys phys m es)
    (h' : Obeys phys (es.foldl (track phys) m) es') : Obeys phys m (es ++ es') := by
  intro es1 c es2 he
  rcases List.append_eq_append_iff.1 he with ⟨as, rfl, ha⟩ | ⟨bs, rfl, hb⟩
  · rw [List.foldl_append]
    exact h' as c es2 ha
  · cases bs with
    | nil =>
      rw [List.append_nil] at h'
      exact h' [] c es2 hb.symm
    | cons b bs =>
      obtain ⟨rfl, rfl⟩ := List.cons.inj hb
      exact h es1 _ bs rfl

end

/-! ## Following one bank -/

/-- What is known of the bank: nothing, not even that BAR holds it; that BAR
holds it; that it is closed, or open, as well. -/
inductive Phase where
  | start | unknown | closed | opened
  deriving DecidableEq

namespace Phase

/-- What one slot does to the bank in BAR, if it is as the protocol wants it. -/
def ddr (a : Phase) : Ddr → Option Phase
  | .NOP _ => some a
  | .PRE bar ibar pall rank =>
    if bar = 4#4 ∧ ibar = false ∧ pall = false ∧ rank = false ∧ a ≠ start then some closed else none
  | .ACT bar ibar _ irar rank =>
    if bar = 4#4 ∧ ibar = false ∧ irar = false ∧ rank = false ∧ a = closed then some opened else none
  | .WR bar ibar car _ ap rank =>
    if bar = 4#4 ∧ ibar = false ∧ car ≠ 4#4 ∧ ap = false ∧ rank = false ∧ a = opened then some opened else none
  | .RD bar ibar car _ ap rank =>
    if bar = 4#4 ∧ ibar = false ∧ car ≠ 4#4 ∧ ap = false ∧ rank = false ∧ a = opened then some opened else none
  | _ => none

/-- What one word does. -/
def flow (bank : CInt) (a : Phase) : Mnemonic → Option Phase
  | .DDR s0 s1 s2 s3 => [s0, s1, s2, s3].foldlM ddr a
  | .LI rt imd => if rt = 4#4 then if a = start ∧ imd = bank then some unknown else none else some a
  | .ADDI rt _ _ => if rt = 4#4 then none else some a
  | .MOV rt _ => if rt = 4#4 then none else some a
  | .LD rt _ _ => if rt = 4#4 then none else some a
  | .LDWD _ _ => some a
  | .ST _ _ _ => some a
  | .SLEEP _ => some a
  | .BL _ _ _ => some a
  | .INFO => some a
  | .END => some a
  | _ => none

/-- What a phase says of the board and the banks. -/
def Holds {β : Type} (phys : CInt → β) (bank : CInt) : Phase → Board → Banks β → Prop
  | start, _, _ => True
  | unknown, b, _ => b.regs 4#4 = bank
  | closed, b, m => b.regs 4#4 = bank ∧ m (false, phys bank) = false
  | opened, b, m => b.regs 4#4 = bank ∧ m (false, phys bank) = true

end Phase

section
variable {β : Type} [DecidableEq β] {phys : CInt → β} {bank : CInt}

omit [DecidableEq β] in
/-- Registers other than BAR do not matter. -/
theorem Phase.Holds.congr {a : Phase} {b b' : Board} {m : Banks β} (h : a.Holds phys bank b m) (hr : b'.regs 4#4 = b.regs 4#4) :
    a.Holds phys bank b' m := by
  unfold Holds at h ⊢
  cases a with
  | start => trivial
  | unknown => exact hr.trans h
  | closed => exact ⟨hr.trans h.1, h.2⟩
  | opened => exact ⟨hr.trans h.1, h.2⟩

omit [DecidableEq β] in
theorem Phase.Holds.bar {a : Phase} {b : Board} {m : Banks β} (h : a.Holds phys bank b m) (ha : a ≠ start) :
    b.regs 4#4 = bank := by
  unfold Holds at h
  cases a with
  | start => exact absurd rfl ha
  | unknown => exact h
  | closed => exact h.1
  | opened => exact h.1

/-- One slot, past the monitor. -/
theorem ddr_sound {a a' : Phase} {d : Ddr} (h : a.ddr d = some a') {b : Board} {m : Banks β}
    (hg : a.Holds phys bank b m) :
    ∃ m', (b.issue d).2.foldlM (watch phys) m = some m' ∧ a'.Holds phys bank (b.issue d).1 m' := by
  cases d with
  | NOP rank =>
    obtain rfl := Option.some.inj h
    exact ⟨m, rfl, hg⟩
  | PRE bar ibar pall rank =>
    rw [Phase.ddr, Option.ite_none_right_eq_some] at h
    obtain ⟨⟨rfl, rfl, rfl, rfl, ha⟩, h⟩ := h
    obtain rfl := Option.some.inj h
    have hbar := hg.bar ha
    refine ⟨Function.update m (false, phys bank) false, ?_, hbar, Function.update_self ..⟩
    simp [issue, watch, allowed, track, phys_bank, hbar]
  | ACT bar ibar rar irar rank =>
    rw [Phase.ddr, Option.ite_none_right_eq_some] at h
    obtain ⟨⟨rfl, rfl, rfl, rfl, rfl⟩, h⟩ := h
    obtain rfl := Option.some.inj h
    obtain ⟨hbar, hm⟩ := hg
    refine ⟨Function.update m (false, phys bank) true, ?_, hbar, Function.update_self ..⟩
    simp [issue, watch, allowed, track, phys_bank, hbar, hm]
  | WR bar ibar car icar ap rank | RD bar ibar car icar ap rank =>
    rw [Phase.ddr, Option.ite_none_right_eq_some] at h
    obtain ⟨⟨rfl, rfl, hcar, rfl, rfl, rfl⟩, h⟩ := h
    obtain rfl := Option.some.inj h
    obtain ⟨hbar, hm⟩ := hg
    refine ⟨m, by simp [issue, watch, allowed, track, phys_bank, hbar, hm], ?_, hm⟩
    cases icar <;> simp [issue, increment, set_reg, Function.update, hbar, hcar.symm]
  | _ => cases h

/-- The slots of a word, past the monitor. -/
theorem ddrs_sound {ds : List Ddr} {a a' : Phase} (h : ds.foldlM Phase.ddr a = some a') {b : Board} {m : Banks β}
    (hg : a.Holds phys bank b m) :
    ∃ m', (b.issue_all ds).2.foldlM (watch phys) m = some m' ∧ a'.Holds phys bank (b.issue_all ds).1 m' := by
  induction ds generalizing a b m with
  | nil =>
    obtain rfl := Option.some.inj h
    exact ⟨m, rfl, hg⟩
  | cons d ds ih =>
    rw [List.foldlM_cons] at h
    obtain ⟨a1, h1, h2⟩ := Option.bind_eq_some_iff.1 h
    obtain ⟨m1, hm1, hg1⟩ := ddr_sound h1 hg
    obtain ⟨m2, hm2, hg2⟩ := ih h2 hg1
    refine ⟨m2, ?_, hg2⟩
    change ((b.issue d).2 ++ ((b.issue d).1.issue_all ds).2).foldlM (watch phys) m = some m2
    rw [List.foldlM_append, hm1]
    exact hm2

/-- An effect without commands that leaves BAR alone. -/
theorem quiet_sound {a : Phase} {b : Board} {m : Banks β} (hg : a.Holds phys bank b m) {r : Board × List Cmd}
    (he : r.2 = []) (hr : r.1.regs 4#4 = b.regs 4#4) :
    ∃ m', r.2.foldlM (watch phys) m = some m' ∧ a.Holds phys bank r.1 m' :=
  ⟨m, by rw [he]; rfl, hg.congr hr⟩

theorem set_reg_bar {b : Board} {rt : Reg} (h : rt ≠ 4#4) (v : CInt) : (b.set_reg rt v).regs 4#4 = b.regs 4#4 := by
  simp [set_reg, Function.update, h.symm]

/-- Writing a register that is not BAR. -/
theorem set_reg_sound {a a' : Phase} {b : Board} {m : Banks β} (hg : a.Holds phys bank b m) {rt : Reg} (v : CInt)
    (hk : (if rt = 4#4 then none else some a) = some a') {r : Board × List Cmd} (hr : r = (b.set_reg rt v, [])) :
    ∃ m', r.2.foldlM (watch phys) m = some m' ∧ a'.Holds phys bank r.1 m' := by
  rw [Option.ite_none_left_eq_some] at hk
  obtain ⟨hrt, hk⟩ := hk
  obtain rfl := Option.some.inj hk
  rw [hr]
  exact quiet_sound hg rfl (set_reg_bar hrt v)

theorem load_sound {a a' : Phase} {b : Board} {m : Banks β} (hg : a.Holds phys bank b m) {rt : Reg} {imd : CInt}
    (hk : a.flow bank (.LI rt imd) = some a') :
    ∃ m', ([] : List Cmd).foldlM (watch phys) m = some m' ∧ a'.Holds phys bank (b.set_reg rt imd) m' := by
  change (if rt = 4#4 then if a = .start ∧ imd = bank then some Phase.unknown else none else some a) = some a' at hk
  by_cases hrt : rt = 4#4
  · rw [if_pos hrt, Option.ite_none_right_eq_some] at hk
    obtain ⟨⟨-, rfl⟩, hk⟩ := hk
    obtain rfl := Option.some.inj hk
    refine ⟨m, rfl, ?_⟩
    simp [hrt, Phase.Holds, set_reg]
  · rw [if_neg hrt] at hk
    obtain rfl := Option.some.inj hk
    exact ⟨m, rfl, hg.congr (set_reg_bar hrt imd)⟩

theorem flow_sound (signed : Bool) (other : Mnemonic → Board → Board × List Cmd) :
    Sound (Board.isa signed other).actOf (watch phys) (Phase.Holds phys bank) (Phase.flow bank) := by
  intro a a' k f hk hf b m hg
  cases k with
  | DDR s0 s1 s2 s3 =>
    obtain he | ⟨taken, tgt, he⟩ := hf
    · obtain rfl := Act.exec.inj he
      exact ddrs_sound hk hg
    · cases he
  | LI rt imd =>
    obtain he | ⟨taken, tgt, he⟩ := hf
    · obtain rfl := Act.exec.inj he
      exact load_sound hg hk
    · cases he
  | ADDI | MOV | LD =>
    obtain he | ⟨taken, tgt, he⟩ := hf
    · obtain rfl := Act.exec.inj he
      exact set_reg_sound hg _ hk rfl
    · cases he
  | LDWD | ST | SLEEP | INFO =>
    obtain he | ⟨taken, tgt, he⟩ := hf
    · obtain rfl := Act.exec.inj he
      obtain rfl := Option.some.inj hk
      exact quiet_sound hg rfl rfl
    · cases he
  | BL bt rs1 rs2 =>
    obtain he | ⟨taken, tgt, he⟩ := hf
    · cases he
    · obtain ⟨rfl, -, -⟩ := Act.branch.inj he
      obtain rfl := Option.some.inj hk
      exact quiet_sound hg rfl rfl
  | END => rcases hf with he | ⟨taken, tgt, he⟩ <;> cases he
  | _ => cases hk

end

/-! ## Following a generator's calls -/

section
variable {bank : CInt}

@[simp] theorem flow_LI (a : Phase) {rt : Reg} (imd : CInt) (h : rt ≠ 4#4) : a.flow bank (.LI rt imd) = some a := if_neg h

@[simp] theorem flow_bank : Phase.start.flow bank (.LI 4#4 bank) = some .unknown := by
  change (if (4#4 : Reg) = 4#4 then if Phase.start = .start ∧ bank = bank then some Phase.unknown else none
    else some .start) = some .unknown
  rw [if_pos rfl, if_pos ⟨rfl, rfl⟩]

@[simp] theorem flow_ADDI (a : Phase) {rt : Reg} (rs1 : Reg) (imd1 : BitVec 16) (h : rt ≠ 4#4) :
    a.flow bank (.ADDI rt rs1 imd1) = some a := if_neg h

@[simp] theorem flow_LD (a : Phase) {rt : Reg} (rs1 : Reg) (imd1 : BitVec 16) (h : rt ≠ 4#4) :
    a.flow bank (.LD rt rs1 imd1) = some a := if_neg h

@[simp] theorem flow_LDWD (a : Phase) (rt rs1 : Reg) : a.flow bank (.LDWD rt rs1) = some a := rfl

@[simp] theorem flow_ST (a : Phase) (rt rs1 : Reg) (imd1 : BitVec 16) : a.flow bank (.ST rs1 imd1 rt) = some a := rfl

@[simp] theorem flow_SLEEP (a : Phase) (samt : BitVec 32) : a.flow bank (.SLEEP samt) = some a := rfl

theorem flow_DDR (a : Phase) (s0 s1 s2 s3 : Ddr) :
    a.flow bank (.DDR s0 s1 s2 s3) = [s0, s1, s2, s3].foldlM Phase.ddr a := rfl

@[simp] theorem flow_only (a : Phase) (d : Ddr) : a.flow bank (only d) = a.ddr d := by
  change (a.ddr d >>= fun a => some a) = a.ddr d
  cases a.ddr d <;> rfl

@[simp] theorem flow_only_last (a : Phase) (d : Ddr) : a.flow bank (only_last d) = a.ddr d := by
  change (a.ddr d >>= fun a => some a) = a.ddr d
  cases a.ddr d <;> rfl

@[simp] theorem flow_NOPS (a : Phase) : a.flow bank NOPS = some a := rfl

end

/-- Calls that take what is known of the bank from `a` to `a'`. -/
structure Carries (bank : CInt) (a : Phase) (cs : List Call) (a' : Phase) : Prop where
  block : Block cs
  flow : (listing cs).foldlM (Phase.flow bank) a = some a'

section
variable {bank : CInt} {a a1 a' : Phase} {cs ds : List Call}

theorem Carries.append (h : Carries bank a cs a1) (h' : Carries bank a1 ds a') : Carries bank a (cs ++ ds) a' := by
  refine ⟨h.block.append h'.block, ?_⟩
  rw [Program.listing_append h.block, List.foldlM_append, h.flow]
  exact h'.flow

theorem carries_nil (bank : CInt) (a : Phase) : Carries bank a [] a := ⟨.nil, rfl⟩

/-- Repeating calls that change nothing known. -/
theorem carries_flatMap {ι : Type} {l : List ι} {f : ι → List Call} (h : ∀ x ∈ l, Carries bank a (f x) a) :
    Carries bank a (l.flatMap f) a := by
  induction l with
  | nil => exact carries_nil bank a
  | cons x l ih =>
    rw [List.flatMap_cons]
    exact (h x (by simp)).append (ih fun y hy => h y (by simp [hy]))

theorem carries_SLEEP {samt : CInt} (h : 2 < samt) : Carries bank a [add_inst (sleepWord samt)] a :=
  ⟨(piece_SLEEP h).block, by simp [listing_SLEEP [] h]⟩

theorem carries_sleep {samt : CInt} (h : sleep samt = some cs) : Carries bank a cs a := by
  obtain ⟨hs, rfl⟩ := sleep_eq h
  exact carries_SLEEP hs

theorem carries_sleep_above_one {step n : CInt} (h : sleep_above_one step n = some cs) : Carries bank a cs a := by
  rcases sleep_above_one_eq h with rfl | ⟨samt, hs, rfl⟩
  · exact carries_nil bank a
  · exact carries_SLEEP hs

theorem carries_load_pattern (wr_pattern : WritePattern_t) : Carries bank a (load_pattern wr_pattern) a := by
  refine carries_flatMap fun i _ => ⟨block_of_pieces (by simp), ?_⟩
  rw [listing_LI _ (by decide), listing_LDWD _ (by decide) (ofNat_lt_16 i.isLt)]
  simp [PATTERN_REG]

theorem carries_load_word : Carries bank a load_word a := by
  have h : load_word = (List.range 16).flatMap fun i => [add_inst (SMC_LDWD PATTERN_REG (BitVec.ofNat 32 i))] :=
    List.map_eq_flatMap
  rw [h]
  refine carries_flatMap fun i hi => ⟨block_of_pieces (by simp), ?_⟩
  rw [listing_LDWD _ (by decide) (ofNat_lt_16 (List.mem_range.1 hi))]
  simp

theorem carries_write_columns : Carries bank .opened write_columns .opened :=
  carries_flatMap fun _ _ => ⟨block_of_pieces (by simp), by simp [Phase.ddr]⟩

theorem carries_read_columns : Carries bank .opened read_columns .opened :=
  carries_flatMap fun _ _ => ⟨block_of_pieces (by simp), by simp [Phase.ddr]⟩

theorem carries_store_row_ids {ROW_PTR ROW_ADDR : CInt} {row_ids : List CInt} (hp : ROW_PTR < 16) (ha : ROW_ADDR < 16)
    (hbar : ROW_ADDR ≠ 4) (hlen : row_ids.length ≤ 65536) : Carries bank a (store_row_ids ROW_PTR ROW_ADDR row_ids) a := by
  refine carries_flatMap fun x hx => ⟨block_of_pieces (by simp), ?_⟩
  have hne : ROW_ADDR.setWidth 4 ≠ 4#4 := by
    obtain ⟨q, rfl⟩ := exists_reg ha
    rintro h
    apply hbar
    rw [BitVec.setWidth_setWidth_of_le q (by decide), BitVec.setWidth_eq] at h
    rw [h]
    rfl
  rw [listing_LI _ ha, listing_ST _ hp (ofNat_lt_65536 hlen hx) ha]
  simp [hne]

end

/-! ## Packed commands -/

/-- Packing keeps the order of the commands, and the padding does nothing. -/
theorem flow_packed (bank : CInt) {ms : List Mininst} (hms : ∀ m ∈ ms, m.getLsbD 15 = true) (a : Phase) :
    ((packed ms).map decode_inst).foldlM (Phase.flow bank) a = (ms.map decode_ddr).foldlM Phase.ddr a := by
  have hword : ∀ (m0 m1 m2 : Mininst) {m3 : Mininst}, m3.getLsbD 15 = true → ∀ a : Phase,
      ((Program.emitted (pack_mininsts m0 m1 m2 m3)).map decode_inst).foldlM (Phase.flow bank) a =
        ([m0, m1, m2, m3].map decode_ddr).foldlM Phase.ddr a := by
    intro m0 m1 m2 m3 h a
    rw [Program.map_decode_emitted, decode_pack m0 m1 m2 m3 h]
    change (a.flow bank (.DDR _ _ _ _) >>= fun a => some a) = _
    rw [flow_DDR]
    exact bind_pure _
  have hnop : ∀ (ms : List Mininst) (a : Phase),
      ((ms ++ [SMC_NOP]).map decode_ddr).foldlM Phase.ddr a = (ms.map decode_ddr).foldlM Phase.ddr a := by
    intro ms a
    rw [List.map_append, List.foldlM_append]
    exact bind_pure _
  induction ms using DRAMBender.Program.packed.induct generalizing a with
  | case1 m0 m1 m2 m3 rest ih =>
    have h := hword m0 m1 m2 (hms m3 (by simp))
    have happ : m0 :: m1 :: m2 :: m3 :: rest = [m0, m1, m2, m3] ++ rest := rfl
    rw [packed, List.map_append, List.foldlM_append, h, happ, List.map_append, List.foldlM_append]
    exact congrArg _ (funext fun a => ih (fun m hm => hms m (by simp [hm])) a)
  | case2 => rfl
  | case3 m0 => rw [packed, hword m0 _ _ Program.SMC_NOP_msb, ← hnop [m0], ← hnop ([m0] ++ _), ← hnop ([m0] ++ _ ++ _)]; rfl
  | case4 m0 m1 => rw [packed, hword m0 m1 _ Program.SMC_NOP_msb, ← hnop [m0, m1], ← hnop ([m0, m1] ++ _)]; rfl
  | case5 m0 m1 m2 => rw [packed, hword m0 m1 m2 Program.SMC_NOP_msb, ← hnop [m0, m1, m2]]; rfl

/-- Queued commands that take what is known of the bank from `a` to `a'`. -/
structure Fills (a : Phase) (cs : List Call) (a' : Phase) : Prop where
  fills : ∀ c ∈ cs, Program.fills c
  ddr : ((queue_after [] cs).map decode_ddr).foldlM Phase.ddr a = some a'

section
variable {a a1 a' : Phase} {cs ds : List Call}

theorem queue_of_fills (ms : List Mininst) (h : ∀ c ∈ cs, Program.fills c) : queue_after ms cs = ms ++ queue_after [] cs := by
  induction cs generalizing ms with
  | nil => exact (List.append_nil ms).symm
  | cons c cs ih =>
    have htail : ∀ d ∈ cs, Program.fills d := fun d hd => h d (by simp [hd])
    have hcall : Program.call_queue ms c = ms ++ Program.call_queue [] c := by
      have hc := h c (by simp)
      cases c with
      | add_mininst mi wait_after => rfl
      | add_wait wait_cycles => rfl
      | _ => exact hc.elim
    change queue_after (Program.call_queue ms c) cs = ms ++ queue_after (Program.call_queue [] c) cs
    rw [ih _ htail, hcall, ih (Program.call_queue [] c) htail, List.append_assoc]

theorem Fills.append (h : Fills a cs a1) (h' : Fills a1 ds a') : Fills a (cs ++ ds) a' := by
  refine ⟨fun c hc => (List.mem_append.1 hc).elim (h.fills c) (h'.fills c), ?_⟩
  rw [Program.queue_after_append, queue_of_fills _ h'.fills, List.map_append, List.foldlM_append, h.ddr]
  exact h'.ddr

/-- A command with the NOPs behind it. -/
theorem fills_mininst (m : Mini) (wait_after : Int) (h : a.ddr (decode_ddr m.encode) = some a') :
    Fills a [add_mininst m.encode wait_after] a' := by
  refine ⟨by simp [Program.fills], ?_⟩
  have hnops : ∀ n, ((List.replicate n SMC_NOP).map decode_ddr).foldlM Phase.ddr a' = some a' := by
    intro n
    induction n with
    | zero => rfl
    | succ n ih => exact ih
  change (a.ddr (decode_ddr m.encode) >>= fun a => ((List.replicate _ SMC_NOP).map decode_ddr).foldlM Phase.ddr a) = _
  rw [h]
  exact hnops _

theorem fills_flatMap {ι : Type} {l : List ι} {f : ι → List Call} (h : ∀ x ∈ l, Fills a (f x) a) : Fills a (l.flatMap f) a := by
  induction l with
  | nil => exact ⟨by simp, rfl⟩
  | cons x l ih =>
    rw [List.flatMap_cons]
    exact (h x (by simp)).append (ih fun y hy => h y (by simp [hy]))

theorem Fills.carries (bank : CInt) (h : Fills a cs a') : Carries bank a (minprogram cs) a' := by
  refine ⟨Program.block_pack h.fills, ?_⟩
  rw [minprogram, Program.listing_pack h.fills, flow_packed bank (Program.fills_queue h.fills)]
  exact h.ddr

end

/-! ## From the calls to the image -/

/-- Calls whose linked words `flow` gets through. -/
structure Follows (bank : CInt) (cs : List Call) : Prop where
  made : ∀ c ∈ cs, c.WellMade
  labelled : Program.Labelled cs
  checked : ∀ (β : Type) [DecidableEq β] (phys : CInt → β) signed other,
    Checked (Board.isa signed other).actOf (Phase.Holds phys bank) (Phase.flow bank) ((linked cs).map decode_inst) .start

section
variable {bank : CInt}

theorem not_branch_actOf {m : Mnemonic} (h : m.isBranch = false) (signed : Bool)
    (other : Mnemonic → Board → Board × List Cmd) (f : Board → Board × List Cmd) (taken : Board → Bool) (tgt : Nat) :
    (Board.isa signed other).actOf m ≠ .branch f taken tgt := by
  intro he
  rw [Isa.isBranch_of_actOf _ he] at h
  cases h

theorem follows_block {cs : List Call} {a : Phase} (h : Carries bank .start cs a) : Follows bank cs := by
  refine ⟨h.block.made, h.block.labelled, fun β _ phys signed other => ?_⟩
  rw [Program.linked_block h.block]
  have hthrough : (listing cs ++ [Mnemonic.END]).foldlM (Phase.flow bank) .start = some a := by
    rw [List.foldlM_append, h.flow]
    rfl
  refine checked_straight hthrough fun k hk f taken tgt => not_branch_actOf ?_ signed other f taken tgt
  exact h.block.not_branch_ended k hk

/-- A loop, whose end may know more of the bank than its beginning. -/
theorem follows_loop {pre body post : List Call} {rs1 rs2 : CInt} {tgt : String} {a1 a2 a3 : Phase}
    (hpre : Carries bank .start pre a1) (hbody : Carries bank a1 body a2) (hpost : Carries bank a2 post a3)
    (ha : a2 = a1 ∨ a1 = .unknown ∧ a2 ≠ .start) (h1 : rs1 < 16) (h2 : rs2 < 16)
    (hlen : (listing pre).length < 524288) : Follows bank (loop pre body post rs1 rs2 tgt) := by
  refine ⟨Program.loop_made hpre.block hbody.block hpost.block h1 h2,
    Program.loop_labelled hpre.block hbody.block hpost.block, fun β _ phys signed other => ?_⟩
  rw [Program.linked_loop hpre.block hbody.block hpost.block h1 h2 hlen]
  have hend : (listing post ++ [Mnemonic.END]).foldlM (Phase.flow bank) a2 = some a3 := by
    rw [List.foldlM_append, hpost.flow]
    rfl
  have hbranch : ∀ bt, a2.flow bank (.BL bt (rs1.setWidth 4) (rs2.setWidth 4)) = some a2 := fun _ => rfl
  refine checked_loop hpre.flow hbody.flow (hbranch _) hend ?_ ?_ ?_
  · rintro f taken tgt he
    obtain ⟨-, -, rfl⟩ := Act.branch.inj he
    rw [BitVec.toNat_ofNat, Nat.mod_eq_of_lt hlen]
  · intro b m hg
    rcases ha with rfl | ⟨rfl, ha⟩
    · exact hg
    · exact hg.bar ha
  · intro j hj f taken tgt
    refine not_branch_actOf ?_ signed other f taken tgt
    exact Program.not_branch_loop hpre.block hbody.block hpost.block hj

/-- The commands of an image keep to the protocol, from whatever the banks
are. -/
theorem Follows.obeys {cs : List Call} (h : Follows bank cs) {p : Program} (hp : generate cs = some p)
    (hx : Platform.Executable p) {β : Type} [DecidableEq β] (phys : CInt → β) {signed : Bool}
    {other : Mnemonic → Board → Board × List Cmd} {b b' : Board} {es : List Cmd} {pc : Nat}
    (hs : Steps (p.get_inst_seq.map (Board.isa signed other).act) 0 b es pc b') (m : Banks β) : Obeys phys m es := by
  have hlen : p.program.length < 524288 := lt_of_le_of_lt hx.2 (by decide)
  have hmap := Program.conclude_map_act h.made h.labelled (Board.isa signed other) hp hlen
  obtain ⟨pc', hs', -⟩ := (Program.sameRuns_of_relocate hmap).only b es pc b' hs
  have hcode : (linked cs).map (Board.isa signed other).act =
      ((linked cs).map decode_inst).map (Board.isa signed other).actOf := by
    rw [List.map_map]
    rfl
  rw [hcode] at hs'
  obtain ⟨m', hm⟩ := (h.checked β phys signed other).runs (flow_sound signed other) (m := m) trivial hs'
  exact obeys_of_watch phys hm

end

end DCT
