import Mathlib
import DramBender.Timing
import DramBender.BankProtocol
/-!
# Distances between commands

`Since.flow` counts the slots since the last PRE, the last ACT, and the last READ
or WRITE, and refuses a command that comes too early. Where it gets through the
calls, no run of the image has commands too close (`Spaced.apart`), whatever an
INFO costs.
-/

namespace DCT

open DRAMBender Machine
open DRAMBender.Board
open Program (Piece Block listing linked loop link)
open Call (add_inst)

/-! ## The nominal timings -/

/-- What a command is to the timings. -/
inductive Kind where
  | pre | act | data | other
  deriving DecidableEq

instance : Fintype Kind := ⟨{.pre, .act, .data, .other}, fun k => by cases k <;> decide⟩

def kind : Cmd → Kind
  | .PRE _ => .pre
  | .PREA _ => .pre
  | .ACT _ _ => .act
  | .WR _ _ _ _ => .data
  | .RD _ _ _ _ => .data
  | .REF _ => .other

/-- In slots of 1.5 ns: 15 ns from a PRE to an ACT. -/
def tRP : Nat := 10

/-- 36 ns from an ACT to a PRE. -/
def tRAS : Nat := 24

/-- From an ACT to a READ or WRITE. -/
def tRCD : Nat := 12

/-- From a READ or WRITE to another. -/
def tCCD : Nat := 8

/-- The slots a command of the second kind has to keep from one of the first. -/
def gap : Kind → Kind → Nat
  | .pre, .act => tRP
  | .act, .pre => tRAS
  | .act, .data => tRCD
  | .data, .data => tCCD
  | _, _ => 0

/-- The later command comes late enough. -/
def Apart (x y : Stamped) : Prop := x.1 + gap (kind x.2) (kind y.2) ≤ y.1

instance (x y : Stamped) : Decidable (Apart x y) := inferInstanceAs (Decidable (_ ≤ _))

/-- `timed`, where an INFO takes `info` cycles. -/
def pacedOf (info : Nat) (signed : Bool) (other : Mnemonic → Board → Board × List Cmd) :
    Mnemonic → Act (Board × Nat) Stamped
  | .INFO => .exec fun s => ((s.1, s.2 + info), [])
  | m => (timed signed other).actOf m

theorem pacedOf_eq {info : Nat} {signed : Bool} {other : Mnemonic → Board → Board × List Cmd} {m : Mnemonic}
    (h : m ≠ .INFO) : pacedOf info signed other m = (timed signed other).actOf m := by
  cases m with
  | INFO => exact absurd rfl h
  | _ => rfl

def paced (info : Nat) (signed : Bool) (other : Mnemonic → Board → Board × List Cmd) (w : Inst) :
    Act (Board × Nat) Stamped := pacedOf info signed other (decode_inst w)

/-! ## Counting slots -/

/-- Slots since the last PRE, the last ACT and the last READ or WRITE. -/
@[ext] structure Since where
  pre : Nat
  act : Nat
  data : Nat

namespace Since

instance : PartialOrder Since where
  le a b := a.pre ≤ b.pre ∧ a.act ≤ b.act ∧ a.data ≤ b.data
  le_refl a := ⟨le_rfl, le_rfl, le_rfl⟩
  le_trans _ _ _ h h' := ⟨h.1.trans h'.1, h.2.1.trans h'.2.1, h.2.2.trans h'.2.2⟩
  le_antisymm _ _ h h' := Since.ext (le_antisymm h.1 h'.1) (le_antisymm h.2.1 h'.2.1) (le_antisymm h.2.2 h'.2.2)

instance : DecidableLE Since := fun _ _ => inferInstanceAs (Decidable (_ ∧ _ ∧ _))

/-- No timing asks for more. -/
def top : Since := ⟨tRAS, tRAS, tRAS⟩

def since (a : Since) : Kind → Nat
  | .pre => a.pre
  | .act => a.act
  | .data => a.data
  | .other => 0

def wait (n : Nat) (a : Since) : Since := ⟨min tRAS (a.pre + n), min tRAS (a.act + n), min tRAS (a.data + n)⟩

/-- A command may come. -/
def Ready (a : Since) (k : Kind) : Prop := ∀ j, gap j k ≤ a.since j

instance (a : Since) (k : Kind) : Decidable (a.Ready k) := inferInstanceAs (Decidable (∀ _, _))

def reset (a : Since) : Kind → Since
  | .pre => { a with pre := 0 }
  | .act => { a with act := 0 }
  | .data => { a with data := 0 }
  | .other => a

def hit (a : Since) (k : Kind) : Option Since := if a.Ready k then some (a.reset k) else none

/-- What the command of a slot is. -/
def ddrKind : Ddr → Option Kind
  | .PRE _ _ _ _ => some .pre
  | .ACT _ _ _ _ _ => some .act
  | .WR _ _ _ _ _ _ => some .data
  | .RD _ _ _ _ _ _ => some .data
  | .REF _ => some .other
  | _ => none

def slot (a : Since) (d : Ddr) : Option Since :=
  match ddrKind d with
  | some k => (a.hit k).map (wait 1)
  | none => some (a.wait 1)

/-- Cycles of the words between the commands. -/
def idle : Mnemonic → Option Nat
  | .SLEEP samt => some (samt.toNat + 2)
  | .LI _ _ => some 1
  | .ADDI _ _ _ => some 1
  | .MOV _ _ => some 1
  | .LDWD _ _ => some 1
  | .LD _ _ _ => some 1
  | .ST _ _ _ => some 1
  | .BL _ _ _ => some branch_cycles
  | .END => some 0
  | .INFO => some 0
  | _ => none

def flow (a : Since) : Mnemonic → Option Since
  | .DDR s0 s1 s2 s3 => [s0, s1, s2, s3].foldlM slot a
  | m => (idle m).map fun n => a.wait (4 * n)

@[simp] theorem idle_LI (rt : Reg) (imd : CInt) : idle (.LI rt imd) = some 1 := rfl
@[simp] theorem idle_ADDI (rt rs1 : Reg) (imd1 : BitVec 16) : idle (.ADDI rt rs1 imd1) = some 1 := rfl
@[simp] theorem idle_LDWD (rt rs1 : Reg) : idle (.LDWD rt rs1) = some 1 := rfl
@[simp] theorem idle_ST (rt rs1 : Reg) (imd1 : BitVec 16) : idle (.ST rs1 imd1 rt) = some 1 := rfl

theorem flow_of_idle {m : Mnemonic} {n : Nat} (h : idle m = some n) (a : Since) : a.flow m = some (a.wait (4 * n)) := by
  unfold flow
  split
  · cases h
  · rw [h, Option.map_some]

/-! ### Order -/

theorem since_mono {a b : Since} (h : a ≤ b) (k : Kind) : a.since k ≤ b.since k := by
  obtain ⟨h1, h2, h3⟩ := h
  cases k with
  | pre => exact h1
  | act => exact h2
  | data => exact h3
  | other => exact le_rfl

theorem wait_mono {a b : Since} (h : a ≤ b) (n : Nat) : a.wait n ≤ b.wait n := by
  obtain ⟨h1, h2, h3⟩ := h
  exact ⟨by simp only [wait]; omega, by simp only [wait]; omega, by simp only [wait]; omega⟩

theorem wait_le_top (a : Since) (n : Nat) : a.wait n ≤ top := ⟨min_le_left _ _, min_le_left _ _, min_le_left _ _⟩

theorem since_wait (a : Since) (n : Nat) (k : Kind) : (a.wait n).since k ≤ a.since k + n := by
  cases k with
  | pre => exact min_le_right _ _
  | act => exact min_le_right _ _
  | data => exact min_le_right _ _
  | other => exact Nat.zero_le _

theorem since_reset (a : Since) (j k : Kind) : (a.reset k).since j ≤ a.since j ∧ (a.reset k).since k = 0 := by
  cases k <;> cases j <;> simp [reset, since]

theorem reset_mono {a b : Since} (h : a ≤ b) (k : Kind) : a.reset k ≤ b.reset k := by
  obtain ⟨h1, h2, h3⟩ := h
  cases k with
  | pre => exact ⟨le_rfl, h2, h3⟩
  | act => exact ⟨h1, le_rfl, h3⟩
  | data => exact ⟨h1, h2, le_rfl⟩
  | other => exact ⟨h1, h2, h3⟩

theorem hit_eq {a a' : Since} {k : Kind} (h : a.hit k = some a') : a.Ready k ∧ a' = a.reset k := by
  rw [hit, Option.ite_none_right_eq_some] at h
  exact ⟨h.1, (Option.some.inj h.2).symm⟩

theorem hit_mono {a b a' : Since} {k : Kind} (h : a ≤ b) (ha : a.hit k = some a') : ∃ b', b.hit k = some b' ∧ a' ≤ b' := by
  obtain ⟨hr, rfl⟩ := hit_eq ha
  have hb : b.Ready k := fun j => (hr j).trans (since_mono h j)
  exact ⟨b.reset k, if_pos hb, reset_mono h k⟩

theorem slot_mono : Rising slot := by
  intro a b d a' h ha
  unfold slot at ha ⊢
  generalize ddrKind d = k at ha ⊢
  cases k with
  | none =>
    obtain rfl := Option.some.inj ha
    exact ⟨_, rfl, wait_mono h 1⟩
  | some k =>
    obtain ⟨a1, ha1, rfl⟩ := Option.map_eq_some_iff.1 ha
    obtain ⟨b1, hb1, hle⟩ := hit_mono h ha1
    refine ⟨b1.wait 1, ?_, wait_mono hle 1⟩
    simp only [hb1, Option.map_some]

theorem flow_mono : Rising flow := by
  intro a b m a' h ha
  have hidle : ∀ {n : Nat}, (idle m).map (fun n => a.wait (4 * n)) = some a' →
      ∃ b', (idle m).map (fun n => b.wait (4 * n)) = some b' ∧ a' ≤ b' := by
    intro _ ha
    obtain ⟨n, hn, rfl⟩ := Option.map_eq_some_iff.1 ha
    exact ⟨b.wait (4 * n), by rw [hn, Option.map_some], wait_mono h _⟩
  cases m with
  | DDR s0 s1 s2 s3 => exact Reaches.mono slot_mono ⟨a', ha, le_rfl⟩ h
  | _ => exact hidle (n := 0) ha

theorem slot_le_top {a a' : Since} {d : Ddr} (h : a.slot d = some a') : a' ≤ top := by
  unfold slot at h
  generalize ddrKind d = k at h
  cases k with
  | none =>
    obtain rfl := Option.some.inj h
    exact wait_le_top a 1
  | some k =>
    obtain ⟨a1, -, rfl⟩ := Option.map_eq_some_iff.1 h
    exact wait_le_top a1 1

theorem flow_le_top {a a' : Since} {m : Mnemonic} (h : a.flow m = some a') : a' ≤ top := by
  have hidle : (idle m).map (fun n => a.wait (4 * n)) = some a' → a' ≤ top := by
    intro h
    obtain ⟨n, -, rfl⟩ := Option.map_eq_some_iff.1 h
    exact wait_le_top a _
  cases m with
  | DDR s0 s1 s2 s3 =>
    -- the last slot counts up to `top` like every other
    have hlast : ([s0, s1, s2] ++ [s3]).foldlM slot a = some a' := h
    rw [List.foldlM_append] at hlast
    obtain ⟨a1, -, hlast⟩ := Option.bind_eq_some_iff.1 hlast
    obtain ⟨a2, h2, hlast⟩ := Option.bind_eq_some_iff.1 hlast
    obtain rfl := Option.some.inj hlast
    exact slot_le_top h2
  | _ => exact hidle h

/-! ### Soundness -/

/-- What a count says of the commands before slot `t`. -/
def HoldsAt (a : Since) (t : Nat) (m : List Stamped) : Prop := ∀ e ∈ m, e.1 + a.since (kind e.2) ≤ t

def Holds (a : Since) (s : Board × Nat) (m : List Stamped) : Prop := a.HoldsAt (4 * s.2) m

section
variable {a a' : Since} {t t' n : Nat} {m : List Stamped}

theorem HoldsAt.wait (h : a.HoldsAt t m) (ht : t + n ≤ t') : (a.wait n).HoldsAt t' m := by
  intro e he
  have hsince := h e he
  have hwait := since_wait a n (kind e.2)
  omega

theorem HoldsAt.hit (h : a.HoldsAt t m) {c : Cmd} (hr : a.Ready (kind c)) :
    record Apart m (t, c) = some ((t, c) :: m) ∧ (a.reset (kind c)).HoldsAt t ((t, c) :: m) := by
  refine ⟨if_pos fun e he => ?_, fun e he => ?_⟩
  · have hgap := hr (kind e.2)
    have hsince := h e he
    change e.1 + gap (kind e.2) (kind c) ≤ t
    omega
  · rcases List.mem_cons.1 he with rfl | he
    · exact (congrArg (t + ·) (since_reset a (kind c) (kind c)).2).le
    · have hreset := (since_reset a (kind e.2) (kind c)).1
      have hsince := h e he
      omega

theorem issue_kind (b : Board) (d : Ddr) : (b.issue d).2.map kind = (ddrKind d).toList := by
  cases d with
  | PRE bar ibar pall rank => cases pall <;> rfl
  | _ => rfl

theorem slot_sound {d : Ddr} (h : a.slot d = some a') (b : Board) (hg : a.HoldsAt t m) :
    ∃ m', ((b.issue d).2.map fun c => (t, c)).foldlM (record Apart) m = some m' ∧ a'.HoldsAt (t + 1) m' := by
  have hkind := issue_kind b d
  unfold slot at h
  generalize ddrKind d = k at h hkind
  cases k with
  | none =>
    rw [List.map_eq_nil_iff.1 hkind]
    obtain rfl := Option.some.inj h
    exact ⟨m, rfl, hg.wait le_rfl⟩
  | some k =>
    obtain ⟨c, hc, rfl⟩ := List.map_eq_singleton_iff.1 hkind
    obtain ⟨a1, ha1, rfl⟩ := Option.map_eq_some_iff.1 h
    obtain ⟨hr, rfl⟩ := hit_eq ha1
    obtain ⟨hrec, hhold⟩ := hg.hit hr
    refine ⟨(t, c) :: m, ?_, hhold.wait le_rfl⟩
    rw [hc]
    change (record Apart m (t, c) >>= fun m => some m) = _
    rw [hrec]
    rfl

theorem slots_sound {ds : List Ddr} (h : ds.foldlM slot a = some a') (b : Board) (hg : a.HoldsAt t m) :
    ∃ m', (b.issue_slots t ds).2.foldlM (record Apart) m = some m' ∧ a'.HoldsAt (t + ds.length) m' := by
  induction ds generalizing a t b m with
  | nil =>
    obtain rfl := Option.some.inj h
    exact ⟨m, rfl, hg⟩
  | cons d ds ih =>
    rw [List.foldlM_cons] at h
    obtain ⟨a1, h1, h⟩ := Option.bind_eq_some_iff.1 h
    obtain ⟨m1, hm1, hg1⟩ := slot_sound h1 b hg
    obtain ⟨m', hm', hg'⟩ := ih h (b.issue d).1 hg1
    refine ⟨m', ?_, ?_⟩
    · rw [issue_slots_cons, List.foldlM_append, hm1]
      exact hm'
    · rwa [List.length_cons, Nat.add_comm ds.length, ← Nat.add_assoc]

/-- Words that only take time. -/
theorem idle_sound {s s' : Board × Nat} (hg : a.Holds s m) (ht : s.2 + n ≤ s'.2) : (a.wait (4 * n)).Holds s' m :=
  hg.wait (by omega)

theorem Holds.later {s s' : Board × Nat} (hg : a.Holds s m) (ht : s.2 ≤ s'.2) : a.Holds s' m := by
  intro e he
  have hsince := hg e he
  omega

end

theorem flow_sound (info : Nat) (signed : Bool) (other : Mnemonic → Board → Board × List Cmd) :
    Sound (pacedOf info signed other) (record Apart) Holds flow := by
  intro a a' k f hk hf s m hg
  -- what an idle word leaves, once it is known to issue nothing
  have hidle : ∀ {n : Nat}, idle k = some n → (f s).2 = [] → s.2 + n ≤ (f s).1.2 →
      ∃ m', (f s).2.foldlM (record Apart) m = some m' ∧ a'.Holds (f s).1 m' := by
    intro n hn he ht
    rw [flow_of_idle hn] at hk
    obtain rfl := Option.some.inj hk
    refine ⟨m, ?_, idle_sound hg ht⟩
    rw [he]
    rfl
  cases k with
  | DDR s0 s1 s2 s3 =>
    obtain he | ⟨taken, tgt, he⟩ := hf
    · obtain rfl := Act.exec.inj he
      obtain ⟨m', hm', hg'⟩ := slots_sound hk s.1 hg
      exact ⟨m', hm', hg'⟩
    · cases he
  | BL bt rs1 rs2 =>
    obtain he | ⟨taken, tgt, he⟩ := hf
    · cases he
    · obtain ⟨rfl, -, -⟩ := Act.branch.inj he
      exact hidle rfl rfl le_rfl
  | INFO =>
    obtain he | ⟨taken, tgt, he⟩ := hf
    · obtain rfl := Act.exec.inj he
      exact hidle rfl rfl (Nat.le_add_right _ _)
    · cases he
  | END => rcases hf with he | ⟨taken, tgt, he⟩ <;> cases he
  | LI | ADDI | MOV | LDWD | LD | ST | SLEEP =>
    obtain he | ⟨taken, tgt, he⟩ := hf
    · obtain rfl := Act.exec.inj he
      exact hidle rfl rfl le_rfl
    · cases he
  | _ => cases hk

/-! ### The generators' words -/

section
variable (a : Since)

theorem wait_wait (n n' : Nat) : (a.wait n).wait n' = a.wait (n + n') := by
  simp only [wait, Since.mk.injEq]
  omega

theorem flow_DDR (s0 s1 s2 s3 : Ddr) : a.flow (.DDR s0 s1 s2 s3) = [s0, s1, s2, s3].foldlM slot a := rfl

theorem slot_of_kind {d : Ddr} {k : Kind} (h : ddrKind d = some k) : a.slot d = (a.hit k).map (wait 1) := by
  unfold slot
  rw [h]

theorem flow_only {d : Ddr} {k : Kind} (h : ddrKind d = some k) : a.flow (only d) = (a.hit k).map (wait 4) := by
  rw [only, flow_DDR, List.foldlM_cons, slot_of_kind a h]
  cases a.hit k with
  | none => rfl
  | some b => exact congrArg some ((congrArg (wait 1) (wait_wait (b.wait 1) 1 1)).trans (by simp only [wait_wait]))

theorem flow_only_last {d : Ddr} {k : Kind} (h : ddrKind d = some k) :
    a.flow (only_last d) = ((a.wait 3).hit k).map (wait 1) := by
  have hnops : [Ddr.NOP false, .NOP false, .NOP false, d].foldlM slot a = (((a.wait 1).wait 1).wait 1).slot d := by
    change (slot _ d >>= fun a => some a) = _
    exact bind_pure _
  rw [only_last, flow_DDR, hnops, wait_wait, wait_wait, slot_of_kind _ h]

@[simp] theorem flow_PRE : a.flow (only (.PRE 4#4 false false false)) = (a.hit .pre).map (wait 4) := flow_only a rfl

@[simp] theorem flow_ACT : a.flow (only (.ACT 4#4 false 5#4 false false)) = (a.hit .act).map (wait 4) := flow_only a rfl

@[simp] theorem flow_ACT_last : a.flow (only_last (.ACT 4#4 false 5#4 false false)) = ((a.wait 3).hit .act).map (wait 1) :=
  flow_only_last a rfl

@[simp] theorem flow_WRITE : a.flow (only (.WR 4#4 false 3#4 true false false)) = (a.hit .data).map (wait 4) := flow_only a rfl

@[simp] theorem flow_READ : a.flow (only (.RD 4#4 false 3#4 true false false)) = (a.hit .data).map (wait 4) := flow_only a rfl

@[simp] theorem flow_NOPS : a.flow NOPS = some (a.wait 4) := by
  have h : a.flow NOPS = some ((((a.wait 1).wait 1).wait 1).wait 1) := rfl
  rw [h, wait_wait, wait_wait, wait_wait]

@[simp] theorem flow_LI (rt : Reg) (imd : CInt) : a.flow (.LI rt imd) = some (a.wait 4) := rfl

@[simp] theorem flow_ADDI (rt rs1 : Reg) (imd1 : BitVec 16) : a.flow (.ADDI rt rs1 imd1) = some (a.wait 4) := rfl

@[simp] theorem flow_LD (rt rs1 : Reg) (imd1 : BitVec 16) : a.flow (.LD rt rs1 imd1) = some (a.wait 4) := rfl

@[simp] theorem flow_LDWD (rt rs1 : Reg) : a.flow (.LDWD rt rs1) = some (a.wait 4) := rfl

@[simp] theorem flow_ST (rt rs1 : Reg) (imd1 : BitVec 16) : a.flow (.ST rs1 imd1 rt) = some (a.wait 4) := rfl

end

section
variable (p a d n : Nat)

@[simp] theorem reaches_mk {x : Since} {ms : List Mnemonic} : Reaches flow x ms ⟨p, a, d⟩ ↔
    ∃ r, ms.foldlM flow x = some r ∧ p ≤ r.pre ∧ a ≤ r.act ∧ d ≤ r.data := Iff.rfl

@[simp] theorem hit_mk (k : Kind) : hit ⟨p, a, d⟩ k = if Ready ⟨p, a, d⟩ k then some (reset ⟨p, a, d⟩ k) else none := rfl

@[simp] theorem wait_mk : wait n ⟨p, a, d⟩ = ⟨min 24 (p + n), min 24 (a + n), min 24 (d + n)⟩ := rfl

@[simp] theorem top_mk : top = ⟨24, 24, 24⟩ := rfl

@[simp] theorem ready_pre : (⟨p, a, d⟩ : Since).Ready .pre ↔ 24 ≤ a := by
  refine ⟨fun h => h .act, fun h j => ?_⟩
  cases j <;> first | exact h | exact Nat.zero_le _

@[simp] theorem ready_act : (⟨p, a, d⟩ : Since).Ready .act ↔ 10 ≤ p := by
  refine ⟨fun h => h .pre, fun h j => ?_⟩
  cases j <;> first | exact h | exact Nat.zero_le _

@[simp] theorem ready_data : (⟨p, a, d⟩ : Since).Ready .data ↔ 12 ≤ a ∧ 8 ≤ d := by
  refine ⟨fun h => ⟨h .act, h .data⟩, fun h j => ?_⟩
  cases j <;> first | exact h.1 | exact h.2 | exact Nat.zero_le _

@[simp] theorem reset_mk : (reset ⟨p, a, d⟩ .pre = ⟨0, a, d⟩) ∧ (reset ⟨p, a, d⟩ .act = ⟨p, 0, d⟩) ∧
    (reset ⟨p, a, d⟩ .data = ⟨p, a, 0⟩) := ⟨rfl, rfl, rfl⟩

end

end Since

/-! ## Following a generator's calls -/

/-- Calls that get from one count to another, or better. -/
structure Paces (a : Since) (cs : List Call) (a' : Since) : Prop where
  block : Block cs
  flow : Reaches Since.flow a (listing cs) a'

section
variable {a a1 a' : Since} {cs ds : List Call}

theorem Paces.append (h : Paces a cs a1) (h' : Paces a1 ds a') : Paces a (cs ++ ds) a' := by
  refine ⟨h.block.append h'.block, ?_⟩
  rw [Program.listing_append h.block]
  exact h.flow.append Since.flow_mono h'.flow

theorem paces_nil (a : Since) : Paces a [] a := ⟨.nil, reaches_nil le_rfl⟩

theorem paces_pieces (a' : Since) (h : ∀ c ∈ cs, Piece c) (hf : Reaches Since.flow a (listing cs) a') : Paces a cs a' :=
  ⟨block_of_pieces h, hf⟩

/-- Repeating calls that come back to where they begin. -/
theorem paces_flatMap {ι : Type} {l : List ι} {f : ι → List Call} (h : ∀ x ∈ l, Paces a (f x) a) :
    Paces a (l.flatMap f) a := by
  induction l with
  | nil => exact paces_nil a
  | cons x l ih =>
    rw [List.flatMap_cons]
    exact (h x (by simp)).append (ih fun y hy => h y (by simp [hy]))

theorem le_wait (ha : a ≤ Since.top) (n : Nat) : a ≤ a.wait n := by
  obtain ⟨h1, h2, h3⟩ := ha
  exact ⟨le_min h1 (Nat.le_add_right _ _), le_min h2 (Nat.le_add_right _ _), le_min h3 (Nat.le_add_right _ _)⟩

/-- Time brings no command closer. -/
theorem reaches_idle {ms : List Mnemonic} (ha : a ≤ Since.top) (h : ∀ m ∈ ms, (Since.idle m).isSome = true) :
    Reaches Since.flow a ms a := by
  induction ms with
  | nil => exact reaches_nil le_rfl
  | cons m ms ih =>
    obtain ⟨n, hn⟩ := Option.isSome_iff_exists.1 (h m (by simp))
    have hm : Reaches Since.flow a [m] a := by
      refine ⟨a.wait (4 * n), ?_, le_wait ha _⟩
      change (a.flow m >>= fun a => some a) = _
      rw [Since.flow_of_idle hn]
      rfl
    exact hm.append Since.flow_mono (ih fun m hm => h m (by simp [hm]))

theorem paces_idle (hb : ∀ c ∈ cs, Piece c) (ha : a ≤ Since.top) (h : ∀ m ∈ listing cs, (Since.idle m).isSome = true) :
    Paces a cs a := ⟨block_of_pieces hb, reaches_idle ha h⟩

theorem paces_sleep (a' : Since) {samt : CInt} (h : sleep samt = some cs) (hle : a' ≤ a.wait (4 * samt.toNat)) : Paces a cs a' := by
  obtain ⟨hs, rfl⟩ := sleep_eq h
  refine ⟨(piece_SLEEP hs).block, a.wait (4 * samt.toNat), ?_, hle⟩
  have hn : (samt - 2).toNat + 2 = samt.toNat := by bv_omega
  rw [listing_SLEEP [] hs, ← hn]
  rfl

theorem paces_sleep_above_one {step n : CInt} (h : sleep_above_one step n = some cs) (ha : a ≤ Since.top) : Paces a cs a := by
  rcases sleep_above_one_eq h with rfl | ⟨samt, hs, rfl⟩
  · exact paces_nil a
  · have hsleep : sleep samt = some [add_inst (sleepWord samt)] := by
      rw [sleep, SMC_SLEEP_eq hs, Option.map_some]
    exact paces_sleep a hsleep (le_wait ha _)

theorem paces_load_pattern (wr_pattern : WritePattern_t) (ha : a ≤ Since.top) : Paces a (load_pattern wr_pattern) a := by
  refine paces_flatMap fun i _ => paces_idle (by simp) ha ?_
  rw [listing_LI _ (by decide), listing_LDWD _ (by decide) (ofNat_lt_16 i.isLt)]
  simp

theorem paces_load_word (ha : a ≤ Since.top) : Paces a load_word a := by
  have h : load_word = (List.range 16).flatMap fun i => [add_inst (SMC_LDWD ReservedReg.PATTERN_REG (BitVec.ofNat 32 i))] :=
    List.map_eq_flatMap
  rw [h]
  refine paces_flatMap fun i hi => paces_idle (by simp) ha ?_
  rw [listing_LDWD _ (by decide) (ofNat_lt_16 (List.mem_range.1 hi))]
  simp

theorem paces_store_row_ids {ROW_PTR ROW_ADDR : CInt} {row_ids : List CInt} (hp : ROW_PTR < 16) (hr : ROW_ADDR < 16)
    (hlen : row_ids.length ≤ 65536) (ha : a ≤ Since.top) : Paces a (store_row_ids ROW_PTR ROW_ADDR row_ids) a := by
  refine paces_flatMap fun x hx => paces_idle (by simp) ha ?_
  rw [listing_LI _ hr, listing_ST _ hp (ofNat_lt_65536 hlen hx) hr]
  simp

/-- An ACT twelve slots ago and a READ or WRITE eight slots ago: the next column
finds the same. -/
def column : Since := ⟨0, 12, 8⟩

@[simp] theorem column_mk : column = ⟨0, 12, 8⟩ := rfl

theorem paces_write_columns : Paces column write_columns column :=
  paces_flatMap fun _ _ => paces_pieces _ (by simp) (by simp)

theorem paces_read_columns : Paces column read_columns column :=
  paces_flatMap fun _ _ => paces_pieces _ (by simp) (by simp)

end

/-! ## From the calls to the image -/

/-- Calls whose linked words `flow` gets through. -/
structure Spaced (cs : List Call) : Prop where
  made : ∀ c ∈ cs, c.WellMade
  labelled : Program.Labelled cs
  checked : ∀ info signed other,
    Checked (pacedOf info signed other) Since.Holds Since.flow ((linked cs).map decode_inst) Since.top

section
variable {info : Nat} {signed : Bool} {other : Mnemonic → Board → Board × List Cmd}

theorem not_branch_pacedOf {m : Mnemonic} (h : m.isBranch = false) (f : Board × Nat → (Board × Nat) × List Stamped)
    (taken : Board × Nat → Bool) (tgt : Nat) : pacedOf info signed other m ≠ .branch f taken tgt := by
  intro he
  by_cases hm : m = .INFO
  · rw [hm] at he
    cases he
  · rw [pacedOf_eq hm] at he
    rw [Isa.isBranch_of_actOf _ he] at h
    cases h

theorem spaced_block {cs : List Call} {a : Since} (h : Paces Since.top cs a) : Spaced cs := by
  refine ⟨h.block.made, h.block.labelled, fun info signed other => ?_⟩
  rw [Program.linked_block h.block]
  obtain ⟨r, hr, -⟩ := h.flow
  have hthrough : (listing cs ++ [Mnemonic.END]).foldlM Since.flow Since.top = some (r.wait 0) := by
    rw [List.foldlM_append, hr]
    rfl
  refine checked_straight hthrough fun k hk f taken tgt => not_branch_pacedOf ?_ f taken tgt
  exact h.block.not_branch_ended k hk

/-- A loop: the branch takes so long that every command may follow it. -/
theorem spaced_loop {pre body post : List Call} {rs1 rs2 : CInt} {tgt : String} {a1 a2 a3 : Since}
    (hpre : Paces Since.top pre a1) (hbody : Paces a1 body a2) (hpost : Paces Since.top post a3) (h1 : rs1 < 16)
    (h2 : rs2 < 16) (hlen : (listing pre).length < 524288) : Spaced (loop pre body post rs1 rs2 tgt) := by
  refine ⟨Program.loop_made hpre.block hbody.block hpost.block h1 h2,
    Program.loop_labelled hpre.block hbody.block hpost.block, fun info signed other => ?_⟩
  rw [Program.linked_loop hpre.block hbody.block hpost.block h1 h2 hlen]
  have hbranch : ∀ bt, Reaches Since.flow a2 [.BL bt (rs1.setWidth 4) (rs2.setWidth 4)] Since.top := fun bt =>
    ⟨a2.wait 24, rfl, le_min le_rfl (Nat.le_add_left _ _), le_min le_rfl (Nat.le_add_left _ _),
      le_min le_rfl (Nat.le_add_left _ _)⟩
  have hend : Reaches Since.flow a3 [Mnemonic.END] (a3.wait 0) := ⟨a3.wait 0, rfl, le_rfl⟩
  refine checked_loop_top Since.flow_mono (fun _ _ _ => Since.flow_le_top) ?_ hpre.flow hbody.flow (hbranch _)
    (hpost.flow.append Since.flow_mono hend) ?_ ?_
  · intro a b s m hab hg e he
    have hsince := hg e he
    have hle := Since.since_mono hab (kind e.2)
    omega
  · rintro f taken tgt he
    obtain ⟨-, -, rfl⟩ := Act.branch.inj he
    rw [BitVec.toNat_ofNat, Nat.mod_eq_of_lt hlen]
  · intro j hj f taken tgt
    refine not_branch_pacedOf ?_ f taken tgt
    exact Program.not_branch_loop hpre.block hbody.block hpost.block hj

/-! ### The words of an image -/

theorem paced_INFO {r : Nat} (h : r ≤ 1024) :
    paced info signed other (SMC_INFO (BitVec.ofNat 32 r)) = .exec fun s => ((s.1, s.2 + info), []) := by
  have hr : (BitVec.ofNat 32 r) < 2147483648 := by bv_omega
  rw [paced, decode_SMC_INFO hr]
  rfl

theorem retarget_paced {w : Inst} (f : Nat → Nat) (h : (decode_inst w).isBranch = false) :
    (paced info signed other w).retarget f = paced info signed other w := by
  unfold paced
  cases hd : decode_inst w <;> first | rfl | simp [hd, Mnemonic.isBranch] at h

theorem paced_link_place_holder (bt : BR_TYPE) {rs1 rs2 : CInt} {t : Nat} (h1 : rs1 < 16) (h2 : rs2 < 16) (ht : t < 524288) :
    paced info signed other (link (place_holder bt rs1 rs2) t) =
      (paced info signed other (place_holder bt rs1 rs2)).retarget fun _ => t := by
  have hne : ∀ t, bt.mnemonic t (rs1.setWidth 4) (rs2.setWidth 4) ≠ .INFO := by cases bt <;> exact fun _ h => by cases h
  have hact := (timed signed other).act_link_place_holder h1 h2 bt ht
  unfold Isa.act at hact
  rw [decode_link_place_holder h1 h2 bt ht, decode_place_holder h1 h2 bt] at hact
  rw [paced, paced, decode_link_place_holder h1 h2 bt ht, decode_place_holder h1 h2 bt, pacedOf_eq (hne t),
    pacedOf_eq (hne 0), hact]

theorem relinks_paced (info : Nat) (signed : Bool) (other : Mnemonic → Board → Board × List Cmd) :
    Program.Relinks (paced info signed other) fun s => ((s.1, s.2 + info), []) where
  info _ hr := paced_INFO hr
  plain _ f hw := retarget_paced f hw
  link bt _ _ _ h1 h2 ht := paced_link_place_holder bt h1 h2 ht

/-- The commands of an image keep their distances. -/
theorem Spaced.apart {cs : List Call} (h : Spaced cs) {p : Program} (hp : generate cs = some p)
    (hx : Platform.Executable p) {s s' : Board × Nat} {es : List Stamped} {pc : Nat}
    (hs : Steps (p.get_inst_seq.map (paced info signed other)) 0 s es pc s') : es.Pairwise Apart := by
  have hlen : p.program.length < 524288 := lt_of_le_of_lt hx.2 (by decide)
  have hmap := Program.conclude_map h.made h.labelled (relinks_paced info signed other) hp hlen
  have hcode : (linked cs).map (paced info signed other) =
      ((linked cs).map decode_inst).map (pacedOf info signed other) := by
    rw [List.map_map]
    rfl
  rw [Program.get_inst_seq, hmap, hcode] at hs
  obtain ⟨m', hm⟩ := (h.checked info signed other).runs_relocated (Since.flow_sound info signed other) (m := [])
    (fun a s m hg => ⟨m, rfl, Since.Holds.later hg (Nat.le_add_right _ _)⟩) (by intro e he; cases he) hs
  exact (pairwise_of_record hm).1

end

end DCT
