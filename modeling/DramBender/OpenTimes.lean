import Mathlib
import DramBender.Hammer
import DramBender.Lib.Blocks
/-!
# How long rows are open

A row that a hammer loop opens stays open until the PRE of the next hit, in the
next pass or half of one. The hit that ends the run is never closed, and the on
and off parameters of `doubleside_hammer` stretch the row of the other ones.
-/

namespace DCT

open DRAMBender Machine
open DRAMBender.Board

/-! ## Visits -/

/-- A row a bank opens: the cycles of the words with its ACT, with the first PRE
behind it and with the next ACT. -/
structure Visit where
  row : CInt
  opened : Nat
  closed : Option Nat
  reopened : Option Nat

def closes (bank : Bank) : Cmd → Bool
  | .PRE bk => bk == bank
  | .PREA rank => rank == bank.1
  | _ => false

def opens (bank : Bank) : Cmd → Bool
  | .ACT bk _ => bk == bank
  | _ => false

/-- The cycle of the first command that passes a test. -/
def first_cycle (f : Cmd → Bool) (es : List Stamped) : Option Nat := (es.find? fun e => f e.2).map fun e => e.1 / 4

def visits (bank : Bank) : List Stamped → List Visit
  | [] => []
  | (t, .ACT bk row_id) :: es =>
    if bk = bank then ⟨row_id, t / 4, first_cycle (closes bank) es, first_cycle (opens bank) es⟩ :: visits bank es
    else visits bank es
  | _ :: es => visits bank es

theorem first_closes_hits (bank : Bank) (hits : List Hit) :
    first_cycle (closes bank) (hits.flatMap (Hit.cmds bank)) = hits[0]?.map Hit.pre := by
  cases hits with
  | nil => rfl
  | cons x hits =>
    unfold first_cycle
    rw [List.flatMap_cons, Hit.cmds, List.cons_append, List.find?_cons_of_pos (by simp [closes])]
    simp

theorem first_opens_hits (bank : Bank) (hits : List Hit) :
    first_cycle (opens bank) (hits.flatMap (Hit.cmds bank)) = hits[0]?.map Hit.act := by
  cases hits with
  | nil => rfl
  | cons x hits =>
    unfold first_cycle
    rw [List.flatMap_cons, Hit.cmds, List.cons_append, List.find?_cons_of_neg (by simp [opens]), List.cons_append,
      List.find?_cons_of_pos (by simp [opens])]
    simp
    omega

/-- The rows opened by hits are closed by the next ones. -/
theorem visits_hits (bank : Bank) (hits : List Hit) (k : Nat) : (visits bank (hits.flatMap (Hit.cmds bank)))[k]? =
    hits[k]?.map fun x => ⟨x.row, x.act, hits[k + 1]?.map Hit.pre, hits[k + 1]?.map Hit.act⟩ := by
  induction hits generalizing k with
  | nil => rfl
  | cons x hits ih =>
    have hact : (4 * x.act + 3) / 4 = x.act := by omega
    have hcons : visits bank ((x :: hits).flatMap (Hit.cmds bank)) =
        ⟨x.row, x.act, hits[0]?.map Hit.pre, hits[0]?.map Hit.act⟩ :: visits bank (hits.flatMap (Hit.cmds bank)) := by
      change (if bank = bank then _ else _) = _
      rw [if_pos rfl, ← first_closes_hits bank, ← first_opens_hits bank, hact]
      rfl
    rw [hcons]
    cases k with
    | zero => rfl
    | succ k => exact ih k

theorem getElem?_hits (pass : Nat → List Hit) {m : Nat} (hpass : ∀ t, (pass t).length = m) (period t0 : Nat) {n j i : Nat}
    (hj : j < n) (hi : i < m) : (hits pass period t0 n)[m * j + i]? = (pass (t0 + period * j))[i]? := by
  unfold hits
  rw [Blocks.getElem?_flatMap (fun x _ => hpass _) j hi, List.getElem?_range hj]
  rfl

theorem length_hits {pass : Nat → List Hit} {m : Nat} (hpass : ∀ t, (pass t).length = m) (period t0 n : Nat) :
    (hits pass period t0 n).length = m * n := by
  unfold hits
  rw [Blocks.length_flatMap (fun x _ => hpass _), List.length_range]

/-- The bank is open after the last hit. -/
theorem open_after_hits (bank : Bank) {hits : List Hit} (hne : hits ≠ []) (m : Banks CInt) :
    ((hits.flatMap (Hit.cmds bank)).map Prod.snd).foldl (track id) m bank = true := by
  rw [map_snd_hits, ← List.dropLast_append_getLast hne, List.map_append, List.flatMap_append, List.foldl_append]
  exact Function.update_self _ _ _

/-! ## Equal open times -/

/-- Every row the run opens is closed, all of them after the same time, and the
bank is closed at the end. -/
structure Steady (bank : Bank) (es : List Stamped) : Prop where
  open_time : ∃ c, ∀ v ∈ visits bank es, v.closed = some (v.opened + c)
  closed : ∀ m : Banks CInt, (es.map Prod.snd).foldl (track id) m bank = false

/-- All rows the bank opens but the `n`-th are closed, after `c` cycles. -/
def SteadyButLast (bank : Bank) (c n : Nat) (es : List Stamped) : Prop :=
  ∀ k v, (visits bank es)[k]? = some v → v.closed = if k + 1 < n then some (v.opened + c) else none

theorem steadyButLast_hits (bank : Bank) {hits : List Hit} {c : Nat}
    (hnext : ∀ k x y, hits[k]? = some x → hits[k + 1]? = some y → y.pre = x.act + c) :
    SteadyButLast bank c hits.length (hits.flatMap (Hit.cmds bank)) := by
  intro k v hv
  rw [visits_hits] at hv
  obtain ⟨x, hx, rfl⟩ := Option.map_eq_some_iff.1 hv
  change hits[k + 1]?.map Hit.pre = _
  split
  · next hk =>
    have hy := List.getElem?_eq_getElem hk
    rw [hy, Option.map_some, hnext k x _ hx hy]
  · next hk => rw [List.getElem?_eq_none (by omega), Option.map_none]

theorem not_steady_hits (bank : Bank) {hits : List Hit} (hne : hits ≠ []) : ¬ Steady bank (hits.flatMap (Hit.cmds bank)) := by
  intro hs
  have hopen := open_after_hits bank hne fun _ => false
  rw [hs.closed] at hopen
  cases hopen

section
variable (period t0 : Nat) {n : Nat}

/-- The hits of `singleside_hammer`. -/
theorem getElem?_single (aggr_id : CInt) (on off : Nat) {j : Nat} (hj : j < n) :
    (hits (single_pass aggr_id on off) period t0 n)[j]? =
      some ⟨t0 + period * j + on, t0 + period * j + on + 2 + off, aggr_id⟩ := by
  have hget := getElem?_hits (single_pass aggr_id on off) (m := 1) (fun _ => rfl) period t0 hj (Nat.zero_lt_one)
  rw [Nat.one_mul, Nat.add_zero] at hget
  exact hget

theorem length_single (aggr_id : CInt) (on off : Nat) : (hits (single_pass aggr_id on off) period t0 n).length = n := by
  rw [length_hits (m := 1) fun _ => rfl, Nat.one_mul]

/-- The hits of `doubleside_hammer`. -/
theorem getElem?_double (aggr1_id aggr2_id : CInt) (on1 off1 on2 off2 : Nat) {j : Nat} (hj : j < n) :
    (hits (double_pass aggr1_id aggr2_id on1 off1 on2 off2) period t0 n)[2 * j]? =
        some ⟨t0 + period * j + on1, t0 + period * j + on1 + 2 + off1, aggr1_id⟩ ∧
      (hits (double_pass aggr1_id aggr2_id on1 off1 on2 off2) period t0 n)[2 * j + 1]? =
        some ⟨t0 + period * j + on1 + off1 + on2 + 9, t0 + period * j + on1 + off1 + on2 + 11 + off2, aggr2_id⟩ := by
  have hget := fun i => getElem?_hits (double_pass aggr1_id aggr2_id on1 off1 on2 off2) (m := 2) (fun _ => rfl)
    period t0 (i := i) hj
  exact ⟨hget 0 (by decide), hget 1 (by decide)⟩

theorem length_double (aggr1_id aggr2_id : CInt) (on1 off1 on2 off2 : Nat) :
    (hits (double_pass aggr1_id aggr2_id on1 off1 on2 off2) period t0 n).length = 2 * n :=
  length_hits (m := 2) (fun _ => rfl) period t0 n

end

/-- The open and closed times of `singleside_hammer`. -/
theorem single_next (aggr_id : CInt) (on off t0 n : Nat) {k : Nat} {x y : Hit}
    (hx : (hits (single_pass aggr_id on off) (on + off + 9) t0 n)[k]? = some x)
    (hy : (hits (single_pass aggr_id on off) (on + off + 9) t0 n)[k + 1]? = some y) : y.pre = x.act + (7 + on) := by
  obtain ⟨hk, -⟩ := List.getElem?_eq_some_iff.1 hy
  rw [length_single] at hk
  rw [getElem?_single _ _ aggr_id on off (by omega)] at hx hy
  cases hx
  cases hy
  ring

section
variable {aggr1_id aggr2_id : CInt} {on1 off1 on2 off2 t0 n j : Nat} {x y : Hit}

/-- In `doubleside_hammer` the first aggressor waits for the parameters of the
second. -/
theorem double_first_next
    (hx : (hits (double_pass aggr1_id aggr2_id on1 off1 on2 off2) (on1 + off1 + on2 + off2 + 18) t0 n)[2 * j]? = some x)
    (hy : (hits (double_pass aggr1_id aggr2_id on1 off1 on2 off2) (on1 + off1 + on2 + off2 + 18) t0 n)[2 * j + 1]? = some y) :
    x.row = aggr1_id ∧ y.pre = x.act + (7 + on2) ∧ y.act = y.pre + (2 + off2) := by
  obtain ⟨hj, -⟩ := List.getElem?_eq_some_iff.1 hx
  rw [length_double] at hj
  obtain ⟨h0, h1⟩ := getElem?_double (on1 + off1 + on2 + off2 + 18) t0 aggr1_id aggr2_id on1 off1 on2 off2
    (show j < n by omega)
  cases h0.symm.trans hx
  cases h1.symm.trans hy
  refine ⟨rfl, ?_, ?_⟩
  · dsimp only
    omega
  · dsimp only
    omega

/-- The second aggressor waits for the parameters of the first. -/
theorem double_second_next
    (hx : (hits (double_pass aggr1_id aggr2_id on1 off1 on2 off2) (on1 + off1 + on2 + off2 + 18) t0 n)[2 * j + 1]? = some x)
    (hy : (hits (double_pass aggr1_id aggr2_id on1 off1 on2 off2) (on1 + off1 + on2 + off2 + 18) t0 n)[2 * j + 2]? = some y) :
    x.row = aggr2_id ∧ y.pre = x.act + (7 + on1) ∧ y.act = y.pre + (2 + off1) := by
  obtain ⟨hj, -⟩ := List.getElem?_eq_some_iff.1 hy
  rw [length_double] at hj
  obtain ⟨-, h1⟩ := getElem?_double (on1 + off1 + on2 + off2 + 18) t0 aggr1_id aggr2_id on1 off1 on2 off2
    (show j < n by omega)
  obtain ⟨h0, -⟩ := getElem?_double (on1 + off1 + on2 + off2 + 18) t0 aggr1_id aggr2_id on1 off1 on2 off2
    (show j + 1 < n by omega)
  rw [Nat.mul_succ] at h0
  cases h1.symm.trans hx
  cases h0.symm.trans hy
  refine ⟨rfl, ?_, ?_⟩
  · dsimp only
    rw [Nat.mul_succ]
    omega
  · dsimp only
    omega

end

/-- No run of a hammer loop is steady: the row of the last hit stays open. The
others are open for equal times. -/
theorem hammer_leaves_row_open (bank : CInt) {h : Nat} (hpos : 0 < h) (hlt : h < 2 ^ 31) (signed : Bool)
    (other : Mnemonic → Board → Board × List Cmd) (b : Board) (t : Nat) :
    (∀ aggr_id nAggON nAggOFF, above_one 5 nAggON < 2 ^ 31 → above_one 3 nAggOFF < 2 ^ 31 →
      ∃ p, singleside_hammer bank aggr_id (BitVec.ofNat 32 h) nAggON nAggOFF = some p ∧ Platform.Executable p ∧
        ∃ s' es, Halts (p.get_inst_seq.map (timed signed other).act) 0 (b, t) es s' ∧ ¬ Steady (false, bank) es ∧
          SteadyButLast (false, bank) (7 + above_one 5 nAggON) h es) ∧
    ∀ aggr1_id aggr2_id nAggON nAggOFF1 nAggOFF2, above_one 5 nAggON < 2 ^ 31 → above_one 3 nAggOFF1 < 2 ^ 31 →
      above_one 3 nAggOFF2 < 2 ^ 31 →
      ∃ p, doubleside_hammer bank aggr1_id aggr2_id (BitVec.ofNat 32 h) nAggON nAggOFF1 nAggON nAggOFF2 = some p ∧
        Platform.Executable p ∧
        ∃ s' es, Halts (p.get_inst_seq.map (timed signed other).act) 0 (b, t) es s' ∧ ¬ Steady (false, bank) es ∧
          SteadyButLast (false, bank) (7 + above_one 5 nAggON) (2 * h) es := by
  constructor
  · intro aggr_id nAggON nAggOFF hon hoff
    obtain ⟨p, hp, hx, hruns⟩ := singleside_hammer_run bank aggr_id hpos hlt hon hoff
    obtain ⟨s', es, hh, rfl⟩ := hruns signed other b t
    refine ⟨p, hp, hx, s', _, hh, not_steady_hits _ ?_, ?_⟩
    · rw [← List.length_pos_iff, length_single]
      exact hpos
    · have hsteady := steadyButLast_hits (false, bank) (fun k x y => single_next aggr_id (above_one 5 nAggON)
        (above_one 3 nAggOFF) (t + 4) h (k := k) (x := x) (y := y))
      rwa [length_single] at hsteady
  · intro aggr1_id aggr2_id nAggON nAggOFF1 nAggOFF2 hon hoff1 hoff2
    obtain ⟨p, hp, hx, hruns⟩ := doubleside_hammer_run bank aggr1_id aggr2_id hpos hlt hon hoff1 hon hoff2
    obtain ⟨s', es, hh, rfl⟩ := hruns signed other b t
    refine ⟨p, hp, hx, s', _, hh, not_steady_hits _ ?_, ?_⟩
    · rw [← List.length_pos_iff, length_double]
      omega
    · rw [← length_double _ (t + 4) (n := h) aggr1_id aggr2_id]
      apply steadyButLast_hits (false, bank)
      intro k x y hx hy
      obtain ⟨j, rfl | rfl⟩ : ∃ j, k = 2 * j ∨ k = 2 * j + 1 := ⟨k / 2, by omega⟩
      · exact (double_first_next hx hy).2.1
      · exact (double_second_next hx hy).2.1

/-- Ten hits of a row, 200 cycles apart. -/
theorem hammer_leaves_row_open_ten : ∃ p q, singleside_hammer 1 7 10 3 5 = some p ∧ doubleside_hammer 1 7 9 10 3 5 3 1 = some q ∧
    (∃ s' es, Halts (p.get_inst_seq.map (timed false fun _ b => (b, [])).act) 0 (.zero, 0) es s' ∧
      ¬ Steady (false, 1) es ∧ SteadyButLast (false, 1) 17 10 es) ∧
    ∃ s' es, Halts (q.get_inst_seq.map (timed false fun _ b => (b, [])).act) 0 (.zero, 0) es s' ∧
      ¬ Steady (false, 1) es ∧ SteadyButLast (false, 1) 17 20 es := by
  obtain ⟨hsingle, hdouble⟩ := hammer_leaves_row_open 1 (h := 10) (by decide) (by decide) false (fun _ b => (b, [])) .zero 0
  obtain ⟨p, hp, -, hsteady⟩ := hsingle 7 3 5 (by decide) (by decide)
  obtain ⟨q, hq, -, hsteady'⟩ := hdouble 7 9 3 5 1 (by decide) (by decide) (by decide)
  exact ⟨p, q, hp, hq, hsteady, hsteady'⟩

/-- One hit: the row is opened and never closed. -/
theorem hammer_once : ∃ p, singleside_hammer 1 7 1 1 1 = some p ∧
    ∃ s' es, Halts (p.get_inst_seq.map (timed false fun _ b => (b, [])).act) 0 (.zero, 0) es s' ∧
      es = [(16, .PRE (false, 1)), (27, .ACT (false, 1) 7)] ∧ ¬ Steady (false, 1) es := by
  obtain ⟨p, hp, -, hruns⟩ := singleside_hammer_run 1 7 (h := 1) (by decide) (by decide)
    (show above_one 5 1 < 2 ^ 31 by decide) (show above_one 3 1 < 2 ^ 31 by decide)
  obtain ⟨s', es, hh, rfl⟩ := hruns false (fun _ b => (b, [])) .zero 0
  refine ⟨p, hp, s', _, hh, by rfl, not_steady_hits _ ?_⟩
  rw [← List.length_pos_iff, length_single]
  exact Nat.zero_lt_one

/-! ## Whose parameters -/

/-- From the third row the bank opens on, `row_id` is open for `on` cycles each
time, and the next row is opened `off` cycles after it is closed. -/
def Keeps (bank : Bank) (row_id : CInt) (on off : Nat) (es : List Stamped) : Prop :=
  ∀ k v, 2 ≤ k → (visits bank es)[k]? = some v → v.row = row_id → ∀ t, v.closed = some t → t = v.opened + on ∧
    ∀ t', v.reopened = some t' → t' = t + off

/-- Every visit but the last leads to the next hit. -/
theorem visit_next {bank : Bank} {hits : List Hit} {k : Nat} {v : Visit} {t : Nat}
    (hv : (visits bank (hits.flatMap (Hit.cmds bank)))[k]? = some v) (ht : v.closed = some t) :
    ∃ x y, hits[k]? = some x ∧ hits[k + 1]? = some y ∧ v = ⟨x.row, x.act, some y.pre, some y.act⟩ := by
  rw [visits_hits] at hv
  obtain ⟨x, hx, rfl⟩ := Option.map_eq_some_iff.1 hv
  obtain ⟨y, hy, -⟩ := Option.map_eq_some_iff.1 ht
  exact ⟨x, y, hx, hy, by rw [hy]; rfl⟩

section
variable (bank : Bank) {aggr1_id aggr2_id : CInt} (hne : aggr1_id ≠ aggr2_id) (on1 off1 on2 off2 t0 n : Nat)
include hne

/-- The parameters change places. -/
theorem keeps_double :
    let es := (hits (double_pass aggr1_id aggr2_id on1 off1 on2 off2) (on1 + off1 + on2 + off2 + 18) t0 n).flatMap (Hit.cmds bank)
    Keeps bank aggr1_id (7 + on2) (2 + off2) es ∧ Keeps bank aggr2_id (7 + on1) (2 + off1) es := by
  constructor
  · intro k v hk hv hrow t ht
    obtain ⟨x, y, hx, hy, rfl⟩ := visit_next hv ht
    cases ht
    obtain ⟨j, rfl | rfl⟩ : ∃ j, k = 2 * j ∨ k = 2 * j + 1 := ⟨k / 2, by omega⟩
    · obtain ⟨-, hpre, hact⟩ := double_first_next hx hy
      exact ⟨hpre, fun t' ht' => (Option.some.inj ht').symm.trans hact⟩
    · exact absurd (hrow.symm.trans (double_second_next hx hy).1) hne
  · intro k v hk hv hrow t ht
    obtain ⟨x, y, hx, hy, rfl⟩ := visit_next hv ht
    cases ht
    obtain ⟨j, rfl | rfl⟩ : ∃ j, k = 2 * j ∨ k = 2 * j + 1 := ⟨k / 2, by omega⟩
    · exact absurd ((double_first_next hx hy).1.symm.trans hrow) hne
    · obtain ⟨-, hpre, hact⟩ := double_second_next hx hy
      exact ⟨hpre, fun t' ht' => (Option.some.inj ht').symm.trans hact⟩

end

/-- The first aggressor's times are those of one pair of parameters only. -/
theorem keeps_first (bank : Bank) (aggr1_id aggr2_id : CInt) (on1 off1 on2 off2 t0 : Nat) {n : Nat} (hn : 2 ≤ n) {on off : Nat}
    (h : Keeps bank aggr1_id on off
      ((hits (double_pass aggr1_id aggr2_id on1 off1 on2 off2) (on1 + off1 + on2 + off2 + 18) t0 n).flatMap (Hit.cmds bank))) :
    on = 7 + on2 ∧ off = 2 + off2 := by
  obtain ⟨h0, h1⟩ := getElem?_double (on1 + off1 + on2 + off2 + 18) t0 aggr1_id aggr2_id on1 off1 on2 off2
    (show 1 < n by omega)
  obtain ⟨-, hpre, hact⟩ := double_first_next h0 h1
  have hv := visits_hits bank (hits (double_pass aggr1_id aggr2_id on1 off1 on2 off2) (on1 + off1 + on2 + off2 + 18) t0 n) 2
  rw [h0, h1] at hv
  obtain ⟨ht, hr⟩ := h 2 _ le_rfl hv rfl _ rfl
  have hr := hr _ rfl
  dsimp only at ht hr hpre hact
  omega

theorem above_one_eq_iff (step : Nat) (hstep : 0 < step) (m n : CInt) :
    above_one step m = above_one step n ↔ max m.toInt 1 = max n.toInt 1 := by
  unfold above_one
  rw [Nat.mul_right_inj (by omega)]
  omega

/-- The parameters of `doubleside_hammer` act on their own aggressor if they are
the same for both; the others act on the other one. -/
theorem doubleside_hammer_keeps_iff (bank : CInt) {aggr1_id aggr2_id : CInt} (hne : aggr1_id ≠ aggr2_id) {h : Nat} (htwo : 2 ≤ h)
    (hlt : h < 2 ^ 31) {nAggON1 nAggOFF1 nAggON2 nAggOFF2 : CInt} (hon1 : above_one 5 nAggON1 < 2 ^ 31)
    (hoff1 : above_one 3 nAggOFF1 < 2 ^ 31) (hon2 : above_one 5 nAggON2 < 2 ^ 31) (hoff2 : above_one 3 nAggOFF2 < 2 ^ 31)
    (signed : Bool) (other : Mnemonic → Board → Board × List Cmd) (b : Board) (t : Nat) :
    ∃ p, doubleside_hammer bank aggr1_id aggr2_id (BitVec.ofNat 32 h) nAggON1 nAggOFF1 nAggON2 nAggOFF2 = some p ∧
      Platform.Executable p ∧ ∃ s' es, Halts (p.get_inst_seq.map (timed signed other).act) 0 (b, t) es s' ∧
        ((Keeps (false, bank) aggr1_id (7 + above_one 5 nAggON1) (2 + above_one 3 nAggOFF1) es ∧
            Keeps (false, bank) aggr2_id (7 + above_one 5 nAggON2) (2 + above_one 3 nAggOFF2) es) ↔
          max nAggON1.toInt 1 = max nAggON2.toInt 1 ∧ max nAggOFF1.toInt 1 = max nAggOFF2.toInt 1) ∧
        Keeps (false, bank) aggr1_id (7 + above_one 5 nAggON2) (2 + above_one 3 nAggOFF2) es ∧
        Keeps (false, bank) aggr2_id (7 + above_one 5 nAggON1) (2 + above_one 3 nAggOFF1) es := by
  obtain ⟨p, hp, hx, hruns⟩ := doubleside_hammer_run bank aggr1_id aggr2_id (by omega) hlt hon1 hoff1 hon2 hoff2
  obtain ⟨s', es, hh, he⟩ := hruns signed other b t
  have hkeeps := keeps_double (false, bank) hne (above_one 5 nAggON1) (above_one 3 nAggOFF1) (above_one 5 nAggON2)
    (above_one 3 nAggOFF2) (t + 4) h
  rw [← he] at hkeeps
  obtain ⟨hfirst, hsecond⟩ := hkeeps
  refine ⟨p, hp, hx, s', es, hh, ?_, hfirst, hsecond⟩
  rw [← above_one_eq_iff 5 (by decide), ← above_one_eq_iff 3 (by decide)]
  constructor
  · rintro ⟨hown, -⟩
    rw [he] at hown
    obtain ⟨hon, hoff⟩ := keeps_first (false, bank) aggr1_id aggr2_id _ _ _ _ _ htwo hown
    omega
  · rintro ⟨hon, hoff⟩
    rw [hon, hoff] at hsecond ⊢
    exact ⟨hfirst, hsecond⟩

/-- The same parameters for both aggressors. -/
theorem doubleside_hammer_keeps_same : ∃ p, doubleside_hammer 1 7 9 5 3 2 3 2 = some p ∧
    ∃ s' es, Halts (p.get_inst_seq.map (timed false fun _ b => (b, [])).act) 0 (.zero, 0) es s' ∧
      Keeps (false, 1) 7 17 5 es ∧ Keeps (false, 1) 9 17 5 es := by
  obtain ⟨p, hp, -, s', es, hh, -, hkeeps⟩ := doubleside_hammer_keeps_iff 1 (show (7 : CInt) ≠ 9 by decide)
    (h := 5) (by decide) (by decide) (show above_one 5 3 < 2 ^ 31 by decide) (show above_one 3 2 < 2 ^ 31 by decide)
    (show above_one 5 3 < 2 ^ 31 by decide) (show above_one 3 2 < 2 ^ 31 by decide) false (fun _ b => (b, [])) .zero 0
  exact ⟨p, hp, s', es, hh, hkeeps⟩

/-- Two runs that differ in the second aggressor's open time only: no time is
the one the first aggressor is open for in both. -/
theorem second_stretches_first : ∃ p q, doubleside_hammer 1 7 9 2 1 1 1 1 = some p ∧ doubleside_hammer 1 7 9 2 1 1 2 1 = some q ∧
    ∃ s1 es1 s2 es2, Halts (p.get_inst_seq.map (timed false fun _ b => (b, [])).act) 0 (.zero, 0) es1 s1 ∧
      Halts (q.get_inst_seq.map (timed false fun _ b => (b, [])).act) 0 (.zero, 0) es2 s2 ∧
      ∀ on off, ¬ (Keeps (false, 1) 7 on off es1 ∧ Keeps (false, 1) 7 on off es2) := by
  obtain ⟨p, hp, -, hruns⟩ := doubleside_hammer_run 1 7 9 (h := 2) (by decide) (by decide)
    (show above_one 5 1 < 2 ^ 31 by decide) (show above_one 3 1 < 2 ^ 31 by decide) (show above_one 5 1 < 2 ^ 31 by decide)
    (show above_one 3 1 < 2 ^ 31 by decide)
  obtain ⟨q, hq, -, hruns'⟩ := doubleside_hammer_run 1 7 9 (h := 2) (by decide) (by decide)
    (show above_one 5 1 < 2 ^ 31 by decide) (show above_one 3 1 < 2 ^ 31 by decide) (show above_one 5 2 < 2 ^ 31 by decide)
    (show above_one 3 1 < 2 ^ 31 by decide)
  obtain ⟨s1, es1, hh1, rfl⟩ := hruns false (fun _ b => (b, [])) .zero 0
  obtain ⟨s2, es2, hh2, rfl⟩ := hruns' false (fun _ b => (b, [])) .zero 0
  refine ⟨p, q, hp, hq, s1, _, s2, _, hh1, hh2, ?_⟩
  rintro on off ⟨hkeeps1, hkeeps2⟩
  have h1 : on = 7 := (keeps_first (false, 1) 7 9 _ _ _ _ _ le_rfl hkeeps1).1
  have h2 : on = 12 := (keeps_first (false, 1) 7 9 _ _ _ _ _ le_rfl hkeeps2).1
  omega

end DCT
