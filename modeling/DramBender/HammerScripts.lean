import Mathlib
import DramBender.BerSweep
import DramBender.Rows
import DramBender.Bitflips
import DramBender.Sessions
import DramBender.Lib.Dialogue
/-!
# The RowHammer experiments

The scripts `di_rd_hc.py` and `di_rd_rp.py` write a victim row and its neighbours,
hammer one or both of them and count the bits of the victim that have changed. A
script is a dialogue with the board. `di_rd_hc` raises the hammer count until bits
flip (`di_rd_hc_exact`); `di_rd_rp` keeps the aggressor open for longer and makes one
trial of each kind (`di_rd_rp_exact`).
-/

namespace DCT

open DRAMBender Machine Dialogue
open DRAMBender.Board

/-! ## Trials -/

/-- Programs that are executed one after the other, and the patterns
`get_bitflips` is then called with. -/
structure Trial where
  progs : List Request
  patterns : List WritePattern_t

/-- A row of what `get_bitflips` returns. -/
abbrev Mask := List (BitVec 64)

abbrev Script := Dialogue Trial (List Mask)

/-- The board runs the programs, whatever becomes of its cells before each of
them, and `get_bitflips` takes all the words it gets. -/
def Answers (signed : Bool) (other : Mnemonic → Board → Board × List Cmd) (b : Board) (q : Trial) (bitflips : List Mask)
    (b' : Board) : Prop :=
  ∃ tasks ess, tasks.map Task.request = q.progs ∧ Session signed other tasks b ess b' ∧
    get_bitflips (ess.map readback).flatten q.patterns = some (bitflips, [])

/-- A request there is a program for. -/
def Request.Able (r : Request) : Prop := r.Served ∧ ∃ p, r.program = some p ∧ Platform.Executable p

theorem exists_tasks {rs : List Request} (h : ∀ r ∈ rs, r.Able) : ∃ tasks : List Task, tasks.map Task.request = rs := by
  induction rs with
  | nil => exact ⟨[], rfl⟩
  | cons r rs ih =>
    obtain ⟨hs, p, hp, hx⟩ := h r List.mem_cons_self
    obtain ⟨tasks, rfl⟩ := ih fun r hr => h r (List.mem_cons_of_mem _ hr)
    exact ⟨⟨r, p, id, hp, hx, hs⟩ :: tasks, rfl⟩

theorem init_rows_able (bank : CInt) {row_ids : List CInt} {wr_words : List WriteWord_t} (hne : row_ids ≠ [])
    (hlen : row_ids.length ≤ wr_words.length) (hn : row_ids.length ≤ 128) : (Request.init_rows bank row_ids wr_words).Able :=
  ⟨hne, init_rows_generates bank hlen hn⟩

theorem read_rows_able (bank : CInt) {row_ids : List CInt} (hne : row_ids ≠ []) (hn : row_ids.length ≤ 256) :
    (Request.read_rows bank row_ids).Able :=
  ⟨hne, read_rows_generates bank hn⟩

theorem toInt_count {h : Nat} (hpos : 0 < h) (hlt : h < 2 ^ 31) : 0 < (BitVec.ofNat 32 h : CInt).toInt := by
  rw [BitVec.toInt_eq_toNat_of_lt] <;> rw [BitVec.toNat_ofNat] <;> omega

theorem singleside_hammer_able (bank aggr_id : CInt) {h : Nat} (hpos : 0 < h) (hlt : h < 2 ^ 31) {nAggON : CInt}
    (hon : above_one 5 nAggON < 2 ^ 31) : (Request.singleside_hammer bank aggr_id (BitVec.ofNat 32 h) nAggON 0).Able := by
  refine ⟨⟨toInt_count hpos hlt, hon, by decide⟩, ?_⟩
  obtain ⟨p, hp, hx, -⟩ := singleside_hammer_run bank aggr_id hpos hlt hon (show above_one 3 0 < 2 ^ 31 by decide)
  exact ⟨p, hp, hx⟩

theorem doubleside_hammer_able (bank aggr1_id aggr2_id : CInt) {h : Nat} (hpos : 0 < h) (hlt : h < 2 ^ 31) :
    (Request.doubleside_hammer bank aggr1_id aggr2_id (BitVec.ofNat 32 h) 0 0 0 0).Able := by
  refine ⟨⟨toInt_count hpos hlt, by decide⟩, ?_⟩
  obtain ⟨p, hp, hx, -⟩ := doubleside_hammer_run bank aggr1_id aggr2_id hpos hlt (show above_one 5 0 < 2 ^ 31 by decide)
    (show above_one 3 0 < 2 ^ 31 by decide) (show above_one 5 0 < 2 ^ 31 by decide) (show above_one 3 0 < 2 ^ 31 by decide)
  exact ⟨p, hp, hx⟩

/-! ## The scripts -/

/-- Which neighbours of the victim are hammered. -/
inductive Aggr where
  | Upper
  | Lower
  | Double
  deriving DecidableEq

def Aggr.text : Aggr → String
  | .Upper => "Upper"
  | .Lower => "Lower"
  | .Double => "Double"

def agg_data_patterns (dp_id : Fin 2) : WriteWord_t := if dp_id.val = 0 then 0x0 else 0xFFFFFFFF

def vic_data_patterns (dp_id : Fin 2) : WriteWord_t := if dp_id.val = 0 then 0xFFFFFFFF else 0x0

/-- `f"{word:08X}"` -/
def hex08 (word : WriteWord_t) : String := String.ofList (((Nat.toDigits 16 word.toNat).map Char.toUpper).leftpad 8 '0')

/-- A victim row, a data pattern and a way of hammering. -/
structure Series where
  vic_row_id : Nat
  dp_id : Fin 2
  aggr : Aggr
  deriving DecidableEq

/-- A line of a table of results. -/
structure Entry (α : Type) where
  vic_row_id : Nat
  data_pattern : String
  hc : Nat
  aggr_type : String
  bitflips : α
  itr : Nat

/-- A line of `results` and the one of `bitflips_record` beside it. -/
abbrev Found := Entry Nat × Entry Mask

namespace Series

variable (bank : CInt) (x : Series)

def entry {α : Type} (hc : Nat) (bitflips : α) : Entry α :=
  ⟨x.vic_row_id, "0x" ++ hex08 (vic_data_patterns x.dp_id), hc, x.aggr.text, bitflips, 0⟩

def found (hc : Nat) (bitflip_mask : Mask) : Found :=
  (x.entry hc (popcount_uint64 bitflip_mask), x.entry hc bitflip_mask)

/-- The rows are written, the aggressors hammered and the victim read. -/
def trial (vic_id upper_id lower_id : Nat) (nAggON : CInt) (hc : Nat) : Trial :=
  let vic : CInt := BitVec.ofNat 32 vic_id
  let upper : CInt := BitVec.ofNat 32 upper_id
  let lower : CInt := BitVec.ofNat 32 lower_id
  let hammer_count : CInt := BitVec.ofNat 32 hc
  let vic_data_pattern := vic_data_patterns x.dp_id
  let agg_data_pattern := agg_data_patterns x.dp_id
  { progs := [.init_rows bank [vic, upper, lower] [vic_data_pattern, agg_data_pattern, agg_data_pattern],
      match x.aggr with
      | .Upper => .singleside_hammer bank upper hammer_count nAggON 0
      | .Lower => .singleside_hammer bank lower hammer_count nAggON 0
      | .Double => .doubleside_hammer bank upper lower hammer_count 0 0 0 0,
      .read_rows bank [vic]]
    patterns := [fun _ => vic_data_pattern] }

/-- The trial on the rows of the module. There is none under a mapping that
`map_row` does not know. -/
def asked (mapping : Option String) (nAggON : CInt) (hc : Nat) : Option Trial := do
  let vic ← (⟨x.vic_row_id, mapping⟩ : Row).logical_id
  let upper ← (⟨x.vic_row_id + 1, mapping⟩ : Row).logical_id
  let lower ← (⟨x.vic_row_id - 1, mapping⟩ : Row).logical_id
  some (x.trial bank vic upper lower nAggON hc)

/-- `p.execute(progs)` and `get_bitflips`. -/
def shoot (mapping : Option String) (nAggON : CInt) (hc : Nat) (next : List Mask → Script (List Found)) : Script (List Found) :=
  match x.asked bank mapping nAggON hc with
  | some q => .ask q next
  | none => .fail

/-- The loop of `di_rd_hc` over hammer counts, with its flag `found`. -/
def search (mapping : Option String) : List Nat → Bool → List Found → Script (List Found)
  | [], _, results => .done results
  | hc :: hcs, found, results =>
    if found then .done results
    else x.shoot bank mapping 0 hc fun bitflips =>
      let r := bitflips.foldl
        (fun r bitflip_mask =>
          if popcount_uint64 bitflip_mask > 0 then (r.1 ++ [x.found hc bitflip_mask], true) else r)
        (results, found)
      search mapping hcs r.2 r.1

/-- The loop of `di_rd_rp` over hammer counts, which notes every trial. -/
def measure (mapping : Option String) (nAggON : CInt) : List Nat → List Found → Script (List Found)
  | [], results => .done results
  | hc :: hcs, results =>
    x.shoot bank mapping nAggON hc fun bitflips =>
      measure mapping nAggON hcs (bitflips.foldl (fun results bitflip_mask => results ++ [x.found hc bitflip_mask]) results)

end Series

/-- `range(start, stop, step)` -/
def py_range (start stop step : Nat) : List Nat := (List.range ((stop - start + step - 1) / step)).map fun i => start + step * i

/-- The loops over the victim rows and the data patterns, with one loop for each
way of hammering. -/
def for_rows (aggrs : List Aggr) (body : Series → List Found → Script (List Found)) : Script (List Found) :=
  loop (fun vic_row_id => loop (fun dp_id => loop (fun aggr => body ⟨vic_row_id, dp_id, aggr⟩) aggrs) (List.finRange 2))
    Sweep.victim_rows []

def hc_range : Aggr → List Nat
  | .Upper | .Lower => py_range 10000 1000000 10000
  | .Double => py_range 1000 500000 1000

def di_rd_hc (bank : CInt) (mapping : Option String) : Script (List Found) :=
  for_rows [.Upper, .Lower, .Double] fun x => x.search bank mapping (hc_range x.aggr) false

def di_rd_rp (bank : CInt) (mapping : Option String) : Script (List Found) :=
  for_rows [.Upper, .Lower] fun x => x.measure bank mapping 260 [7500]

/-! ## What the scripts ask and note -/

def all_series (aggrs : List Aggr) : List Series :=
  Sweep.victim_rows.flatMap fun vic_row_id => (List.finRange 2).flatMap fun dp_id => aggrs.map (Series.mk vic_row_id dp_id)

theorem for_rows_eq (aggrs : List Aggr) (body : Series → List Found → Script (List Found)) :
    for_rows aggrs body = loop body (all_series aggrs) [] := by
  have hdp : ∀ vic_row_id, loop (fun dp_id => loop (fun aggr => body ⟨vic_row_id, dp_id, aggr⟩) aggrs) (List.finRange 2) =
      loop body ((List.finRange 2).flatMap fun dp_id => aggrs.map (Series.mk vic_row_id dp_id)) := by
    intro vic_row_id
    funext results
    rw [loop_flatMap]
    congr
    funext dp_id results
    exact (loop_map body _ aggrs results).symm
  rw [for_rows, all_series, loop_flatMap]
  congr
  funext vic_row_id
  exact hdp vic_row_id

/-- A trial has changed bits of the victim. -/
def Flips (bitflips : List Mask) : Prop := ∃ bitflip_mask ∈ bitflips, 0 < popcount_uint64 bitflip_mask

instance : DecidablePred Flips := fun bitflips => inferInstanceAs (Decidable (∃ bitflip_mask ∈ bitflips, _))

namespace Series

variable {bank : CInt} {x : Series} {mapping : Option String} {nAggON : CInt}

/-- The lines `di_rd_hc` notes for a trial. -/
def noted (x : Series) (hc : Nat) (bitflips : List Mask) : List Found :=
  (bitflips.filter fun bitflip_mask => 0 < popcount_uint64 bitflip_mask).map (x.found hc)

theorem note_eq (hc : Nat) (bitflips : List Mask) (results : List Found) (found : Bool) :
    bitflips.foldl
        (fun r bitflip_mask =>
          if popcount_uint64 bitflip_mask > 0 then (r.1 ++ [x.found hc bitflip_mask], true) else r)
        (results, found) = (results ++ x.noted hc bitflips, found || decide (Flips bitflips)) := by
  induction bitflips generalizing results found with
  | nil => simp [noted, Flips]
  | cons bitflip_mask bitflips ih =>
    have hflips : Flips (bitflip_mask :: bitflips) ↔ 0 < popcount_uint64 bitflip_mask ∨ Flips bitflips := by simp [Flips]
    rw [List.foldl_cons]
    by_cases h : 0 < popcount_uint64 bitflip_mask
    · rw [if_pos h, ih, decide_eq_true (hflips.2 (.inl h))]
      simp [noted, h]
    · have hsame : decide (Flips (bitflip_mask :: bitflips)) = decide (Flips bitflips) :=
        decide_eq_decide.2 (hflips.trans (or_iff_right h))
      rw [if_neg h, ih, hsame]
      simp [noted, h]

theorem search_found (hcs : List Nat) (results : List Found) : x.search bank mapping hcs true results = .done results := by
  cases hcs <;> rfl

theorem talk_search {q : Nat → Trial} (hq : ∀ hc, x.asked bank mapping 0 hc = some (q hc)) (hcs : List Nat)
    (results : List Found) (log : List (Trial × List Mask)) (r : List Found) :
    Talk (x.search bank mapping hcs false results) log r ↔ ∃ tries, Searched hcs Flips tries ∧
      log = tries.map (fun t => (q t.1, t.2)) ∧ r = results ++ tries.flatMap fun t => x.noted t.1 t.2 := by
  refine Dialogue.talk_search (fun hcs => x.search bank mapping hcs false) (fun _ => rfl) (fun hc hcs results => ?_) hcs results log r
  rw [search, if_neg Bool.false_ne_true, shoot, hq]
  refine congrArg (ask (q hc)) (funext fun bitflips => ?_)
  dsimp only
  rw [note_eq, Bool.false_or]
  by_cases h : Flips bitflips
  · rw [if_pos h, decide_eq_true h, search_found]
  · rw [if_neg h, decide_eq_false h]

theorem talk_measure {q : Trial} {hc : Nat} (hq : x.asked bank mapping nAggON hc = some q) (results : List Found)
    (log : List (Trial × List Mask)) (r : List Found) :
    Talk (x.measure bank mapping nAggON [hc] results) log r ↔
      ∃ bitflips, log = [(q, bitflips)] ∧ r = results ++ bitflips.map (x.found hc) := by
  have hnote : ∀ bitflips : List Mask, bitflips.foldl (fun results bitflip_mask => results ++ [x.found hc bitflip_mask]) results =
      results ++ bitflips.map (x.found hc) := by
    intro bitflips
    rw [List.foldl_append_eq_append]
    exact congrArg (results ++ ·) List.map_eq_flatMap.symm
  rw [measure, shoot, hq, talk_ask]
  simp only [measure, talk_done, hnote]
  constructor
  · rintro ⟨bitflips, log', rfl, rfl, rfl⟩
    exact ⟨bitflips, rfl, rfl⟩
  · rintro ⟨bitflips, rfl, rfl⟩
    exact ⟨bitflips, [], rfl, rfl, rfl⟩

/-- The trial under a known mapping. -/
def on (bank : CInt) (f : Nat → Nat) (nAggON : CInt) (x : Series) (hc : Nat) : Trial :=
  x.trial bank (f x.vic_row_id) (f (x.vic_row_id + 1)) (f (x.vic_row_id - 1)) nAggON hc

theorem asked_on {f : Nat → Nat} (hf : ∀ addr, map_row addr mapping = some (f addr)) (hc : Nat) :
    x.asked bank mapping nAggON hc = some (x.on bank f nAggON hc) := by
  simp only [asked, Row.logical_id, hf]
  rfl

end Series

/-! ## What the board answers -/

/-- One row is returned, and its bits are those in which the row, as the trial
leaves it, differs from the pattern. -/
def Counts (_ : Board) (q : Trial) (bitflips : List Mask) (b' : Board) : Prop :=
  ∃ progs bank vic word bitflip_mask, q.progs = progs ++ [.read_rows bank [vic]] ∧ q.patterns = [fun _ => word] ∧
    bitflips = [bitflip_mask] ∧ bitflip_mask.length = 1024 ∧
    popcount_uint64 bitflip_mask = differing_bits b'.dram (fun _ _ _ _ => word) (false, bank) vic

theorem trial_able (bank : CInt) (x : Series) (v u l : Nat) {nAggON : CInt} (hon : above_one 5 nAggON < 2 ^ 31) {hc : Nat}
    (hpos : 0 < hc) (hlt : hc < 2 ^ 31) : ∀ r ∈ (x.trial bank v u l nAggON hc).progs, r.Able := by
  obtain ⟨vic_row_id, dp_id, aggr⟩ := x
  simp only [Series.trial, List.mem_cons, List.not_mem_nil, or_false]
  rintro r (rfl | rfl | rfl)
  · exact init_rows_able bank (by simp) (by simp) (by simp)
  · cases aggr with
    | Upper => exact singleside_hammer_able bank _ hpos hlt hon
    | Lower => exact singleside_hammer_able bank _ hpos hlt hon
    | Double => exact doubleside_hammer_able bank _ _ hpos hlt
  · exact read_rows_able bank (by simp) (by simp)

/-- What three programs return when only the last one reads, and writes
nothing. -/
theorem session_last {signed : Bool} {other : Mnemonic → Board → Board × List Cmd} {tasks : List Task} {b b' : Board}
    {ess : List (List Cmd)} (hs : Session signed other tasks b ess b') {r1 r2 r3 : Request} (h1 : r1.rows_read signed = [])
    (h2 : r2.rows_read signed = []) (h3 : r3.puts signed = []) (htasks : tasks.map Task.request = [r1, r2, r3]) :
    (ess.map readback).flatten =
      (r3.rows_read signed).flatMap fun row_id => row_words (b'.dram r3.bank row_id) (columns 0 128) := by
  obtain ⟨hess, hdram⟩ := session_spec hs
  obtain ⟨t1, ts1, rfl, rfl, hts1⟩ := List.map_eq_cons_iff.1 htasks
  obtain ⟨t2, ts2, rfl, rfl, hts2⟩ := List.map_eq_cons_iff.1 hts1
  obtain ⟨t3, ts3, rfl, rfl, hts3⟩ := List.map_eq_cons_iff.1 hts2
  obtain rfl := List.map_eq_nil_iff.1 hts3
  have hread : ∀ cells, t3.request.effect signed cells = cells := by
    intro cells
    rw [Request.effect, h3]
    rfl
  rw [hess, hdram]
  simp only [expected, final, List.foldl_cons, List.foldl_nil, hread]
  rw [Request.words, h1, Request.words, h2, Request.words]
  simp only [List.flatMap_nil, List.flatten_cons, List.flatten_nil, List.nil_append, List.append_nil, hread]

/-- The masks of rows count the bits in which they differ from a word. -/
theorem get_bitflips_words (bank : Bank) (cells : Cells) {row_ids : List CInt} (hn : row_ids.length < 2 ^ 18) (word : WriteWord_t) :
    ∃ flips, get_bitflips (row_ids.flatMap fun row_id => row_words (cells bank row_id) (columns 0 128))
        (row_ids.map fun _ _ => word) = some (flips, []) ∧ flips.length = row_ids.length ∧
      ∀ (j : Nat) (row_id : CInt) (bitflip_mask : Mask), row_ids[j]? = some row_id → flips[j]? = some bitflip_mask →
        bitflip_mask.length = 1024 ∧
        popcount_uint64 bitflip_mask = differing_bits cells (fun _ _ _ _ => word) bank row_id := by
  obtain ⟨flips, hget, hlen, hflips⟩ := get_bitflips_readback bank cells hn fun _ _ => word
  rw [readback_rows] at hget
  refine ⟨flips, hget, hlen, fun j row_id bitflip_mask hj hmask => ?_⟩
  obtain ⟨hlength, hbits⟩ := hflips j row_id bitflip_mask hj hmask
  refine ⟨hlength, popcount_masks hlength fun k w hw b hb => ?_⟩
  have hk : 2 * (k % 8) + b / 32 < 16 := by omega
  rw [hbits k w hw b hb, List.getD_eq_getElem _ _ (by simpa using hk), List.getElem_ofFn, Bool.xor_comm]
  rfl

section
variable {signed : Bool} {other : Mnemonic → Board → Board × List Cmd}

theorem rows_read_trial (signed : Bool) (bank : CInt) (x : Series) (v u l : Nat) (nAggON : CInt) (hc : Nat) :
    ∃ r1 r2, (x.trial bank v u l nAggON hc).progs = [r1, r2, .read_rows bank [BitVec.ofNat 32 v]] ∧
      r1.rows_read signed = [] ∧ r2.rows_read signed = [] := by
  obtain ⟨vic_row_id, dp_id, aggr⟩ := x
  cases aggr <;> exact ⟨_, _, rfl, rfl, rfl⟩

/-- The board answers a trial, and every answer counts the bits that changed. -/
theorem answers_trial (bank : CInt) (x : Series) (v u l : Nat) {nAggON : CInt} (hon : above_one 5 nAggON < 2 ^ 31) {hc : Nat}
    (hpos : 0 < hc) (hlt : hc < 2 ^ 31) (b : Board) :
    (∃ bitflips b', Answers signed other b (x.trial bank v u l nAggON hc) bitflips b') ∧
      ∀ bitflips b', Answers signed other b (x.trial bank v u l nAggON hc) bitflips b' →
        Counts b (x.trial bank v u l nAggON hc) bitflips b' := by
  obtain ⟨r1, r2, hprogs, h1, h2⟩ := rows_read_trial signed bank x v u l nAggON hc
  have hone : ∀ v, [(BitVec.ofNat 32 v : CInt)].length < 2 ^ 18 := fun v => by simp
  constructor
  · obtain ⟨tasks, htasks⟩ := exists_tasks (trial_able bank x v u l hon hpos hlt)
    obtain ⟨ess, b', hs⟩ := exists_session signed other tasks b
    obtain ⟨flips, hget, -⟩ := get_bitflips_words (false, bank) b'.dram (hone v) (vic_data_patterns x.dp_id)
    exact ⟨flips, b', tasks, ess, htasks, hs, by rw [session_last hs h1 h2 rfl (htasks.trans hprogs)]; exact hget⟩
  · rintro bitflips b' ⟨tasks, ess, htasks, hs, hget⟩
    obtain ⟨flips, hget', hlen, hcounts⟩ := get_bitflips_words (false, bank) b'.dram (hone v) (vic_data_patterns x.dp_id)
    rw [session_last hs h1 h2 rfl (htasks.trans hprogs)] at hget
    obtain rfl : bitflips = flips := (Prod.mk.inj (Option.some.inj (hget.symm.trans hget'))).1
    obtain ⟨bitflip_mask, rfl⟩ := List.length_eq_one_iff.1 hlen
    obtain ⟨hlength, hcount⟩ := hcounts 0 _ bitflip_mask rfl rfl
    exact ⟨[r1, r2], bank, _, _, bitflip_mask, hprogs, rfl, rfl, hlength, hcount⟩

end

/-! ## Known mappings -/

theorem map_row_unknown {mapping : Option String} (h : mapping ∉ mappings) (addr : Nat) : map_row addr mapping = none := by
  simp only [mappings, List.mem_cons, List.not_mem_nil, or_false, not_or] at h
  obtain ⟨h1, h2, h3, h4, h5, h6⟩ := h
  simp [map_row, h1, h2, h3, h4, h5, h6]

theorem mem_py_range {start stop step hc : Nat} (hstep : 0 < step) (hstart : start < stop) (h : hc ∈ py_range start stop step) :
    start ≤ hc ∧ hc < stop := by
  obtain ⟨i, hi, rfl⟩ := List.mem_map.1 h
  have hmul : (i + 1) * step ≤ stop - start + step - 1 := (Nat.le_div_iff_mul_le hstep).1 (List.mem_range.1 hi)
  rw [Nat.add_mul, Nat.one_mul, Nat.mul_comm] at hmul
  omega

/-- A trial that the board can run. -/
def Runnable (q : Trial) : Prop :=
  ∃ bank x v u l nAggON hc, above_one 5 nAggON < 2 ^ 31 ∧ 0 < hc ∧ hc < 2 ^ 31 ∧ q = Series.trial bank x v u l nAggON hc

section
variable {bank : CInt} {x : Series} {mapping : Option String} {nAggON : CInt} {q : Nat → Trial}

theorem Series.asks_search (hq : ∀ hc, x.asked bank mapping 0 hc = some (q hc)) {hcs : List Nat}
    (hrun : ∀ hc ∈ hcs, Runnable (q hc)) (found : Bool) (results : List Found) :
    Asks Runnable (x.search bank mapping hcs found results) := by
  induction hcs generalizing found results with
  | nil => exact .done results
  | cons hc hcs ih =>
    rw [Series.search]
    cases found with
    | true => exact .done results
    | false =>
      rw [if_neg Bool.false_ne_true, Series.shoot, hq]
      exact .ask (hrun hc List.mem_cons_self) fun _ => ih (fun hc h => hrun hc (List.mem_cons_of_mem _ h)) _ _

theorem Series.asks_measure (hq : ∀ hc, x.asked bank mapping nAggON hc = some (q hc)) {hcs : List Nat}
    (hrun : ∀ hc ∈ hcs, Runnable (q hc)) (results : List Found) : Asks Runnable (x.measure bank mapping nAggON hcs results) := by
  induction hcs generalizing results with
  | nil => exact .done results
  | cons hc hcs ih =>
    rw [Series.measure, Series.shoot, hq]
    exact .ask (hrun hc List.mem_cons_self) fun _ => ih (fun hc h => hrun hc (List.mem_cons_of_mem _ h)) _

/-- Without addresses for the rows there is no trial. -/
theorem Series.asked_unknown (h : mapping ∉ mappings) (hc : Nat) : x.asked bank mapping nAggON hc = none := by
  rw [Series.asked, Row.logical_id, map_row_unknown h]
  rfl

end

theorem asks_for_rows {aggrs : List Aggr} {body : Series → List Found → Script (List Found)}
    (h : ∀ x results, Asks Runnable (body x results)) : Asks Runnable (for_rows aggrs body) := by
  rw [for_rows_eq]
  exact .loop (fun x _ => h x) []

theorem for_rows_fail {aggrs : List Aggr} (hne : aggrs ≠ []) {body : Series → List Found → Script (List Found)}
    (h : ∀ x ∈ all_series aggrs, ∀ results, body x results = .fail) : for_rows aggrs body = .fail := by
  obtain ⟨a, as, rfl⟩ := List.exists_cons_of_ne_nil hne
  rw [for_rows_eq]
  have hmem : (⟨1024, 0, a⟩ : Series) ∈ all_series (a :: as) := by
    refine List.mem_flatMap.2 ⟨1024, ?_, List.mem_flatMap.2 ⟨0, List.mem_cons_self, List.mem_map_of_mem List.mem_cons_self⟩⟩
    simp [Sweep.victim_rows]
  obtain ⟨y, ys, hys⟩ := List.exists_cons_of_ne_nil (List.ne_nil_of_mem hmem)
  rw [hys, loop, h y (by rw [hys]; exact List.mem_cons_self)]
  rfl

/-- What a run of a script on a board amounts to: it ends when the mapping is
known, and its answers count the bits that changed. -/
theorem script_runs {signed : Bool} {other : Mnemonic → Board → Board × List Cmd} {script : Script (List Found)}
    {known : Prop} (hasks : known → Asks Runnable script) (hfail : ¬ known → script = .fail) (b : Board) :
    ((∃ log results b', Talk script log results ∧ Answered (Answers signed other) b log b') ↔ known) ∧
      ∀ log results b', Talk script log results → Answered (Answers signed other) b log b' → Answered Counts b log b' := by
  have hanswers : ∀ b q, Runnable q → (∃ bitflips b', Answers signed other b q bitflips b') ∧
      ∀ bitflips b', Answers signed other b q bitflips b' → Counts b q bitflips b' := by
    rintro b q ⟨bank, x, v, u, l, nAggON, hc, hon, hpos, hlt, rfl⟩
    exact answers_trial bank x v u l hon hpos hlt b
  by_cases h : known
  · refine ⟨⟨fun _ => h, fun _ => exists_talk (fun b q hq => (hanswers b q hq).1) (hasks h) b⟩, fun log results b' ht hl => ?_⟩
    exact hl.mono (fun b q bitflips b' hq => (hanswers b q hq).2 bitflips b') ((hasks h).of_talk ht)
  · rw [hfail h]
    refine ⟨⟨?_, fun hk => absurd hk h⟩, fun log results b' ht => absurd ht not_talk_fail⟩
    rintro ⟨log, results, b', ht, -⟩
    exact absurd ht not_talk_fail

/-! ## What the scripts find -/

section
variable {bank : CInt} {mapping : Option String}

theorem hc_range_bounds {a : Aggr} {hc : Nat} (h : hc ∈ hc_range a) : 0 < hc ∧ hc < 2 ^ 31 := by
  cases a with
  | Upper | Lower =>
    have := mem_py_range (by decide) (by decide) h
    omega
  | Double =>
    have := mem_py_range (by decide) (by decide) h
    omega

theorem hc_range_ne_nil (a : Aggr) : hc_range a ≠ [] := by
  have hlen : (hc_range a).length ≠ 0 := by cases a <;> simp [hc_range, py_range]
  exact fun h => hlen (List.length_eq_zero_iff.2 h)

theorem asked_answers {q : Series → Nat → Trial} {nAggON : CInt} (hq : ∀ x hc, x.asked bank mapping nAggON hc = some (q x hc))
    (passes : List (Series × List (Nat × List Mask))) :
    (passes.flatMap fun p => p.2.map fun t => (q p.1 t.1, t.2)).map (fun t => (some t.1, t.2)) =
      passes.flatMap fun p => p.2.map fun t => (p.1.asked bank mapping nAggON t.1, t.2) := by
  rw [List.map_flatMap]
  refine List.flatMap_congr fun p _ => ?_
  rw [List.map_map]
  refine List.map_congr_left fun t _ => ?_
  rw [hq]
  rfl

/-- `di_rd_hc` ends on every board, if the mapping is known. For each victim row,
data pattern and way of hammering it has then tried the hammer counts of the
range up to the first one at which bits flipped, and it has noted just that one. -/
theorem di_rd_hc_exact (bank : CInt) (mapping : Option String) (signed : Bool) (other : Mnemonic → Board → Board × List Cmd)
    (b : Board) :
    ((∃ log results b', Talk (di_rd_hc bank mapping) log results ∧ Answered (Answers signed other) b log b') ↔
        mapping ∈ mappings) ∧
      ∀ log results b', Talk (di_rd_hc bank mapping) log results → Answered (Answers signed other) b log b' →
        Answered Counts b log b' ∧ ∃ passes : List (Series × List (Nat × List Mask)),
          passes.map Prod.fst = all_series [.Upper, .Lower, .Double] ∧
          (∀ p ∈ passes, Searched (hc_range p.1.aggr) Flips p.2) ∧
          log.map (fun t => (some t.1, t.2)) = passes.flatMap (fun p => p.2.map fun t => (p.1.asked bank mapping 0 t.1, t.2)) ∧
          results = passes.flatMap fun p => p.2.flatMap fun t => p.1.noted t.1 t.2 := by
  have hasks : mapping ∈ mappings → Asks Runnable (di_rd_hc bank mapping) := by
    intro hm
    obtain ⟨f, hf, -⟩ := map_row_scrambles hm
    refine asks_for_rows fun x results => x.asks_search (Series.asked_on hf) (fun hc hhc => ?_) false results
    obtain ⟨hpos, hlt⟩ := hc_range_bounds hhc
    exact ⟨bank, x, _, _, _, 0, hc, by decide, hpos, hlt, rfl⟩
  have hfail : mapping ∉ mappings → di_rd_hc bank mapping = .fail := by
    intro hm
    refine for_rows_fail (by simp) fun x _ results => ?_
    obtain ⟨hc, hcs, hhcs⟩ := List.exists_cons_of_ne_nil (hc_range_ne_nil x.aggr)
    rw [hhcs, Series.search, if_neg Bool.false_ne_true, Series.shoot, Series.asked_unknown hm]
  obtain ⟨hends, hcounts⟩ := script_runs hasks hfail b
  refine ⟨hends, fun log results b' ht hl => ⟨hcounts log results b' ht hl, ?_⟩⟩
  have hm : mapping ∈ mappings := hends.1 ⟨log, results, b', ht, hl⟩
  obtain ⟨f, hf, -⟩ := map_row_scrambles hm
  rw [di_rd_hc, for_rows_eq, talk_collect fun x _ => Series.talk_search (Series.asked_on hf) (hc_range x.aggr)] at ht
  obtain ⟨passes, hpasses, hall, rfl, rfl⟩ := ht
  exact ⟨passes, hpasses, hall, asked_answers (fun x hc => Series.asked_on hf hc) passes, rfl⟩

/-- `di_rd_rp` ends on every board, if the mapping is known. It has then made one
trial for each victim row, data pattern and aggressor, in order, and noted every one. -/
theorem di_rd_rp_exact (bank : CInt) (mapping : Option String) (signed : Bool) (other : Mnemonic → Board → Board × List Cmd)
    (b : Board) :
    ((∃ log results b', Talk (di_rd_rp bank mapping) log results ∧ Answered (Answers signed other) b log b') ↔
        mapping ∈ mappings) ∧
      ∀ log results b', Talk (di_rd_rp bank mapping) log results → Answered (Answers signed other) b log b' →
        Answered Counts b log b' ∧ ∃ tries : List (Series × List Mask), tries.map Prod.fst = all_series [.Upper, .Lower] ∧
          log.map (fun t => (some t.1, t.2)) = tries.map (fun t => (t.1.asked bank mapping 260 7500, t.2)) ∧
          results = tries.flatMap fun t => t.2.map (t.1.found 7500) := by
  have hasks : mapping ∈ mappings → Asks Runnable (di_rd_rp bank mapping) := by
    intro hm
    obtain ⟨f, hf, -⟩ := map_row_scrambles hm
    refine asks_for_rows fun x results => x.asks_measure (Series.asked_on hf) (fun hc hhc => ?_) results
    rw [List.mem_singleton.1 hhc]
    exact ⟨bank, x, _, _, _, 260, 7500, by decide, by decide, by decide, rfl⟩
  have hfail : mapping ∉ mappings → di_rd_rp bank mapping = .fail := by
    intro hm
    refine for_rows_fail (by simp) fun x _ results => ?_
    rw [Series.measure, Series.shoot, Series.asked_unknown hm]
  obtain ⟨hends, hcounts⟩ := script_runs hasks hfail b
  refine ⟨hends, fun log results b' ht hl => ⟨hcounts log results b' ht hl, ?_⟩⟩
  have hm : mapping ∈ mappings := hends.1 ⟨log, results, b', ht, hl⟩
  obtain ⟨f, hf, -⟩ := map_row_scrambles hm
  have hpass : ∀ x ∈ all_series [.Upper, .Lower], ∀ results log r, Talk (x.measure bank mapping 260 [7500] results) log r ↔
      ∃ bitflips : List Mask, True ∧ log = [(x.on bank f 260 7500, bitflips)] ∧ r = results ++ bitflips.map (x.found 7500) := by
    intro x _ results log r
    rw [Series.talk_measure (Series.asked_on hf 7500)]
    simp only [true_and]
  rw [di_rd_rp, for_rows_eq, talk_collect hpass] at ht
  obtain ⟨tries, htries, -, rfl, rfl⟩ := ht
  refine ⟨tries, htries, ?_, rfl⟩
  rw [← List.map_eq_flatMap, List.map_map]
  refine List.map_congr_left fun t _ => ?_
  rw [Series.asked_on hf]
  rfl

end

end DCT
