import Mathlib
import DramBender.Encoding
import DramBender.Program
import DramBender.Lib.MapFold
import DramBender.Lib.Segment
/-!
# What `linear_analysis` records

The scan announces the READs of a run of DDR words, at the run's first word.
`analysis_spec` describes its map for any program; `linear_analysis_exact_iff`
compares it with segments in which SLEEP words may stand between the DDR words.
-/

namespace DRAMBender

open Std (ExtTreeMap)
open Segment

/-- The words `linear_analysis` keeps a segment open for. -/
def stays (w : Inst) : Bool := is_ddr w || is_sleep w

theorem stays_of_is_ddr (w : Inst) (h : is_ddr w = true) : stays w = true := by simp [stays, h]

/-- The READs in the slots from position `i` up to `e`. -/
def readsIn (l : List Inst) (i e : Nat) : Nat := total is_ddr_read l i e

/-- A closed segment at `k` with 1 to 1024 READs, and the INFO word for it. -/
def Announced (l : List Inst) (k : Nat) (w : Inst) : Prop :=
  ∃ n, (IsSegment is_ddr stays l k n ∧ k + n < l.length) ∧ 0 < readsIn l k (k + n) ∧ readsIn l k (k + n) ≤ 1024 ∧
    w = SMC_INFO (BitVec.ofNat 32 (readsIn l k (k + n)))

theorem Announced.unique {l : List Inst} {k : Nat} {w w' : Inst} (h : Announced l k w) (h' : Announced l k w') :
    w = w' := by
  obtain ⟨n, ⟨hs, -⟩, -, -, rfl⟩ := h
  obtain ⟨n', ⟨hs', -⟩, -, -, rfl⟩ := h'
  rw [hs.length_unique hs']

theorem Announced.lt {l : List Inst} {k : Nat} {w : Inst} (h : Announced l k w) : k < l.length := by
  obtain ⟨n, ⟨-, hn⟩, -⟩ := h
  omega

/-- An open segment is announced when a word closes it. -/
theorem announced_snoc {l : List Inst} {x : Inst} {k : Nat} {w : Inst} :
    Announced (l ++ [x]) k w ↔ Announced l k w ∨
      (Open is_ddr stays l k ∧ stays x = false ∧ 0 < readsIn l k l.length ∧ readsIn l k l.length ≤ 1024 ∧
        w = SMC_INFO (BitVec.ofNat 32 (readsIn l k l.length))) := by
  constructor
  · rintro ⟨n, hs, h⟩
    rcases (isSegment_snoc stays_of_is_ddr).1 hs with ⟨hs, hn⟩ | ⟨ho, hx, hn⟩
    · rw [readsIn, total_snoc hn.le] at h
      exact .inl ⟨n, ⟨hs, hn⟩, h⟩
    · rw [readsIn, hn, total_snoc le_rfl] at h
      exact .inr ⟨ho, hx, h⟩
  · rintro (⟨n, ⟨hs, hn⟩, h⟩ | ⟨ho, hx, h⟩)
    · refine ⟨n, (isSegment_snoc stays_of_is_ddr).2 (.inl ⟨hs, hn⟩), ?_⟩
      rw [readsIn, total_snoc hn.le]
      exact h
    · have hk : k + (l.length - k) = l.length := by have := ho.lt; omega
      refine ⟨l.length - k, (isSegment_snoc stays_of_is_ddr).2 (.inr ⟨ho, hx, hk⟩), ?_⟩
      rw [readsIn, hk, total_snoc le_rfl]
      exact h

/-- Otherwise it is announced before or not at all. -/
theorem announced_snoc_of_not {l : List Inst} {x : Inst} {k : Nat} {w : Inst}
    (h : ¬ (Open is_ddr stays l k ∧ stays x = false ∧ 0 < readsIn l k l.length ∧ readsIn l k l.length ≤ 1024 ∧
      w = SMC_INFO (BitVec.ofNat 32 (readsIn l k l.length)))) : Announced (l ++ [x]) k w ↔ Announced l k w :=
  announced_snoc.trans (or_iff_left h)

/-! ## The scan -/

/-- What the scan has done after the words `l`, from the warnings `W`. -/
structure ScanInv (W : ExtTreeMap Nat Inst) (l : List Inst) (s : Program.Scan) : Prop where
  opened : s.inSequence = true → Open is_ddr stays l s.seqPc ∧ s.readCtr = readsIn l s.seqPc l.length
  idle : s.inSequence = false → ∀ k, ¬ Open is_ddr stays l k
  warned : ∀ k w, s.warnings[k]? = some w ↔ Announced l k w ∨ W[k]? = some w ∧ ∀ w', ¬ Announced l k w'

theorem scan_snoc (l : List Inst) (x : Inst) (pc : Nat) (s : Program.Scan) :
    Program.scan (l ++ [x]) pc s = (Program.scan l pc s).next (pc + l.length) x := by
  induction l generalizing pc s with
  | nil => rfl
  | cons w l ih =>
    simp only [List.cons_append, Program.scan, ih, List.length_cons]
    rw [Nat.add_right_comm, Nat.add_assoc]

theorem scanInv_nil (W : ExtTreeMap Nat Inst) : ScanInv W [] { warnings := W } := by
  have hno : ∀ k w, ¬ Announced [] k w := fun k w h => absurd h.lt (by simp)
  refine ⟨fun h => by simp at h, fun _ k hk => absurd hk.lt (by simp), fun k w => ?_⟩
  simp [hno]

/-- Without a closed segment the map stays as it is. -/
theorem warned_keep {W M : ExtTreeMap Nat Inst} {l : List Inst} {x : Inst}
    (h : ∀ k w, M[k]? = some w ↔ Announced l k w ∨ W[k]? = some w ∧ ∀ w', ¬ Announced l k w')
    (hx : ∀ k w, Announced (l ++ [x]) k w ↔ Announced l k w) (k : Nat) (w : Inst) :
    M[k]? = some w ↔ Announced (l ++ [x]) k w ∨ W[k]? = some w ∧ ∀ w', ¬ Announced (l ++ [x]) k w' := by
  simp only [hx]
  exact h k w

theorem not_open_of_leave {l : List Inst} {x : Inst} (hx : stays x = false) (k : Nat) :
    ¬ Open is_ddr stays (l ++ [x]) k := by
  intro hk
  rcases (open_snoc stays_of_is_ddr).1 hk with ⟨-, hx'⟩ | ⟨-, hd', -⟩
  · rw [hx] at hx'; cases hx'
  · rw [stays_of_is_ddr x hd'] at hx; cases hx

theorem scanInv_next {W : ExtTreeMap Nat Inst} {l : List Inst} {s : Program.Scan} (h : ScanInv W l s) (x : Inst) :
    ScanInv W (l ++ [x]) (s.next l.length x) := by
  have hlen : (l ++ [x]).length = l.length + 1 := by simp
  unfold Program.Scan.next
  split_ifs with hs hd hstay hbig hpos
  -- a segment is entered
  · have hno := h.idle hs
    have hkeep : ∀ k w, Announced (l ++ [x]) k w ↔ Announced l k w :=
      fun k w => announced_snoc_of_not fun e => hno k e.1
    refine ⟨fun _ => ?_, fun h' => by simp at h', warned_keep h.warned hkeep⟩
    refine ⟨(open_snoc stays_of_is_ddr).2 (.inr ⟨rfl, hd, hno⟩), ?_⟩
    rw [readsIn, hlen, total_snoc_end le_rfl, total, Finset.Ico_self, Finset.sum_empty, Nat.zero_add]
  -- still none
  · have hno := h.idle hs
    have hkeep : ∀ k w, Announced (l ++ [x]) k w ↔ Announced l k w :=
      fun k w => announced_snoc_of_not fun e => hno k e.1
    refine ⟨fun h' => by simp [hs] at h', fun _ k hk => ?_, warned_keep h.warned hkeep⟩
    rcases (open_snoc stays_of_is_ddr).1 hk with ⟨ho, -⟩ | ⟨-, hx, -⟩
    · exact hno k ho
    · exact hd hx
  all_goals obtain ⟨ho, hr⟩ := h.opened (by simpa using hs)
  -- the segment is closed by `x`
  case pos =>
    have hx : stays x = false := by simpa [stays] using hstay
    have hkeep : ∀ k w, Announced (l ++ [x]) k w ↔ Announced l k w := by
      intro k w
      apply announced_snoc_of_not
      rintro ⟨ho', -, -, hle, -⟩
      rw [← open_unique ho ho', ← hr] at hle
      omega
    exact ⟨fun h' => by simp at h', fun _ => not_open_of_leave hx, warned_keep h.warned hkeep⟩
  case pos =>
    have hx : stays x = false := by simpa [stays] using hstay
    refine ⟨fun h' => by simp at h', fun _ => not_open_of_leave hx, fun k w => ?_⟩
    have hnew : Announced (l ++ [x]) s.seqPc (SMC_INFO (BitVec.ofNat 32 s.readCtr)) :=
      announced_snoc.2 (.inr ⟨ho, hx, by omega, by omega, by rw [hr]⟩)
    by_cases hk : s.seqPc = k
    · subst hk
      rw [ExtTreeMap.getElem?_insert_self]
      constructor
      · rintro ⟨⟩
        exact .inl hnew
      · rintro (h' | ⟨-, h'⟩)
        · rw [hnew.unique h']
        · exact absurd hnew (h' _)
    · have hkeep : ∀ w, Announced (l ++ [x]) k w ↔ Announced l k w :=
        fun w => announced_snoc_of_not fun e => hk (open_unique ho e.1)
      rw [MapFold.getElem?_insert_ne hk]
      simp only [hkeep]
      exact h.warned k w
  case neg =>
    have hx : stays x = false := by simpa [stays] using hstay
    have hkeep : ∀ k w, Announced (l ++ [x]) k w ↔ Announced l k w := by
      intro k w
      apply announced_snoc_of_not
      rintro ⟨ho', -, hlt, -, -⟩
      rw [← open_unique ho ho', ← hr] at hlt
      omega
    exact ⟨fun h' => by simp at h', fun _ => not_open_of_leave hx, warned_keep h.warned hkeep⟩
  -- the segment goes on
  case neg =>
    have hx : stays x = true := by
      simp only [stays]
      cases hd : is_ddr x <;> cases hz : is_sleep x <;> simp [hd, hz] at hstay ⊢
    have hkeep : ∀ k w, Announced (l ++ [x]) k w ↔ Announced l k w := by
      intro k w
      apply announced_snoc_of_not
      rintro ⟨-, hx', -⟩
      rw [hx] at hx'; cases hx'
    refine ⟨fun _ => ⟨(open_snoc stays_of_is_ddr).2 (.inl ⟨ho, hx⟩), ?_⟩, fun h' => absurd h' hs,
      warned_keep h.warned hkeep⟩
    rw [readsIn, hlen, total_snoc_end ho.lt.le, hr]
    rfl

theorem scanInv_scan (W : ExtTreeMap Nat Inst) (l : List Inst) : ScanInv W l (Program.scan l 0 { warnings := W }) := by
  induction l using List.reverseRecOn with
  | nil => exact scanInv_nil W
  | append_singleton l x ih =>
    rw [scan_snoc, Nat.zero_add]
    exact scanInv_next ih x

/-- The warnings after `linear_analysis`: one for each closed segment with 1 to
1024 READs, and the earlier ones elsewhere. -/
theorem analysis_spec (p : Program) (k : Nat) (w : Inst) :
    p.linear_analysis.warnings[k]? = some w ↔
      Announced p.program k w ∨ p.warnings[k]? = some w ∧ ∀ w', ¬ Announced p.program k w' :=
  (scanInv_scan p.warnings p.program).warned k w

/-! ## Segments in which SLEEPs may stand

What the words are is read off `decode_inst`, not off the scan's classifiers. -/

def isDdrWord (w : Inst) : Bool := (decode_inst w).isDdr

def isSleepWord (w : Inst) : Bool := (decode_inst w).isSleep

/-- A DDR word, or a SLEEP inside a segment. -/
def isTimedWord (w : Inst) : Bool := isDdrWord w || isSleepWord w

/-- A maximal run of DDR and SLEEP words that starts at a DDR word. -/
def TimingSegment (l : List Inst) (k n : Nat) : Prop := IsSegment isDdrWord isTimedWord l k n

/-- A maximal run of DDR words: a segment's piece before, between or after its
SLEEPs. -/
def DdrRun (l : List Inst) (k n : Nat) : Prop := IsSegment isDdrWord isDdrWord l k n

/-- The READ slots of the words from `i` up to `e`. -/
def readSlots (l : List Inst) (i e : Nat) : Nat := total (fun w => (decode_inst w).reads) l i e

/-- The map holds exactly one INFO word for each segment with 1 to 1024 READ
slots, at the segment's first word. -/
def ExactWarnings (l : List Inst) (warnings : ExtTreeMap Nat Inst) : Prop :=
  ∀ k w, warnings[k]? = some w ↔
    ∃ n, TimingSegment l k n ∧ 1 ≤ readSlots l k (k + n) ∧ readSlots l k (k + n) ≤ 1024 ∧
      w = SMC_INFO (BitVec.ofNat 32 (readSlots l k (k + n)))

/-- No READ stands behind the segment's first SLEEP. -/
def QuietAfterSleep (l : List Inst) (k n : Nat) : Prop :=
  ∀ i j, k ≤ i → At isSleepWord l i → i < j → j < k + n → readSlots l j (j + 1) = 0

/-- Every piece of the segment has no READ or more than 1024. -/
def UnannouncedRuns (l : List Inst) (k n : Nat) : Prop :=
  ∀ i m, DdrRun l i m → k ≤ i → i < k + n → readSlots l i (i + m) = 0 ∨ 1024 < readSlots l i (i + m)

theorem isTimedWord_of_ddr (w : Inst) (h : isDdrWord w = true) : isTimedWord w = true := by
  simp [isTimedWord, h]

theorem isDdrWord_of_ddr (w : Inst) (h : isDdrWord w = true) : isDdrWord w = true := h

theorem not_sleep_of_ddr {l : List Inst} {j : Nat} (hd : At isDdrWord l j) : ¬ At isSleepWord l j := by
  rintro ⟨w, hw, hs⟩
  obtain ⟨w', hw', hd⟩ := hd
  obtain rfl : w = w' := Option.some.inj (hw.symm.trans hw')
  simp only [isDdrWord, isSleepWord] at hd hs
  cases h : decode_inst w <;> simp [h, Mnemonic.isDdr, Mnemonic.isSleep] at hd hs

theorem readSlots_word {l : List Inst} {j : Nat} :
    readSlots l j (j + 1) = (l[j]?.map fun w => (decode_inst w).reads).getD 0 := by
  simp [readSlots, total]

theorem at_ddr_of_reads {l : List Inst} {j : Nat} (h : readSlots l j (j + 1) ≠ 0) : At isDdrWord l j := by
  rw [readSlots_word] at h
  cases hw : l[j]? with
  | none => simp [hw] at h
  | some w =>
    refine ⟨w, hw, ?_⟩
    by_contra hd
    rw [hw] at h
    exact h (Mnemonic.reads_of_not_isDdr (by simpa [isDdrWord] using hd))

/-- A position inside a segment without a DDR word holds a SLEEP. -/
theorem sleep_of_not_ddr {l : List Inst} {k n m : Nat} (h : TimingSegment l k n) (hm : k ≤ m) (hmn : m < k + n)
    (hd : ¬ At isDdrWord l m) : At isSleepWord l m := by
  obtain ⟨w, hw, ht⟩ := h.runs m hm hmn
  refine ⟨w, hw, ?_⟩
  simp only [isTimedWord, Bool.or_eq_true] at ht
  exact ht.resolve_left fun hd' => hd ⟨w, hw, hd'⟩

/-- A DDR run lies inside the segment its first word lies in. -/
theorem run_end_le {l : List Inst} {k n i m : Nat} (h : TimingSegment l k n) (hr : DdrRun l i m)
    (hin : i < k + n) : i + m ≤ k + n := by
  by_contra hlt
  obtain ⟨w, hw, hd⟩ := hr.runs (k + n) (by omega) (by omega)
  exact h.ends ⟨w, hw, isTimedWord_of_ddr w hd⟩

theorem run_start_ge {l : List Inst} {k n i m : Nat} (h : TimingSegment l k n) (hr : DdrRun l i m)
    (hki : k < i + m) : k ≤ i := by
  by_contra hlt
  apply h.maximal i (by omega) hr.first
  intro a ha hak
  obtain ⟨w, hw, hd⟩ := hr.runs a ha (by omega)
  exact ⟨w, hw, isTimedWord_of_ddr w hd⟩

/-- The run at a segment's start. -/
theorem exists_first_run {l : List Inst} {k n : Nat} (h : TimingSegment l k n) : ∃ m, DdrRun l k m := by
  obtain ⟨i, m, hr, hik, hki⟩ := exists_segment isDdrWord_of_ddr h.first
  obtain rfl : i = k := le_antisymm hik (run_start_ge h hr hki)
  exact ⟨m, hr⟩

/-- The run of a READ inside a segment. -/
theorem exists_run {l : List Inst} {k n j : Nat} (h : TimingSegment l k n) (hkj : k ≤ j) (hjn : j < k + n)
    (hj : readSlots l j (j + 1) ≠ 0) :
    ∃ i m, DdrRun l i m ∧ k ≤ i ∧ i ≤ j ∧ j < i + m ∧ 1 ≤ readSlots l i (i + m) ∧
      readSlots l i (i + m) ≤ readSlots l k (k + n) := by
  obtain ⟨i, m, hr, hij, hjm⟩ := exists_segment isDdrWord_of_ddr (at_ddr_of_reads hj)
  have hki : k ≤ i := run_start_ge h hr (by omega)
  have hread : readSlots l j (j + 1) ≤ readSlots l i (i + m) := total_le hij (by omega)
  exact ⟨i, m, hr, hki, hij, hjm, by omega, total_le hki (run_end_le h hr (by omega))⟩

/-- Where no READ stands behind a SLEEP, a segment's READs are those of its
first run. -/
theorem reads_first_run {l : List Inst} {k n m : Nat} (h : TimingSegment l k n) (hr : DdrRun l k m)
    (hq : QuietAfterSleep l k n) : readSlots l k (k + n) = readSlots l k (k + m) := by
  have hmn : k + m ≤ k + n := run_end_le h hr (by have := h.pos isTimedWord_of_ddr; omega)
  have hrest : readSlots l (k + m) (k + n) = 0 := by
    apply total_eq_zero_iff.2
    intro j hj hjn
    rw [← readSlots_word]
    by_contra hne
    rcases Nat.eq_or_lt_of_le hj with rfl | hlt
    · exact hr.ends (at_ddr_of_reads hne)
    · exact hne (hq (k + m) j (by omega) (sleep_of_not_ddr h (by omega) (by omega) hr.ends) hlt hjn)
  rw [readSlots, total_split (show k ≤ k + m by omega) hmn]
  exact Nat.add_eq_left.2 hrest

/-- An announced run that does not start its segment stands behind a SLEEP. -/
theorem run_start {l : List Inst} {k n i m : Nat} (h : TimingSegment l k n) (hr : DdrRun l i m) (hki : k ≤ i)
    (hin : i < k + n) (hq : QuietAfterSleep l k n) (hpos : 0 < readSlots l i (i + m)) : i = k := by
  by_contra hne
  have hsleep : At isSleepWord l (i - 1) := by
    apply sleep_of_not_ddr h (by omega) (by omega)
    intro hd
    apply hr.maximal (i - 1) (by omega) hd
    intro a ha ha'
    obtain rfl : a = i - 1 := by omega
    exact hd
  have hzero : readSlots l i (i + m) = 0 := by
    apply total_eq_zero_iff.2
    intro j hj hjm
    rw [← readSlots_word]
    exact hq (i - 1) j (by omega) hsleep (by omega) (by have := run_end_le h hr hin; omega)
  omega

/-- The scan of encoder words: no word is taken for a SLEEP, so it announces
the DDR runs. -/
theorem announced_encode {as : List Asm} {k : Nat} {w : Inst} :
    Announced ((as ++ [Asm.END]).map Asm.encode) k w ↔
      ∃ m, DdrRun ((as ++ [Asm.END]).map Asm.encode) k m ∧
        1 ≤ readSlots ((as ++ [Asm.END]).map Asm.encode) k (k + m) ∧
        readSlots ((as ++ [Asm.END]).map Asm.encode) k (k + m) ≤ 1024 ∧
        w = SMC_INFO (BitVec.ofNat 32 (readSlots ((as ++ [Asm.END]).map Asm.encode) k (k + m))) := by
  set l := (as ++ [Asm.END]).map Asm.encode with hl
  have hseg : ∀ k n, IsSegment is_ddr stays l k n ↔ DdrRun l k n := by
    intro k n
    apply isSegment_congr (fun x _ => (decode_isDdr x).symm)
    intro x hx
    obtain ⟨a, -, rfl⟩ := List.mem_map.1 hx
    rw [stays, is_sleep_encode, Bool.or_false, isDdrWord, decode_isDdr]
  have hclosed : ∀ k n, DdrRun l k n → k + n < l.length := by
    intro k n hr
    have hlast : ¬ At isDdrWord l as.length := by
      rintro ⟨x, hx, hd⟩
      rw [hl, List.getElem?_map, List.getElem?_append_right le_rfl, Nat.sub_self] at hx
      cases hx
      cases hd
    have hk := hr.first.lt
    rw [hl, List.length_map, List.length_append, List.length_singleton] at hk ⊢
    by_contra hlt
    exact hlast (hr.runs as.length (by omega) (by omega))
  have hreads : ∀ m, DdrRun l k m → readsIn l k (k + m) = readSlots l k (k + m) := by
    intro m hr
    apply total_congr
    intro j hj hjm x hx
    obtain ⟨y, hy, hd⟩ := hr.runs j hj hjm
    obtain rfl : x = y := Option.some.inj (hx.symm.trans hy)
    exact (decode_reads (by rw [← decode_isDdr]; exact hd)).symm
  constructor
  · rintro ⟨n, ⟨hs, -⟩, h⟩
    rw [hreads n ((hseg k n).1 hs)] at h
    exact ⟨n, (hseg k n).1 hs, h⟩
  · rintro ⟨n, hr, h⟩
    refine ⟨n, ⟨(hseg k n).2 hr, hclosed k n hr⟩, ?_⟩
    rw [hreads n hr]
    exact h

/-- The scan is exact if and only if every segment has no READ behind its first
SLEEP, or no piece that the scan announces. -/
theorem linear_analysis_exact_iff (p : Program) (as : List Asm) :
    let l := (as ++ [Asm.END]).map Asm.encode
    ExactWarnings l { p with program := l, warnings := ∅ : Program }.linear_analysis.warnings ↔
      ∀ k n, TimingSegment l k n → QuietAfterSleep l k n ∨ UnannouncedRuns l k n := by
  intro l
  have hscan : ∀ k w, ({ p with program := l, warnings := ∅ } : Program).linear_analysis.warnings[k]? = some w ↔
      ∃ m, DdrRun l k m ∧ 1 ≤ readSlots l k (k + m) ∧ readSlots l k (k + m) ≤ 1024 ∧
        w = SMC_INFO (BitVec.ofNat 32 (readSlots l k (k + m))) := by
    intro k w
    rw [analysis_spec, ← announced_encode]
    simp [l]
  simp only [ExactWarnings, hscan]
  constructor
  · intro h k n hs
    by_contra hc
    obtain ⟨hq, hu⟩ := not_or.1 hc
    simp only [UnannouncedRuns, not_forall] at hu
    obtain ⟨i, m, hr, hki, hin, hread⟩ := hu
    -- the announced piece can only be the first one, so the whole segment is announced
    obtain ⟨n', hs', hle⟩ := (h i _).1 ⟨m, hr, by omega, by omega, rfl⟩
    obtain rfl : i = k := hs.begins_unique hs'.toBegins hki hin
    obtain rfl : n' = n := hs'.length_unique hs
    -- and so is the piece of the READ behind a SLEEP
    simp only [QuietAfterSleep, not_forall] at hq
    obtain ⟨a, b, hka, ha, hab, hbn, hb⟩ := hq
    obtain ⟨i', m', hr', hki', hib, hbm, hone, hmax⟩ := exists_run hs (by omega) hbn hb
    obtain ⟨n'', hs'', -⟩ := (h i' _).1 ⟨m', hr', hone, by omega, rfl⟩
    obtain rfl : i' = i := hs.begins_unique hs''.toBegins hki' (by omega)
    obtain ⟨w, hw, hd⟩ := hr'.runs a hka (by omega)
    exact not_sleep_of_ddr ⟨w, hw, hd⟩ ha
  · intro h k w
    constructor
    · rintro ⟨m, hr, hpos, hle, rfl⟩
      have ht : At isDdrWord l k := hr.first
      obtain ⟨k', n, hs, hk, hkn⟩ := exists_segment isTimedWord_of_ddr ht
      rcases h k' n hs with hq | hu
      · obtain rfl : k = k' := run_start hs hr hk hkn hq hpos
        refine ⟨n, hs, ?_⟩
        rw [reads_first_run hs hr hq]
        exact ⟨hpos, hle, rfl⟩
      · rcases hu k m hr hk hkn with h0 | h0 <;> omega
    · rintro ⟨n, hs, hpos, hle, rfl⟩
      obtain ⟨m, hr⟩ := exists_first_run hs
      rcases h k n hs with hq | hu
      · refine ⟨m, hr, ?_⟩
        rw [← reads_first_run hs hr hq]
        exact ⟨hpos, hle, rfl⟩
      · exfalso
        have hne : ¬ readSlots l k (k + n) = 0 := by omega
        simp only [readSlots, total_eq_zero_iff, not_forall] at hne
        obtain ⟨j, hkj, hjn, hj⟩ := hne
        obtain ⟨i, m', hr', hki, hij, hjm, hone, hmax⟩ :=
          exists_run hs hkj hjn (by rw [readSlots_word]; exact hj)
        rcases hu i m' hr' hki (by omega) with h0 | h0 <;> omega

/-- One READ, a SLEEP, one READ. -/
def splitSegment : List Asm :=
  [.pack (.READ 4 0 3 1 0 0) (.NOP 0) (.NOP 0) (.NOP 0), .SLEEP 5 (by decide),
    .pack (.READ 4 0 3 1 0 0) (.NOP 0) (.NOP 0) (.NOP 0)]

/-- The second READ gets an INFO of its own, in the middle of the segment. -/
theorem sleep_splits_segment :
    let l := (splitSegment ++ [Asm.END]).map Asm.encode
    ¬ ExactWarnings l { ({} : Program) with program := l, warnings := ∅ : Program }.linear_analysis.warnings := by
  intro l h
  have hw : ({ ({} : Program) with program := l, warnings := ∅ } : Program).linear_analysis.warnings[2]? =
      some (SMC_INFO 1) := by decide
  obtain ⟨n, hs, -⟩ := (h 2 _).1 hw
  apply hs.maximal 0 (by omega) ⟨_, rfl, by decide⟩
  intro m _ hm
  match m, hm with
  | 0, _ => exact ⟨_, rfl, by decide⟩
  | 1, _ => exact ⟨_, rfl, by decide⟩
end DRAMBender
