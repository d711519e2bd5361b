import Mathlib
import DramBender.Lib.Files
import DramBender.Lib.MapFold
import DramBender.Lib.Strings
/-!
# Timing parameters

`Program::debug(prj_dir, filename)` writes the parameters of a file into the
`SetTSArray` entries of `timing_tasks.sv`. It looks for a name without the comma
behind it, and `substr` gets an end where it expects a length:
`debug_rewrites_iff` says which files are rewritten as asked for. A character
stands for a `char`.
-/

namespace DRAMBender

open Std (ExtTreeMap)
open Files Strings

namespace Program

def white_space (c : Char) : Bool := c ∈ " \n\r\t\x0c\x0b".toList

/-- What an entry begins with. -/
def entry_mark : List Char := "    SetTSArray (i".toList

/-- A value at the right of 7 columns. -/
def column (value : List Char) : List Char := List.replicate (7 - value.length) ' ' ++ value

/-- `none` where `7 - value.size()` wraps around: no string is that long. -/
def pad (value : List Char) : Option (List Char) := if value.length ≤ 7 then some (column value) else none

/-- One iteration over `param_file`. -/
def read_param (line : List Char) : Option (List Char × List Char) := do
  let param ← substr line (some 0) (find line ['='])
  let param ← trim white_space param
  let value ← substr line (some (after (find line ['=']))) none
  let value ← trim white_space value
  let value ← pad value
  some (entry_mark ++ param, value)

abbrev Params := ExtTreeMap (List Char) (List Char)

def add_param (params : Params) (line : List Char) : Option Params := do
  let (param, value) ← read_param line
  some (params.insert param value)

/-- One iteration over `timing_tasks`: the first parameter of the map found in
the line is written to it. -/
def rewrite_line (params : Params) (line : List Char) : Option (List Char) :=
  if find line entry_mark = none then some line
  else match params.toList.find? fun param => decide (find line param.1 ≠ none) with
    | none => some line
    | some param => replace line 35 7 param.2

/-- The file that replaces `timing_tasks.sv`, or `none` for an exception. -/
def debug (param_file timing_tasks : List Char) : Option (List Char) := do
  let params ← (getlines param_file).foldlM add_param ∅
  let lines ← (getlines timing_tasks).mapM (rewrite_line params)
  some (unlines lines)

/-! ## Parameter lines -/

/-- A line `name = value` with white space around both. -/
structure Setting where
  name : List Char
  value : List Char
  before_name : List Char
  behind_name : List Char
  before_value : List Char
  behind_value : List Char
  name_trimmed : Trimmed white_space name
  value_trimmed : Trimmed white_space value
  no_equals : '=' ∉ name
  blank : ∀ c ∈ before_name ++ behind_name ++ before_value ++ behind_value, white_space c = true
  fits : value.length ≤ 7

namespace Setting

variable (s : Setting)

def line : List Char :=
  s.before_name ++ s.name ++ s.behind_name ++ '=' :: (s.before_value ++ s.value ++ s.behind_value)

/-- The name as read: as much of the white space behind it as there is before it
stays. -/
def read_name : List Char := s.name ++ s.behind_name.take s.before_name.length

/-- The value as read. -/
def read_value : List Char := s.value ++ s.behind_value.take s.before_value.length

/-- What the loop looks for. -/
def key : List Char := entry_mark ++ s.read_name

/-- What the parameter's entry begins with. -/
def entry : List Char := entry_mark ++ s.name ++ [',']

/-- The line is read without an exception. -/
structure Readable : Prop where
  name : s.name ≠ []
  value : s.value ≠ []
  fits : s.read_value.length ≤ 7

variable {s}

theorem blank_before_name : ∀ c ∈ s.before_name, white_space c = true := fun c hc => s.blank c (by simp [hc])

theorem blank_behind_name : ∀ c ∈ s.behind_name, white_space c = true := fun c hc => s.blank c (by simp [hc])

theorem blank_before_value : ∀ c ∈ s.before_value, white_space c = true := fun c hc => s.blank c (by simp [hc])

theorem blank_behind_value : ∀ c ∈ s.behind_value, white_space c = true := fun c hc => s.blank c (by simp [hc])

theorem equals_not_mem : '=' ∉ s.before_name ++ s.name ++ s.behind_name := by
  intro hmem
  rcases List.mem_append.1 hmem with hmem | hmem
  · rcases List.mem_append.1 hmem with hmem | hmem
    · exact absurd (blank_before_name _ hmem) (by decide)
    · exact s.no_equals hmem
  · exact absurd (blank_behind_name _ hmem) (by decide)

theorem read_param_eq : read_param s.line =
    (trim white_space (s.before_name ++ s.name ++ s.behind_name)).bind fun param =>
      (trim white_space (s.before_value ++ s.value ++ s.behind_value)).bind fun value =>
        (pad value).bind fun value => some (entry_mark ++ param, value) := by
  rw [read_param, line, substr_before equals_not_mem, substr_behind equals_not_mem]
  rfl

theorem trim_name (h : s.name ≠ []) : trim white_space (s.before_name ++ s.name ++ s.behind_name) = some s.read_name :=
  trim_append blank_before_name blank_behind_name s.name_trimmed h

theorem trim_value (h : s.value ≠ []) :
    trim white_space (s.before_value ++ s.value ++ s.behind_value) = some s.read_value :=
  trim_append blank_before_value blank_behind_value s.value_trimmed h

theorem read_param_line (h : s.Readable) : read_param s.line = some (s.key, column s.read_value) := by
  rw [read_param_eq, trim_name h.name, trim_value h.value]
  simp [pad, h.fits, key]

theorem readable_of_read_param {r : List Char × List Char} (h : read_param s.line = some r) : s.Readable := by
  rw [read_param_eq] at h
  by_cases hname : s.name = []
  · rw [hname, List.append_nil, trim_blank blank_before_name blank_behind_name] at h
    cases h
  · by_cases hvalue : s.value = []
    · rw [trim_name hname, hvalue, List.append_nil, trim_blank blank_before_value blank_behind_value] at h
      cases h
    · refine ⟨hname, hvalue, ?_⟩
      by_contra hlong
      rw [trim_name hname, trim_value hvalue] at h
      simp [pad, hlong] at h

/-- Names that differ are looked for under keys that differ. -/
theorem name_eq_of_key {t : Setting} (h : s.key = t.key) : s.name = t.name :=
  s.name_trimmed.eq_of_append t.name_trimmed (fun c hc => blank_behind_name c (List.mem_of_mem_take hc))
    (fun c hc => blank_behind_name c (List.mem_of_mem_take hc)) (List.append_cancel_left h)

end Setting

/-! ## The map of parameters -/

/-- The map the first loop builds. -/
def table (settings : List Setting) : Params :=
  settings.foldl (fun params s => params.insert s.key (column s.read_value)) ∅

theorem foldlM_add_param {settings : List Setting} (h : ∀ s ∈ settings, s.Readable) (params : Params) :
    (settings.map Setting.line).foldlM add_param params =
      some (settings.foldl (fun params s => params.insert s.key (column s.read_value)) params) := by
  induction settings generalizing params with
  | nil => rfl
  | cons s settings ih =>
    have hadd : add_param params s.line = some (params.insert s.key (column s.read_value)) := by
      rw [add_param, Setting.read_param_line (h s (by simp))]
      rfl
    rw [List.map_cons, List.foldlM_cons, hadd]
    exact ih (fun t ht => h t (by simp [ht])) _

theorem readable_of_foldlM {settings : List Setting} {params params' : Params}
    (h : (settings.map Setting.line).foldlM add_param params = some params') : ∀ s ∈ settings, s.Readable := by
  induction settings generalizing params with
  | nil => simp
  | cons s settings ih =>
    rw [List.map_cons, List.foldlM_cons] at h
    obtain ⟨params1, hadd, h⟩ := Option.bind_eq_some_iff.1 h
    obtain ⟨r, hr, -⟩ := Option.bind_eq_some_iff.1 hadd
    exact List.forall_mem_cons.2 ⟨Setting.readable_of_read_param hr, ih h⟩

/-- The names are distinct. -/
def Distinct (settings : List Setting) : Prop := (settings.map Setting.name).Nodup

instance (settings : List Setting) : Decidable (Distinct settings) := inferInstanceAs (Decidable (List.Nodup _))

section
variable {settings : List Setting} (hd : Distinct settings)
include hd

theorem Distinct.eq_of_key {s t : Setting} (hs : s ∈ settings) (ht : t ∈ settings) (h : s.key = t.key) : s = t :=
  List.inj_on_of_nodup_map hd hs ht (Setting.name_eq_of_key h)

theorem table_key {s : Setting} (hs : s ∈ settings) : (table settings)[s.key]? = some (column s.read_value) := by
  refine MapFold.getElem?_foldl_insert_of Setting.key (fun s => column s.read_value) (fun s hs t ht h => ?_) hs ∅
  rw [hd.eq_of_key hs ht h]

theorem of_table {k v : List Char} (h : (table settings)[k]? = some v) :
    ∃ s ∈ settings, s.key = k ∧ column s.read_value = v := by
  by_cases hk : ∃ s ∈ settings, s.key = k
  · obtain ⟨s, hs, rfl⟩ := hk
    rw [table_key hd hs] at h
    exact ⟨s, hs, rfl, Option.some.inj h⟩
  · have hno : ∀ s ∈ settings, s.key ≠ k := fun s hs he => hk ⟨s, hs, he⟩
    rw [table, MapFold.getElem?_foldl_insert_of_not Setting.key _ hno, ExtTreeMap.getElem?_empty] at h
    cases h

end

/-! ## The columns of a line -/

/-- The 7 columns from 35 on. -/
def columns (line : List Char) : List Char := (line.drop 35).take 7

/-- The line with a value in these columns. -/
def put (line value : List Char) : List Char := line.take 35 ++ column value ++ line.drop 42

theorem put_inj {line v w : List Char} (h : put line v = put line w) : column v = column w :=
  List.append_cancel_left (List.append_cancel_right h)

theorem put_eq_self {line v : List Char} : put line v = line ↔ columns line = column v := by
  have hline : line.take 35 ++ columns line ++ line.drop 42 = line := by
    rw [columns, List.append_assoc]
    have hdrop : line.drop 42 = (line.drop 35).drop 7 := by rw [List.drop_drop]
    rw [hdrop, List.take_append_drop, List.take_append_drop]
  constructor
  · intro h
    have hput : line.take 35 ++ column v ++ line.drop 42 = line.take 35 ++ columns line ++ line.drop 42 := h.trans hline.symm
    exact (List.append_cancel_left (List.append_cancel_right hput)).symm
  · intro h
    rw [put, ← h, hline]

theorem dropWhile_column {v : List Char} (h : ∀ c ∈ v.head?, white_space c = false) :
    (column v).dropWhile white_space = v := by
  rw [column, List.dropWhile_append_of_pos fun c hc => by rw [List.eq_of_mem_replicate hc]; decide]
  cases v with
  | nil => rfl
  | cons c v => rw [List.dropWhile_cons_of_neg (by simp [h c rfl])]

/-- Values that differ are written differently. -/
theorem Setting.Readable.column_inj {s t : Setting} (hs : s.Readable)
    (h : column s.read_value = column t.value) : s.read_value = t.value := by
  have hhead : ∀ c ∈ s.read_value.head?, white_space c = false := by
    rw [Setting.read_value, List.head?_append_of_ne_nil _ hs.value]
    exact s.value_trimmed.1
  rw [← dropWhile_column hhead, h, dropWhile_column t.value_trimmed.1]

theorem not_mem_put {line : List Char} {s : Setting} (hline : '\n' ∉ line) (hs : '\n' ∉ s.line) :
    '\n' ∉ put line s.read_value := by
  intro hmem
  rcases List.mem_append.1 hmem with hmem | hmem
  · rcases List.mem_append.1 hmem with hmem | hmem
    · exact hline (List.mem_of_mem_take hmem)
    · rcases List.mem_append.1 hmem with hmem | hmem
      · exact absurd (List.eq_of_mem_replicate hmem) (by decide)
      · rcases List.mem_append.1 hmem with hmem | hmem
        · exact hs (by simp [Setting.line, hmem])
        · exact hs (by simp [Setting.line, List.mem_of_mem_take hmem])
  · exact hline (List.mem_of_mem_drop hmem)

/-! ## One line of the timing file -/

/-- The setting the loop finds in a line: the first one in alphabetical order. -/
structure Found (settings : List Setting) (line : List Char) (s : Setting) : Prop where
  mem : s ∈ settings
  found : s.key <:+: line
  first : ∀ t ∈ settings, t.key <:+: line → (compare s.key t.key).isLE

section
variable {settings : List Setting} (hd : Distinct settings) {line : List Char}
include hd

theorem Found.unique {s t : Setting} (hs : Found settings line s) (ht : Found settings line t) : s = t :=
  hd.eq_of_key hs.mem ht.mem (Std.LawfulEqCmp.eq_of_compare
    (Std.OrientedCmp.isLE_antisymm (hs.first t ht.mem ht.found) (ht.first s hs.mem hs.found)))

/-- What the loop does with a line. -/
theorem rewrite_line_cases (hlong : entry_mark <:+: line → 42 ≤ line.length) :
    (∃ s, Found settings line s ∧ rewrite_line (table settings) line = some (put line s.read_value)) ∨
      (∀ s ∈ settings, ¬ s.key <:+: line) ∧ rewrite_line (table settings) line = some line := by
  have hmark : ∀ s ∈ settings, s.key <:+: line → entry_mark <:+: line :=
    fun s _ h => (List.prefix_append entry_mark s.read_name).isInfix.trans h
  rw [rewrite_line]
  split_ifs with hentry
  · rw [find_eq_none_iff] at hentry
    exact .inr ⟨fun s hs h => hentry (hmark s hs h), rfl⟩
  · rw [find_eq_none_iff, not_not] at hentry
    cases hfind : (table settings).toList.find? fun param => decide (find line param.1 ≠ none) with
    | none =>
      refine .inr ⟨fun s hs h => ?_, rfl⟩
      have hno := MapFold.of_find?_toList_none (p := fun k => decide (find line k ≠ none)) hfind (table_key hd hs)
      rw [decide_eq_false_iff_not, not_not, find_eq_none_iff] at hno
      exact hno h
    | some param =>
      obtain ⟨k, v⟩ := param
      obtain ⟨hget, hp, hfirst⟩ := MapFold.of_find?_toList (p := fun k => decide (find line k ≠ none)) hfind
      obtain ⟨s, hs, hk, hv⟩ := of_table hd hget
      rw [decide_eq_true_eq, ne_eq, find_eq_none_iff, not_not, ← hk] at hp
      refine .inl ⟨s, ⟨hs, hp, fun t ht h => ?_⟩, ?_⟩
      · rw [hk]
        refine hfirst t.key _ (table_key hd ht) ?_
        rwa [decide_eq_true_eq, ne_eq, find_eq_none_iff, not_not]
      · have hlen := hlong hentry
        change replace line 35 7 v = _
        rw [← hv, replace, if_neg (by omega)]
        rfl

end

/-! ## What the files ask for -/

/-- A line as the settings ask for it: the value of the setting whose entry it
is stands in its 7 columns from 35 on, and without such a setting it is as it
was. -/
structure Rewritten (settings : List Setting) (line line' : List Char) : Prop where
  named : ∀ s ∈ settings, s.entry <:+: line → line' = put line s.value
  unnamed : (∀ s ∈ settings, ¬ s.entry <:+: line) → line' = line

/-- The files are of the kind `debug` is called with. -/
structure Admitted (settings : List Setting) (param_file timing_tasks : List Char) : Prop where
  lines : getlines param_file = settings.map Setting.line
  distinct : Distinct settings
  long : ∀ line ∈ getlines timing_tasks, entry_mark <:+: line → 42 ≤ line.length

/-- Every line is rewritten as asked for. -/
def Rewrites (settings : List Setting) (param_file timing_tasks : List Char) : Prop :=
  ∃ temp_file, debug param_file timing_tasks = some temp_file ∧
    List.Forall₂ (Rewritten settings) (getlines timing_tasks) (getlines temp_file)

/-- The setting found in a line has, as read, the value of the one whose entry
the line is, and none is found in a line that is no setting's entry; or else
what is asked for stands there already. -/
structure Unmistaken (settings : List Setting) (line : List Char) : Prop where
  named : ∀ s ∈ settings, s.entry <:+: line → (∃ t, Found settings line t ∧ t.read_value = s.value) ∨
    (∀ t ∈ settings, ¬ t.key <:+: line) ∧ columns line = column s.value
  unnamed : (∀ s ∈ settings, ¬ s.entry <:+: line) → ∀ t, Found settings line t → columns line = column t.read_value

section
variable {settings : List Setting} (hd : Distinct settings) (hr : ∀ s ∈ settings, s.Readable) {line : List Char}
include hd hr

theorem rewritten_put_iff {t : Setting} (ht : Found settings line t) :
    Rewritten settings line (put line t.read_value) ↔ Unmistaken settings line := by
  constructor
  · intro h
    refine ⟨fun s hs he => .inl ⟨t, ht, ?_⟩, fun hno u hu => ?_⟩
    · exact (hr t ht.mem).column_inj (put_inj (h.named s hs he))
    · rw [hu.unique hd ht]
      exact put_eq_self.1 (h.unnamed hno)
  · intro h
    refine ⟨fun s hs he => ?_, fun hno => put_eq_self.2 (h.unnamed hno t ht)⟩
    rcases h.named s hs he with ⟨u, hu, hv⟩ | ⟨hno, -⟩
    · rw [hu.unique hd ht] at hv
      rw [hv]
    · exact absurd ht.found (hno t ht.mem)

omit hd hr in
theorem rewritten_self_iff (hno : ∀ s ∈ settings, ¬ s.key <:+: line) :
    Rewritten settings line line ↔ Unmistaken settings line := by
  constructor
  · intro h
    refine ⟨fun s hs he => .inr ⟨hno, put_eq_self.1 (h.named s hs he).symm⟩, fun _ t ht => ?_⟩
    exact absurd ht.found (hno t ht.mem)
  · intro h
    refine ⟨fun s hs he => ?_, fun _ => rfl⟩
    rcases h.named s hs he with ⟨u, hu, -⟩ | ⟨-, hc⟩
    · exact absurd hu.found (hno u hu.mem)
    · exact (put_eq_self.2 hc).symm

end

theorem rewrites_iff_of_readable {settings : List Setting} {param_file timing_tasks : List Char}
    (h : Admitted settings param_file timing_tasks) (hr : ∀ s ∈ settings, s.Readable) :
    Rewrites settings param_file timing_tasks ↔ ∀ line ∈ getlines timing_tasks, Unmistaken settings line := by
  have hnewline : ∀ s ∈ settings, '\n' ∉ s.line := by
    intro s hs
    have hmem : s.line ∈ getlines param_file := by
      rw [h.lines]
      exact List.mem_map_of_mem hs
    exact not_mem_of_getlines hmem
  have hloop : ∀ line ∈ getlines timing_tasks, ∃ line', rewrite_line (table settings) line = some line' ∧
      '\n' ∉ line' ∧ (Rewritten settings line line' ↔ Unmistaken settings line) := by
    intro line hline
    have hold : '\n' ∉ line := not_mem_of_getlines hline
    rcases rewrite_line_cases h.distinct (h.long line hline) with ⟨s, hs, hw⟩ | ⟨hno, hw⟩
    · exact ⟨_, hw, not_mem_put hold (hnewline s hs.mem), rewritten_put_iff h.distinct hr hs⟩
    · exact ⟨_, hw, hold, rewritten_self_iff hno⟩
  obtain ⟨lines, hlines, hall⟩ := exists_mapM hloop
  have hdebug : debug param_file timing_tasks = some (unlines lines) := by
    rw [debug, h.lines, foldlM_add_param hr]
    change ((getlines timing_tasks).mapM (rewrite_line (table settings))).bind _ = _
    rw [hlines]
    rfl
  have hback : getlines (unlines lines) = lines := getlines_unlines (right_of_forall₂ (fun _ _ hp => hp.1) hall)
  rw [← forall₂_iff (fun _ _ hp => hp.2) hall, Rewrites, hdebug]
  simp [hback]

/-! ## Files that are safe -/

/-- White space stands on at most one side of the name, and of the value. -/
structure Setting.Plain (s : Setting) : Prop where
  name : s.before_name = [] ∨ s.behind_name = []
  value : s.before_value = [] ∨ s.behind_value = []

theorem Setting.Plain.read_name_eq {s : Setting} (h : s.Plain) : s.read_name = s.name := by
  rcases h.name with h | h <;> simp [Setting.read_name, h]

theorem Setting.Plain.read_value_eq {s : Setting} (h : s.Plain) : s.read_value = s.value := by
  rcases h.value with h | h <;> simp [Setting.read_value, h]

/-- Every name that follows the mark in a line ends there with a comma, and
there is one at most. -/
structure Clear (settings : List Setting) (line : List Char) : Prop where
  comma : ∀ s ∈ settings, s.key <:+: line → s.entry <:+: line
  one : ∀ s ∈ settings, ∀ t ∈ settings, s.entry <:+: line → t.entry <:+: line → s.name = t.name

theorem unmistaken_of_clear {settings : List Setting} (hd : Distinct settings) (hplain : ∀ s ∈ settings, s.Plain)
    {line : List Char} (hlong : entry_mark <:+: line → 42 ≤ line.length) (h : Clear settings line) :
    Unmistaken settings line := by
  rcases rewrite_line_cases hd hlong with ⟨t, ht, -⟩ | ⟨hno, -⟩
  · have hentry := h.comma t ht.mem ht.found
    refine ⟨fun s hs he => .inl ⟨t, ht, ?_⟩, fun hnone => absurd hentry (hnone t ht.mem)⟩
    rw [(hplain t ht.mem).read_value_eq,
      List.inj_on_of_nodup_map hd ht.mem hs (h.one t ht.mem s hs hentry he)]
  · refine ⟨fun s hs he => absurd ?_ (hno s hs), fun _ t ht => absurd ht.found (hno t ht.mem)⟩
    -- the entry is the key and a comma
    rw [Setting.key, (hplain s hs).read_name_eq]
    exact (List.prefix_append (entry_mark ++ s.name) [',']).isInfix.trans he

/-! ## All files -/

/-- `debug` rewrites the timing file as asked for if and only if every parameter
line is read without an exception, and no line is mistaken for another
setting's entry. -/
theorem debug_rewrites_iff {settings : List Setting} {param_file timing_tasks : List Char}
    (h : Admitted settings param_file timing_tasks) : Rewrites settings param_file timing_tasks ↔
      (∀ s ∈ settings, s.Readable) ∧ ∀ line ∈ getlines timing_tasks, Unmistaken settings line := by
  constructor
  · intro hw
    have hr : ∀ s ∈ settings, s.Readable := by
      obtain ⟨temp_file, hdebug, -⟩ := hw
      rw [debug, h.lines] at hdebug
      obtain ⟨params, hparams, -⟩ := Option.bind_eq_some_iff.1 hdebug
      exact readable_of_foldlM hparams
    exact ⟨hr, (rewrites_iff_of_readable h hr).1 hw⟩
  · rintro ⟨hr, hlines⟩
    exact (rewrites_iff_of_readable h hr).2 hlines

def tRC : Setting where
  name := "tRC".toList
  value := "45750".toList
  before_name := []
  behind_name := " ".toList
  before_value := " ".toList
  behind_value := []
  name_trimmed := by decide
  value_trimmed := by decide
  no_equals := by decide
  blank := by simp [white_space]
  fits := by decide

def tRCD : Setting := { tRC with
  name := "tRCD".toList
  value := "13750".toList
  name_trimmed := by decide
  value_trimmed := by decide
  no_equals := by decide
  fits := by decide }

def tRC_entry : List Char := "    SetTSArray (itRC,              0050000);".toList

def tRCD_entry : List Char := "    SetTSArray (itRCD,             0015000);".toList

/-- A line without an entry, and the entry of the shorter name. -/
theorem debug_rewrites_tRC :
    Rewrites [tRC, tRCD] (unlines [tRC.line, tRCD.line]) (unlines ["endtask".toList, tRC_entry]) := by
  have hlines : getlines (unlines ["endtask".toList, tRC_entry]) = ["endtask".toList, tRC_entry] :=
    getlines_unlines (by decide)
  have hlong : ∀ line ∈ ["endtask".toList, tRC_entry], entry_mark <:+: line → 42 ≤ line.length := by decide +kernel
  have hclear : ∀ line ∈ ["endtask".toList, tRC_entry], (∀ s ∈ [tRC, tRCD], s.key <:+: line → s.entry <:+: line) ∧
      ∀ s ∈ [tRC, tRCD], ∀ t ∈ [tRC, tRCD], s.entry <:+: line → t.entry <:+: line → s.name = t.name := by decide +kernel
  have hplain : ∀ s ∈ [tRC, tRCD], s.Plain := by
    rw [List.forall_mem_cons, List.forall_mem_singleton]
    exact ⟨⟨.inl rfl, .inr rfl⟩, .inl rfl, .inr rfl⟩
  rw [← hlines] at hlong hclear
  refine (debug_rewrites_iff ⟨getlines_unlines (by decide), by decide, hlong⟩).2 ⟨?_, fun line hline => ?_⟩
  · rw [List.forall_mem_cons, List.forall_mem_singleton]
    exact ⟨⟨by decide, by decide, by decide⟩, by decide, by decide, by decide⟩
  · have h := hclear line hline
    exact unmistaken_of_clear (by decide) hplain (hlong line hline) ⟨h.1, h.2⟩

/-- The line is admitted, and becomes another one than asked for. -/
def Misses (settings : List Setting) (line : List Char) : Prop :=
  Admitted settings (unlines (settings.map Setting.line)) (unlines [line]) ∧
    ¬ Rewrites settings (unlines (settings.map Setting.line)) (unlines [line])

theorem misses_of {settings : List Setting} {line line' : List Char} (hdebug :
    debug (unlines (settings.map Setting.line)) (unlines [line]) = some (unlines [line']))
    (h : (∀ l ∈ settings.map Setting.line, '\n' ∉ l) ∧ '\n' ∉ line ∧ '\n' ∉ line') (hd : Distinct settings)
    (hlong : 42 ≤ line.length) (hno : ¬ Rewritten settings line line') : Misses settings line := by
  have hlines : getlines (unlines [line]) = [line] := getlines_unlines (by simp [h.2.1])
  have hlines' : getlines (unlines [line']) = [line'] := getlines_unlines (by simp [h.2.2])
  refine ⟨⟨getlines_unlines h.1, hd, ?_⟩, ?_⟩
  · rw [hlines]
    simp [hlong]
  · rintro ⟨temp_file, htemp, hall⟩
    obtain rfl := Option.some.inj (hdebug.symm.trans htemp)
    rw [hlines, hlines', List.forall₂_cons] at hall
    exact hno hall.1

/-- A line of `tRC` that ends with a carriage return. -/
def tRC_return : Setting := { tRC with
  behind_value := "\r".toList
  blank := by simp [white_space, tRC] }

/-- An indented line of `tRC`. -/
def tRC_indented : Setting := { tRC with
  before_name := "  ".toList
  blank := by simp [white_space, tRC] }

/-- The entry of `tRCD` gets the value of `tRC`, also where the file does not
name it; in front of a carriage return a value stands too far left; an indented
name is not found. -/
theorem debug_misses : Misses [tRC, tRCD] tRCD_entry ∧ Misses [tRC] tRCD_entry ∧ Misses [tRC_return] tRC_entry ∧
    Misses [tRC_indented] tRC_entry := by
  refine ⟨?_, ?_, ?_, ?_⟩
  · refine misses_of (show _ = some (unlines ["    SetTSArray (itRCD,               45750);".toList]) by decide +kernel)
      (by decide) (by decide) (by decide) fun h => ?_
    exact absurd (h.named tRCD (by simp) (by decide +kernel)) (by decide)
  · refine misses_of (show _ = some (unlines ["    SetTSArray (itRCD,               45750);".toList]) by decide +kernel)
      (by decide) (by decide) (by decide) fun h => ?_
    exact absurd (h.unnamed (List.forall_mem_singleton.2 (by decide +kernel))) (by decide)
  · refine misses_of (show _ = some (unlines ["    SetTSArray (itRC,               45750\r);".toList]) by decide +kernel)
      (by decide) (by decide) (by decide) fun h => ?_
    exact absurd (h.named tRC_return (by simp) (by decide +kernel)) (by decide)
  · refine misses_of (show _ = some (unlines [tRC_entry]) by decide +kernel) (by decide) (by decide) (by decide) fun h => ?_
    exact absurd (h.named tRC_indented (by simp) (by decide +kernel)) (by decide)

end Program

end DRAMBender
