import Mathlib
/-!
# Searching, cutting and replacing

`std::string` as a list of characters. A position is `none` for `npos`, a
result is `none` for an exception.
-/

namespace Strings

variable {α : Type}

section
variable [DecidableEq α]

def find (s pat : List α) : Option Nat := s.tails.findIdx? fun t => decide (pat <+: t)

theorem find_eq_none_iff {s pat : List α} : find s pat = none ↔ ¬ pat <:+: s := by
  rw [find, List.findIdx?_eq_none_iff, List.infix_iff_prefix_suffix]
  simp only [List.mem_tails, decide_eq_false_iff_not, not_exists, not_and]
  exact forall_congr' fun t => imp_not_comm

/-- The first place of a character. -/
theorem find_singleton {pre : List α} {c : α} (h : c ∉ pre) (post : List α) :
    find (pre ++ c :: post) [c] = some pre.length := by
  induction pre with
  | nil => simp [find, List.findIdx?_cons]
  | cons d pre ih =>
    have hne : c ≠ d := fun he => h (by simp [he])
    have ih := ih fun hmem => h (List.mem_cons_of_mem d hmem)
    have hcons : find (d :: (pre ++ c :: post)) [c] = (find (pre ++ c :: post) [c]).map (· + 1) := by
      simp [find, List.findIdx?_cons, hne, -List.tails_append]
    rw [List.cons_append, hcons, ih]
    rfl

end

def find_first_not_of (kind : α → Bool) (s : List α) : Option Nat := s.findIdx? fun c => !kind c

def find_last_not_of (kind : α → Bool) (s : List α) : Option Nat :=
  (find_first_not_of kind s.reverse).map (s.length - 1 - ·)

/-- `pos + 1`: `npos` wraps around to 0. -/
def after : Option Nat → Nat
  | none => 0
  | some pos => pos + 1

def substr (s : List α) (pos n : Option Nat) : Option (List α) := do
  let pos ← pos
  if s.length < pos then none
  else some (match n with
    | none => s.drop pos
    | some n => (s.drop pos).take n)

def replace (s : List α) (pos n : Nat) (text : List α) : Option (List α) :=
  if s.length < pos then none else some (s.take pos ++ text ++ s.drop (pos + n))

section
variable [DecidableEq α] {pre : List α} {c : α} (h : c ∉ pre) (post : List α)
include h

/-- What stands before a character. -/
theorem substr_before : substr (pre ++ c :: post) (some 0) (find (pre ++ c :: post) [c]) = some pre := by
  rw [find_singleton h]
  simp [substr]

/-- What stands behind it. -/
theorem substr_behind : substr (pre ++ c :: post) (some (after (find (pre ++ c :: post) [c]))) none = some post := by
  rw [find_singleton h, after]
  simp [substr, List.drop_append]

end

/-! ## White space around a word -/

section
variable {kind : α → Bool}

theorem find_first_not_of_append {pre s : List α} (hpre : ∀ c ∈ pre, kind c = true) {c : α} (hc : s.head? = some c)
    (hkind : kind c = false) : find_first_not_of kind (pre ++ s) = some pre.length := by
  induction pre with
  | nil =>
    obtain ⟨s, rfl⟩ := List.head?_eq_some_iff.1 hc
    simp [find_first_not_of, List.findIdx?_cons, hkind]
  | cons d pre ih =>
    have ih := ih fun c hc => hpre c (List.mem_cons_of_mem d hc)
    rw [find_first_not_of] at ih
    simp [find_first_not_of, List.findIdx?_cons, hpre d (by simp), ih]

theorem find_last_not_of_append {s post : List α} (hpost : ∀ c ∈ post, kind c = true) {c : α} (hc : s.getLast? = some c)
    (hkind : kind c = false) : find_last_not_of kind (s ++ post) = some (s.length - 1) := by
  have hpos : 0 < s.length := List.length_pos_of_mem (List.mem_of_getLast? hc)
  have hfirst : find_first_not_of kind (post.reverse ++ s.reverse) = some post.reverse.length :=
    find_first_not_of_append (fun c hc => hpost c (List.mem_reverse.1 hc)) (by rw [List.head?_reverse, hc]) hkind
  rw [find_last_not_of, List.reverse_append, hfirst, Option.map_some, List.length_reverse, List.length_append]
  congr 1
  omega

theorem find_first_not_of_blank {s : List α} (h : ∀ c ∈ s, kind c = true) : find_first_not_of kind s = none := by
  rw [find_first_not_of, List.findIdx?_eq_none_iff]
  intro c hc
  rw [h c hc]
  rfl

/-- `s.substr(s.find_first_not_of(kind), s.find_last_not_of(kind) + 1)`. The
second argument is a length: it still counts what stands before the word. -/
def trim (kind : α → Bool) (s : List α) : Option (List α) :=
  substr s (find_first_not_of kind s) (some (after (find_last_not_of kind s)))

/-- The word begins and ends with characters not of the kind. -/
def Trimmed (kind : α → Bool) (s : List α) : Prop :=
  (∀ c ∈ s.head?, kind c = false) ∧ ∀ c ∈ s.getLast?, kind c = false

instance (s : List α) : Decidable (Trimmed kind s) := inferInstanceAs (Decidable (_ ∧ _))

/-- White space behind a word does not tell where it ends. -/
theorem Trimmed.eq_of_append {s t post post' : List α} (hs : Trimmed kind s) (ht : Trimmed kind t)
    (hpost : ∀ c ∈ post, kind c = true) (hpost' : ∀ c ∈ post', kind c = true) (h : s ++ post = t ++ post') : s = t := by
  -- what one word has more than the other would be white space
  have hmore : ∀ {s a post : List α}, Trimmed kind (s ++ a) → (∀ c ∈ post, kind c = true) → (∀ c ∈ a, c ∈ post) → a = [] := by
    intro s a post hs hpost ha
    by_contra hne
    have hlast := List.getLast?_eq_some_getLast hne
    have hno := hs.2 (a.getLast hne) (by rw [List.getLast?_append, hlast]; rfl)
    rw [hpost _ (ha _ (List.getLast_mem hne))] at hno
    cases hno
  rcases List.append_eq_append_iff.1 h with ⟨a, rfl, rfl⟩ | ⟨a, rfl, rfl⟩
  · rw [hmore ht hpost fun c hc => by simp [hc], List.append_nil]
  · rw [hmore hs hpost' fun c hc => by simp [hc], List.append_nil]

variable {pre s post : List α} (hpre : ∀ c ∈ pre, kind c = true) (hpost : ∀ c ∈ post, kind c = true)
include hpre hpost

theorem trim_append (hs : Trimmed kind s) (hne : s ≠ []) :
    trim kind (pre ++ s ++ post) = some (s ++ post.take pre.length) := by
  have hc := List.head?_eq_some_head hne
  have hd := List.getLast?_eq_some_getLast hne
  have hpos : 0 < s.length := List.length_pos_of_ne_nil hne
  have hfirst : find_first_not_of kind (pre ++ s ++ post) = some pre.length := by
    rw [List.append_assoc]
    exact find_first_not_of_append hpre (by rw [List.head?_append, hc]; rfl) (hs.1 _ hc)
  have hlast : find_last_not_of kind (pre ++ s ++ post) = some ((pre ++ s).length - 1) :=
    find_last_not_of_append hpost (by rw [List.getLast?_append, hd]; rfl) (hs.2 _ hd)
  have hafter : (pre ++ s).length - 1 + 1 = s.length + pre.length := by
    rw [List.length_append]
    omega
  rw [trim, hfirst, hlast, after, hafter]
  simp [substr, List.take_append]

/-- Without a word there is nothing to start at. -/
theorem trim_blank : trim kind (pre ++ post) = none := by
  have hall : ∀ c ∈ pre ++ post, kind c = true := fun c hc => (List.mem_append.1 hc).elim (hpre c) (hpost c)
  rw [trim, find_first_not_of_blank hall]
  rfl

end

end Strings
