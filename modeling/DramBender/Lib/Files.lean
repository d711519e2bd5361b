import Mathlib
/-!
# Lines, fields and little-endian numbers

Reading back what a program wrote: numbers as little-endian bytes, lines ended
by `'\n'`, two fields split at the first space, decimal numbers as `std::stoi`
reads them, digits in any base up to 16.
-/

namespace Files

/-! ## Bytes -/

/-- The low `n` bytes of a number, the lowest first. -/
def toBytes : Nat → Nat → List (BitVec 8)
  | 0, _ => []
  | n + 1, x => BitVec.ofNat 8 x :: toBytes n (x / 256)

def ofBytes : List (BitVec 8) → Nat
  | [] => 0
  | b :: bs => b.toNat + 256 * ofBytes bs

@[simp] theorem length_toBytes (n x : Nat) : (toBytes n x).length = n := by
  induction n generalizing x with
  | zero => rfl
  | succ n ih => rw [toBytes, List.length_cons, ih]

theorem ofBytes_toBytes (n x : Nat) : ofBytes (toBytes n x) = x % 256 ^ n := by
  induction n generalizing x with
  | zero => simp [toBytes, ofBytes, Nat.mod_one]
  | succ n ih =>
    rw [toBytes, ofBytes, ih, BitVec.toNat_ofNat, show 256 ^ (n + 1) = 256 * 256 ^ n from pow_succ' 256 n, Nat.mod_mul]

/-! ## Lines -/

/-- The lines `getline` returns one after another. -/
def getlines : List Char → List (List Char)
  | [] => []
  | c :: cs =>
    if c = '\n' then [] :: getlines cs
    else match getlines cs with
      | [] => [[c]]
      | l :: ls => (c :: l) :: ls

theorem getlines_line {l : List Char} (h : '\n' ∉ l) (rest : List Char) :
    getlines (l ++ '\n' :: rest) = l :: getlines rest := by
  induction l with
  | nil => rw [List.nil_append, getlines, if_pos rfl]
  | cons c l ih =>
    rw [List.cons_append, getlines, if_neg (fun e => h (by simp [e])), ih fun hm => h (by simp [hm])]

theorem getlines_flatMap {ι : Type} (f : ι → List Char) (l : List ι) (h : ∀ x ∈ l, '\n' ∉ f x) (rest : List Char) :
    getlines ((l.flatMap fun x => f x ++ ['\n']) ++ rest) = l.map f ++ getlines rest := by
  induction l with
  | nil => rfl
  | cons x l ih =>
    rw [List.flatMap_cons, List.append_assoc, List.append_assoc, List.singleton_append,
      getlines_line (h x (by simp)), ih fun y hy => h y (by simp [hy])]
    rfl

theorem not_mem_of_getlines {cs l : List Char} (h : l ∈ getlines cs) : '\n' ∉ l := by
  induction cs generalizing l with
  | nil => cases h
  | cons c cs ih =>
    rw [getlines] at h
    split_ifs at h with hc
    · rcases List.mem_cons.1 h with rfl | h
      · exact List.not_mem_nil
      · exact ih h
    · cases hcs : getlines cs with
      | nil =>
        rw [hcs] at h
        rw [List.mem_singleton.1 h, List.mem_singleton]
        exact Ne.symm hc
      | cons k ls =>
        rw [hcs] at h
        rcases List.mem_cons.1 h with rfl | h
        · have hk : '\n' ∉ k := ih (by simp [hcs])
          simp [hk, Ne.symm hc]
        · exact ih (by simp [hcs, h])

/-- Lines, each ended. -/
def unlines (ls : List (List Char)) : List Char := ls.flatMap fun l => l ++ ['\n']

theorem getlines_unlines {ls : List (List Char)} (h : ∀ l ∈ ls, '\n' ∉ l) : getlines (unlines ls) = ls := by
  have hls := getlines_flatMap id ls h []
  rw [List.append_nil, List.map_id] at hls
  exact hls.trans (List.append_nil ls)

/-! ## Line by line -/

section
variable {α β : Type} {P : α → β → Prop}

/-- A pass that fails at no line. -/
theorem exists_mapM {f : α → Option β} {as : List α} (h : ∀ a ∈ as, ∃ b, f a = some b ∧ P a b) :
    ∃ bs, as.mapM f = some bs ∧ List.Forall₂ P as bs := by
  induction as with
  | nil => exact ⟨[], rfl, .nil⟩
  | cons a as ih =>
    obtain ⟨b, hb, hab⟩ := h a (by simp)
    obtain ⟨bs, hbs, hall⟩ := ih fun a' ha' => h a' (by simp [ha'])
    exact ⟨b :: bs, by simp [List.mapM_cons, hb, hbs], .cons hab hall⟩

theorem forall₂_iff {R : α → β → Prop} {Q : α → Prop} (h : ∀ a b, P a b → (R a b ↔ Q a)) {as : List α} {bs : List β}
    (hall : List.Forall₂ P as bs) : List.Forall₂ R as bs ↔ ∀ a ∈ as, Q a := by
  induction hall with
  | nil => simp
  | cons hab _ ih => rw [List.forall₂_cons, List.forall_mem_cons, ih, h _ _ hab]

theorem right_of_forall₂ {Q : β → Prop} (h : ∀ a b, P a b → Q b) {as : List α} {bs : List β}
    (hall : List.Forall₂ P as bs) : ∀ b ∈ bs, Q b := by
  induction hall with
  | nil => simp
  | cons hab _ ih => exact List.forall_mem_cons.2 ⟨h _ _ hab, ih⟩

end

/-! ## Fields -/

/-- `line.substr(0, line.find(" "))`. -/
def before_space (line : List Char) : List Char := line.takeWhile (· ≠ ' ')

/-- `line.substr(line.find(" ") + 1, line.length())`. -/
def after_space (line : List Char) : List Char :=
  if ' ' ∈ line then (line.dropWhile (· ≠ ' ')).tail else line

section
variable {a : List Char} (h : ' ' ∉ a) (b : List Char)
include h

theorem before_space_append : before_space (a ++ ' ' :: b) = a := by
  rw [before_space, List.takeWhile_append_of_pos]
  · simp
  · intro c hc
    have hne : c ≠ ' ' := by rintro rfl; exact h hc
    simpa using hne

theorem after_space_append : after_space (a ++ ' ' :: b) = b := by
  rw [after_space, if_pos (by simp), List.dropWhile_append_of_pos]
  · simp
  · intro c hc
    have hne : c ≠ ' ' := by rintro rfl; exact h hc
    simpa using hne

end

/-! ## Decimal numbers -/

def isSpace (c : Char) : Bool := c = ' ' || (9 ≤ c.toNat && c.toNat ≤ 13)

/-- `none` for the exceptions: no digits, or a value no `int` holds. -/
def stoi (s : List Char) : Option Int :=
  let s := s.dropWhile isSpace
  let (neg, s) := match s with
    | '-' :: t => (true, t)
    | '+' :: t => (false, t)
    | s => (false, s)
  let ds := s.takeWhile Char.isDigit
  if ds = [] then none
  else
    let v : Int := Nat.ofDigitChars 10 ds 0
    let v := if neg then -v else v
    if -2147483648 ≤ v ∧ v < 2147483648 then some v else none

theorem not_space_of_isDigit {c : Char} (h : c.isDigit = true) : isSpace c = false := by
  have h48 : 48 ≤ c.toNat := (Char.isDigit_iff_toNat.1 h).1
  have hne : c ≠ ' ' := by rintro rfl; exact absurd h (by decide)
  simp only [isSpace, hne, decide_false, Bool.false_or, Bool.and_eq_false_iff, decide_eq_false_iff_not]
  omega

theorem stoi_toDigits {n : Nat} (h : n < 2147483648) : stoi (Nat.toDigits 10 n) = some (n : Int) := by
  have hall : ∀ c ∈ Nat.toDigits 10 n, c.isDigit = true :=
    fun c hc => Nat.isDigit_of_mem_toDigits (by omega) (by omega) hc
  obtain ⟨c, cs, hcs⟩ := List.exists_cons_of_ne_nil (Nat.toDigits_ne_nil (n := n) (b := 10))
  have hc : c.isDigit = true := hall c (by simp [hcs])
  have hdrop : (Nat.toDigits 10 n).dropWhile isSpace = Nat.toDigits 10 n := by
    rw [hcs, List.dropWhile_cons_of_neg (by simp [not_space_of_isDigit hc])]
  have hsign : (match Nat.toDigits 10 n with
      | '-' :: t => (true, t)
      | '+' :: t => (false, t)
      | s => (false, s)) = (false, Nat.toDigits 10 n) := by
    rw [hcs]
    split
    · next heq => cases heq; exact absurd hc (by decide)
    · next heq => cases heq; exact absurd hc (by decide)
    · rfl
  have htake : (Nat.toDigits 10 n).takeWhile Char.isDigit = Nat.toDigits 10 n :=
    List.takeWhile_eq_self_iff.2 hall
  simp only [stoi, hdrop, hsign, htake, if_neg Nat.toDigits_ne_nil, Nat.ofDigitChars_ten_toDigits,
    Bool.false_eq_true, if_false]
  rw [if_pos (by omega)]

/-! ## Numbers in any base -/

theorem digitChar_inj {m n : Nat} (hm : m < 16) (hn : n < 16) (h : m.digitChar = n.digitChar) : m = n := by
  have hall : ∀ m < 16, ∀ n < 16, m.digitChar = n.digitChar → m = n := by decide
  exact hall m hm n hn h

section
variable {b : Nat} (hb : 1 < b)
include hb

theorem mem_toDigits {n : Nat} {c : Char} (h : c ∈ Nat.toDigits b n) : ∃ d < b, c = d.digitChar := by
  induction n using Nat.strong_induction_on with
  | _ n ih =>
    rw [Nat.toDigits_eq_if hb] at h
    split_ifs at h with hn
    · exact ⟨n, hn, List.mem_singleton.1 h⟩
    · rcases List.mem_append.1 h with h | h
      · exact ih (n / b) (Nat.div_lt_self (by omega) hb) h
      · exact ⟨n % b, Nat.mod_lt n (by omega), List.mem_singleton.1 h⟩

/-- Different numbers have different digits. -/
theorem toDigits_injective (hb16 : b ≤ 16) : Function.Injective (Nat.toDigits b) := by
  intro m n h
  induction m using Nat.strong_induction_on generalizing n with
  | _ m ih =>
    rw [Nat.toDigits_eq_if hb, Nat.toDigits_eq_if (n := n) hb] at h
    -- the digits in front of the last one are none exactly for a number below the base
    split_ifs at h with hm hn hn
    · exact digitChar_inj (by omega) (by omega) (List.singleton_inj.1 h)
    · have hlen := congrArg List.length h
      simp [Nat.toDigits_ne_nil] at hlen
    · have hlen := congrArg List.length h
      simp [Nat.toDigits_ne_nil] at hlen
    · obtain ⟨hfront, hlast⟩ := List.append_inj' h rfl
      have hdiv := ih (m / b) (Nat.div_lt_self (by omega) hb) hfront
      have hmod : m % b = n % b := digitChar_inj (lt_of_lt_of_le (Nat.mod_lt m (by omega)) hb16)
        (lt_of_lt_of_le (Nat.mod_lt n (by omega)) hb16) (List.singleton_inj.1 hlast)
      rw [← Nat.div_add_mod m b, ← Nat.div_add_mod n b, hdiv, hmod]

end

end Files
