import Mathlib
import DramBender.Lib.Insert
import DramBender.Lib.Segment
/-!
# Paths through code

`succ` says where control may go from an instruction. Code with instructions
inserted at marked positions has the paths of the source (`Relocates`). A run of
instructions that only fall through is entered once and left at its end
(`run_eq`).
-/

namespace Paths

open Insert Segment

variable {κ : Type} (succ : κ → Nat → List Nat)

/-- Control may go from the one instruction to the other. -/
def Goes (code : List κ) (i j : Nat) : Prop := ∃ x, code[i]? = some x ∧ j ∈ succ x i

/-- The instructions control comes to, first one first. -/
def Path (code : List κ) (pcs : List Nat) : Prop := pcs.head? = some 0 ∧ pcs.IsChain (Goes succ code)

/-- Some path comes to the instruction. -/
def Reached (code : List κ) (pc : Nat) : Prop := Relation.ReflTransGen (Goes succ code) 0 pc

section
variable {succ} {code : List κ}

theorem Goes.lt {i j : Nat} (h : Goes succ code i j) : i < code.length := by
  obtain ⟨x, hx, -⟩ := h
  exact (List.getElem?_eq_some_iff.1 hx).1

theorem path_start : Path succ code [0] := ⟨rfl, .singleton 0⟩

/-- A path goes on. -/
theorem Path.append {as bs : List Nat} {i : Nat} (h : Path succ code (as ++ [i])) (hbs : bs.IsChain (Goes succ code))
    (hij : ∀ j ∈ bs.head?, Goes succ code i j) : Path succ code (as ++ [i] ++ bs) := by
  obtain ⟨hhead, hchain⟩ := h
  refine ⟨?_, hchain.append hbs ?_⟩
  · rw [List.head?_append, hhead]
    rfl
  · intro x hx y hy
    rw [List.getLast?_append, List.getLast?_singleton] at hx
    obtain rfl := Option.some.inj hx
    exact hij y hy

theorem exists_path {pc : Nat} (h : Reached succ code pc) : ∃ pcs, Path succ code (pcs ++ [pc]) := by
  induction h with
  | refl => exact ⟨[], path_start⟩
  | @tail i j _ hij ih =>
    obtain ⟨pcs, hp⟩ := ih
    refine ⟨pcs ++ [i], hp.append (.singleton j) fun y hy => ?_⟩
    obtain rfl := Option.some.inj hy
    exact hij

theorem Path.left {as bs : List Nat} (h : Path succ code (as ++ bs)) (hne : as ≠ []) : Path succ code as := by
  refine ⟨?_, h.2.left_of_append⟩
  rw [← h.1, List.head?_append_of_ne_nil as hne]

theorem Path.reached {pcs : List Nat} {pc : Nat} (h : Path succ code (pcs ++ [pc])) : Reached succ code pc := by
  induction pcs using List.reverseRecOn generalizing pc with
  | nil =>
    obtain rfl := Option.some.inj h.1
    exact .refl
  | append_singleton pcs i ih =>
    have hlast : Goes succ code i pc := by
      have hchain := h.2
      rw [List.append_assoc] at hchain
      exact List.isChain_pair.1 hchain.right_of_append
    exact (ih (h.left (by simp))).tail hlast

end

/-! ## Inserted instructions -/

/-- `code'` is `code` with an instruction that falls through in front of every
marked one, and every target moved along. -/
structure Relocates (mark : Nat → Bool) (code code' : List κ) : Prop where
  length : code'.length = entry mark code.length
  place : ∀ k x, code[k]? = some x →
    ∃ x', code'[place mark k]? = some x' ∧ succ x' (place mark k) = (succ x k).map (entry mark)
  entry : ∀ k, mark k = true → k < code.length →
    ∃ x', code'[entry mark k]? = some x' ∧ succ x' (entry mark k) = [Insert.place mark k]

section
variable {succ} {mark : Nat → Bool} {code code' : List κ} (hr : Relocates succ mark code code')
include hr

theorem Relocates.goes {i j : Nat} (h : Goes succ code i j) : Goes succ code' (Insert.place mark i) (Insert.entry mark j) := by
  obtain ⟨x, hx, hj⟩ := h
  obtain ⟨x', hx', hs⟩ := hr.place i x hx
  exact ⟨x', hx', by rw [hs]; exact List.mem_map_of_mem hj⟩

theorem Relocates.reached_place {k : Nat} (h : Reached succ code' (Insert.entry mark k)) (hk : k < code.length) :
    Reached succ code' (Insert.place mark k) := by
  cases hm : mark k with
  | false => rwa [place_of_unmarked hm]
  | true =>
    obtain ⟨x', hx', hs⟩ := hr.entry k hm hk
    exact h.tail ⟨x', hx', by rw [hs]; exact List.mem_singleton_self _⟩

theorem Relocates.reached {k : Nat} (h : Reached succ code k) : Reached succ code' (Insert.entry mark k) := by
  induction h with
  | refl =>
    rw [entry_zero]
    exact .refl
  | @tail i j _ hij ih => exact (hr.reached_place ih hij.lt).tail (hr.goes hij)

/-- A step of `code'` is one from an inserted instruction to the one behind it,
or a step of the source. -/
theorem Relocates.goes_cases {q q' : Nat} (h : Goes succ code' q q') :
    (∃ k, mark k = true ∧ q = Insert.entry mark k ∧ q' = Insert.place mark k) ∨
      ∃ i j, Goes succ code i j ∧ q = Insert.place mark i ∧ q' = Insert.entry mark j := by
  obtain ⟨y, hy, hq'⟩ := h
  have hlt := (List.getElem?_eq_some_iff.1 hy).1
  rw [hr.length] at hlt
  obtain ⟨i, hi, rfl | ⟨hm, rfl⟩⟩ := exists_of_lt_entry hlt
  · right
    obtain ⟨x', hx', hs⟩ := hr.place i _ (List.getElem?_eq_getElem hi)
    obtain rfl := Option.some.inj (hx'.symm.trans hy)
    rw [hs] at hq'
    obtain ⟨j, hj, rfl⟩ := List.mem_map.1 hq'
    exact ⟨i, j, ⟨_, List.getElem?_eq_getElem hi, hj⟩, rfl, rfl⟩
  · left
    obtain ⟨x', hx', hs⟩ := hr.entry i hm hi
    obtain rfl := Option.some.inj (hx'.symm.trans hy)
    rw [hs] at hq'
    exact ⟨i, hm, rfl, List.mem_singleton.1 hq'⟩

/-- What `code'` comes to is in front of, or at, what the source comes to. -/
theorem Relocates.of_reached {q : Nat} (h : Reached succ code' q) :
    ∃ k, Reached succ code k ∧ (q = Insert.entry mark k ∨ q = Insert.place mark k) := by
  induction h with
  | refl => exact ⟨0, .refl, .inl entry_zero.symm⟩
  | tail _ hstep ih =>
    obtain ⟨k, hk, hq⟩ := ih
    rcases hr.goes_cases hstep with ⟨i, hm, rfl, rfl⟩ | ⟨i, j, hij, rfl, rfl⟩
    · refine ⟨k, hk, .inr ?_⟩
      rcases hq with hq | hq
      · rw [entry_inj hq]
      · exact absurd hq.symm (place_ne_entry hm)
    · obtain rfl : k = i := by
        rcases hq with hq | hq
        · -- nothing is inserted where an instruction stands
          cases hm : mark k with
          | true => exact absurd hq (place_ne_entry hm)
          | false =>
            rw [← place_of_unmarked hm] at hq
            exact (place_inj hq).symm
        · exact (place_inj hq).symm
      exact ⟨j, hk.tail hij, .inl rfl⟩

theorem Relocates.of_reached_place {i : Nat} (h : Reached succ code' (Insert.place mark i)) : Reached succ code i := by
  obtain ⟨k, hk, hq⟩ := hr.of_reached h
  rcases hq with hq | hq
  · rwa [(eq_of_place_eq_entry hq).1]
  · rwa [place_inj hq]

end

/-! ## Runs that fall through -/

section
variable {succ} {code : List κ} {P : κ → Bool} (hfall : ∀ x i, P x = true → succ x i = [i + 1])
include hfall

theorem goes_of_at {i j : Nat} (h : At P code i) : Goes succ code i j ↔ j = i + 1 := by
  obtain ⟨x, hx, hP⟩ := h
  constructor
  · rintro ⟨x', hx', hj⟩
    obtain rfl := Option.some.inj (hx.symm.trans hx')
    rw [hfall x i hP] at hj
    exact List.mem_singleton.1 hj
  · rintro rfl
    exact ⟨x, hx, by rw [hfall x i hP]; exact List.mem_singleton_self _⟩

/-- A run on a path is one in the code. -/
theorem run_eq {run : List Nat} {y after : Nat} (hchain : (y :: (run ++ [after])).IsChain (Goes succ code))
    (hP : ∀ i ∈ y :: run, At P code i) : y :: run = List.range' y (run.length + 1) ∧ after = y + (run.length + 1) := by
  induction run generalizing y with
  | nil =>
    have hgo : Goes succ code y after := List.isChain_pair.1 hchain
    exact ⟨rfl, (goes_of_at hfall (hP y (by simp))).1 hgo⟩
  | cons z run ih =>
    rw [List.cons_append, List.isChain_cons_cons] at hchain
    obtain rfl := (goes_of_at hfall (hP y (by simp))).1 hchain.1
    obtain ⟨hrun, hafter⟩ := ih hchain.2 fun i hi => hP i (by simp [List.mem_cons.1 hi])
    refine ⟨?_, by rw [hafter, List.length_cons]; omega⟩
    rw [List.length_cons, List.range'_succ, ← hrun]

/-- A run in the code is one on a path. -/
theorem isChain_range' {y n : Nat} (hP : Runs P code y (y + n)) :
    (List.range' y (n + 1)).IsChain (Goes succ code) := by
  induction n generalizing y with
  | zero => exact .singleton y
  | succ n ih =>
    rw [List.range'_succ, List.range'_succ, List.isChain_cons_cons]
    refine ⟨(goes_of_at hfall (hP y le_rfl (by omega))).2 rfl, ?_⟩
    have htail := ih (y := y + 1) fun m hm hm' => hP m (by omega) (by omega)
    rwa [List.range'_succ] at htail

end

end Paths
