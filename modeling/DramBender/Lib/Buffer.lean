import Mathlib
/-!
# Buffers

Memory of a fixed size, as a list. An access that does not fit it is `none`.
-/

namespace Buffer

variable {α : Type}

/-- Write `xs` from `off` on. -/
def store (buf : List α) (off : Nat) (xs : List α) : Option (List α) :=
  if off + xs.length ≤ buf.length then some (buf.take off ++ (xs ++ buf.drop (off + xs.length))) else none

/-- Set the first `n` places to `x`. -/
def fill (buf : List α) (x : α) (n : Nat) : Option (List α) :=
  if n ≤ buf.length then some (List.replicate n x ++ buf.drop n) else none

/-- The first `n` places. -/
def load (buf : List α) (n : Nat) : Option (List α) := if n ≤ buf.length then some (buf.take n) else none

theorem store_append {as bs xs : List α} (cs : List α) (h : bs.length = xs.length) {off : Nat} (hoff : as.length = off) :
    store (as ++ (bs ++ cs)) off xs = some (as ++ (xs ++ cs)) := by
  subst hoff
  have hdrop : (as ++ (bs ++ cs)).drop (as.length + xs.length) = cs := by
    rw [← h, ← List.append_assoc, ← List.length_append, List.drop_left]
  unfold store
  rw [if_pos (by simp only [List.length_append]; omega), List.take_left, hdrop]

theorem fill_append {as : List α} (bs : List α) (x : α) {n : Nat} (h : as.length = n) :
    fill (as ++ bs) x n = some (List.replicate n x ++ bs) := by
  subst h
  unfold fill
  rw [if_pos (by simp), List.drop_left]

theorem load_append {as : List α} (bs : List α) {n : Nat} (h : as.length = n) : load (as ++ bs) n = some as := by
  subst h
  unfold load
  rw [if_pos (by simp), List.take_left]

theorem fill_all (buf : List α) (x : α) : fill buf x buf.length = some (List.replicate buf.length x) := by
  have h := fill_append [] x (show buf.length = buf.length from rfl)
  rwa [List.append_nil, List.append_nil] at h

end Buffer
