import Mathlib
/-!
# Lists made of blocks of one length
-/

namespace Blocks

variable {α β : Type} {l : List α} {f : α → List β} {n : Nat}

theorem length_flatMap (h : ∀ x ∈ l, (f x).length = n) : (l.flatMap f).length = n * l.length := by
  induction l with
  | nil => rfl
  | cons x l ih =>
    rw [List.flatMap_cons, List.length_append, h x (by simp), ih fun y hy => h y (by simp [hy]), List.length_cons]
    ring

/-- The `i`-th element of the `j`-th block. -/
theorem getElem?_flatMap (h : ∀ x ∈ l, (f x).length = n) (j : Nat) {i : Nat} (hi : i < n) :
    (l.flatMap f)[n * j + i]? = l[j]?.bind fun x => (f x)[i]? := by
  induction l generalizing j with
  | nil => rfl
  | cons x l ih =>
    have hx : (f x).length = n := h x (by simp)
    rw [List.flatMap_cons]
    cases j with
    | zero =>
      rw [Nat.mul_zero, Nat.zero_add, List.getElem?_append_left (by omega)]
      rfl
    | succ j =>
      have hj : n * (j + 1) + i - (f x).length = n * j + i := by
        rw [hx, Nat.mul_succ]
        omega
      rw [List.getElem?_append_right (by rw [hx, Nat.mul_succ]; omega), hj, ih (fun y hy => h y (by simp [hy])) j]
      rfl

end Blocks
