import Mathlib
/-!
# Flipping bits under a condition

Where the condition does not see the flipped bits, flipping twice gives the
number back, and the bits above the flipped ones stay.
-/

namespace Flip

/-- The bits of `m` flipped where `c` is 1. -/
def flip (c : Nat → Nat) (m a : Nat) : Nat := a ^^^ (c a * m)

/-- `f` takes every group of `n` addresses to itself, and back. -/
structure Scrambles (n : Nat) (f : Nat → Nat) : Prop where
  involutive : Function.Involutive f
  group : ∀ a, f a / n = a / n

section
variable {c : Nat → Nat} {m k n : Nat} {f : Nat → Nat}

/-- The condition is a bit, and does not see the flipped ones. -/
theorem flip_involutive (hbit : ∀ a, c a < 2) (hc : ∀ a, c (a ^^^ m) = c a) : Function.Involutive (flip c m) := by
  intro a
  unfold flip
  rcases Nat.le_one_iff_eq_zero_or_eq_one.1 (Nat.le_of_lt_succ (hbit a)) with h | h
  · rw [h, Nat.zero_mul, Nat.xor_zero, h, Nat.zero_mul, Nat.xor_zero]
  · rw [h, Nat.one_mul, hc, h, Nat.one_mul, Nat.xor_assoc, Nat.xor_self, Nat.xor_zero]

theorem flip_group (hbit : ∀ a, c a < 2) (hm : m < 2 ^ k) (a : Nat) : flip c m a / 2 ^ k = a / 2 ^ k := by
  have hlt : c a * m < 2 ^ k := by
    have hle : c a * m ≤ 1 * m := Nat.mul_le_mul_right m (Nat.le_of_lt_succ (hbit a))
    omega
  unfold flip
  rw [Nat.xor_div_two_pow, Nat.div_eq_of_lt hlt, Nat.xor_zero]

theorem flip_scrambles (hbit : ∀ a, c a < 2) (hc : ∀ a, c (a ^^^ m) = c a) (hm : m < 2 ^ k) : Scrambles (2 ^ k) (flip c m) :=
  ⟨flip_involutive hbit hc, flip_group hbit hm⟩

theorem scrambles_id (n : Nat) : Scrambles n id := ⟨fun _ => rfl, fun _ => rfl⟩

/-- Whole groups are mapped onto themselves. -/
theorem Scrambles.bijOn (h : Scrambles n f) {N : Nat} (hN : n ∣ N) : Set.BijOn f (Set.Iio N) (Set.Iio N) := by
  obtain ⟨q, rfl⟩ := hN
  have hmaps : Set.MapsTo f (Set.Iio (n * q)) (Set.Iio (n * q)) := by
    intro a ha
    rw [Set.mem_Iio, Nat.mul_comm] at ha ⊢
    have hn : 0 < n := Nat.pos_of_ne_zero (by rintro rfl; exact absurd ha (Nat.not_lt_zero a))
    rw [← Nat.div_lt_iff_lt_mul hn] at ha ⊢
    rwa [h.group]
  refine ⟨hmaps, h.involutive.injective.injOn, fun a ha => ⟨f a, hmaps ha, h.involutive a⟩⟩

end

end Flip
