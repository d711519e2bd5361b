import Mathlib
import DramBender.Lib.Machine
/-!
# What the events of a run tell

A part of the state that follows the events is, after a run, what the events
have made of it (`Steps.track`).
-/

namespace Machine

section
variable {σ ε τ : Type} (q : σ → τ) (upd : τ → ε → τ)

/-- The instruction changes what `q` keeps of the state as its events say. -/
inductive Act.Tracks : Act σ ε → Prop
  | exec {f : σ → σ × List ε} (h : ∀ s, q (f s).1 = (f s).2.foldl upd (q s)) : Tracks (.exec f)
  | branch {f : σ → σ × List ε} {taken : σ → Bool} {tgt : Nat} (h : ∀ s, q (f s).1 = (f s).2.foldl upd (q s)) :
    Tracks (.branch f taken tgt)
  | halt : Tracks .halt

variable {q upd} {code : List (Act σ ε)} (hc : ∀ a ∈ code, a.Tracks q upd)
include hc

theorem next_track {pc pc1 : Nat} {s s1 : σ} {es : List ε} (h : next code pc s = some (pc1, s1, es)) :
    q s1 = es.foldl upd (q s) := by
  unfold next at h
  cases ha : code[pc]? with
  | none =>
    rw [ha] at h
    cases h
  | some a =>
    rw [ha] at h
    cases hc a (List.mem_of_getElem? ha) with
    | exec hf =>
      simp only [Option.some.injEq, Prod.mk.injEq] at h
      have hs := hf s
      rwa [h.2] at hs
    | branch hf =>
      simp only [Option.some.injEq, Prod.mk.injEq] at h
      have hs := hf s
      rwa [h.2] at hs
    | halt => cases h

theorem Steps.track {pc pc' : Nat} {s s' : σ} {es : List ε} (h : Steps code pc s es pc' s') : q s' = es.foldl upd (q s) := by
  induction h with
  | refl => rfl
  | step hn _ ih => rw [ih, next_track hc hn, List.foldl_append]

theorem Halts.track {pc : Nat} {s s' : σ} {es : List ε} (h : Halts code pc s es s') : q s' = es.foldl upd (q s) := by
  obtain ⟨pc', hs, -⟩ := h
  exact hs.track hc

end

end Machine
