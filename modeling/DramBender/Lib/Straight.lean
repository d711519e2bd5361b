import Mathlib
import DramBender.Lib.Machine
/-!
# Straight code and counted loops

The effect of instructions that neither branch nor halt is the effects of the
single ones in turn. A loop whose branch is taken as long as passes are left
runs as many passes (`halts_loop`).
-/

namespace Machine

variable {σ ε ι : Type}

/-- The effects in turn, with all their events. -/
def effects : List (σ → σ × List ε) → σ → σ × List ε
  | [], s => (s, [])
  | f :: fs, s => ((effects fs (f s).1).1, (f s).2 ++ (effects fs (f s).1).2)

@[simp] theorem effects_nil (s : σ) : effects ([] : List (σ → σ × List ε)) s = (s, []) := rfl

theorem effects_append (fs gs : List (σ → σ × List ε)) (s : σ) :
    effects (fs ++ gs) s = ((effects gs (effects fs s).1).1, (effects fs s).2 ++ (effects gs (effects fs s).1).2) := by
  induction fs generalizing s with
  | nil => rfl
  | cons f fs ih =>
    change ((effects (fs ++ gs) (f s).1).1, (f s).2 ++ (effects (fs ++ gs) (f s).1).2) = _
    rw [ih, effects, List.append_assoc]

/-- A loop in the generator of the code: what holds of the elements so far is
kept by the effects for one more. -/
theorem effects_flatMap {l : List ι} {f : ι → List (σ → σ × List ε)} {s : σ} (P : List ι → σ → List ε → Prop)
    (h0 : P [] s [])
    (hstep : ∀ xs x ys s es, l = xs ++ x :: ys → P xs s es → P (xs ++ [x]) (effects (f x) s).1 (es ++ (effects (f x) s).2)) :
    P l (effects (l.flatMap f) s).1 (effects (l.flatMap f) s).2 := by
  have hall : ∀ ys xs s es, l = xs ++ ys → P xs s es →
      P l (effects (ys.flatMap f) s).1 (es ++ (effects (ys.flatMap f) s).2) := by
    intro ys
    induction ys with
    | nil =>
      intro xs s es hl hP
      rw [List.append_nil] at hl
      rw [hl, List.flatMap_nil, effects_nil, List.append_nil]
      exact hP
    | cons y ys ih =>
      intro xs s es hl hP
      rw [List.flatMap_cons, effects_append, ← List.append_assoc]
      refine ih (xs ++ [y]) _ _ ?_ (hstep xs y ys s es hl hP)
      rw [List.append_assoc, hl]
      rfl
  exact hall l [] s [] rfl h0

/-- A run through straight code. -/
theorem steps_straight (as bs : List (Act σ ε)) (fs : List (σ → σ × List ε)) (s : σ) :
    Steps (as ++ (fs.map .exec ++ bs)) as.length s (effects fs s).2 (as.length + fs.length) (effects fs s).1 := by
  induction fs generalizing as s with
  | nil => exact .refl _ _
  | cons f fs ih =>
    have hn : next (as ++ ((f :: fs).map .exec ++ bs)) as.length s = some (as.length + 1, f s) := by
      unfold next
      rw [List.getElem?_append_right le_rfl, Nat.sub_self]
      rfl
    have h := ih (as ++ [.exec f]) (f s).1
    rw [List.append_assoc, List.length_append, List.length_singleton] at h
    have hlen : as.length + (f :: fs).length = as.length + 1 + fs.length := by
      rw [List.length_cons]
      omega
    rw [hlen]
    exact .step hn h

/-- Straight code in front of a halt. -/
theorem halts_straight (fs : List (σ → σ × List ε)) (s : σ) :
    Halts (fs.map .exec ++ [.halt]) 0 s (effects fs s).2 (effects fs s).1 := by
  have hsteps := steps_straight [] [.halt] fs s
  rw [List.nil_append, List.length_nil, Nat.zero_add] at hsteps
  refine ⟨_, hsteps, ?_⟩
  rw [List.getElem?_append_right (by simp), List.length_map, Nat.sub_self]
  rfl

section
variable {pre body post : List (σ → σ × List ε)} {f : σ → σ × List ε} {taken : σ → Bool}

/-- The code of a loop. -/
def loopCode (pre body post : List (σ → σ × List ε)) (f : σ → σ × List ε) (taken : σ → Bool) : List (Act σ ε) :=
  pre.map .exec ++ (body.map .exec ++ .branch f taken pre.length :: (post.map .exec ++ [.halt]))

/-- One pass and the branch behind it. -/
theorem steps_pass (s : σ) : Steps (loopCode pre body post f taken) pre.length s (effects (body ++ [f]) s).2
    (if taken (effects body s).1 then pre.length else pre.length + body.length + 1) (effects (body ++ [f]) s).1 := by
  have hbody := steps_straight (pre.map .exec) (.branch f taken pre.length :: (post.map .exec ++ [.halt])) body s
  rw [List.length_map] at hbody
  have hn : next (loopCode pre body post f taken) (pre.length + body.length) (effects body s).1 =
      some (if taken (effects body s).1 then pre.length else pre.length + body.length + 1, f (effects body s).1) := by
    unfold next loopCode
    rw [List.getElem?_append_right (by simp), List.length_map, Nat.add_sub_cancel_left,
      List.getElem?_append_right (by simp), List.length_map, Nat.sub_self, List.getElem?_cons_zero]
  have hf : effects [f] (effects body s).1 = f (effects body s).1 := by
    rw [effects, effects, List.append_nil]
  rw [effects_append, hf]
  exact hbody.trans (.single hn)

/-- The passes, from the one after the first `i` on. -/
theorem steps_passes {n : Nat} (J : Nat → σ → List ε → Prop)
    (hstep : ∀ i s es, i < n → J i s es → J (i + 1) (effects (body ++ [f]) s).1 (es ++ (effects (body ++ [f]) s).2) ∧
      taken (effects body s).1 = decide (i + 1 < n))
    {i : Nat} {s : σ} {es : List ε} (hi : i < n) (hJ : J i s es) :
    ∃ s' es', Steps (loopCode pre body post f taken) pre.length s es' (pre.length + body.length + 1) s' ∧
      J n s' (es ++ es') := by
  obtain ⟨k, rfl⟩ : ∃ k, n = i + 1 + k := ⟨n - (i + 1), by omega⟩
  induction k generalizing i s es with
  | zero =>
    obtain ⟨hJ', ht⟩ := hstep i s es (by omega) hJ
    have h : Steps (loopCode pre body post f taken) pre.length s _ _ _ := steps_pass s
    rw [ht, decide_eq_false (by omega)] at h
    exact ⟨_, _, h, hJ'⟩
  | succ k ih =>
    obtain ⟨hJ', ht⟩ := hstep i s es (by omega) hJ
    have h : Steps (loopCode pre body post f taken) pre.length s _ _ _ := steps_pass s
    rw [ht, decide_eq_true (by omega)] at h
    have hk : i + 1 + (k + 1) = i + 1 + 1 + k := by omega
    rw [hk] at hstep ⊢
    obtain ⟨s', es', hs, hJn⟩ := ih hJ' hstep (by omega)
    exact ⟨s', _, h.trans hs, by rwa [← List.append_assoc]⟩

/-- A loop of `n` passes, `J i` holding after `i` of them. -/
theorem halts_loop {n : Nat} (hn : 0 < n) (J : Nat → σ → List ε → Prop) (s : σ) (h0 : J 0 (effects pre s).1 (effects pre s).2)
    (hstep : ∀ i s es, i < n → J i s es → J (i + 1) (effects (body ++ [f]) s).1 (es ++ (effects (body ++ [f]) s).2) ∧
      taken (effects body s).1 = decide (i + 1 < n)) :
    ∃ s1 es1, Halts (loopCode pre body post f taken) 0 s (es1 ++ (effects post s1).2) (effects post s1).1 ∧ J n s1 es1 := by
  have hpre := steps_straight [] (body.map .exec ++ .branch f taken pre.length :: (post.map .exec ++ [.halt])) pre s
  rw [List.nil_append, List.length_nil, Nat.zero_add] at hpre
  obtain ⟨s1, es1, hpasses, hJ⟩ : ∃ s1 es1, Steps (loopCode pre body post f taken) pre.length (effects pre s).1 es1
      (pre.length + body.length + 1) s1 ∧ J n s1 ((effects pre s).2 ++ es1) := steps_passes J hstep hn h0
  have hpost := steps_straight (pre.map .exec ++ (body.map .exec ++ [.branch f taken pre.length])) [.halt] post s1
  have hcode : pre.map .exec ++ (body.map .exec ++ [.branch f taken pre.length]) ++ (post.map .exec ++ [.halt]) =
      loopCode pre body post f taken := by simp [loopCode]
  have hlen : (pre.map Act.exec ++ (body.map Act.exec ++ [Act.branch f taken pre.length])).length =
      pre.length + body.length + 1 := by simp [Nat.add_assoc]
  rw [hcode, hlen] at hpost
  refine ⟨s1, _, ⟨_, (hpre.trans hpasses).trans hpost, ?_⟩, hJ⟩
  rw [← hcode, ← hlen, List.getElem?_append_right (by simp), Nat.add_sub_cancel_left,
    List.getElem?_append_right (by simp), List.length_map, Nat.sub_self]
  rfl

end

end Machine
