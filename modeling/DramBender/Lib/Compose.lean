import Mathlib
import DramBender.Lib.Straight
/-!
# Code behind code

Two pieces of code one behind the other, the targets of the second one moved
along. If the first one ends at its end only, the runs of the whole are its runs
and the runs of the second one from where they end (`halts_behind_iff`).
-/

namespace Machine

variable {σ ε : Type}

/-- Code that neither halts nor leaves: its targets are in it or directly behind
it. -/
def FallsThrough (code : List (Act σ ε)) : Prop :=
  ∀ a ∈ code, a ≠ .halt ∧ ∀ f taken tgt, a = .branch f taken tgt → tgt ≤ code.length

/-- `more` as it stands behind `n` instructions. -/
def behind (n : Nat) (more : List (Act σ ε)) : List (Act σ ε) := more.map (Act.retarget fun t => n + t)

theorem behind_append (n : Nat) (as bs : List (Act σ ε)) : behind n (as ++ bs) = behind n as ++ behind n bs := List.map_append

theorem behind_straight (n : Nat) (fs : List (σ → σ × List ε)) : behind n (fs.map .exec) = fs.map .exec := by
  rw [behind, List.map_map]
  rfl

section
variable {code more : List (Act σ ε)}

/-! ## The instructions behind -/

theorem getElem?_behind (k : Nat) :
    (code ++ behind code.length more)[code.length + k]? = more[k]?.map (Act.retarget fun t => code.length + t) := by
  rw [List.getElem?_append_right (Nat.le_add_right _ _), Nat.add_sub_cancel_left, behind, List.getElem?_map]

/-- They do what they did by themselves. -/
theorem next_behind (k : Nat) (s : σ) : next (code ++ behind code.length more) (code.length + k) s =
    (next more k s).map fun r => (code.length + r.1, r.2) := by
  unfold next
  rw [getElem?_behind]
  cases more[k]? with
  | none => rfl
  | some a =>
    cases a with
    | exec f => rfl
    | branch f taken tgt => cases ht : taken s <;> simp [Act.retarget, ht, Nat.add_assoc]
    | halt => rfl

theorem steps_behind {k k' : Nat} {s s' : σ} {es : List ε} (h : Steps more k s es k' s') :
    Steps (code ++ behind code.length more) (code.length + k) s es (code.length + k') s' := by
  induction h with
  | refl k s => exact .refl _ s
  | @step k k1 k2 s s1 s2 es es' hn _ ih =>
    refine .step ?_ ih
    rw [next_behind, hn]
    rfl

/-- A run that begins among them stays there. -/
theorem steps_of_behind {k pc : Nat} {s s' : σ} {es : List ε}
    (h : Steps (code ++ behind code.length more) (code.length + k) s es pc s') :
    ∃ k', pc = code.length + k' ∧ Steps more k s es k' s' := by
  generalize hpc : code.length + k = pc0 at h
  induction h generalizing k with
  | refl pc0 s => exact ⟨k, hpc.symm, .refl k s⟩
  | step hn _ ih =>
    rw [← hpc, next_behind] at hn
    obtain ⟨⟨k1, s1, es1⟩, hr, he⟩ := Option.map_eq_some_iff.1 hn
    cases he
    obtain ⟨k', hk', hs⟩ := ih rfl
    exact ⟨k', hk', .step hr hs⟩

theorem halts_behind {k : Nat} {s s' : σ} {es : List ε} :
    Halts (code ++ behind code.length more) (code.length + k) s es s' ↔ Halts more k s es s' := by
  have hhalt : ∀ k', (code ++ behind code.length more)[code.length + k']? = some .halt ↔ more[k']? = some .halt := by
    intro k'
    rw [getElem?_behind]
    cases more[k']? with
    | none => simp
    | some a => cases a <;> simp [Act.retarget]
  constructor
  · rintro ⟨pc, hs, hh⟩
    obtain ⟨k', rfl, hs'⟩ := steps_of_behind hs
    exact ⟨k', hs', (hhalt k').1 hh⟩
  · rintro ⟨k', hs, hh⟩
    exact ⟨_, steps_behind hs, (hhalt k').2 hh⟩

/-! ## The instructions in front -/

/-- The halt at the end is never stepped over. -/
theorem next_of_halt (more : List (Act σ ε)) {pc : Nat} {s : σ} {r : Nat × σ × List ε}
    (h : next (code ++ [.halt]) pc s = some r) : next (code ++ more) pc s = some r := by
  unfold next at h ⊢
  rcases Nat.lt_or_ge pc code.length with hpc | hpc
  · rwa [List.getElem?_append_left hpc] at h ⊢
  · rw [List.getElem?_append_right hpc] at h
    cases hk : pc - code.length <;> simp [hk] at h

theorem steps_of_halt (more : List (Act σ ε)) {pc pc' : Nat} {s s' : σ} {es : List ε}
    (h : Steps (code ++ [.halt]) pc s es pc' s') : Steps (code ++ more) pc s es pc' s' := by
  induction h with
  | refl pc s => exact .refl pc s
  | step hn _ ih => exact .step (next_of_halt more hn) ih

theorem next_front (hc : FallsThrough code) {pc : Nat} (hpc : pc < code.length) {s : σ} {r : Nat × σ × List ε}
    (h : next (code ++ more) pc s = some r) : r.1 ≤ code.length ∧ next (code ++ [.halt]) pc s = some r := by
  obtain ⟨hne, htgt⟩ := hc code[pc] (List.getElem_mem hpc)
  unfold next at h ⊢
  rw [List.getElem?_append_left hpc] at h ⊢
  refine ⟨?_, h⟩
  rw [List.getElem?_eq_getElem hpc] at h
  cases ha : code[pc] with
  | exec f =>
    rw [ha] at h
    cases h
    exact hpc
  | branch f taken tgt =>
    rw [ha] at h
    cases h
    dsimp only
    split_ifs
    · exact htgt f taken tgt ha
    · exact hpc
  | halt => exact absurd ha hne

/-- A run from the front has not left it, or has come to its end and gone on
behind. -/
theorem steps_split (hc : FallsThrough code) {s s' : σ} {es : List ε} {pc pc' : Nat} (hpc : pc ≤ code.length)
    (h : Steps (code ++ behind code.length more) pc s es pc' s') :
    (pc' < code.length ∧ Steps (code ++ [.halt]) pc s es pc' s') ∨
      ∃ es1 s1 es2 k, Steps (code ++ [.halt]) pc s es1 code.length s1 ∧ Steps more 0 s1 es2 k s' ∧
        pc' = code.length + k ∧ es = es1 ++ es2 := by
  induction h with
  | refl pc s =>
    rcases Nat.lt_or_eq_of_le hpc with hlt | rfl
    · exact .inl ⟨hlt, .refl pc s⟩
    · exact .inr ⟨[], s, [], 0, .refl _ s, .refl 0 s, rfl, rfl⟩
  | @step pc pc1 pc2 s s1 s2 es es' hn ht ih =>
    rcases Nat.lt_or_eq_of_le hpc with hlt | rfl
    · obtain ⟨hle, hfront⟩ := next_front hc hlt hn
      rcases ih hle with ⟨hpc', hs⟩ | ⟨es1, t, es2, k, hs, hmore, hk, rfl⟩
      · exact .inl ⟨hpc', .step hfront hs⟩
      · exact .inr ⟨es ++ es1, t, es2, k, .step hfront hs, hmore, hk, (List.append_assoc _ _ _).symm⟩
    · -- the hand-over: the rest of the run is among the instructions behind
      obtain ⟨k, hk, hs⟩ := steps_of_behind (k := 0) (Steps.step hn ht)
      exact .inr ⟨[], s, _, k, .refl _ s, hs, hk, rfl⟩

/-! ## The whole -/

theorem not_halt_front (hc : FallsThrough code) {pc : Nat} (hpc : pc < code.length) : (code ++ more)[pc]? ≠ some .halt := by
  intro hh
  rw [List.getElem?_append_left hpc] at hh
  exact (hc _ (List.mem_of_getElem? hh)).1 rfl

/-- The whole halts as the front does, followed by what is behind. -/
theorem halts_behind_iff (hc : FallsThrough code) {s s' : σ} {es : List ε} :
    Halts (code ++ behind code.length more) 0 s es s' ↔
      ∃ es1 s1 es2, Halts (code ++ [.halt]) 0 s es1 s1 ∧ Halts more 0 s1 es2 s' ∧ es = es1 ++ es2 := by
  constructor
  · rintro ⟨pc', hs, hh⟩
    rcases steps_split hc (Nat.zero_le _) hs with ⟨hlt, -⟩ | ⟨es1, s1, es2, k, hfront, hmore, rfl, rfl⟩
    · exact absurd hh (not_halt_front hc hlt)
    · obtain ⟨-, hh'⟩ : Steps more 0 s1 es2 k s' ∧ more[k]? = some .halt := by
        refine ⟨hmore, ?_⟩
        rw [getElem?_behind] at hh
        obtain ⟨a, ha, he⟩ := Option.map_eq_some_iff.1 hh
        rw [ha]
        cases a with
        | halt => rfl
        | exec f => cases he
        | branch f taken tgt => cases he
      exact ⟨es1, s1, es2, ⟨_, hfront, by simp⟩, ⟨k, hmore, hh'⟩, rfl⟩
  · rintro ⟨es1, s1, es2, ⟨pc', hs, hh⟩, hmore, rfl⟩
    have hend : pc' = code.length := by
      have hlt : pc' < (code ++ [Act.halt]).length := (List.getElem?_eq_some_iff.1 hh).1
      rw [List.length_append, List.length_singleton] at hlt
      by_contra hne
      exact not_halt_front hc (by omega) hh
    rw [hend] at hs
    have hback : Halts (code ++ behind code.length more) (code.length + 0) s1 es2 s' := halts_behind.2 hmore
    obtain ⟨pc2, hs2, hh2⟩ := hback
    exact ⟨pc2, (steps_of_halt _ hs).trans hs2, hh2⟩

/-- Straight code behind code that falls through. -/
theorem halts_straight_behind (hc : FallsThrough code) {fs : List (σ → σ × List ε)} {s s' : σ} {es : List ε} :
    Halts (code ++ (fs.map .exec ++ [.halt])) 0 s es s' ↔
      ∃ es1 s1, Halts (code ++ [.halt]) 0 s es1 s1 ∧ es = es1 ++ (effects fs s1).2 ∧ s' = (effects fs s1).1 := by
  have hbehind : behind code.length (fs.map .exec ++ [.halt]) = fs.map .exec ++ [.halt] := by
    rw [behind_append, behind_straight]
    rfl
  rw [← hbehind, halts_behind_iff hc]
  constructor
  · rintro ⟨es1, s1, es2, hs, hmore, rfl⟩
    obtain ⟨rfl, rfl⟩ := hmore.det (halts_straight fs s1)
    exact ⟨es1, s1, hs, rfl, rfl⟩
  · rintro ⟨es1, s1, hs, rfl, rfl⟩
    exact ⟨es1, s1, _, hs, halts_straight fs s1, rfl⟩

end

end Machine
