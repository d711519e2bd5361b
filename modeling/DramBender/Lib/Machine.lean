import Mathlib
import DramBender.Lib.Insert
/-!
# Machines that run a list of instructions

An instruction acts on the state and goes to the next one, may go to a target
instead, or halts. Runs record the events the instructions emit. Inserting
no-ops and moving every target along changes no run (`steps_relocate_iff`).
-/

namespace Machine

open Insert

/-- What one instruction does. -/
inductive Act (σ ε : Type) where
  | exec (f : σ → σ × List ε)
  | branch (f : σ → σ × List ε) (taken : σ → Bool) (tgt : Nat)
  | halt

variable {σ ε : Type}

/-- The next program counter and state, and the events. `none` at a halt and
outside the code. -/
def next (code : List (Act σ ε)) (pc : Nat) (s : σ) : Option (Nat × σ × List ε) :=
  match code[pc]? with
  | some (.exec f) => some (pc + 1, f s)
  | some (.branch f taken tgt) => some (if taken s then tgt else pc + 1, f s)
  | some .halt => none
  | none => none

/-- Runs from `pc` and `s`, with the events on the way. -/
inductive Steps (code : List (Act σ ε)) : Nat → σ → List ε → Nat → σ → Prop
  | refl (pc : Nat) (s : σ) : Steps code pc s [] pc s
  | step {pc pc1 pc2 : Nat} {s s1 s2 : σ} {es es' : List ε} (h : next code pc s = some (pc1, s1, es))
      (ht : Steps code pc1 s1 es' pc2 s2) : Steps code pc s (es ++ es') pc2 s2

/-- The run of at most `n` steps. -/
def run (code : List (Act σ ε)) : Nat → Nat → σ → Nat × σ × List ε
  | 0, pc, s => (pc, s, [])
  | n + 1, pc, s =>
    match next code pc s with
    | none => (pc, s, [])
    | some (pc1, s1, es) =>
      let (pc2, s2, es') := run code n pc1 s1
      (pc2, s2, es ++ es')

/-- A run that ends at a halt. -/
def Halts (code : List (Act σ ε)) (pc : Nat) (s : σ) (es : List ε) (s' : σ) : Prop :=
  ∃ pc', Steps code pc s es pc' s' ∧ code[pc']? = some .halt

section
variable {code : List (Act σ ε)} {pc pc1 pc2 : Nat} {s s1 s2 : σ} {es es1 es2 : List ε}

theorem Steps.single (h : next code pc s = some (pc1, s1, es)) : Steps code pc s es pc1 s1 := by
  have hs := Steps.step h (.refl pc1 s1)
  rwa [List.append_nil] at hs

theorem Steps.trans (h : Steps code pc s es1 pc1 s1) (h' : Steps code pc1 s1 es2 pc2 s2) :
    Steps code pc s (es1 ++ es2) pc2 s2 := by
  induction h with
  | refl => exact h'
  | step hn _ ih =>
    rw [List.append_assoc]
    exact .step hn (ih h')

theorem steps_run (code : List (Act σ ε)) (n pc : Nat) (s : σ) :
    Steps code pc s (run code n pc s).2.2 (run code n pc s).1 (run code n pc s).2.1 := by
  induction n generalizing pc s with
  | zero => exact .refl pc s
  | succ n ih =>
    rw [run]
    cases hn : next code pc s with
    | none => exact .refl pc s
    | some r => exact .step hn (ih r.1 r.2.1)

/-- What every step keeps holds after a run. -/
theorem Steps.inv (I : Nat → σ → List ε → Prop)
    (hstep : ∀ pc s es pc1 s1 es1, I pc s es → next code pc s = some (pc1, s1, es1) → I pc1 s1 (es ++ es1))
    (h0 : I pc s es) (h : Steps code pc s es1 pc1 s1) : I pc1 s1 (es ++ es1) := by
  induction h generalizing es with
  | refl => rwa [List.append_nil]
  | step hn _ ih =>
    rw [← List.append_assoc]
    exact ih (hstep _ _ _ _ _ _ h0 hn)

/-- Code behind the code changes no step in it. -/
theorem next_append (more : List (Act σ ε)) {r : Nat × σ × List ε} (h : next code pc s = some r) :
    next (code ++ more) pc s = some r := by
  unfold next at h ⊢
  rcases Nat.lt_or_ge pc code.length with hpc | hpc
  · rwa [List.getElem?_append_left hpc]
  · rw [List.getElem?_eq_none hpc] at h
    cases h

theorem Steps.append (more : List (Act σ ε)) (h : Steps code pc s es pc1 s1) : Steps (code ++ more) pc s es pc1 s1 := by
  induction h with
  | refl pc s => exact .refl pc s
  | step hn _ ih => exact .step (next_append more hn) ih

theorem Halts.append (more : List (Act σ ε)) (h : Halts code pc s es s1) : Halts (code ++ more) pc s es s1 := by
  obtain ⟨p1, h, h1⟩ := h
  exact ⟨p1, h.append more, (List.getElem?_append_left (List.getElem?_eq_some_iff.1 h1).1).trans h1⟩

/-- Two halting runs from one state are the same. -/
theorem Halts.det (h : Halts code pc s es1 s1) (h' : Halts code pc s es2 s2) : es1 = es2 ∧ s1 = s2 := by
  obtain ⟨p1, h, h1⟩ := h
  obtain ⟨p2, h', h2⟩ := h'
  induction h generalizing es2 with
  | refl pc s =>
    cases h' with
    | refl => exact ⟨rfl, rfl⟩
    | step hn => simp [next, h1] at hn
  | step hn _ ih =>
    cases h' with
    | refl => simp [next, h2] at hn
    | step hn' ht =>
      rw [hn] at hn'
      cases hn'
      obtain ⟨rfl, rfl⟩ := ih h1 ht
      exact ⟨rfl, rfl⟩

end

/-! ## Projection -/

section
variable {σ' ε' : Type} (p : σ' → σ) (q : ε' → ε) (P : ε' → Prop)

/-- The instruction does to what `p` keeps of the state what the other one does,
wherever it emits no event but those with `P`. -/
inductive Act.Projects : Act σ' ε' → Act σ ε → Prop
  | exec {f' : σ' → σ' × List ε'} {f : σ → σ × List ε}
    (h : ∀ s, (∀ e ∈ (f' s).2, P e) → f (p s) = (p (f' s).1, (f' s).2.map q)) : Projects (.exec f') (.exec f)
  | branch {f' : σ' → σ' × List ε'} {f : σ → σ × List ε} {taken' : σ' → Bool} {taken : σ → Bool} {tgt : Nat}
    (h : ∀ s, (∀ e ∈ (f' s).2, P e) → f (p s) = (p (f' s).1, (f' s).2.map q)) (ht : ∀ s, taken (p s) = taken' s) :
    Projects (.branch f' taken' tgt) (.branch f taken tgt)
  | halt : Projects .halt .halt

variable {p q P} {code' : List (Act σ' ε')} {code : List (Act σ ε)} (hc : List.Forall₂ (Act.Projects p q P) code' code)
include hc

theorem next_project {pc pc1 : Nat} {s s1 : σ'} {es : List ε'} (h : next code' pc s = some (pc1, s1, es))
    (hes : ∀ e ∈ es, P e) : next code pc (p s) = some (pc1, p s1, es.map q) := by
  unfold next at h ⊢
  rcases Nat.lt_or_ge pc code'.length with hpc | hpc
  · have hpc' : pc < code.length := by rwa [← hc.length_eq]
    rw [List.getElem?_eq_getElem hpc] at h
    rw [List.getElem?_eq_getElem hpc']
    have hact := hc.get hpc hpc'
    rw [List.get_eq_getElem, List.get_eq_getElem] at hact
    revert h hact
    generalize code'[pc] = a'
    generalize code[pc] = a
    rintro h (⟨hf⟩ | ⟨hf, ht⟩ | _)
    · simp only [Option.some.injEq, Prod.mk.injEq] at h ⊢
      obtain ⟨rfl, h⟩ := h
      rw [hf s (by rwa [h]), h]
      exact ⟨rfl, rfl⟩
    · simp only [Option.some.injEq, Prod.mk.injEq] at h ⊢
      obtain ⟨rfl, h⟩ := h
      rw [hf s (by rwa [h]), h, ht]
      exact ⟨rfl, rfl⟩
    · cases h
  · rw [List.getElem?_eq_none hpc] at h
    cases h

/-- A run without other events projects to a run. -/
theorem Steps.project {pc pc' : Nat} {s s' : σ'} {es : List ε'} (h : Steps code' pc s es pc' s') (hes : ∀ e ∈ es, P e) :
    Steps code pc (p s) (es.map q) pc' (p s') := by
  induction h with
  | refl => exact .refl _ _
  | step hn _ ih =>
    rw [List.map_append]
    exact .step (next_project hc hn fun e he => hes e (List.mem_append_left _ he))
      (ih fun e he => hes e (List.mem_append_right _ he))

theorem Halts.project {pc : Nat} {s s' : σ'} {es : List ε'} (h : Halts code' pc s es s') (hes : ∀ e ∈ es, P e) :
    Halts code pc (p s) (es.map q) (p s') := by
  obtain ⟨pc', hs, hh⟩ := h
  refine ⟨pc', hs.project hc hes, ?_⟩
  obtain ⟨hlt, hget⟩ := List.getElem?_eq_some_iff.1 hh
  have hlt' : pc' < code.length := by rwa [← hc.length_eq]
  have hact := hc.get hlt hlt'
  rw [List.get_eq_getElem, List.get_eq_getElem, hget] at hact
  rw [List.getElem?_eq_getElem hlt']
  revert hact
  generalize code[pc'] = a
  rintro ⟨⟩
  rfl

end

/-! ## Relocation -/

/-- An instruction without effect. -/
def nop : Act σ ε := .exec fun s => (s, [])

/-- The instruction with its target sent elsewhere. -/
def Act.retarget (g : Nat → Nat) : Act σ ε → Act σ ε
  | .exec f => .exec f
  | .branch f taken tgt => .branch f taken (g tgt)
  | .halt => .halt

theorem Act.retarget_retarget (g g' : Nat → Nat) (a : Act σ ε) : (a.retarget g).retarget g' = a.retarget fun t => g' (g t) := by
  cases a <;> rfl

/-- `code` with another instruction in front of every marked one. -/
def relocateWith (g : σ → σ × List ε) (mark : Nat → Bool) (code : List (Act σ ε)) : List (Act σ ε) :=
  expand (fun k => if mark k then some (.exec g) else none) (code.map (Act.retarget (entry mark)))

/-- `code` with a no-op in front of every marked instruction. -/
def relocate (mark : Nat → Bool) (code : List (Act σ ε)) : List (Act σ ε) :=
  expand (fun k => if mark k then some nop else none) (code.map (Act.retarget (entry mark)))

section
variable {g : σ → σ × List ε} {mark : Nat → Bool} {code : List (Act σ ε)}

theorem marks_exec : marks (fun k => if mark k then some (Act.exec g) else none) = mark := by
  funext k
  cases h : mark k <;> simp [marks, h]

theorem length_relocateWith : (relocateWith g mark code).length = entry mark code.length := by
  rw [relocateWith, length_expand, marks_exec, List.length_map]

theorem relocateWith_place (k : Nat) :
    (relocateWith g mark code)[place mark k]? = code[k]?.map (Act.retarget (entry mark)) := by
  rcases Nat.lt_or_ge k code.length with hk | hk
  · have h := getElem?_place (fun k => if mark k then some (Act.exec g) else none)
      (code.map (Act.retarget (entry mark))) (i := k) (by simpa using hk)
    rw [marks_exec] at h
    rw [relocateWith, h, List.getElem?_map]
  · rw [List.getElem?_eq_none hk, Option.map_none, List.getElem?_eq_none]
    rw [length_relocateWith]
    exact (entry_le_iff.2 hk).trans (entry_le_place k)

theorem relocateWith_entry {k : Nat} (hm : mark k = true) (hk : k < code.length) :
    (relocateWith g mark code)[entry mark k]? = some (.exec g) := by
  have h := getElem?_entry (fun k => if mark k then some (Act.exec g) else none)
    (code.map (Act.retarget (entry mark))) (v := .exec g) (if_pos hm) (by simpa using hk)
  rw [marks_exec] at h
  exact h

/-- The relocated instruction does what the source's does. -/
theorem next_place_with (k : Nat) (s : σ) :
    next (relocateWith g mark code) (place mark k) s =
      (next code k s).map fun r => (entry mark r.1, r.2) := by
  unfold next
  rw [relocateWith_place]
  cases code[k]? with
  | none => rfl
  | some a =>
    cases a with
    | exec f => simp [Act.retarget, place_succ]
    | branch f taken tgt => cases ht : taken s <;> simp [Act.retarget, place_succ, ht]
    | halt => rfl

theorem lt_of_next {pc : Nat} {s : σ} {r : Nat × σ × List ε} (h : next code pc s = some r) : pc < code.length := by
  by_contra hlt
  rw [next, List.getElem?_eq_none (by omega)] at h
  cases h

theorem lt_of_next_entry {k : Nat} {s : σ} {r : Nat × σ × List ε}
    (h : next (relocateWith g mark code) (entry mark k) s = some r) : k < code.length := by
  have hlen := lt_of_next h
  rw [length_relocateWith] at hlen
  by_contra hge
  have hentry : entry mark code.length ≤ entry mark k := entry_le_iff.2 (by omega)
  omega

/-- What the steps of the source and the inserted instruction keep holds in the
runs of the relocated code. -/
theorem inv_relocateWith (I : Nat → σ → List ε → Prop)
    (hstep : ∀ pc s es pc1 s1 es1, I pc s es → next code pc s = some (pc1, s1, es1) → I pc1 s1 (es ++ es1))
    (hg : ∀ pc s es, I pc s es → I pc (g s).1 (es ++ (g s).2)) {pc q : Nat} {s s' : σ} {es es' : List ε}
    (h0 : I pc s es) (h : Steps (relocateWith g mark code) (entry mark pc) s es' q s') :
    ∃ pc', (q = entry mark pc' ∨ q = place mark pc') ∧ I pc' s' (es ++ es') := by
  generalize hq0 : entry mark pc = q0 at h
  replace hq0 : q0 = entry mark pc ∨ q0 = place mark pc := .inl hq0.symm
  induction h generalizing pc es with
  | refl q0 s =>
    rw [List.append_nil]
    exact ⟨pc, hq0, h0⟩
  | @step q0 q1 q s s1 s' es1 es2 hn _ ih =>
    rw [← List.append_assoc]
    -- a step from the instruction itself is a step of the source
    have hplace : q0 = place mark pc →
        ∃ pc', (q = entry mark pc' ∨ q = place mark pc') ∧ I pc' s' (es ++ es1 ++ es2) := by
      rintro rfl
      rw [next_place_with] at hn
      obtain ⟨⟨pc1, s2, es3⟩, hr, he⟩ := Option.map_eq_some_iff.1 hn
      cases he
      exact ih (hstep _ _ _ _ _ _ h0 hr) (.inl rfl)
    rcases hq0 with rfl | hq0
    · cases hm : mark pc with
      | false => exact hplace (place_of_unmarked hm).symm
      | true =>
        have hlt := lt_of_next_entry hn
        unfold next at hn
        rw [relocateWith_entry hm hlt] at hn
        simp only [Option.some.injEq, Prod.mk.injEq] at hn
        obtain ⟨rfl, hn⟩ := hn
        have hinv := hg pc s es h0
        rw [hn] at hinv
        exact ih hinv (.inr (place_of_marked hm).symm)
    · exact hplace hq0

end

section
variable {mark : Nat → Bool} {code : List (Act σ ε)}

theorem relocate_eq : relocate mark code = relocateWith (fun s => (s, [])) mark code := rfl

theorem relocate_place (k : Nat) :
    (relocate mark code)[place mark k]? = code[k]?.map (Act.retarget (entry mark)) := relocateWith_place k

theorem relocate_entry {k : Nat} (hm : mark k = true) (hk : k < code.length) :
    (relocate mark code)[entry mark k]? = some nop := relocateWith_entry hm hk

theorem next_place (k : Nat) (s : σ) :
    next (relocate mark code) (place mark k) s =
      (next code k s).map fun r => (entry mark r.1, r.2) := next_place_with k s

/-- From where control enters, the no-op leads to the instruction itself. -/
theorem steps_place {k : Nat} (hk : k < code.length) (s : σ) :
    Steps (relocate mark code) (entry mark k) s [] (place mark k) s := by
  cases hm : mark k with
  | false =>
    rw [place_of_unmarked hm]
    exact .refl _ _
  | true =>
    rw [place_of_marked hm]
    refine .single ?_
    unfold next
    rw [relocate_entry hm hk]
    rfl

theorem steps_relocate {pc pc' : Nat} {s s' : σ} {es : List ε} (h : Steps code pc s es pc' s') :
    Steps (relocate mark code) (entry mark pc) s es (entry mark pc') s' := by
  induction h with
  | refl => exact .refl _ _
  | @step pc pc1 _ s s1 _ es _ hn _ ih =>
    have hp : next (relocate mark code) (place mark pc) s = some (entry mark pc1, s1, es) := by
      rw [next_place, hn]
      rfl
    exact (steps_place (lt_of_next hn) s).trans (.step hp ih)

/-- Every state the relocated code reaches is one of the source, at an
instruction or at the no-op in front of it. -/
theorem steps_of_relocate {pc q : Nat} {s s' : σ} {es : List ε}
    (h : Steps (relocate mark code) (entry mark pc) s es q s') :
    ∃ pc', Steps code pc s es pc' s' ∧ (q = entry mark pc' ∨ q = place mark pc') := by
  obtain ⟨pc', hq, hs⟩ := inv_relocateWith (fun pc' s' es => Steps code pc s es pc' s')
    (fun _ _ _ _ _ _ hs hn => hs.trans (.single hn)) (fun _ _ _ hs => by rwa [List.append_nil]) (.refl pc s) h
  exact ⟨pc', hs, hq⟩

/-- Relocation changes neither the states reached nor the events. -/
theorem steps_relocate_iff {pc pc' : Nat} {s s' : σ} {es : List ε} :
    Steps (relocate mark code) (entry mark pc) s es (entry mark pc') s' ↔ Steps code pc s es pc' s' := by
  refine ⟨fun h => ?_, steps_relocate⟩
  obtain ⟨pc1, hs, he⟩ := steps_of_relocate h
  have : pc' = pc1 := by
    rcases he with he | he
    · exact entry_inj he
    · apply le_antisymm (entry_le_place_iff.1 he.le)
      by_contra hlt
      have hentry : entry mark pc' < entry mark pc1 := entry_lt (by omega)
      have hplace : entry mark pc1 ≤ place mark pc1 := entry_le_place pc1
      omega
  rwa [this]

theorem halts_relocate_iff {pc : Nat} {s s' : σ} {es : List ε} :
    Halts (relocate mark code) (entry mark pc) s es s' ↔ Halts code pc s es s' := by
  have hhalt : ∀ k, (relocate mark code)[place mark k]? = some .halt ↔ code[k]? = some .halt := by
    intro k
    rw [relocate_place]
    cases code[k]? with
    | none => simp
    | some a => cases a <;> simp [Act.retarget]
  constructor
  · rintro ⟨q, hs, hq⟩
    obtain ⟨pc', hs', rfl | rfl⟩ := steps_of_relocate hs
    · cases hm : mark pc' with
      | false =>
        rw [← place_of_unmarked hm] at hq
        exact ⟨pc', hs', (hhalt pc').1 hq⟩
      | true =>
        exfalso
        have hlt : pc' < code.length := by
          have hlen := (List.getElem?_eq_some_iff.1 hq).1
          rw [relocate_eq, length_relocateWith] at hlen
          by_contra hge
          have hentry : entry mark code.length ≤ entry mark pc' := entry_le_iff.2 (by omega)
          omega
        rw [relocate_entry hm hlt] at hq
        cases hq
    · exact ⟨pc', hs', (hhalt pc').1 hq⟩
  · rintro ⟨pc', hs, hh⟩
    have hlt := (List.getElem?_eq_some_iff.1 hh).1
    refine ⟨place mark pc', ?_, (hhalt pc').2 hh⟩
    have h : Steps (relocate mark code) (entry mark pc) s es (entry mark pc') s' := steps_relocate hs
    have h' := h.trans (steps_place hlt s')
    rwa [List.append_nil] at h'

end

end Machine
