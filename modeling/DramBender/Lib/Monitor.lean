import Mathlib
import DramBender.Lib.Machine
/-!
# Checking code against a monitor

A monitor reads events and refuses some. `flow` carries a description of the
states through the code, instruction by instruction; if it gets through, and
every branch goes to a place whose description is no stronger, then the monitor
refuses no event of any run (`Checked.runs`).
-/

namespace Machine

variable {κ σ ε α μ : Type}

/-- Where `flow` leads from one description to another, the instruction leads
from states of the one to states of the other, past the monitor. -/
def Sound (sem : κ → Act σ ε) (mon : μ → ε → Option μ) (γ : α → σ → μ → Prop) (flow : α → κ → Option α) : Prop :=
  ∀ a a' k f, flow a k = some a' → (sem k = .exec f ∨ ∃ taken tgt, sem k = .branch f taken tgt) →
    ∀ s m, γ a s m → ∃ m', (f s).2.foldlM mon m = some m' ∧ γ a' (f s).1 m'

/-- `flow` gets through the code, and the branches lead to weaker descriptions. -/
structure Checked (sem : κ → Act σ ε) (γ : α → σ → μ → Prop) (flow : α → κ → Option α) (code : List κ) (a0 : α) :
    Prop where
  through : ∃ a, code.foldlM flow a0 = some a
  back : ∀ (b : Nat) k f taken tgt a, code[b]? = some k → sem k = .branch f taken tgt →
    (code.take (b + 1)).foldlM flow a0 = some a →
    ∃ a', (code.take tgt).foldlM flow a0 = some a' ∧ ∀ s m, γ a s m → γ a' s m

section
variable {sem : κ → Act σ ε} {mon : μ → ε → Option μ} {γ : α → σ → μ → Prop} {flow : α → κ → Option α}
  {code : List κ} {a0 : α}

theorem foldlM_take {l : List κ} {a : α} (h : l.foldlM flow a0 = some a) (n : Nat) :
    ∃ a', (l.take n).foldlM flow a0 = some a' := by
  rw [← List.take_append_drop n l, List.foldlM_append] at h
  obtain ⟨a', ha', -⟩ := Option.bind_eq_some_iff.1 h
  exact ⟨a', ha'⟩

theorem foldlM_take_succ {a : α} {k : κ} {n : Nat} (h : (code.take n).foldlM flow a0 = some a)
    (hk : code[n]? = some k) : (code.take (n + 1)).foldlM flow a0 = flow a k := by
  rw [List.take_add_one, hk, Option.toList_some, List.foldlM_append, h]
  change (flow a k >>= fun a => some a) = flow a k
  cases flow a k <;> rfl

/-- One step past the monitor. -/
theorem Checked.step (hs : Sound sem mon γ flow) (hc : Checked sem γ flow code a0) {a : α} {pc pc1 : Nat} {s s1 : σ}
    {m : μ} {es : List ε} (ha : (code.take pc).foldlM flow a0 = some a) (hg : γ a s m)
    (hn : next (code.map sem) pc s = some (pc1, s1, es)) :
    ∃ m' a', es.foldlM mon m = some m' ∧ (code.take pc1).foldlM flow a0 = some a' ∧ γ a' s1 m' := by
  unfold next at hn
  rw [List.getElem?_map] at hn
  cases hk : code[pc]? with
  | none => simp [hk] at hn
  | some k =>
    obtain ⟨aEnd, hthrough⟩ := hc.through
    obtain ⟨a', ha'⟩ := foldlM_take hthrough (pc + 1)
    have hflow : flow a k = some a' := (foldlM_take_succ ha hk).symm.trans ha'
    rw [hk, Option.map_some] at hn
    cases hsem : sem k with
    | halt => simp [hsem] at hn
    | exec f =>
      obtain ⟨m', hm, hg'⟩ := hs a a' k f hflow (.inl hsem) s m hg
      simp only [hsem, Option.some.injEq, Prod.mk.injEq] at hn
      obtain ⟨rfl, hn⟩ := hn
      exact ⟨m', a', by rw [← hm, hn], ha', by rwa [hn] at hg'⟩
    | branch f taken tgt =>
      obtain ⟨m', hm, hg'⟩ := hs a a' k f hflow (.inr ⟨taken, tgt, hsem⟩) s m hg
      simp only [hsem, Option.some.injEq, Prod.mk.injEq] at hn
      obtain ⟨hpc, hn⟩ := hn
      rw [hn] at hm hg'
      cases ht : taken s with
      | false =>
        simp only [ht, Bool.false_eq_true, if_false] at hpc
        subst hpc
        exact ⟨m', a', hm, ha', hg'⟩
      | true =>
        simp only [ht, if_true] at hpc
        subst hpc
        obtain ⟨a'', ha'', hle⟩ := hc.back pc k f taken tgt a' hk hsem ha'
        exact ⟨m', a'', hm, ha'', hle _ _ hg'⟩

/-- The monitor refuses no event of a run through checked code. -/
theorem Checked.runs (hs : Sound sem mon γ flow) (hc : Checked sem γ flow code a0) {pc : Nat} {s s' : σ} {m : μ}
    {es : List ε} (h0 : γ a0 s m) (h : Steps (code.map sem) 0 s es pc s') : ∃ m', es.foldlM mon m = some m' := by
  have hstart : ∃ m' a, ([] : List ε).foldlM mon m = some m' ∧ (code.take 0).foldlM flow a0 = some a ∧ γ a s m' :=
    ⟨m, a0, rfl, rfl, h0⟩
  have hinv := Steps.inv (fun pc s es => ∃ m' a, es.foldlM mon m = some m' ∧
    (code.take pc).foldlM flow a0 = some a ∧ γ a s m') ?_ hstart h
  · obtain ⟨m', -, hm, -⟩ := hinv
    exact ⟨m', hm⟩
  · rintro pc s es pc1 s1 es1 ⟨m1, a, hm1, ha, hg⟩ hn
    obtain ⟨m', a', hm', ha', hg'⟩ := hc.step hs ha hg hn
    refine ⟨m', a', ?_, ha', hg'⟩
    rw [List.foldlM_append, hm1]
    exact hm'

/-- The monitor refuses no event of a run through relocated checked code, if the
inserted instruction keeps every description. -/
theorem Checked.runs_relocated (hs : Sound sem mon γ flow) (hc : Checked sem γ flow code a0) {g : σ → σ × List ε}
    (hg : ∀ a s m, γ a s m → ∃ m', (g s).2.foldlM mon m = some m' ∧ γ a (g s).1 m') {mark : Nat → Bool} {q : Nat}
    {s s' : σ} {m : μ} {es : List ε} (h0 : γ a0 s m) (h : Steps (relocateWith g mark (code.map sem)) 0 s es q s') :
    ∃ m', es.foldlM mon m = some m' := by
  have hentry : Insert.entry mark 0 = 0 := Insert.entry_zero
  rw [← hentry] at h
  have hstart : ∃ m' a, ([] : List ε).foldlM mon m = some m' ∧ (code.take 0).foldlM flow a0 = some a ∧ γ a s m' :=
    ⟨m, a0, rfl, rfl, h0⟩
  have hinv := inv_relocateWith (fun pc s es => ∃ m' a, es.foldlM mon m = some m' ∧
    (code.take pc).foldlM flow a0 = some a ∧ γ a s m') ?_ ?_ hstart h
  · obtain ⟨pc', -, m', a, hm, -⟩ := hinv
    exact ⟨m', hm⟩
  · rintro pc s es pc1 s1 es1 ⟨m1, a, hm1, ha, hγ⟩ hn
    obtain ⟨m', a', hm', ha', hγ'⟩ := hc.step hs ha hγ hn
    refine ⟨m', a', ?_, ha', hγ'⟩
    rw [List.foldlM_append, hm1]
    exact hm'
  · rintro pc s es ⟨m1, a, hm1, ha, hγ⟩
    obtain ⟨m', hm', hγ'⟩ := hg a s m1 hγ
    refine ⟨m', a, ?_, ha, hγ'⟩
    rw [List.foldlM_append, hm1]
    exact hm'

theorem checked_straight {a : α} (h : code.foldlM flow a0 = some a)
    (hno : ∀ k ∈ code, ∀ f taken tgt, sem k ≠ .branch f taken tgt) : Checked sem γ flow code a0 :=
  ⟨⟨a, h⟩, fun _ k f taken tgt _ hk hsem _ => absurd hsem (hno k (List.mem_of_getElem? hk) f taken tgt)⟩

/-- A single branch, back to the end of `pre`. -/
theorem checked_loop {pre body post : List κ} {k : κ} {a1 a2 a3 a4 : α} (hpre : pre.foldlM flow a0 = some a1)
    (hbody : body.foldlM flow a1 = some a2) (hk : flow a2 k = some a3) (hpost : post.foldlM flow a3 = some a4)
    (htgt : ∀ f taken tgt, sem k = .branch f taken tgt → tgt = pre.length)
    (hback : ∀ s m, γ a3 s m → γ a1 s m)
    (hno : ∀ j, j ∈ pre ∨ j ∈ body ∨ j ∈ post → ∀ f taken tgt, sem j ≠ .branch f taken tgt) :
    Checked sem γ flow (pre ++ (body ++ k :: post)) a0 := by
  have hfold : ∀ ys, (pre ++ ys).foldlM flow a0 = ys.foldlM flow a1 := fun ys => by
    rw [List.foldlM_append, hpre]
    rfl
  have hthrough : (body ++ [k]).foldlM flow a1 = some a3 := by
    rw [List.foldlM_append, hbody]
    change (flow a2 k >>= fun a => some a) = some a3
    rw [hk]
    rfl
  refine ⟨⟨a4, ?_⟩, fun b j f taken tgt a hj hsem ha => ?_⟩
  · rw [hfold, List.append_cons, List.foldlM_append, hthrough]
    exact hpost
  · have hjk : j = k := by
      by_contra hne
      refine hno j ?_ f taken tgt hsem
      have hmem := List.mem_of_getElem? hj
      simp only [List.mem_append, List.mem_cons] at hmem
      tauto
    subst hjk
    have htgt := htgt f taken tgt hsem
    -- `k` stands in one place only, since nothing else is a branch
    have hb : b = pre.length + body.length := by
      rcases Nat.lt_trichotomy b (pre.length + body.length) with hlt | rfl | hlt
      · exfalso
        rw [← List.append_assoc, List.getElem?_append_left (by simpa using hlt)] at hj
        have hmem := List.mem_append.1 (List.mem_of_getElem? hj)
        exact hno j (by tauto) f taken tgt hsem
      · rfl
      · exfalso
        obtain ⟨n, hn⟩ : ∃ n, b - (pre ++ body).length = n + 1 :=
          ⟨b - (pre ++ body).length - 1, by rw [List.length_append]; omega⟩
        rw [← List.append_assoc, List.getElem?_append_right (by simpa using hlt.le), hn, List.getElem?_cons_succ] at hj
        exact hno j (.inr (.inr (List.mem_of_getElem? hj))) f taken tgt hsem
    have htake : (pre ++ (body ++ j :: post)).take (b + 1) = pre ++ (body ++ [j]) := by
      rw [hb, List.append_cons, ← List.append_assoc pre, List.take_left' (by simp [Nat.add_assoc])]
    rw [htake, hfold, hthrough] at ha
    obtain rfl := Option.some.inj ha
    rw [htgt, List.take_left]
    exact ⟨a1, hpre, hback⟩

end

/-! ## Monotone flows -/

section
variable [Preorder α]

/-- A stronger description gets through where a weaker one does, and stays
stronger. -/
def Rising (flow : α → κ → Option α) : Prop :=
  ∀ a b k a', a ≤ b → flow a k = some a' → ∃ b', flow b k = some b' ∧ a' ≤ b'

/-- `flow` gets from `a` through the code to `a'` or better. -/
def Reaches (flow : α → κ → Option α) (a : α) (code : List κ) (a' : α) : Prop :=
  ∃ r, code.foldlM flow a = some r ∧ a' ≤ r

variable {flow : α → κ → Option α} {a b c top : α} {ks js : List κ}

theorem reaches_nil (h : b ≤ a) : Reaches flow a [] b := ⟨a, rfl, h⟩

theorem Reaches.mono (hm : Rising flow) (h : Reaches flow a ks c) (hab : a ≤ b) : Reaches flow b ks c := by
  obtain ⟨r, hr, hle⟩ := h
  induction ks generalizing a b with
  | nil =>
    obtain rfl := Option.some.inj hr
    exact reaches_nil (hle.trans hab)
  | cons k ks ih =>
    rw [List.foldlM_cons] at hr
    obtain ⟨a', ha', hr⟩ := Option.bind_eq_some_iff.1 hr
    obtain ⟨b', hb', hab'⟩ := hm a b k a' hab ha'
    obtain ⟨r', hr', hle'⟩ := ih hab' hr
    refine ⟨r', ?_, hle'⟩
    rw [List.foldlM_cons, hb']
    exact hr'

theorem Reaches.append (hm : Rising flow) (h : Reaches flow a ks b) (h' : Reaches flow b js c) :
    Reaches flow a (ks ++ js) c := by
  obtain ⟨r, hr, hle⟩ := h
  obtain ⟨r', hr', hle'⟩ := h'.mono hm hle
  refine ⟨r', ?_, hle'⟩
  rw [List.foldlM_append, hr]
  exact hr'

theorem foldlM_le (htop : ∀ a k a', flow a k = some a' → a' ≤ top) (ha : a ≤ top) (h : ks.foldlM flow a = some b) :
    b ≤ top := by
  induction ks generalizing a with
  | nil => rwa [← Option.some.inj h]
  | cons k ks ih =>
    rw [List.foldlM_cons] at h
    obtain ⟨a', ha', h⟩ := Option.bind_eq_some_iff.1 h
    exact ih (htop a k a' ha') h

/-- A single branch that reaches the strongest description, back to the end of
`pre`. -/
theorem checked_loop_top {sem : κ → Act σ ε} {γ : α → σ → μ → Prop} {pre body post : List κ} {k : κ} {a1 a2 a3 : α}
    (hm : Rising flow) (htop : ∀ a k a', flow a k = some a' → a' ≤ top) (hγ : ∀ a b s m, a ≤ b → γ b s m → γ a s m)
    (hpre : Reaches flow top pre a1) (hbody : Reaches flow a1 body a2) (hk : Reaches flow a2 [k] top)
    (hpost : Reaches flow top post a3) (htgt : ∀ f taken tgt, sem k = .branch f taken tgt → tgt = pre.length)
    (hno : ∀ j, j ∈ pre ∨ j ∈ body ∨ j ∈ post → ∀ f taken tgt, sem j ≠ .branch f taken tgt) :
    Checked sem γ flow (pre ++ (body ++ k :: post)) top := by
  obtain ⟨r1, h1, hle1⟩ := hpre
  obtain ⟨r2, h2, hle2⟩ := hbody.mono hm hle1
  obtain ⟨r3, h3, hle3⟩ := hk.mono hm hle2
  obtain ⟨r4, h4, -⟩ := hpost.mono hm hle3
  have hstep : flow r2 k = some r3 := by
    rw [← h3]
    exact (bind_pure _).symm
  exact checked_loop h1 h2 hstep h4 htgt (fun s m => hγ r1 r3 s m ((foldlM_le htop le_rfl h1).trans hle3)) hno

end

/-! ## Remembering every event -/

section
variable {R : ε → ε → Prop} [∀ x y, Decidable (R x y)]

/-- The events so far, last one first, as long as `R` holds between an earlier
one and a later one. -/
def record (R : ε → ε → Prop) [∀ x y, Decidable (R x y)] (m : List ε) (e : ε) : Option (List ε) :=
  if ∀ x ∈ m, R x e then some (e :: m) else none

theorem pairwise_of_record {m m' es : List ε} (h : es.foldlM (record R) m = some m') :
    es.Pairwise R ∧ ∀ x ∈ m, ∀ y ∈ es, R x y := by
  induction es generalizing m with
  | nil => exact ⟨.nil, by simp⟩
  | cons e es ih =>
    rw [List.foldlM_cons] at h
    obtain ⟨m1, h1, h⟩ := Option.bind_eq_some_iff.1 h
    rw [record, Option.ite_none_right_eq_some] at h1
    obtain ⟨he, h1⟩ := h1
    obtain rfl := Option.some.inj h1
    obtain ⟨hpair, hall⟩ := ih h
    refine ⟨List.pairwise_cons.2 ⟨hall e (by simp), hpair⟩, fun x hx y hy => ?_⟩
    rcases List.mem_cons.1 hy with rfl | hy
    · exact he x hx
    · exact hall x (by simp [hx]) y hy

end

end Machine
