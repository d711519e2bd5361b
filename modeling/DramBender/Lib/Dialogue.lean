import Mathlib
/-!
# Dialogues

A program that asks its surroundings questions and goes on with the answers. What
it asks and how it ends does not depend on who answers (`Talk`); who answers is a
relation on states (`Answered`).
-/

/-- A program that asks questions of type `Q`. -/
inductive Dialogue (Q A α : Type) where
  | done (a : α)
  | fail
  | ask (q : Q) (next : A → Dialogue Q A α)

namespace Dialogue

variable {Q A α β ι σ : Type}

def bind : Dialogue Q A α → (α → Dialogue Q A β) → Dialogue Q A β
  | done a, f => f a
  | fail, _ => fail
  | ask q next, f => ask q fun a => (next a).bind f

theorem bind_bind {γ : Type} (d : Dialogue Q A α) (f : α → Dialogue Q A β) (g : β → Dialogue Q A γ) :
    (d.bind f).bind g = d.bind fun a => (f a).bind g := by
  induction d with
  | done a => rfl
  | fail => rfl
  | ask q next ih => exact congrArg (ask q) (funext ih)

/-- `for x in xs`, with a state. -/
def loop (body : ι → β → Dialogue Q A β) : List ι → β → Dialogue Q A β
  | [], b => done b
  | x :: xs, b => (body x b).bind (loop body xs)

/-- The dialogue with these answers is over, and this is its result. -/
inductive Talk : Dialogue Q A α → List (Q × A) → α → Prop
  | done (a : α) : Talk (.done a) [] a
  | ask {q : Q} {next : A → Dialogue Q A α} {a : A} {log : List (Q × A)} {r : α} (h : Talk (next a) log r) :
    Talk (.ask q next) ((q, a) :: log) r

/-- The answers come from these states, one after the other. -/
inductive Answered (env : σ → Q → A → σ → Prop) : σ → List (Q × A) → σ → Prop
  | nil (s : σ) : Answered env s [] s
  | cons {s s1 s2 : σ} {q : Q} {a : A} {log : List (Q × A)} (h : env s q a s1) (hs : Answered env s1 log s2) :
    Answered env s ((q, a) :: log) s2

/-- The dialogue does not fail and asks nothing but these questions. -/
inductive Asks (P : Q → Prop) : Dialogue Q A α → Prop
  | done (a : α) : Asks P (.done a)
  | ask {q : Q} {next : A → Dialogue Q A α} (hq : P q) (h : ∀ a, Asks P (next a)) : Asks P (.ask q next)

/-! ## What is asked -/

@[simp] theorem talk_done {a r : α} {log : List (Q × A)} : Talk (.done a) log r ↔ log = [] ∧ r = a := by
  constructor
  · intro h
    cases h
    exact ⟨rfl, rfl⟩
  · rintro ⟨rfl, rfl⟩
    exact .done _

@[simp] theorem not_talk_fail {r : α} {log : List (Q × A)} : ¬ Talk .fail log r := by
  intro h
  cases h

@[simp] theorem talk_ask {q : Q} {next : A → Dialogue Q A α} {log : List (Q × A)} {r : α} :
    Talk (.ask q next) log r ↔ ∃ a log', log = (q, a) :: log' ∧ Talk (next a) log' r := by
  constructor
  · intro h
    cases h with
    | ask h => exact ⟨_, _, rfl, h⟩
  · rintro ⟨a, log', rfl, h⟩
    exact .ask h

theorem talk_bind {d : Dialogue Q A α} {f : α → Dialogue Q A β} {log : List (Q × A)} {r : β} :
    Talk (d.bind f) log r ↔ ∃ log1 a log2, Talk d log1 a ∧ Talk (f a) log2 r ∧ log = log1 ++ log2 := by
  induction d generalizing log with
  | done a => simp [bind]
  | fail => simp [bind]
  | ask q next ih =>
    rw [bind, talk_ask]
    constructor
    · rintro ⟨a, log', rfl, h⟩
      obtain ⟨log1, b, log2, h1, h2, rfl⟩ := (ih a).1 h
      exact ⟨(q, a) :: log1, b, log2, .ask h1, h2, rfl⟩
    · rintro ⟨log1, b, log2, h1, h2, rfl⟩
      obtain ⟨a, log', rfl, h⟩ := talk_ask.1 h1
      exact ⟨a, log' ++ log2, rfl, (ih a).2 ⟨log', b, log2, h, h2, rfl⟩⟩

theorem loop_append (body : ι → β → Dialogue Q A β) (xs ys : List ι) (b : β) :
    loop body (xs ++ ys) b = (loop body xs b).bind (loop body ys) := by
  induction xs generalizing b with
  | nil => rfl
  | cons x xs ih =>
    rw [List.cons_append, loop, loop, bind_bind]
    exact congrArg _ (funext ih)

/-- Loops inside a loop are one loop. -/
theorem loop_flatMap {κ : Type} (body : ι → β → Dialogue Q A β) (f : κ → List ι) (xs : List κ) (b : β) :
    loop body (xs.flatMap f) b = loop (fun x => loop body (f x)) xs b := by
  induction xs generalizing b with
  | nil => rfl
  | cons x xs ih =>
    rw [List.flatMap_cons, loop_append, loop]
    exact congrArg _ (funext ih)

theorem loop_map {κ : Type} (body : ι → β → Dialogue Q A β) (f : κ → ι) (xs : List κ) (b : β) :
    loop body (xs.map f) b = loop (fun x => body (f x)) xs b := by
  induction xs generalizing b with
  | nil => rfl
  | cons x xs ih =>
    rw [List.map_cons, loop, loop]
    exact congrArg _ (funext ih)

/-- The passes of a loop, with what each of them brought. -/
theorem talk_loop {κ : Type} {body : ι → β → Dialogue Q A β} (Pass : ι → κ → Prop) (asked : ι → κ → List (Q × A))
    (after : β → ι → κ → β) {xs : List ι}
    (hbody : ∀ x ∈ xs, ∀ b log r, Talk (body x b) log r ↔ ∃ k, Pass x k ∧ log = asked x k ∧ r = after b x k)
    (b : β) (log : List (Q × A)) (r : β) :
    Talk (loop body xs b) log r ↔ ∃ passes : List (ι × κ), passes.map Prod.fst = xs ∧ (∀ p ∈ passes, Pass p.1 p.2) ∧
      log = passes.flatMap (fun p => asked p.1 p.2) ∧ r = passes.foldl (fun b p => after b p.1 p.2) b := by
  induction xs generalizing b log with
  | nil =>
    rw [loop, talk_done]
    constructor
    · rintro ⟨rfl, rfl⟩
      exact ⟨[], rfl, by simp, rfl, rfl⟩
    · rintro ⟨passes, hpasses, -, rfl, rfl⟩
      obtain rfl := List.map_eq_nil_iff.1 hpasses
      exact ⟨rfl, rfl⟩
  | cons x xs ih =>
    replace ih := ih fun y hy => hbody y (List.mem_cons_of_mem _ hy)
    rw [loop, talk_bind]
    constructor
    · rintro ⟨log1, b1, log2, h1, h2, rfl⟩
      obtain ⟨k, hpass, rfl, rfl⟩ := (hbody x List.mem_cons_self b log1 b1).1 h1
      obtain ⟨passes, rfl, hall, rfl, rfl⟩ := (ih _ _).1 h2
      exact ⟨(x, k) :: passes, rfl, List.forall_mem_cons.2 ⟨hpass, hall⟩, rfl, rfl⟩
    · rintro ⟨passes, hpasses, hall, rfl, rfl⟩
      obtain ⟨⟨y, k⟩, rest, rfl, rfl, hrest⟩ := List.map_eq_cons_iff.1 hpasses
      obtain ⟨hpass, hall⟩ := List.forall_mem_cons.1 hall
      exact ⟨asked y k, after b y k, _, (hbody y List.mem_cons_self _ _ _).2 ⟨k, hpass, rfl, rfl⟩,
        (ih _ _).2 ⟨rest, hrest, hall, rfl, rfl⟩, rfl⟩

/-- A loop that collects what its passes bring. -/
theorem talk_collect {κ γ : Type} {body : ι → List γ → Dialogue Q A (List γ)} {Pass : ι → κ → Prop}
    {asked : ι → κ → List (Q × A)} {found : ι → κ → List γ} {xs : List ι}
    (hbody : ∀ x ∈ xs, ∀ bs log r, Talk (body x bs) log r ↔ ∃ k, Pass x k ∧ log = asked x k ∧ r = bs ++ found x k)
    (log : List (Q × A)) (r : List γ) :
    Talk (loop body xs []) log r ↔ ∃ passes : List (ι × κ), passes.map Prod.fst = xs ∧ (∀ p ∈ passes, Pass p.1 p.2) ∧
      log = passes.flatMap (fun p => asked p.1 p.2) ∧ r = passes.flatMap fun p => found p.1 p.2 := by
  have hcollect : ∀ passes : List (ι × κ), passes.foldl (fun bs p => bs ++ found p.1 p.2) [] = passes.flatMap fun p => found p.1 p.2 := by
    intro passes
    rw [List.foldl_append_eq_append]
    rfl
  rw [talk_loop Pass asked (fun bs x k => bs ++ found x k) hbody]
  simp only [hcollect]

/-! ## Searches -/

/-- A list is tried from its front until there is a hit. -/
structure Searched (xs : List ι) (Hit : A → Prop) (tries : List (ι × A)) : Prop where
  front : tries.map Prod.fst <+: xs
  misses : ∀ t ∈ tries.dropLast, ¬ Hit t.2
  all : (∀ t ∈ tries, ¬ Hit t.2) → tries.map Prod.fst = xs

theorem searched_nil {Hit : A → Prop} {tries : List (ι × A)} : Searched [] Hit tries ↔ tries = [] := by
  constructor
  · intro h
    exact List.map_eq_nil_iff.1 (List.prefix_nil.1 h.front)
  · rintro rfl
    exact ⟨List.prefix_rfl, by simp, fun _ => rfl⟩

theorem searched_cons {x : ι} {xs : List ι} {Hit : A → Prop} {tries : List (ι × A)} :
    Searched (x :: xs) Hit tries ↔
      ∃ a tries', tries = (x, a) :: tries' ∧ (Hit a → tries' = []) ∧ (¬ Hit a → Searched xs Hit tries') := by
  constructor
  · intro h
    cases tries with
    | nil => cases h.all (by simp)
    | cons t tries' =>
      obtain ⟨y, a⟩ := t
      obtain ⟨rfl, hfront⟩ := List.cons_prefix_cons.1 h.front
      refine ⟨a, tries', rfl, fun hit => ?_, fun miss => ⟨hfront, fun t ht => ?_, fun hall => ?_⟩⟩
      · by_contra hne
        exact h.misses (y, a) (by rw [List.dropLast_cons_of_ne_nil hne]; exact List.mem_cons_self) hit
      · have hne : tries' ≠ [] := by
          rintro rfl
          cases ht
        exact h.misses t (by rw [List.dropLast_cons_of_ne_nil hne]; exact List.mem_cons_of_mem _ ht)
      · refine (List.cons.inj (h.all ?_)).2
        rintro t (_ | ⟨_, ht⟩)
        · exact miss
        · exact hall t ht
  · rintro ⟨a, tries', rfl, hhit, hmiss⟩
    by_cases hit : Hit a
    · obtain rfl := hhit hit
      exact ⟨by simp, by simp, fun hall => absurd hit (hall _ List.mem_cons_self)⟩
    · obtain ⟨hfront, hmisses, hall⟩ := hmiss hit
      refine ⟨List.cons_prefix_cons.2 ⟨rfl, hfront⟩, fun t ht => ?_, fun h => ?_⟩
      · rcases List.eq_nil_or_concat tries' with rfl | ⟨init, last, rfl⟩
        · cases ht
        · rw [List.dropLast_cons_of_ne_nil (by simp)] at ht
          rcases List.mem_cons.1 ht with rfl | ht
          · exact hit
          · exact hmisses t ht
      · rw [List.map_cons, hall fun t ht => h t (List.mem_cons_of_mem _ ht)]

/-- A search asks one question for each try. -/
theorem talk_search {ask : ι → Q} {Hit : A → Prop} [DecidablePred Hit] {note : ι → A → List β}
    (search : List ι → List β → Dialogue Q A (List β)) (hnil : ∀ bs, search [] bs = done bs)
    (hcons : ∀ x xs bs, search (x :: xs) bs = .ask (ask x) fun a =>
      if Hit a then done (bs ++ note x a) else search xs (bs ++ note x a))
    (xs : List ι) (bs : List β) (log : List (Q × A)) (r : List β) :
    Talk (search xs bs) log r ↔ ∃ tries, Searched xs Hit tries ∧ log = tries.map (fun t => (ask t.1, t.2)) ∧
      r = bs ++ tries.flatMap fun t => note t.1 t.2 := by
  induction xs generalizing bs log with
  | nil => simp [hnil, searched_nil]
  | cons x xs ih =>
    rw [hcons, talk_ask]
    constructor
    · rintro ⟨a, log', rfl, h⟩
      by_cases hit : Hit a
      · rw [if_pos hit, talk_done] at h
        obtain ⟨rfl, rfl⟩ := h
        exact ⟨[(x, a)], searched_cons.2 ⟨a, [], rfl, fun _ => rfl, fun hm => absurd hit hm⟩, rfl, by simp⟩
      · rw [if_neg hit] at h
        obtain ⟨tries, hs, rfl, rfl⟩ := (ih _ _).1 h
        refine ⟨(x, a) :: tries, searched_cons.2 ⟨a, tries, rfl, fun h => absurd h hit, fun _ => hs⟩, rfl, ?_⟩
        rw [List.flatMap_cons, List.append_assoc]
    · rintro ⟨tries, hs, rfl, rfl⟩
      obtain ⟨a, tries', rfl, hhit, hmiss⟩ := searched_cons.1 hs
      refine ⟨a, tries'.map (fun t => (ask t.1, t.2)), rfl, ?_⟩
      by_cases hit : Hit a
      · obtain rfl := hhit hit
        rw [if_pos hit, talk_done]
        exact ⟨rfl, by simp⟩
      · rw [if_neg hit]
        refine (ih _ _).2 ⟨tries', hmiss hit, rfl, ?_⟩
        rw [List.flatMap_cons, List.append_assoc]

/-! ## Who answers -/

/-- What every answer keeps to. -/
theorem Answered.mono {env env' : σ → Q → A → σ → Prop} {P : Q → Prop} (henv : ∀ s q a s', P q → env s q a s' → env' s q a s')
    {s s' : σ} {log : List (Q × A)} (hP : ∀ x ∈ log, P x.1) (h : Answered env s log s') : Answered env' s log s' := by
  induction h with
  | nil s => exact .nil s
  | cons h hs ih =>
    exact .cons (henv _ _ _ _ (hP _ List.mem_cons_self) h) (ih fun x hx => hP x (List.mem_cons_of_mem _ hx))

theorem Asks.bind {P : Q → Prop} {d : Dialogue Q A α} {f : α → Dialogue Q A β} (hd : Asks P d) (hf : ∀ a, Asks P (f a)) :
    Asks P (d.bind f) := by
  induction hd with
  | done a => exact hf a
  | ask hq h ih => exact .ask hq ih

theorem Asks.loop {P : Q → Prop} {body : ι → β → Dialogue Q A β} {xs : List ι} (h : ∀ x ∈ xs, ∀ b, Asks P (body x b)) (b : β) :
    Asks P (loop body xs b) := by
  induction xs generalizing b with
  | nil => exact .done b
  | cons x xs ih => exact (h x List.mem_cons_self b).bind (ih fun y hy => h y (List.mem_cons_of_mem _ hy))

theorem Asks.of_talk {P : Q → Prop} {d : Dialogue Q A α} (hd : Asks P d) {log : List (Q × A)} {r : α} (h : Talk d log r) :
    ∀ x ∈ log, P x.1 := by
  induction h with
  | done a => simp
  | ask h ih =>
    cases hd with
    | ask hq hd =>
      rintro x (_ | ⟨_, hx⟩)
      · exact hq
      · exact ih (hd _) x hx

/-- Who answers all the questions of a dialogue gets to its end. -/
theorem exists_talk {env : σ → Q → A → σ → Prop} {P : Q → Prop} (henv : ∀ s q, P q → ∃ a s', env s q a s')
    {d : Dialogue Q A α} (hd : Asks P d) (s : σ) : ∃ log r s', Talk d log r ∧ Answered env s log s' := by
  induction hd generalizing s with
  | done a => exact ⟨[], a, s, .done a, .nil s⟩
  | @ask q next hq h ih =>
    obtain ⟨a, s1, ha⟩ := henv s q hq
    obtain ⟨log, r, s', ht, hl⟩ := ih a s1
    exact ⟨(q, a) :: log, r, s', .ask ht, .cons ha hl⟩

end Dialogue
