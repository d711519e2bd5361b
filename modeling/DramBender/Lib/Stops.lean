import Mathlib
/-!
# Lists cut at stops

A list made of blocks, each ended by an element of a kind that does not occur
within a block, has only one such reading (`flatMap_block_inj`). Words joined by a
separator are the case of one such element (`intercalate_inj`).
-/

namespace Stops

variable {α : Type} {P : α → Prop}

theorem append_cons_inj {l l' r r' : List α} {a a' : α} (hl : ∀ x ∈ l, P x) (hl' : ∀ x ∈ l', P x) (ha : ¬ P a) (ha' : ¬ P a')
    (h : l ++ a :: r = l' ++ a' :: r') : l = l' ∧ a = a' ∧ r = r' := by
  induction l generalizing l' with
  | nil =>
    cases l' with
    | nil =>
      obtain ⟨rfl, rfl⟩ := List.cons.inj h
      exact ⟨rfl, rfl, rfl⟩
    | cons x l' =>
      obtain ⟨rfl, -⟩ := List.cons.inj h
      exact absurd (hl' _ List.mem_cons_self) ha
  | cons x l ih =>
    cases l' with
    | nil =>
      obtain ⟨rfl, -⟩ := List.cons.inj h
      exact absurd (hl _ List.mem_cons_self) ha'
    | cons y l' =>
      obtain ⟨rfl, htail⟩ := List.cons.inj h
      obtain ⟨rfl, rfl, rfl⟩ := ih (fun z hz => hl z (List.mem_cons_of_mem _ hz)) (fun z hz => hl' z (List.mem_cons_of_mem _ hz)) htail
      exact ⟨rfl, rfl, rfl⟩

/-- A block: what stands before its stop, and the stop. -/
def Stopped (P : α → Prop) (b : List α × α) : Prop := (∀ x ∈ b.1, P x) ∧ ¬ P b.2

theorem flatMap_block_inj {bs bs' : List (List α × α)} (hbs : ∀ b ∈ bs, Stopped P b) (hbs' : ∀ b ∈ bs', Stopped P b)
    (h : bs.flatMap (fun b => b.1 ++ [b.2]) = bs'.flatMap fun b => b.1 ++ [b.2]) : bs = bs' := by
  induction bs generalizing bs' with
  | nil =>
    cases bs' with
    | nil => rfl
    | cons b' bs' => simp at h
  | cons b bs ih =>
    cases bs' with
    | nil => simp at h
    | cons b' bs' =>
      obtain ⟨hb, hstop⟩ := hbs b List.mem_cons_self
      obtain ⟨hb', hstop'⟩ := hbs' b' List.mem_cons_self
      rw [List.flatMap_cons, List.flatMap_cons, List.append_assoc, List.append_assoc] at h
      obtain ⟨h1, h2, h3⟩ := append_cons_inj hb hb' hstop hstop' h
      rw [Prod.ext h1 h2, ih (fun x hx => hbs x (List.mem_cons_of_mem _ hx)) (fun x hx => hbs' x (List.mem_cons_of_mem _ hx)) h3]

/-! ## Words and separators -/

section
variable {c : α} {ws ws' : List (List α)}

theorem intercalate_append (hne : ws ≠ []) : [c].intercalate ws ++ [c] = ws.flatMap fun w => w ++ [c] := by
  induction ws with
  | nil => exact absurd rfl hne
  | cons w ws ih =>
    cases ws with
    | nil => simp
    | cons w' ws =>
      rw [List.intercalate_cons_cons, List.append_assoc, List.append_assoc, ih (by simp)]
      simp

theorem intercalate_inj (hne : ws ≠ []) (hne' : ws' ≠ []) (hws : ∀ w ∈ ws, c ∉ w) (hws' : ∀ w ∈ ws', c ∉ w)
    (h : [c].intercalate ws = [c].intercalate ws') : ws = ws' := by
  have hblock : ∀ {ws : List (List α)}, (∀ w ∈ ws, c ∉ w) → ∀ b ∈ ws.map (·, c), Stopped (· ≠ c) b := by
    intro ws hws b hb
    obtain ⟨w, hw, rfl⟩ := List.mem_map.1 hb
    exact ⟨fun x hx he => hws w hw (he ▸ hx), fun hcc => hcc rfl⟩
  have hjoin := congrArg (· ++ [c]) h
  simp only [intercalate_append hne, intercalate_append hne'] at hjoin
  have hmap := flatMap_block_inj (hblock hws) (hblock hws') (by simpa only [List.flatMap_map] using hjoin)
  have hfst := congrArg (List.map Prod.fst) hmap
  rwa [List.map_map, List.map_map, List.map_congr_left (g := id), List.map_id, List.map_congr_left (g := id), List.map_id] at hfst
  all_goals
    intro w _
    rfl

theorem mem_intercalate {x : α} (h : x ∈ [c].intercalate ws) : x = c ∨ ∃ w ∈ ws, x ∈ w := by
  by_cases hne : ws = []
  · rw [hne] at h
    cases h
  · have hx : x ∈ [c].intercalate ws ++ [c] := List.mem_append_left _ h
    rw [intercalate_append hne, List.mem_flatMap] at hx
    obtain ⟨w, hw, hx⟩ := hx
    rcases List.mem_append.1 hx with hx | hx
    · exact .inr ⟨w, hw, hx⟩
    · exact .inl (List.mem_singleton.1 hx)

end

end Stops
