import Mathlib
/-!
# News

What a reader of a log passes on, who drops the entries with a key already seen.
Over a log that only grows it does not matter how often it is read: the news of
the readings are the news of the whole (`news_grown`).
-/

namespace News

variable {α κ : Type} [DecidableEq κ] (key : α → κ)

/-- The entries with a new key, given the keys already seen. -/
def news (seen : List κ) : List α → List α
  | [] => []
  | x :: xs => if key x ∈ seen then news seen xs else x :: news (key x :: seen) xs

/-- The keys seen after a reading. -/
def seen_after (seen : List κ) (xs : List α) : List κ := ((news key seen xs).map key).reverse ++ seen

variable {key} {seen : List κ} {xs ys : List α}

theorem seen_after_cons_old {x : α} (h : key x ∈ seen) : seen_after key seen (x :: xs) = seen_after key seen xs := by
  rw [seen_after, news, if_pos h, seen_after]

theorem seen_after_cons_new {x : α} (h : key x ∉ seen) :
    seen_after key seen (x :: xs) = seen_after key (key x :: seen) xs := by
  rw [seen_after, news, if_neg h, seen_after, List.map_cons, List.reverse_cons, List.append_assoc]
  rfl

theorem news_append : news key seen (xs ++ ys) = news key seen xs ++ news key (seen_after key seen xs) ys := by
  induction xs generalizing seen with
  | nil => rfl
  | cons x xs ih =>
    rw [List.cons_append, news, news]
    by_cases h : key x ∈ seen
    · rw [if_pos h, if_pos h, seen_after_cons_old h, ih]
    · rw [if_neg h, if_neg h, seen_after_cons_new h, ih, List.cons_append]

theorem seen_after_append : seen_after key seen (xs ++ ys) = seen_after key (seen_after key seen xs) ys := by
  rw [seen_after, news_append, List.map_append, List.reverse_append, List.append_assoc]
  rfl

theorem mem_seen_after {k : κ} : k ∈ seen_after key seen xs ↔ k ∈ seen ∨ ∃ x ∈ xs, key x = k := by
  induction xs generalizing seen with
  | nil => simp [seen_after, news]
  | cons x xs ih =>
    by_cases h : key x ∈ seen
    · rw [seen_after_cons_old h, ih]
      constructor
      · rintro (hk | ⟨y, hy, rfl⟩)
        · exact .inl hk
        · exact .inr ⟨y, List.mem_cons_of_mem x hy, rfl⟩
      · rintro (hk | ⟨y, _ | ⟨_, hy⟩, rfl⟩)
        · exact .inl hk
        · exact .inl h
        · exact .inr ⟨y, hy, rfl⟩
    · rw [seen_after_cons_new h, ih, List.mem_cons]
      simp only [List.mem_cons, exists_eq_or_imp]
      tauto

/-- Where all is seen there are no news. -/
theorem news_eq_nil (h : ∀ x ∈ xs, key x ∈ seen) : news key seen xs = [] := by
  induction xs with
  | nil => rfl
  | cons x xs ih =>
    rw [news, if_pos (h x List.mem_cons_self)]
    exact ih fun y hy => h y (List.mem_cons_of_mem x hy)

/-- Reading a log again that has grown gives what is new in the part behind. -/
theorem news_grown : news key (seen_after key seen xs) (xs ++ ys) = news key (seen_after key seen xs) ys := by
  have hxs : news key (seen_after key seen xs) xs = [] := news_eq_nil fun x hx => mem_seen_after.2 (.inr ⟨x, hx, rfl⟩)
  rw [news_append, hxs, seen_after, hxs]
  rfl

theorem news_nodup (h : seen.Nodup) : (seen_after key seen xs).Nodup := by
  induction xs generalizing seen with
  | nil => exact h
  | cons x xs ih =>
    by_cases hx : key x ∈ seen
    · rw [seen_after_cons_old hx]
      exact ih h
    · rw [seen_after_cons_new hx]
      exact ih (List.nodup_cons.2 ⟨hx, h⟩)

end News
