import Mathlib
/-!
# Rebuilding a map entry by entry

A loop over a sorted map that writes one entry of another map for each entry it
visits. The written key and value may depend on both; writes to one key must
agree (`getElem?_rebuild_of`). A loop that stops at the first entry of a kind
finds the one with the least key (`of_find?_toList`). A loop that visits only the
entries of a kind sees the same in two maps that agree there (`filter_toList_congr`).
-/

namespace MapFold

open Std

variable {α β κ ν : Type} {cmp : α → α → Ordering} [TransCmp cmp] [LawfulEqCmp cmp]
variable {cmp' : κ → κ → Ordering} [TransCmp cmp'] [LawfulEqCmp cmp']

theorem getElem?_insert_ne {t : ExtTreeMap κ ν cmp'} {k c : κ} {v : ν} (h : k ≠ c) :
    (t.insert k v)[c]? = t[c]? := by
  rw [ExtTreeMap.getElem?_insert, if_neg]
  simpa using h

theorem getElem?_insertIfNew_self {t : ExtTreeMap κ ν cmp'} {k : κ} {v : ν} :
    (t.insertIfNew k v)[k]? = some (t.getD k v) := by
  rw [ExtTreeMap.getElem?_insertIfNew, ExtTreeMap.getD_eq_getD_getElem?]
  by_cases h : k ∈ t
  · rw [if_neg fun h' => h'.2 h, ExtTreeMap.getElem?_eq_some_getElem h]
    rfl
  · rw [if_pos ⟨ReflCmp.compare_self, h⟩, ExtTreeMap.getElem?_eq_none h]
    rfl

theorem getElem?_insertIfNew_ne {t : ExtTreeMap κ ν cmp'} {k c : κ} {v : ν} (h : k ≠ c) :
    (t.insertIfNew k v)[c]? = t[c]? := by
  rw [ExtTreeMap.getElem?_insertIfNew, if_neg]
  rintro ⟨h', -⟩
  exact h (LawfulEqCmp.eq_of_compare h')

section Lists
variable {ι : Type} (k : ι → κ) (v : ι → ν)

theorem getElem?_foldl_insert_of_not {l : List ι} {c : κ} (h : ∀ x ∈ l, k x ≠ c) (acc : ExtTreeMap κ ν cmp') :
    (l.foldl (fun acc x => acc.insert (k x) (v x)) acc)[c]? = acc[c]? := by
  induction l generalizing acc with
  | nil => rfl
  | cons x l ih =>
    rw [List.foldl_cons, ih (fun y hy => h y (by simp [hy])), getElem?_insert_ne (h x (by simp))]

/-- Of the entries written to a key the last one stays. -/
theorem getElem?_foldl_insert (l : List ι) (c : κ) (acc : ExtTreeMap κ ν cmp') [DecidableEq κ] :
    (l.foldl (fun acc x => acc.insert (k x) (v x)) acc)[c]? = ((l.reverse.find? fun x => k x = c).map v).or acc[c]? := by
  induction l generalizing acc with
  | nil => rfl
  | cons x l ih =>
    rw [List.foldl_cons, ih, List.reverse_cons, List.find?_append, List.find?_singleton]
    cases l.reverse.find? fun x => k x = c with
    | some y => rfl
    | none =>
      by_cases h : k x = c
      · rw [h]
        simp
      · rw [getElem?_insert_ne h]
        simp [h]

theorem getElem?_foldl_insert_of {l : List ι} (hkv : ∀ x ∈ l, ∀ y ∈ l, k x = k y → v x = v y) {x : ι}
    (hx : x ∈ l) (acc : ExtTreeMap κ ν cmp') :
    (l.foldl (fun acc x => acc.insert (k x) (v x)) acc)[k x]? = some (v x) := by
  induction l generalizing acc x with
  | nil => cases hx
  | cons y l ih =>
    have hl : ∀ a ∈ l, ∀ b ∈ l, k a = k b → v a = v b :=
      fun a ha b hb => hkv a (by simp [ha]) b (by simp [hb])
    rw [List.foldl_cons]
    by_cases hxl : x ∈ l
    · exact ih hl hxl _
    · obtain rfl : x = y := by simpa [hxl] using hx
      by_cases hk : ∃ z ∈ l, k z = k x
      · obtain ⟨z, hz, hzx⟩ := hk
        rw [← hzx, ih hl hz, hkv z (by simp [hz]) x (by simp) hzx]
      · rw [getElem?_foldl_insert_of_not k v (fun z hz hzx => hk ⟨z, hz, hzx⟩), ExtTreeMap.getElem?_insert_self]

end Lists

/-- The map a loop over `m` rebuilds, starting from `acc`. -/
def rebuild (m : ExtTreeMap α β cmp) (k : α → β → κ) (v : α → β → ν) (acc : ExtTreeMap κ ν cmp') :
    ExtTreeMap κ ν cmp' :=
  m.foldl (fun acc a b => acc.insert (k a b) (v a b)) acc

section
variable {m : ExtTreeMap α β cmp} {k : α → β → κ} {v : α → β → ν} {acc : ExtTreeMap κ ν cmp'}

theorem getElem?_rebuild_of_not {c : κ} (h : ∀ a b, m[a]? = some b → k a b ≠ c) :
    (rebuild m k v acc)[c]? = acc[c]? := by
  rw [rebuild, ExtTreeMap.foldl_eq_foldl_toList]
  apply getElem?_foldl_insert_of_not (fun x : α × β => k x.1 x.2) (fun x => v x.1 x.2)
  rintro ⟨a, b⟩ hx
  exact h a b (ExtTreeMap.mem_toList_iff_getElem?_eq_some.1 hx)

theorem getElem?_rebuild_of
    (hkv : ∀ a b a' b', m[a]? = some b → m[a']? = some b' → k a b = k a' b' → v a b = v a' b')
    {a : α} {b : β} (h : m[a]? = some b) : (rebuild m k v acc)[k a b]? = some (v a b) := by
  rw [rebuild, ExtTreeMap.foldl_eq_foldl_toList]
  refine getElem?_foldl_insert_of (fun x : α × β => k x.1 x.2) (fun x => v x.1 x.2) ?_
    (x := (a, b)) (ExtTreeMap.mem_toList_iff_getElem?_eq_some.2 h) acc
  rintro ⟨a, b⟩ hx ⟨a', b'⟩ hy
  exact hkv a b a' b' (ExtTreeMap.mem_toList_iff_getElem?_eq_some.1 hx)
    (ExtTreeMap.mem_toList_iff_getElem?_eq_some.1 hy)

theorem of_getElem?_rebuild
    (hkv : ∀ a b a' b', m[a]? = some b → m[a']? = some b' → k a b = k a' b' → v a b = v a' b') {c : κ} {d : ν}
    (h : (rebuild m k v acc)[c]? = some d) :
    (∃ a b, m[a]? = some b ∧ k a b = c ∧ v a b = d) ∨
      acc[c]? = some d ∧ ∀ a b, m[a]? = some b → k a b ≠ c := by
  -- either an entry was written to `c`, or `acc` shows through
  by_cases hc : ∃ a b, m[a]? = some b ∧ k a b = c
  · obtain ⟨a, b, hab, rfl⟩ := hc
    rw [getElem?_rebuild_of hkv hab] at h
    exact .inl ⟨a, b, hab, rfl, Option.some.inj h⟩
  · have hno : ∀ a b, m[a]? = some b → k a b ≠ c := fun a b hab hk => hc ⟨a, b, hab, hk⟩
    rw [getElem?_rebuild_of_not hno] at h
    exact .inr ⟨h, hno⟩

theorem getElem?_rebuild_iff
    (hkv : ∀ a b a' b', m[a]? = some b → m[a']? = some b' → k a b = k a' b' → v a b = v a' b') {c : κ} {d : ν} :
    (rebuild m k v ∅ : ExtTreeMap κ ν cmp')[c]? = some d ↔ ∃ a b, m[a]? = some b ∧ k a b = c ∧ v a b = d := by
  constructor
  · intro h
    rcases of_getElem?_rebuild hkv h with h | ⟨h, -⟩
    · exact h
    · rw [ExtTreeMap.getElem?_empty] at h
      cases h
  · rintro ⟨a, b, hab, rfl, rfl⟩
    exact getElem?_rebuild_of hkv hab

end

/-- Inserting all entries of a map into the empty one gives the map. -/
theorem foldl_insert_toList (m : ExtTreeMap α β cmp) :
    m.toList.foldl (fun (acc : ExtTreeMap α β cmp) x => acc.insert x.1 x.2) ∅ = m := by
  rw [← ExtTreeMap.foldl_eq_foldl_toList (f := fun (acc : ExtTreeMap α β cmp) a b => acc.insert a b)]
  change rebuild m (fun a _ => a) (fun _ b => b) ∅ = m
  refine ExtTreeMap.ext_getElem? fun a => Option.ext fun b => ?_
  rw [getElem?_rebuild_iff fun a b a' b' ha ha' (e : a = a') => ?_]
  · simp
  · subst e
    exact Option.some.inj (ha.symm.trans ha')

/-! ## The first entry -/

theorem of_find?_toList {m : ExtTreeMap α β cmp} {p : α → Bool} {a : α} {b : β}
    (h : (m.toList.find? fun x => p x.1) = some (a, b)) :
    m[a]? = some b ∧ p a = true ∧ ∀ a' b', m[a']? = some b' → p a' = true → (cmp a a').isLE := by
  obtain ⟨hp, pre, post, hl, hpre⟩ := List.find?_eq_some_iff_append.1 h
  refine ⟨?_, hp, fun a' b' hb' hp' => ?_⟩
  · rw [← ExtTreeMap.mem_toList_iff_getElem?_eq_some, hl]
    simp
  · have hmem := ExtTreeMap.mem_toList_iff_getElem?_eq_some.2 hb'
    have hordered := ExtTreeMap.ordered_keys_toList (t := m)
    rw [hl] at hmem hordered
    rcases List.mem_append.1 hmem with hmem | hmem
    · -- nothing in front of the entry found has the property
      have hno := hpre _ hmem
      rw [hp'] at hno
      cases hno
    · rcases List.mem_cons.1 hmem with he | hmem
      · cases he
        have hself : cmp a a = .eq := ReflCmp.compare_self
        rw [hself]
        rfl
      · rw [List.rel_of_pairwise_cons (List.pairwise_append.1 hordered).2.1 hmem]
        rfl

theorem of_find?_toList_none {m : ExtTreeMap α β cmp} {p : α → Bool} (h : (m.toList.find? fun x => p x.1) = none) {a : α}
    {b : β} (hb : m[a]? = some b) : p a = false :=
  Bool.eq_false_of_not_eq_true (List.find?_eq_none.1 h (a, b) (ExtTreeMap.mem_toList_iff_getElem?_eq_some.2 hb))

/-! ## The lookup function of a map, entry by entry -/

theorem keys_distinct (m : ExtTreeMap α β cmp) : m.toList.Pairwise fun a b => a.1 ≠ b.1 := by
  refine ExtTreeMap.distinct_keys_toList.imp fun h e => h ?_
  rw [e]
  exact ReflCmp.compare_self

section Lookup
variable [DecidableEq α]

/-- `f` with the entries of `l` written over it. -/
def overwrite (f : α → Option β) (l : List (α × β)) : α → Option β :=
  l.foldl (fun f x => Function.update f x.1 (some x.2)) f

theorem overwrite_of_not {l : List (α × β)} {c : α} (h : ∀ x ∈ l, x.1 ≠ c) (f : α → Option β) :
    overwrite f l c = f c := by
  induction l generalizing f with
  | nil => rfl
  | cons x l ih =>
    rw [overwrite, List.foldl_cons, ← overwrite, ih fun y hy => h y (by simp [hy])]
    exact Function.update_of_ne (h x (by simp)).symm _ _

theorem overwrite_of {l : List (α × β)} (hl : l.Pairwise fun a b => a.1 ≠ b.1) {a : α} {b : β}
    (h : (a, b) ∈ l) (f : α → Option β) : overwrite f l a = some b := by
  induction l generalizing f with
  | nil => cases h
  | cons x l ih =>
    rw [List.pairwise_cons] at hl
    rw [overwrite, List.foldl_cons, ← overwrite]
    rcases List.mem_cons.1 h with rfl | h
    · rw [overwrite_of_not fun y hy => (hl.1 y hy).symm]
      exact Function.update_self _ _ _
    · exact ih hl.2 h _

/-- Writing all entries of a map over nothing gives its lookup function. -/
theorem overwrite_toList (m : ExtTreeMap α β cmp) : overwrite (fun _ => none) m.toList = fun a => m[a]? := by
  funext a
  cases h : m[a]? with
  | none =>
    refine overwrite_of_not ?_ _
    rintro ⟨a', b⟩ hx rfl
    rw [ExtTreeMap.mem_toList_iff_getElem?_eq_some.1 hx] at h
    cases h
  | some b => exact overwrite_of (keys_distinct m) (ExtTreeMap.mem_toList_iff_getElem?_eq_some.2 h) _

end Lookup

/-! ## Entries picked from a map -/

theorem nodup_toList (m : ExtTreeMap α β cmp) : m.toList.Nodup := (keys_distinct m).imp fun h e => h (congrArg Prod.fst e)

/-- The entries of a kind, in order, depend only on which they are. -/
theorem filter_toList_congr {m m' : ExtTreeMap α β cmp} {p : α × β → Bool}
    (h : ∀ a b, p (a, b) = true → (m[a]? = some b ↔ m'[a]? = some b)) : m.toList.filter p = m'.toList.filter p := by
  have hperm : (m.toList.filter p).Perm (m'.toList.filter p) := by
    refine (List.perm_ext_iff_of_nodup ((nodup_toList m).filter p) ((nodup_toList m').filter p)).2 ?_
    rintro ⟨a, b⟩
    rw [List.mem_filter, List.mem_filter, ExtTreeMap.mem_toList_iff_getElem?_eq_some, ExtTreeMap.mem_toList_iff_getElem?_eq_some]
    exact and_congr_left (h a b)
  have hordered : ∀ m : ExtTreeMap α β cmp, (m.toList.filter p).Pairwise fun x y => cmp x.1 y.1 = .lt :=
    fun m => ExtTreeMap.ordered_keys_toList.filter p
  refine hperm.eq_of_pairwise (fun x y _ _ hxy hyx => ?_) (hordered m) (hordered m')
  exact absurd hyx (OrientedCmp.not_lt_of_lt hxy)

theorem filter_key_toList [DecidableEq α] (m : ExtTreeMap α β cmp) (a : α) :
    m.toList.filter (fun x => x.1 = a) = (m[a]?.map fun b => (a, b)).toList := by
  cases h : m[a]? with
  | none =>
    refine List.filter_eq_nil_iff.2 ?_
    rintro ⟨a', b⟩ hx hkey
    obtain rfl := of_decide_eq_true hkey
    rw [ExtTreeMap.mem_toList_iff_getElem?_eq_some.1 hx] at h
    cases h
  | some b =>
    refine List.perm_singleton.1 ((List.perm_ext_iff_of_nodup ((nodup_toList m).filter _) (List.nodup_singleton _)).2 ?_)
    rintro ⟨a', b'⟩
    rw [List.mem_filter, ExtTreeMap.mem_toList_iff_getElem?_eq_some, decide_eq_true_eq, List.mem_singleton, Prod.mk.injEq]
    constructor
    · rintro ⟨hb, rfl⟩
      exact ⟨rfl, Option.some.inj (hb.symm.trans h)⟩
    · rintro ⟨rfl, rfl⟩
      exact ⟨h, rfl⟩

end MapFold
