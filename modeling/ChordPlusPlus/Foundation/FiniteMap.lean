import Mathlib.Data.List.AList

/-!
# Bulk operations on finite maps

`FiniteMap α β` is Mathlib's association list with unique keys, for a fixed type of values.  This
file adds the operations that act on many entries at once, with the lookup law of each: keeping
the entries that pass a test, erasing a list of keys, and inserting a list of entries.
-/

/-- A finite map from `α` to `β`. -/
abbrev FiniteMap (α β : Type*) := AList fun _ : α => β

namespace FiniteMap

variable {α β : Type*} [DecidableEq α]

/-- A sublist of the entries of a finite map is a finite map. -/
def ofSublist (m : FiniteMap α β) {l : List (Sigma fun _ : α => β)}
    (h : l.Sublist m.entries) : FiniteMap α β where
  entries := l
  nodupKeys := m.nodupKeys.sublist h

/-- The entries of `m` that pass the test `p`. -/
def filter (p : α → β → Bool) (m : FiniteMap α β) : FiniteMap α β :=
  m.ofSublist (l := m.entries.filter fun e => p e.1 e.2) List.filter_sublist

/-- `m` without the keys in `keys`, erased one after the other. -/
def eraseAll (keys : List α) (m : FiniteMap α β) : FiniteMap α β :=
  keys.foldl (fun m k => m.erase k) m

/-- `m` with the entries of `items` inserted one after the other. -/
def insertAll (items : List (α × β)) (m : FiniteMap α β) : FiniteMap α β :=
  items.foldl (fun m e => m.insert e.1 e.2) m

lemma lookup_eq_some_iff {m : FiniteMap α β} {k : α} {b : β} :
    m.lookup k = some b ↔ ⟨k, b⟩ ∈ m.entries :=
  AList.mem_lookup_iff

/-- A lookup in a part of a map finds what the whole map holds. -/
lemma lookup_of_lookup_ofSublist {m : FiniteMap α β} {l : List (Sigma fun _ : α => β)}
    (h : l.Sublist m.entries) {k : α} {b : β} (hb : (m.ofSublist h).lookup k = some b) :
    m.lookup k = some b := by
  rw [lookup_eq_some_iff] at hb ⊢
  exact h.subset hb

/-- A filtered map holds exactly the entries that pass. -/
lemma lookup_filter (p : α → β → Bool) (m : FiniteMap α β) (k : α) :
    (filter p m).lookup k = (m.lookup k).filter (p k) := by
  apply Option.ext
  intro b
  rw [lookup_eq_some_iff, Option.filter_eq_some_iff, lookup_eq_some_iff]
  exact List.mem_filter

@[simp] lemma eraseAll_nil (m : FiniteMap α β) : eraseAll [] m = m := rfl

@[simp] lemma eraseAll_cons (k : α) (keys : List α) (m : FiniteMap α β) :
    eraseAll (k :: keys) m = eraseAll keys (AList.erase k m) := rfl

@[simp] lemma insertAll_nil (m : FiniteMap α β) : insertAll [] m = m := rfl

@[simp] lemma insertAll_cons (e : α × β) (items : List (α × β)) (m : FiniteMap α β) :
    insertAll (e :: items) m = insertAll items (AList.insert e.1 e.2 m) := rfl

/-- Erasing a list of keys leaves the other keys as they were. -/
lemma lookup_eraseAll (keys : List α) (m : FiniteMap α β) (k : α) :
    (eraseAll keys m).lookup k = if k ∈ keys then none else m.lookup k := by
  induction keys generalizing m with
  | nil => simp
  | cons k' keys ih =>
    rw [eraseAll_cons, ih]
    by_cases hk : k = k'
    · subst hk
      simp
    · simp [hk, AList.lookup_erase_ne hk]

/-- Inserting entries leaves the keys that do not occur among them as they were. -/
lemma lookup_insertAll_of_notMem {items : List (α × β)} {k : α}
    (h : k ∉ items.map Prod.fst) (m : FiniteMap α β) :
    (insertAll items m).lookup k = m.lookup k := by
  induction items generalizing m with
  | nil => rfl
  | cons e items ih =>
    rw [List.map_cons, List.mem_cons, not_or] at h
    rw [insertAll_cons, ih h.2]
    exact AList.lookup_insert_ne h.1

/-- Inserting entries with pairwise distinct keys makes each of them available. -/
lemma lookup_insertAll_of_mem {items : List (α × β)} (hnd : (items.map Prod.fst).Nodup)
    {k : α} {b : β} (h : (k, b) ∈ items) (m : FiniteMap α β) :
    (insertAll items m).lookup k = some b := by
  induction items generalizing m with
  | nil => simp at h
  | cons e items ih =>
    rw [List.map_cons, List.nodup_cons] at hnd
    rw [insertAll_cons]
    rcases List.mem_cons.mp h with rfl | h
    · rw [lookup_insertAll_of_notMem hnd.1]
      exact AList.lookup_insert _
    · exact ih hnd.2 h _

end FiniteMap
