import Mathlib.Data.List.Basic
import Mathlib.Data.List.TakeDrop

/-!
# Ranges of a buffer

A buffer is a list.  `Slice.read` reads the elements between two indices and fails when the indices
do not delimit a range of the buffer; `Slice.write` overwrites the elements from an index on.  A
buffer that is a concatenation is written part by part, and a text is cut at the last separator in one
way only.
-/

namespace Slice

variable {α : Type*}

/-- The elements from index `first` up to, but not including, index `last`. -/
def read (buffer : List α) (first last : ℕ) : Option (List α) :=
  if first ≤ last ∧ last ≤ buffer.length then some ((buffer.drop first).take (last - first))
  else none

/-- Replaces the elements from index `first` on by `data`. -/
def write (buffer : List α) (first : ℕ) (data : List α) : List α :=
  buffer.take first ++ data ++ buffer.drop (first + data.length)

/-- A read succeeds exactly when it stays inside the buffer. -/
lemma read_eq_none_iff {buffer : List α} {first last : ℕ} :
    read buffer first last = none ↔ ¬ (first ≤ last ∧ last ≤ buffer.length) := by
  unfold read
  split_ifs with h <;> simp [h]

/-- What a read inside the buffer returns. -/
lemma read_eq_some_iff {buffer data : List α} {first last : ℕ} :
    read buffer first last = some data ↔
      first ≤ last ∧ last ≤ buffer.length ∧ (buffer.drop first).take (last - first) = data := by
  unfold read
  split_ifs with h
  · simp [h]
  · simp only [false_iff]
    exact fun hdata => h ⟨hdata.1, hdata.2.1⟩

/-- Overwriting the middle part of a concatenation with data of the same length. -/
lemma write_middle {pre old new post : List α} {first : ℕ} (hfirst : first = pre.length)
    (hlen : new.length = old.length) : write (pre ++ old ++ post) first new = pre ++ new ++ post := by
  subst hfirst
  unfold write
  rw [hlen, ← List.length_append, List.drop_left, List.append_assoc pre old post, List.take_left]

/-- Overwriting the start of a buffer. -/
lemma write_head {old new post : List α} (hlen : new.length = old.length) :
    write (old ++ post) 0 new = new ++ post :=
  @write_middle _ [] old new post 0 rfl hlen

/-- Overwriting the end of a buffer. -/
lemma write_tail {pre old new : List α} {first : ℕ} (hfirst : first = pre.length)
    (hlen : new.length = old.length) : write (pre ++ old) first new = pre ++ new := by
  have h := @write_middle _ pre old new [] _ hfirst hlen
  rwa [List.append_nil, List.append_nil] at h

/-- What stands on both sides of the last occurrence of a separator. -/
lemma append_cons_inj_of_notMem {c : α} {l₁ l₂ d₁ d₂ : List α} (h₁ : c ∉ d₁)
    (h₂ : c ∉ d₂) (h : l₁ ++ c :: d₁ = l₂ ++ c :: d₂) : l₁ = l₂ ∧ d₁ = d₂ := by
  rcases List.append_eq_append_iff.mp h with ⟨between, hl, hd⟩ | ⟨between, hl, hd⟩
  · rcases between with _ | ⟨x, between⟩
    · exact ⟨by simpa using hl.symm, (List.cons.inj hd).2⟩
    · obtain ⟨-, rfl⟩ := List.cons.inj hd
      exact absurd (by simp) h₁
  · rcases between with _ | ⟨x, between⟩
    · exact ⟨by simpa using hl, (List.cons.inj hd).2.symm⟩
    · obtain ⟨-, rfl⟩ := List.cons.inj hd
      exact absurd (by simp) h₂

end Slice
