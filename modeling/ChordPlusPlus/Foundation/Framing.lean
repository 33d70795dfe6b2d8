import Mathlib.Data.List.Basic
import Mathlib.Data.List.Infix

/-!
# Streams of words that delimit themselves

If no word of a code is a proper prefix of another, a concatenation of words can be read in one way
only, and of a part of it the words that it contains.
-/

/-- No word is empty, and none is a proper prefix of another. -/
structure SelfDelimiting {α β : Type*} (enc : α → List β) : Prop where
  ne_nil : ∀ a, enc a ≠ []
  eq_of_prefix : ∀ a b, enc a <+: enc b → enc a = enc b

namespace SelfDelimiting

variable {α β : Type*} {enc : α → List β}

/-- Two streams of which one continues the other start with the same word. -/
lemma eq_of_append_prefix (henc : SelfDelimiting enc) {a b : α} {s t : List β}
    (h : enc a ++ s <+: enc b ++ t) : enc a = enc b := by
  have ha : enc a <+: enc b ++ t := (List.prefix_append _ _).trans h
  rcases List.prefix_or_prefix_of_prefix ha (List.prefix_append _ _) with hab | hba
  · exact henc.eq_of_prefix a b hab
  · exact (henc.eq_of_prefix b a hba).symm

end SelfDelimiting
