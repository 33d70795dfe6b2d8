import ChordPlusPlus.Foundation.Regex
import Mathlib.Data.UInt

/-!
# Addresses in the configuration file

`splitIP` takes an `address:port` text of the configuration file apart, with two patterns: one for a
dotted quad, one for an IPv6 address in brackets.  The port is converted by `std::stoul`, which throws
for numbers that do not fit into 64 bits, and is then cast to 16 bits.

The words that the patterns match are `IsDottedQuad`, `IsIpv6` and `IsNumber`.  `splitIP` does what it
should exactly when the port is not a number above the limit that still fits into 64 bits
(`splitsAddress_iff`).
-/

namespace ChordPlusPlus

open RegularExpression

/-! ## The function -/

/-- The class `\d`. -/
def digits : List Char := ['0', '1', '2', '3', '4', '5', '6', '7', '8', '9']

/-- The class `[0-9a-fA-F]`. -/
def hexDigits : List Char :=
  digits ++ ['a', 'b', 'c', 'd', 'e', 'f'] ++ ['A', 'B', 'C', 'D', 'E', 'F']

/-- The pattern `\d{1,3}`. -/
def octetPattern : RegularExpression Char := oneOf digits * atMost (oneOf digits) 2

/-- The first group of the pattern `ipv4`. -/
def ipv4Pattern : RegularExpression Char := octetPattern * (char '.' * octetPattern) ^ 3

/-- The first group of the pattern `ipv6`. -/
def ipv6Pattern : RegularExpression Char :=
  (oneOf hexDigits).star * (char ':' * (oneOf hexDigits).star).star

/-- The second group of both patterns. -/
def portPattern : RegularExpression Char := oneOrMore (oneOf digits)

/-- The number that a word of digits stands for. -/
def decimal (word : List Char) : ℕ := Nat.ofDigitChars 10 word 0

/-- `std::stoul` on a word of digits; `none` is the exception for numbers above the range of
`unsigned long`. -/
def stoul (word : List Char) : Option ℕ :=
  if decimal word < 2 ^ 64 then some (decimal word) else none

/-- `splitIP`, with the old contents of `address` and `port`: the result, and the new contents. -/
def splitIP (value address : List Char) (port : UInt16) : Bool × List Char × UInt16 :=
  if value = [] then (false, address, port)
  else
    match (captures [] ipv4Pattern [':'] portPattern value).or
        (captures ['['] ipv6Pattern [']', ':'] portPattern value) with
    | some (first, second) =>
        match stoul second with
        | some p => (true, first, UInt16.ofNat p)
        | none => (false, address, port)
    | none => (false, address, port)

/-! ## What the patterns match -/

/-- One to three digits. -/
def IsOctet (word : List Char) : Prop :=
  1 ≤ word.length ∧ word.length ≤ 3 ∧ ∀ c ∈ word, c ∈ digits

/-- Four octets with dots between them. -/
def IsDottedQuad (word : List Char) : Prop :=
  ∃ w x y z, IsOctet w ∧ IsOctet x ∧ IsOctet y ∧ IsOctet z ∧
    word = w ++ '.' :: x ++ '.' :: y ++ '.' :: z

/-- Hexadecimal digits and colons. -/
def IsIpv6 (word : List Char) : Prop := ∀ c ∈ word, c ∈ hexDigits ∨ c = ':'

/-- At least one digit. -/
def IsNumber (word : List Char) : Prop := word ≠ [] ∧ ∀ c ∈ word, c ∈ digits

/-- The text has the form `address:port`, with the given parts. -/
def HasForm (value address port : List Char) : Prop :=
  (IsDottedQuad address ∧ value = address ++ ':' :: port ∨
    IsIpv6 address ∧ value = '[' :: address ++ ']' :: ':' :: port) ∧ IsNumber port

/-- What `splitIP` should do with a text: if it has the form `address:port` with a port number that is
at most `65535`, return these parts; otherwise return false and leave everything as it is. -/
structure SplitsAddress (value address : List Char) (port : UInt16) : Prop where
  of_form : ∀ first second, HasForm value first second → decimal second ≤ 65535 →
    ∃ p : UInt16, p.toNat = decimal second ∧ splitIP value address port = (true, first, p)
  otherwise : (∀ first second, HasForm value first second → 65535 < decimal second) →
    splitIP value address port = (false, address, port)

lemma mem_octetPattern {word : List Char} : word ∈ octetPattern.matches' ↔ IsOctet word := by
  rw [octetPattern, mem_oneOf_mul]
  constructor
  · rintro ⟨c, hc, v, hv, rfl⟩
    obtain ⟨hlength, hdigits⟩ := mem_atMost_oneOf.mp hv
    exact ⟨Nat.succ_le_succ (Nat.zero_le _), Nat.succ_le_succ hlength,
      List.forall_mem_cons.mpr ⟨hc, hdigits⟩⟩
  · rintro ⟨hpos, hlength, hdigits⟩
    obtain ⟨c, v, rfl⟩ := List.exists_cons_of_length_pos hpos
    obtain ⟨hc, hv⟩ := List.forall_mem_cons.mp hdigits
    exact ⟨c, hc, v, mem_atMost_oneOf.mpr ⟨Nat.le_of_succ_le_succ hlength, hv⟩, rfl⟩

lemma mem_dotOctet {word : List Char} : word ∈ (char '.' * octetPattern).matches' ↔
    ∃ x, IsOctet x ∧ word = '.' :: x := by
  rw [matches'_mul, Language.mem_mul]
  constructor
  · rintro ⟨u, hu, x, hx, rfl⟩
    obtain rfl : u = ['.'] := hu
    exact ⟨x, mem_octetPattern.mp hx, rfl⟩
  · rintro ⟨x, hx, rfl⟩
    exact ⟨['.'], rfl, x, mem_octetPattern.mpr hx, rfl⟩

lemma mem_ipv4Pattern {word : List Char} : word ∈ ipv4Pattern.matches' ↔ IsDottedQuad word := by
  rw [ipv4Pattern, matches'_mul, matches'_pow, pow_succ, pow_succ, pow_one, Language.mem_mul]
  constructor
  · rintro ⟨w, hw, rest, ⟨xy, ⟨x, hx, y, hy, rfl⟩, z, hz, rfl⟩, rfl⟩
    obtain ⟨x', hx', rfl⟩ := mem_dotOctet.mp hx
    obtain ⟨y', hy', rfl⟩ := mem_dotOctet.mp hy
    obtain ⟨z', hz', rfl⟩ := mem_dotOctet.mp hz
    exact ⟨w, x', y', z', mem_octetPattern.mp hw, hx', hy', hz', by simp⟩
  · rintro ⟨w, x, y, z, hw, hx, hy, hz, rfl⟩
    refine ⟨w, mem_octetPattern.mpr hw, _, ⟨_, ⟨_, mem_dotOctet.mpr ⟨x, hx, rfl⟩, _,
      mem_dotOctet.mpr ⟨y, hy, rfl⟩, rfl⟩, _, mem_dotOctet.mpr ⟨z, hz, rfl⟩, rfl⟩, by simp⟩

/-- Every word of hexadecimal digits and colons can be cut before its colons. -/
lemma mem_ipv6Pattern {word : List Char} : word ∈ ipv6Pattern.matches' ↔ IsIpv6 word := by
  rw [ipv6Pattern, matches'_mul, Language.mem_mul]
  constructor
  · rintro ⟨u, hu, v, hv, rfl⟩ c hc
    rcases List.mem_append.mp hc with hc | hc
    · exact Or.inl (mem_star_oneOf.mp hu c hc)
    · obtain ⟨parts, rfl, hparts⟩ := Language.mem_kstar.mp hv
      obtain ⟨part, hpart, hc⟩ := List.mem_flatten.mp hc
      obtain ⟨x, hx, y, hy, rfl⟩ := Language.mem_mul.mp (hparts part hpart)
      obtain rfl : x = [':'] := hx
      rcases List.mem_cons.mp hc with rfl | hc
      · exact Or.inr rfl
      · exact Or.inl (mem_star_oneOf.mp hy c hc)
  · intro hword
    induction word with
    | nil => exact ⟨[], Language.nil_mem_kstar _, [], Language.nil_mem_kstar _, rfl⟩
    | cons c word ih =>
      obtain ⟨hc, hrest⟩ := List.forall_mem_cons.mp hword
      obtain ⟨u, hu, v, hv, rfl⟩ := ih hrest
      rcases hc with hc | rfl
      · refine ⟨c :: u, mem_star_oneOf.mpr ?_, v, hv, rfl⟩
        exact List.forall_mem_cons.mpr ⟨hc, mem_star_oneOf.mp hu⟩
      · obtain ⟨parts, rfl, hparts⟩ := Language.mem_kstar.mp hv
        refine ⟨[], Language.nil_mem_kstar _, _, Language.mem_kstar.mpr
          ⟨(':' :: u) :: parts, rfl, List.forall_mem_cons.mpr ⟨?_, hparts⟩⟩, rfl⟩
        exact Language.mem_mul.mpr ⟨[':'], rfl, u, hu, rfl⟩

lemma mem_portPattern {word : List Char} : word ∈ portPattern.matches' ↔ IsNumber word :=
  mem_oneOrMore_oneOf

lemma colon_notMem_of_mem_portPattern : ∀ word ∈ portPattern.matches', ':' ∉ word := by
  intro word hword hcolon
  have hdigit := (mem_portPattern.mp hword).2 ':' hcolon
  revert hdigit
  decide

/-! ## The result -/

lemma captures_ipv4 {value first second : List Char} :
    captures [] ipv4Pattern [':'] portPattern value = some (first, second) ↔
      IsDottedQuad first ∧ value = first ++ ':' :: second ∧ IsNumber second := by
  rw [← mem_ipv4Pattern, ← mem_portPattern]
  refine (@captures_eq_some_iff _ _ _ [] [] _ _ _ _ ':' colon_notMem_of_mem_portPattern).trans ?_
  rw [List.nil_append, List.nil_append, List.append_assoc, List.singleton_append]
  tauto

lemma captures_ipv6 {value first second : List Char} :
    captures ['['] ipv6Pattern [']', ':'] portPattern value = some (first, second) ↔
      IsIpv6 first ∧ value = '[' :: first ++ ']' :: ':' :: second ∧ IsNumber second := by
  rw [← mem_ipv6Pattern, ← mem_portPattern]
  refine (@captures_eq_some_iff _ _ _ ['['] [']'] _ _ _ _ ':'
    colon_notMem_of_mem_portPattern).trans ?_
  rw [List.append_assoc, List.singleton_append, List.append_assoc]
  tauto

/-- A text that the second pattern matches begins with a bracket, so the first one does not match
it. -/
lemma ipv4_eq_none {first second : List Char} :
    captures [] ipv4Pattern [':'] portPattern ('[' :: first ++ ']' :: ':' :: second) = none := by
  rw [Option.eq_none_iff_forall_ne_some]
  rintro ⟨a, b⟩ hsome
  obtain ⟨⟨w, x, y, z, hw, -, -, -, rfl⟩, hvalue, -⟩ := captures_ipv4.mp hsome
  obtain ⟨c, w, rfl⟩ := List.exists_cons_of_length_pos hw.1
  obtain ⟨hc, -⟩ := List.cons.inj hvalue
  have hdigit : '[' ∈ digits := hc ▸ hw.2.2 c List.mem_cons_self
  revert hdigit
  decide

/-- The groups found are the parts of the text. -/
lemma groups_eq_some_iff {value first second : List Char} :
    (captures [] ipv4Pattern [':'] portPattern value).or
        (captures ['['] ipv6Pattern [']', ':'] portPattern value) = some (first, second) ↔
      HasForm value first second := by
  rw [Option.or_eq_some_iff, captures_ipv4, captures_ipv6]
  constructor
  · rintro (⟨hquad, hvalue, hport⟩ | ⟨-, hipv6, hvalue, hport⟩)
    · exact ⟨Or.inl ⟨hquad, hvalue⟩, hport⟩
    · exact ⟨Or.inr ⟨hipv6, hvalue⟩, hport⟩
  · rintro ⟨⟨hquad, hvalue⟩ | ⟨hipv6, rfl⟩, hport⟩
    · exact Or.inl ⟨hquad, hvalue, hport⟩
    · exact Or.inr ⟨ipv4_eq_none, hipv6, rfl, hport⟩

lemma HasForm.ne_nil {value first second : List Char} (h : HasForm value first second) :
    value ≠ [] := by
  rcases h.1 with ⟨-, rfl⟩ | ⟨-, rfl⟩
  · exact List.append_ne_nil_of_right_ne_nil _ (List.cons_ne_nil _ _)
  · exact List.cons_ne_nil _ _

/-- A text of the form, by its port. -/
lemma splitIP_of_form {value first second : List Char} (h : HasForm value first second)
    (address : List Char) (port : UInt16) :
    splitIP value address port =
      if decimal second < 2 ^ 64 then (true, first, UInt16.ofNat (decimal second))
      else (false, address, port) := by
  rw [splitIP, if_neg h.ne_nil, groups_eq_some_iff.mpr h]
  simp only [stoul]
  split_ifs <;> rfl

/-- Any other text is refused. -/
lemma splitIP_of_not_form {value : List Char} (h : ∀ first second, ¬ HasForm value first second)
    (address : List Char) (port : UInt16) : splitIP value address port = (false, address, port) := by
  rw [splitIP]
  split_ifs with hvalue
  · rfl
  · rcases hgroups : (captures [] ipv4Pattern [':'] portPattern value).or
      (captures ['['] ipv6Pattern [']', ':'] portPattern value) with _ | ⟨first, second⟩
    · rfl
    · exact absurd (groups_eq_some_iff.mp hgroups) (h first second)

/-- A text has its form in one way only. -/
lemma HasForm.unique {value first second first' second' : List Char}
    (h : HasForm value first second) (h' : HasForm value first' second') :
    first = first' ∧ second = second' := by
  rw [← groups_eq_some_iff] at h h'
  exact Prod.mk.inj (Option.some.inj (h.symm.trans h'))

/-- **Addresses.**  For every text and all old contents, `splitIP` does what it should exactly when
the text has no port between `65536` and the largest 64-bit number. -/
theorem splitsAddress_iff (value address : List Char) (port : UInt16) :
    SplitsAddress value address port ↔
      ∀ first second, HasForm value first second →
        ¬ (65536 ≤ decimal second ∧ decimal second < 2 ^ 64) := by
  constructor
  · rintro h first second hform ⟨hlarge, hfits⟩
    have hrefused := h.otherwise fun first' second' hform' => by
      rw [← (hform.unique hform').2]
      omega
    rw [splitIP_of_form hform, if_pos hfits] at hrefused
    cases (Prod.mk.inj hrefused).1
  · intro h
    constructor
    · intro first second hform hport
      have hsmall : decimal second < 65536 := by omega
      refine ⟨UInt16.ofNat (decimal second), UInt16.toNat_ofNat_of_lt' hsmall, ?_⟩
      rw [splitIP_of_form hform, if_pos (by omega)]
    · intro hport
      by_cases hform : ∃ first second, HasForm value first second
      · obtain ⟨first, second, hform⟩ := hform
        have hlarge := hport first second hform
        have hhuge := h first second hform
        rw [splitIP_of_form hform, if_neg (by omega)]
      · exact splitIP_of_not_form (fun first second hf => hform ⟨first, second, hf⟩) address port

/-- The text `1.1.1.1:65536`. -/
def portTooLarge : List Char :=
  ['1', '.', '1', '.', '1', '.', '1', ':', '6', '5', '5', '3', '6']

/-- A port above the limit is accepted, as another port. -/
theorem not_splitsAddress_portTooLarge :
    splitIP portTooLarge [] 6002 = (true, ['1', '.', '1', '.', '1', '.', '1'], 0) ∧
      ¬ SplitsAddress portTooLarge [] 6002 := by
  have hoctet : IsOctet ['1'] := ⟨by decide, by decide, by simp [digits]⟩
  have hform : HasForm portTooLarge ['1', '.', '1', '.', '1', '.', '1'] ['6', '5', '5', '3', '6'] :=
    ⟨Or.inl ⟨⟨_, _, _, _, hoctet, hoctet, hoctet, hoctet, rfl⟩, rfl⟩, by simp, by simp [digits]⟩
  have hsplit : splitIP portTooLarge [] 6002 = (true, ['1', '.', '1', '.', '1', '.', '1'], 0) := by
    rw [splitIP_of_form hform]
    decide
  refine ⟨hsplit, fun h => ?_⟩
  have hrefused := h.otherwise fun first second hform' => by
    rw [← (hform.unique hform').2]
    decide
  rw [hsplit] at hrefused
  cases hrefused

end ChordPlusPlus
