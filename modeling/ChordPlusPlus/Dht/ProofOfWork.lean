import ChordPlusPlus.Foundation.Bits
import ChordPlusPlus.Foundation.Slice
import ChordPlusPlus.Util.ByteArr
import Mathlib.Data.List.Infix

/-!
# The proof of work of a joining node

A bootstrap node gives a joining node a puzzle, its ip and port as a text.  The node looks for a text
that begins with the puzzle and whose hash, printed bit by bit, begins with as many zeros as the
difficulty asks for (`PeerImpl::getPoWPuzzleOnJoin` and
`PeerImpl::sendPoWPuzzleResponseToBootstrapAndGetSuccessor`).

The puzzles of two nodes are different (`puzzle_injective`), but the port ends a puzzle without a
terminator, so one puzzle may be the beginning of another, and a response for the longer one is
accepted for the shorter one too: `boundToOne_iff` says when a response is good for one of two nodes
only.  What the search of a joining node finds is what the bootstrap node accepts
(`proofOfWork_agree`).

A `std::string` is a list of characters.
-/

namespace ChordPlusPlus

/-- The ip and the port of a node. -/
structure NodeAddress where
  ip : List Char
  port : UInt16
deriving DecidableEq

/-- `newNode.getIp() + ":" + std::to_string(newNode.getPort())`. -/
def NodeAddress.puzzle (node : NodeAddress) : List Char :=
  node.ip ++ ':' :: Nat.toDigits 10 node.port.toNat

/-- A byte in a stream by `std::bitset<8>`, the most significant bit first. -/
def printBits (b : UInt8) : List Char :=
  (List.range 8).map fun k => if b.toNat.testBit (7 - k) then '1' else '0'

/-- `util::bytedump`, with rows of `stride` bytes. -/
def bytedump (bytes : List UInt8) (stride : ℕ) : List Char :=
  (List.range ((bytes.length + stride - 1) / stride)).flatMap fun row =>
    (if row ≠ 0 then ['\n'] else []) ++ (List.range stride).flatMap fun j =>
      (if 0 < j then [' '] else []) ++
        match bytes[row * stride + j]? with
        | some b => printBits b
        | none => [' ', ' ']

/-- `::isspace` in the default locale. -/
def isspace (c : Char) : Bool := c = ' ' || (9 ≤ c.toNat && c.toNat ≤ 13)

/-- The hash of a response as a text: its bits, without the white space between the bytes. -/
def hashOfResponse (sha1 : List Char → ByteArr 20) (response : List Char) : List Char :=
  (bytedump (sha1 response).bytes 20).filter fun c => !isspace c

/-- The three assertions of `sendPoWPuzzleResponseToBootstrapAndGetSuccessor` on a response and on
what the new node says its hash is. -/
def acceptsResponse (sha1 : List Char → ByteArr 20) (difficulty : UInt8) (newNode : NodeAddress)
    (response hash : List Char) : Bool :=
  response.take newNode.puzzle.length = newNode.puzzle &&
    (hashOfResponse sha1 response = hash &&
      hash.take difficulty.toNat = List.replicate difficulty.toNat '0')

/-- The search of `Dht::join`: it appends the numbers from `i` on to the puzzle until the hash has
enough leading zeros, and sends the response together with its hash. -/
def solvePuzzle (sha1 : List Char → ByteArr 20) (difficulty : UInt8) (puzzle : List Char) :
    ℕ → ℕ → Option (List Char × List Char)
  | 0, _ => none
  | fuel + 1, i =>
      let response := puzzle ++ Nat.toDigits 10 i
      let hash := hashOfResponse sha1 response
      if hash.take difficulty.toNat = List.replicate difficulty.toNat '0' then some (response, hash)
      else solvePuzzle sha1 difficulty puzzle fuel (i + 1)

/-! ## Puzzles -/

lemma colon_notMem_toDigits (n : ℕ) : ':' ∉ Nat.toDigits 10 n := by
  intro hmem
  have hdigit := Nat.isDigit_of_mem_toDigits (by decide) (by decide) hmem
  revert hdigit
  decide

/-- Different nodes get different puzzles. -/
lemma puzzle_injective : Function.Injective NodeAddress.puzzle := by
  rintro ⟨ip, port⟩ ⟨ip', port'⟩ h
  obtain ⟨rfl, hdigits⟩ := Slice.append_cons_inj_of_notMem (colon_notMem_toDigits _)
    (colon_notMem_toDigits _) h
  have hport : port.toNat = port'.toNat :=
    calc port.toNat = Nat.ofDigitChars 10 (Nat.toDigits 10 port.toNat) 0 :=
        Nat.ofDigitChars_ten_toDigits.symm
      _ = Nat.ofDigitChars 10 (Nat.toDigits 10 port'.toNat) 0 := by rw [hdigits]
      _ = port'.toNat := Nat.ofDigitChars_ten_toDigits
  rw [UInt16.toNat.inj hport]

/-! ## Responses -/

section Responses

variable (sha1 : List Char → ByteArr 20) (difficulty : UInt8)

/-- The hash of the response has enough leading zeros. -/
def Solves (response : List Char) : Prop :=
  (hashOfResponse sha1 response).take difficulty.toNat = List.replicate difficulty.toNat '0'

/-- No response, with whatever hash, is accepted for both nodes. -/
def BoundToOne (a b : NodeAddress) : Prop :=
  ∀ response hash, acceptsResponse sha1 difficulty a response hash = true →
    acceptsResponse sha1 difficulty b response hash = false

/-- The puzzle of `a` is the beginning of that of `b`, and the latter can be solved. -/
def Shared (a b : NodeAddress) : Prop :=
  a.puzzle <+: b.puzzle ∧ a.puzzle ≠ b.puzzle ∧
    ∃ response, b.puzzle <+: response ∧ Solves sha1 difficulty response

variable {sha1 difficulty}

/-- A response is accepted if it begins with the puzzle, has enough zeros and comes with its hash. -/
lemma acceptsResponse_iff {node : NodeAddress} {response hash : List Char} :
    acceptsResponse sha1 difficulty node response hash = true ↔
      node.puzzle <+: response ∧ hashOfResponse sha1 response = hash ∧
        Solves sha1 difficulty response := by
  simp only [acceptsResponse, Bool.and_eq_true, decide_eq_true_eq, List.prefix_iff_eq_take, Solves]
  constructor
  · rintro ⟨hinitial, rfl, hzeros⟩
    exact ⟨hinitial.symm, rfl, hzeros⟩
  · rintro ⟨hinitial, rfl, hzeros⟩
    exact ⟨hinitial.symm, rfl, hzeros⟩

/-- What a joining node sends, the bootstrap node accepts. -/
lemma acceptsResponse_of_solvePuzzle {node : NodeAddress} {fuel i : ℕ} {response hash : List Char}
    (h : solvePuzzle sha1 difficulty node.puzzle fuel i = some (response, hash)) :
    acceptsResponse sha1 difficulty node response hash = true := by
  induction fuel generalizing i with
  | zero => cases h
  | succ fuel ih =>
    rw [solvePuzzle] at h
    split_ifs at h with hzeros
    · obtain ⟨rfl, rfl⟩ := Prod.mk.inj (Option.some.inj h)
      exact acceptsResponse_iff.mpr ⟨List.prefix_append _ _, rfl, hzeros⟩
    · exact ih h

/-- A response for the longer of two puzzles, one of which begins the other, is accepted for both. -/
lemma Shared.exists_accepted {a b : NodeAddress} (h : Shared sha1 difficulty a b) :
    ∃ response hash, acceptsResponse sha1 difficulty a response hash = true ∧
      acceptsResponse sha1 difficulty b response hash = true := by
  obtain ⟨hinitial, -, response, hresponse, hsolves⟩ := h
  exact ⟨response, hashOfResponse sha1 response,
    acceptsResponse_iff.mpr ⟨hinitial.trans hresponse, rfl, hsolves⟩,
    acceptsResponse_iff.mpr ⟨hresponse, rfl, hsolves⟩⟩

/-- **Proofs of work.**  For two different nodes, no response is accepted for both exactly when
neither puzzle is the beginning of the other, or the longer one has no solution. -/
theorem boundToOne_iff (sha1 : List Char → ByteArr 20) (difficulty : UInt8) {a b : NodeAddress}
    (hne : a ≠ b) :
    BoundToOne sha1 difficulty a b ↔
      ¬ Shared sha1 difficulty a b ∧ ¬ Shared sha1 difficulty b a := by
  constructor
  · intro hbound
    constructor
    · intro hshared
      obtain ⟨response, hash, ha, hb⟩ := hshared.exists_accepted
      rw [hbound response hash ha] at hb
      cases hb
    · intro hshared
      obtain ⟨response, hash, hb, ha⟩ := hshared.exists_accepted
      rw [hbound response hash ha] at hb
      cases hb
  · rintro ⟨hab, hba⟩ response hash ha
    rw [← Bool.not_eq_true]
    intro hb
    obtain ⟨hinitial, -, hsolves⟩ := acceptsResponse_iff.mp ha
    obtain ⟨hinitial', -, -⟩ := acceptsResponse_iff.mp hb
    -- Of two beginnings of the response the shorter one begins the longer one.
    have hpuzzles : a.puzzle ≠ b.puzzle := fun heq => hne (puzzle_injective heq)
    rcases List.prefix_or_prefix_of_prefix hinitial hinitial' with hle | hle
    · exact hab ⟨hle, hpuzzles, response, hinitial', hsolves⟩
    · exact hba ⟨hle, hpuzzles.symm, response, hinitial, hsolves⟩

/-- The node `127.0.0.1:600`. -/
def shorterPort : NodeAddress := ⟨['1', '2', '7', '.', '0', '.', '0', '.', '1'], 600⟩

/-- The node `127.0.0.1:6007`. -/
def longerPort : NodeAddress := ⟨['1', '2', '7', '.', '0', '.', '0', '.', '1'], 6007⟩

/-- The SHA-1 hash of `127.0.0.1:60071`. -/
def digest : ByteArr 20 :=
  ⟨[86, 188, 219, 132, 145, 243, 170, 209, 59, 154, 139, 231, 166, 21, 181, 23, 152, 49, 222, 40],
    rfl⟩

/-- The puzzle of the port 600 begins that of the port 6007, so that a response may be accepted for both;
the puzzles of the ports 600 and 700 keep apart. -/
theorem boundToOne_iff_ports :
    ¬ BoundToOne (fun _ => digest) 1 shorterPort longerPort ∧
      BoundToOne (fun _ => digest) 1 shorterPort { shorterPort with port := 700 } := by
  constructor
  · intro hbound
    refine ((boundToOne_iff (fun _ => digest) 1 (by decide)).mp hbound).1 ?_
    exact ⟨by decide, by decide, longerPort.puzzle, List.prefix_rfl, by unfold Solves; decide +kernel⟩
  · refine (boundToOne_iff (fun _ => digest) 1 (by decide)).mpr ⟨?_, ?_⟩
    · rintro ⟨hinitial, -⟩
      revert hinitial
      decide
    · rintro ⟨hinitial, -⟩
      revert hinitial
      decide

/-- `127.0.0.1:60071`, found for the node `127.0.0.1:6007`, is accepted for `127.0.0.1:600`. -/
theorem response_not_boundToOne : ¬ BoundToOne (fun _ => digest) 1 longerPort shorterPort := by
  intro hbound
  have hfound : solvePuzzle (fun _ => digest) 1 longerPort.puzzle 1 1 =
      some (longerPort.puzzle ++ ['1'], hashOfResponse (fun _ => digest) []) := by
    decide +kernel
  have hlonger := acceptsResponse_of_solvePuzzle hfound
  have hshorter : acceptsResponse (fun _ => digest) 1 shorterPort (longerPort.puzzle ++ ['1'])
      (hashOfResponse (fun _ => digest) []) = true := by decide +kernel
  rw [hbound _ _ hlonger] at hshorter
  cases hshorter

end Responses

/-! ## The bits of a digest -/

section Bits

/-- The bits of a byte string, the most significant first. -/
def digestBits (bytes : List UInt8) : List Bool := bytes.flatMap fun b => Bits.ofNat 8 b.toNat

/-- A bit in a stream. -/
def printBit (b : Bool) : Char := if b then '1' else '0'

lemma printBits_eq (b : UInt8) : printBits b = (Bits.ofNat 8 b.toNat).map printBit := by
  rw [Bits.ofNat, List.map_map]
  rfl

lemma flatMap_printBits (bytes : List UInt8) :
    bytes.flatMap printBits = (digestBits bytes).map printBit := by
  rw [digestBits, List.map_flatMap]
  exact List.flatMap_congr fun b _ => printBits_eq b

lemma length_digestBits (bytes : List UInt8) : (digestBits bytes).length = 8 * bytes.length := by
  induction bytes with
  | nil => rfl
  | cons b bytes ih =>
    rw [digestBits, List.flatMap_cons, List.length_append, Bits.length_ofNat, List.length_cons]
    rw [digestBits] at ih
    omega

/-- Read as a number, the bits are the bytes.  By induction on the bytes. -/
lemma value_digestBits (bytes : List UInt8) : Bits.value (digestBits bytes) = beNat bytes := by
  induction bytes with
  | nil => rfl
  | cons b bytes ih =>
    have hb : b.toNat % 2 ^ 8 = b.toNat := Nat.mod_eq_of_lt b.toNat_lt
    have hcons : digestBits (b :: bytes) = Bits.ofNat 8 b.toNat ++ digestBits bytes :=
      List.flatMap_cons
    rw [hcons, Bits.value_append, Bits.value_ofNat, hb, ih, length_digestBits, beNat_cons, pow_mul,
      show (2 : ℕ) ^ 8 = 256 from rfl]

/-- No white space is printed for a byte. -/
lemma filter_printBits (b : UInt8) : (printBits b).filter (fun c => !isspace c) = printBits b := by
  rw [List.filter_eq_self, printBits_eq]
  intro c hc
  obtain ⟨bit, -, rfl⟩ := List.mem_map.mp hc
  cases bit <;> decide

lemma flatMap_range_getElem {α : Type*} (bytes : List UInt8) (f : UInt8 → List α) (g : List α) :
    ((List.range bytes.length).flatMap fun j =>
      match bytes[j]? with
      | some b => f b
      | none => g) = bytes.flatMap f := by
  induction bytes with
  | nil => rfl
  | cons b bytes ih =>
    rw [List.length_cons, List.range_succ_eq_map, List.flatMap_cons, List.flatMap_map,
      List.flatMap_cons, ← ih]
    rfl

/-- Without its white space, a dump in one row is the bits of the bytes. -/
lemma filter_bytedump {bytes : List UInt8} (hpos : 0 < bytes.length) :
    (bytedump bytes bytes.length).filter (fun c => !isspace c) = bytes.flatMap printBits := by
  have hrows : (bytes.length + bytes.length - 1) / bytes.length = 1 :=
    Nat.div_eq_of_lt_le (by omega) (by omega)
  rw [bytedump, hrows, List.range_one, List.flatMap_singleton,
    ← flatMap_range_getElem bytes printBits [], if_neg (by decide), List.nil_append, List.filter_flatMap]
  refine List.flatMap_congr ?_
  intro j hj
  have hlt := List.mem_range.mp hj
  have hspace : (if 0 < j then [' '] else []).filter (fun c => !isspace c) = [] := by
    split_ifs <;> decide
  rw [Nat.zero_mul, Nat.zero_add, List.filter_append, hspace, List.nil_append,
    List.getElem?_eq_getElem hlt]
  exact filter_printBits _

/-- The text of a hash is its 160 bits. -/
lemma hashOfResponse_eq (sha1 : List Char → ByteArr 20) (response : List Char) :
    hashOfResponse sha1 response = (sha1 response).bytes.flatMap printBits := by
  have hfilter := @filter_bytedump (sha1 response).bytes (by rw [(sha1 response).size_eq]; decide)
  rwa [(sha1 response).size_eq] at hfilter

/-- The zeros that the difficulty asks for bound the digest. -/
lemma solves_iff {sha1 : List Char → ByteArr 20} {difficulty : UInt8} (hd : difficulty.toNat ≤ 160)
    (response : List Char) :
    Solves sha1 difficulty response ↔ (sha1 response).toNat < 2 ^ (160 - difficulty.toNat) := by
  have hlength : (digestBits (sha1 response).bytes).length = 160 := by
    rw [length_digestBits, (sha1 response).size_eq]
  have hvalue := @Bits.value_lt_iff (digestBits (sha1 response).bytes) difficulty.toNat
    (by rw [hlength]; exact hd)
  rw [hlength, value_digestBits] at hvalue
  have hprint : Function.Injective printBit := by
    intro b c
    cases b <;> cases c <;> decide
  have hzeros : List.replicate difficulty.toNat '0' =
      (List.replicate difficulty.toNat false).map printBit := by
    rw [List.map_replicate]
    rfl
  rw [Solves, hashOfResponse_eq, flatMap_printBits, ← List.map_take, hzeros,
    (List.map_injective_iff.mpr hprint).eq_iff, ← hvalue]
  rfl

/-- **Search and verification.**  A bootstrap node accepts a response with a claimed hash exactly when
the response starts with the puzzle, the claimed hash is the 160 bits of its digest, which are the
dump without white space, and the digest is small enough; and it accepts whatever the search of the
joining node stops at. -/
theorem proofOfWork_agree (sha1 : List Char → ByteArr 20) (difficulty : UInt8)
    (hd : difficulty.toNat ≤ 160) (node : NodeAddress) :
    (∀ response hash, acceptsResponse sha1 difficulty node response hash = true ↔
      node.puzzle <+: response ∧ hash = (sha1 response).bytes.flatMap printBits ∧
        (sha1 response).toNat < 2 ^ (160 - difficulty.toNat)) ∧
    (∀ response, (sha1 response).bytes.flatMap printBits =
        (bytedump (sha1 response).bytes 20).filter (fun c => !isspace c) ∧
      ((sha1 response).bytes.flatMap printBits).length = 160) ∧
    ∀ fuel i response hash,
      solvePuzzle sha1 difficulty node.puzzle fuel i = some (response, hash) →
      acceptsResponse sha1 difficulty node response hash = true := by
  refine ⟨?_, ?_, ?_⟩
  · intro response hash
    rw [acceptsResponse_iff, hashOfResponse_eq, solves_iff hd, eq_comm (a := hash)]
  · intro response
    refine ⟨(hashOfResponse_eq sha1 response).symm, ?_⟩
    rw [flatMap_printBits, List.length_map, length_digestBits, (sha1 response).size_eq]
  · intro fuel i response hash
    exact acceptsResponse_of_solvePuzzle

/-- A hash function that leaves a response without leading zeros if it ends in the digit 1. -/
def zerosUnlessOne (response : List Char) : ByteArr 20 :=
  if response.getLast? = some '1' then ByteArr.filled 255 else digest

/-- The search of the node `127.0.0.1:6007` at the default difficulty goes past the number 1 and stops
at 2.  The bootstrap node accepts what it stops at, and would not have accepted the number 1. -/
theorem proofOfWork_agree_default :
    solvePuzzle zerosUnlessOne 1 longerPort.puzzle 2 1 =
        some (longerPort.puzzle ++ ['2'], digest.bytes.flatMap printBits) ∧
      acceptsResponse zerosUnlessOne 1 longerPort (longerPort.puzzle ++ ['2'])
        (digest.bytes.flatMap printBits) = true ∧
      ∀ hash, acceptsResponse zerosUnlessOne 1 longerPort (longerPort.puzzle ++ ['1']) hash =
        false := by
  obtain ⟨haccepts, -, hsearch⟩ := proofOfWork_agree zerosUnlessOne 1 (by decide) longerPort
  have hfound : solvePuzzle zerosUnlessOne 1 longerPort.puzzle 2 1 =
      some (longerPort.puzzle ++ ['2'], digest.bytes.flatMap printBits) := by decide +kernel
  refine ⟨hfound, hsearch 2 1 _ _ hfound, fun hash => ?_⟩
  rw [← Bool.not_eq_true]
  intro haccepted
  obtain ⟨-, -, hsmall⟩ := (haccepts _ _).mp haccepted
  revert hsmall
  decide +kernel

end Bits

end ChordPlusPlus
