import ChordPlusPlus.Storage.Integrity

/-!
# Falling back on replicas

When the node responsible for a key has lost the item, the get handlers ask the nodes of its replicas.

The loop of `onDhtGet` ends at the first replica whose node is found, whether or not that node has the
replica, so that later replicas are not asked: `fallsBack_iff` says when the handler finds a replica
if there is one.  The loop of `onDhtGetKeyIsHashOfData` goes on, but it reads the response of each
node, and that of the responsible node before it, without a test whether there is one:
`completesSafely_iff` says when no absent response is read.

A client may send a key of fewer than 32 bytes to `onDhtGetKeyIsHashOfData`.  The array that the key
is copied into then keeps the bytes it had before, so the array is a parameter of its own here.
-/

namespace ChordPlusPlus

lemma Reply.ofResponse_eq_dhtSuccess_iff {key v : Bytes} {response : Option Bytes} :
    Reply.ofResponse key response = .dhtSuccess key v ↔ response = some v := by
  rcases response with _ | w <;> simp [Reply.ofResponse]

namespace Calls

variable {N : Type*}

/-! ## The replicas -/

section Replicas

variable (sha256 : Bytes → IdType) (calls : Calls N) (key : Bytes)

/-- The answer for the `i`-th replica of a key: `none` if its node is not found, `some none` if the
node has no value. -/
def replica (i : ℕ) : Option (Option Bytes) :=
  (calls.getSuccessor i (sha256 (key ++ [UInt8.ofNat i]))).map fun node =>
    calls.getData i node (key ++ [UInt8.ofNat i])

/-- The index `i` is at most the average replication index, at each of the moments at which the
handler asks for it. -/
def Within (i : ℕ) : Prop := 1 ≤ calls.average 0 ∧ ∀ j ≥ 1, j ≤ i → j ≤ (calls.average j).toNat

/-- What is expected of `onDhtGet` when the responsible node has no value: it finds a replica if
there is one, and it reports failure only if there is none. -/
structure FallsBack : Prop where
  success : calls.fetch 0 (sha256 key) key = none →
    (∃ i ≥ 1, calls.Within i ∧ ∃ v, calls.replica sha256 key i = some (some v)) →
    ∃ i ≥ 1, calls.Within i ∧ ∃ v, calls.replica sha256 key i = some (some v) ∧
      calls.onDhtGet sha256 key = .dhtSuccess key v
  failure : calls.onDhtGet sha256 key = .dhtFailure key →
    ∀ i ≥ 1, calls.Within i → ∀ v, calls.replica sha256 key i ≠ some (some v)

/-- Up to the average replication index, the first replica whose node is found has a value. -/
def FirstFoundHasValue : Prop :=
  Run.Scan (fun j => j ≤ (calls.average j).toNat)
    (fun k => ∃ v, calls.replica sha256 key k = some (some v))
    (fun j => calls.replica sha256 key j = none) 1

end Replicas

variable {sha256 : Bytes → IdType} {calls : Calls N} {key : Bytes}

/-- One round of the replica loop of `onDhtGet`. -/
lemma onDhtGetReplicas_succ (fuel i : ℕ) :
    calls.onDhtGetReplicas sha256 key (fuel + 1) i =
      if i ≤ (calls.average i).toNat then
        match calls.replica sha256 key i with
        | none => calls.onDhtGetReplicas sha256 key fuel (i + 1)
        | some response => response
      else none := by
  rw [onDhtGetReplicas, replica]
  rcases hnode : calls.getSuccessor i (sha256 (key ++ [UInt8.ofNat i])) with _ | node
  · simp only [hnode, Option.map_none]
  · simp only [hnode, Option.map_some]

/-- The loop of `onDhtGet` ends with the value of the first replica whose node is found.  By induction
on the rounds; the fuel outlasts every index that an eight-bit average admits. -/
lemma onDhtGetReplicas_eq_some_iff (fuel i : ℕ) (hfuel : 256 ≤ i + fuel) {v : Bytes} :
    calls.onDhtGetReplicas sha256 key fuel i = some v ↔
      Run.Scan (fun j => j ≤ (calls.average j).toNat)
        (fun k => calls.replica sha256 key k = some (some v))
        (fun j => calls.replica sha256 key j = none) i := by
  induction fuel generalizing i with
  | zero =>
    have hbound := (calls.average i).toNat_lt
    rw [Run.scan_iff]
    simp only [onDhtGetReplicas, reduceCtorEq, false_iff]
    rintro ⟨hi, -⟩
    omega
  | succ fuel ih =>
    rw [onDhtGetReplicas_succ, Run.scan_iff, ← ih (i + 1) (by omega)]
    by_cases hi : i ≤ (calls.average i).toNat
    · rw [if_pos hi]
      rcases calls.replica sha256 key i with _ | response
      · simp [hi]
      · simp [hi]
    · simp [hi]

/-- What `onDhtGet` answers when the responsible node has no value. -/
lemma onDhtGet_of_fetch_eq_none (hfetch : calls.fetch 0 (sha256 key) key = none)
    (haverage : 1 ≤ calls.average 0) :
    calls.onDhtGet sha256 key =
      .ofResponse key (calls.onDhtGetReplicas sha256 key 256 1) := by
  simp [onDhtGet, hfetch, haverage]

/-- A value of the responsible node is handed out. -/
lemma onDhtGet_of_fetch_eq_some {v : Bytes} (hfetch : calls.fetch 0 (sha256 key) key = some v) :
    calls.onDhtGet sha256 key = .dhtSuccess key v := by
  simp [onDhtGet, hfetch, Reply.ofResponse]

/-- The loop ends with a value exactly when the first replica whose node is found has one. -/
lemma exists_onDhtGetReplicas_iff :
    (∃ v, calls.onDhtGetReplicas sha256 key 256 1 = some v) ↔
      calls.FirstFoundHasValue sha256 key := by
  constructor
  · rintro ⟨v, hloop⟩
    obtain ⟨k, hk, hwithin, hvalue, hpassed⟩ :=
      (onDhtGetReplicas_eq_some_iff 256 1 (by decide)).mp hloop
    exact ⟨k, hk, hwithin, ⟨v, hvalue⟩, hpassed⟩
  · rintro ⟨k, hk, hwithin, ⟨v, hvalue⟩, hpassed⟩
    exact ⟨v, (onDhtGetReplicas_eq_some_iff 256 1 (by decide)).mpr
      ⟨k, hk, hwithin, hvalue, hpassed⟩⟩

/-- **Replica fallback.**  `onDhtGet` falls back on the replicas exactly when it need not, when there
is none, or when the first replica whose node is found has a value. -/
theorem fallsBack_iff (sha256 : Bytes → IdType) (calls : Calls N) (key : Bytes) :
    calls.FallsBack sha256 key ↔
      (∃ v, calls.fetch 0 (sha256 key) key = some v) ∨
      (∀ i ≥ 1, calls.Within i → ∀ v, calls.replica sha256 key i ≠ some (some v)) ∨
      calls.FirstFoundHasValue sha256 key := by
  rcases hfetch : calls.fetch 0 (sha256 key) key with _ | w
  · by_cases hreplica : ∃ i ≥ 1, calls.Within i ∧ ∃ v, calls.replica sha256 key i = some (some v)
    · -- The responsible node has no value and a replica has one: the loop decides.
      obtain ⟨i, hi, hwithin, v, hv⟩ := hreplica
      have hanswer := onDhtGet_of_fetch_eq_none hfetch hwithin.1
      have hnotNone : ¬ ∀ i ≥ 1, calls.Within i → ∀ v, calls.replica sha256 key i ≠ some (some v) :=
        fun hnone => hnone i hi hwithin v hv
      simp only [reduceCtorEq, exists_false, false_or, hnotNone]
      rw [← exists_onDhtGetReplicas_iff]
      constructor
      · intro hfalls
        obtain ⟨-, -, -, u, -, hsuccess⟩ :=
          hfalls.success hfetch ⟨i, hi, hwithin, v, hv⟩
        rw [hanswer, Reply.ofResponse_eq_dhtSuccess_iff] at hsuccess
        exact ⟨u, hsuccess⟩
      · rintro ⟨u, hloop⟩
        rw [hloop] at hanswer
        obtain ⟨k, hk, hwithin', hvalue, -⟩ :=
          (onDhtGetReplicas_eq_some_iff 256 1 (by decide)).mp hloop
        refine ⟨fun _ _ => ⟨k, hk, ⟨hwithin.1, hwithin'⟩, u, hvalue, hanswer⟩, ?_⟩
        intro hfailure
        rw [hanswer] at hfailure
        cases hfailure
    · have hnone : ∀ i ≥ 1, calls.Within i → ∀ v, calls.replica sha256 key i ≠ some (some v) :=
        fun i hi hwithin v hv => hreplica ⟨i, hi, hwithin, v, hv⟩
      refine iff_of_true ⟨fun _ h => absurd h hreplica, fun _ => hnone⟩ (Or.inr (Or.inl hnone))
  · refine iff_of_true ⟨?_, ?_⟩ (Or.inl ⟨w, rfl⟩)
    · intro hnone
      rw [hfetch] at hnone
      cases hnone
    · intro hfailure
      rw [onDhtGet_of_fetch_eq_some hfetch] at hfailure
      cases hfailure

/-- The responsible node has nothing, the node of the first replica is found but has nothing, and the
node of the second replica has a value. -/
def lostFirstReplica : Calls IdType where
  getSuccessor := fun _ _ => some (idOf 0)
  getData := fun i _ _ => if i = 2 then some [7] else none
  average := fun _ => 2

/-- The second replica is not asked for. -/
theorem not_fallsBack :
    lostFirstReplica.onDhtGet (fun _ => idOf 0) [1] = .dhtFailure [1] ∧
      ¬ lostFirstReplica.FallsBack (fun _ => idOf 0) [1] := by
  have hanswer : lostFirstReplica.onDhtGet (fun _ => idOf 0) [1] = .dhtFailure [1] := by decide
  refine ⟨hanswer, ?_⟩
  intro hfalls
  refine hfalls.failure hanswer 2 (by decide) ⟨by decide, ?_⟩ [7] (by decide)
  intro j _ hj
  exact hj

/-! ## Absent responses -/

section ByHash

variable (sha256 : Bytes → IdType) (calls : Calls N) (key : Bytes) (finalHashedKey : IdType)

/-- The replica loop of `onDhtGetKeyIsHashOfData` for a key of any length, from the index `i` on, with
the response received last; `none` if an absent response is read. -/
def getByHashReplicas : ℕ → ℕ → Option Bytes → Option (Option Bytes)
  | 0, _, response => some response
  | fuel + 1, i, response =>
      if i ≤ (calls.average i).toNat then
        let replicatedKey := key ++ [UInt8.ofNat i]
        match calls.getSuccessor i (sha256 replicatedKey) with
        | some node =>
            match calls.getData i node replicatedKey with
            | none => none
            | some value =>
                if sha256 value = finalHashedKey then some (some value)
                else getByHashReplicas fuel (i + 1) (some value)
        | none => getByHashReplicas fuel (i + 1) response
      else some response

/-- `Dht::onDhtGetKeyIsHashOfData` for a key of any length and the array it is copied into; `none` if
an absent response is read. -/
def getByHash : Option Reply :=
  match calls.fetch 0 finalHashedKey key with
  -- `response->begin()` is evaluated before the test whether there is a response.
  | none => none
  | some value =>
      let response :=
        if sha256 value ≠ finalHashedKey then
          calls.getByHashReplicas sha256 key finalHashedKey 256 1 (some value)
        else some (some value)
      response.map (.ofResponse key)

/-- What is expected of `onDhtGetKeyIsHashOfData` when copies are missing: it reads no absent
response, and it reports failure if no copy was obtained. -/
structure CompletesSafely : Prop where
  completes : calls.getByHash sha256 key finalHashedKey ≠ none
  failure : calls.fetch 0 finalHashedKey key = none →
    (∀ i ≥ 1, (∀ j ≥ 1, j ≤ i → j ≤ (calls.average j).toNat) →
      ∀ v, calls.replica sha256 key i ≠ some (some v)) →
    calls.getByHash sha256 key finalHashedKey = some (.dhtFailure key)

/-- From the index `i` on, a node that is found has lost its replica, and no replica before it has the
right hash. -/
def MeetsLostReplica (i : ℕ) : Prop :=
  Run.Scan (fun j => j ≤ (calls.average j).toNat)
    (fun k => calls.replica sha256 key k = some none)
    (fun j => ∀ v, calls.replica sha256 key j = some (some v) → sha256 v ≠ finalHashedKey) i

end ByHash

variable {finalHashedKey : IdType}

/-- One round of the loop. -/
lemma getByHashReplicas_succ (fuel i : ℕ) (response : Option Bytes) :
    calls.getByHashReplicas sha256 key finalHashedKey (fuel + 1) i response =
      if i ≤ (calls.average i).toNat then
        match calls.replica sha256 key i with
        | none => calls.getByHashReplicas sha256 key finalHashedKey fuel (i + 1) response
        | some none => none
        | some (some v) =>
            if sha256 v = finalHashedKey then some (some v)
            else calls.getByHashReplicas sha256 key finalHashedKey fuel (i + 1) (some v)
      else some response := by
  rw [getByHashReplicas, replica]
  rcases hnode : calls.getSuccessor i (sha256 (key ++ [UInt8.ofNat i])) with _ | node
  · simp only [hnode, Option.map_none]
  · rcases hdata : calls.getData i node (key ++ [UInt8.ofNat i]) with _ | v
    · simp only [hnode, hdata, Option.map_some]
    · simp only [hnode, hdata, Option.map_some]

lemma getByHashReplicas_bytes (key : IdType) (fuel i : ℕ) (response : Option Bytes) :
    calls.getByHashReplicas sha256 key.bytes key fuel i response =
      calls.onDhtGetKeyIsHashOfDataReplicas sha256 key fuel i response := by
  induction fuel generalizing i response with
  | zero => rfl
  | succ fuel ih =>
    rw [getByHashReplicas_succ, onDhtGetKeyIsHashOfDataReplicas_succ]
    simp only [ih]
    rfl

/-- For a key of 32 bytes this is `onDhtGetKeyIsHashOfData`. -/
lemma getByHash_bytes (key : IdType) :
    calls.getByHash sha256 key.bytes key = calls.onDhtGetKeyIsHashOfData sha256 key := by
  rw [getByHash, onDhtGetKeyIsHashOfData]
  rcases calls.fetch 0 key key.bytes with _ | v
  · rfl
  · simp only [getByHashReplicas_bytes]

/-- The loop reads an absent response exactly when it comes to a node that has lost its replica.  By
induction on the rounds. -/
lemma getByHashReplicas_eq_none_iff (fuel i : ℕ) (hfuel : 256 ≤ i + fuel)
    (response : Option Bytes) :
    calls.getByHashReplicas sha256 key finalHashedKey fuel i response = none ↔
      calls.MeetsLostReplica sha256 key finalHashedKey i := by
  induction fuel generalizing i response with
  | zero =>
    have hbound := (calls.average i).toNat_lt
    rw [MeetsLostReplica, Run.scan_iff]
    simp only [getByHashReplicas, reduceCtorEq, false_iff]
    rintro ⟨hi, -⟩
    omega
  | succ fuel ih =>
    rw [getByHashReplicas_succ, MeetsLostReplica, Run.scan_iff, ← MeetsLostReplica]
    by_cases hi : i ≤ (calls.average i).toNat
    · rw [if_pos hi]
      rcases calls.replica sha256 key i with _ | _ | v
      · simpa [hi] using ih (i + 1) (by omega) response
      · simp [hi]
      · by_cases hv : sha256 v = finalHashedKey
        · simp [hv]
        · simpa [hi, hv] using ih (i + 1) (by omega) (some v)
    · simp [hi]

/-- **Absent responses.**  `onDhtGetKeyIsHashOfData` completes without reading an absent response
exactly when the responsible node has a value and either its hash is right or no node that is found
has lost its replica before a replica with the right hash comes. -/
theorem completesSafely_iff (sha256 : Bytes → IdType) (calls : Calls N) (key : Bytes)
    (finalHashedKey : IdType) :
    calls.CompletesSafely sha256 key finalHashedKey ↔
      ∃ v, calls.fetch 0 finalHashedKey key = some v ∧
        (sha256 v = finalHashedKey ∨ ¬ calls.MeetsLostReplica sha256 key finalHashedKey 1) := by
  have hiff : calls.getByHash sha256 key finalHashedKey ≠ none ↔
      ∃ v, calls.fetch 0 finalHashedKey key = some v ∧
        (sha256 v = finalHashedKey ∨ ¬ calls.MeetsLostReplica sha256 key finalHashedKey 1) := by
    unfold getByHash
    rcases hfetch : calls.fetch 0 finalHashedKey key with _ | w
    · simp
    · by_cases hw : sha256 w = finalHashedKey
      · simp [hw]
      · have hloop : calls.getByHashReplicas sha256 key finalHashedKey 256 1 (some w) = none ↔ _ :=
          getByHashReplicas_eq_none_iff 256 1 (by decide) (some w)
        simp [hw, hloop]
  constructor
  · intro hsafely
    exact hiff.mp hsafely.completes
  · intro hcondition
    refine ⟨hiff.mpr hcondition, ?_⟩
    intro hnone
    obtain ⟨v, hv, -⟩ := hcondition
    rw [hnone] at hv
    cases hv

/-- A key that is stored nowhere. -/
def notStored : Calls IdType where
  getSuccessor := fun _ _ => some (idOf 0)
  getData := fun _ _ _ => none
  average := fun _ => 0

/-- The absent response of the responsible node is read. -/
theorem not_completesSafely :
    notStored.onDhtGetKeyIsHashOfData (fun _ => idOf 0) (idOf 1) = none ∧
      ¬ notStored.CompletesSafely (fun _ => idOf 0) (idOf 1).bytes (idOf 1) := by
  have habsent : notStored.onDhtGetKeyIsHashOfData (fun _ => idOf 0) (idOf 1) = none := rfl
  refine ⟨habsent, ?_⟩
  intro hsafely
  exact hsafely.completes (by rw [getByHash_bytes, habsent])

end Calls

end ChordPlusPlus
