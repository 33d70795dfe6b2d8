import ChordPlusPlus.Dht.Handlers
import ChordPlusPlus.Foundation.Run

/-!
# Integrity of content-addressed data

A client that asks for the value with a given hash should never be handed another value.
`onDhtGetKeyIsHashOfData` tests the hash of every value it receives, but the value that failed the
last test stays in `response` and is sent to the client all the same; and it reads the response before
it tests whether there is one.  The handler keeps the promise exactly when the responsible node returns
a value, and this value is the right one, or a replica is found before a replica turns out to be missing.
-/

namespace ChordPlusPlus

namespace Calls

variable {N : Type*} (sha256 : Bytes → IdType) (calls : Calls N) (key : IdType)

/-- The answer for the `i`-th replica: `none` if its node is not found, `some none` if the node has
no value. -/
def probe (i : ℕ) : Option (Option Bytes) :=
  (calls.getSuccessor i (sha256 (key.bytes ++ [UInt8.ofNat i]))).map fun node =>
    calls.getData i node (key.bytes ++ [UInt8.ofNat i])

/-- From the index `i` on, a replica within the average replication index has the right hash, and no
node before it has lost its replica. -/
def ReplicaFrom (i : ℕ) : Prop :=
  Run.Scan (fun j => j ≤ (calls.average j).toNat)
    (fun k => ∃ v, calls.probe sha256 key k = some (some v) ∧ sha256 v = key)
    (fun j => calls.probe sha256 key j ≠ some none) i

/-- The promise of the handler: a value it hands out hashes to the key, and if it hands out none, it
reports failure.  Once it has read an absent response its outcome is undefined, so that it may hand out
anything; this breaks the promise too. -/
def ContentIntegrity : Prop :=
  (∀ v, calls.onDhtGetKeyIsHashOfData sha256 key = some (.dhtSuccess key.bytes v) →
    sha256 v = key) ∧
  ((∀ v, calls.onDhtGetKeyIsHashOfData sha256 key ≠ some (.dhtSuccess key.bytes v)) →
    calls.onDhtGetKeyIsHashOfData sha256 key = some (.dhtFailure key.bytes))

variable {sha256 calls key}

/-- One round of the replica loop. -/
lemma onDhtGetKeyIsHashOfDataReplicas_succ (fuel i : ℕ) (response : Option Bytes) :
    calls.onDhtGetKeyIsHashOfDataReplicas sha256 key (fuel + 1) i response =
      if i ≤ (calls.average i).toNat then
        match calls.probe sha256 key i with
        | none => calls.onDhtGetKeyIsHashOfDataReplicas sha256 key fuel (i + 1) response
        | some none => none
        | some (some v) =>
            if sha256 v = key then some (some v)
            else calls.onDhtGetKeyIsHashOfDataReplicas sha256 key fuel (i + 1) (some v)
      else some response := by
  rw [onDhtGetKeyIsHashOfDataReplicas, probe]
  cases hnode : calls.getSuccessor i (sha256 (key.bytes ++ [UInt8.ofNat i])) with
  | none => simp only [hnode, Option.map_none]
  | some node =>
    cases hdata : calls.getData i node (key.bytes ++ [UInt8.ofNat i]) with
    | none => simp only [hnode, hdata, Option.map_some]
    | some v => simp only [hnode, hdata, Option.map_some]

/-- The loop that starts with a value ends with one, unless it reads an empty response. -/
lemma onDhtGetKeyIsHashOfDataReplicas_ne_none (fuel i : ℕ) (w : Bytes) :
    calls.onDhtGetKeyIsHashOfDataReplicas sha256 key fuel i (some w) ≠ some none := by
  induction fuel generalizing i w with
  | zero => simp [onDhtGetKeyIsHashOfDataReplicas]
  | succ fuel ih =>
    rw [onDhtGetKeyIsHashOfDataReplicas_succ]
    split_ifs with hi
    · rcases calls.probe sha256 key i with _ | _ | v
      · exact ih (i + 1) w
      · simp
      · show (if sha256 v = key then _ else _) ≠ _
        split_ifs with hv
        · simp
        · exact ih (i + 1) v
    · simp

/-- The loop, entered with a wrong value, ends with a right one exactly when a replica is found.  By
induction on the rounds; the fuel outlasts every index an eight-bit average admits. -/
lemma exists_right_value_iff (fuel i : ℕ) (hfuel : 256 ≤ i + fuel) {w : Bytes}
    (hw : sha256 w ≠ key) :
    (∃ v, calls.onDhtGetKeyIsHashOfDataReplicas sha256 key fuel i (some w) = some (some v) ∧
      sha256 v = key) ↔ calls.ReplicaFrom sha256 key i := by
  induction fuel generalizing i w with
  | zero =>
    have hbound := (calls.average i).toNat_lt
    rw [ReplicaFrom, Run.scan_iff]
    simp only [onDhtGetKeyIsHashOfDataReplicas, Option.some.injEq, exists_eq_left']
    constructor
    · exact fun h => absurd h hw
    · rintro ⟨hi, -⟩
      omega
  | succ fuel ih =>
    rw [onDhtGetKeyIsHashOfDataReplicas_succ, ReplicaFrom, Run.scan_iff, ← ReplicaFrom]
    by_cases hi : i ≤ (calls.average i).toNat
    · rw [if_pos hi]
      rcases hprobe : calls.probe sha256 key i with _ | _ | v
      · simpa [hi] using ih (i + 1) (by omega) hw
      · simp
      · by_cases hv : sha256 v = key
        · simp [hi, hv]
        · simpa [hi, hv] using ih (i + 1) (by omega) hv
    · simp [hi, hw]

/-- The handler keeps its promise exactly when the responsible node returns a value, and this value has
the right hash, or one of the replicas has it and is reached. -/
theorem contentIntegrity_iff : calls.ContentIntegrity sha256 key ↔
    ∃ v, calls.fetch 0 key key.bytes = some v ∧
      (sha256 v = key ∨ calls.ReplicaFrom sha256 key 1) := by
  unfold ContentIntegrity onDhtGetKeyIsHashOfData
  cases hfetch : calls.fetch 0 key key.bytes with
  | none => simp
  | some w =>
    by_cases hw : sha256 w = key
    · simp [hw, Reply.ofResponse]
    · -- Wrong value at the responsible node: the replica loop decides.
      have hright := @exists_right_value_iff _ _ calls _ 256 1 (by decide) _ hw
      rcases hloop : calls.onDhtGetKeyIsHashOfDataReplicas sha256 key 256 1 (some w) with
        _ | _ | v
      · have hno : ¬ calls.ReplicaFrom sha256 key 1 := by
          rw [← hright, hloop]
          simp
        simp [hw, hno, hloop]
      · exact absurd hloop (onDhtGetKeyIsHashOfDataReplicas_ne_none 256 1 w)
      · have hiff : calls.ReplicaFrom sha256 key 1 ↔ sha256 v = key := by
          rw [← hright, hloop]
          simp
        simp [hw, hiff, hloop, Reply.ofResponse]

/-- The only node has the value `[1]` under the key `02…`, which is the hash of `[2]`. -/
def alteredPrimary : Calls IdType where
  getSuccessor := fun _ _ => some (idOf 0)
  getData := fun _ _ _ => some [1]
  average := fun _ => 0

/-- The handler hands out the altered value. -/
theorem not_contentIntegrity :
    ¬ alteredPrimary.ContentIntegrity (fun v => idOf (v.headD 0)) (idOf 2) := by
  intro h
  have hwrong := h.1 [1] (by decide)
  revert hwrong
  decide

end Calls

end ChordPlusPlus
