import ChordPlusPlus.Storage.Integrity
import ChordPlusPlus.Storage.Requests

/-!
# Replicas of content-addressed data

`onDhtPutKeyIsHashOfData` derives the place and the key of the `i`-th replica from the value with the
byte `i` appended, `onDhtGetKeyIsHashOfData` from the hash of the value with the byte `i` appended.
The get therefore never looks where the put has written.  Once the copy at the responsible node is
damaged, the value is found exactly if a copy happens to lie where the get looks, under the hash of
the value with a byte appended.
-/

namespace ChordPlusPlus

namespace Calls

variable {N : Type*} {sha256 : Bytes → IdType} {calls : Calls N} {key : IdType}

/-- From the index `i` on, the first replica with the right hash that the loop meets is `v`. -/
def FirstReplica (sha256 : Bytes → IdType) (calls : Calls N) (key : IdType) (v : Bytes) (i : ℕ) :
    Prop :=
  Run.Scan (fun j => j ≤ (calls.average j).toNat)
    (fun k => calls.probe sha256 key k = some (some v))
    (fun j => calls.probe sha256 key j ≠ some none ∧
      ∀ u, calls.probe sha256 key j = some (some u) → sha256 u ≠ key) i

/-- The loop, entered with a wrong value, ends with the right value `v` exactly when `v` is the first
replica with the right hash that it meets. -/
lemma replicas_eq_iff (fuel i : ℕ) (hfuel : 256 ≤ i + fuel) {v w : Bytes} (hv : sha256 v = key)
    (hw : sha256 w ≠ key) :
    calls.onDhtGetKeyIsHashOfDataReplicas sha256 key fuel i (some w) = some (some v) ↔
      FirstReplica sha256 calls key v i := by
  induction fuel generalizing i w with
  | zero =>
    have hbound := (calls.average i).toNat_lt
    have hwv : w ≠ v := fun hwv => hw (hwv ▸ hv)
    rw [FirstReplica, Run.scan_iff]
    simp only [onDhtGetKeyIsHashOfDataReplicas, Option.some.injEq]
    constructor
    · exact fun h => absurd h hwv
    · rintro ⟨hi, -⟩
      omega
  | succ fuel ih =>
    rw [onDhtGetKeyIsHashOfDataReplicas_succ, FirstReplica, Run.scan_iff, ← FirstReplica]
    by_cases hi : i ≤ (calls.average i).toNat
    · rw [if_pos hi]
      rcases hprobe : calls.probe sha256 key i with _ | _ | u
      · simpa [hi] using ih (i + 1) (by omega) hw
      · simp
      · by_cases hu : sha256 u = key
        · simp [hi, hu]
        · have huv : u ≠ v := fun huv => hu (huv ▸ hv)
          simpa [hi, hu, huv] using ih (i + 1) (by omega) hu
    · have hwv : w ≠ v := fun hwv => hw (hwv ▸ hv)
      simp [hi, hwv]

end Calls

section Ring

variable {N : Type*} [Endpoint N]

/-- The node responsible for the hash of `key` has the value `v` under it. -/
def HeldByHash (sha256 : Bytes → IdType) (net : Network N) (ring : Finset N) (key v : Bytes) :
    Prop :=
  ∃ s, Arc.Owns getId ring (sha256 key) s ∧ (net.info s).getData key = some v

/-- The node responsible for the id `key` has the value `v` under it. -/
def HeldById (net : Network N) (ring : Finset N) (key : IdType) (v : Bytes) : Prop :=
  ∃ s, Arc.Owns getId ring key s ∧ (net.info s).getData key.bytes = some v

variable [DecidableEq N] {net : Network N} {ring : Finset N}

/-- On an ideal ring every probe finds a node, the responsible one. -/
lemma IsIdeal.probe_eq (h : IsIdeal net ring) {m s : N} (hm : m ∈ ring) {fuel : ℕ}
    (hfuel : ring.card + 3 ≤ fuel) {sha256 : Bytes → IdType} {key : IdType} {average : UInt8}
    {j : ℕ} (hown : Arc.Owns getId ring (sha256 (key.bytes ++ [UInt8.ofNat j])) s) :
    (net.calls fuel m average).probe sha256 key j =
      some ((net.info s).getData (key.bytes ++ [UInt8.ofNat j])) := by
  simp [Calls.probe, Network.calls, h.dhtGetSuccessor_eq hm hown hfuel, h.getData_eq hown.mem]

omit [DecidableEq N] in
lemma heldByHash_iff {sha256 : Bytes → IdType} {key v : Bytes} {s : N}
    (hown : Arc.Owns getId ring (sha256 key) s) :
    HeldByHash sha256 net ring key v ↔ (net.info s).getData key = some v := by
  constructor
  · rintro ⟨s', hown', hv⟩
    rwa [hown.unique getId_injective hown']
  · exact fun hv => ⟨s, hown, hv⟩

omit [DecidableEq N] in
lemma heldById_iff {key : IdType} {v : Bytes} {s : N} (hown : Arc.Owns getId ring key s) :
    HeldById net ring key v ↔ (net.info s).getData key.bytes = some v := by
  constructor
  · rintro ⟨s', hown', hv⟩
    rwa [hown.unique getId_injective hown']
  · exact fun hv => ⟨s, hown, hv⟩

/-- What the replica loop finds on an ideal ring, in terms of the stores. -/
lemma IsIdeal.firstReplica_iff (h : IsIdeal net ring) {m : N} (hm : m ∈ ring) {fuel : ℕ}
    (hfuel : ring.card + 3 ≤ fuel) {sha256 : Bytes → IdType} {key : IdType} {average : UInt8}
    {v : Bytes} :
    Calls.FirstReplica sha256 (net.calls fuel m average) key v 1 ↔
      Run.Scan (fun j => j ≤ average.toNat)
        (fun k => HeldByHash sha256 net ring (key.bytes ++ [UInt8.ofNat k]) v)
        (fun j => ∃ u, HeldByHash sha256 net ring (key.bytes ++ [UInt8.ofNat j]) u ∧
          sha256 u ≠ key) 1 := by
  refine Run.scan_congr ?_ ?_
  · intro k
    obtain ⟨s, hown⟩ := @Arc.exists_owns N IdType _ getId _ h.nonempty
      (sha256 (key.bytes ++ [UInt8.ofNat k]))
    rw [h.probe_eq hm hfuel hown, heldByHash_iff hown, Option.some.injEq]
  · intro j
    obtain ⟨s, hown⟩ := @Arc.exists_owns N IdType _ getId _ h.nonempty
      (sha256 (key.bytes ++ [UInt8.ofNat j]))
    simp only [h.probe_eq hm hfuel hown, heldByHash_iff hown, Option.some.injEq]
    cases (net.info s).getData (key.bytes ++ [UInt8.ofNat j]) with
    | none => simp
    | some u => simp

/-- The value `v` was stored by `onDhtPutKeyIsHashOfData` with at least two copies.  In the state
`net` the copy at the responsible node is altered or gone, while a replica that the put has written,
with an index within the average replication index, is intact. -/
structure Damaged (ctx : Network.PutContext) (ring : Finset N) (putNode : N) (v : Bytes)
    (ttl : UInt16) (replication : UInt8) (indices : List UInt8) (net₀ net : Network N)
    (average : UInt8) : Prop where
  ideal₀ : IsIdeal net₀ ring
  ideal : IsIdeal net ring
  putNode_mem : putNode ∈ ring
  replicated : 2 ≤ replication
  primary : ¬ HeldById net ring (ctx.sha256 v) v
  replica : ∃ i s, 1 ≤ i ∧ i < replication.toNat ∧ i ≤ average.toNat ∧
    Arc.Owns getId ring (ctx.sha256 (v ++ [UInt8.ofNat i])) s ∧
    ((net₀.onDhtPutKeyIsHashOfData ctx putNode v ttl replication indices).2.info s).getData
      (ctx.sha256 (v ++ [UInt8.ofNat i])).bytes = some v ∧
    (net.info s).getData (ctx.sha256 (v ++ [UInt8.ofNat i])).bytes = some v

/-- From a damaged state the value is recovered exactly when the responsible node holds a value with
another hash, and a copy of the value lies under its hash with a byte `k` appended, at the node
responsible for the hash of that, with values of another hash at all such places before it. -/
theorem damaged_recovered_iff {ctx : Network.PutContext} {putNode : N} {v : Bytes} {ttl : UInt16}
    {replication : UInt8} {indices : List UInt8} {net₀ : Network N} {average : UInt8}
    (h : Damaged ctx ring putNode v ttl replication indices net₀ net average) {m : N}
    (hm : m ∈ ring) {fuel : ℕ} (hfuel : ring.card + 3 ≤ fuel) :
    (net.calls fuel m average).onDhtGetKeyIsHashOfData ctx.sha256 (ctx.sha256 v) =
        some (.dhtSuccess (ctx.sha256 v).bytes v) ↔
      (∃ w, HeldById net ring (ctx.sha256 v) w ∧ ctx.sha256 w ≠ ctx.sha256 v) ∧
      Run.Scan (fun j => j ≤ average.toNat)
        (fun k => HeldByHash ctx.sha256 net ring ((ctx.sha256 v).bytes ++ [UInt8.ofNat k]) v)
        (fun j => ∃ u, HeldByHash ctx.sha256 net ring
          ((ctx.sha256 v).bytes ++ [UInt8.ofNat j]) u ∧ ctx.sha256 u ≠ ctx.sha256 v) 1 := by
  obtain ⟨s, hown⟩ := @Arc.exists_owns N IdType _ getId _ h.ideal.nonempty (ctx.sha256 v)
  have hprimary := h.primary
  have hfetch := h.ideal.fetch_eq hm hown hfuel average 0 (ctx.sha256 v).bytes
  simp only [heldById_iff hown] at hprimary ⊢
  rw [← h.ideal.firstReplica_iff hm hfuel, Calls.onDhtGetKeyIsHashOfData, hfetch]
  cases hw : (net.info s).getData (ctx.sha256 v).bytes with
  | none => simp
  | some w =>
    have hwv : w ≠ v := fun hwv => hprimary (hwv ▸ hw)
    by_cases hhash : ctx.sha256 w = ctx.sha256 v
    · simp [hhash, Reply.ofResponse, hwv]
    · rw [← Calls.replicas_eq_iff 256 1 (by decide) rfl hhash]
      rcases hloop : (net.calls fuel m average).onDhtGetKeyIsHashOfDataReplicas ctx.sha256
        (ctx.sha256 v) 256 1 (some w) with _ | _ | u
      · simp [hhash, hloop]
      · simp [hhash, hloop, Reply.ofResponse]
      · simp [hhash, hloop, Reply.ofResponse]

end Ring

/-! ## A damaged state that is not recovered -/

/-- A hash for which small examples can be computed: the sum of the bytes, as first byte. -/
def byteSum (bytes : Bytes) : IdType := idOf (bytes.foldl (· + ·) 0)

/-- Two nodes, the lookups of both by the hop loop. -/
def pairNetwork : Network IdType :=
  ⟨pairInfo (idOf 0x40) (idOf 0x80), fun _ => true, fun _ => .localHops⟩

/-- The setting of the example: five steps for a lookup, at most five copies on a node. -/
def exampleContext : Network.PutContext := ⟨byteSum, 5, 5, fun _ => 0⟩

/-- The node `40…` stores `[64]` with one replica, which goes to the node `80…`; then the copy at
`40…` is overwritten with `[9]`. -/
def alteredNetwork : Network IdType :=
  (pairNetwork.onDhtPutKeyIsHashOfData exampleContext (idOf 0x40) [0x40] 0 2 []).2.setData
    (idOf 0x40) (idOf 0x40) 0 (idOf 0x40).bytes [9] 0

lemma owns_altered :
    Arc.Owns getId {idOf 0x40, idOf 0x80} (exampleContext.sha256 [0x40]) (idOf 0x40) := by
  refine ⟨idOf 0x80, ?_, by decide⟩
  rw [Finset.pair_comm]
  exact isNext_pair _ _

/-- The example is a damaged state: the replica at the node `80…` is intact. -/
lemma damaged_altered :
    Damaged exampleContext {idOf 0x40, idOf 0x80} (idOf 0x40) [0x40] 0 2 [] pairNetwork
      alteredNetwork 2 := by
  have hpair : IsIdeal pairNetwork {idOf 0x40, idOf 0x80} := isIdeal_pair (by decide) _
  have hmem : idOf 0x40 ∈ ({idOf 0x40, idOf 0x80} : Finset IdType) := by simp
  have hput : IsIdeal (pairNetwork.put exampleContext (idOf 0x40)
      (fun key => (exampleContext.sha256 key).bytes) [0x40] [0x40] 0 2) {idOf 0x40, idOf 0x80} :=
    (hpair.put_spec hmem (by decide) owns_altered [0x40] 0 2).1.isIdeal hpair
  refine ⟨hpair, (Network.setData_sameExcept ..).isIdeal hput, hmem, by decide, ?_, ?_⟩
  · rw [heldById_iff owns_altered]
    decide +kernel
  · exact ⟨1, idOf 0x80, by decide, by decide, by decide, ⟨idOf 0x40, isNext_pair _ _, by decide⟩,
      by decide +kernel, by decide +kernel⟩

/-- The criterion at the example. -/
theorem damaged_recovered_iff_altered :
    (alteredNetwork.calls 5 (idOf 0x80) 2).onDhtGetKeyIsHashOfData byteSum (byteSum [0x40]) =
        some (.dhtSuccess (byteSum [0x40]).bytes [0x40]) ↔
      (∃ w, HeldById alteredNetwork {idOf 0x40, idOf 0x80} (byteSum [0x40]) w ∧
        byteSum w ≠ byteSum [0x40]) ∧
      Run.Scan (fun j => j ≤ (2 : UInt8).toNat)
        (fun k => HeldByHash byteSum alteredNetwork {idOf 0x40, idOf 0x80}
          ((byteSum [0x40]).bytes ++ [UInt8.ofNat k]) [0x40])
        (fun j => ∃ u, HeldByHash byteSum alteredNetwork {idOf 0x40, idOf 0x80}
          ((byteSum [0x40]).bytes ++ [UInt8.ofNat j]) u ∧ byteSum u ≠ byteSum [0x40]) 1 :=
  damaged_recovered_iff damaged_altered (by simp) (by decide)

/-- A get at the node with the intact replica does not answer with the value. -/
theorem damaged_not_recovered :
    Damaged exampleContext {idOf 0x40, idOf 0x80} (idOf 0x40) [0x40] 0 2 [] pairNetwork
        alteredNetwork 2 ∧
      (alteredNetwork.calls 5 (idOf 0x80) 2).onDhtGetKeyIsHashOfData byteSum (byteSum [0x40]) ≠
        some (.dhtSuccess (byteSum [0x40]).bytes [0x40]) :=
  ⟨damaged_altered, by decide +kernel⟩

end ChordPlusPlus
