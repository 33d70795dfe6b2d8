import ChordPlusPlus.Foundation.LastWrite
import ChordPlusPlus.Storage.Integrity
import ChordPlusPlus.Storage.ReadYourWrites

/-!
# Items by key and items by content

`DHT_PUT` places an item by the hash of its key and stores it under the key;
`DHT_PUT_KEY_IS_HASH_OF_DATA` places an item by the hash of its value and stores it under that hash.
Both write to the same stores, and a client may choose a hash as the key of a `DHT_PUT`.

The two families write to the same cell when the key is the hash of the value and one node is
responsible both for the hash and for the hash of the hash.  On a ring with one node that is always
so.  `independent_iff_separate` says that requests without replicas leave each family as if the other
did not exist exactly when they keep apart (`Separate`).
-/

namespace ChordPlusPlus

/-- The two kinds of put requests. -/
inductive Family
  /-- `DHT_PUT` with a key of 32 bytes. -/
  | item (key : IdType)
  /-- `DHT_PUT_KEY_IS_HASH_OF_DATA`. -/
  | content
deriving DecidableEq

/-- A put request without expiry at the node `self`, with the clock readings `now`. -/
structure StoreRequest (N : Type*) where
  self : N
  family : Family
  value : Bytes
  replication : UInt8
  now : ℕ → TimePoint

namespace StoreRequest

variable {N : Type*} (sha256 : Bytes → IdType) (r : StoreRequest N)

/-- The position on the ring at which the request stores its item. -/
def place : IdType :=
  match r.family with
  | .item key => sha256 key.bytes
  | .content => sha256 r.value

/-- The key under which the request stores its item. -/
def storedKey : IdType :=
  match r.family with
  | .item key => key
  | .content => sha256 r.value

/-- The value of a `DHT_PUT` of `key`. -/
def itemValue (key : IdType) : Option Bytes := if r.family = .item key then some r.value else none

end StoreRequest

/-- The value of the last `DHT_PUT` of `key`. -/
def lastItem {N : Type*} (key : IdType) (rs : List (StoreRequest N)) : Option Bytes :=
  LastWrite.last (StoreRequest.itemValue · key) rs

/-- The value `v` is put by content. -/
def IsContent {N : Type*} (v : Bytes) (rs : List (StoreRequest N)) : Prop :=
  ∃ r ∈ rs, r.family = .content ∧ r.value = v

/-- The requests keep apart: values put by content have different hashes, and if one node is
responsible for the hash of such a value and for the hash of that hash, then the last `DHT_PUT` that
chose the hash as its key, if there is one, has put that value too. -/
def Separate {N : Type*} [Endpoint N] (sha256 : Bytes → IdType) (ring : Finset N)
    (rs : List (StoreRequest N)) : Prop :=
  ∀ v, IsContent v rs →
    (∀ w, IsContent w rs → sha256 w = sha256 v → w = v) ∧
    ((∃ s, Arc.Owns getId ring (sha256 v) s ∧
        Arc.Owns getId ring (sha256 (sha256 v).bytes) s) →
      ∀ w, lastItem (sha256 v) rs = some w → w = v)

/-! ## Cells -/

section Cells

variable {N : Type*} [DecidableEq N] (sha256 : Bytes → IdType) (owner : IdType → N)

/-- What a request writes under `key` at the node `s`, where `owner` are the responsible nodes. -/
def cellValue (s : N) (key : Bytes) (r : StoreRequest N) : Option Bytes :=
  if owner (r.place sha256) = s ∧ (r.storedKey sha256).bytes = key then some r.value else none

/-- Each family finds its own last value in its cell. -/
structure CellsHold (rs : List (StoreRequest N)) : Prop where
  items : ∀ key w, lastItem key rs = some w →
    LastWrite.last (cellValue sha256 owner (owner (sha256 key.bytes)) key.bytes) rs = some w
  contents : ∀ v, IsContent v rs →
    LastWrite.last (cellValue sha256 owner (owner (sha256 v)) (sha256 v).bytes) rs = some v

variable {sha256 owner} {rs : List (StoreRequest N)}

lemma cellValue_eq_some_iff {s : N} {key : Bytes} {r : StoreRequest N} {v : Bytes} :
    cellValue sha256 owner s key r = some v ↔
      owner (r.place sha256) = s ∧ (r.storedKey sha256).bytes = key ∧ r.value = v := by
  unfold cellValue
  split_ifs with h
  · simp [h.1, h.2]
  · simp only [false_iff]
    exact fun hv => h ⟨hv.1, hv.2.1⟩

omit [DecidableEq N] in
/-- A request that writes to the cell of the key of a `DHT_PUT` is a put of that key, or puts a value
by content whose hash is the key. -/
lemma family_of_storedKey {r : StoreRequest N} {key : IdType}
    (h : (r.storedKey sha256).bytes = key.bytes) :
    r.family = .item key ∨ r.family = .content ∧ sha256 r.value = key := by
  have hkey : r.storedKey sha256 = key := by
    obtain ⟨bytes, hsize⟩ := key
    rcases hstored : r.storedKey sha256 with ⟨stored, hstoredSize⟩
    rw [hstored] at h
    subst h
    rfl
  unfold StoreRequest.storedKey at hkey
  rcases hfamily : r.family with key' | _
  · rw [hfamily] at hkey
    exact Or.inl (congrArg Family.item hkey)
  · rw [hfamily] at hkey
    exact Or.inr ⟨rfl, hkey⟩

/-- The last write to a cell is a value put by content that has the key as its hash, or the last
`DHT_PUT` of the key. -/
lemma last_cellValue_cases {key : IdType} {s : N} {u : Bytes}
    (h : LastWrite.last (cellValue sha256 owner s key.bytes) rs = some u) :
    (owner (sha256 key.bytes) = s ∧ lastItem key rs = some u) ∨
      (owner key = s ∧ IsContent u rs ∧ sha256 u = key) := by
  obtain ⟨before, r, after, hsplit, hr, hafter⟩ := LastWrite.last_eq_some_iff.mp h
  obtain ⟨hplace, hstored, rfl⟩ := cellValue_eq_some_iff.mp hr
  unfold StoreRequest.place at hplace
  rcases family_of_storedKey hstored with hfamily | ⟨hfamily, hhash⟩
  · left
    rw [hfamily] at hplace
    refine ⟨hplace, LastWrite.last_eq_some_iff.mpr ⟨before, r, after, hsplit, if_pos hfamily, ?_⟩⟩
    intro x hx
    -- A later put of the key would have written to the cell.
    have hnone := hafter x hx
    refine if_neg ?_
    intro hitem
    have hwrites : cellValue sha256 owner s key.bytes x = some x.value := by
      rw [cellValue_eq_some_iff, StoreRequest.place, StoreRequest.storedKey, hitem]
      exact ⟨hplace, rfl, rfl⟩
    rw [hnone] at hwrites
    cases hwrites
  · right
    rw [hfamily] at hplace
    have hmem : r ∈ rs := by
      rw [hsplit]
      simp
    exact ⟨hhash ▸ hplace, ⟨r, hmem, hfamily, rfl⟩, hhash⟩

/-- A put writes to its cell. -/
lemma exists_last_item {key : IdType} {w : Bytes} (h : lastItem key rs = some w) :
    ∃ u, LastWrite.last (cellValue sha256 owner (owner (sha256 key.bytes)) key.bytes) rs =
      some u := by
  obtain ⟨before, r, after, hsplit, hr, -⟩ := LastWrite.last_eq_some_iff.mp h
  have hfamily : r.family = .item key := by
    by_contra hne
    rw [StoreRequest.itemValue, if_neg hne] at hr
    cases hr
  refine LastWrite.exists_last_of_mem (a := r) (b := r.value) ?_ ?_
  · rw [hsplit]
    simp
  · rw [cellValue_eq_some_iff, StoreRequest.place, StoreRequest.storedKey, hfamily]
    exact ⟨rfl, rfl, rfl⟩

/-- A put by content writes to its cell. -/
lemma exists_last_content {v : Bytes} (h : IsContent v rs) :
    ∃ u, LastWrite.last (cellValue sha256 owner (owner (sha256 v)) (sha256 v).bytes) rs = some u := by
  obtain ⟨r, hr, hfamily, rfl⟩ := h
  refine LastWrite.exists_last_of_mem (a := r) (b := r.value) hr ?_
  rw [cellValue_eq_some_iff, StoreRequest.place, StoreRequest.storedKey, hfamily]
  exact ⟨rfl, rfl, rfl⟩

/-- Each family finds its own last value exactly when the requests keep apart. -/
lemma cellsHold_iff [Endpoint N] {ring : Finset N} (howner : ∀ id, Arc.Owns getId ring id (owner id)) :
    CellsHold sha256 owner rs ↔ Separate sha256 ring rs := by
  constructor
  · intro hcells v hv
    have hlast := hcells.contents v hv
    constructor
    · intro w hw hhash
      have hlast' := hcells.contents w hw
      rw [hhash, hlast] at hlast'
      exact (Option.some.inj hlast').symm
    · rintro ⟨s, hs, hs'⟩ w hw
      have hlast' := hcells.items (sha256 v) w hw
      have hsame : owner (sha256 (sha256 v).bytes) = owner (sha256 v) :=
        ((howner _).unique getId_injective hs').trans (hs.unique getId_injective (howner _))
      rw [hsame, hlast] at hlast'
      exact (Option.some.inj hlast').symm
  · intro hseparate
    constructor
    · intro key w hw
      obtain ⟨u, hu⟩ : ∃ u, LastWrite.last
          (cellValue sha256 owner (owner (sha256 key.bytes)) key.bytes) rs = some u :=
        exists_last_item hw
      rcases last_cellValue_cases hu with ⟨-, hitem⟩ | ⟨hplace, hcontent, rfl⟩
      · rw [hu, ← hitem, hw]
      · -- The last write is by content: the node is responsible for both positions.
        have hwu := (hseparate u hcontent).2 ⟨_, howner _, hplace ▸ howner _⟩ w hw
        rw [hu, hwu]
    · intro v hv
      obtain ⟨u, hu⟩ : ∃ u, LastWrite.last
          (cellValue sha256 owner (owner (sha256 v)) (sha256 v).bytes) rs = some u :=
        exists_last_content hv
      rcases last_cellValue_cases hu with ⟨hplace, hitem⟩ | ⟨-, hcontent, hhash⟩
      · have huv := (hseparate v hv).2 ⟨_, howner _, hplace ▸ howner _⟩ u hitem
        rw [hu, huv]
      · rw [hu, (hseparate v hv).1 u hcontent hhash]

end Cells

/-! ## Requests on an ideal ring -/

namespace Cluster

variable {N P : Type*} [Endpoint N] [DecidableEq N] [DecidableEq P]

section Requests

variable (sha256 : Bytes → IdType) (fuel : ℕ) (replicationLimit : UInt8) (process : N → P)

/-- A `DHT_PUT_KEY_IS_HASH_OF_DATA` at the node `m`, up to the last replica, with the clock readings
`now`. -/
def putKeyIsHashOfData (c : Cluster N P) (m : N) (value : Bytes) (ttl : UInt16)
    (replication : UInt8) (now : ℕ → TimePoint) (clock : TimePoint) : Cluster N P :=
  let result := c.net.onDhtPutKeyIsHashOfData ⟨sha256, fuel, replicationLimit, now⟩ m value ttl
    replication (c.indices (process m))
  ⟨result.2, Function.update c.indices (process m) result.1, clock⟩

/-- `DHT_GET_KEY_IS_HASH_OF_DATA` at the node `m`. -/
def getKeyIsHashOfData (c : Cluster N P) (m : N) (key : IdType) : Option Reply :=
  (c.net.calls fuel m (getAverageReplicationIndex (c.indices
    (process m)))).onDhtGetKeyIsHashOfData sha256 key

/-- A put request of either family, with time to live zero. -/
def serve (c : Cluster N P) (r : StoreRequest N) : Cluster N P :=
  match r.family with
  | .item key =>
      c.put sha256 fuel replicationLimit process r.self key.bytes r.value 0 r.replication r.now
        (r.now 0)
  | .content =>
      c.putKeyIsHashOfData sha256 fuel replicationLimit process r.self r.value 0 r.replication r.now
        (r.now 0)

/-- The requests one after the other. -/
def serveAll (c : Cluster N P) (rs : List (StoreRequest N)) : Cluster N P :=
  rs.foldl (serve sha256 fuel replicationLimit process) c

/-- The two families do not interfere: a `DHT_GET` at any node answers with the value of the last
`DHT_PUT` of its key, and a `DHT_GET_KEY_IS_HASH_OF_DATA` at any node with the value that was put by
content. -/
structure Independent (ring : Finset N) (c : Cluster N P) (rs : List (StoreRequest N)) : Prop where
  items : ∀ key w, lastItem key rs = some w → ∀ m ∈ ring,
    c.get sha256 fuel process m key.bytes = .dhtSuccess key.bytes w
  contents : ∀ v, IsContent v rs → ∀ m ∈ ring,
    c.getKeyIsHashOfData sha256 fuel process m (sha256 v) =
      some (.dhtSuccess (sha256 v).bytes v)

/-- No ring node has a replica of a 32-byte key. -/
def NoReplicas (ring : Finset N) (c : Cluster N P) : Prop :=
  ∀ m ∈ ring, ∀ (key : IdType) (j : UInt8), (c.net.info m).getData (key.bytes ++ [j]) = none

end Requests

variable {sha256 : Bytes → IdType} {fuel : ℕ} {replicationLimit : UInt8} {process : N → P}
  {ring : Finset N} {c : Cluster N P}

/-- A put without replicas on an ideal ring is one store request to the responsible node. -/
lemma serve_net (h : IsIdeal c.net ring) (hfuel : ring.card + 3 ≤ fuel) {r : StoreRequest N}
    (hself : r.self ∈ ring) (hreplication : r.replication ≤ 1) {s : N}
    (hown : Arc.Owns getId ring (r.place sha256) s) :
    (c.serve sha256 fuel replicationLimit process r).net =
      c.net.setData r.self s (r.now 0) (r.storedKey sha256).bytes r.value 0 := by
  have hone : ¬ 2 ≤ r.replication := by
    rw [UInt8.le_iff_toNat_le] at hreplication ⊢
    exact Nat.not_le.mpr (Nat.lt_succ_of_le hreplication)
  unfold serve StoreRequest.storedKey
  unfold StoreRequest.place at hown
  rcases hfamily : r.family with key | _
  · rw [hfamily] at hown
    have hsucc := h.dhtGetSuccessor_eq hself hown hfuel
    simp [put, Network.onDhtPut, Network.put, hsucc, hone]
  · rw [hfamily] at hown
    have hsucc := h.dhtGetSuccessor_eq hself hown hfuel
    simp [putKeyIsHashOfData, Network.onDhtPutKeyIsHashOfData, Network.put, hsucc, hone]

section Owner

variable {owner : IdType → N} (howner : ∀ id, Arc.Owns getId ring id (owner id))

include howner in
/-- What is stored in a cell after a request. -/
lemma serve_getData (h : IsIdeal c.net ring) (hfuel : ring.card + 3 ≤ fuel) {r : StoreRequest N}
    (hself : r.self ∈ ring) (hreplication : r.replication ≤ 1) (m : N) (key : Bytes) :
    ((c.serve sha256 fuel replicationLimit process r).net.info m).getData key =
      (cellValue sha256 owner m key r).or ((c.net.info m).getData key) := by
  have hown := howner (r.place sha256)
  rw [serve_net h hfuel hself hreplication hown]
  by_cases hkey : key = (r.storedKey sha256).bytes
  · subst hkey
    rw [NodeInformation.getData, Network.setData_lookup (h.answers _ hown.mem)]
    by_cases hm : m = owner (r.place sha256)
    · simp [cellValue, hm]
    · simp [cellValue, hm, Ne.symm hm, NodeInformation.getData]
  · have hsame := c.net.setData_sameExcept r.self (owner (r.place sha256)) (r.now 0)
      (r.storedKey sha256).bytes r.value 0
    rw [NodeInformation.getData, hsame.data m key hkey, ← NodeInformation.getData]
    simp [cellValue, Ne.symm hkey]

/-- A deployment on an ideal ring in which each cell holds what the requests wrote to it last, or else
what it held before. -/
structure HoldsLast (sha256 : Bytes → IdType) (ring : Finset N) (owner : IdType → N)
    (c : Cluster N P) (rs : List (StoreRequest N)) (c' : Cluster N P) : Prop where
  ideal : IsIdeal c'.net ring
  getData : ∀ m key, (c'.net.info m).getData key =
    (LastWrite.last (cellValue sha256 owner m key) rs).or ((c.net.info m).getData key)

include howner in
/-- A sequence of requests on an ideal ring. -/
lemma holdsLast_serveAll (h : IsIdeal c.net ring) (hfuel : ring.card + 3 ≤ fuel)
    {rs : List (StoreRequest N)} (hrs : ∀ r ∈ rs, r.self ∈ ring ∧ r.replication ≤ 1) :
    HoldsLast sha256 ring owner c rs (c.serveAll sha256 fuel replicationLimit process rs) := by
  have hfold : ∀ m key, IsIdeal (c.serveAll sha256 fuel replicationLimit process rs).net ring ∧
      ((c.serveAll sha256 fuel replicationLimit process rs).net.info m).getData key =
        (LastWrite.last (cellValue sha256 owner m key) rs).or ((c.net.info m).getData key) := by
    intro m key
    refine LastWrite.read_foldl (fun c : Cluster N P => (c.net.info m).getData key)
      (P := fun c : Cluster N P => IsIdeal c.net ring)
      (Q := fun r : StoreRequest N => r.self ∈ ring ∧ r.replication ≤ 1) ?_ ?_ h hrs
    · intro c r hc hr
      rw [serve_net hc hfuel hr.1 hr.2 (howner _)]
      exact (c.net.setData_sameExcept ..).isIdeal hc
    · intro c r hc hr
      exact serve_getData howner hc hfuel hr.1 hr.2 m key
  exact ⟨(hfold (owner (sha256 [])) []).1, fun m key => (hfold m key).2⟩

end Owner

omit [DecidableEq P] in
/-- A get by hash answers with a value that the responsible node has under its hash. -/
lemma getKeyIsHashOfData_eq_success (h : IsIdeal c.net ring) (hfuel : ring.card + 3 ≤ fuel) {m s : N}
    (hm : m ∈ ring) {v : Bytes} (hown : Arc.Owns getId ring (sha256 v) s)
    (hdata : (c.net.info s).getData (sha256 v).bytes = some v) :
    c.getKeyIsHashOfData sha256 fuel process m (sha256 v) =
      some (.dhtSuccess (sha256 v).bytes v) := by
  have hfetch := h.fetch_eq hm hown hfuel (getAverageReplicationIndex (c.indices (process m))) 0
    (sha256 v).bytes
  rw [hdata] at hfetch
  simp [getKeyIsHashOfData, Calls.onDhtGetKeyIsHashOfData, hfetch, Reply.ofResponse]

omit [DecidableEq P] in
/-- Without replicas a get by hash answers with no other value than that of the responsible node. -/
lemma eq_of_getKeyIsHashOfData (h : IsIdeal c.net ring) (hfuel : ring.card + 3 ≤ fuel)
    (hreplicas : NoReplicas ring c) {m s : N} (hm : m ∈ ring) {key : IdType} {u v : Bytes}
    (hown : Arc.Owns getId ring key s) (hdata : (c.net.info s).getData key.bytes = some u)
    (hget : c.getKeyIsHashOfData sha256 fuel process m key = some (.dhtSuccess key.bytes v)) :
    u = v := by
  set average := getAverageReplicationIndex (c.indices (process m)) with haverage
  have hfetch := h.fetch_eq hm hown hfuel average 0 key.bytes
  rw [hdata] at hfetch
  -- The node of the first replica is found and has nothing.
  obtain ⟨t, ht⟩ := @Arc.exists_owns N IdType _ getId _ h.nonempty (sha256 (key.bytes ++ [1]))
  have hprobe : (c.net.calls fuel m average).probe sha256 key 1 = some none := by
    have hsucc := h.dhtGetSuccessor_eq hm ht hfuel
    have hnone : c.net.getData m t (key.bytes ++ [1]) = none :=
      (h.getData_eq ht.mem (key.bytes ++ [1])).trans (hreplicas t ht.mem key 1)
    simp [Calls.probe, Network.calls, hsucc, hnone]
  have hloop : (c.net.calls fuel m average).onDhtGetKeyIsHashOfDataReplicas sha256 key 256 1
      (some u) = if 1 ≤ average.toNat then none else some (some u) := by
    rw [Calls.onDhtGetKeyIsHashOfDataReplicas_succ, hprobe]
    rfl
  unfold getKeyIsHashOfData Calls.onDhtGetKeyIsHashOfData at hget
  rw [← haverage, hfetch] at hget
  simp only [hloop] at hget
  split_ifs at hget with hhash hone
  · cases hget
  · simpa [Reply.ofResponse] using hget
  · simpa [Reply.ofResponse] using hget

section Families

variable {owner : IdType → N} {rs : List (StoreRequest N)} {c' : Cluster N P}

omit [DecidableEq P] in
/-- The gets of both families find what is in their cells. -/
lemma HoldsLast.independent (h : HoldsLast sha256 ring owner c rs c')
    (howner : ∀ id, Arc.Owns getId ring id (owner id)) (hfuel : ring.card + 3 ≤ fuel)
    (hcells : CellsHold sha256 owner rs) : Independent sha256 fuel process ring c' rs where
  items := by
    intro key w hw m hm
    refine get_eq_success h.ideal hfuel hm (howner _) ?_
    rw [h.getData, hcells.items key w hw]
    rfl
  contents := by
    intro v hv m hm
    refine getKeyIsHashOfData_eq_success h.ideal hfuel hm (howner _) ?_
    rw [h.getData, hcells.contents v hv]
    rfl

omit [DecidableEq P] in
/-- All requests write under keys of 32 bytes. -/
lemma HoldsLast.noReplicas (h : HoldsLast sha256 ring owner c rs c') (hc : NoReplicas ring c) :
    NoReplicas ring c' := by
  intro m hm key j
  have hnone : LastWrite.last (cellValue sha256 owner m (key.bytes ++ [j])) rs = none := by
    rcases hlast : LastWrite.last (cellValue sha256 owner m (key.bytes ++ [j])) rs with _ | v
    · rfl
    · obtain ⟨-, r, -, -, hr, -⟩ := LastWrite.last_eq_some_iff.mp hlast
      have hlength := congrArg List.length (cellValue_eq_some_iff.mp hr).2.1
      simp [(r.storedKey sha256).size_eq, key.size_eq] at hlength
  rw [h.getData, hnone, hc m hm key j]
  rfl

omit [DecidableEq P] in
/-- Without replicas the gets find nothing else. -/
lemma HoldsLast.cellsHold (h : HoldsLast sha256 ring owner c rs c')
    (howner : ∀ id, Arc.Owns getId ring id (owner id)) (hfuel : ring.card + 3 ≤ fuel)
    (hc : NoReplicas ring c) (hindependent : Independent sha256 fuel process ring c' rs) :
    CellsHold sha256 owner rs := by
  obtain ⟨m, hm⟩ := h.ideal.nonempty
  constructor
  · intro key w hw
    obtain ⟨u, hu⟩ : ∃ u, LastWrite.last
        (cellValue sha256 owner (owner (sha256 key.bytes)) key.bytes) rs = some u :=
      exists_last_item hw
    have hdata : (c'.net.info (owner (sha256 key.bytes))).getData key.bytes = some u := by
      rw [h.getData, hu]
      rfl
    have hget := hindependent.items key w hw m hm
    rw [get_eq_success h.ideal hfuel hm (howner _) hdata, Reply.dhtSuccess.injEq] at hget
    rw [hu, hget.2]
  · intro v hv
    obtain ⟨u, hu⟩ : ∃ u, LastWrite.last
        (cellValue sha256 owner (owner (sha256 v)) (sha256 v).bytes) rs = some u :=
      exists_last_content hv
    have hdata : (c'.net.info (owner (sha256 v))).getData (sha256 v).bytes = some u := by
      rw [h.getData, hu]
      rfl
    have huv := eq_of_getKeyIsHashOfData h.ideal hfuel (h.noReplicas hc) hm (howner _) hdata
      (hindependent.contents v hv m hm)
    rw [hu, huv]

end Families

/-- **The two put families.**  After any sequence of puts without expiry and without replicas on an
ideal ring, each family is as if the other did not exist if the requests keep apart; and only if they
do, when no replicas were stored before. -/
theorem independent_iff_separate (h : IsIdeal c.net ring) (hfuel : ring.card + 3 ≤ fuel)
    {rs : List (StoreRequest N)} (hrs : ∀ r ∈ rs, r.self ∈ ring ∧ r.replication ≤ 1) :
    (Separate sha256 ring rs → Independent sha256 fuel process ring
      (c.serveAll sha256 fuel replicationLimit process rs) rs) ∧
    (NoReplicas ring c → Independent sha256 fuel process ring
      (c.serveAll sha256 fuel replicationLimit process rs) rs → Separate sha256 ring rs) := by
  choose owner howner using fun id => @Arc.exists_owns N IdType _ getId _ h.nonempty id
  have hlast : HoldsLast sha256 ring owner c rs
      (c.serveAll sha256 fuel replicationLimit process rs) :=
    holdsLast_serveAll howner h hfuel hrs
  constructor
  · intro hseparate
    exact hlast.independent howner hfuel ((cellsHold_iff howner).mpr hseparate)
  · intro hc hindependent
    exact (cellsHold_iff howner).mp (hlast.cellsHold howner hfuel hc hindependent)

/-- A request without replicas, at the time zero. -/
def request (self : N) (family : Family) (value : Bytes) : StoreRequest N :=
  ⟨self, family, value, 0, fun _ => 0⟩

/-- A hash that is the first byte of its argument. -/
def firstByte (bytes : Bytes) : IdType := idOf (bytes.headD 0)

/-- The value `[1]` put by content at `40…`, and the value `[2]` put under the key `07…` at `80…`. -/
theorem independent_pair :
    Independent firstByte 5 (fun _ => ()) {idOf 0x40, idOf 0x80}
      (pairCluster.serveAll firstByte 5 1 (fun _ => ())
        [request (idOf 0x40) .content [1], request (idOf 0x80) (.item (idOf 7)) [2]])
      [request (idOf 0x40) .content [1], request (idOf 0x80) (.item (idOf 7)) [2]] := by
  refine (independent_iff_separate (isIdeal_pair (by decide) _) (by decide) ?_).1 ?_
  · intro r hr
    rw [List.mem_cons, List.mem_singleton] at hr
    rcases hr with rfl | rfl
    · exact ⟨by decide, by decide⟩
    · exact ⟨by decide, by decide⟩
  · have honly : ∀ v, IsContent v [request (idOf 0x40) .content [1],
        request (idOf 0x80) (.item (idOf 7)) [2]] → v = [1] := by
      rintro v ⟨r, hr, hfamily, rfl⟩
      rw [List.mem_cons, List.mem_singleton] at hr
      rcases hr with rfl | rfl
      · rfl
      · cases hfamily
    intro v hv
    obtain rfl := honly v hv
    refine ⟨fun w hw _ => honly w hw, ?_⟩
    intro _ w hw
    have hnone : lastItem (firstByte [1]) [request (idOf 0x40) .content [1],
        request (idOf 0x80) (.item (idOf 7)) [2]] = none := by decide +kernel
    rw [hnone] at hw
    cases hw

/-- A ring of one node, before any request. -/
def oneNode : Cluster IdType Unit where
  net := ⟨fun a => pairInfo a a a, fun _ => true, fun _ => .localHops⟩
  indices := fun _ => []
  clock := 0

lemma isIdeal_oneNode (a : IdType) : IsIdeal oneNode.net {a} where
  nonempty := ⟨a, Finset.mem_singleton_self a⟩
  answers := fun _ _ => rfl
  successor := by
    intro m hm
    obtain rfl := Finset.mem_singleton.mp hm
    refine ⟨m, by simp [oneNode, pairInfo], ?_⟩
    simpa using isNext_pair m m
  predecessor := by
    intro m hm
    obtain rfl := Finset.mem_singleton.mp hm
    refine ⟨m, by simp [oneNode, pairInfo], ?_⟩
    simpa using isNext_pair m m
  fingers := by
    intro m hm i f hf
    by_cases hi : i = 0
    · subst hi
      have hfm : m = f := by simpa [oneNode, pairInfo] using hf
      rwa [← hfm]
    · simp [oneNode, pairInfo, NodeInformation.setSuccessor_fingerTable_ne _ hi,
        NodeInformation.initial] at hf

/-- The value `[1]` put by content on a ring of one node, and then the value `[2]` put under the hash
of `[1]`: the get by hash answers with `[2]`. -/
theorem not_independent_oneNode :
    IsIdeal oneNode.net {idOf 0x40} ∧
      (oneNode.serveAll firstByte 5 1 (fun _ => ())
          [request (idOf 0x40) .content [1],
            request (idOf 0x40) (.item (firstByte [1])) [2]]).getKeyIsHashOfData firstByte 5
        (fun _ => ()) (idOf 0x40) (firstByte [1]) =
          some (.dhtSuccess (firstByte [1]).bytes [2]) ∧
      ¬ Independent firstByte 5 (fun _ => ()) {idOf 0x40}
        (oneNode.serveAll firstByte 5 1 (fun _ => ())
          [request (idOf 0x40) .content [1], request (idOf 0x40) (.item (firstByte [1])) [2]])
        [request (idOf 0x40) .content [1], request (idOf 0x40) (.item (firstByte [1])) [2]] := by
  have hanswer : (oneNode.serveAll firstByte 5 1 (fun _ => ())
      [request (idOf 0x40) .content [1],
        request (idOf 0x40) (.item (firstByte [1])) [2]]).getKeyIsHashOfData firstByte 5
      (fun _ => ()) (idOf 0x40) (firstByte [1]) =
        some (.dhtSuccess (firstByte [1]).bytes [2]) := by decide +kernel
  refine ⟨isIdeal_oneNode _, hanswer, ?_⟩
  intro hindependent
  have hget := hindependent.contents [1] ⟨_, List.mem_cons_self, rfl, rfl⟩ (idOf 0x40) (by simp)
  rw [hanswer] at hget
  cases hget

end Cluster

end ChordPlusPlus
