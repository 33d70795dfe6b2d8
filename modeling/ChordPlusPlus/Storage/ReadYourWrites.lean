import ChordPlusPlus.Storage.Requests

/-!
# Read your writes

On an ideal ring the deployment refines a map from keys to values: after any sequence of puts, data
cleaner passes and maintenance steps that keep the ring ideal, a get at any node answers with the
value that was put last, as long as it has not expired, and fails for a key that was never put.  The
stores may hold other items from the start.

Replicas live in the same stores.  Their keys are one byte longer than the keys of the items, so they
are never confused with items; and the replicas of a key are only written by a put of that key.
-/

namespace ChordPlusPlus

/-- A deployment in operation: its network, the replication indices that each process has seen, and
the latest reading of the clock. -/
structure Cluster (N P : Type*) where
  net : Network N
  indices : P → List UInt8
  clock : TimePoint

/-- What the clients have put: the last value of each key with its expiry date, if it has one. -/
abbrev Written := Bytes → Option (Bytes × Option TimePoint)

/-- The expiry date of a put at the time `now`; a time to live of zero means that there is none. -/
def putExpiry (now : TimePoint) (ttl : UInt16) : Option TimePoint :=
  if ttl = 0 then none else some (now + Int64.ofNat ttl.toNat * 1000000000)

/-- The date that is stored for an expiry date. -/
def storedExpiry (expires : Option TimePoint) : TimePoint := expires.getD Int64.maxValue

/-- The number of nanoseconds of a positive time to live is not the one that stands for no expiry. -/
lemma ttlSeconds_ne_maxValue (ttl : UInt16) :
    Int64.ofNat ttl.toNat * 1000000000 ≠ Int64.maxValue := by
  intro h
  have hlt := ttl.toNat_lt
  have hmul : (Int64.ofNat ttl.toNat * 1000000000).toInt = ttl.toNat * 1000000000 := by
    rw [Int64.toInt_mul, Int64.toInt_ofNat_of_lt (by omega)]
    change ((ttl.toNat : ℤ) * 1000000000).bmod (2 ^ 64) = _
    rw [Int.bmod_eq_of_le] <;> omega
  rw [h] at hmul
  have hmax : Int64.maxValue.toInt = 2 ^ 63 - 1 := by decide
  omega

lemma expiresAt_ttlSeconds (now : TimePoint) (ttl : UInt16) :
    NodeInformation.expiresAt now (PeerImpl.ttlSeconds ttl) =
      storedExpiry (putExpiry now ttl) := by
  unfold NodeInformation.expiresAt PeerImpl.ttlSeconds storedExpiry putExpiry
  by_cases h : ttl = 0
  · simp [h]
  · have hpos : 0 < ttl := by
      rw [UInt16.lt_iff_toNat_lt]
      have hne : ttl.toNat ≠ 0 := fun h0 => h (UInt16.toNat.inj h0)
      exact Nat.pos_of_ne_zero hne
    rw [if_pos hpos, if_neg (ttlSeconds_ne_maxValue ttl), if_neg h, Option.getD_some]

namespace Cluster

variable {N P : Type*} [Endpoint N] [DecidableEq N] [DecidableEq P]

section Steps

variable (sha256 : Bytes → IdType) (fuel : ℕ) (replicationLimit : UInt8) (process : N → P)
  (ring : Finset N)

/-- A `DHT_PUT` at the node `m`, up to the last replica, with the clock readings `now`. -/
def put (c : Cluster N P) (m : N) (key value : Bytes) (ttl : UInt16) (replication : UInt8)
    (now : ℕ → TimePoint) (clock : TimePoint) : Cluster N P :=
  let result := c.net.onDhtPut ⟨sha256, fuel, replicationLimit, now⟩ m key value ttl replication
    (c.indices (process m))
  ⟨result.2, Function.update c.indices (process m) result.1, clock⟩

/-- A pass of the data cleaner of the node `m`, with the clock readings `now`. -/
def clean (c : Cluster N P) (m : N) (now : ℕ → TimePoint) (clock : TimePoint) : Cluster N P :=
  ⟨c.net.setInfo m ((c.net.info m).dataCleanerPass now), c.indices, clock⟩

/-- One step of the deployment, and what it means to the clients. -/
inductive Step : Cluster N P × Written → Cluster N P × Written → Prop
  /-- A `DHT_PUT` of a 32-byte key at some node. -/
  | put {c : Cluster N P} {w : Written} (m : N) (key value : Bytes) (ttl : UInt16)
      (replication : UInt8) (now : ℕ → TimePoint) (clock : TimePoint) :
      m ∈ ring → key.length = 32 → (∀ i, c.clock ≤ now i ∧ now i ≤ clock) →
      Step (c, w)
        (c.put sha256 fuel replicationLimit process m key value ttl replication now clock,
          Function.update w key (some (value, putExpiry (now 0) ttl)))
  /-- A pass of the data cleaner of some node. -/
  | clean {c : Cluster N P} {w : Written} (m : N) (now : ℕ → TimePoint) (clock : TimePoint) :
      (∀ i, c.clock ≤ now i ∧ now i ≤ clock) →
      Step (c, w) (c.clean m now clock, w)
  /-- Maintenance that keeps the ring ideal. -/
  | maintain {c : Cluster N P} {w : Written} {net : Network N} :
      (∀ m, (net.info m).data = (c.net.info m).data) → IsIdeal net ring →
      Step (c, w) ({ c with net := net }, w)

/-- `DHT_GET` at the node `m`. -/
def get (c : Cluster N P) (m : N) (key : Bytes) : Reply :=
  (c.net.calls fuel m (getAverageReplicationIndex (c.indices (process m)))).onDhtGet sha256 key

/-- No node of the ring has anything under `key`, nor under the keys of its replicas. -/
def Blank (c : Cluster N P) (key : Bytes) : Prop :=
  ∀ m ∈ ring, (c.net.info m).data.lookup key = none ∧
    ∀ j, (c.net.info m).data.lookup (key ++ [j]) = none

/-- The refinement relation between the deployment and the map of its clients, where the keys in
`fresh` had no items at the start. -/
structure Refines (fresh : Bytes → Prop) (c : Cluster N P) (w : Written) : Prop where
  ideal : IsIdeal c.net ring
  /-- An item that has not expired is at the node responsible for the hash of its key. -/
  held : ∀ key v e s, key.length = 32 → w key = some (v, e) → c.clock ≤ storedExpiry e →
    Arc.Owns getId ring (sha256 key) s →
    (c.net.info s).data.lookup key = some (v, storedExpiry e)
  /-- Nothing is stored for a fresh key that was never put, nor for its replicas. -/
  absent : ∀ key, key.length = 32 → fresh key → w key = none → c.Blank ring key

end Steps

variable {sha256 : Bytes → IdType} {fuel : ℕ} {replicationLimit : UInt8} {process : N → P}
  {ring : Finset N} {fresh : Bytes → Prop}

/-- A put keeps the refinement relation: it writes the item to the responsible node, and replicas
only under longer keys. -/
lemma Refines.put {c : Cluster N P} {w : Written} (hfuel : ring.card + 3 ≤ fuel)
    (h : Refines sha256 ring fresh c w) {m : N} (hm : m ∈ ring) {key : Bytes} (hkey : key.length = 32)
    (value : Bytes) (ttl : UInt16) (replication : UInt8) {now : ℕ → TimePoint} {clock : TimePoint}
    (hnow : ∀ i, c.clock ≤ now i ∧ now i ≤ clock) :
    Refines sha256 ring fresh
      (c.put sha256 fuel replicationLimit process m key value ttl replication now clock)
      (Function.update w key (some (value, putExpiry (now 0) ttl))) := by
  obtain ⟨s, hown⟩ := @Arc.exists_owns N IdType _ getId _ h.ideal.nonempty (sha256 key)
  have hspec := @IsIdeal.put_spec _ _ _ _ _ h.ideal m s hm ⟨sha256, fuel, replicationLimit, now⟩
    hfuel id key hown value ttl replication
  set net' := c.net.put ⟨sha256, fuel, replicationLimit, now⟩ m id key value ttl replication
  have hsame : SameExcept _ c.net net' := hspec.1
  have hitem := hspec.2 (by simp)
  -- Keys of the same length other than `key` are not touched.
  have hkeep : ∀ k : Bytes, k.length = 32 → k ≠ key → ∀ m',
      (net'.info m').data.lookup k = (c.net.info m').data.lookup k := by
    intro k hk hne m'
    refine hsame.data m' k ?_
    rintro (heq | ⟨j, heq⟩)
    · exact hne heq
    · have hlen := congrArg List.length heq
      simp [hk, hkey] at hlen
  refine ⟨hsame.isIdeal h.ideal, ?_, ?_⟩
  · intro k v e o hk hw he ho
    by_cases hkk : k = key
    · subst hkk
      obtain ⟨rfl, rfl⟩ : value = v ∧ putExpiry (now 0) ttl = e := by simpa using hw
      obtain rfl := ho.unique getId_injective hown
      have hlookup := hitem o
      rw [if_pos rfl, expiresAt_ttlSeconds] at hlookup
      exact hlookup
    · rw [Function.update_of_ne hkk] at hw
      have hclock : c.clock ≤ storedExpiry e :=
        Int64.le_trans (Int64.le_trans (hnow 0).1 (hnow 0).2) he
      exact (hkeep k hk hkk o).trans (h.held k v e o hk hw hclock ho)
  · intro k hk hfresh hw m' hm'
    have hkk : k ≠ key := by
      rintro rfl
      simp at hw
    rw [Function.update_of_ne hkk] at hw
    obtain ⟨hnone, hreplicas⟩ := h.absent k hk hfresh hw m' hm'
    refine ⟨(hkeep k hk hkk m').trans hnone, ?_⟩
    intro j
    refine (hsame.data m' (k ++ [j]) ?_).trans (hreplicas j)
    rintro (heq | ⟨i, heq⟩)
    · have hlen := congrArg List.length heq
      simp [hk, hkey] at hlen
    · exact hkk (List.append_inj_left heq (hk.trans hkey.symm))

omit [DecidableEq P] in
/-- A pass of the data cleaner keeps the refinement relation: it removes only expired items. -/
lemma Refines.clean {c : Cluster N P} {w : Written} (h : Refines sha256 ring fresh c w) (m : N)
    {now : ℕ → TimePoint} {clock : TimePoint} (hnow : ∀ i, c.clock ≤ now i ∧ now i ≤ clock) :
    Refines sha256 ring fresh (c.clean m now clock) w := by
  have hinfo : ∀ m', (c.clean m now clock).net.info m' =
      if m' = m then (c.net.info m).dataCleanerPass now else c.net.info m' := by
    intro m'
    simp [Cluster.clean, Network.setInfo, Function.update_apply]
  have hsame : SameExcept (fun _ => True) c.net (c.clean m now clock).net := by
    refine ⟨rfl, rfl, ?_, ?_, fun _ _ hk => absurd trivial hk⟩
    · intro m'
      rw [hinfo]
      split_ifs with hm
      · rw [hm]
        rfl
      · rfl
    · intro m'
      rw [hinfo]
      split_ifs with hm
      · rw [hm]
        rfl
      · rfl
  refine ⟨hsame.isIdeal h.ideal, ?_, ?_⟩
  · intro k v e s hk hw he hs
    have hold := h.held k v e s hk hw
      (Int64.le_trans (Int64.le_trans (hnow 0).1 (hnow 0).2) he) hs
    rw [hinfo]
    split_ifs with hm
    · subst hm
      refine NodeInformation.lookup_dataCleanerPass hold ?_
      intro i hlt
      exact absurd hlt (Int64.not_lt.mpr (Int64.le_trans (hnow i).2 he))
    · exact hold
  · intro k hk hfresh hw m' hm'
    have hold := h.absent k hk hfresh hw m' hm'
    have hclean : ∀ k', (c.net.info m').data.lookup k' = none →
        ((c.clean m now clock).net.info m').data.lookup k' = none := by
      intro k' hk'
      rw [hinfo]
      split_ifs with hm
      · subst hm
        cases hl : ((c.net.info m').dataCleanerPass now).data.lookup k' with
        | none => rfl
        | some item =>
          rw [NodeInformation.lookup_of_lookup_dataCleanerPass hl] at hk'
          cases hk'
      · exact hk'
    exact ⟨hclean k hold.1, fun j => hclean _ (hold.2 j)⟩

/-- One step preserves the refinement relation. -/
lemma Refines.step {c c' : Cluster N P} {w w' : Written} (hfuel : ring.card + 3 ≤ fuel)
    (h : Refines sha256 ring fresh c w)
    (hstep : Step sha256 fuel replicationLimit process ring (c, w) (c', w')) :
    Refines sha256 ring fresh c' w' := by
  cases hstep with
  | put m key value ttl replication now clock hm hkey hnow =>
    exact h.put hfuel hm hkey value ttl replication hnow
  | clean m now clock hnow => exact h.clean m hnow
  | maintain hdata hideal =>
    refine ⟨hideal, ?_, ?_⟩
    · intro k v e s hk hw he hs
      rw [hdata]
      exact h.held k v e s hk hw he hs
    · intro k hk hfresh hw m hm
      rw [hdata]
      exact h.absent k hk hfresh hw m hm

/-- Every run preserves the refinement relation. -/
lemma Refines.run {x y : Cluster N P × Written} (hfuel : ring.card + 3 ≤ fuel)
    (h : Refines sha256 ring fresh x.1 x.2)
    (hrun : Relation.ReflTransGen (Step sha256 fuel replicationLimit process ring) x y) :
    Refines sha256 ring fresh y.1 y.2 := by
  induction hrun with
  | refl => exact h
  | tail _ hstep ih => exact ih.step hfuel hstep

omit [DecidableEq P] in
/-- A get answers with what the responsible node has stored. -/
lemma get_eq_success {c : Cluster N P} (hring : IsIdeal c.net ring) (hfuel : ring.card + 3 ≤ fuel)
    {m s : N} (hm : m ∈ ring) {key v : Bytes} (hown : Arc.Owns getId ring (sha256 key) s)
    (hdata : (c.net.info s).getData key = some v) :
    c.get sha256 fuel process m key = .dhtSuccess key v := by
  have hfetch := hring.fetch_eq hm hown hfuel (getAverageReplicationIndex (c.indices (process m)))
    0 key
  rw [hdata] at hfetch
  simp [get, Calls.onDhtGet, hfetch, Reply.ofResponse]

omit [DecidableEq P] in
/-- A get of a key for which no node has stored anything fails: on an ideal ring the node of the
first replica is found, and its answer decides. -/
lemma get_eq_failure {c : Cluster N P} (hring : IsIdeal c.net ring) (hfuel : ring.card + 3 ≤ fuel)
    {m : N} (hm : m ∈ ring) {key : Bytes} (hnone : ∀ s ∈ ring, (c.net.info s).getData key = none)
    (hreplica : ∀ s ∈ ring, (c.net.info s).getData (key ++ [1]) = none) :
    c.get sha256 fuel process m key = .dhtFailure key := by
  obtain ⟨s, hown⟩ := @Arc.exists_owns N IdType _ getId _ hring.nonempty (sha256 key)
  obtain ⟨s', hown'⟩ := @Arc.exists_owns N IdType _ getId _ hring.nonempty (sha256 (key ++ [1]))
  set average := getAverageReplicationIndex (c.indices (process m)) with haverage
  have hfetch := hring.fetch_eq hm hown hfuel average 0 key
  rw [hnone s hown.mem] at hfetch
  have hloop : (c.net.calls fuel m average).onDhtGetReplicas sha256 key 256 1 = none := by
    rw [Calls.onDhtGetReplicas]
    have hsucc := hring.dhtGetSuccessor_eq hm hown' hfuel
    have hdata : c.net.getData m s' (key ++ [1]) = none :=
      (hring.getData_eq hown'.mem (key ++ [1])).trans (hreplica s' hown'.mem)
    split_ifs
    · simp [Network.calls, hsucc, hdata]
    · rfl
  simp [get, ← haverage, Calls.onDhtGet, hfetch, hloop, Reply.ofResponse]

/-- On every ideal ring, after any sequence of puts, data cleaner passes and maintenance steps that keep
the ring ideal, a get of a 32-byte key at any node and at any later time `t` answers with the value
that was put last if its expiry date is not before `t`, and fails if the key was never put and
nothing was stored for it at the start. -/
theorem read_your_writes {c₀ c : Cluster N P} {w : Written} (hring : IsIdeal c₀.net ring)
    (hfuel : ring.card + 3 ≤ fuel)
    (hrun : Relation.ReflTransGen (Step sha256 fuel replicationLimit process ring)
      (c₀, fun _ => none) (c, w))
    {m : N} (hm : m ∈ ring) {key : Bytes} (hkey : key.length = 32) {t : TimePoint}
    (ht : c.clock ≤ t) :
    (∀ v e, w key = some (v, e) → (∀ d, e = some d → t ≤ d) →
      c.get sha256 fuel process m key = .dhtSuccess key v) ∧
    (c₀.Blank ring key → w key = none → c.get sha256 fuel process m key = .dhtFailure key) := by
  have hinit : Refines sha256 ring (c₀.Blank ring) c₀ fun _ => none := by
    refine ⟨hring, ?_, fun _ _ hfresh _ => hfresh⟩
    rintro k v e s - ⟨⟩
  have href : Refines sha256 ring (c₀.Blank ring) c w := hinit.run hfuel hrun
  constructor
  · intro v e hw hexp
    obtain ⟨s, hown⟩ := @Arc.exists_owns N IdType _ getId _ hring.nonempty (sha256 key)
    have hclock : c.clock ≤ storedExpiry e := by
      cases e with
      | none => exact Int64.le_maxValue _
      | some d => exact Int64.le_trans ht (hexp d rfl)
    refine get_eq_success href.ideal hfuel hm hown ?_
    simp [NodeInformation.getData, href.held key v e s hkey hw hclock hown]
  · intro hfresh hw
    have hblank := href.absent key hkey hfresh hw
    refine get_eq_failure href.ideal hfuel hm ?_ ?_
    · intro s hs
      simp [NodeInformation.getData, (hblank s hs).1]
    · intro s hs
      simp [NodeInformation.getData, (hblank s hs).2 1]

/-- Two nodes in one process, before any request. -/
def pairCluster : Cluster IdType Unit where
  net := ⟨pairInfo (idOf 0x40) (idOf 0x80), fun _ => true, fun _ => .localHops⟩
  indices := fun _ => []
  clock := 0

/-- A value put at the node `40…` without expiry is read at the node `80…` at the time `1000`. -/
theorem read_your_writes_pair :
    (pairCluster.put (fun _ => idOf 0x60) 5 1 (fun _ => ()) (idOf 0x40) (List.replicate 32 7) [1] 0
        3 (fun _ => 10) 20).get (fun _ => idOf 0x60) 5 (fun _ => ()) (idOf 0x80)
        (List.replicate 32 7) =
      .dhtSuccess (List.replicate 32 7) [1] := by
  have hstep : Step (fun _ => idOf 0x60) 5 1 (fun _ => ()) {idOf 0x40, idOf 0x80}
      (pairCluster, fun _ => none) _ :=
    Step.put (idOf 0x40) (List.replicate 32 7) [1] 0 3 (fun _ => 10) 20 (by simp) rfl
      fun _ => ⟨by decide, by decide⟩
  exact (read_your_writes (isIdeal_pair (by decide) _) (by decide)
    (Relation.ReflTransGen.single hstep) (m := idOf 0x80) (by simp) rfl
    (t := 1000) (by decide)).1 [1] none (Function.update_self ..) (by simp)

end Cluster

end ChordPlusPlus
