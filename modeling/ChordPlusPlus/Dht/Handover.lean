import ChordPlusPlus.Dht.Peer

/-!
# Handing items over to a joining node

`getDataItemsOnJoin` at the successor of a joining node, and `getDataItemsOnJoinHelper` at the
joining node, which stores what the reply contains.  Expiry dates travel as whole seconds since the
epoch in an unsigned 64-bit field; the round trip rounds them down to the second.
-/

namespace ChordPlusPlus

/-- `DataItem` of `peer.capnp`. -/
structure DataItem where
  key : Bytes
  data : Bytes
  expires : UInt64
deriving DecidableEq

/-- The `expires` field built from an expiry date: the date in whole seconds, cast to `size_t`. -/
def expiresToWire (expires : TimePoint) : UInt64 := (expires / 1000000000).toUInt64

/-- The expiry date read from an `expires` field. -/
def expiresFromWire (expires : UInt64) : TimePoint := expires.toInt64 * 1000000000

/-- The expiry date that arrives after one handover. -/
def expiresHandedOver (expires : TimePoint) : TimePoint := expiresFromWire (expiresToWire expires)

namespace PeerImpl

variable {N : Type*}

/-- The continuation of `getDataItemsOnJoinHelper`: stores the items of the reply. -/
def storeDataItems (info : NodeInformation N) (items : List DataItem) : NodeInformation N :=
  items.foldl (fun info item =>
    info.setDataExpires item.key item.data (expiresFromWire item.expires)) info

@[simp] lemma storeDataItems_fingerTable (info : NodeInformation N) (items : List DataItem) :
    (storeDataItems info items).fingerTable = info.fingerTable := by
  induction items generalizing info with
  | nil => rfl
  | cons item items ih => exact ih _

@[simp] lemma storeDataItems_predecessor (info : NodeInformation N) (items : List DataItem) :
    (storeDataItems info items).predecessor = info.predecessor := by
  induction items generalizing info with
  | nil => rfl
  | cons item items ih => exact ih _

/-- Storing a reply inserts its items one after the other. -/
lemma storeDataItems_data (info : NodeInformation N) (items : List DataItem) :
    (storeDataItems info items).data =
      FiniteMap.insertAll
        (items.map fun item => (item.key, (item.data, expiresFromWire item.expires))) info.data := by
  induction items generalizing info with
  | nil => rfl
  | cons item items ih => exact ih _

variable [Endpoint N]

/-- `PeerImpl::getDataItemsOnJoin`: the new state of the successor `self` and the reply.  The result
is `none` when the code reads through the absent predecessor. -/
def getDataItemsOnJoin (sha256 : Bytes → IdType) (self : N) (info : NodeInformation N)
    (newNode : N) : Option (NodeInformation N × List DataItem) :=
  match info.predecessor with
  | none => none
  | some pred =>
      if !isInRangeLoop (getId newNode) (getId pred) (getId self) false false then some (info, [])
      else
        let dataForNewNode := info.getDataItemsForNodeId sha256 newNode
        let keys := dataForNewNode.entries.map Sigma.fst
        some (info.deleteDataAssignedToPredecessor keys,
          dataForNewNode.entries.map fun e => ⟨e.1, e.2.1, expiresToWire e.2.2⟩)

/-- Serving the request changes no pointer of the successor. -/
lemma getDataItemsOnJoin_pointers {sha256 : Bytes → IdType} {self newNode : N}
    {info info' : NodeInformation N} {items : List DataItem}
    (h : getDataItemsOnJoin sha256 self info newNode = some (info', items)) :
    info'.fingerTable = info.fingerTable ∧ info'.predecessor = info.predecessor := by
  unfold getDataItemsOnJoin at h
  cases hp : info.predecessor with
  | none => simp [hp] at h
  | some p =>
    simp only [hp] at h
    split_ifs at h with hin
    · obtain ⟨rfl, -⟩ := Prod.mk.inj (Option.some.inj h)
      exact ⟨rfl, hp⟩
    · obtain ⟨rfl, -⟩ := Prod.mk.inj (Option.some.inj h)
      exact ⟨rfl, hp⟩

/-- What the handover does when the joining node lies between the predecessor and the successor:
the successor keeps exactly the items that hash outside the arc up to the new node, and the new
node's store receives the others, with rounded expiry dates. -/
lemma getDataItemsOnJoin_eq {sha256 : Bytes → IdType} {self newNode p : N}
    {info : NodeInformation N} (hp : info.predecessor = some p)
    (hopen : Arc.Open (getId p) (getId newNode) (getId self)) :
    ∃ info' items, getDataItemsOnJoin sha256 self info newNode = some (info', items) ∧
      (∀ k, info'.data.lookup k =
        if Arc.HalfOpen (getId p) (sha256 k) (getId newNode) then none else info.data.lookup k) ∧
      ∀ (newInfo : NodeInformation N) (k : Bytes), (storeDataItems newInfo items).data.lookup k =
        if Arc.HalfOpen (getId p) (sha256 k) (getId newNode) then
          ((info.data.lookup k).map fun e => (e.1, expiresHandedOver e.2)).or
            (newInfo.data.lookup k)
        else newInfo.data.lookup k := by
  set moved := info.getDataItemsForNodeId sha256 newNode with hmoved
  have hlookup : ∀ k, moved.lookup k =
      if Arc.HalfOpen (getId p) (sha256 k) (getId newNode) then info.data.lookup k else none := by
    intro k
    rw [hmoved, NodeInformation.getDataItemsForNodeId, hp, FiniteMap.lookup_filter]
    by_cases hin : Arc.HalfOpen (getId p) (sha256 k) (getId newNode)
    · cases hk : info.data.lookup k <;> simp [hin, Option.filter]
    · cases hk : info.data.lookup k <;> simp [hin, Option.filter]
  have hkeys : ∀ k, k ∈ moved.entries.map Sigma.fst ↔ moved.lookup k ≠ none := by
    intro k
    rw [Ne, AList.lookup_eq_none, not_not]
    exact Iff.rfl
  refine ⟨info.deleteDataAssignedToPredecessor (moved.entries.map Sigma.fst),
    moved.entries.map fun e => ⟨e.1, e.2.1, expiresToWire e.2.2⟩, ?_, ?_, ?_⟩
  · simp [getDataItemsOnJoin, hp, hopen, hmoved]
  · intro k
    rw [NodeInformation.deleteDataAssignedToPredecessor, FiniteMap.lookup_eraseAll]
    simp only [hkeys, hlookup]
    by_cases hin : Arc.HalfOpen (getId p) (sha256 k) (getId newNode)
    · cases hk : info.data.lookup k <;> simp [hin]
    · simp [hin]
  · intro newInfo k
    rw [storeDataItems_data, List.map_map]
    set items := moved.entries.map ((fun item : DataItem =>
      (item.key, (item.data, expiresFromWire item.expires))) ∘
        fun e => ⟨e.1, e.2.1, expiresToWire e.2.2⟩) with hitems
    have hfst : items.map Prod.fst = moved.entries.map Sigma.fst := by
      rw [hitems, List.map_map]
      rfl
    cases hk : moved.lookup k with
    | none =>
      have hnot : k ∉ items.map Prod.fst := by
        rw [hfst, hkeys, hk]
        simp
      rw [FiniteMap.lookup_insertAll_of_notMem hnot]
      rw [hlookup] at hk
      split_ifs at hk ⊢ with hin
      · simp [hk]
      · rfl
    | some item =>
      have hmem : (k, (item.1, expiresHandedOver item.2)) ∈ items := by
        rw [hitems, List.mem_map]
        exact ⟨⟨k, item⟩, FiniteMap.lookup_eq_some_iff.mp hk, rfl⟩
      have hnd : (items.map Prod.fst).Nodup := by
        rw [hfst]
        exact moved.nodupKeys
      rw [FiniteMap.lookup_insertAll_of_mem hnd hmem]
      rw [hlookup] at hk
      split_ifs at hk ⊢ with hin
      simp [hk]

end PeerImpl

/-! ## The seconds round trip -/

lemma toInt_div_second (expires : TimePoint) :
    (expires / 1000000000).toInt = expires.toInt.tdiv 1000000000 :=
  Int64.toInt_div_of_ne_right _ _ (by decide)

/-- Rounding towards the epoch, for expiry dates after and before it. -/
lemma tdiv_second (t : ℤ) : t.tdiv 1000000000 =
    if 0 ≤ t then t / 1000000000 else -(-t / 1000000000) := by
  split_ifs with h
  · exact Int.tdiv_eq_ediv_of_nonneg h
  · have hneg : (-t).tdiv 1000000000 = -t / 1000000000 := Int.tdiv_eq_ediv_of_nonneg (by omega)
    rw [Int.neg_tdiv] at hneg
    omega

/-- A handover rounds an expiry date towards the epoch.  Neither the division nor the multiplication
leaves the 64-bit range. -/
lemma toInt_expiresHandedOver (expires : TimePoint) :
    (expiresHandedOver expires).toInt = expires.toInt.tdiv 1000000000 * 1000000000 := by
  have hmin := expires.le_toInt
  have hmax := expires.toInt_lt
  have hdiv := tdiv_second expires.toInt
  unfold expiresHandedOver expiresFromWire expiresToWire
  rw [Int64.toInt64_toUInt64, Int64.toInt_mul, toInt_div_second]
  change (expires.toInt.tdiv 1000000000 * 1000000000).bmod (2 ^ 64) = _
  rw [Int.bmod_eq_of_le] <;> split_ifs at hdiv <;> omega

/-- The `expires` field of an expiry date after the epoch holds its whole seconds. -/
lemma toNat_expiresToWire {expires : TimePoint} (h : 0 ≤ expires.toInt) :
    ((expiresToWire expires).toNat : ℤ) = expires.toInt / 1000000000 := by
  have hdiv := toInt_div_second expires
  rw [Int.tdiv_eq_ediv_of_nonneg h] at hdiv
  have hpos : 0 ≤ expires / 1000000000 := by
    rw [Int64.le_iff_toInt_le, hdiv]
    exact Int.ediv_nonneg h (by decide)
  rw [expiresToWire, Int64.toNat_toUInt64_of_le hpos]
  change (((expires / 1000000000).toInt.toNat : ℕ) : ℤ) = _
  rw [hdiv]
  exact Int.toNat_of_nonneg (Int.ediv_nonneg h (by decide))

end ChordPlusPlus
