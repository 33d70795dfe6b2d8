import ChordPlusPlus.Foundation.FiniteMap
import ChordPlusPlus.Util.Range
import Mathlib.Data.List.FinRange
import Mathlib.Data.Fintype.EquivFin

/-!
# The state of one node

`NodeInformation` holds the finger table, the predecessor and the store of a node, with the
getters and setters of `NodeInformation.cpp`.  The node's own `m_node` is not repeated inside: the
functions that read it take the node as an argument.  `std::map` is a finite map with unique
keys, `std::chrono::system_clock` counts nanoseconds in 64 signed bits, and its readings are
arguments of the functions that call `now()`.

Nodes are compared by their ids only (`Node::operator==`), and every node that crosses the wire is
rebuilt from `ip:port`, whose hash is its id.  The type of nodes is therefore any type with an
injective `getId`: the endpoints of a deployment in which no two of them hash to one id.
-/

namespace ChordPlusPlus

/-- `std::vector<uint8_t>`. -/
abbrev Bytes := List UInt8

/-- `NodeInformation::key_bits`, the number of bits of an id and of finger table entries. -/
abbrev keyBits : ℕ := 256

instance neZero_keyBits : NeZero keyBits := ⟨by decide⟩

/-- `NodeInformation::id_type`. -/
abbrev IdType := ByteArr 32

/-- `std::chrono::system_clock::duration`, in nanoseconds. -/
abbrev Duration := Int64

/-- `std::chrono::system_clock::time_point`, in nanoseconds since the epoch. -/
abbrev TimePoint := Int64

/-- `NodeInformation::data_type`: the stored values with their expiry dates. -/
abbrev DataType := FiniteMap Bytes (Bytes × TimePoint)

/-- The endpoints of a deployment, identified by their ids. -/
class Endpoint (N : Type*) where
  /-- `Node::getId`. -/
  getId : N → IdType
  /-- Distinct endpoints have distinct ids. -/
  getId_injective : Function.Injective getId

export Endpoint (getId getId_injective)

/-- There are only finitely many endpoints. -/
lemma finite_endpoints {N : Type*} [Endpoint N] : Finite N := by
  have hfinite : Finite IdType :=
    Finite.of_injective (fun a : IdType => (⟨a.toNat, a.toNat_lt⟩ : Fin (256 ^ 32))) (by
      intro a b hab
      exact ByteArr.toNat_injective (Fin.mk.inj hab))
  exact Finite.of_injective getId getId_injective

/-- The deployment in which every id belongs to an endpoint. -/
instance : Endpoint IdType := ⟨id, Function.injective_id⟩

/-- The id with first byte `b` and zeros after it. -/
def idOf (b : UInt8) : IdType := ⟨b :: List.replicate 31 0, rfl⟩

/-- The dynamic state of a peer. -/
structure NodeInformation (N : Type*) where
  /-- `m_fingerTable`. -/
  fingerTable : Fin keyBits → Option N
  /-- `m_predecessor`. -/
  predecessor : Option N
  /-- `m_data`. -/
  data : DataType

namespace NodeInformation

variable {N : Type*}

/-- A freshly constructed node: no finger, no predecessor, no data. -/
def initial : NodeInformation N where
  fingerTable := fun _ => none
  predecessor := none
  data := ∅

/-! ## Fingers and neighbours -/

/-- `setFinger`. -/
def setFinger (info : NodeInformation N) (index : Fin keyBits) (node : Option N) :
    NodeInformation N :=
  { info with fingerTable := Function.update info.fingerTable index node }

/-- `getSuccessor`: the first finger that is set. -/
def getSuccessor (info : NodeInformation N) : Option N :=
  match (List.finRange keyBits).findSome? info.fingerTable with
  | some finger => some finger
  | none => info.fingerTable 0

/-- `setSuccessor`. -/
def setSuccessor (info : NodeInformation N) (node : Option N) : NodeInformation N :=
  info.setFinger 0 node

/-- `setPredecessor`. -/
def setPredecessor (info : NodeInformation N) (node : Option N) : NodeInformation N :=
  { info with predecessor := node }

@[simp] lemma setFinger_predecessor (info : NodeInformation N) (i : Fin keyBits) (x : Option N) :
    (info.setFinger i x).predecessor = info.predecessor := rfl

@[simp] lemma setFinger_data (info : NodeInformation N) (i : Fin keyBits) (x : Option N) :
    (info.setFinger i x).data = info.data := rfl

@[simp] lemma setFinger_self (info : NodeInformation N) (i : Fin keyBits) (x : Option N) :
    (info.setFinger i x).fingerTable i = x := by
  simp [setFinger]

lemma setFinger_ne (info : NodeInformation N) {i j : Fin keyBits} (h : j ≠ i) (x : Option N) :
    (info.setFinger i x).fingerTable j = info.fingerTable j := by
  simp [setFinger, h]

@[simp] lemma setSuccessor_predecessor (info : NodeInformation N) (x : Option N) :
    (info.setSuccessor x).predecessor = info.predecessor := rfl

@[simp] lemma setSuccessor_data (info : NodeInformation N) (x : Option N) :
    (info.setSuccessor x).data = info.data := rfl

@[simp] lemma setSuccessor_fingerTable_zero (info : NodeInformation N) (x : Option N) :
    (info.setSuccessor x).fingerTable 0 = x :=
  setFinger_self info 0 x

lemma setSuccessor_fingerTable_ne (info : NodeInformation N) {i : Fin keyBits} (h : i ≠ 0)
    (x : Option N) : (info.setSuccessor x).fingerTable i = info.fingerTable i :=
  setFinger_ne info h x

@[simp] lemma setPredecessor_fingerTable (info : NodeInformation N) (x : Option N) :
    (info.setPredecessor x).fingerTable = info.fingerTable := rfl

@[simp] lemma setPredecessor_predecessor (info : NodeInformation N) (x : Option N) :
    (info.setPredecessor x).predecessor = x := rfl

@[simp] lemma setPredecessor_data (info : NodeInformation N) (x : Option N) :
    (info.setPredecessor x).data = info.data := rfl

/-- A set `finger[0]` is the successor. -/
lemma getSuccessor_of_finger_zero {info : NodeInformation N} {s : N}
    (h : info.fingerTable 0 = some s) : info.getSuccessor = some s := by
  have hrange : List.finRange keyBits = 0 :: (List.finRange 255).map Fin.succ := List.finRange_succ
  have hfind : (List.finRange keyBits).findSome? info.fingerTable = some s := by
    rw [hrange, List.findSome?_cons, h]
  unfold getSuccessor
  rw [hfind]

/-- A node has no successor exactly when its finger table is empty. -/
lemma getSuccessor_eq_none_iff {info : NodeInformation N} :
    info.getSuccessor = none ↔ ∀ i, info.fingerTable i = none := by
  unfold getSuccessor
  constructor
  · intro h i
    cases hfind : (List.finRange keyBits).findSome? info.fingerTable with
    | some f => rw [hfind] at h; cases h
    | none =>
      rw [List.findSome?_eq_none_iff] at hfind
      exact hfind i (List.mem_finRange i)
  · intro h
    have hfind : (List.finRange keyBits).findSome? info.fingerTable = none :=
      List.findSome?_eq_none_iff.mpr fun i _ => h i
    rw [hfind]
    exact h 0

/-! ## Data -/

/-- `getData`. -/
def getData (info : NodeInformation N) (key : Bytes) : Option Bytes :=
  (info.data.lookup key).map Prod.fst

/-- `setDataExpires`. -/
def setDataExpires (info : NodeInformation N) (key value : Bytes) (expires : TimePoint) :
    NodeInformation N :=
  { info with data := info.data.insert key (value, expires) }

/-- The expiry date that `setData` computes from a time to live, at the clock reading `now`. -/
def expiresAt (now : TimePoint) (ttl : Duration) : TimePoint :=
  if ttl = Int64.maxValue then Int64.maxValue else now + ttl

/-- `setData`, at the clock reading `now`. -/
def setData (info : NodeInformation N) (now : TimePoint) (key value : Bytes) (ttl : Duration) :
    NodeInformation N :=
  info.setDataExpires key value (expiresAt now ttl)

/-- `getDataItemsForNodeId`: the stored items whose key hashes into the arc from the predecessor,
or from the new node itself when there is none, up to the new node. -/
def getDataItemsForNodeId [Endpoint N] (sha256 : Bytes → IdType) (info : NodeInformation N)
    (newNode : N) : DataType :=
  let newId := getId newNode
  let predId := match info.predecessor with
    | some pred => getId pred
    | none => newId
  FiniteMap.filter (fun key _ => isInRangeLoop (sha256 key) predId newId false true) info.data

/-- `deleteDataAssignedToPredecessor`. -/
def deleteDataAssignedToPredecessor (info : NodeInformation N) (keys : List Bytes) :
    NodeInformation N :=
  { info with data := FiniteMap.eraseAll keys info.data }

/-- The loop of one pass of the data cleaner, which reads the clock anew for each entry: `now i` is
the reading taken at the `i`-th entry. -/
def dataCleanerLoop (now : ℕ → TimePoint) :
    ℕ → List (Sigma fun _ : Bytes => Bytes × TimePoint) →
      List (Sigma fun _ : Bytes => Bytes × TimePoint)
  | _, [] => []
  | i, e :: es =>
      if e.2.2 < now i then dataCleanerLoop now (i + 1) es
      else e :: dataCleanerLoop now (i + 1) es

lemma dataCleanerLoop_sublist (now : ℕ → TimePoint) (i : ℕ)
    (es : List (Sigma fun _ : Bytes => Bytes × TimePoint)) :
    (dataCleanerLoop now i es).Sublist es := by
  induction es generalizing i with
  | nil => exact List.Sublist.slnil
  | cons e es ih =>
    rw [dataCleanerLoop]
    split_ifs with h
    · exact (ih (i + 1)).cons e
    · exact (ih (i + 1)).cons_cons e

/-- One pass of the data cleaner. -/
def dataCleanerPass (info : NodeInformation N) (now : ℕ → TimePoint) : NodeInformation N :=
  { info with data := FiniteMap.ofSublist info.data (dataCleanerLoop_sublist now 0 _) }

/-- The pass keeps every entry that no clock reading has passed. -/
lemma mem_dataCleanerLoop {now : ℕ → TimePoint} (i : ℕ)
    {es : List (Sigma fun _ : Bytes => Bytes × TimePoint)}
    {e : Sigma fun _ : Bytes => Bytes × TimePoint} (he : e ∈ es) (hnow : ∀ j, ¬ e.2.2 < now j) :
    e ∈ dataCleanerLoop now i es := by
  induction es generalizing i with
  | nil => simp at he
  | cons e' es ih =>
    rw [dataCleanerLoop]
    rcases List.mem_cons.mp he with rfl | he
    · rw [if_neg (hnow i)]
      exact List.mem_cons_self
    · split_ifs with h
      · exact ih (i + 1) he
      · exact List.mem_cons_of_mem _ (ih (i + 1) he)

/-- What the pass leaves was there before. -/
lemma lookup_of_lookup_dataCleanerPass {info : NodeInformation N} {now : ℕ → TimePoint}
    {key : Bytes} {item : Bytes × TimePoint}
    (h : (info.dataCleanerPass now).data.lookup key = some item) :
    info.data.lookup key = some item :=
  FiniteMap.lookup_of_lookup_ofSublist (dataCleanerLoop_sublist now 0 _) h

/-- The pass leaves every item whose expiry date no clock reading has passed. -/
lemma lookup_dataCleanerPass {info : NodeInformation N} {now : ℕ → TimePoint} {key : Bytes}
    {item : Bytes × TimePoint} (h : info.data.lookup key = some item)
    (hnow : ∀ i, ¬ item.2 < now i) : (info.dataCleanerPass now).data.lookup key = some item := by
  rw [FiniteMap.lookup_eq_some_iff] at h ⊢
  exact mem_dataCleanerLoop 0 h hnow

end NodeInformation

/-! ## The shared replication statistics -/

/-- `setReplicationIndex`: the last fifty replication indices of the process. -/
def setReplicationIndex (allReplicationIndices : List UInt8) (replicationIndex : UInt8) :
    List UInt8 :=
  if allReplicationIndices.length < 50 then allReplicationIndices ++ [replicationIndex]
  else allReplicationIndices.tail ++ [replicationIndex]

/-- `getAverageReplicationIndex`.  The sum is accumulated in eight bits, the type of the start
value. -/
def getAverageReplicationIndex (allReplicationIndices : List UInt8) : UInt8 :=
  if allReplicationIndices ≠ [] then
    UInt8.ofNat ((allReplicationIndices.foldl (· + ·) 0).toNat / allReplicationIndices.length)
  else 0

/-- The indices that the process remembers after the calls of `setReplicationIndex`. -/
def recordedIndices (indices : List UInt8) : List UInt8 := indices.foldl setReplicationIndex []

/-- The last fifty indices are remembered.  By induction on the calls, from the last one. -/
lemma recordedIndices_eq (indices : List UInt8) :
    recordedIndices indices = indices.drop (indices.length - 50) := by
  induction indices using List.reverseRecOn with
  | nil => rfl
  | append_singleton indices r ih =>
    have hstep : recordedIndices (indices ++ [r]) =
        setReplicationIndex (recordedIndices indices) r := by
      rw [recordedIndices, List.foldl_append]
      rfl
    rw [hstep, ih, setReplicationIndex, List.length_drop, List.length_append, List.length_singleton]
    split_ifs with hfew
    · rw [show indices.length - 50 = 0 by omega, show indices.length + 1 - 50 = 0 by omega]
      rfl
    · rw [List.tail_drop, List.drop_append_of_le_length (by omega)]
      congr 2
      omega

/-- The eight-bit sum. -/
lemma toNat_foldl_add (indices : List UInt8) (start : UInt8) :
    (indices.foldl (· + ·) start).toNat = (start.toNat + (indices.map UInt8.toNat).sum) % 256 := by
  induction indices generalizing start with
  | nil => simp
  | cons r indices ih =>
    rw [List.foldl_cons, ih, UInt8.toNat_add, List.map_cons, List.sum_cons]
    change ((start.toNat + r.toNat) % 256 + _) % 256 = _
    rw [Nat.mod_add_mod, Nat.add_assoc]

/-- The mean of at most fifty numbers is not changed by reducing their sum modulo `256` only if
there is nothing to reduce. -/
lemma mod_div_eq_div_iff {sum count : ℕ} (hpos : 0 < count) (hle : count ≤ 50) :
    sum % 256 / count = sum / count ↔ sum < 256 := by
  constructor
  · intro heq
    by_contra hge
    have hsplit : sum = sum % 256 + 256 * (sum / 256) := (Nat.mod_add_div sum 256).symm
    have hlarge : 1 ≤ sum / 256 := (Nat.one_le_div_iff (by decide)).mpr (Nat.not_lt.mp hge)
    have hmore : (sum % 256 + count) / count ≤ sum / count :=
      Nat.div_le_div_right (by omega)
    rw [Nat.add_div_right _ hpos] at hmore
    omega
  · intro hlt
    rw [Nat.mod_eq_of_lt hlt]

/-- **The average replication index.**  After any calls of `setReplicationIndex`, the average is the
integer part of the mean of the last fifty indices exactly when their sum fits into eight bits. -/
theorem getAverageReplicationIndex_eq_iff (indices : List UInt8) :
    (getAverageReplicationIndex (recordedIndices indices)).toNat =
        ((indices.drop (indices.length - 50)).map UInt8.toNat).sum / min indices.length 50 ↔
      ((indices.drop (indices.length - 50)).map UInt8.toNat).sum < 256 := by
  rw [recordedIndices_eq]
  have hlength : (indices.drop (indices.length - 50)).length = min indices.length 50 := by
    rw [List.length_drop]
    omega
  rcases Nat.eq_zero_or_pos indices.length with hzero | hpos
  · obtain rfl := List.eq_nil_of_length_eq_zero hzero
    simp [getAverageReplicationIndex]
  · have hne : indices.drop (indices.length - 50) ≠ [] := by
      rw [← List.length_pos_iff, hlength]
      omega
    rw [getAverageReplicationIndex, if_pos hne, toNat_foldl_add, hlength]
    have hsmall : ((0 : UInt8).toNat + ((indices.drop (indices.length - 50)).map UInt8.toNat).sum) %
        256 / min indices.length 50 < 256 :=
      (Nat.div_le_self _ _).trans_lt (Nat.mod_lt _ (by decide))
    rw [UInt8.toNat_ofNat_of_lt' hsmall, UInt8.toNat_zero, Nat.zero_add]
    exact mod_div_eq_div_iff (by omega) (by omega)

/-- Two puts with replication 128: the average is zero. -/
theorem getAverageReplicationIndex_wraps :
    getAverageReplicationIndex (recordedIndices [128, 128]) = 0 ∧
      ¬ (getAverageReplicationIndex (recordedIndices [128, 128])).toNat =
        (([128, 128] : List UInt8).map UInt8.toNat).sum / 2 := by
  constructor
  · decide
  · decide

end ChordPlusPlus
