import ChordPlusPlus.Dht.NodeInformation

/-!
# The cached id of a node

A `NodeInformation::Node` has an ip, a port and possibly an explicit id.  Its id, the explicit one or
else the hash of `ip:port`, is kept in a cache, which `getId` refreshes when it is not valid.

`setIp` and `setPort` make the cache invalid; `setId` does not, so `getId` may return an id that is no
longer in force.  `getsCurrent_iff` says for which sequences of calls that does not show: whenever
`getId` is called twice, or after the construction, without a `setIp` or `setPort` in between, the id
in force has to be the same.

Elsewhere in the development the nodes are endpoints whose id is fixed: the ring code builds each node
from its ip and port and calls none of the setters.
-/

namespace ChordPlusPlus

/-- `NodeInformation::Node`. -/
structure Node where
  /-- `m_ip`. -/
  ip : List Char
  /-- `m_port`. -/
  port : UInt16
  /-- `id_valid`. -/
  idValid : Bool
  /-- `m_id`. -/
  id : IdType
  /-- `m_explicit_id`. -/
  explicitId : Option IdType
deriving DecidableEq

/-- The calls that are made to a node. -/
inductive NodeCall
  | setIp (ip : List Char)
  | setPort (port : UInt16)
  | setId (id : Option IdType)
  | getId
deriving DecidableEq

namespace Node

section Operations

variable (sha256 : List Char → IdType)

/-- The id in force: the explicit one, or else the hash of `ip:port`. -/
def currentId (node : Node) : IdType :=
  match node.explicitId with
  | some id => id
  | none => sha256 (node.ip ++ ':' :: Nat.toDigits 10 node.port.toNat)

/-- `updateId`. -/
def updateId (node : Node) : Node :=
  let node := { node with idValid := true }
  match node.explicitId with
  | some id => { node with id := id }
  | none => { node with id := sha256 (node.ip ++ ':' :: Nat.toDigits 10 node.port.toNat) }

/-- The constructor from an ip and a port. -/
def ofAddress (ip : List Char) (port : UInt16) : Node :=
  updateId sha256
    { ip := ip, port := port, idValid := true, id := idOf 0, explicitId := none }

/-- The constructor with an explicit id. -/
def withId (ip : List Char) (port : UInt16) (id : IdType) : Node where
  ip := ip
  port := port
  idValid := true
  id := id
  explicitId := some id

/-- `setIp`. -/
def setIp (node : Node) (ip : List Char) : Node := { node with ip := ip, idValid := false }

/-- `setPort`. -/
def setPort (node : Node) (port : UInt16) : Node := { node with port := port, idValid := false }

/-- `setId`.  The cache is left as it is. -/
def setId (node : Node) (id : Option IdType) : Node := { node with explicitId := id }

/-- `getId`: the id, and the node with the cache refreshed. -/
def getId (node : Node) : IdType × Node :=
  let node := if !node.idValid then updateId sha256 node else node
  (node.id, node)

/-- What a call leaves of the node. -/
def apply (node : Node) : NodeCall → Node
  | .setIp ip => node.setIp ip
  | .setPort port => node.setPort port
  | .setId id => node.setId id
  | .getId => (node.getId sha256).2

/-- The node after some calls. -/
def after (node : Node) (calls : List NodeCall) : Node := calls.foldl (apply sha256) node

/-- Every `getId` among the calls returns the id in force. -/
def GetsCurrent (node : Node) (calls : List NodeCall) : Prop :=
  ∀ before rest, calls = before ++ .getId :: rest →
    ((after sha256 node before).getId sha256).1 = currentId sha256 (after sha256 node before)

/-- A call that leaves the ip and the port. -/
def KeepsAddress : NodeCall → Prop
  | .setIp _ => False
  | .setPort _ => False
  | _ => True

/-- The cache has just been filled: nothing has been called yet, or `getId` was called last. -/
def JustRead (before : List NodeCall) : Prop := before = [] ∨ ∃ first, before = first ++ [.getId]

/-- Whenever `getId` is called twice, or after the construction, without a `setIp` or `setPort` in
between, the id in force is the same. -/
def Steady (node : Node) (calls : List NodeCall) : Prop :=
  ∀ before between rest, calls = before ++ between ++ .getId :: rest → JustRead before →
    (∀ call ∈ between, KeepsAddress call) →
    currentId sha256 (after sha256 node (before ++ between)) =
      currentId sha256 (after sha256 node before)

end Operations

variable {sha256 : List Char → IdType}

/-! ## Single calls -/

lemma after_concat (node : Node) (calls : List NodeCall) (call : NodeCall) :
    after sha256 node (calls ++ [call]) = apply sha256 (after sha256 node calls) call := by
  rw [after, List.foldl_append]
  rfl

lemma after_append (node : Node) (calls calls' : List NodeCall) :
    after sha256 node (calls ++ calls') = after sha256 (after sha256 node calls) calls' := by
  rw [after, List.foldl_append]
  rfl

/-- Refreshing the cache stores the id in force. -/
lemma updateId_eq (node : Node) :
    updateId sha256 node = { node with idValid := true, id := currentId sha256 node } := by
  unfold updateId currentId
  cases node.explicitId <;> rfl

/-- What `getId` leaves: a valid cache that holds the id it returned. -/
lemma getId_spec (node : Node) :
    (node.getId sha256).2.idValid = true ∧ (node.getId sha256).2.id = (node.getId sha256).1 ∧
      currentId sha256 (node.getId sha256).2 = currentId sha256 node := by
  unfold getId
  rcases hvalid : node.idValid with _ | _
  · rw [Bool.not_false, if_pos rfl, updateId_eq]
    exact ⟨rfl, rfl, rfl⟩
  · exact ⟨hvalid, rfl, rfl⟩

/-- An invalid cache is refreshed before it is read. -/
lemma getId_of_not_valid {node : Node} (h : node.idValid = false) :
    (node.getId sha256).1 = currentId sha256 node := by
  simp [getId, h, updateId_eq]

/-- A valid cache is read as it is. -/
lemma getId_of_valid {node : Node} (h : node.idValid = true) : node.getId sha256 = (node.id, node) := by
  simp [getId, h]

/-- Calls that leave the ip and the port leave a valid cache as it is. -/
lemma after_of_keepsAddress {node : Node} (hvalid : node.idValid = true) {calls : List NodeCall}
    (hcalls : ∀ call ∈ calls, KeepsAddress call) :
    (after sha256 node calls).idValid = true ∧ (after sha256 node calls).id = node.id := by
  induction calls using List.reverseRecOn with
  | nil => exact ⟨hvalid, rfl⟩
  | append_singleton calls call ih =>
    obtain ⟨hvalid', hid⟩ := ih fun c hc => hcalls c (List.mem_append_left _ hc)
    have hcall := hcalls call (List.mem_append_right _ (List.mem_singleton_self call))
    rw [after_concat]
    cases call with
    | setIp ip => exact hcall.elim
    | setPort port => exact hcall.elim
    | setId id => exact ⟨hvalid', hid⟩
    | getId =>
      rw [apply, getId_of_valid hvalid']
      exact ⟨hvalid', hid⟩

/-! ## Sequences of calls -/

/-- A valid cache holds the id that was in force when it was filled, and the ip and the port have not
been set since.  By induction on the calls, from the last one. -/
lemma exists_justRead {node : Node} (hid : node.id = currentId sha256 node) {calls : List NodeCall}
    (h : (after sha256 node calls).idValid = true) :
    ∃ before between, calls = before ++ between ∧ JustRead before ∧
      (∀ call ∈ between, KeepsAddress call) ∧
      (after sha256 node calls).id = currentId sha256 (after sha256 node before) := by
  induction calls using List.reverseRecOn with
  | nil => exact ⟨[], [], rfl, Or.inl rfl, by simp, hid⟩
  | append_singleton calls call ih =>
    -- A call that leaves a valid cache as it is comes after the same reading.
    have hkeeps : (after sha256 node calls).idValid = true → KeepsAddress call →
        (after sha256 node (calls ++ [call])).id = (after sha256 node calls).id →
        ∃ before between, calls ++ [call] = before ++ between ∧ JustRead before ∧
          (∀ call ∈ between, KeepsAddress call) ∧
          (after sha256 node (calls ++ [call])).id =
            currentId sha256 (after sha256 node before) := by
      intro hvalid hcall hsame
      obtain ⟨before, between, rfl, hread, hbetween, hcached⟩ := ih hvalid
      refine ⟨before, between ++ [call], List.append_assoc .., hread, ?_, hsame.trans hcached⟩
      intro c hc
      rcases List.mem_append.mp hc with hold | hnew
      · exact hbetween c hold
      · rwa [List.mem_singleton.mp hnew]
    cases call with
    | setIp ip =>
      rw [after_concat] at h
      cases h
    | setPort port =>
      rw [after_concat] at h
      cases h
    | setId id =>
      rw [after_concat] at h
      refine hkeeps h trivial ?_
      rw [after_concat]
      rfl
    | getId =>
      rcases hvalid : (after sha256 node calls).idValid with _ | _
      · obtain ⟨-, hread, hsame⟩ := @getId_spec sha256 (after sha256 node calls)
        refine ⟨calls ++ [.getId], [], (List.append_nil _).symm, Or.inr ⟨calls, rfl⟩, by simp, ?_⟩
        rw [after_concat, apply, hread, hsame, getId_of_not_valid hvalid]
      · refine hkeeps hvalid trivial ?_
        rw [after_concat, apply, getId_of_valid hvalid]

/-- After a reading the cache is valid and holds the id in force, if every reading returned it. -/
lemma id_of_justRead {node : Node} (hvalid : node.idValid = true)
    (hid : node.id = currentId sha256 node) {before rest : List NodeCall}
    (hcurrent : GetsCurrent sha256 node (before ++ rest)) (hread : JustRead before) :
    (after sha256 node before).idValid = true ∧
      (after sha256 node before).id = currentId sha256 (after sha256 node before) := by
  rcases hread with rfl | ⟨first, rfl⟩
  · exact ⟨hvalid, hid⟩
  · obtain ⟨hvalid', hread, hsame⟩ := @getId_spec sha256 (after sha256 node first)
    have hreturned := hcurrent first rest (by rw [List.append_assoc]; rfl)
    rw [after_concat, apply, hread, hsame]
    exact ⟨hvalid', hreturned⟩

/-- For a node whose cache has been filled, every `getId` returns the id in force exactly when the
calls are steady. -/
lemma getsCurrent_iff_steady {node : Node} (hvalid : node.idValid = true)
    (hid : node.id = currentId sha256 node) (calls : List NodeCall) :
    GetsCurrent sha256 node calls ↔ Steady sha256 node calls := by
  constructor
  · rintro hcurrent before between rest rfl hread hbetween
    have hreturned := hcurrent (before ++ between) rest rfl
    rw [List.append_assoc] at hcurrent
    obtain ⟨hvalid', hcached⟩ := id_of_justRead hvalid hid hcurrent hread
    obtain ⟨hvalid'', hsame⟩ := @after_of_keepsAddress sha256 _ hvalid' _ hbetween
    rw [after_append] at hreturned ⊢
    rw [getId_of_valid hvalid''] at hreturned
    rw [← hreturned, hsame, hcached]
  · rintro hsteady before rest rfl
    rcases hvalid' : (after sha256 node before).idValid with _ | _
    · exact getId_of_not_valid hvalid'
    · obtain ⟨first, between, rfl, hread, hbetween, hcached⟩ := exists_justRead hid hvalid'
      rw [getId_of_valid hvalid', hcached]
      exact (hsteady first between rest rfl hread hbetween).symm

/-- **The cached id.**  For a node built by either constructor, every `getId` in a sequence of calls
returns the id in force exactly when the calls are steady. -/
theorem getsCurrent_iff (sha256 : List Char → IdType) (ip : List Char) (port : UInt16) (id : IdType)
    (calls : List NodeCall) :
    (GetsCurrent sha256 (ofAddress sha256 ip port) calls ↔
      Steady sha256 (ofAddress sha256 ip port) calls) ∧
    (GetsCurrent sha256 (withId ip port id) calls ↔ Steady sha256 (withId ip port id) calls) :=
  ⟨getsCurrent_iff_steady rfl rfl calls, getsCurrent_iff_steady rfl rfl calls⟩

/-- An explicit id that is set on a new node is not seen. -/
theorem setId_not_getsCurrent :
    ¬ GetsCurrent (fun _ => idOf 1) (ofAddress (fun _ => idOf 1) ['h'] 6969)
      [.setId (some (idOf 2)), .getId] := by
  intro hcurrent
  have hreturned := hcurrent [.setId (some (idOf 2))] [] rfl
  revert hreturned
  decide

end Node

end ChordPlusPlus
