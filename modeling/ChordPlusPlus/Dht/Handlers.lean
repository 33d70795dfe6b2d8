import ChordPlusPlus.Dht.Peer

/-!
# The request handlers of the API

`Dht::onDhtPut`, `Dht::onDhtGet` and their `KeyIsHashOfData` siblings.  A handler runs at one node
and reaches the others through lookups, `getData` and `setData`.

The two get handlers change nothing; they are functions of the answers they receive (`Calls`), which
are numbered, so that two calls may be answered differently.  The two put handlers write to the
stores of a `Network`.  The bytes that a put handler echoes to the client are left out.

A handler may read through an empty `std::optional`; its outcome is then undefined.
-/

namespace ChordPlusPlus

/-- The reply of a get handler. -/
inductive Reply
  /-- `Message_DHT_SUCCESS`. -/
  | dhtSuccess (key value : Bytes)
  /-- `Message_KEY` of type `DHT_FAILURE`. -/
  | dhtFailure (key : Bytes)
deriving DecidableEq

/-- The reply that carries `response` if there is one. -/
def Reply.ofResponse (key : Bytes) (response : Option Bytes) : Reply :=
  match response with
  | some value => .dhtSuccess key value
  | none => .dhtFailure key

/-- The answers to the calls of a get handler: number `0` for the item itself, number `i` for the
`i`-th replica. -/
structure Calls (N : Type*) where
  /-- `Dht::getSuccessor`. -/
  getSuccessor : ℕ → IdType → Option N
  /-- `PeerImpl::getData`. -/
  getData : ℕ → N → Bytes → Option Bytes
  /-- `getAverageReplicationIndex`. -/
  average : ℕ → UInt8

namespace Calls

variable {N : Type*} (sha256 : Bytes → IdType) (calls : Calls N)

/-- Looks up the node for `id` and asks it for the item stored under `key`. -/
def fetch (i : ℕ) (id : IdType) (key : Bytes) : Option Bytes :=
  match calls.getSuccessor i id with
  | some node => calls.getData i node key
  | none => none

/-- The replica loop of `onDhtGet`, from the index `i` on: the first replica whose node is found
decides. -/
def onDhtGetReplicas (key : Bytes) : ℕ → ℕ → Option Bytes
  | 0, _ => none
  | fuel + 1, i =>
      if i ≤ (calls.average i).toNat then
        let replicatedKey := key ++ [UInt8.ofNat i]
        match calls.getSuccessor i (sha256 replicatedKey) with
        | some node => calls.getData i node replicatedKey
        | none => onDhtGetReplicas key fuel (i + 1)
      else none

/-- `Dht::onDhtGet`.  The index of the loop is an `int` compared with an eight-bit number, so 256
rounds are enough. -/
def onDhtGet (key : Bytes) : Reply :=
  let response := calls.fetch 0 (sha256 key) key
  let response :=
    if response = none ∧ 1 ≤ calls.average 0 then calls.onDhtGetReplicas sha256 key 256 1
    else response
  .ofResponse key response

/-- The replica loop of `onDhtGetKeyIsHashOfData`, from the index `i` on, with the response received
last; `none` if an empty response is read. -/
def onDhtGetKeyIsHashOfDataReplicas (key : IdType) :
    ℕ → ℕ → Option Bytes → Option (Option Bytes)
  | 0, _, response => some response
  | fuel + 1, i, response =>
      if i ≤ (calls.average i).toNat then
        let replicatedKey := key.bytes ++ [UInt8.ofNat i]
        match calls.getSuccessor i (sha256 replicatedKey) with
        | some node =>
            match calls.getData i node replicatedKey with
            | none => none
            | some value =>
                if sha256 value = key then some (some value)
                else onDhtGetKeyIsHashOfDataReplicas key fuel (i + 1) (some value)
        | none => onDhtGetKeyIsHashOfDataReplicas key fuel (i + 1) response
      else some response

/-- `Dht::onDhtGetKeyIsHashOfData` for a key of 32 bytes; `none` if an empty response is read. -/
def onDhtGetKeyIsHashOfData (key : IdType) : Option Reply :=
  match calls.fetch 0 key key.bytes with
  -- `response->begin()` is evaluated before the test whether there is a response.
  | none => none
  | some value =>
      let response :=
        if sha256 value ≠ key then
          calls.onDhtGetKeyIsHashOfDataReplicas sha256 key 256 1 (some value)
        else some (some value)
      response.map (.ofResponse key.bytes)

end Calls

/-! ## Handlers on a network -/

namespace Network

variable {N : Type*} [Endpoint N] [DecidableEq N]

/-- `Dht::getSuccessor`: the lookup at the node itself, where an exception becomes an empty
answer. -/
def dhtGetSuccessor (net : Network N) (fuel : ℕ) (self : N) (id : IdType) : Option N :=
  match net.getSuccessor fuel self id with
  | some (.ok node) => node
  | _ => none

/-- `PeerImpl::getData`, the client side. -/
def getData (net : Network N) (self node : N) (key : Bytes) : Option Bytes :=
  if node = self then (net.info self).getData key
  else match net.request node ((net.info node).getData key) with
    | .ok value => value
    | .error _ => none

/-- Changes the state of one node. -/
def setInfo (net : Network N) (node : N) (info : NodeInformation N) : Network N :=
  { net with info := Function.update net.info node info }

/-- `PeerImpl::setData`, the client side.  `now` is the clock of the node that stores the item. -/
def setData (net : Network N) (self node : N) (now : TimePoint) (key value : Bytes) (ttl : UInt16) :
    Network N :=
  if node = self then
    net.setInfo self ((net.info self).setData now key value (PeerImpl.ttlSeconds ttl))
  else if net.answers node then
    net.setInfo node (PeerImpl.serveSetData (net.info node) now key value ttl)
  else net

/-- The calls of a get handler at the node `self` while the network does not change. -/
def calls (net : Network N) (fuel : ℕ) (self : N) (average : UInt8) : Calls N where
  getSuccessor := fun _ => net.dhtGetSuccessor fuel self
  getData := fun _ => net.getData self
  average := fun _ => average

/-- What the put handlers share: the hash, the bound on the steps of a lookup, the replication limit
on each node, and the clock at the `i`-th store request. -/
structure PutContext where
  sha256 : Bytes → IdType
  fuel : ℕ
  replicationLimit : UInt8
  now : ℕ → TimePoint

/-- The number of copies on a node after one more; `none` if the limit does not permit one. -/
def addCopy (replicationLimit : UInt8) : Option UInt8 → Option UInt8
  | some copies => if copies < replicationLimit then some (copies + 1) else none
  | none => some 1

/-- The replication loop of the put handlers, `rounds` rounds from the index `i` on.  `stored` is
the number of copies of the item on each node so far, and `storedKey` computes the key under which
a replica is stored from the replica key that is hashed to find its node. -/
def putReplicas (ctx : PutContext) (self : N) (storedKey : Bytes → Bytes) (key value : Bytes)
    (ttl : UInt16) : ℕ → ℕ → (IdType → Option UInt8) → Network N → Network N
  | 0, _, _, net => net
  | rounds + 1, i, stored, net =>
      let replicaKey := key ++ [UInt8.ofNat (i + 1)]
      match net.dhtGetSuccessor ctx.fuel self (ctx.sha256 replicaKey) with
      | none => putReplicas ctx self storedKey key value ttl rounds (i + 1) stored net
      | some node =>
          match addCopy ctx.replicationLimit (stored (getId node)) with
          | none => putReplicas ctx self storedKey key value ttl rounds (i + 1) stored net
          | some copies =>
              putReplicas ctx self storedKey key value ttl rounds (i + 1)
                (Function.update stored (getId node) (some copies))
                (net.setData self node (ctx.now (i + 1)) (storedKey replicaKey) value ttl)

/-- What the two put handlers do to the stores: they store the item at the node responsible for the
hash of the key, and its replicas if `replication` is at least two. -/
def put (ctx : PutContext) (self : N) (storedKey : Bytes → Bytes) (key value : Bytes)
    (ttl : UInt16) (replication : UInt8) (net : Network N) : Network N :=
  let successor := net.dhtGetSuccessor ctx.fuel self (ctx.sha256 key)
  let net := match successor with
    | some node => net.setData self node (ctx.now 0) (storedKey key) value ttl
    | none => net
  if 2 ≤ replication then
    let stored := match successor with
      | some node => Function.update (fun _ => none) (getId node) (some 1)
      | none => fun _ => none
    putReplicas ctx self storedKey key value ttl (replication.toNat - 1) 0 stored net
  else net

/-- `Dht::onDhtPut`: the items are stored under the keys themselves.  `indices` are the replication
indices that the process has seen. -/
def onDhtPut (ctx : PutContext) (self : N) (key value : Bytes) (ttl : UInt16)
    (replication : UInt8) (indices : List UInt8) (net : Network N) : List UInt8 × Network N :=
  (setReplicationIndex indices replication,
    net.put ctx self id key value ttl replication)

/-- `Dht::onDhtPutKeyIsHashOfData`: the key of the message is its value, and the items are stored
under the hashes of the keys. -/
def onDhtPutKeyIsHashOfData (ctx : PutContext) (self : N) (value : Bytes) (ttl : UInt16)
    (replication : UInt8) (indices : List UInt8) (net : Network N) : List UInt8 × Network N :=
  (setReplicationIndex indices replication,
    net.put ctx self (fun key => (ctx.sha256 key).bytes) value value ttl replication)

end Network

end ChordPlusPlus
