import ChordPlusPlus.Dht.NodeInformation

/-!
# The peer interface

The lookup of `Peer.cpp`: `getClosestPreceding`, `getClosestPrecedingHelper` with its three local
functions `checkResult`, `impl` and `iterate`, the hop loop `getSuccessorAlgorithm` and
`getSuccessor` itself, together with the handlers for `notify`, `getData` and `setData`.

A promise is either fulfilled or rejected.  The replies of the other peers are a stream
`peers : ℕ → Peers N`, read at the running number of the request, so that a peer may answer the
same question differently at different times.  The two recursions through promises, `iterate` and
the hop loop, carry a step bound; the result `none` means that the bound was reached before the
promise was settled.
-/

namespace ChordPlusPlus

/-- What a rejected promise carries. -/
inductive KjException
  | disconnected
deriving DecidableEq

/-- A settled `kj::Promise<T>`. -/
abbrev Promise (α : Type*) := Except KjException α

/-- `PeerImpl::ClosestPrecedingPair`. -/
structure ClosestPrecedingPair (N : Type*) where
  /-- The closest preceding finger, if any. -/
  closestPreceding : Option N
  /-- The direct successor of the asked node, if any. -/
  successor : Option N
deriving DecidableEq

/-- `PeerImpl::GetSuccessorMethod`. -/
inductive GetSuccessorMethod
  | passOn
  | localHops
deriving DecidableEq

/-- The replies of the other peers to the requests that a lookup sends. -/
structure Peers (N : Type*) where
  /-- The reply of a node to `getClosestPreceding(id)`. -/
  getClosestPreceding : N → IdType → Promise (ClosestPrecedingPair N)
  /-- The reply of a node to `getPredecessor()`. -/
  getPredecessor : N → Promise (Option N)

/-- The first two tests of `getSuccessor` on the node's own state. -/
inductive Requested (N : Type*)
  /-- This node is requested. -/
  | thisNode
  /-- The next node is requested. -/
  | nextNode (successor : N)
  /-- Some other node is. -/
  | otherNode
deriving DecidableEq

namespace PeerImpl

variable {N : Type*} [Endpoint N]

/-! ## Requests that this node answers from its own state -/

/-- `PeerImpl::getClosestPreceding`: the highest finger strictly between this node and `id`. -/
def getClosestPreceding (self : N) (info : NodeInformation N) (id : IdType) : Option N :=
  (List.finRange keyBits).reverse.findSome? fun i =>
    (info.fingerTable i).filter fun finger =>
      isInRangeLoop (getId finger) (getId self) id false false

/-- The reply to a `getClosestPreceding` request. -/
def serveClosestPreceding (self : N) (info : NodeInformation N) (id : IdType) :
    ClosestPrecedingPair N where
  closestPreceding := getClosestPreceding self info id
  successor := info.getSuccessor

/-- `PeerImpl::notify`. -/
def notify (self : N) (info : NodeInformation N) (node : N) : NodeInformation N :=
  match info.predecessor with
  | none => info.setPredecessor (some node)
  | some pred =>
      if isInRangeLoop (getId node) (getId pred) (getId self) false false then
        info.setPredecessor (some node)
      else info

/-- The time to live that a `setData` request asks for, in seconds; `0` stands for no expiry. -/
def ttlSeconds (ttl : UInt16) : Duration :=
  if 0 < ttl then Int64.ofNat ttl.toNat * 1000000000 else Int64.maxValue

/-- `PeerImpl::setData`, the handler. -/
def serveSetData (info : NodeInformation N) (now : TimePoint) (key value : Bytes) (ttl : UInt16) :
    NodeInformation N :=
  info.setData now key value (ttlSeconds ttl)

/-! ## The lookup -/

/-- The first two tests of `getSuccessor`: is this node responsible for `id`, or is its successor? -/
def requested (self : N) (info : NodeInformation N) (id : IdType) : Requested N :=
  let thisNode := match info.predecessor with
    | some pred => isInRangeLoop id (getId pred) (getId self) false true
    | none => false
  if thisNode then .thisNode
  else match info.getSuccessor with
    | some successor =>
        if isInRangeLoop id (getId self) (getId successor) false true then .nextNode successor
        else .otherNode
    | none => .otherNode

variable [DecidableEq N]

/-- `checkResult` of `getClosestPrecedingHelper`: drops a closest preceding node that is not
strictly between the asked `node` and the requested `id`, and asks the direct successor for its
predecessor.  The number of the next request is passed along. -/
def checkResult (self : N) (peers : ℕ → Peers N) (node : N) (id : IdType) (request : ℕ)
    (result : ClosestPrecedingPair N) : Promise (ClosestPrecedingPair N) × ℕ :=
  let result := { result with
    closestPreceding := result.closestPreceding.filter fun c =>
      isInRangeLoop (getId c) (getId node) id false false }
  match result.successor with
  | none => (.ok result, request)
  | some successor =>
      if successor = self then (.ok { result with successor := none }, request)
      else match (peers request).getPredecessor successor with
        | .error e => (.error e, request + 1)
        | .ok pred =>
            -- The arc ends at the asked node, as in the source, not at the successor.
            let responsible := match pred with
              | none => false
              | some pred => isInRangeLoop id (getId pred) (getId node) false true
            (.ok (if responsible then result else { result with successor := none }), request + 1)

/-- `impl` of `getClosestPrecedingHelper`: asks `node` for the closest node preceding `askedId` and
checks the answer against the requested `id`. -/
def impl (self : N) (info : NodeInformation N) (peers : ℕ → Peers N) (node : N) (id : IdType)
    (request : ℕ) (askedId : IdType) : Promise (ClosestPrecedingPair N) × ℕ :=
  if node = self then
    checkResult self peers node id request (serveClosestPreceding self info askedId)
  else
    let result := match (peers request).getClosestPreceding node askedId with
      | .ok result => result
      | .error _ => { closestPreceding := none, successor := none }
    checkResult self peers node id (request + 1) result

/-- `iterate` of `getClosestPrecedingHelper`: as long as the closest preceding node is distrusted,
asks again for the node preceding that one. -/
def iterate (self : N) (info : NodeInformation N) (peers : ℕ → Peers N) (node : N) (id : IdType)
    (distrusted : Finset N) :
    ℕ → ℕ → IdType → Option (Promise (ClosestPrecedingPair N) × ℕ)
  | 0, _, _ => none
  | fuel + 1, request, askedId =>
      match impl self info peers node id request askedId with
      | (.error e, request) => some (.error e, request)
      | (.ok result, request) =>
          match result.closestPreceding with
          | none => some (.ok result, request)
          | some c =>
              if c ∈ distrusted then
                iterate self info peers node id distrusted fuel request (getId c)
              else some (.ok result, request)

/-- `PeerImpl::getClosestPrecedingHelper`. -/
def getClosestPrecedingHelper (self : N) (info : NodeInformation N) (peers : ℕ → Peers N)
    (fuel request : ℕ) (node : N) (id : IdType) (distrusted : Finset N) :
    Option (Promise (ClosestPrecedingPair N) × ℕ) :=
  iterate self info peers node id distrusted fuel request id

/-- `getSuccessorAlgorithm`: the hop loop.  The top of the stack `hops` is its head. -/
def getSuccessorAlgorithm (self : N) (info : NodeInformation N) (peers : ℕ → Peers N)
    (id : IdType) : ℕ → ℕ → List N → Finset N → Option (Promise (Option N))
  | 0, _, _, _ => none
  | _ + 1, _, [], _ => some (.ok none)
  | fuel + 1, request, current :: hops, distrusted =>
      match getClosestPrecedingHelper self info peers fuel request current id distrusted with
      | none => none
      | some (.error e, _) => some (.error e)
      | some (.ok result, request) =>
          match result.closestPreceding with
          | some c =>
              getSuccessorAlgorithm self info peers id fuel request (c :: current :: hops)
                distrusted
          | none =>
              match result.successor with
              | some successor => some (.ok (some successor))
              | none =>
                  getSuccessorAlgorithm self info peers id fuel request hops
                    (insert current distrusted)

/-- `PeerImpl::getSuccessor`.  `passOn` is the reply to the `getSuccessor` request that the method
`PASS_ON` sends to the closest preceding finger. -/
def getSuccessor (self : N) (info : NodeInformation N) (peers : ℕ → Peers N)
    (method : GetSuccessorMethod) (passOn : N → IdType → Option (Promise (Option N))) (fuel : ℕ)
    (id : IdType) : Option (Promise (Option N)) :=
  match requested self info id with
  | .thisNode => some (.ok (some self))
  | .nextNode successor =>
      -- The request only checks that the successor is online.
      match (peers 0).getPredecessor successor with
      | .ok _ => some (.ok (some successor))
      | .error _ => some (.ok none)
  | .otherNode =>
      match method with
      | .passOn =>
          match getClosestPreceding self info id with
          | none => some (.ok none)
          | some c => (passOn c id).map fun
              | .ok node => .ok node
              | .error _ => .ok none
      | .localHops => getSuccessorAlgorithm self info peers id fuel 0 [self] ∅

end PeerImpl

/-! ## The network of peers -/

/-- A deployment: the state of every node, which nodes answer requests, and the lookup method that
each of them was constructed with. -/
structure Network (N : Type*) where
  /-- The state of each node. -/
  info : N → NodeInformation N
  /-- Whether a request to the node gets a reply. -/
  answers : N → Bool
  /-- `m_getSuccessorMethod`. -/
  method : N → GetSuccessorMethod

namespace Network

variable {N : Type*} [Endpoint N]

/-- A request to `node`, which replies with `reply` if it answers at all. -/
def request {α : Type*} (net : Network N) (node : N) (reply : α) : Promise α :=
  if net.answers node then .ok reply else .error .disconnected

/-- The replies of the nodes of the network, each from its own state. -/
def peers (net : Network N) : Peers N where
  getClosestPreceding node id :=
    net.request node (PeerImpl.serveClosestPreceding node (net.info node) id)
  getPredecessor node := net.request node (net.info node).predecessor

variable [DecidableEq N]

/-- The `getSuccessor` request at the node `self` of the network. -/
def getSuccessor (net : Network N) : ℕ → N → IdType → Option (Promise (Option N))
  | 0, _, _ => none
  | fuel + 1, self, id =>
      PeerImpl.getSuccessor self (net.info self) (fun _ => net.peers) (net.method self)
        (fun c id =>
          if net.answers c then getSuccessor net fuel c id else some (.error .disconnected))
        fuel id

/-- The lookup of `id` at `self` finishes with the answer `result`. -/
def Resolves (net : Network N) (self : N) (id : IdType) (result : Promise (Option N)) : Prop :=
  ∃ fuel, net.getSuccessor fuel self id = some result

end Network

end ChordPlusPlus
