import ChordPlusPlus.Dht.Handlers
import ChordPlusPlus.Dht.Maintenance
import ChordPlusPlus.Foundation.Linearizable
import ChordPlusPlus.Ring.LookupSteps

/-!
# Handlers in their threads

`Connection::finish_read` starts the handler of each request in a thread of its own, and `onDhtPut`
starts one more for the replicas of its item.  So the handlers of any number of requests, at any nodes,
run at the same time, next to the main loops and the data cleaners of the nodes.

`Dht.Handlers` computes what a handler does from beginning to end.  Here the handlers of `DHT_PUT` and
`DHT_GET` are taken apart into steps, each with one access to the state of some node: a reply to one of
the requests of a lookup (`Stage`), a store or a read.  All nodes answer.

A node keeps its latest replication loop in `m_replicationFuture`.  The handler that puts a new one there
waits for the end of the one that it replaces, since the future that is dropped is that of `std::async`.

The source does not synchronise the accesses to `m_replicationFuture` and to the deque
`m_allReplicationIndices`; each of them is taken as one step here.
-/

namespace ChordPlusPlus

open Concurrency

/-- Where the handler of a `DHT_PUT` is. -/
inductive PutPoint (N : Type*)
  | entry
  /-- Looking up the node of the item. -/
  | lookup (stage : Stage N)
  /-- About to store the item at the node found. -/
  | store (node : N)
  /-- At the head of the replication loop, in its own thread from here on.  `stored` is the number of
  copies on each node. -/
  | replica (i : ℕ) (stored : IdType → Option UInt8)
  | replicaLookup (i : ℕ) (stored : IdType → Option UInt8) (stage : Stage N)
  | replicaStore (i : ℕ) (stored : IdType → Option UInt8) (node : N)
  | finished

/-- Where the handler of a `DHT_GET` is. -/
inductive GetPoint (N : Type*)
  /-- Looking up the node of the item. -/
  | lookup (stage : Stage N)
  /-- About to ask the node found for the item. -/
  | ask (node : N)
  /-- With the response, if there was one. -/
  | test (response : Option Bytes)
  /-- At the head of the replica loop. -/
  | loop (i : ℕ)
  | replicaLookup (i : ℕ) (stage : Stage N)
  | replicaAsk (i : ℕ) (node : N)
  /-- About to return. -/
  | reply (response : Option Bytes)
  | returned

/-- Where the handler of a `DHT_PUT` is with its replication loop, which has a thread of its own. -/
inductive PutHandler
  /-- The loop is not yet in `m_replicationFuture`. -/
  | runs
  /-- The loop has replaced that of the put handler number `earlier`, if there was one. -/
  | assigned (earlier : Option ℕ)
  /-- The handler has returned.  The replication loop goes on. -/
  | returned
deriving DecidableEq

/-- The handler of a `DHT_PUT` at the node `self`. -/
structure PutThread (N : Type*) where
  self : N
  key : IdType
  value : Bytes
  ttl : UInt16
  replication : UInt8
  point : PutPoint N
  handler : PutHandler

/-- The handler of a `DHT_GET` at the node `self`. -/
structure GetThread (N : Type*) where
  self : N
  key : IdType
  point : GetPoint N

/-- The key of the `i`-th replica. -/
def replicaKey (key : IdType) (i : ℕ) : Bytes := key.bytes ++ [UInt8.ofNat i]

variable {N : Type*} [Endpoint N] [DecidableEq N]

namespace PutThread

/-- What follows the first store: the replication loop, if there are replicas. -/
def afterStore (thread : PutThread N) (successor : Option N) : PutPoint N :=
  if 2 ≤ thread.replication then
    .replica 0 (match successor with
      | some node => Function.update (fun _ => none) (getId node) (some 1)
      | none => fun _ => none)
  else .finished

/-- Where the handler goes in its next step, if `info` is the state of the nodes. -/
def next (sha256 : Bytes → IdType) (replicationLimit : UInt8) (method : N → GetSuccessorMethod)
    (info : N → NodeInformation N) (thread : PutThread N) : PutPoint N :=
  match thread.point with
  | .entry => .lookup (.start thread.self)
  | .lookup (.done (some node)) => .store node
  | .lookup (.done none) => thread.afterStore none
  | .lookup stage => .lookup (stage.next info method (sha256 thread.key.bytes))
  | .store node => thread.afterStore (some node)
  | .replica i stored =>
      if i < thread.replication.toNat - 1 then .replicaLookup i stored (.start thread.self)
      else .finished
  | .replicaLookup i stored (.done (some node)) =>
      match Network.addCopy replicationLimit (stored (getId node)) with
      | none => .replica (i + 1) stored
      | some copies => .replicaStore i (Function.update stored (getId node) (some copies)) node
  | .replicaLookup i stored (.done none) => .replica (i + 1) stored
  | .replicaLookup i stored stage =>
      .replicaLookup i stored (stage.next info method (sha256 (replicaKey thread.key (i + 1))))
  | .replicaStore i stored _ => .replica (i + 1) stored
  | .finished => .finished

/-- The node and the key of the store request that the next step makes, if it makes one. -/
def write (thread : PutThread N) : Option (N × Bytes) :=
  match thread.point with
  | .store node => some (node, thread.key.bytes)
  | .replicaStore i _ node => some (node, replicaKey thread.key (i + 1))
  | _ => none

/-- The handler is past the store of the item. -/
def isStored (thread : PutThread N) : Bool :=
  match thread.point with
  | .entry | .lookup _ | .store _ => false
  | _ => true

/-- The replication loop has ended, or there is none. -/
def hasEnded (thread : PutThread N) : Bool :=
  match thread.point with
  | .finished => true
  | _ => false

variable {sha256 : Bytes → IdType} {replicationLimit : UInt8} {method : N → GetSuccessorMethod}
  {info : N → NodeInformation N} {thread : PutThread N}

lemma next_lookup {stage : Stage N} (hpoint : thread.point = .lookup stage)
    (hstage : ∀ result, stage ≠ .done result) :
    thread.next sha256 replicationLimit method info =
      .lookup (stage.next info method (sha256 thread.key.bytes)) := by
  unfold next
  rw [hpoint]
  cases stage with
  | done result => exact absurd rfl (hstage result)
  | start | ping | ask | check => rfl

lemma next_replicaLookup {j : ℕ} {stored : IdType → Option UInt8} {stage : Stage N}
    (hpoint : thread.point = .replicaLookup j stored stage) (hstage : ∀ result, stage ≠ .done result) :
    thread.next sha256 replicationLimit method info = .replicaLookup j stored
      (stage.next info method (sha256 (replicaKey thread.key (j + 1)))) := by
  unfold next
  rw [hpoint]
  cases stage with
  | done result => exact absurd rfl (hstage result)
  | start | ping | ask | check => rfl

end PutThread

/-- Where the handler of a `DHT_GET` goes in its next step, if `info` is the state of the nodes and
`average` the average replication index of its process. -/
def GetThread.next (sha256 : Bytes → IdType) (method : N → GetSuccessorMethod)
    (info : N → NodeInformation N) (average : UInt8) (thread : GetThread N) : GetPoint N :=
  match thread.point with
  | .lookup (.done (some node)) => .ask node
  | .lookup (.done none) => .test none
  | .lookup stage => .lookup (stage.next info method (sha256 thread.key.bytes))
  | .ask node => .test ((info node).getData thread.key.bytes)
  | .test response => if response = none ∧ 1 ≤ average then .loop 1 else .reply response
  | .loop i => if i ≤ average.toNat then .replicaLookup i (.start thread.self) else .reply none
  | .replicaLookup i (.done (some node)) => .replicaAsk i node
  | .replicaLookup i (.done none) => .loop (i + 1)
  | .replicaLookup i stage =>
      .replicaLookup i (stage.next info method (sha256 (replicaKey thread.key i)))
  | .replicaAsk i node => .reply ((info node).getData (replicaKey thread.key i))
  | .reply response => .reply response
  | .returned => .returned

namespace GetThread

variable {sha256 : Bytes → IdType} {method : N → GetSuccessorMethod} {info : N → NodeInformation N}
  {average : UInt8} {thread : GetThread N}

lemma next_lookup {stage : Stage N} (hpoint : thread.point = .lookup stage)
    (hstage : ∀ result, stage ≠ .done result) :
    thread.next sha256 method info average =
      .lookup (stage.next info method (sha256 thread.key.bytes)) := by
  unfold next
  rw [hpoint]
  cases stage with
  | done result => exact absurd rfl (hstage result)
  | start | ping | ask | check => rfl

lemma next_replicaLookup {j : ℕ} {stage : Stage N} (hpoint : thread.point = .replicaLookup j stage)
    (hstage : ∀ result, stage ≠ .done result) :
    thread.next sha256 method info average =
      .replicaLookup j (stage.next info method (sha256 (replicaKey thread.key j))) := by
  unfold next
  rw [hpoint]
  cases stage with
  | done result => exact absurd rfl (hstage result)
  | start | ping | ask | check => rfl

end GetThread

/-! ## The deployment and its clients -/

/-- A request of a client. -/
inductive ClientRequest
  | put (key : IdType) (value : Bytes) (ttl : UInt16) (replication : UInt8)
  | get (key : IdType)

/-- The number of nodes on which a request asks to store its item. -/
def ClientRequest.replication : ClientRequest → UInt8
  | .put _ _ _ replication => replication
  | .get _ => 0

/-- What a request means to the clients. -/
inductive ClientOp
  | put (key : IdType) (value : Bytes)
  | get (key : IdType)
deriving DecidableEq

/-- What a handler returns. -/
inductive Answer
  /-- The bytes of the request, of a put. -/
  | echo
  | reply (reply : Reply)
deriving DecidableEq

/-- The map that the clients see. -/
def clientMap : SeqObject (IdType → Option Bytes) ClientOp Answer where
  apply op map := match op with
    | .put key value => (Function.update map key (some value), .echo)
    | .get key => (map, .reply (.ofResponse key.bytes (map key)))

/-- The handler of a request, in its thread. -/
inductive ClientThread (N : Type*)
  | put (thread : PutThread N)
  | get (thread : GetThread N)

/-- A deployment with handlers in their threads. -/
structure Serving (N P : Type*) where
  sys : System N
  /-- The replication indices that each process has seen. -/
  indices : P → List UInt8
  /-- The handlers, in the order of the requests. -/
  threads : List (ClientThread N)
  /-- The handler whose replication loop is in `m_replicationFuture` of each node. -/
  replicationFuture : N → Option ℕ
  /-- What the clients have seen. -/
  history : List (Observed ClientOp Answer)

/-- What happens in a deployment. -/
inductive ServingEvent (N : Type*)
  /-- A step of the main loop of some node, or the delivery of a message. -/
  | node (a : Action N)
  /-- A pass of the data cleaner of the node `m`, with the clock readings `now`. -/
  | clean (m : N) (now : ℕ → TimePoint)
  /-- A client sends a request to the node `self`. -/
  | call (self : N) (request : ClientRequest)
  /-- The next step of a handler; `now` is the clock of the node that stores, if there is one. -/
  | run (i : ℕ) (now : TimePoint)
  /-- A put handler assigns its replication loop to `m_replicationFuture`. -/
  | assign (i : ℕ)
  /-- A handler returns. -/
  | reply (i : ℕ)

namespace Serving

variable {P : Type*} [DecidableEq P]

section Steps

variable (sha256 : Bytes → IdType) (replicationLimit : UInt8) (process : N → P)
  (method : N → GetSuccessorMethod) (bootstrap : N)

/-- `finish_read` starts the handler of a request. -/
def call (st : Serving N P) (self : N) (request : ClientRequest) : Serving N P :=
  match request with
  | .put key value ttl replication =>
      { st with
        threads := st.threads ++ [.put ⟨self, key, value, ttl, replication, .entry, .runs⟩]
        history := st.history ++ [.call st.threads.length (.put key value)] }
  | .get key =>
      { st with
        threads := st.threads ++ [.get ⟨self, key, .lookup (.start self)⟩]
        history := st.history ++ [.call st.threads.length (.get key)] }

/-- The nodes after the store request of a put handler, if it makes one. -/
def stored (sys : System N) (thread : PutThread N) (now : TimePoint) : System N :=
  match thread.write with
  | some (node, key) =>
      sys.setInfo node (PeerImpl.serveSetData (sys.info node) now key thread.value thread.ttl)
  | none => sys

/-- The replication indices after a step of a put handler, which begins with `setReplicationIndex`. -/
def recorded (indices : P → List UInt8) (thread : PutThread N) : P → List UInt8 :=
  match thread.point with
  | .entry => Function.update indices (process thread.self)
      (setReplicationIndex (indices (process thread.self)) thread.replication)
  | _ => indices

/-- The next step of the handler number `i`. -/
def run (st : Serving N P) (i : ℕ) (now : TimePoint) : Option (Serving N P) :=
  match st.threads[i]? with
  | some (.put thread) =>
      some { st with
        sys := stored st.sys thread now
        indices := recorded process st.indices thread
        threads := st.threads.set i (.put { thread with
          point := thread.next sha256 replicationLimit method st.sys.info }) }
  | some (.get thread) =>
      some { st with
        threads := st.threads.set i (.get { thread with
          point := thread.next sha256 method st.sys.info
            (getAverageReplicationIndex (st.indices (process thread.self))) }) }
  | none => none

/-- The handler number `i` assigns its replication loop to `m_replicationFuture` of its node. -/
def assign (st : Serving N P) (i : ℕ) : Option (Serving N P) :=
  match st.threads[i]? with
  | some (.put thread) =>
      if thread.isStored ∧ 2 ≤ thread.replication ∧ thread.handler = .runs then
        some { st with
          threads := st.threads.set i (.put { thread with
            handler := .assigned (st.replicationFuture thread.self) })
          replicationFuture := Function.update st.replicationFuture thread.self (some i) }
      else none
  | _ => none

/-- The replication loop of the handler number `i` has ended. -/
def hasEnded (st : Serving N P) (i : ℕ) : Bool :=
  match st.threads[i]? with
  | some (.put thread) => thread.hasEnded
  | _ => false

/-- A put handler may return: it has stored the item, and if there are replicas, it has assigned its
replication loop, and the loop that was replaced has ended. -/
def mayReturn (st : Serving N P) (thread : PutThread N) : Bool :=
  thread.isStored &&
    match thread.handler with
    | .runs => decide (thread.replication < 2)
    | .assigned earlier => earlier.all st.hasEnded
    | .returned => false

/-- The handler number `i` returns. -/
def reply (st : Serving N P) (i : ℕ) : Option (Serving N P) :=
  match st.threads[i]? with
  | some (.put thread) =>
      if st.mayReturn thread then
        some { st with
          threads := st.threads.set i (.put { thread with handler := .returned })
          history := st.history ++ [.ret i .echo] }
      else none
  | some (.get thread) =>
      match thread.point with
      | .reply response =>
          some { st with
            threads := st.threads.set i (.get { thread with point := .returned })
            history := st.history ++
              [.ret i (.reply (.ofResponse thread.key.bytes response))] }
      | _ => none
  | none => none

/-- One step. -/
def step : ServingEvent N → Serving N P → Option (Serving N P)
  | .node a, st => (System.step sha256 bootstrap a st.sys).map fun sys => { st with sys := sys }
  | .clean m now, st =>
      some { st with sys := st.sys.setInfo m ((st.sys.info m).dataCleanerPass now) }
  | .call self request, st => some (st.call self request)
  | .run i now, st => st.run sha256 replicationLimit process method i now
  | .assign i, st => st.assign i
  | .reply i, st => st.reply i

end Steps

end Serving

end ChordPlusPlus
