import ChordPlusPlus.Dht.Threads
import ChordPlusPlus.Storage.Growth

/-!
# Concurrent requests

On a settled ring the handlers of any number of `DHT_PUT` and `DHT_GET` requests run at the same time,
step by step in any order, next to the maintenance of the nodes and to their data cleaners.  As long as
no item expires, the clients cannot tell this from a map whose operations happen one at a time
(`requests_linearizable`).

A put takes effect when its item is stored.  A get takes effect when it reads the item; but where it
finds none, it goes on to the first replica, and may answer with the replica of a put that came in
between.  Such a get has taken effect right after that put, which is known only afterwards.

The accesses to the replication indices and to `m_replicationFuture` count as single steps here, although
the source does not synchronise them (`Dht.Threads`).

The items must not expire: an item that has expired may be gone from its node while an older one is
still there as a replica.
-/

namespace ChordPlusPlus

open Concurrency Run

variable {N : Type*}

/-! ## Keys -/

lemma ByteArr.bytes_injective {n : ℕ} : Function.Injective (ByteArr.bytes : ByteArr n → Bytes) := by
  rintro ⟨bytes, hsize⟩ ⟨bytes', hsize'⟩ heq
  obtain rfl : bytes = bytes' := heq
  rfl

lemma replicaKey_ne_bytes (key key' : IdType) (i : ℕ) : replicaKey key i ≠ key'.bytes := by
  intro heq
  have hlength := congrArg List.length heq
  simp [replicaKey, key.size_eq, key'.size_eq] at hlength

lemma replicaKey_inj {key key' : IdType} {i j : ℕ} (h : replicaKey key i = replicaKey key' j) :
    key = key' :=
  ByteArr.bytes_injective (List.append_inj_left h (key.size_eq.trans key'.size_eq.symm))

/-! ## The map of the clients -/

/-- A key that was put stays put. -/
lemma clientMap_stays {map : IdType → Option Bytes} {updates : List (ℕ × ClientOp)} {p q : ℕ}
    (hpq : p ≤ q) {key : IdType} (h : clientMap.stateAt map updates p key ≠ none) :
    clientMap.stateAt map updates q key ≠ none := by
  refine SeqObject.stateAt_induction (P := fun map : IdType → Option Bytes => map key ≠ none) hpq ?_ h
  rintro ⟨i, op⟩ - map hmap
  cases op with
  | get _ => exact hmap
  | put key' value =>
    by_cases hkey : key = key'
    · simp [clientMap, hkey]
    · simpa [clientMap, hkey] using hmap

lemma clientMap_put {map : IdType → Option Bytes} {updates : List (ℕ × ClientOp)} {q i : ℕ}
    {key : IdType} {value : Bytes} (hq : updates[q]? = some (i, .put key value)) (key' : IdType) :
    clientMap.stateAt map updates (q + 1) key' =
      if key' = key then some value else clientMap.stateAt map updates q key' := by
  rw [SeqObject.stateAt_succ hq]
  exact Function.update_apply ..

lemma clientMap_get_isQuery (key : IdType) : clientMap.IsQuery (.get key) := fun _ => rfl

/-! ## The stores -/

section Stores

variable [Endpoint N]

/-- The stores of the nodes agree with the map of the clients after all of the `updates`: the nodes
responsible for the keys have the values and nothing else, with expiry dates from `horizon` on, and a
first replica that is found has been put after any moment at which the key had no value. -/
structure Agrees (sha256 : Bytes → IdType) (ring : Finset N) (horizon : TimePoint)
    (map : IdType → Option Bytes) (updates : List (ℕ × ClientOp)) (info : N → NodeInformation N) :
    Prop where
  held : ∀ key v s, clientMap.stateAt map updates updates.length key = some v →
    Arc.Owns getId ring (sha256 key.bytes) s →
    ∃ e, (info s).data.lookup key.bytes = some (v, e) ∧ horizon ≤ e
  absent : ∀ key s, clientMap.stateAt map updates updates.length key = none →
    Arc.Owns getId ring (sha256 key.bytes) s → (info s).data.lookup key.bytes = none
  replicas : ∀ key m v e, (info m).data.lookup (replicaKey key 1) = some (v, e) →
    ∀ p ≤ updates.length, clientMap.stateAt map updates p key = none →
      ∃ q ≤ updates.length, p < q ∧ clientMap.stateAt map updates q key = some v

variable {sha256 : Bytes → IdType} {ring : Finset N} {horizon : TimePoint}
  {map : IdType → Option Bytes} {updates : List (ℕ × ClientOp)} {info info' : N → NodeInformation N}

/-- A node responsible for a key has the value that the clients see. -/
lemma Agrees.getData (h : Agrees sha256 ring horizon map updates info) {key : IdType} {s : N}
    (hown : Arc.Owns getId ring (sha256 key.bytes) s) :
    (info s).getData key.bytes = clientMap.stateAt map updates updates.length key := by
  cases hvalue : clientMap.stateAt map updates updates.length key with
  | none => rw [NodeInformation.getData, h.absent key s hvalue hown, Option.map_none]
  | some v =>
    obtain ⟨e, he, -⟩ := h.held key v s hvalue hown
    rw [NodeInformation.getData, he, Option.map_some]

lemma Agrees.congr (h : Agrees sha256 ring horizon map updates info)
    (hdata : ∀ m, (info' m).data = (info m).data) : Agrees sha256 ring horizon map updates info' where
  held := fun key v s hv hown => hdata s ▸ h.held key v s hv hown
  absent := fun key s hnone hown => hdata s ▸ h.absent key s hnone hown
  replicas := fun key m v e hm => h.replicas key m v e (hdata m ▸ hm)

variable [DecidableEq N]

/-- A pass of the data cleaner removes none of the items. -/
lemma Agrees.clean (h : Agrees sha256 ring horizon map updates info) (m : N) {now : ℕ → TimePoint}
    (hnow : ∀ i, now i ≤ horizon) :
    Agrees sha256 ring horizon map updates
      (Function.update info m ((info m).dataCleanerPass now)) := by
  have hkept : ∀ {s key v e}, (info s).data.lookup key = some (v, e) → horizon ≤ e →
      (Function.update info m ((info m).dataCleanerPass now) s).data.lookup key = some (v, e) := by
    intro s key v e hlookup he
    by_cases hs : s = m
    · subst hs
      rw [Function.update_self]
      refine NodeInformation.lookup_dataCleanerPass hlookup fun i hlt => ?_
      exact absurd hlt (Int64.not_lt.mpr (Int64.le_trans (hnow i) he))
    · rwa [Function.update_of_ne hs]
  have hold : ∀ {s key item},
      (Function.update info m ((info m).dataCleanerPass now) s).data.lookup key = some item →
      (info s).data.lookup key = some item := by
    intro s key item hlookup
    by_cases hs : s = m
    · subst hs
      rw [Function.update_self] at hlookup
      exact NodeInformation.lookup_of_lookup_dataCleanerPass hlookup
    · rwa [Function.update_of_ne hs] at hlookup
  refine ⟨?_, ?_, fun key s v e hs => h.replicas key s v e (hold hs)⟩
  · intro key v s hv hown
    obtain ⟨e, hlookup, he⟩ := h.held key v s hv hown
    exact ⟨e, hkept hlookup he, he⟩
  · intro key s hnone hown
    rw [Option.eq_none_iff_forall_ne_some]
    intro item hitem
    have hlookup := hold hitem
    rw [h.absent key s hnone hown] at hlookup
    cases hlookup

omit [Endpoint N] in
/-- What a store request changes. -/
lemma lookup_serveSetData (info : N → NodeInformation N) (node : N) (now : TimePoint)
    (key value : Bytes) (ttl : UInt16) (m : N) (k : Bytes) :
    (Function.update info node (PeerImpl.serveSetData (info node) now key value ttl) m).data.lookup k =
      if m = node ∧ k = key then
        some (value, NodeInformation.expiresAt now (PeerImpl.ttlSeconds ttl))
      else (info m).data.lookup k := by
  by_cases hm : m = node
  · subst hm
    rw [Function.update_self]
    by_cases hk : k = key
    · subst hk
      simp [PeerImpl.serveSetData, NodeInformation.setData, NodeInformation.setDataExpires]
    · simp [PeerImpl.serveSetData, NodeInformation.setData, NodeInformation.setDataExpires, hk]
  · simp [hm]

/-- The item of a put is stored. -/
lemma Agrees.store (h : Agrees sha256 ring horizon map updates info) {i : ℕ} {key : IdType}
    {value : Bytes} {node : N} (hown : Arc.Owns getId ring (sha256 key.bytes) node) {now : TimePoint}
    {ttl : UInt16} (hdate : horizon ≤ NodeInformation.expiresAt now (PeerImpl.ttlSeconds ttl)) :
    Agrees sha256 ring horizon map (updates ++ [(i, .put key value)])
      (Function.update info node
        (PeerImpl.serveSetData (info node) now key.bytes value ttl)) := by
  have hlast : (updates ++ [(i, ClientOp.put key value)])[updates.length]? =
      some (i, .put key value) := by simp
  have hnow : ∀ key', clientMap.stateAt map (updates ++ [(i, .put key value)])
      (updates ++ [(i, ClientOp.put key value)]).length key' =
        if key' = key then some value else clientMap.stateAt map updates updates.length key' := by
    intro key'
    rw [List.length_append, List.length_singleton, clientMap_put hlast,
      SeqObject.stateAt_append_of_le (Nat.le_refl _)]
  have hother : ∀ {key' : IdType} (m : N), key' ≠ key →
      (Function.update info node (PeerImpl.serveSetData (info node) now key.bytes value ttl)
        m).data.lookup key'.bytes = (info m).data.lookup key'.bytes := by
    intro key' m hne
    rw [lookup_serveSetData, if_neg]
    rintro ⟨-, hbytes⟩
    exact hne (ByteArr.bytes_injective hbytes)
  refine ⟨?_, ?_, ?_⟩
  · intro key' v s hv hs
    rw [hnow] at hv
    by_cases hkey : key' = key
    · subst hkey
      rw [if_pos rfl] at hv
      obtain rfl := Option.some.inj hv
      obtain rfl := hs.unique getId_injective hown
      exact ⟨_, by rw [lookup_serveSetData, if_pos ⟨rfl, rfl⟩], hdate⟩
    · rw [if_neg hkey] at hv
      rw [hother s hkey]
      exact h.held key' v s hv hs
  · intro key' s hnone hs
    rw [hnow] at hnone
    split_ifs at hnone with hkey
    rw [hother s hkey]
    exact h.absent key' s hnone hs
  · intro key' m v e hm p hp hnone
    have hold : (info m).data.lookup (replicaKey key' 1) = some (v, e) := by
      rwa [lookup_serveSetData, if_neg fun hk => replicaKey_ne_bytes _ _ _ hk.2] at hm
    have hle : p ≤ updates.length := by
      by_contra hgt
      -- Otherwise the key has no value before either, and then there is no replica.
      have hp' : p = updates.length + 1 := by simp at hp; omega
      have hnone' : clientMap.stateAt map updates updates.length key' = none := by
        by_contra hne
        refine clientMap_stays (p := updates.length) (q := p) (by omega) ?_ hnone
        rwa [SeqObject.stateAt_append_of_le (Nat.le_refl _)]
      obtain ⟨q, hq, hlt, -⟩ := h.replicas key' m v e hold _ (Nat.le_refl _) hnone'
      omega
    rw [SeqObject.stateAt_append_of_le hle] at hnone
    obtain ⟨q, hq, hlt, hvalue⟩ := h.replicas key' m v e hold p hle hnone
    refine ⟨q, by simp; omega, hlt, ?_⟩
    rwa [SeqObject.stateAt_append_of_le hq]

/-- A replica of a put that has taken effect is stored. -/
lemma Agrees.replica (h : Agrees sha256 ring horizon map updates info) {q i : ℕ} {key : IdType}
    {value : Bytes} (hq : updates[q]? = some (i, .put key value)) (j : ℕ) (node : N)
    (now : TimePoint) (ttl : UInt16) :
    Agrees sha256 ring horizon map updates
      (Function.update info node
        (PeerImpl.serveSetData (info node) now (replicaKey key j) value ttl)) := by
  have hother : ∀ (key' : IdType) (m : N),
      (Function.update info node (PeerImpl.serveSetData (info node) now (replicaKey key j) value ttl)
        m).data.lookup key'.bytes = (info m).data.lookup key'.bytes := by
    intro key' m
    rw [lookup_serveSetData, if_neg]
    rintro ⟨-, hbytes⟩
    exact replicaKey_ne_bytes _ _ _ hbytes.symm
  refine ⟨?_, ?_, ?_⟩
  · intro key' v s hv hs
    rw [hother]
    exact h.held key' v s hv hs
  · intro key' s hnone hs
    rw [hother]
    exact h.absent key' s hnone hs
  · intro key' m v e hm p hp hnone
    rw [lookup_serveSetData] at hm
    split_ifs at hm with hnew
    · obtain rfl := replicaKey_inj hnew.2
      obtain rfl : value = v := (Prod.mk.inj (Option.some.inj hm)).1
      have hput : clientMap.stateAt map updates (q + 1) key' = some value := by
        rw [clientMap_put hq, if_pos rfl]
      refine ⟨q + 1, (List.getElem?_eq_some_iff.mp hq).1, ?_, hput⟩
      by_contra hle
      refine clientMap_stays (p := q + 1) (q := p) (by omega) ?_ hnone
      rw [hput]
      exact Option.some_ne_none value
    · exact h.replicas key' m v e hm p hp hnone

end Stores

/-! ## The handlers -/

section Handlers

variable (events : List (Observed ClientOp Answer × ℕ)) (updates : List (ℕ × ClientOp))
  (queries : List (Placed ClientOp Answer))

/-- The request has been made and has not taken effect. -/
def Awaits (i : ℕ) (op : ClientOp) : Prop :=
  (∃ c, (.call i op, c) ∈ events) ∧ i ∉ updates.map Prod.fst ++ queries.map Placed.id

/-- The response was right at some moment since the request was made. -/
def WasRight (map : IdType → Option Bytes) (i : ℕ) (key : IdType) (response : Option Bytes) : Prop :=
  ∃ c p, (.call i (.get key), c) ∈ events ∧ c ≤ p ∧ p ≤ updates.length ∧
    clientMap.stateAt map updates p key = response

variable [Endpoint N] (sha256 : Bytes → IdType) (ring : Finset N)

/-- What is known about the handler of a `DHT_PUT`. -/
def PutThread.Inv (i : ℕ) (thread : PutThread N) : Prop :=
  thread.self ∈ ring ∧
    match thread.point with
    | .entry => Awaits events updates queries i (.put thread.key thread.value)
    | .lookup stage => Awaits events updates queries i (.put thread.key thread.value) ∧
        stage.Sound ring (sha256 thread.key.bytes)
    | .store node => Awaits events updates queries i (.put thread.key thread.value) ∧
        Arc.Owns getId ring (sha256 thread.key.bytes) node
    | .replicaLookup j _ stage => (i, .put thread.key thread.value) ∈ updates ∧
        stage.Sound ring (sha256 (replicaKey thread.key (j + 1)))
    | .replicaStore _ _ node => (i, .put thread.key thread.value) ∈ updates ∧ node ∈ ring
    | .replica _ _ | .finished => (i, .put thread.key thread.value) ∈ updates

/-- What is known about the handler of a `DHT_GET`.  It asks for no replica but the first one. -/
def GetThread.Inv (map : IdType → Option Bytes) (i : ℕ) (thread : GetThread N) : Prop :=
  thread.self ∈ ring ∧ (thread.point ≠ .returned → Awaits events updates queries i (.get thread.key)) ∧
    match thread.point with
    | .lookup stage => stage.Sound ring (sha256 thread.key.bytes)
    | .ask node => Arc.Owns getId ring (sha256 thread.key.bytes) node
    | .test response | .reply response => WasRight events updates map i thread.key response
    | .loop j | .replicaAsk j _ => WasRight events updates map i thread.key none ∧ j = 1
    | .replicaLookup j stage => WasRight events updates map i thread.key none ∧ j = 1 ∧
        stage.Sound ring (sha256 (replicaKey thread.key 1))
    | .returned => True

def ClientThread.Inv (map : IdType → Option Bytes) (i : ℕ) : ClientThread N → Prop
  | .put thread => thread.Inv events updates queries sha256 ring i
  | .get thread => thread.Inv events updates queries sha256 ring map i

/-- What the events of one handler, number `i`, leave alone. -/
structure Grows (i : ℕ) (events' : List (Observed ClientOp Answer × ℕ))
    (updates' : List (ℕ × ClientOp)) (queries' : List (Placed ClientOp Answer)) : Prop where
  seen : events ⊆ events'
  later : updates <+: updates'
  others : ∀ j ≠ i, j ∉ updates.map Prod.fst ++ queries.map Placed.id →
    j ∉ updates'.map Prod.fst ++ queries'.map Placed.id

end Handlers

section Growth

variable {events events' : List (Observed ClientOp Answer × ℕ)} {updates updates' : List (ℕ × ClientOp)}
  {queries queries' : List (Placed ClientOp Answer)} {map : IdType → Option Bytes} {i j : ℕ}

lemma Grows.awaits (h : Grows events updates queries i events' updates' queries') (hj : j ≠ i)
    {op : ClientOp} (hawaits : Awaits events updates queries j op) :
    Awaits events' updates' queries' j op := by
  obtain ⟨⟨c, hc⟩, hnew⟩ := hawaits
  exact ⟨⟨c, h.seen hc⟩, h.others j hj hnew⟩

lemma Grows.wasRight (h : Grows events updates queries i events' updates' queries') {key : IdType}
    {response : Option Bytes} (hright : WasRight events updates map j key response) :
    WasRight events' updates' map j key response := by
  obtain ⟨c, p, hc, hcp, hp, hvalue⟩ := hright
  obtain ⟨more, rfl⟩ := h.later
  refine ⟨c, p, h.seen hc, hcp, hp.trans (by simp), ?_⟩
  rwa [SeqObject.stateAt_append_of_le hp]

variable [Endpoint N] {sha256 : Bytes → IdType} {ring : Finset N}

/-- What is known about a handler stays true while another one goes on. -/
lemma Grows.inv (h : Grows events updates queries i events' updates' queries') (hj : j ≠ i)
    {thread : ClientThread N} (hinv : thread.Inv events updates queries sha256 ring map j) :
    thread.Inv events' updates' queries' sha256 ring map j := by
  have hmem : ∀ {x}, x ∈ updates → x ∈ updates' := fun hx => h.later.subset hx
  cases thread with
  | put thread =>
    obtain ⟨hself, hpoint⟩ := hinv
    refine ⟨hself, ?_⟩
    cases hp : thread.point <;> rw [hp] at hpoint
    case entry => exact h.awaits hj hpoint
    case lookup => exact ⟨h.awaits hj hpoint.1, hpoint.2⟩
    case store => exact ⟨h.awaits hj hpoint.1, hpoint.2⟩
    case replica => exact hmem hpoint
    case replicaLookup => exact ⟨hmem hpoint.1, hpoint.2⟩
    case replicaStore => exact ⟨hmem hpoint.1, hpoint.2⟩
    case finished => exact hmem hpoint
  | get thread =>
    obtain ⟨hself, hawaits, hpoint⟩ := hinv
    refine ⟨hself, fun hret => h.awaits hj (hawaits hret), ?_⟩
    cases hp : thread.point <;> rw [hp] at hpoint
    case lookup => exact hpoint
    case ask => exact hpoint
    case test => exact h.wasRight hpoint
    case loop => exact ⟨h.wasRight hpoint.1, hpoint.2⟩
    case replicaLookup => exact ⟨h.wasRight hpoint.1, hpoint.2⟩
    case replicaAsk => exact ⟨h.wasRight hpoint.1, hpoint.2⟩
    case reply => exact h.wasRight hpoint
    case returned => trivial

end Growth

section Threads

variable [Endpoint N] [DecidableEq N] {events : List (Observed ClientOp Answer × ℕ)}
  {updates : List (ℕ × ClientOp)} {queries : List (Placed ClientOp Answer)}
  {map : IdType → Option Bytes} {i : ℕ} {sha256 : Bytes → IdType} {replicationLimit : UInt8}
  {ring : Finset N} {net : Network N}

/-- A lookup on an ideal ring goes on, or it has found the responsible node. -/
lemma Stage.Sound.cases (hideal : IsIdeal net ring) {id : IdType} {stage : Stage N}
    (hsound : stage.Sound ring id) :
    (∃ node, stage = .done (some node) ∧ Arc.Owns getId ring id node) ∨
      (∀ result, stage ≠ .done result) ∧ (stage.next net.info net.method id).Sound ring id := by
  cases stage with
  | done result =>
    obtain ⟨node, rfl, hown⟩ := hsound
    exact Or.inl ⟨node, rfl, hown⟩
  | start | ping | ask | check => exact Or.inr ⟨by simp, Stage.Sound.next hideal hsound⟩

namespace PutThread

variable {thread : PutThread N}

omit [DecidableEq N] in
/-- After the store, the put has taken effect. -/
lemma inv_afterStore (hself : thread.self ∈ ring) (hmem : (i, .put thread.key thread.value) ∈ updates)
    (successor : Option N) :
    Inv events updates queries sha256 ring i
      { thread with point := thread.afterStore successor } := by
  refine ⟨hself, ?_⟩
  unfold afterStore
  split_ifs
  · exact hmem
  · exact hmem

/-- A step of a put handler that stores nothing. -/
lemma Inv.next (hideal : IsIdeal net ring) (hinv : Inv events updates queries sha256 ring i thread)
    (hwrite : thread.write = none) :
    Inv events updates queries sha256 ring i { thread with
      point := thread.next sha256 replicationLimit net.method net.info } := by
  obtain ⟨hself, hpoint⟩ := hinv
  refine ⟨hself, ?_⟩
  dsimp only
  cases hp : thread.point with
  | entry =>
    rw [hp] at hpoint
    simp only [PutThread.next, hp]
    exact ⟨hpoint, hself⟩
  | lookup stage =>
    rw [hp] at hpoint
    obtain ⟨hawaits, hsound⟩ := hpoint
    rcases hsound.cases hideal with ⟨node, rfl, hown⟩ | ⟨hstage, hnext⟩
    · simp only [PutThread.next, hp]
      exact ⟨hawaits, hown⟩
    · rw [next_lookup hp hstage]
      exact ⟨hawaits, hnext⟩
  | store node => simp [write, hp] at hwrite
  | replica j stored =>
    rw [hp] at hpoint
    simp only [PutThread.next, hp]
    split_ifs
    · exact ⟨hpoint, hself⟩
    · exact hpoint
  | replicaLookup j stored stage =>
    rw [hp] at hpoint
    obtain ⟨hmem, hsound⟩ := hpoint
    rcases hsound.cases hideal with ⟨node, rfl, hown⟩ | ⟨hstage, hnext⟩
    · simp only [PutThread.next, hp]
      cases Network.addCopy replicationLimit (stored (getId node)) with
      | none => exact hmem
      | some copies => exact ⟨hmem, hown.mem⟩
    · rw [next_replicaLookup hp hstage]
      exact ⟨hmem, hnext⟩
  | replicaStore j stored node => simp [write, hp] at hwrite
  | finished =>
    rw [hp] at hpoint
    simp only [PutThread.next, hp]
    exact hpoint

end PutThread

namespace GetThread

variable {thread : GetThread N} {horizon : TimePoint} {average : UInt8}

omit [DecidableEq N] in
/-- A first replica was put after the moment at which the item was missing. -/
lemma wasRight_replica (hagrees : Agrees sha256 ring horizon map updates net.info) {key : IdType}
    (hnone : WasRight events updates map i key none) (node : N) :
    WasRight events updates map i key ((net.info node).getData (replicaKey key 1)) := by
  cases hdata : (net.info node).data.lookup (replicaKey key 1) with
  | none => rwa [NodeInformation.getData, hdata, Option.map_none]
  | some item =>
    obtain ⟨v, e⟩ := item
    obtain ⟨c, p, hc, hcp, hp, hvalue⟩ := hnone
    obtain ⟨q, hq, hpq, hput⟩ := hagrees.replicas key node v e hdata p hp hvalue
    rw [NodeInformation.getData, hdata, Option.map_some]
    exact ⟨c, q, hc, by omega, hq, hput⟩

/-- A step of a get handler. -/
lemma Inv.next (hideal : IsIdeal net ring) (hagrees : Agrees sha256 ring horizon map updates net.info)
    (hbounded : ∀ x ∈ events, x.2 ≤ updates.length)
    (hinv : Inv events updates queries sha256 ring map i thread) :
    Inv events updates queries sha256 ring map i { thread with
      point := thread.next sha256 net.method net.info average } := by
  obtain ⟨hself, hawaits, hpoint⟩ := hinv
  by_cases hreturned : thread.point = .returned
  · have hnext : thread.next sha256 net.method net.info average = .returned := by
      simp only [GetThread.next, hreturned]
    rw [hnext]
    exact ⟨hself, fun h => absurd rfl h, trivial⟩
  refine ⟨hself, fun _ => hawaits hreturned, ?_⟩
  dsimp only
  cases hp : thread.point with
  | lookup stage =>
    rw [hp] at hpoint
    rcases Stage.Sound.cases hideal hpoint with ⟨node, rfl, hown⟩ | ⟨hstage, hnext⟩
    · simp only [GetThread.next, hp]
      exact hown
    · rw [next_lookup hp hstage]
      exact hnext
  | ask node =>
    rw [hp] at hpoint
    simp only [GetThread.next, hp]
    obtain ⟨c, hc⟩ := (hawaits hreturned).1
    exact ⟨c, _, hc, hbounded _ hc, le_rfl, (hagrees.getData hpoint).symm⟩
  | test response =>
    rw [hp] at hpoint
    simp only [GetThread.next, hp]
    split_ifs with htest
    · obtain ⟨rfl, -⟩ := htest
      exact ⟨hpoint, rfl⟩
    · exact hpoint
  | loop j =>
    rw [hp] at hpoint
    obtain ⟨hnone, rfl⟩ := hpoint
    simp only [GetThread.next, hp]
    split_ifs
    · exact ⟨hnone, rfl, hself⟩
    · exact hnone
  | replicaLookup j stage =>
    rw [hp] at hpoint
    obtain ⟨hnone, rfl, hsound⟩ := hpoint
    rcases hsound.cases hideal with ⟨node, rfl, hown⟩ | ⟨hstage, hnext⟩
    · simp only [GetThread.next, hp]
      exact ⟨hnone, trivial⟩
    · rw [next_replicaLookup hp hstage]
      exact ⟨hnone, rfl, hnext⟩
  | replicaAsk j node =>
    rw [hp] at hpoint
    obtain ⟨hnone, rfl⟩ := hpoint
    simp only [GetThread.next, hp]
    exact wasRight_replica hagrees hnone node
  | reply response =>
    rw [hp] at hpoint
    simp only [GetThread.next, hp]
    exact hpoint
  | returned => exact absurd hp hreturned

end GetThread

end Threads

/-! ## Runs -/

namespace Serving

variable {P : Type*} [Endpoint N] [DecidableEq N] [DecidableEq P]

/-- The condition on the events: no node joins or leaves, requests are made to nodes of the ring, and
no item expires before `horizon`, which no data cleaner passes. -/
def Orderly (ring : Finset N) (horizon : TimePoint) : ServingEvent N → Serving N P → Prop
  | .node a, _ => a.IsMaintenance
  | .clean m now, _ => m ∈ ring ∧ ∀ i, now i ≤ horizon
  | .call self _, _ => self ∈ ring
  | .run i now, st => ∀ thread, st.threads[i]? = some (.put thread) → thread.write ≠ none →
      horizon ≤ NodeInformation.expiresAt now (PeerImpl.ttlSeconds thread.ttl)
  | .assign _, _ | .reply _, _ => True

/-- What is known along a run, with the updates and queries that have taken effect. -/
structure Tracks (sha256 : Bytes → IdType) (method : N → GetSuccessorMethod) (ring : Finset N)
    (horizon : TimePoint) (map : IdType → Option Bytes) (st : Serving N P)
    (events : List (Observed ClientOp Answer × ℕ)) (updates : List (ℕ × ClientOp))
    (queries : List (Placed ClientOp Answer)) : Prop where
  settled : System.Settled method ring st.sys
  agrees : Agrees sha256 ring horizon map updates st.sys.info
  timeline : Timeline clientMap map events updates queries
  history : events.map Prod.fst = st.history
  called : ∀ i op c, (.call i op, c) ∈ events → i < st.threads.length
  threads : ∀ (i : ℕ) (thread : ClientThread N), st.threads[i]? = some thread →
    thread.Inv events updates queries sha256 ring map i

variable {sha256 : Bytes → IdType} {replicationLimit : UInt8} {process : N → P}
  {method : N → GetSuccessorMethod} {b : N} {ring : Finset N} {horizon : TimePoint}
  {map : IdType → Option Bytes} {st st' : Serving N P}
  {events events' : List (Observed ClientOp Answer × ℕ)} {updates updates' : List (ℕ × ClientOp)}
  {queries queries' : List (Placed ClientOp Answer)} {i : ℕ}

omit [DecidableEq N] [DecidableEq P] in
/-- Requests of which no handler is known have not taken effect. -/
lemma Tracks.fresh (h : Tracks sha256 method ring horizon map st events updates queries) :
    st.threads.length ∉ updates.map Prod.fst ++ queries.map Placed.id := by
  intro hmem
  rcases List.mem_append.mp hmem with hmem | hmem
  · obtain ⟨⟨j, op⟩, hu, hj⟩ := List.mem_map.mp hmem
    obtain ⟨q, hq⟩ := List.mem_iff_getElem?.mp hu
    obtain ⟨c, -, hc⟩ := h.timeline.update_called q j op hq
    have hlt := h.called j op c hc
    dsimp only at hj
    omega
  · obtain ⟨x, hx, hid⟩ := List.mem_map.mp hmem
    obtain ⟨c, -, hc⟩ := h.timeline.query_called x hx
    have hlt := h.called _ _ c hc
    omega

omit [Endpoint N] [DecidableEq N] in
lemma getElem?_set_cases {threads : List (ClientThread N)} {thread thread' : ClientThread N} {j : ℕ}
    (h : (threads.set i thread)[j]? = some thread') :
    j = i ∧ thread' = thread ∨ j ≠ i ∧ threads[j]? = some thread' := by
  rw [List.getElem?_set] at h
  split_ifs at h with hij hlt
  · exact Or.inl ⟨hij.symm, (Option.some.inj h).symm⟩
  · exact Or.inr ⟨Ne.symm hij, h⟩

omit [DecidableEq N] [DecidableEq P] in
/-- A step of the handler `i`: its own state has to be checked, and what the step changes for all. -/
lemma Tracks.set (h : Tracks sha256 method ring horizon map st events updates queries)
    (hgrows : Grows events updates queries i events' updates' queries') {thread : ClientThread N}
    (hinv : thread.Inv events' updates' queries' sha256 ring map i)
    (hthreads : st'.threads = st.threads.set i thread)
    (hsettled : System.Settled method ring st'.sys)
    (hagrees : Agrees sha256 ring horizon map updates' st'.sys.info)
    (htimeline : Timeline clientMap map events' updates' queries')
    (hhistory : events'.map Prod.fst = st'.history)
    (hcalled : ∀ j op c, (.call j op, c) ∈ events' → (.call j op, c) ∈ events) :
    Tracks sha256 method ring horizon map st' events' updates' queries' where
  settled := hsettled
  agrees := hagrees
  timeline := htimeline
  history := hhistory
  called := by
    intro j op c hc
    rw [hthreads, List.length_set]
    exact h.called j op c (hcalled j op c hc)
  threads := by
    intro j thread' hj
    rw [hthreads] at hj
    rcases getElem?_set_cases hj with ⟨rfl, rfl⟩ | ⟨hne, hold⟩
    · exact hinv
    · exact hgrows.inv hne (h.threads j thread' hold)

lemma Grows.refl (events : List (Observed ClientOp Answer × ℕ)) (updates : List (ℕ × ClientOp))
    (queries : List (Placed ClientOp Answer)) (i : ℕ) :
    Grows events updates queries i events updates queries :=
  ⟨List.Subset.refl _, List.prefix_refl _, fun _ _ h => h⟩

omit [DecidableEq P] in
/-- Requests and data cleaners change nothing but the stores of the ring nodes. -/
lemma settled_setInfo {sys : System N} (h : System.Settled method ring sys) {node : N}
    (hnode : node ∈ ring) {info : NodeInformation N}
    (hfinger : info.fingerTable = (sys.info node).fingerTable)
    (hpred : info.predecessor = (sys.info node).predecessor) :
    System.Settled method ring (sys.setInfo node info) := by
  refine h.withInfo ?_ ?_ ?_
  · intro m
    by_cases hm : m = node
    · subst hm
      rwa [Function.update_self]
    · rw [Function.update_of_ne hm]
  · intro m
    by_cases hm : m = node
    · subst hm
      rwa [Function.update_self]
    · rw [Function.update_of_ne hm]
  · intro m hm
    have hne : m ≠ node := by
      rintro rfl
      exact hm hnode
    rw [Function.update_of_ne hne]

omit [DecidableEq N] [DecidableEq P] in
/-- A request is made. -/
lemma Tracks.call (h : Tracks sha256 method ring horizon map st events updates queries) {self : N}
    (hself : self ∈ ring) (request : ClientRequest) :
    ∃ events', Tracks sha256 method ring horizon map (st.call self request) events' updates
      queries := by
  have hfresh : ∀ op c, (.call st.threads.length op, c) ∉ events :=
    fun op c hc => Nat.lt_irrefl _ (h.called _ op c hc)
  have hadd : ∀ {thread : ClientThread N} {op : ClientOp} {st' : Serving N P},
      st'.sys = st.sys → st'.threads = st.threads ++ [thread] →
      st'.history = st.history ++ [.call st.threads.length op] →
      (∀ events', Awaits events' updates queries st.threads.length op →
        thread.Inv events' updates queries sha256 ring map st.threads.length) →
      Tracks sha256 method ring horizon map st' (events ++ [(.call st.threads.length op,
        updates.length)]) updates queries := by
    intro thread op st' hsys hthreads hhistory hinv
    refine ⟨hsys ▸ h.settled, hsys ▸ h.agrees, h.timeline.call op hfresh, ?_, ?_, ?_⟩
    · rw [List.map_append, h.history, hhistory]
      rfl
    · intro j op' c hc
      rw [hthreads, List.length_append, List.length_singleton]
      rcases List.mem_append.mp hc with hc | hc
      · exact Nat.lt_succ_of_lt (h.called j op' c hc)
      · obtain ⟨⟨rfl, -⟩, -⟩ : (j = st.threads.length ∧ op' = op) ∧ c = updates.length := by
          simpa using hc
        exact Nat.lt_succ_self _
    · intro j thread' hj
      rw [hthreads] at hj
      have hgrows : Grows events updates queries st.threads.length (events ++
          [(.call st.threads.length op, updates.length)]) updates queries :=
        ⟨List.subset_append_left _ _, List.prefix_refl _, fun _ _ hnot => hnot⟩
      rcases Nat.lt_or_ge j st.threads.length with hlt | hge
      · rw [List.getElem?_append_left hlt] at hj
        exact hgrows.inv (Nat.ne_of_lt hlt) (h.threads j thread' hj)
      · rw [List.getElem?_append_right hge] at hj
        obtain ⟨hlt, heq⟩ := List.getElem?_eq_some_iff.mp hj
        rw [List.length_singleton] at hlt
        obtain rfl : j = st.threads.length := by omega
        rw [List.getElem_singleton] at heq
        exact heq ▸ hinv _ ⟨⟨updates.length, by simp⟩, h.fresh⟩
  cases request with
  | put key value ttl replication =>
    exact ⟨_, hadd rfl rfl rfl fun _ hawaits => ⟨hself, hawaits⟩⟩
  | get key => exact ⟨_, hadd rfl rfl rfl fun _ hawaits => ⟨hself, fun _ => hawaits, hself⟩⟩

omit [Endpoint N] [DecidableEq N] [DecidableEq P] in
/-- A put handler stores the item or a replica. -/
lemma write_cases {thread : PutThread N} {node : N} {key : Bytes}
    (h : thread.write = some (node, key)) :
    thread.point = .store node ∧ key = thread.key.bytes ∨
      ∃ j stored, thread.point = .replicaStore j stored node ∧
        key = replicaKey thread.key (j + 1) := by
  unfold PutThread.write at h
  split at h
  next hpoint =>
    obtain ⟨rfl, rfl⟩ := Prod.mk.inj (Option.some.inj h)
    exact Or.inl ⟨hpoint, rfl⟩
  next hpoint =>
    obtain ⟨rfl, rfl⟩ := Prod.mk.inj (Option.some.inj h)
    exact Or.inr ⟨_, _, hpoint, rfl⟩
  next => cases h

omit [DecidableEq P] in
/-- A put handler takes a step. -/
lemma Tracks.runPut (h : Tracks sha256 method ring horizon map st events updates queries)
    {thread : PutThread N} (hthread : st.threads[i]? = some (.put thread)) {now : TimePoint}
    (hdate : thread.write ≠ none →
      horizon ≤ NodeInformation.expiresAt now (PeerImpl.ttlSeconds thread.ttl))
    (indices : P → List UInt8) :
    ∃ updates', Tracks sha256 method ring horizon map
      { st with
        sys := stored st.sys thread now
        indices := indices
        threads := st.threads.set i (.put { thread with
          point := thread.next sha256 replicationLimit method st.sys.info }) }
      events updates' queries := by
  have hinv : thread.Inv events updates queries sha256 ring i := h.threads i _ hthread
  cases hwrite : thread.write with
  | none =>
    have hsys : stored st.sys thread now = st.sys := by simp only [stored, hwrite]
    rw [hsys]
    refine ⟨updates, h.set (Grows.refl ..) ?_ rfl h.settled h.agrees h.timeline h.history
      fun _ _ _ hc => hc⟩
    exact PutThread.Inv.next h.settled.ideal hinv hwrite
  | some write =>
    obtain ⟨node, key⟩ := write
    have hsys : stored st.sys thread now = st.sys.setInfo node (PeerImpl.serveSetData
        (st.sys.info node) now key thread.value thread.ttl) := by simp only [stored, hwrite]
    rw [hsys]
    obtain ⟨hself, hpoint⟩ := hinv
    rcases write_cases hwrite with ⟨hp, rfl⟩ | ⟨j, copies, hp, rfl⟩
    · -- The put takes effect.
      rw [hp] at hpoint
      obtain ⟨⟨⟨c, hc⟩, hnew⟩, hown⟩ := hpoint
      have hnext : thread.next sha256 replicationLimit method st.sys.info =
          thread.afterStore (some node) := by simp only [PutThread.next, hp]
      rw [hnext]
      refine ⟨updates ++ [(i, .put thread.key thread.value)], h.set ?_ ?_ rfl
        (settled_setInfo h.settled hown.mem rfl rfl)
        (h.agrees.store hown (hdate (by rw [hwrite]; exact Option.some_ne_none _)))
        (h.timeline.update hc hnew) h.history fun _ _ _ hmem => hmem⟩
      · refine ⟨List.Subset.refl _, List.prefix_append _ _, ?_⟩
        intro k hk hnot
        simpa [hk] using hnot
      · exact PutThread.inv_afterStore hself (by simp) (some node)
    · rw [hp] at hpoint
      obtain ⟨hmem, hnode⟩ := hpoint
      obtain ⟨q, hq⟩ := List.mem_iff_getElem?.mp hmem
      have hnext : thread.next sha256 replicationLimit method st.sys.info =
          .replica (j + 1) copies := by simp only [PutThread.next, hp]
      rw [hnext]
      refine ⟨updates, h.set (Grows.refl ..) ?_ rfl (settled_setInfo h.settled hnode rfl rfl)
        (h.agrees.replica hq (j + 1) node now thread.ttl) h.timeline h.history
        fun _ _ _ hc => hc⟩
      exact ⟨hself, hmem⟩

/-- A handler takes a step. -/
lemma Tracks.run (h : Tracks sha256 method ring horizon map st events updates queries)
    {now : TimePoint} (horderly : Orderly ring horizon (.run i now) st)
    (hrun : st.run sha256 replicationLimit process method i now = some st') :
    ∃ updates', Tracks sha256 method ring horizon map st' events updates' queries := by
  unfold Serving.run at hrun
  cases hthread : st.threads[i]? with
  | none => simp [hthread] at hrun
  | some thread =>
    simp only [hthread] at hrun
    cases thread with
    | put thread =>
      obtain rfl := Option.some.inj hrun
      exact h.runPut hthread (horderly thread hthread) _
    | get thread =>
      obtain rfl := Option.some.inj hrun
      refine ⟨updates, h.set (Grows.refl ..) ?_ rfl h.settled h.agrees h.timeline h.history
        fun _ _ _ hc => hc⟩
      exact GetThread.Inv.next h.settled.ideal h.agrees
        h.timeline.bounded (h.threads i _ hthread)

omit [Endpoint N] [DecidableEq P] in
/-- A put handler assigns its replication loop. -/
lemma assign_cases (h : st.assign i = some st') :
    ∃ thread, st.threads[i]? = some (.put thread) ∧
      (thread.isStored = true ∧ 2 ≤ thread.replication ∧ thread.handler = .runs) ∧
      st' = { st with
        threads := st.threads.set i (.put { thread with
          handler := .assigned (st.replicationFuture thread.self) })
        replicationFuture := Function.update st.replicationFuture thread.self (some i) } := by
  unfold Serving.assign at h
  split at h
  next thread hthread =>
    split_ifs at h with hc
    exact ⟨thread, hthread, hc, (Option.some.inj h).symm⟩
  next => cases h

omit [Endpoint N] [DecidableEq N] [DecidableEq P] in
lemma reply_cases (h : st.reply i = some st') :
    (∃ thread, st.threads[i]? = some (.put thread) ∧ st.mayReturn thread = true ∧
      st' = { st with
        threads := st.threads.set i (.put { thread with handler := .returned })
        history := st.history ++ [.ret i .echo] }) ∨
    ∃ thread response, st.threads[i]? = some (.get thread) ∧ thread.point = .reply response ∧
      st' = { st with
        threads := st.threads.set i (.get { thread with point := .returned })
        history := st.history ++ [.ret i (.reply (.ofResponse thread.key.bytes response))] } := by
  unfold Serving.reply at h
  split at h
  next thread hthread =>
    split_ifs at h with hreturns
    exact Or.inl ⟨thread, hthread, hreturns, (Option.some.inj h).symm⟩
  next thread hthread =>
    split at h
    next response hpoint =>
      exact Or.inr ⟨thread, response, hthread, hpoint, (Option.some.inj h).symm⟩
    next => cases h
  next => cases h

omit [DecidableEq N] [DecidableEq P] in
/-- A handler that is past its store has taken effect. -/
lemma mem_of_isStored {thread : PutThread N} (hstored : thread.isStored = true)
    (hinv : thread.Inv events updates queries sha256 ring i) :
    (i, .put thread.key thread.value) ∈ updates := by
  obtain ⟨-, hpoint⟩ := hinv
  unfold PutThread.isStored at hstored
  cases hp : thread.point <;> rw [hp] at hpoint hstored
  case entry => cases hstored
  case lookup => cases hstored
  case store => cases hstored
  case replica => exact hpoint
  case replicaLookup => exact hpoint.1
  case replicaStore => exact hpoint.1
  case finished => exact hpoint

omit [Endpoint N] [DecidableEq N] [DecidableEq P] in
lemma isStored_of_mayReturn {thread : PutThread N} (h : st.mayReturn thread = true) :
    thread.isStored = true := by
  rw [mayReturn, Bool.and_eq_true] at h
  exact h.1

omit [DecidableEq P] in
/-- A put handler assigns its replication loop, which the clients do not see. -/
lemma Tracks.assign (h : Tracks sha256 method ring horizon map st events updates queries)
    (hassign : st.assign i = some st') :
    Tracks sha256 method ring horizon map st' events updates queries := by
  obtain ⟨thread, hthread, -, rfl⟩ := assign_cases hassign
  have hinv : thread.Inv events updates queries sha256 ring i := h.threads i _ hthread
  refine h.set (Grows.refl ..) ?_ rfl h.settled h.agrees h.timeline h.history fun _ _ _ hc => hc
  exact hinv

omit [DecidableEq N] [DecidableEq P] in
/-- A handler returns. -/
lemma Tracks.reply (h : Tracks sha256 method ring horizon map st events updates queries)
    (hreply : st.reply i = some st') :
    ∃ events' queries', Tracks sha256 method ring horizon map st' events' updates queries' := by
  rcases reply_cases hreply with ⟨thread, hthread, hreturns, rfl⟩ | ⟨thread, response, hthread, hp, rfl⟩
  · have hstored := isStored_of_mayReturn hreturns
    have hinv : thread.Inv events updates queries sha256 ring i := h.threads i _ hthread
    obtain ⟨q, hq⟩ := List.mem_iff_getElem?.mp (mem_of_isStored hstored hinv)
    have hgrows : ∀ k, Grows events updates queries k
        (events ++ [(.ret i .echo, updates.length)]) updates queries :=
      fun k => ⟨List.subset_append_left _ _, List.prefix_refl _, fun _ _ hnot => hnot⟩
    refine ⟨_, queries, h.set (hgrows i) ?_ rfl h.settled h.agrees (h.timeline.ret_update hq) ?_ ?_⟩
    · have hkept := (hgrows (i + 1)).inv (Nat.ne_of_lt (Nat.lt_succ_self i)) (h.threads i _ hthread)
      exact hkept
    · rw [List.map_append, h.history]
      rfl
    · intro j op c hc
      simpa using hc
  · have hinv : thread.Inv events updates queries sha256 ring map i := h.threads i _ hthread
    obtain ⟨hself, hawaits, hpoint⟩ := hinv
    rw [hp] at hpoint
    obtain ⟨c, p, hc, hcp, hpn, hvalue⟩ := hpoint
    have hnew := (hawaits (by rw [hp]; simp)).2
    refine ⟨_, _, h.set ?_ ?_ rfl h.settled h.agrees
      (h.timeline.ret_query hc hnew (clientMap_get_isQuery thread.key) hcp hpn rfl) ?_ ?_⟩
    · refine ⟨List.subset_append_left _ _, List.prefix_refl _, ?_⟩
      intro k hk hnot
      simpa [hk] using hnot
    · exact ⟨hself, fun hne => absurd rfl hne, trivial⟩
    · rw [List.map_append, h.history, ← hvalue]
      rfl
    · intro j op c hc
      simpa using hc

/-- Every orderly step can be tracked. -/
lemma Tracks.step (h : Tracks sha256 method ring horizon map st events updates queries)
    (hb : b ∈ ring) {e : ServingEvent N} (horderly : Orderly ring horizon e st)
    (hstep : step sha256 replicationLimit process method b e st = some st') :
    ∃ events' updates' queries',
      Tracks sha256 method ring horizon map st' events' updates' queries' := by
  cases e with
  | node a =>
    obtain ⟨sys, hsys, rfl⟩ := Option.map_eq_some_iff.mp hstep
    have hdata := System.data_step (fun t ht => by subst ht; exact horderly)
      (fun t ht => by subst ht; exact horderly) hsys
    exact ⟨events, updates, queries, h.settled.maintain hb horderly hsys, h.agrees.congr hdata,
      h.timeline, h.history, h.called, h.threads⟩
  | clean m now =>
    obtain ⟨hm, hnow⟩ := horderly
    obtain rfl := Option.some.inj hstep
    exact ⟨events, updates, queries, settled_setInfo h.settled hm rfl rfl, h.agrees.clean m hnow,
      h.timeline, h.history, h.called, h.threads⟩
  | call self request =>
    obtain rfl := Option.some.inj hstep
    obtain ⟨events', h'⟩ := h.call horderly request
    exact ⟨events', updates, queries, h'⟩
  | run i now =>
    obtain ⟨updates', h'⟩ := h.run horderly hstep
    exact ⟨events, updates', queries, h'⟩
  | assign i => exact ⟨events, updates, queries, h.assign hstep⟩
  | reply i =>
    obtain ⟨events', queries', h'⟩ := h.reply hstep
    exact ⟨events', updates, queries', h'⟩

/-- **Concurrent requests are linearizable.**  On every settled ring, in every order of the steps of any
number of put and get handlers, of the maintenance of the nodes and of passes of their data cleaners: as
long as no item expires and no node joins, what the clients see is a history of a map. -/
theorem requests_linearizable {st₀ : Serving N P} {es : List (ServingEvent N)}
    (hsettled : System.Settled method ring st₀.sys) (hb : b ∈ ring)
    (hagrees : Agrees sha256 ring horizon map [] st₀.sys.info) (hthreads : st₀.threads = [])
    (hhistory : st₀.history = [])
    (hexec : exec (step sha256 replicationLimit process method b) es st₀ = some st)
    (hmeets : Meets (step sha256 replicationLimit process method b) (Orderly ring horizon) es st₀) :
    clientMap.Linearizable map st.history := by
  have hinit : Tracks sha256 method ring horizon map st₀ [] [] [] := by
    refine ⟨hsettled, hagrees, Timeline.nil _ _, hhistory.symm, by simp, ?_⟩
    intro i thread hthread
    rw [hthreads] at hthread
    cases hthread
  obtain ⟨events, updates, queries, h⟩ : ∃ events updates queries,
      Tracks sha256 method ring horizon map st events updates queries := by
    refine exec_invariant_of_meets (I := fun st => ∃ events updates queries,
      Tracks sha256 method ring horizon map st events updates queries) ?_ hmeets ⟨_, _, _, hinit⟩ hexec
    rintro e s s' ⟨events, updates, queries, h⟩ horderly hstep
    exact h.step hb horderly hstep
  exact h.history ▸ h.timeline.linearizable

/-- The ring of the ids `40…` and `80…`, in one process and with empty stores. -/
def pairServing : Serving IdType Unit where
  sys := System.pair (idOf 0x40) (idOf 0x80) fun _ => ∅
  indices := fun _ => []
  threads := []
  replicationFuture := fun _ => none
  history := []

/-- The key `07…` is put at `40…` and read at `80…` at the same time.  The get finds no item; then the
put stores the item and a replica, and the get finds the replica. -/
def racingRun : List (ServingEvent IdType) :=
  [.call (idOf 0x40) (.put (idOf 7) [1] 0 3), .call (idOf 0x80) (.get (idOf 7)), .run 0 0] ++
    List.replicate 3 (.run 1 0) ++ List.replicate 9 (.run 0 0) ++
    [.clean (idOf 0x80) fun _ => 0] ++ List.replicate 5 (.run 1 0) ++ [.reply 1, .assign 0, .reply 0]

/-- An item stored at the time `0` does not expire before. -/
lemma zero_le_expiresAt (ttl : UInt16) :
    0 ≤ NodeInformation.expiresAt 0 (PeerImpl.ttlSeconds ttl) := by
  rw [expiresAt_ttlSeconds, putExpiry]
  split_ifs
  · exact Int64.le_maxValue 0
  · have hlt := ttl.toNat_lt
    rw [storedExpiry, Option.getD_some, Int64.zero_add, Int64.le_iff_toInt_le, Int64.toInt_mul,
      Int64.toInt_ofNat_of_lt (by omega)]
    change (0 : ℤ) ≤ ((ttl.toNat : ℤ) * 1000000000).bmod (2 ^ 64)
    rw [Int.bmod_eq_of_le (by omega) (by omega)]
    omega

/-- The history of this run is linearizable, with the get after the put. -/
theorem requests_linearizable_racing : ∃ st,
    exec (step (fun _ => idOf 0x60) 2 (fun _ => ()) (fun _ => .localHops) (idOf 0x40)) racingRun
      pairServing = some st ∧
    st.history = [.call 0 (.put (idOf 7) [1]), .call 1 (.get (idOf 7)),
      .ret 1 (.reply (.dhtSuccess (idOf 7).bytes [1])), .ret 0 .echo] ∧
    clientMap.Linearizable (fun _ => none) st.history := by
  obtain ⟨st, hexec, hhistory⟩ := exists_exec_of_decide
    (p := fun st : Serving IdType Unit => st.history = [.call 0 (.put (idOf 7) [1]),
      .call 1 (.get (idOf 7)), .ret 1 (.reply (.dhtSuccess (idOf 7).bytes [1])), .ret 0 .echo])
    (show (exec (step (fun _ => idOf 0x60) 2 (fun _ => ()) (fun _ => .localHops) (idOf 0x40))
      racingRun pairServing).map _ = some true by decide +kernel)
  have hempty : ∀ m, (pairServing.sys.info m).data = ∅ := by
    intro m
    simp only [pairServing, System.pair]
    split_ifs
    · rfl
    · rfl
  have hagrees : Agrees (fun _ => idOf 0x60) {idOf 0x40, idOf 0x80} 0 (fun _ => none) []
      pairServing.sys.info := by
    refine ⟨fun _ _ _ h => absurd h.symm (Option.some_ne_none _), ?_, ?_⟩
    · intro key s _ _
      rw [hempty]
      rfl
    · intro key m v e h
      rw [hempty] at h
      cases h
  have hmeets : Meets (step (fun _ => idOf 0x60) 2 (fun _ => ()) (fun _ => .localHops) (idOf 0x40))
      (Orderly {idOf 0x40, idOf 0x80} 0) racingRun pairServing := by
    refine meets_of_forall fun e he t => ?_
    have hrun : ∀ i, Orderly {idOf 0x40, idOf 0x80} 0 (.run i 0) t :=
      fun _ thread _ _ => zero_le_expiresAt thread.ttl
    simp only [racingRun, List.mem_append, List.mem_cons, List.mem_replicate, List.not_mem_nil,
      or_false] at he
    rcases he with (((((rfl | rfl | rfl) | ⟨-, rfl⟩) | ⟨-, rfl⟩) | rfl) | ⟨-, rfl⟩) | rfl | rfl | rfl
    · exact show idOf 0x40 ∈ ({idOf 0x40, idOf 0x80} : Finset IdType) by decide
    · exact show idOf 0x80 ∈ ({idOf 0x40, idOf 0x80} : Finset IdType) by decide
    · exact hrun 0
    · exact hrun 1
    · exact hrun 0
    · exact ⟨by decide, fun _ => Int64.le_refl 0⟩
    · exact hrun 1
    · trivial
    · trivial
    · trivial
  exact ⟨st, hexec, hhistory, requests_linearizable (System.settled_pair (by decide) _ _) (by decide)
    hagrees rfl rfl hexec hmeets⟩

end Serving

end ChordPlusPlus
