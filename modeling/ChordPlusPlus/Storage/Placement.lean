import ChordPlusPlus.Dht.Handlers
import Mathlib.Data.List.Count

/-!
# Where the copies of an item go

A put handler sends the item to the node responsible for the hash of its key, and then, in a loop, the
replicas to the nodes responsible for the hashes of the replica keys.  It counts the copies on each
node in eight bits, and a node that has as many as the limit permits gets no more.

The answers of the lookups are parameters here: each of them may be any node, or none.  `putCalls` are
the store requests that the handler sends; on a network they are what `Network.put` does
(`Network.exists_put_eq_foldl`).  The counters are the numbers of copies sent, so they do not wrap
around, and the limit is kept (`onDhtPut_placement`).
-/

namespace ChordPlusPlus

/-- A store request of a put handler: number `0` for the item itself, number `i` for the `i`-th
replica. -/
structure StoreCall (N : Type*) where
  index : ℕ
  node : N
  key : Bytes

/-- What the replication loop keeps: its counters, and the store requests sent so far. -/
structure Placement (N : Type*) where
  /-- `ReplicationOfEachDataItemOnEachNode`. -/
  stored : IdType → Option UInt8
  sent : List (StoreCall N)

section Put

variable {N : Type*} [Endpoint N] (sha256 : Bytes → IdType) (replicationLimit : UInt8)
  (lookup : ℕ → IdType → Option N) (storedKey : Bytes → Bytes) (key : Bytes)

/-- The key of the `i`-th copy, which is hashed to find its node. -/
def copyKey (i : ℕ) : Bytes := if i = 0 then key else key ++ [UInt8.ofNat i]

/-- The item itself. -/
def placePrimary : Placement N :=
  match lookup 0 (sha256 key) with
  | some node =>
      ⟨Function.update (fun _ => none) (getId node) (some 1), [⟨0, node, storedKey key⟩]⟩
  | none => ⟨fun _ => none, []⟩

/-- One round of the replication loop. -/
def placeReplica (i : ℕ) (p : Placement N) : Placement N :=
  let replicaKey := key ++ [UInt8.ofNat (i + 1)]
  match lookup (i + 1) (sha256 replicaKey) with
  | none => p
  | some node =>
      match Network.addCopy replicationLimit (p.stored (getId node)) with
      | none => p
      | some copies =>
          ⟨Function.update p.stored (getId node) (some copies),
            p.sent ++ [⟨i + 1, node, storedKey replicaKey⟩]⟩

/-- The replication loop, `rounds` rounds from the index `i` on. -/
def placeReplicas : ℕ → ℕ → Placement N → Placement N
  | 0, _, p => p
  | rounds + 1, i, p =>
      placeReplicas rounds (i + 1) (placeReplica sha256 replicationLimit lookup storedKey key i p)

/-- The loop after some rounds. -/
def placeAfter (rounds : ℕ) : Placement N :=
  placeReplicas sha256 replicationLimit lookup storedKey key rounds 0
    (placePrimary sha256 lookup storedKey key)

/-- The store requests of a put handler. -/
def putCalls (replication : UInt8) : List (StoreCall N) :=
  if 2 ≤ replication then
    (placeAfter sha256 replicationLimit lookup storedKey key (replication.toNat - 1)).sent
  else (placePrimary sha256 lookup storedKey key).sent

/-- The store requests of `Dht::onDhtPut`. -/
def onDhtPutCalls (replication : UInt8) : List (StoreCall N) :=
  putCalls sha256 replicationLimit lookup id key replication

/-- The store requests of `Dht::onDhtPutKeyIsHashOfData`; the key of the message is its value. -/
def onDhtPutKeyIsHashOfDataCalls (value : Bytes) (replication : UInt8) : List (StoreCall N) :=
  putCalls sha256 replicationLimit lookup (fun key => (sha256 key).bytes) value replication

/-- The number of copies sent to the node with the given id. -/
def copiesOn (id : IdType) (calls : List (StoreCall N)) : ℕ :=
  calls.countP fun call => getId call.node = id

/-- The bounds on the numbers of copies. -/
structure CopiesBounded (replication : UInt8) (calls : List (StoreCall N)) : Prop where
  on_each_node : ∀ id, copiesOn id calls ≤ max 1 replicationLimit.toNat
  in_all : calls.length ≤ max 1 replication.toNat

/-- A replica is skipped only if its lookup failed or its node has as many copies as the limit. -/
def SkipsOnlyFull (replication : UInt8) (calls : List (StoreCall N)) : Prop :=
  ∀ i, 1 ≤ i → i < replication.toNat → (∀ call ∈ calls, call.index ≠ i) →
    lookup i (sha256 (copyKey key i)) = none ∨
      ∃ node, lookup i (sha256 (copyKey key i)) = some node ∧
        replicationLimit.toNat ≤ copiesOn (getId node) (calls.filter (·.index < i))

end Put

/-! ## The loop -/

section Loop

variable {N : Type*} [Endpoint N] {sha256 : Bytes → IdType} {replicationLimit : UInt8}
  {lookup : ℕ → IdType → Option N} {storedKey : Bytes → Bytes} {key : Bytes}

/-- What one round can do: it skips the replica, or it sends and counts it. -/
lemma placeReplica_cases (i : ℕ) (p : Placement N) :
    (placeReplica sha256 replicationLimit lookup storedKey key i p = p ∧
      (lookup (i + 1) (sha256 (copyKey key (i + 1))) = none ∨
        ∃ node copies, lookup (i + 1) (sha256 (copyKey key (i + 1))) = some node ∧
          p.stored (getId node) = some copies ∧ replicationLimit ≤ copies)) ∨
    ∃ node copies, Network.addCopy replicationLimit (p.stored (getId node)) = some copies ∧
      placeReplica sha256 replicationLimit lookup storedKey key i p =
        ⟨Function.update p.stored (getId node) (some copies),
          p.sent ++ [⟨i + 1, node, storedKey (copyKey key (i + 1))⟩]⟩ := by
  have hkey : key ++ [UInt8.ofNat (i + 1)] = copyKey key (i + 1) := rfl
  unfold placeReplica
  dsimp only
  rw [hkey]
  rcases hnode : lookup (i + 1) (sha256 (copyKey key (i + 1))) with _ | node
  · exact Or.inl ⟨rfl, Or.inl rfl⟩
  rcases hcopy : Network.addCopy replicationLimit (p.stored (getId node)) with _ | copies
  · refine Or.inl ⟨by simp only [hcopy], Or.inr ⟨node, ?_⟩⟩
    rcases hstored : p.stored (getId node) with _ | copies
    · rw [hstored] at hcopy
      cases hcopy
    · rw [hstored, Network.addCopy] at hcopy
      split_ifs at hcopy with hlt
      exact ⟨copies, rfl, rfl, UInt8.not_lt.mp hlt⟩
  · exact Or.inr ⟨node, copies, hcopy, by simp only [hcopy]⟩

/-- A further round comes last. -/
lemma placeReplicas_succ (rounds i : ℕ) (p : Placement N) :
    placeReplicas sha256 replicationLimit lookup storedKey key (rounds + 1) i p =
      placeReplica sha256 replicationLimit lookup storedKey key (i + rounds)
        (placeReplicas sha256 replicationLimit lookup storedKey key rounds i p) := by
  induction rounds generalizing i p with
  | zero => rfl
  | succ rounds ih =>
    rw [placeReplicas, ih, placeReplicas]
    congr 1
    omega

lemma placeAfter_succ (rounds : ℕ) :
    placeAfter sha256 replicationLimit lookup storedKey key (rounds + 1) =
      placeReplica sha256 replicationLimit lookup storedKey key rounds
        (placeAfter sha256 replicationLimit lookup storedKey key rounds) := by
  rw [placeAfter, placeReplicas_succ, Nat.zero_add, placeAfter]

/-- The counter of a node, zero if there is none. -/
def Placement.counter (p : Placement N) (id : IdType) : ℕ := (p.stored id).elim 0 UInt8.toNat

/-- The loop after some rounds: the counters are the numbers of copies sent, within the limit, and the
requests go up to the last index, each under the key of its own index. -/
structure Counted (replicationLimit : UInt8) (storedKey : Bytes → Bytes) (key : Bytes) (rounds : ℕ)
    (p : Placement N) : Prop where
  counter_eq : ∀ id, p.counter id = copiesOn id p.sent
  limit : ∀ id, copiesOn id p.sent ≤ max 1 replicationLimit.toNat
  length_le : p.sent.length ≤ rounds + 1
  increasing : p.sent.Pairwise fun c d => c.index < d.index
  index_le : ∀ call ∈ p.sent, call.index ≤ rounds
  key_eq : ∀ call ∈ p.sent, call.key = storedKey (copyKey key call.index)

lemma counted_primary :
    Counted replicationLimit storedKey key 0 (placePrimary sha256 lookup storedKey key) := by
  unfold placePrimary
  rcases lookup 0 (sha256 key) with _ | node
  · constructor <;> simp [Placement.counter, copiesOn]
  · constructor
    · intro id
      by_cases hid : id = getId node
      · subst hid
        simp [Placement.counter, copiesOn]
      · simp [Placement.counter, copiesOn, hid, Ne.symm hid]
    · intro id
      refine (List.countP_le_length).trans ?_
      simp
    all_goals simp [copyKey]

/-- One more copy permitted by the limit: the counter does not wrap around. -/
lemma toNat_addCopy {stored : Option UInt8} {copies : UInt8}
    (h : Network.addCopy replicationLimit stored = some copies) :
    copies.toNat = stored.elim 0 UInt8.toNat + 1 ∧ copies.toNat ≤ max 1 replicationLimit.toNat := by
  rcases stored with _ | c
  · obtain rfl : 1 = copies := Option.some.inj h
    simp
  · rw [Network.addCopy] at h
    split_ifs at h with hlt
    obtain rfl : c + 1 = copies := Option.some.inj h
    have hlt' : c.toNat < replicationLimit.toNat := UInt8.lt_iff_toNat_lt.mp hlt
    have hlimit := replicationLimit.toNat_lt
    have hadd : (c + 1).toNat = c.toNat + 1 := by
      rw [UInt8.toNat_add]
      exact Nat.mod_eq_of_lt (by change c.toNat + 1 < 256; omega)
    rw [hadd]
    exact ⟨rfl, by omega⟩

lemma copiesOn_concat (id : IdType) (calls : List (StoreCall N)) (call : StoreCall N) :
    copiesOn id (calls ++ [call]) = copiesOn id calls + if id = getId call.node then 1 else 0 := by
  by_cases hid : id = getId call.node
  · simp [copiesOn, List.countP_append, hid]
  · simp [copiesOn, List.countP_append, hid, Ne.symm hid]

/-- What one round preserves. -/
lemma Counted.placeReplica {rounds : ℕ} {p : Placement N}
    (h : Counted replicationLimit storedKey key rounds p) :
    Counted replicationLimit storedKey key (rounds + 1)
      (placeReplica sha256 replicationLimit lookup storedKey key rounds p) := by
  have hlength := h.length_le
  rcases @placeReplica_cases _ _ sha256 replicationLimit lookup storedKey key rounds p with
    ⟨hsame, -⟩ | ⟨node, copies, hcopy, hnext⟩
  · rw [hsame]
    exact ⟨h.counter_eq, h.limit, by omega, h.increasing,
      fun call hcall => (h.index_le call hcall).trans (Nat.le_succ _), h.key_eq⟩
  · obtain ⟨hcopies, hle⟩ := toNat_addCopy hcopy
    have hcounter : p.counter (getId node) = copiesOn (getId node) p.sent := h.counter_eq _
    unfold Placement.counter at hcounter
    rw [hnext]
    constructor
    · intro id
      rw [copiesOn_concat]
      by_cases hid : id = getId node
      · subst hid
        simp only [Placement.counter, Function.update_self, Option.elim_some, if_pos]
        omega
      · rw [if_neg hid, Nat.add_zero, ← h.counter_eq id]
        simp [Placement.counter, hid]
    · intro id
      rw [copiesOn_concat]
      by_cases hid : id = getId node
      · subst hid
        rw [if_pos rfl]
        omega
      · rw [if_neg hid, Nat.add_zero]
        exact h.limit id
    · rw [List.length_append, List.length_singleton]
      omega
    · refine List.pairwise_append.mpr ⟨h.increasing, List.pairwise_singleton _ _, ?_⟩
      intro c hc d hd
      obtain rfl := List.mem_singleton.mp hd
      exact Nat.lt_succ_of_le (h.index_le c hc)
    · intro call hcall
      rcases List.mem_append.mp hcall with hold | hnew
      · exact (h.index_le call hold).trans (Nat.le_succ _)
      · obtain rfl := List.mem_singleton.mp hnew
        exact le_rfl
    · intro call hcall
      rcases List.mem_append.mp hcall with hold | hnew
      · exact h.key_eq call hold
      · obtain rfl := List.mem_singleton.mp hnew
        rfl

/-- The invariant of the replication loop. -/
lemma counted_placeAfter (rounds : ℕ) :
    Counted replicationLimit storedKey key rounds
      (placeAfter sha256 replicationLimit lookup storedKey key rounds) := by
  induction rounds with
  | zero => exact counted_primary
  | succ rounds ih =>
    rw [placeAfter_succ]
    exact ih.placeReplica

/-- Later rounds send requests with higher indices. -/
lemma exists_sent_eq_append (rounds k : ℕ) :
    ∃ later, (placeAfter sha256 replicationLimit lookup storedKey key (rounds + k)).sent =
        (placeAfter sha256 replicationLimit lookup storedKey key rounds).sent ++ later ∧
      ∀ call ∈ later, rounds < call.index := by
  induction k with
  | zero => exact ⟨[], by simp, by simp⟩
  | succ k ih =>
    obtain ⟨later, hsent, hlater⟩ := ih
    rw [← Nat.add_assoc, placeAfter_succ]
    rcases @placeReplica_cases _ _ sha256 replicationLimit lookup storedKey key (rounds + k)
      (placeAfter sha256 replicationLimit lookup storedKey key (rounds + k)) with
      ⟨hsame, -⟩ | ⟨node, copies, -, hnext⟩
    · rw [hsame]
      exact ⟨later, hsent, hlater⟩
    · rw [hnext, hsent, List.append_assoc]
      refine ⟨_, rfl, ?_⟩
      intro call hcall
      rcases List.mem_append.mp hcall with hold | hnew
      · exact hlater call hold
      · obtain rfl := List.mem_singleton.mp hnew
        change rounds < rounds + k + 1
        omega

/-- The requests sent before the `i`-th replica are those with lower indices. -/
lemma filter_index_lt {i rounds : ℕ} (hi : 1 ≤ i) (hle : i ≤ rounds) :
    (placeAfter sha256 replicationLimit lookup storedKey key rounds).sent.filter (·.index < i) =
      (placeAfter sha256 replicationLimit lookup storedKey key (i - 1)).sent := by
  obtain ⟨k, rfl⟩ : ∃ k, rounds = (i - 1) + k := ⟨rounds - (i - 1), by omega⟩
  obtain ⟨later, hsent, hlater⟩ :=
    @exists_sent_eq_append _ _ sha256 replicationLimit lookup storedKey key (i - 1) k
  rw [hsent, List.filter_append, List.filter_eq_self.mpr, List.filter_eq_nil_iff.mpr,
    List.append_nil]
  · intro call hcall
    have hlt := hlater call hcall
    simp only [decide_eq_true_eq]
    omega
  · intro call hcall
    have hindex := (counted_placeAfter (i - 1)).index_le call hcall
    simp only [decide_eq_true_eq]
    omega

/-- The loop skips a replica only if it has to. -/
lemma skipsOnlyFull_placeAfter (replication : UInt8) :
    SkipsOnlyFull sha256 replicationLimit lookup key replication
      (placeAfter sha256 replicationLimit lookup storedKey key (replication.toNat - 1)).sent := by
  intro i hi hlt hskipped
  rw [filter_index_lt hi (by omega)]
  obtain ⟨j, rfl⟩ : ∃ j, i = j + 1 := ⟨i - 1, by omega⟩
  rw [Nat.add_sub_cancel]
  rcases @placeReplica_cases _ _ sha256 replicationLimit lookup storedKey key j
    (placeAfter sha256 replicationLimit lookup storedKey key j) with
    ⟨-, hnone | ⟨node, copies, hnode, hstored, hfull⟩⟩ | ⟨node, copies, -, hnext⟩
  · exact Or.inl hnone
  · refine Or.inr ⟨node, hnode, ?_⟩
    have hcounter := (@counted_placeAfter _ _ sha256 replicationLimit lookup storedKey key
      j).counter_eq (getId node)
    rw [Placement.counter, hstored, Option.elim_some] at hcounter
    rw [← hcounter]
    exact UInt8.le_iff_toNat_le.mp hfull
  · -- The request of this round would be among the requests of the run.
    rw [← placeAfter_succ] at hnext
    obtain ⟨later, hsent, -⟩ := @exists_sent_eq_append _ _ sha256 replicationLimit lookup storedKey
      key (j + 1) (replication.toNat - 1 - (j + 1))
    rw [Nat.add_sub_of_le (by omega), hnext] at hsent
    refine absurd rfl (hskipped ⟨j + 1, node, storedKey (copyKey key (j + 1))⟩ ?_)
    rw [hsent]
    simp

end Loop

/-! ## The put handlers -/

section Handlers

variable {N : Type*} [Endpoint N] {sha256 : Bytes → IdType} {replicationLimit : UInt8}
  {lookup : ℕ → IdType → Option N} {storedKey : Bytes → Bytes} {key : Bytes}

/-- A handler makes as many rounds as there are replicas. -/
lemma putCalls_eq (replication : UInt8) :
    putCalls sha256 replicationLimit lookup storedKey key replication =
      (placeAfter sha256 replicationLimit lookup storedKey key (replication.toNat - 1)).sent := by
  unfold putCalls
  split_ifs with htwo
  · rfl
  · have hzero : replication.toNat - 1 = 0 := by
      rw [UInt8.le_iff_toNat_le] at htwo
      change ¬ 2 ≤ replication.toNat at htwo
      omega
    rw [hzero]
    rfl

lemma copiesBounded_putCalls (replication : UInt8) :
    CopiesBounded replicationLimit replication
      (putCalls sha256 replicationLimit lookup storedKey key replication) := by
  have hcounted := @counted_placeAfter _ _ sha256 replicationLimit lookup storedKey key
    (replication.toNat - 1)
  rw [putCalls_eq]
  have hlength := hcounted.length_le
  exact ⟨hcounted.limit, by omega⟩

/-- Copies with different indices have different keys. -/
lemma copyKey_ne {i j : ℕ} (hij : i < j) (hj : j < 256) : copyKey key i ≠ copyKey key j := by
  intro heq
  have hlast : copyKey key j = key ++ [UInt8.ofNat j] := if_neg (by omega)
  rw [hlast, copyKey] at heq
  split_ifs at heq with hi
  · have hlength := congrArg List.length heq
    simp at hlength
  · have hbyte : UInt8.ofNat i = UInt8.ofNat j := by simpa using heq
    have hmod := congrArg UInt8.toNat hbyte
    rw [UInt8.toNat_ofNat_of_lt' (hij.trans hj), UInt8.toNat_ofNat_of_lt' hj] at hmod
    omega

lemma nodup_keys_onDhtPutCalls (replication : UInt8) :
    ((onDhtPutCalls sha256 replicationLimit lookup key replication).map (·.key)).Nodup := by
  have hcounted := @counted_placeAfter _ _ sha256 replicationLimit lookup id key
    (replication.toNat - 1)
  have hbyte := replication.toNat_lt
  rw [onDhtPutCalls, putCalls_eq]
  unfold List.Nodup
  rw [List.pairwise_map]
  refine hcounted.increasing.imp_of_mem ?_
  intro c d hc hd hlt
  have hindex := hcounted.index_le d hd
  rw [hcounted.key_eq c hc, hcounted.key_eq d hd]
  exact copyKey_ne hlt (by omega)

/-- **Replica placement.**  Whatever the lookups answer, `onDhtPut` keeps the bounds on the copies,
stores no two of them under one key, skips a replica only if its lookup failed or its node has as
many copies as the limit, and its counters are the numbers of copies sent; `onDhtPutKeyIsHashOfData`
keeps the bounds too. -/
theorem onDhtPut_placement (sha256 : Bytes → IdType) (replicationLimit replication : UInt8)
    (lookup : ℕ → IdType → Option N) (key value : Bytes) :
    CopiesBounded replicationLimit replication
        (onDhtPutCalls sha256 replicationLimit lookup key replication) ∧
      ((onDhtPutCalls sha256 replicationLimit lookup key replication).map (·.key)).Nodup ∧
      SkipsOnlyFull sha256 replicationLimit lookup key replication
        (onDhtPutCalls sha256 replicationLimit lookup key replication) ∧
      (∀ rounds nodeId,
        (placeAfter sha256 replicationLimit lookup id key rounds).counter nodeId =
          copiesOn nodeId (placeAfter sha256 replicationLimit lookup id key rounds).sent) ∧
      CopiesBounded replicationLimit replication
        (onDhtPutKeyIsHashOfDataCalls sha256 replicationLimit lookup value replication) := by
  refine ⟨copiesBounded_putCalls replication, nodup_keys_onDhtPutCalls replication, ?_, ?_,
    copiesBounded_putCalls replication⟩
  · rw [onDhtPutCalls, putCalls_eq]
    exact skipsOnlyFull_placeAfter replication
  · intro rounds
    exact (counted_placeAfter rounds).counter_eq

end Handlers

/-! ## On a network -/

section Network

variable {N : Type*} [Endpoint N] {sha256 : Bytes → IdType} {replicationLimit : UInt8}
  {storedKey : Bytes → Bytes} {key : Bytes}

/-- The loop from the index `i` on does not ask for earlier answers. -/
lemma placeReplicas_congr {lookup lookup' : ℕ → IdType → Option N} (rounds : ℕ) {i : ℕ}
    (h : ∀ j, i < j → lookup j = lookup' j) (p : Placement N) :
    placeReplicas sha256 replicationLimit lookup storedKey key rounds i p =
      placeReplicas sha256 replicationLimit lookup' storedKey key rounds i p := by
  induction rounds generalizing i p with
  | zero => rfl
  | succ rounds ih =>
    have hround : placeReplica sha256 replicationLimit lookup storedKey key i p =
        placeReplica sha256 replicationLimit lookup' storedKey key i p := by
      rw [placeReplica, placeReplica, h (i + 1) (Nat.lt_succ_self i)]
    rw [placeReplicas, placeReplicas, hround]
    exact ih (fun j hj => h j (Nat.lt_of_succ_lt hj)) _

namespace Network

variable [DecidableEq N]

/-- The store request of a put handler at the node `self`. -/
def serveCall (ctx : PutContext) (self : N) (value : Bytes) (ttl : UInt16) (net : Network N)
    (call : StoreCall N) : Network N :=
  net.setData self call.node (ctx.now call.index) call.key value ttl

/-- The replication loop on a network sends the requests of `placeReplicas`, with the answers that
the network gives meanwhile.  By induction on the rounds; the answer of the first round is put in
front of those of the rest. -/
lemma exists_putReplicas_eq_foldl (ctx : PutContext) (self : N) (value : Bytes) (ttl : UInt16)
    (rounds i : ℕ) (stored : IdType → Option UInt8) (net : Network N) (sent : List (StoreCall N)) :
    ∃ lookup later,
      (placeReplicas ctx.sha256 ctx.replicationLimit lookup storedKey key rounds i
        ⟨stored, sent⟩).sent = sent ++ later ∧
      putReplicas ctx self storedKey key value ttl rounds i stored net =
        later.foldl (serveCall ctx self value ttl) net := by
  induction rounds generalizing i stored net sent with
  | zero => exact ⟨fun _ _ => none, [], by simp [placeReplicas], rfl⟩
  | succ rounds ih =>
    set answer := net.dhtGetSuccessor ctx.fuel self (ctx.sha256 (key ++ [UInt8.ofNat (i + 1)]))
      with hanswer
    have hfirst : ∀ lookup' : ℕ → IdType → Option N, ∀ p : Placement N,
        placeReplicas ctx.sha256 ctx.replicationLimit
            (Function.update lookup' (i + 1) fun _ => answer) storedKey key rounds (i + 1) p =
          placeReplicas ctx.sha256 ctx.replicationLimit lookup' storedKey key rounds (i + 1) p := by
      intro lookup' p
      refine placeReplicas_congr rounds ?_ p
      intro j hj
      rw [Function.update_of_ne (by omega)]
    rw [putReplicas, ← hanswer]
    rcases answer with _ | node
    · obtain ⟨lookup', later, hsent, hput⟩ := ih (i + 1) stored net sent
      refine ⟨Function.update lookup' (i + 1) fun _ => none, later, ?_, hput⟩
      rw [placeReplicas, hfirst, placeReplica]
      simpa using hsent
    rcases hcopy : addCopy ctx.replicationLimit (stored (getId node)) with _ | copies
    · obtain ⟨lookup', later, hsent, hput⟩ := ih (i + 1) stored net sent
      refine ⟨Function.update lookup' (i + 1) fun _ => some node, later, ?_, ?_⟩
      · rw [placeReplicas, hfirst, placeReplica]
        simpa [hcopy] using hsent
      · simpa only [hcopy] using hput
    · obtain ⟨lookup', later, hsent, hput⟩ := ih (i + 1)
        (Function.update stored (getId node) (some copies))
        (net.setData self node (ctx.now (i + 1)) (storedKey (key ++ [UInt8.ofNat (i + 1)])) value ttl)
        (sent ++ [⟨i + 1, node, storedKey (key ++ [UInt8.ofNat (i + 1)])⟩])
      refine ⟨Function.update lookup' (i + 1) fun _ => some node,
        ⟨i + 1, node, storedKey (key ++ [UInt8.ofNat (i + 1)])⟩ :: later, ?_, ?_⟩
      · rw [placeReplicas, hfirst, placeReplica]
        simpa [hcopy] using hsent
      · rw [List.foldl_cons]
        simp only [hcopy]
        exact hput

/-- What a put handler does to the stores of a network is what its store requests do. -/
theorem exists_put_eq_foldl (ctx : PutContext) (self : N) (storedKey : Bytes → Bytes)
    (key value : Bytes) (ttl : UInt16) (replication : UInt8) (net : Network N) :
    ∃ lookup, net.put ctx self storedKey key value ttl replication =
      (putCalls ctx.sha256 ctx.replicationLimit lookup storedKey key replication).foldl
        (serveCall ctx self value ttl) net := by
  set answer := net.dhtGetSuccessor ctx.fuel self (ctx.sha256 key) with hanswer
  have hrest : ∀ (lookup' : ℕ → IdType → Option N) (rounds : ℕ) (p : Placement N),
      placeReplicas ctx.sha256 ctx.replicationLimit (Function.update lookup' 0 fun _ => answer)
          storedKey key rounds 0 p =
        placeReplicas ctx.sha256 ctx.replicationLimit lookup' storedKey key rounds 0 p := by
    intro lookup' rounds p
    refine placeReplicas_congr rounds ?_ p
    intro j hj
    rw [Function.update_of_ne (by omega)]
  unfold Network.put putCalls placeAfter placePrimary
  dsimp only
  rw [← hanswer]
  by_cases htwo : 2 ≤ replication
  · rcases answer with _ | node
    · obtain ⟨lookup', later, hsent, hput⟩ := exists_putReplicas_eq_foldl ctx self value ttl
        (replication.toNat - 1) 0 (fun _ => none) net []
      refine ⟨Function.update lookup' 0 fun _ => none, ?_⟩
      simp only [if_pos htwo, Function.update_self, hrest]
      rw [hsent]
      exact hput
    · obtain ⟨lookup', later, hsent, hput⟩ := exists_putReplicas_eq_foldl ctx self value ttl
        (replication.toNat - 1) 0 (Function.update (fun _ => none) (getId node) (some 1))
        (net.setData self node (ctx.now 0) (storedKey key) value ttl) [⟨0, node, storedKey key⟩]
      refine ⟨Function.update lookup' 0 fun _ => some node, ?_⟩
      simp only [if_pos htwo, Function.update_self, hrest]
      rw [hsent]
      exact hput
  · refine ⟨fun _ _ => answer, ?_⟩
    rcases answer with _ | node
    · simp [if_neg htwo]
    · simp only [if_neg htwo]
      rfl

end Network

end Network

end ChordPlusPlus
