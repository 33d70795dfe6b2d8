import ChordPlusPlus.Dht.Handlers
import ChordPlusPlus.Ring.Ideal

/-!
# Requests on an ideal ring

What the request handlers do when the ring is ideal: a lookup finds the responsible node, a get
reads its store, and a put writes to it.  A put changes no pointer and no item under a key that it
does not store.
-/

namespace ChordPlusPlus

variable {N : Type*}

/-- `net'` differs from `net` only in the items stored under `keys`. -/
structure SameExcept (keys : Bytes → Prop) (net net' : Network N) : Prop where
  answers : net'.answers = net.answers
  method : net'.method = net.method
  fingerTable : ∀ m, (net'.info m).fingerTable = (net.info m).fingerTable
  predecessor : ∀ m, (net'.info m).predecessor = (net.info m).predecessor
  data : ∀ m k, ¬ keys k → (net'.info m).data.lookup k = (net.info m).data.lookup k

namespace SameExcept

variable {keys keys' : Bytes → Prop} {net net' net'' : Network N}

lemma refl (keys : Bytes → Prop) (net : Network N) : SameExcept keys net net where
  answers := rfl
  method := rfl
  fingerTable := fun _ => rfl
  predecessor := fun _ => rfl
  data := fun _ _ _ => rfl

lemma trans (h : SameExcept keys net net') (h' : SameExcept keys net' net'') :
    SameExcept keys net net'' where
  answers := h'.answers.trans h.answers
  method := h'.method.trans h.method
  fingerTable := fun m => (h'.fingerTable m).trans (h.fingerTable m)
  predecessor := fun m => (h'.predecessor m).trans (h.predecessor m)
  data := fun m k hk => (h'.data m k hk).trans (h.data m k hk)

lemma mono (h : SameExcept keys net net') (hkeys : ∀ k, keys k → keys' k) :
    SameExcept keys' net net' where
  answers := h.answers
  method := h.method
  fingerTable := h.fingerTable
  predecessor := h.predecessor
  data := fun m k hk => h.data m k fun hk' => hk (hkeys k hk')

variable [Endpoint N]

/-- Items do not matter for a ring to be ideal. -/
lemma isIdeal (h : SameExcept keys net net') {ring : Finset N} (hring : IsIdeal net ring) :
    IsIdeal net' ring :=
  hring.congr (fun m _ => congrFun h.answers m) (fun m _ => h.fingerTable m)
    fun m _ => h.predecessor m

end SameExcept

section Requests

variable [DecidableEq N] {net : Network N}

namespace Network

lemma setData_sameExcept (net : Network N) (self node : N) (now : TimePoint) (key value : Bytes)
    (ttl : UInt16) : SameExcept (· = key) net (net.setData self node now key value ttl) := by
  have hset : ∀ (m : N) (expires : TimePoint), SameExcept (· = key) net
      (net.setInfo m ((net.info m).setDataExpires key value expires)) := by
    intro m expires
    refine ⟨rfl, rfl, ?_, ?_, ?_⟩
    · intro m'
      by_cases hm : m' = m
      · subst hm
        simp [setInfo, NodeInformation.setDataExpires]
      · simp [setInfo, hm]
    · intro m'
      by_cases hm : m' = m
      · subst hm
        simp [setInfo, NodeInformation.setDataExpires]
      · simp [setInfo, hm]
    · intro m' k hk
      by_cases hm : m' = m
      · subst hm
        simp [setInfo, NodeInformation.setDataExpires, AList.lookup_insert_ne hk]
      · simp [setInfo, hm]
  unfold setData
  split_ifs with hself hanswers
  · exact hset self _
  · exact hset node _
  · exact SameExcept.refl _ net

/-- Both paths of `setData` write the same item, with the expiry date computed by the clock of the
node that stores it. -/
lemma setData_lookup {self node : N} (hanswers : net.answers node = true) (now : TimePoint)
    (key value : Bytes) (ttl : UInt16) (m : N) :
    ((net.setData self node now key value ttl).info m).data.lookup key =
      if m = node then
        some (value, NodeInformation.expiresAt now (PeerImpl.ttlSeconds ttl))
      else (net.info m).data.lookup key := by
  have hset : net.setData self node now key value ttl = net.setInfo node
      ((net.info node).setData now key value (PeerImpl.ttlSeconds ttl)) := by
    unfold setData
    by_cases hself : node = self
    · rw [if_pos hself, hself]
    · rw [if_neg hself, if_pos hanswers]
      rfl
  rw [hset]
  by_cases hm : m = node
  · subst hm
    simp [setInfo, NodeInformation.setData, NodeInformation.setDataExpires]
  · simp [setInfo, hm]

variable [Endpoint N]

/-- What every store request of the replication loop preserves, the loop preserves. -/
lemma putReplicas_induction {P : Network N → Prop} {ctx : PutContext} {self : N}
    {storedKey : Bytes → Bytes} {key value : Bytes} {ttl : UInt16}
    (hset : ∀ net node now j,
      net.dhtGetSuccessor ctx.fuel self (ctx.sha256 (key ++ [j])) = some node → P net →
      P (net.setData self node now (storedKey (key ++ [j])) value ttl))
    (rounds i : ℕ) (stored : IdType → Option UInt8) {net : Network N} (h : P net) :
    P (putReplicas ctx self storedKey key value ttl rounds i stored net) := by
  induction rounds generalizing i stored net with
  | zero => exact h
  | succ rounds ih =>
    rw [putReplicas]
    split
    · exact ih _ _ h
    next node hnode =>
      split
      · exact ih _ _ h
      · exact ih _ _ (hset net node _ _ hnode h)

/-- The replication loop writes only under the keys of replicas. -/
lemma putReplicas_sameExcept (ctx : PutContext) (self : N) (storedKey : Bytes → Bytes)
    (key value : Bytes) (ttl : UInt16) (rounds i : ℕ) (stored : IdType → Option UInt8)
    (net : Network N) :
    SameExcept (fun k => ∃ j, k = storedKey (key ++ [j])) net
      (putReplicas ctx self storedKey key value ttl rounds i stored net) := by
  refine putReplicas_induction ?_ rounds i stored (SameExcept.refl _ net)
  intro net' node now j _ h
  refine h.trans ((net'.setData_sameExcept ..).mono ?_)
  rintro k rfl
  exact ⟨j, rfl⟩

end Network

namespace IsIdeal

variable [Endpoint N] {ring : Finset N}

/-- A lookup on an ideal ring finds the responsible node. -/
lemma dhtGetSuccessor_eq (h : IsIdeal net ring) {m s : N} (hm : m ∈ ring) {id : IdType}
    (hown : Arc.Owns getId ring id s) {fuel : ℕ} (hfuel : ring.card + 3 ≤ fuel) :
    net.dhtGetSuccessor fuel m id = some s := by
  simp [Network.dhtGetSuccessor, getSuccessor_eq_owner h hm hown hfuel]

/-- A ring node reads the store of another one. -/
lemma getData_eq (h : IsIdeal net ring) {m s : N} (hs : s ∈ ring) (key : Bytes) :
    net.getData m s key = (net.info s).getData key := by
  unfold Network.getData
  by_cases hself : s = m
  · rw [if_pos hself, hself]
  · rw [if_neg hself]
    simp [Network.request, h.answers s hs]

/-- A get handler on an ideal ring reads the store of the responsible node. -/
lemma fetch_eq (h : IsIdeal net ring) {m s : N} (hm : m ∈ ring) {id : IdType}
    (hown : Arc.Owns getId ring id s) {fuel : ℕ} (hfuel : ring.card + 3 ≤ fuel) (average : UInt8)
    (i : ℕ) (key : Bytes) :
    (net.calls fuel m average).fetch i id key = (net.info s).getData key := by
  simp [Calls.fetch, Network.calls, h.dhtGetSuccessor_eq hm hown hfuel, h.getData_eq hown.mem]

/-- What a put on an ideal ring does: it writes the item to the responsible node, and otherwise only
under the keys of replicas. -/
lemma put_spec (h : IsIdeal net ring) {self s : N} (hself : self ∈ ring)
    {ctx : Network.PutContext} (hfuel : ring.card + 3 ≤ ctx.fuel) {storedKey : Bytes → Bytes}
    {key : Bytes} (hown : Arc.Owns getId ring (ctx.sha256 key) s) (value : Bytes) (ttl : UInt16)
    (replication : UInt8) :
    SameExcept (fun k => k = storedKey key ∨ ∃ j, k = storedKey (key ++ [j])) net
        (net.put ctx self storedKey key value ttl replication) ∧
      ((∀ j, storedKey key ≠ storedKey (key ++ [j])) → ∀ m,
        ((net.put ctx self storedKey key value ttl replication).info m).data.lookup
          (storedKey key) =
        if m = s then
          some (value, NodeInformation.expiresAt (ctx.now 0) (PeerImpl.ttlSeconds ttl))
        else (net.info m).data.lookup (storedKey key)) := by
  have hsucc := h.dhtGetSuccessor_eq hself hown hfuel
  set net' := net.setData self s (ctx.now 0) (storedKey key) value ttl with hnet'
  have hsame : SameExcept (· = storedKey key) net net' := net.setData_sameExcept ..
  have hput : ∃ net'', net.put ctx self storedKey key value ttl replication = net'' ∧
      SameExcept (fun k => ∃ j, k = storedKey (key ++ [j])) net' net'' := by
    unfold Network.put
    simp only [hsucc]
    by_cases hrep : 2 ≤ replication
    · rw [if_pos hrep]
      exact ⟨_, rfl, Network.putReplicas_sameExcept ..⟩
    · rw [if_neg hrep]
      exact ⟨_, rfl, SameExcept.refl _ _⟩
  obtain ⟨net'', heq, hrest⟩ := hput
  rw [heq]
  constructor
  · exact (hsame.mono fun k hk => Or.inl hk).trans (hrest.mono fun k hk => Or.inr hk)
  · intro hne m
    rw [hrest.data m _ fun ⟨j, hj⟩ => hne j hj, hnet',
      Network.setData_lookup (h.answers s hown.mem)]

end IsIdeal

end Requests

end ChordPlusPlus
