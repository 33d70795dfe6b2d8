import ChordPlusPlus.Dht.Handover
import ChordPlusPlus.Foundation.LastWrite

/-!
# Writes during a handover

`getDataItemsOnJoin` takes the lock of the store twice: it copies the items for the new node, and
then it deletes their keys.  Other threads may write to the store before, between and after the two
sections.  The delete goes by the keys alone, so a value that was written between the sections is
deleted although the reply contains an older one.

`handoverSections` performs the two sections with arbitrary writes around them; without writes
between them it is `getDataItemsOnJoin` (`handoverSections_of_getDataItemsOnJoin`).  The last writes
survive exactly when no copied key has its last write between the sections, with another value
(`keepsLastWrites_iff`).
-/

namespace ChordPlusPlus

/-- A call that writes to the store. -/
inductive DataWrite
  /-- `setData`, at the clock reading `now`. -/
  | setData (now : TimePoint) (key value : Bytes) (ttl : Duration)
  | setDataExpires (key value : Bytes) (expires : TimePoint)

namespace DataWrite

/-- The key that is written. -/
def key : DataWrite → Bytes
  | setData _ key _ _ => key
  | setDataExpires key _ _ => key

/-- What is stored under the key: the value and its expiry date. -/
def item : DataWrite → Bytes × TimePoint
  | setData now _ value ttl => (value, NodeInformation.expiresAt now ttl)
  | setDataExpires _ value expires => (value, expires)

variable {N : Type*}

/-- The call. -/
def apply (info : NodeInformation N) : DataWrite → NodeInformation N
  | setData now key value ttl => info.setData now key value ttl
  | setDataExpires key value expires => info.setDataExpires key value expires

lemma apply_eq (info : NodeInformation N) (write : DataWrite) :
    write.apply info = { info with data := info.data.insert write.key write.item } := by
  cases write <;> rfl

/-- What the call stores under a given key, if it is this one that it writes. -/
def itemFor (k : Bytes) (write : DataWrite) : Option (Bytes × TimePoint) :=
  if write.key = k then some write.item else none

/-- The item stored under a key after the call. -/
lemma lookup_apply (info : NodeInformation N) (write : DataWrite) (k : Bytes) :
    (write.apply info).data.lookup k = (write.itemFor k).or (info.data.lookup k) := by
  rw [apply_eq, itemFor]
  split_ifs with hk
  · subst hk
    exact AList.lookup_insert _
  · exact AList.lookup_insert_ne (Ne.symm hk)

end DataWrite

section Sections

variable {N : Type*}

/-- The calls, one after the other. -/
def applyWrites (info : NodeInformation N) (writes : List DataWrite) : NodeInformation N :=
  writes.foldl DataWrite.apply info

/-- What the last write of a key has stored. -/
def lastStored (k : Bytes) (writes : List DataWrite) : Option (Bytes × TimePoint) :=
  LastWrite.last (DataWrite.itemFor k) writes

/-- The store holds what was written last. -/
lemma lookup_applyWrites (info : NodeInformation N) (writes : List DataWrite) (k : Bytes) :
    (applyWrites info writes).data.lookup k = (lastStored k writes).or (info.data.lookup k) :=
  (LastWrite.read_foldl (fun info : NodeInformation N => info.data.lookup k) (P := fun _ => True)
    (Q := fun _ => True) (fun _ _ _ _ => trivial)
    (fun info write _ _ => DataWrite.lookup_apply info write k) trivial (fun _ _ => trivial)).2

lemma applyWrites_append (info : NodeInformation N) (writes writes' : List DataWrite) :
    applyWrites info (writes ++ writes') = applyWrites (applyWrites info writes) writes' :=
  List.foldl_append ..

variable [Endpoint N] (sha256 : Bytes → IdType) (newNode : N)

/-- The reply that contains the copied items. -/
def replyItems (items : DataType) : List DataItem :=
  items.entries.map fun e => ⟨e.1, e.2.1, expiresToWire e.2.2⟩

/-- The two critical sections of `getDataItemsOnJoin`, with the writes of other threads `before`,
`between` and `after` them: the state in the end, and the reply. -/
def handoverSections (info : NodeInformation N) (before between after : List DataWrite) :
    NodeInformation N × List DataItem :=
  let atCopy := applyWrites info before
  let dataForNewNode := atCopy.getDataItemsForNodeId sha256 newNode
  let keys := dataForNewNode.entries.map Sigma.fst
  let atDelete := applyWrites atCopy between
  (applyWrites (atDelete.deleteDataAssignedToPredecessor keys) after, replyItems dataForNewNode)

/-- The last value written for each key, by one of the writes or earlier, is in the store or in the
reply. -/
def KeepsLastWrites (info : NodeInformation N) (writes : List DataWrite)
    (result : NodeInformation N × List DataItem) : Prop :=
  ∀ key value, (applyWrites info writes).getData key = some value →
    result.1.getData key = some value ∨ ∃ item ∈ result.2, item.key = key ∧ item.data = value

/-- No key that is copied has its last write between the two sections, unless the write repeats the
copied value. -/
def NoneOverwritten (info : NodeInformation N) (before between after : List DataWrite) : Prop :=
  ∀ key copied item,
    ((applyWrites info before).getDataItemsForNodeId sha256 newNode).lookup key = some copied →
    lastStored key between = some item → lastStored key after = none → item.1 = copied.1

end Sections

section Race

variable {N : Type*} [Endpoint N] {sha256 : Bytes → IdType} {newNode : N}

/-- Without writes between them, the sections are the handler. -/
lemma handoverSections_of_getDataItemsOnJoin {self pred : N} {info info' : NodeInformation N}
    {before after : List DataWrite} {items : List DataItem}
    (hpred : (applyWrites info before).predecessor = some pred)
    (hin : isInRangeLoop (getId newNode) (getId pred) (getId self) false false = true)
    (h : PeerImpl.getDataItemsOnJoin sha256 self (applyWrites info before) newNode =
      some (info', items)) :
    handoverSections sha256 newNode info before [] after = (applyWrites info' after, items) := by
  rw [PeerImpl.getDataItemsOnJoin, hpred] at h
  simp only [hin, Bool.not_true, Bool.false_eq_true, if_false] at h
  obtain ⟨rfl, rfl⟩ := Prod.mk.inj (Option.some.inj h)
  rfl

lemma handoverSections_reply (info : NodeInformation N) (before between after : List DataWrite) :
    (handoverSections sha256 newNode info before between after).2 =
      replyItems ((applyWrites info before).getDataItemsForNodeId sha256 newNode) := rfl

/-- The reply contains the copied items and nothing else. -/
lemma exists_mem_replyItems {items : DataType} {key value : Bytes} :
    (∃ item ∈ replyItems items, item.key = key ∧ item.data = value) ↔
      ∃ copied, items.lookup key = some copied ∧ copied.1 = value := by
  constructor
  · rintro ⟨item, hitem, rfl, rfl⟩
    obtain ⟨e, he, rfl⟩ := List.mem_map.mp hitem
    exact ⟨e.2, FiniteMap.lookup_eq_some_iff.mpr he, rfl⟩
  · rintro ⟨copied, hcopied, rfl⟩
    exact ⟨_, List.mem_map.mpr ⟨_, FiniteMap.lookup_eq_some_iff.mp hcopied, rfl⟩, rfl, rfl⟩

/-- What is stored after the handover: what was written afterwards, and otherwise what was written
until then, unless the key was copied. -/
lemma lookup_handoverSections (info : NodeInformation N) (before between after : List DataWrite)
    (key : Bytes) :
    (handoverSections sha256 newNode info before between after).1.data.lookup key =
      (lastStored key after).or
        (if ((applyWrites info before).getDataItemsForNodeId sha256 newNode).lookup key = none then
          (applyWrites info (before ++ between)).data.lookup key
        else none) := by
  set copied := (applyWrites info before).getDataItemsForNodeId sha256 newNode with hcopied
  have hkeys : key ∈ copied.entries.map Sigma.fst ↔ ¬ copied.lookup key = none := by
    rw [AList.lookup_eq_none, not_not]
    exact Iff.rfl
  unfold handoverSections
  rw [lookup_applyWrites, NodeInformation.deleteDataAssignedToPredecessor,
    FiniteMap.lookup_eraseAll, ← applyWrites_append, ← hcopied]
  congr 1
  by_cases hnone : copied.lookup key = none
  · rw [if_neg (by rw [hkeys, not_not]; exact hnone), if_pos hnone]
  · rw [if_pos (hkeys.mpr hnone), if_neg hnone]

/-- A copied item is stored when it is copied. -/
lemma lookup_of_copied {info : NodeInformation N} {key : Bytes} {copied : Bytes × TimePoint}
    (h : (info.getDataItemsForNodeId sha256 newNode).lookup key = some copied) :
    info.data.lookup key = some copied := by
  rw [NodeInformation.getDataItemsForNodeId, FiniteMap.lookup_filter] at h
  exact (Option.filter_eq_some_iff.mp h).1

/-- **Handover and writes.**  For every store, every new node and all writes before, between and
after the two critical sections, the last value written for each key is in the store or in the reply
exactly when no copied key has its last write between the sections, with another value. -/
theorem keepsLastWrites_iff (sha256 : Bytes → IdType) (newNode : N) (info : NodeInformation N)
    (before between after : List DataWrite) :
    KeepsLastWrites info (before ++ between ++ after)
        (handoverSections sha256 newNode info before between after) ↔
      NoneOverwritten sha256 newNode info before between after := by
  constructor
  · intro hkeeps key copied item hcopied hbetween hafter
    -- The last value of the key is the one written between the sections.
    have hlast : (applyWrites info (before ++ between ++ after)).getData key = some item.1 := by
      rw [NodeInformation.getData, applyWrites_append, lookup_applyWrites, hafter,
        applyWrites_append, lookup_applyWrites, hbetween]
      rfl
    rcases hkeeps key item.1 hlast with hstored | hreply
    · rw [NodeInformation.getData, lookup_handoverSections, hafter, if_neg (by simp [hcopied])]
        at hstored
      cases hstored
    · rw [handoverSections_reply] at hreply
      obtain ⟨copied', hcopied', hvalue⟩ := exists_mem_replyItems.mp hreply
      rw [hcopied] at hcopied'
      rw [← hvalue, Option.some.inj hcopied']
  · intro hnone key value hvalue
    rw [handoverSections_reply, exists_mem_replyItems, NodeInformation.getData,
      lookup_handoverSections]
    rw [NodeInformation.getData, applyWrites_append, lookup_applyWrites] at hvalue
    rcases hafter : lastStored key after with _ | item
    · rw [hafter, Option.none_or] at hvalue
      rcases hcopied : ((applyWrites info before).getDataItemsForNodeId sha256 newNode).lookup key
        with _ | copied
      · rw [if_pos rfl]
        exact Or.inl hvalue
      · -- The key is gone from the store: the reply has to contain the value.
        refine Or.inr ⟨copied, rfl, ?_⟩
        rw [applyWrites_append, lookup_applyWrites] at hvalue
        rcases hbetween : lastStored key between with _ | item
        · rw [hbetween, Option.none_or, lookup_of_copied hcopied] at hvalue
          exact Option.some.inj hvalue
        · rw [hbetween] at hvalue
          rw [← hnone key copied item hcopied hbetween hafter]
          exact Option.some.inj hvalue
    · rw [hafter] at hvalue
      exact Or.inl hvalue

/-- The store of the node `3` with predecessor `1`, into whose arc the node `2` joins. -/
def beforeRace : NodeInformation IdType :=
  NodeInformation.initial.setPredecessor (some (idOf 1))

/-- A key that is overwritten between the sections: the new value is lost. -/
theorem not_keepsLastWrites_between :
    ¬ KeepsLastWrites beforeRace
      ([.setData 0 [7] [1] Int64.maxValue] ++ [.setData 0 [7] [2] Int64.maxValue] ++ [])
      (handoverSections (fun _ => idOf 2) (idOf 2) beforeRace
        [.setData 0 [7] [1] Int64.maxValue] [.setData 0 [7] [2] Int64.maxValue] []) := by
  intro hkeeps
  have hlost := hkeeps [7] [2] (by decide)
  revert hlost
  decide

end Race

end ChordPlusPlus
