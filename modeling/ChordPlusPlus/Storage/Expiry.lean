import ChordPlusPlus.Storage.HandoverRace
import ChordPlusPlus.Foundation.Run

/-!
# Expired items

A background thread, the data cleaner, goes through the store from time to time and erases the items
whose expiry date has passed.  `getData` and `getDataItemsForNodeId` do not look at the expiry dates.
A run is a sequence of writes, passes of the cleaner, reads and handovers, with a clock that does not
go back.

An item is stored exactly as long as it is unswept: since it was written it has been neither
overwritten nor deleted, and no pass has read the clock after its expiry date
(`lookup_of_exec_iff`).  An expired item is therefore served until the cleaner meets it
(`servesExpired_iff`).
-/

namespace ChordPlusPlus

/-- What happens to a store. -/
inductive StoreEvent (N : Type*)
  | write (write : DataWrite)
  /-- A pass of the data cleaner.  At the entry of each key it reads the clock; it ends at the time
  `finish`. -/
  | clean (reading : Bytes → TimePoint) (finish : TimePoint)
  /-- `getDataItemsForNodeId`, the first section of a handover. -/
  | copy (time : TimePoint) (newNode : N)
  /-- `deleteDataAssignedToPredecessor`, the second section. -/
  | delete (keys : List Bytes)
  | getData (time : TimePoint) (key : Bytes)
  | setPredecessor (node : Option N)

/-- A store and the time of the last clock reading. -/
structure StoreState (N : Type*) where
  info : NodeInformation N
  clock : TimePoint

/-- A new node. -/
def StoreState.start {N : Type*} (clock : TimePoint) : StoreState N := ⟨.initial, clock⟩

namespace StoreEvent

variable {N : Type*}

/-- What the event does to the store.  Reads and copies leave it as it is. -/
def effect (info : NodeInformation N) : StoreEvent N → NodeInformation N
  | write w => w.apply info
  | clean reading _ => info.dataCleanerPass fun i => (info.data.keys[i]?).elim 0 reading
  | copy _ _ => info
  | delete keys => info.deleteDataAssignedToPredecessor keys
  | getData _ _ => info
  | setPredecessor node => info.setPredecessor node

/-- The time of the event, if it has one: the last clock reading that belongs to it. -/
def time : StoreEvent N → Option TimePoint
  | write (.setData now _ _ _) => some now
  | write (.setDataExpires _ _ _) => none
  | clean _ finish => some finish
  | copy time _ => some time
  | delete _ => none
  | getData time _ => some time
  | setPredecessor _ => none

/-- The clock does not go back: neither between events nor to before the start of a pass. -/
def follows (s : StoreState N) (event : StoreEvent N) : Bool :=
  (match event.time with
    | some time => s.clock ≤ time
    | none => true) &&
  match event with
  | clean reading finish =>
      s.info.data.keys.all fun key => s.clock ≤ reading key && reading key ≤ finish
  | _ => true

/-- The event, in a state that it can follow. -/
def step (event : StoreEvent N) (s : StoreState N) : Option (StoreState N) :=
  if event.follows s then some ⟨event.effect s.info, event.time.getD s.clock⟩ else none

/-- The event stores the item under the key. -/
def Stores (key : Bytes) (event : StoreEvent N) (item : Bytes × TimePoint) : Prop :=
  ∃ w, event = write w ∧ w.itemFor key = some item

/-- The event leaves the item under the key: it does not write or delete the key, and it is no pass
of the cleaner that reads the clock after the expiry date. -/
def Keeps (key : Bytes) (event : StoreEvent N) (item : Bytes × TimePoint) : Prop :=
  match event with
  | write w => w.key ≠ key
  | clean reading _ => ¬ item.2 < reading key
  | delete keys => key ∉ keys
  | _ => True

/-- The item was stored under the key, and since then it has been neither replaced nor swept. -/
def Unswept (key : Bytes) (item : Bytes × TimePoint) (events : List (StoreEvent N)) : Prop :=
  LastWrite.InForce (Stores key) (Keeps key) events item

section Serving

variable [Endpoint N] (sha256 : Bytes → IdType)

/-- The event reads what is stored under the key. -/
def Asks (info : NodeInformation N) (key : Bytes) : StoreEvent N → Prop
  | getData _ k => k = key
  | copy _ newNode =>
      isInRangeLoop (sha256 key) ((info.predecessor.map getId).getD (getId newNode))
        (getId newNode) false true = true
  | _ => False

/-- The event returns the value of the item, or hands the item over. -/
def Serves (info : NodeInformation N) (key : Bytes) (item : Bytes × TimePoint) :
    StoreEvent N → Prop
  | getData _ k => k = key ∧ info.getData k = some item.1 ∧ info.data.lookup k = some item
  | copy _ newNode => (info.getDataItemsForNodeId sha256 newNode).lookup key = some item
  | _ => False

/-- At the time of the event, the expiry date has passed. -/
def Expired (item : Bytes × TimePoint) (event : StoreEvent N) : Prop :=
  ∃ time, event.time = some time ∧ item.2 < time

end Serving

/-! ## Single events -/

/-- The loop of a pass, with the readings given by the keys: it keeps the entries that have not
expired. -/
lemma dataCleanerLoop_eq_filter {now : ℕ → TimePoint} {reading : Bytes → TimePoint} (i : ℕ)
    (es : List (Sigma fun _ : Bytes => Bytes × TimePoint))
    (hnow : ∀ j key, (es.map Sigma.fst)[j]? = some key → now (i + j) = reading key) :
    NodeInformation.dataCleanerLoop now i es = es.filter fun e => ¬ e.2.2 < reading e.1 := by
  induction es generalizing i with
  | nil => rfl
  | cons e es ih =>
    have hfirst : now i = reading e.1 := hnow 0 e.1 rfl
    have hrest := ih (i + 1) fun j key hj => by
      rw [Nat.add_assoc, Nat.add_comm 1 j]
      exact hnow (j + 1) key hj
    rw [NodeInformation.dataCleanerLoop, hfirst, hrest, List.filter_cons]
    by_cases hexpired : e.2.2 < reading e.1
    · rw [if_pos hexpired, if_neg (by simpa using hexpired)]
    · rw [if_neg hexpired, if_pos (by simpa using hexpired)]

/-- What a pass leaves under a key. -/
lemma lookup_clean (info : NodeInformation N) (reading : Bytes → TimePoint) (finish : TimePoint)
    (key : Bytes) (item : Bytes × TimePoint) :
    ((clean reading finish).effect info).data.lookup key = some item ↔
      info.data.lookup key = some item ∧ ¬ item.2 < reading key := by
  have hnow : ∀ j k, (info.data.entries.map Sigma.fst)[j]? = some k →
      (info.data.keys[0 + j]?).elim 0 reading = reading k := by
    intro j k hj
    change ((info.data.entries.map Sigma.fst)[0 + j]?).elim 0 reading = reading k
    rw [Nat.zero_add, hj]
    rfl
  have hloop := @dataCleanerLoop_eq_filter (fun i => (info.data.keys[i]?).elim 0 reading) reading 0
    info.data.entries hnow
  rw [FiniteMap.lookup_eq_some_iff, FiniteMap.lookup_eq_some_iff]
  change ⟨key, item⟩ ∈ NodeInformation.dataCleanerLoop _ 0 info.data.entries ↔ _
  rw [hloop, List.mem_filter, decide_eq_true_iff]

/-- What is stored under a key after an event. -/
lemma lookup_effect (key : Bytes) (info : NodeInformation N) (event : StoreEvent N)
    (item : Bytes × TimePoint) :
    (event.effect info).data.lookup key = some item ↔
      event.Stores key item ∨ info.data.lookup key = some item ∧ event.Keeps key item := by
  cases event with
  | write w =>
    rw [effect, DataWrite.lookup_apply]
    by_cases hkey : w.key = key
    · simp [Stores, Keeps, DataWrite.itemFor, hkey]
    · simp [Stores, Keeps, DataWrite.itemFor, hkey]
  | clean reading finish =>
    rw [lookup_clean]
    simp [Stores, Keeps]
  | delete keys =>
    rw [effect, NodeInformation.deleteDataAssignedToPredecessor, FiniteMap.lookup_eraseAll]
    by_cases hkey : key ∈ keys
    · simp [Stores, Keeps, hkey]
    · simp [Stores, Keeps, hkey]
  | copy time newNode => simp [effect, Stores, Keeps]
  | getData time k => simp [effect, Stores, Keeps]
  | setPredecessor node => simp [effect, Stores, Keeps]

/-! ## Runs -/

/-- The store after a run. -/
lemma info_of_exec {events : List (StoreEvent N)} {s s' : StoreState N}
    (h : Run.exec step events s = some s') : s'.info = events.foldl effect s.info := by
  induction events generalizing s with
  | nil => rw [← Option.some.inj h]; rfl
  | cons event events ih =>
    obtain ⟨t, ht, hrest⟩ := Run.exec_cons_eq_some.mp h
    rw [step] at ht
    split_ifs at ht with hfollows
    rw [ih hrest, ← Option.some.inj ht, List.foldl_cons]

/-- After a run, the items stored are the unswept ones. -/
lemma lookup_of_exec_iff {clock : TimePoint} {events : List (StoreEvent N)} {s : StoreState N}
    (h : Run.exec step events (.start clock) = some s) (key : Bytes) (item : Bytes × TimePoint) :
    s.info.data.lookup key = some item ↔ Unswept key item events := by
  rw [info_of_exec h]
  exact LastWrite.read_foldl_eq_some_iff (fun info : NodeInformation N => info.data.lookup key)
    (lookup_effect key) rfl

variable [Endpoint N] {sha256 : Bytes → IdType}

/-- An event serves what it asks for and the store holds. -/
lemma serves_iff (info : NodeInformation N) (key : Bytes) (item : Bytes × TimePoint)
    (event : StoreEvent N) :
    Serves sha256 info key item event ↔
      Asks sha256 info key event ∧ info.data.lookup key = some item := by
  cases event with
  | getData time k =>
    constructor
    · rintro ⟨rfl, -, hlookup⟩
      exact ⟨rfl, hlookup⟩
    · rintro ⟨hk, hlookup⟩
      obtain rfl : k = key := hk
      exact ⟨rfl, by rw [NodeInformation.getData, hlookup]; rfl, hlookup⟩
  | copy time newNode =>
    rw [Serves, Asks, NodeInformation.getDataItemsForNodeId, FiniteMap.lookup_filter,
      Option.filter_eq_some_iff, and_comm]
    cases info.predecessor <;> exact Iff.rfl
  | write w => simp [Serves, Asks]
  | clean reading finish => simp [Serves, Asks]
  | delete keys => simp [Serves, Asks]
  | setPredecessor node => simp [Serves, Asks]

/-- **Expired items.**  In every run of a node, an expired item is returned by `getData`, or handed
over, exactly if it is asked for and unswept. -/
theorem servesExpired_iff (sha256 : Bytes → IdType) (clock : TimePoint)
    {events : List (StoreEvent N)} {s : StoreState N}
    (hrun : Run.exec step events (.start clock) = some s) (event : StoreEvent N) (key : Bytes)
    (item : Bytes × TimePoint) :
    Serves sha256 s.info key item event ∧ Expired item event ↔
      Asks sha256 s.info key event ∧ Expired item event ∧ Unswept key item events := by
  rw [serves_iff, lookup_of_exec_iff hrun]
  tauto

/-- A put with a time to live of one second. -/
def shortLived : List (StoreEvent IdType) := [.write (.setData 0 [7] [1] 1000000000)]

/-- The store after the put. -/
def shortLivedStore : StoreState IdType :=
  ⟨NodeInformation.initial.setData 0 [7] [1] 1000000000, 0⟩

/-- Without a pass of the cleaner, the item is handed over when it has expired. -/
theorem servesExpired_shortLived :
    Serves (fun _ => idOf 2) shortLivedStore.info [7] ([1], 1000000000) (.copy 2000000000 (idOf 2)) ∧
      Expired ([1], 1000000000) (.copy 2000000000 (idOf 2)) := by
  have hrun : Run.exec step shortLived (.start 0) = some shortLivedStore := rfl
  refine (servesExpired_iff (fun _ => idOf 2) 0 hrun _ _ _).mpr ⟨?_, ?_, ?_⟩
  · change isInRangeLoop (idOf 2) (idOf 2) (idOf 2) false true = true
    decide
  · exact ⟨2000000000, rfl, by decide⟩
  · exact ⟨[], _, [], rfl, ⟨_, rfl, by decide⟩, by simp⟩

/-- Whatever is served in the run has not expired. -/
def NeverServesExpired (sha256 : Bytes → IdType) (clock : TimePoint)
    (events : List (StoreEvent N)) : Prop :=
  ∀ before event after s key item, events = before ++ event :: after →
    Run.exec step before (.start clock) = some s → Serves sha256 s.info key item event →
    ¬ Expired item event

/-- A `getData` two seconds after the put returns the value that has expired. -/
theorem not_neverServesExpired :
    (Run.exec step (shortLived ++ [.getData 2000000000 [7]]) (.start 0)).isSome = true ∧
      ¬ NeverServesExpired (fun _ => idOf 2) 0 (shortLived ++ [.getData 2000000000 [7]]) := by
  constructor
  · decide
  · intro hnever
    refine hnever shortLived _ [] shortLivedStore [7] ([1], 1000000000) rfl rfl ?_ ?_
    · exact ⟨rfl, by decide, by decide⟩
    · exact ⟨2000000000, rfl, by decide⟩

end StoreEvent

end ChordPlusPlus
