import ChordPlusPlus.Dht.Handover
import ChordPlusPlus.Dht.Lookup
import ChordPlusPlus.Foundation.Run

/-!
# The maintenance loop

`Dht::mainLoop` and the steps it consists of, as a transition system over all nodes of a
deployment in which no node fails.  Each node runs its loop in one thread, so a node is in one
phase at a time; `join`, `stabilize` and `fixFingers` are cut at the points where they wait for a
reply.  `notify` messages travel separately and may be delivered in any order and after any delay.

* `join`: ask the bootstrap node (`joinStart`), take the node it found as successor (`joinAnswer`),
  have the successor serve the handover (`handover`), store the reply (`storeItems`); if the request
  fails, or the reply has no successor field, the node tries again later (`joinRefused`).
* `stabilize`: read the predecessor of the successor (`stabilizeRead`), possibly replace
  `finger[0]` and send `notify` (`stabilizeAct`).
* `fixFingers`: look up `id + 2^nextFinger` (`fixFingersLookup`), write the finger
  (`fixFingersSet`).

The hop loop of a lookup visits other nodes while these go on with their own steps.  Its answer is
therefore not computed from one state: where the node's own two tests do not decide, the lookup may
answer nothing or any node that has joined.
-/

namespace ChordPlusPlus

/-- Where the main loop of a node is. -/
inductive Phase (N : Type*)
  /-- Between two steps of the loop. -/
  | idle
  /-- In `join`, before the answer of the bootstrap node. -/
  | asking
  /-- In `join`, before the successor has served the handover. -/
  | requesting
  /-- In `join`, before the items of the reply are stored. -/
  | storing (items : List DataItem)
  /-- In `stabilize`, after the answer of the successor. -/
  | stabilizing (successor : N) (predOfSuccessor : Option N)
  /-- In `fixFingers`, after the lookup. -/
  | fixing (successor : Option N)
deriving DecidableEq

/-- The state of a deployment. -/
structure System (N : Type*) where
  /-- The state of each node. -/
  info : N → NodeInformation N
  /-- Where the main loop of each node is. -/
  phase : N → Phase N
  /-- `nextFinger` of each node. -/
  nextFinger : N → Fin keyBits
  /-- The `notify` messages in flight, with sender and receiver. -/
  notifies : List (N × N)

/-- A step of some node, or the delivery of a message. -/
inductive Action (N : Type*)
  | create
  | joinStart (n : N)
  | joinAnswer (n s : N)
  | joinRefused (n : N)
  | handover (n : N)
  | storeItems (n : N)
  | stabilizeRead (n : N)
  | stabilizeAct (n : N)
  | deliverNotify (sender receiver : N)
  | fixFingersLookup (n : N) (result : Option N)
  | fixFingersSet (n : N)
  | checkPredecessor (n : N)

/-- How an action moves the main loop of a node. -/
inductive PhaseMove {N : Type*} : Action N → N → Phase N → Phase N → Prop
  | asks (n : N) : PhaseMove (.joinStart n) n .idle .asking
  | answered (n s : N) : PhaseMove (.joinAnswer n s) n .asking .requesting
  | refused (n : N) : PhaseMove (.joinRefused n) n .asking .idle
  | served (n : N) (items : List DataItem) : PhaseMove (.handover n) n .requesting (.storing items)
  | stored (n : N) (items : List DataItem) : PhaseMove (.storeItems n) n (.storing items) .idle
  | reads (n s : N) (p : Option N) : PhaseMove (.stabilizeRead n) n .idle (.stabilizing s p)
  | acts (n s : N) (p : Option N) : PhaseMove (.stabilizeAct n) n (.stabilizing s p) .idle
  | finds (n : N) (r : Option N) : PhaseMove (.fixFingersLookup n r) n .idle (.fixing r)
  | sets (n : N) (r : Option N) : PhaseMove (.fixFingersSet n) n (.fixing r) .idle

namespace System

variable {N : Type*}

/-- Before any node has entered its main loop. -/
def initial : System N where
  info := fun _ => NodeInformation.initial
  phase := fun _ => .idle
  nextFinger := fun _ => 0
  notifies := []

/-- The `finger[0]` of a node. -/
def succ (sys : System N) (n : N) : Option N := (sys.info n).fingerTable 0

/-- The predecessor of a node. -/
def pred (sys : System N) (n : N) : Option N := (sys.info n).predecessor

/-- A node has joined when it has a successor. -/
def Joined (sys : System N) (n : N) : Prop := sys.succ n ≠ none

/-- Replaces the messages in flight. -/
def setNotifies (sys : System N) (notifies : List (N × N)) : System N :=
  { sys with notifies := notifies }

variable [DecidableEq N]

/-- Changes the state of one node. -/
def setInfo (sys : System N) (n : N) (info : NodeInformation N) : System N :=
  { sys with info := Function.update sys.info n info }

/-- Moves the main loop of one node. -/
def setPhase (sys : System N) (n : N) (phase : Phase N) : System N :=
  { sys with phase := Function.update sys.phase n phase }

/-- Moves `nextFinger` of one node. -/
def setNextFinger (sys : System N) (n : N) (i : Fin keyBits) : System N :=
  { sys with nextFinger := Function.update sys.nextFinger n i }

variable [Endpoint N]

/-- `id + 2^nextFinger`, the start of the finger that `fixFingers` looks up. -/
def fingerStart (sys : System N) (n : N) : IdType :=
  getId n + pow2 32 (sys.nextFinger n)

/-- The answers that a lookup of `key` at the node `n` may give. -/
def lookupMay (sys : System N) (n : N) (key : IdType) (result : Option N) : Bool :=
  match PeerImpl.requested n (sys.info n) key with
  | .thisNode => result = some n
  | .nextNode s => result = some s
  | .otherNode =>
      match result with
      | none => true
      | some x => (sys.info n).getSuccessor.isSome && (sys.info x).getSuccessor.isSome

/-- The second half of `stabilize`, after the successor `s` has answered. -/
def stabilizeAct (sys : System N) (n s : N) (predOfSuccessor : Option N) : System N :=
  match predOfSuccessor with
  | none => (sys.setPhase n .idle).setNotifies ((n, s) :: sys.notifies)
  | some x =>
      if x = n then sys.setPhase n .idle
      else if isInRangeLoop (getId x) (getId n) (getId s) false false then
        ((sys.setInfo n ((sys.info n).setSuccessor (some x))).setPhase n .idle).setNotifies
          ((n, x) :: sys.notifies)
      else (sys.setPhase n .idle).setNotifies ((n, s) :: sys.notifies)

/-- One step.  `bootstrap` is the configured bootstrap node; it creates the ring, and the others
join through it. -/
def step (sha256 : Bytes → IdType) (bootstrap : N) : Action N → System N → Option (System N)
  | .create, sys =>
      if sys.phase bootstrap = .idle ∧ (sys.info bootstrap).getSuccessor = none then
        some (sys.setInfo bootstrap
          (((sys.info bootstrap).setPredecessor none).setSuccessor (some bootstrap)))
      else none
  | .joinStart n, sys =>
      if n ≠ bootstrap ∧ sys.phase n = .idle ∧ (sys.info n).getSuccessor = none then
        some ((sys.setInfo n ((sys.info n).setPredecessor none)).setPhase n .asking)
      else none
  | .joinAnswer n s, sys =>
      if sys.phase n = .asking ∧ (sys.info s).getSuccessor ≠ none then
        some ((sys.setInfo n ((sys.info n).setSuccessor (some s))).setPhase n .requesting)
      else none
  | .joinRefused n, sys =>
      if sys.phase n = .asking then
        some ((sys.setInfo n ((sys.info n).setSuccessor none)).setPhase n .idle)
      else none
  | .handover n, sys =>
      match sys.phase n, (sys.info n).getSuccessor with
      | .requesting, some s =>
          match PeerImpl.getDataItemsOnJoin sha256 s (sys.info s) n with
          | some (info, items) => some ((sys.setInfo s info).setPhase n (.storing items))
          -- The successor has read through an absent predecessor: no item is handed over.
          | none => some (sys.setPhase n (.storing []))
      | _, _ => none
  | .storeItems n, sys =>
      match sys.phase n with
      | .storing items =>
          some ((sys.setInfo n (PeerImpl.storeDataItems (sys.info n) items)).setPhase n .idle)
      | _ => none
  | .stabilizeRead n, sys =>
      match sys.phase n, (sys.info n).getSuccessor with
      | .idle, some s => some (sys.setPhase n (.stabilizing s (sys.pred s)))
      | .idle, none => some sys
      | _, _ => none
  | .stabilizeAct n, sys =>
      match sys.phase n with
      | .stabilizing s p => some (sys.stabilizeAct n s p)
      | _ => none
  | .deliverNotify n s, sys =>
      if (n, s) ∈ sys.notifies then
        some ((sys.setInfo s (PeerImpl.notify s (sys.info s) n)).setNotifies
          (sys.notifies.erase (n, s)))
      else none
  | .fixFingersLookup n result, sys =>
      if sys.phase n = .idle ∧ sys.lookupMay n (sys.fingerStart n) result = true then
        some (sys.setPhase n (.fixing result))
      else none
  | .fixFingersSet n, sys =>
      match sys.phase n with
      | .fixing result =>
          some (((sys.setInfo n ((sys.info n).setFinger (sys.nextFinger n) result)).setPhase n
            .idle).setNextFinger n (sys.nextFinger n + 1))
      | _ => none
  | .checkPredecessor n, sys =>
      -- The predecessor answers, so it is kept.
      if sys.phase n = .idle then some sys else none

end System

/-! ## What each part of a step leaves alone -/

namespace System

variable {N : Type*}

section Fields

variable (sys : System N) (n : N) (l : List (N × N))

/-- The messages do not belong to the state of a node. -/
@[simp] lemma setNotifies_info : (sys.setNotifies l).info = sys.info := rfl

/-- Replacing the messages keeps the successors. -/
@[simp] lemma setNotifies_succ : (sys.setNotifies l).succ = sys.succ := rfl

/-- Replacing the messages keeps the predecessors. -/
@[simp] lemma setNotifies_pred : (sys.setNotifies l).pred = sys.pred := rfl

/-- Replacing the messages moves no main loop. -/
@[simp] lemma setNotifies_phase : (sys.setNotifies l).phase = sys.phase := rfl

/-- Replacing the messages keeps `nextFinger`. -/
@[simp] lemma setNotifies_nextFinger : (sys.setNotifies l).nextFinger = sys.nextFinger := rfl

/-- The messages after they have been replaced. -/
@[simp] lemma setNotifies_notifies : (sys.setNotifies l).notifies = l := rfl

variable [DecidableEq N] (info : NodeInformation N) (phase : Phase N) (i : Fin keyBits)

/-- The states of the nodes after one has been changed. -/
@[simp] lemma setInfo_info :
    (sys.setInfo n info).info = Function.update sys.info n info := rfl

/-- Changing the state of a node moves no main loop. -/
@[simp] lemma setInfo_phase : (sys.setInfo n info).phase = sys.phase := rfl

/-- Changing the state of a node keeps `nextFinger`. -/
@[simp] lemma setInfo_nextFinger : (sys.setInfo n info).nextFinger = sys.nextFinger := rfl

/-- Changing the state of a node keeps the messages. -/
@[simp] lemma setInfo_notifies : (sys.setInfo n info).notifies = sys.notifies := rfl

/-- The successors after the state of one node has been changed. -/
@[simp] lemma setInfo_succ :
    (sys.setInfo n info).succ = Function.update sys.succ n (info.fingerTable 0) := by
  funext m
  by_cases h : m = n
  · subst h; simp [succ]
  · simp [succ, h]

/-- A node that keeps its finger table keeps its successor. -/
lemma setInfo_succ_of_fingerTable (hf : info.fingerTable = (sys.info n).fingerTable) :
    (sys.setInfo n info).succ = sys.succ := by
  rw [setInfo_succ, hf]
  exact Function.update_eq_self n sys.succ

/-- The predecessors after the state of one node has been changed. -/
@[simp] lemma setInfo_pred :
    (sys.setInfo n info).pred = Function.update sys.pred n info.predecessor := by
  funext m
  by_cases h : m = n
  · subst h; simp [pred]
  · simp [pred, h]

/-- A main loop moves without a change of the states. -/
@[simp] lemma setPhase_info : (sys.setPhase n phase).info = sys.info := rfl

/-- Moving a main loop keeps the successors. -/
@[simp] lemma setPhase_succ : (sys.setPhase n phase).succ = sys.succ := rfl

/-- Moving a main loop keeps the predecessors. -/
@[simp] lemma setPhase_pred : (sys.setPhase n phase).pred = sys.pred := rfl

/-- The main loops after one has been moved. -/
@[simp] lemma setPhase_phase :
    (sys.setPhase n phase).phase = Function.update sys.phase n phase := rfl

/-- Moving a main loop keeps `nextFinger`. -/
@[simp] lemma setPhase_nextFinger : (sys.setPhase n phase).nextFinger = sys.nextFinger := rfl

/-- Moving a main loop keeps the messages. -/
@[simp] lemma setPhase_notifies : (sys.setPhase n phase).notifies = sys.notifies := rfl

/-- `nextFinger` does not belong to the state of a node. -/
@[simp] lemma setNextFinger_info : (sys.setNextFinger n i).info = sys.info := rfl

/-- Moving `nextFinger` keeps the successors. -/
@[simp] lemma setNextFinger_succ : (sys.setNextFinger n i).succ = sys.succ := rfl

/-- Moving `nextFinger` keeps the predecessors. -/
@[simp] lemma setNextFinger_pred : (sys.setNextFinger n i).pred = sys.pred := rfl

/-- Moving `nextFinger` moves no main loop. -/
@[simp] lemma setNextFinger_phase : (sys.setNextFinger n i).phase = sys.phase := rfl

/-- `nextFinger` after it has been moved at one node. -/
@[simp] lemma setNextFinger_nextFinger :
    (sys.setNextFinger n i).nextFinger = Function.update sys.nextFinger n i := rfl

/-- Moving `nextFinger` keeps the messages. -/
@[simp] lemma setNextFinger_notifies : (sys.setNextFinger n i).notifies = sys.notifies := rfl

end Fields

/-! ## Inversion of the steps -/

section Inversion

variable [DecidableEq N] [Endpoint N] {sha256 : Bytes → IdType} {b n s : N} {sys sys' : System N}

/-- `create` takes place at the bootstrap node, as long as it has no successor. -/
lemma step_create (h : step sha256 b .create sys = some sys') :
    sys.phase b = .idle ∧ (sys.info b).getSuccessor = none ∧
      sys' = sys.setInfo b (((sys.info b).setPredecessor none).setSuccessor (some b)) := by
  simp only [step] at h
  split_ifs at h with hc
  exact ⟨hc.1, hc.2, (Option.some.inj h).symm⟩

/-- A node other than the bootstrap node starts to join while it has no successor. -/
lemma step_joinStart (h : step sha256 b (.joinStart n) sys = some sys') :
    n ≠ b ∧ sys.phase n = .idle ∧ (sys.info n).getSuccessor = none ∧
      sys' = (sys.setInfo n ((sys.info n).setPredecessor none)).setPhase n .asking := by
  simp only [step] at h
  split_ifs at h with hc
  exact ⟨hc.1, hc.2.1, hc.2.2, (Option.some.inj h).symm⟩

/-- A node that waits for the bootstrap node is given a successor that has joined. -/
lemma step_joinAnswer (h : step sha256 b (.joinAnswer n s) sys = some sys') :
    sys.phase n = .asking ∧ (sys.info s).getSuccessor ≠ none ∧
      sys' = (sys.setInfo n ((sys.info n).setSuccessor (some s))).setPhase n .requesting := by
  simp only [step] at h
  split_ifs at h with hc
  exact ⟨hc.1, hc.2, (Option.some.inj h).symm⟩

/-- A node that is refused is left without a successor. -/
lemma step_joinRefused (h : step sha256 b (.joinRefused n) sys = some sys') :
    sys.phase n = .asking ∧
      sys' = (sys.setInfo n ((sys.info n).setSuccessor none)).setPhase n .idle := by
  simp only [step] at h
  split_ifs at h with hc
  exact ⟨hc, (Option.some.inj h).symm⟩

/-- The handover changes the store of the successor and the phase of the joining node. -/
lemma step_handover (h : step sha256 b (.handover n) sys = some sys') :
    sys.phase n = .requesting ∧ ∃ s items info, (sys.info n).getSuccessor = some s ∧
      (PeerImpl.getDataItemsOnJoin sha256 s (sys.info s) n = some (info, items) ∨
        PeerImpl.getDataItemsOnJoin sha256 s (sys.info s) n = none ∧ info = sys.info s ∧
          items = []) ∧
      info.fingerTable = (sys.info s).fingerTable ∧ info.predecessor = (sys.info s).predecessor ∧
      sys' = (sys.setInfo s info).setPhase n (.storing items) := by
  simp only [step] at h
  split at h
  next s hphase hsucc =>
    split at h
    next info items hserve =>
      obtain ⟨hf, hp⟩ := PeerImpl.getDataItemsOnJoin_pointers hserve
      exact ⟨hphase, s, items, info, hsucc, Or.inl hserve, hf, hp, (Option.some.inj h).symm⟩
    next hserve =>
      refine ⟨hphase, s, [], sys.info s, hsucc, Or.inr ⟨hserve, rfl, rfl⟩, rfl, rfl, ?_⟩
      rw [← Option.some.inj h, setInfo, Function.update_eq_self]
  next => cases h

/-- The items of the reply are stored, and the join is over. -/
lemma step_storeItems (h : step sha256 b (.storeItems n) sys = some sys') :
    ∃ items, sys.phase n = .storing items ∧
      sys' = (sys.setInfo n (PeerImpl.storeDataItems (sys.info n) items)).setPhase n .idle := by
  simp only [step] at h
  split at h
  next items hphase => exact ⟨items, hphase, (Option.some.inj h).symm⟩
  next => cases h

/-- `stabilize` reads the predecessor of the successor, if there is one. -/
lemma step_stabilizeRead (h : step sha256 b (.stabilizeRead n) sys = some sys') :
    sys.phase n = .idle ∧
      ((∃ s, (sys.info n).getSuccessor = some s ∧
        sys' = sys.setPhase n (.stabilizing s (sys.pred s))) ∨ sys' = sys) := by
  simp only [step] at h
  split at h
  next s hphase hsucc => exact ⟨hphase, Or.inl ⟨s, hsucc, (Option.some.inj h).symm⟩⟩
  next hphase _ => exact ⟨hphase, Or.inr (Option.some.inj h).symm⟩
  next => cases h

/-- `stabilize` drops the answer that names the node itself, moves to a closer successor, or keeps
its successor; in the last two cases it notifies the successor it ends with. -/
lemma step_stabilizeAct (h : step sha256 b (.stabilizeAct n) sys = some sys') :
    ∃ s p, sys.phase n = .stabilizing s p ∧
      (p = some n ∧ sys' = sys.setPhase n .idle ∨
        (∃ x, p = some x ∧ x ≠ n ∧ Arc.Open (getId n) (getId x) (getId s) ∧
          sys' = ((sys.setInfo n ((sys.info n).setSuccessor (some x))).setPhase n
            .idle).setNotifies ((n, x) :: sys.notifies)) ∨
        p ≠ some n ∧ (∀ x, p = some x → ¬ Arc.Open (getId n) (getId x) (getId s)) ∧
          sys' = (sys.setPhase n .idle).setNotifies ((n, s) :: sys.notifies)) := by
  simp only [step] at h
  split at h
  next s p hphase =>
    have hsys := (Option.some.inj h).symm
    refine ⟨s, p, hphase, ?_⟩
    unfold stabilizeAct at hsys
    cases p with
    | none => exact Or.inr (Or.inr ⟨by simp, by simp, hsys⟩)
    | some x =>
      by_cases hx : x = n
      · exact Or.inl ⟨by rw [hx], by simpa [hx] using hsys⟩
      · by_cases hin : Arc.Open (getId n) (getId x) (getId s)
        · exact Or.inr (Or.inl ⟨x, rfl, hx, hin, by simpa [hx, hin] using hsys⟩)
        · refine Or.inr (Or.inr ⟨by simpa using hx, ?_, by simpa [hx, hin] using hsys⟩)
          rintro y hy
          rwa [← Option.some.inj hy]
  next => cases h

/-- A message is delivered once, and `notify` runs at its receiver. -/
lemma step_deliverNotify (h : step sha256 b (.deliverNotify n s) sys = some sys') :
    (n, s) ∈ sys.notifies ∧
      sys' = (sys.setInfo s (PeerImpl.notify s (sys.info s) n)).setNotifies
        (sys.notifies.erase (n, s)) := by
  simp only [step] at h
  split_ifs at h with hc
  exact ⟨hc, (Option.some.inj h).symm⟩

/-- `fixFingers` takes an answer that the lookup may give. -/
lemma step_fixFingersLookup {r : Option N}
    (h : step sha256 b (.fixFingersLookup n r) sys = some sys') :
    sys.phase n = .idle ∧ sys.lookupMay n (sys.fingerStart n) r = true ∧
      sys' = sys.setPhase n (.fixing r) := by
  simp only [step] at h
  split_ifs at h with hc
  exact ⟨hc.1, hc.2, (Option.some.inj h).symm⟩

/-- `fixFingers` writes the finger that it has looked up and moves on to the next. -/
lemma step_fixFingersSet (h : step sha256 b (.fixFingersSet n) sys = some sys') :
    ∃ r, sys.phase n = .fixing r ∧
      sys' = ((sys.setInfo n ((sys.info n).setFinger (sys.nextFinger n) r)).setPhase n
        .idle).setNextFinger n (sys.nextFinger n + 1) := by
  simp only [step] at h
  split at h
  next r hphase => exact ⟨r, hphase, (Option.some.inj h).symm⟩
  next => cases h

/-- Where no node fails, `checkPredecessor` changes nothing. -/
lemma step_checkPredecessor (h : step sha256 b (.checkPredecessor n) sys = some sys') :
    sys' = sys := by
  simp only [step] at h
  split_ifs at h with hc
  exact (Option.some.inj h).symm

/-- A step leaves the main loop of a node alone or moves it as its action says. -/
lemma phase_cases {a : Action N} (h : step sha256 b a sys = some sys') (m : N) :
    sys'.phase m = sys.phase m ∨ PhaseMove a m (sys.phase m) (sys'.phase m) := by
  have hmove : ∀ {t : N} {phase : Phase N}, sys'.phase = (sys.setPhase t phase).phase →
      PhaseMove a t (sys.phase t) phase →
      sys'.phase m = sys.phase m ∨ PhaseMove a m (sys.phase m) (sys'.phase m) := by
    intro t phase hphase hmove
    rw [hphase, setPhase_phase]
    by_cases hmt : m = t
    · subst hmt
      exact Or.inr (by simpa using hmove)
    · exact Or.inl (Function.update_of_ne hmt ..)
  cases a with
  | create =>
    obtain ⟨-, -, rfl⟩ := step_create h
    exact Or.inl rfl
  | joinStart n =>
    obtain ⟨-, hidle, -, rfl⟩ := step_joinStart h
    exact hmove rfl (hidle ▸ .asks n)
  | joinAnswer n s =>
    obtain ⟨hasking, -, rfl⟩ := step_joinAnswer h
    exact hmove rfl (hasking ▸ .answered n s)
  | joinRefused n =>
    obtain ⟨hasking, rfl⟩ := step_joinRefused h
    exact hmove rfl (hasking ▸ .refused n)
  | handover n =>
    obtain ⟨hrequesting, _, items, _, -, -, -, -, rfl⟩ := step_handover h
    exact hmove rfl (hrequesting ▸ .served n items)
  | storeItems n =>
    obtain ⟨items, hstoring, rfl⟩ := step_storeItems h
    exact hmove rfl (hstoring ▸ .stored n items)
  | stabilizeRead n =>
    obtain ⟨hidle, ⟨s, -, rfl⟩ | rfl⟩ := step_stabilizeRead h
    · exact hmove rfl (hidle ▸ .reads n s _)
    · exact Or.inl rfl
  | stabilizeAct n =>
    obtain ⟨s, p, hphase, ⟨-, rfl⟩ | ⟨x, -, -, -, rfl⟩ | ⟨-, -, rfl⟩⟩ := step_stabilizeAct h
    all_goals exact hmove rfl (hphase ▸ .acts n s p)
  | deliverNotify n s =>
    obtain ⟨-, rfl⟩ := step_deliverNotify h
    exact Or.inl rfl
  | fixFingersLookup n r =>
    obtain ⟨hidle, -, rfl⟩ := step_fixFingersLookup h
    exact hmove rfl (hidle ▸ .finds n r)
  | fixFingersSet n =>
    obtain ⟨r, hphase, rfl⟩ := step_fixFingersSet h
    exact hmove rfl (hphase ▸ .sets n r)
  | checkPredecessor n =>
    obtain rfl := step_checkPredecessor h
    exact Or.inl rfl

end Inversion

end System

/-! ## Ring arithmetic -/

/-- The start of a finger as a number. -/
lemma toNat_add_pow2 (id : IdType) (i : Fin keyBits) :
    (id + pow2 32 i).toNat = (id.toNat + 2 ^ (i : ℕ)) % 2 ^ 256 := by
  rw [ByteArr.toNat_add, toNat_pow2 (by decide) i.isLt, show (256 : ℕ) ^ 32 = 2 ^ 256 by norm_num]

/-- The arithmetic of the ring as it should be, for arrays of `n` bytes, and the starts of the fingers,
for the ids of the nodes. -/
structure RingArithmetic (N : Type*) [Endpoint N] (n : ℕ) : Prop where
  sum : ∀ ret a b : ByteArr n,
    (ByteArr.operatorPlus ret a b).toNat = (a.toNat + b.toNat) % 256 ^ n
  /-- The argument of `pow2` is a `size_t`. -/
  power : ∀ exp : UInt64,
    (pow2 n exp.toNat).toNat = if exp.toNat < 8 * n then 2 ^ exp.toNat else 0
  start : ∀ (ret id : IdType) (i : Fin keyBits),
    (ByteArr.operatorPlus ret id (pow2 32 i)).toNat = (id.toNat + 2 ^ (i : ℕ)) % 2 ^ 256
  /-- What `fixFingers` looks up. -/
  fixFingers : ∀ (ret : IdType) (sys : System N) (m : N),
    ByteArr.operatorPlus ret (getId m) (pow2 32 (sys.nextFinger m)) = sys.fingerStart m

/-- In larger arrays the loop of `operator+` is not entered. -/
lemma RingArithmetic.size_le {N : Type*} [Endpoint N] {n : ℕ} (h : RingArithmetic N n) :
    n ≤ 2 ^ 31 := by
  by_contra hlarge
  have hne := ByteArr.operatorPlus_filled_ne (Nat.not_le.mp hlarge) (ByteArr.filled 0)
    (ByteArr.filled 0) (show (1 : UInt8) ≠ 0 by decide)
  exact hne (ByteArr.toNat_injective ((h.sum _ _ _).trans (h.sum _ _ _).symm))

/-- **Ring arithmetic.**  `operator+` is addition modulo `256 ^ n`, `pow2` yields the powers of two
inside the array and zero otherwise, and the fingers start at `(id + 2 ^ i) mod 2 ^ 256`, if and only if
the arrays have at most `2 ^ 31` bytes.  The bound comes from `operator+`. -/
theorem ringArithmetic_iff (N : Type*) [Endpoint N] (n : ℕ) :
    RingArithmetic N n ↔ n ≤ 2 ^ 31 := by
  constructor
  · exact RingArithmetic.size_le
  · intro hn
    refine ⟨?_, ?_, ?_, ?_⟩
    · intro ret a b
      rw [ByteArr.operatorPlus_eq_add hn, ByteArr.toNat_add]
    · intro exp
      split_ifs with hexp
      · exact toNat_pow2 (by omega) hexp
      · exact toNat_pow2_of_le exp.toNat_lt (Nat.not_lt.mp hexp)
    · intro ret id i
      rw [ByteArr.operatorPlus_eq_add (by decide), toNat_add_pow2]
    · intro ret sys m
      exact ByteArr.operatorPlus_eq_add (by decide) ret (getId m) _

/-- With one byte more, the loop of `operator+` is not entered, and the result is what the memory
held. -/
theorem not_ringArithmetic :
    ByteArr.operatorPlus (ByteArr.filled 1) (ByteArr.filled 0) (ByteArr.filled 0) =
        (ByteArr.filled 1 : ByteArr 2147483649) ∧
      ¬ RingArithmetic IdType 2147483649 := by
  constructor
  · have hrounds : ByteArr.addRounds 2147483649 = 0 := by decide
    rw [ByteArr.operatorPlus, ByteArr.filled, ByteArr.mk.injEq, hrounds]
    rfl
  · intro h
    exact absurd h.size_le (by decide)

end ChordPlusPlus
