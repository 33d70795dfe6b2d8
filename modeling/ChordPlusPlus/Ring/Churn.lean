import ChordPlusPlus.Ring.Evolution

/-!
# Joins under churn

The deployment of `Dht.Maintenance`, now with nodes that start and crash at any time and with requests
that fail.  A crash loses everything a node knows; messages to it are lost, and messages that it has
sent may still arrive.

`join` reads through two optionals.  The node that serves `getDataItemsOnJoin` compares with its
predecessor, and the joining node sends that request to its successor.  `join_reads_present_iff` says
for every run when both are present, in terms of the events of the run alone.
-/

namespace ChordPlusPlus

open Run

/-- A deployment whose nodes start and crash. -/
structure Churn (N : Type*) extends System N where
  /-- Whether the process of the node runs. -/
  alive : N → Bool
  /-- The `getDataItemsOnJoin` requests in flight, with the new node and the asked one. -/
  requests : List (N × N)

/-- A step of some node, the delivery or the loss of a message, a start or a crash. -/
inductive Event (N : Type*)
  | start (n : N)
  | crash (n : N)
  | create
  | joinStart (n : N)
  /-- The answer of the bootstrap node, which may have found no successor. -/
  | joinAnswer (n : N) (answer : Option N)
  /-- The answer of the bootstrap node has no successor field. -/
  | joinRefused (n : N)
  /-- The request to the bootstrap node fails. -/
  | joinFailed (n : N)
  /-- The node `s` serves the handover; `received` if the new node gets the reply. -/
  | serveHandover (n s : N) (received : Bool)
  /-- The handover request fails. -/
  | handoverFailed (n : N)
  | dropRequest (n s : N)
  | storeItems (n : N)
  /-- The first half of `stabilize`; `answered` if the successor replies. -/
  | stabilizeRead (n : N) (answered : Bool)
  | stabilizeAct (n : N)
  | deliverNotify (sender receiver : N)
  | dropNotify (sender receiver : N)
  | fixFingersLookup (n : N) (result : Option N)
  | fixFingersSet (n : N)
  /-- `checkPredecessor`; `answered` if the predecessor replies. -/
  | checkPredecessor (n : N) (answered : Bool)

namespace Churn

variable {N : Type*} [DecidableEq N] [Endpoint N]

/-- Before any node has started. -/
def initial : Churn N where
  toSystem := System.initial
  alive := fun _ => false
  requests := []

/-- The answers that a lookup of `key` at the node `n` may give: its own tests decide, the next node
may not be online, and the hop loop may come back with anything. -/
def answerMay (st : Churn N) (n : N) (key : IdType) (answer : Option N) : Bool :=
  match PeerImpl.requested n (st.info n) key with
  | .thisNode => answer = some n
  | .nextNode s => answer = some s || answer = none
  | .otherNode => true

/-- A step of the running node `n` that does not depend on failures. -/
def regular (sha256 : Bytes → IdType) (bootstrap n : N) (a : Action N) (st : Churn N) :
    Option (Churn N) :=
  if st.alive n then
    (System.step sha256 bootstrap a st.toSystem).map fun sys => { st with toSystem := sys }
  else none

/-- One step. -/
def step (sha256 : Bytes → IdType) (bootstrap : N) : Event N → Churn N → Option (Churn N)
  | .start n, st =>
      if st.alive n then none
      else some { st with alive := Function.update st.alive n true }
  | .crash n, st =>
      if st.alive n then
        some { st with
          toSystem := ((st.toSystem.setInfo n NodeInformation.initial).setPhase n
            .idle).setNextFinger n 0
          alive := Function.update st.alive n false }
      else none
  | .create, st => regular sha256 bootstrap bootstrap .create st
  | .joinStart n, st => regular sha256 bootstrap n (.joinStart n) st
  | .joinAnswer n answer, st =>
      if st.alive n ∧ st.alive bootstrap ∧ st.phase n = .asking ∧
          st.answerMay bootstrap (getId n) answer then
        let info := (st.info n).setSuccessor answer
        match info.getSuccessor with
        | some s =>
            some { st with
              toSystem := (st.toSystem.setInfo n info).setPhase n .requesting
              requests := (n, s) :: st.requests }
        -- The address of an absent successor is read: no request is sent.
        | none => some { st with toSystem := (st.toSystem.setInfo n info).setPhase n .idle }
      else none
  | .joinRefused n, st => regular sha256 bootstrap n (.joinRefused n) st
  | .joinFailed n, st =>
      if st.alive n ∧ st.phase n = .asking then
        some { st with toSystem := st.toSystem.setPhase n .idle }
      else none
  | .serveHandover n s received, st =>
      if st.requests.contains (n, s) ∧ st.alive s ∧ (received → st.phase n = .requesting) then
        -- Where the absent predecessor is read, no item is handed over.
        let served := (PeerImpl.getDataItemsOnJoin sha256 s (st.info s) n).getD (st.info s, [])
        let sys := st.toSystem.setInfo s served.1
        some { st with
          toSystem := if received then sys.setPhase n (.storing served.2) else sys
          requests := st.requests.erase (n, s) }
      else none
  | .handoverFailed n, st =>
      if st.alive n ∧ st.phase n = .requesting then
        some { st with toSystem := st.toSystem.setPhase n .idle }
      else none
  | .dropRequest n s, st => some { st with requests := st.requests.erase (n, s) }
  | .storeItems n, st => regular sha256 bootstrap n (.storeItems n) st
  | .stabilizeRead n answered, st =>
      if answered then regular sha256 bootstrap n (.stabilizeRead n) st
      else if st.alive n ∧ st.phase n = .idle then
        match (st.info n).getSuccessor with
        | some s => some { st with toSystem := st.toSystem.setPhase n (.stabilizing s none) }
        | none => some st
      else none
  | .stabilizeAct n, st => regular sha256 bootstrap n (.stabilizeAct n) st
  | .deliverNotify sender receiver, st =>
      regular sha256 bootstrap receiver (.deliverNotify sender receiver) st
  | .dropNotify sender receiver, st =>
      some { st with toSystem := st.toSystem.setNotifies (st.notifies.erase (sender, receiver)) }
  | .fixFingersLookup n result, st =>
      if st.alive n ∧ st.phase n = .idle ∧
          st.answerMay n (st.toSystem.fingerStart n) result then
        some { st with toSystem := st.toSystem.setPhase n (.fixing result) }
      else none
  | .fixFingersSet n, st => regular sha256 bootstrap n (.fixFingersSet n) st
  | .checkPredecessor n answered, st =>
      if st.alive n ∧ st.phase n = .idle then
        if answered then some st
        else some { st with
          toSystem := st.toSystem.setInfo n ((st.info n).setPredecessor none) }
      else none

/-- The event reads through an absent optional on the join path. -/
def ReadsAbsent (e : Event N) (st : Churn N) : Prop :=
  match e with
  | .serveHandover _ s _ => (st.info s).predecessor = none
  | .joinAnswer n answer => ((st.info n).setSuccessor answer).getSuccessor = none
  | _ => False

/-! ## What the events of a run say -/

/-- Keeps track of the nodes that have received a `notify` since they last created or joined a ring,
crashed, or dropped a predecessor that did not answer. -/
def track (bootstrap : N) : Event N → (N → Bool) → N → Bool
  | .create, notified => Function.update notified bootstrap false
  | .joinStart n, notified => Function.update notified n false
  | .crash n, notified => Function.update notified n false
  | .checkPredecessor n false, notified => Function.update notified n false
  | .deliverNotify _ receiver, notified => Function.update notified receiver true
  | _, notified => notified

/-- The handover is served by a node that has been notified, and the bootstrap node has found a
successor. -/
def Permitted (notified : N → Bool) : Event N → Prop
  | .serveHandover _ s _ => notified s = true
  | .joinAnswer _ answer => answer ≠ none
  | _ => True

/-- Every event is permitted by the events before it. -/
def Orderly (bootstrap : N) : (N → Bool) → List (Event N) → Prop
  | _, [] => True
  | notified, e :: es => Permitted notified e ∧ Orderly bootstrap (track bootstrap e notified) es

/-! ## What one step does -/

variable {sha256 : Bytes → IdType} {b : N} {e : Event N} {st st' : Churn N}

/-- A step replaces the state of one node `m` by `info`.  Only nodes without fingers start to ask the
bootstrap node, and while they do their fingers stay as they are. -/
structure Effect (b : N) (e : Event N) (st st' : Churn N) (m : N) (info : NodeInformation N) :
    Prop where
  info_eq : st'.info = Function.update st.info m info
  asking : ∀ k, st'.phase k = .asking →
    st.phase k = .asking ∨ (st.info k).getSuccessor = none
  fingers : st'.phase m = .asking → info.fingerTable = (st.info m).fingerTable
  tracked : ∀ notified : N → Bool, notified m = (st.info m).predecessor.isSome →
    track b e notified = Function.update notified m info.predecessor.isSome

omit [Endpoint N] in
lemma asking_of_update {phase : N → Phase N} {n k : N} {p : Phase N} (hp : p ≠ .asking)
    (h : Function.update phase n p k = .asking) : phase k = .asking ∧ k ≠ n := by
  by_cases hk : k = n
  · subst hk
    rw [Function.update_self] at h
    exact absurd h hp
  · rw [Function.update_of_ne hk] at h
    exact ⟨h, hk⟩

omit [Endpoint N] in
/-- A step that moves `n` to a phase other than `asking` and may change the state of `n`. -/
lemma Effect.of_setPhase {n : N} {info : NodeInformation N} {p : Phase N} (hp : p ≠ .asking)
    (hinfo : st'.info = Function.update st.info n info)
    (hphase : st'.phase = Function.update st.phase n p)
    (htracked : ∀ notified : N → Bool, notified n = (st.info n).predecessor.isSome →
      track b e notified = Function.update notified n info.predecessor.isSome) :
    Effect b e st st' n info where
  info_eq := hinfo
  asking := by
    intro k hk
    rw [hphase] at hk
    exact Or.inl (asking_of_update hp hk).1
  fingers := by
    intro hn
    rw [hphase] at hn
    exact absurd rfl (asking_of_update hp hn).2
  tracked := htracked

omit [Endpoint N] in
/-- A step that leaves the phases alone and the fingers of the node it changes. -/
lemma Effect.of_fingerTable {m : N} {info : NodeInformation N}
    (hinfo : st'.info = Function.update st.info m info) (hphase : st'.phase = st.phase)
    (hfingers : info.fingerTable = (st.info m).fingerTable)
    (htracked : ∀ notified : N → Bool, notified m = (st.info m).predecessor.isSome →
      track b e notified = Function.update notified m info.predecessor.isSome) :
    Effect b e st st' m info where
  info_eq := hinfo
  asking := by
    intro k hk
    rw [hphase] at hk
    exact Or.inl hk
  fingers := fun _ => hfingers
  tracked := htracked

omit [Endpoint N] in
/-- An event that keeps the predecessor is not tracked. -/
lemma update_of_predecessor {m : N} {info : NodeInformation N} {notified : N → Bool}
    (h : notified m = (st.info m).predecessor.isSome)
    (hpred : info.predecessor = (st.info m).predecessor) :
    notified = Function.update notified m info.predecessor.isSome := by
  rw [hpred, ← h, Function.update_eq_self]

omit [Endpoint N] in
/-- A step that leaves the states of the nodes alone. -/
lemma Effect.of_info_eq (m : N) (hinfo : st'.info = st.info)
    (hasking : ∀ k, st'.phase k = .asking → st.phase k = .asking)
    (htrack : ∀ notified, track b e notified = notified) : Effect b e st st' m (st.info m) where
  info_eq := hinfo.trans (Function.update_eq_self m st.info).symm
  asking := fun k hk => Or.inl (hasking k hk)
  fingers := fun _ => rfl
  tracked := fun notified hm => (htrack notified).trans (update_of_predecessor hm rfl)

omit [Endpoint N] in
/-- A step that leaves the states of the nodes and their phases alone. -/
lemma exists_effect_of_same (n : N) (hinfo : st'.info = st.info) (hphase : st'.phase = st.phase)
    (htrack : ∀ notified, track b e notified = notified) : ∃ m info, Effect b e st st' m info :=
  ⟨n, _, .of_info_eq n hinfo (fun _ hk => hphase ▸ hk) htrack⟩

omit [Endpoint N] in
/-- A step that moves `n` to a phase other than `asking`. -/
lemma exists_effect_of_move {n : N} {p : Phase N} (hp : p ≠ .asking) (hinfo : st'.info = st.info)
    (hphase : st'.phase = Function.update st.phase n p)
    (htrack : ∀ notified, track b e notified = notified) : ∃ m info, Effect b e st st' m info := by
  refine ⟨n, _, .of_info_eq n hinfo ?_ htrack⟩
  intro k hk
  rw [hphase] at hk
  exact (asking_of_update hp hk).1

omit [Endpoint N] in
/-- A step that does so and may change the state of `n` except its predecessor. -/
lemma exists_effect_of_change {n : N} {info : NodeInformation N} {p : Phase N} (hp : p ≠ .asking)
    (hinfo : st'.info = Function.update st.info n info)
    (hphase : st'.phase = Function.update st.phase n p)
    (hpred : info.predecessor = (st.info n).predecessor)
    (htrack : ∀ notified, track b e notified = notified) : ∃ m info, Effect b e st st' m info := by
  refine ⟨n, info, .of_setPhase hp hinfo hphase ?_⟩
  intro notified hn
  exact (htrack notified).trans (update_of_predecessor hn hpred)

lemma regular_eq_some {n : N} {a : Action N} (h : regular sha256 b n a st = some st') :
    ∃ sys, System.step sha256 b a st.toSystem = some sys ∧ st' = { st with toSystem := sys } := by
  unfold regular at h
  split_ifs at h
  obtain ⟨sys, hsys, rfl⟩ := Option.map_eq_some_iff.mp h
  exact ⟨sys, hsys, rfl⟩

omit [DecidableEq N] in
/-- Serving the handover changes no pointer. -/
lemma served_pointers (s n : N) (info : NodeInformation N) :
    ((PeerImpl.getDataItemsOnJoin sha256 s info n).getD (info, [])).1.fingerTable =
        info.fingerTable ∧
      ((PeerImpl.getDataItemsOnJoin sha256 s info n).getD (info, [])).1.predecessor =
        info.predecessor := by
  rcases hserve : PeerImpl.getDataItemsOnJoin sha256 s info n with _ | ⟨info', items⟩
  · exact ⟨rfl, rfl⟩
  · exact PeerImpl.getDataItemsOnJoin_pointers hserve

omit [DecidableEq N] in
/-- A node that has been notified has a predecessor. -/
lemma isSome_predecessor_notify (s n : N) (info : NodeInformation N) :
    (PeerImpl.notify s info n).predecessor.isSome = true := by
  unfold PeerImpl.notify
  split
  · rfl
  · next p hp =>
    split_ifs
    · rfl
    · rw [hp]
      rfl

/-- Every step has such an effect. -/
lemma exists_effect (h : step sha256 b e st = some st') : ∃ m info, Effect b e st st' m info := by
  cases e with
  | start n =>
    simp only [step] at h
    split_ifs at h
    obtain rfl := Option.some.inj h
    exact exists_effect_of_same n rfl rfl fun _ => rfl
  | crash n =>
    simp only [step] at h
    split_ifs at h
    obtain rfl := Option.some.inj h
    exact ⟨n, NodeInformation.initial, .of_setPhase (p := .idle) (by simp) rfl rfl fun _ _ => rfl⟩
  | create =>
    obtain ⟨sys, hsys, rfl⟩ := regular_eq_some h
    obtain ⟨hidle, -, rfl⟩ := System.step_create hsys
    refine ⟨b, _, .of_setPhase (p := .idle) (by simp) rfl ?_ fun _ _ => rfl⟩
    exact (hidle ▸ Function.update_eq_self b st.phase).symm
  | joinStart n =>
    obtain ⟨sys, hsys, rfl⟩ := regular_eq_some h
    obtain ⟨-, -, hnone, rfl⟩ := System.step_joinStart hsys
    refine ⟨n, (st.info n).setPredecessor none, rfl, ?_, fun _ => rfl, fun _ _ => rfl⟩
    intro k hk
    by_cases hkn : k = n
    · exact Or.inr (hkn ▸ hnone)
    · exact Or.inl ((Function.update_of_ne hkn _ _).symm.trans hk)
  | joinAnswer n answer =>
    simp only [step] at h
    split_ifs at h
    split at h
    · obtain rfl := Option.some.inj h
      exact exists_effect_of_change (p := .requesting) (by simp) rfl rfl rfl fun _ => rfl
    · obtain rfl := Option.some.inj h
      exact exists_effect_of_change (p := .idle) (by simp) rfl rfl rfl fun _ => rfl
  | joinRefused n =>
    obtain ⟨sys, hsys, rfl⟩ := regular_eq_some h
    obtain ⟨-, rfl⟩ := System.step_joinRefused hsys
    exact exists_effect_of_change (p := .idle) (by simp) rfl rfl rfl fun _ => rfl
  | joinFailed n =>
    simp only [step] at h
    split_ifs at h
    obtain rfl := Option.some.inj h
    exact exists_effect_of_move (by simp) rfl rfl fun _ => rfl
  | serveHandover n s received =>
    simp only [step] at h
    split_ifs at h with hguard hreceived
    · obtain rfl := Option.some.inj h
      obtain ⟨hfingers, hpred⟩ := @served_pointers _ _ sha256 s n (st.info s)
      refine ⟨s, _, rfl, ?_, fun _ => hfingers, fun _ hn => update_of_predecessor hn hpred⟩
      intro k hk
      exact Or.inl (asking_of_update (by simp) hk).1
    · obtain rfl := Option.some.inj h
      obtain ⟨hfingers, hpred⟩ := @served_pointers _ _ sha256 s n (st.info s)
      exact ⟨s, _, .of_fingerTable rfl rfl hfingers fun _ hn => update_of_predecessor hn hpred⟩
  | handoverFailed n =>
    simp only [step] at h
    split_ifs at h
    obtain rfl := Option.some.inj h
    exact exists_effect_of_move (by simp) rfl rfl fun _ => rfl
  | dropRequest n s =>
    obtain rfl := Option.some.inj h
    exact exists_effect_of_same n rfl rfl fun _ => rfl
  | storeItems n =>
    obtain ⟨sys, hsys, rfl⟩ := regular_eq_some h
    obtain ⟨items, -, rfl⟩ := System.step_storeItems hsys
    exact exists_effect_of_change (p := .idle) (by simp) rfl rfl
      (PeerImpl.storeDataItems_predecessor _ _) fun _ => rfl
  | stabilizeRead n answered =>
    simp only [step] at h
    split_ifs at h
    · obtain ⟨sys, hsys, rfl⟩ := regular_eq_some h
      obtain ⟨-, ⟨s, -, rfl⟩ | rfl⟩ := System.step_stabilizeRead hsys
      · exact exists_effect_of_move (by simp) rfl rfl fun _ => rfl
      · exact exists_effect_of_same n rfl rfl fun _ => rfl
    · split at h
      · obtain rfl := Option.some.inj h
        exact exists_effect_of_move (by simp) rfl rfl fun _ => rfl
      · obtain rfl := Option.some.inj h
        exact exists_effect_of_same n rfl rfl fun _ => rfl
  | stabilizeAct n =>
    obtain ⟨sys, hsys, rfl⟩ := regular_eq_some h
    obtain ⟨s, q, -, ⟨-, rfl⟩ | ⟨x, -, -, -, rfl⟩ | ⟨-, -, rfl⟩⟩ := System.step_stabilizeAct hsys
    · exact exists_effect_of_move (by simp) rfl rfl fun _ => rfl
    · exact exists_effect_of_change (p := .idle) (by simp) rfl rfl rfl fun _ => rfl
    · exact exists_effect_of_move (by simp) rfl rfl fun _ => rfl
  | deliverNotify sender receiver =>
    obtain ⟨sys, hsys, rfl⟩ := regular_eq_some h
    obtain ⟨-, rfl⟩ := System.step_deliverNotify hsys
    refine ⟨receiver, _, .of_fingerTable rfl rfl (System.notify_fingerTable _ _ _) fun notified _ => ?_⟩
    rw [isSome_predecessor_notify]
    rfl
  | dropNotify sender receiver =>
    obtain rfl := Option.some.inj h
    exact exists_effect_of_same sender rfl rfl fun _ => rfl
  | fixFingersLookup n result =>
    simp only [step] at h
    split_ifs at h
    obtain rfl := Option.some.inj h
    exact exists_effect_of_move (by simp) rfl rfl fun _ => rfl
  | fixFingersSet n =>
    obtain ⟨sys, hsys, rfl⟩ := regular_eq_some h
    obtain ⟨r, -, rfl⟩ := System.step_fixFingersSet hsys
    exact exists_effect_of_change (p := .idle) (by simp) rfl rfl rfl fun _ => rfl
  | checkPredecessor n answered =>
    simp only [step] at h
    split_ifs at h with hguard hanswered
    · obtain rfl := Option.some.inj h
      subst hanswered
      exact exists_effect_of_same n rfl rfl fun _ => rfl
    · obtain rfl := Option.some.inj h
      obtain rfl : answered = false := by simpa using hanswered
      exact ⟨n, (st.info n).setPredecessor none, .of_fingerTable rfl rfl rfl fun _ _ => rfl⟩

/-! ## Runs -/

/-- The nodes with a predecessor are the tracked ones, and a node that asks the bootstrap node has no
finger. -/
structure Inv (notified : N → Bool) (st : Churn N) : Prop where
  predecessor : ∀ n, notified n = (st.info n).predecessor.isSome
  asking : ∀ n, st.phase n = .asking → ∀ i, (st.info n).fingerTable i = none

omit [DecidableEq N] [Endpoint N] in
lemma Inv.initial : Inv (fun _ => false) (Churn.initial : Churn N) where
  predecessor := fun _ => rfl
  asking := fun _ _ _ => rfl

lemma Inv.step {notified : N → Bool} (h : Inv notified st) (hstep : step sha256 b e st = some st') :
    Inv (track b e notified) st' := by
  obtain ⟨m, info, heffect⟩ := exists_effect hstep
  constructor
  · intro n
    rw [heffect.tracked notified (h.predecessor m), heffect.info_eq]
    by_cases hn : n = m
    · subst hn
      rw [Function.update_self, Function.update_self]
    · rw [Function.update_of_ne hn, Function.update_of_ne hn]
      exact h.predecessor n
  · intro n hn i
    have hold : (st.info n).fingerTable i = none := by
      rcases heffect.asking n hn with hasking | hnone
      · exact h.asking n hasking i
      · exact NodeInformation.getSuccessor_eq_none_iff.mp hnone i
    rw [heffect.info_eq]
    by_cases hnm : n = m
    · subst hnm
      rw [Function.update_self, heffect.fingers hn]
      exact hold
    · rw [Function.update_of_ne hnm]
      exact hold

/-- A step reads through an absent optional exactly when it is not permitted. -/
lemma Inv.readsAbsent_iff {notified : N → Bool} (h : Inv notified st)
    (hstep : Churn.step sha256 b e st = some st') : ReadsAbsent e st ↔ ¬ Permitted notified e := by
  cases e with
  | serveHandover n s received =>
    change (st.info s).predecessor = none ↔ ¬ notified s = true
    rw [h.predecessor s, Bool.not_eq_true, Option.isSome_eq_false_iff, Option.isNone_iff_eq_none]
  | joinAnswer n answer =>
    change ((st.info n).setSuccessor answer).getSuccessor = none ↔ ¬ answer ≠ none
    simp only [Churn.step] at hstep
    split_ifs at hstep with hguard
    have hfingers := h.asking n hguard.2.2.1
    rw [not_not, NodeInformation.getSuccessor_eq_none_iff]
    constructor
    · intro hnone
      exact (NodeInformation.setSuccessor_fingerTable_zero _ _).symm.trans (hnone 0)
    · rintro rfl i
      by_cases hi : i = 0
      · subst hi
        exact NodeInformation.setSuccessor_fingerTable_zero _ _
      · rw [NodeInformation.setSuccessor_fingerTable_ne _ hi]
        exact hfingers i
  | _ => exact iff_of_false id (not_not.mpr trivial)

lemma meets_iff_orderly {notified : N → Bool} {es : List (Event N)} (h : Inv notified st)
    (hrun : exec (step sha256 b) es st = some st') :
    Meets (step sha256 b) (fun e t => ¬ ReadsAbsent e t) es st ↔ Orderly b notified es := by
  induction es generalizing notified st with
  | nil => exact iff_of_true (fun _ _ _ _ hsplit => by simp at hsplit) trivial
  | cons e es ih =>
    obtain ⟨t, ht, hrest⟩ := exec_cons_eq_some.mp hrun
    rw [meets_cons, h.readsAbsent_iff ht, not_not, Orderly, ← ih (h.step ht) hrest]
    refine and_congr_right fun _ => ⟨fun hmeets => hmeets t ht, ?_⟩
    intro hmeets u hu
    obtain rfl := Option.some.inj (ht.symm.trans hu)
    exact hmeets

end Churn

open Churn

/-- A run of joins, crashes and maintenance reads no absent optional on the join path exactly when
every handover is served by a node that has received a `notify` since it last created or joined a
ring, crashed, or dropped its predecessor, and every answer of the bootstrap node names a node. -/
theorem join_reads_present_iff {N : Type*} [DecidableEq N] [Endpoint N] {sha256 : Bytes → IdType}
    {b : N} {es : List (Event N)} {st : Churn N}
    (hrun : exec (Churn.step sha256 b) es Churn.initial = some st) :
    Meets (Churn.step sha256 b) (fun e t => ¬ ReadsAbsent e t) es Churn.initial ↔
      Orderly b (fun _ => false) es :=
  meets_iff_orderly Inv.initial hrun

/-- The node `40…` creates the ring and notifies itself before `80…` joins. -/
def notifiedRun : List (Event IdType) :=
  [.start (idOf 0x40), .create, .stabilizeRead (idOf 0x40) true, .stabilizeAct (idOf 0x40),
    .deliverNotify (idOf 0x40) (idOf 0x40), .start (idOf 0x80), .joinStart (idOf 0x80),
    .joinAnswer (idOf 0x80) (some (idOf 0x40)), .serveHandover (idOf 0x80) (idOf 0x40) true]

theorem join_reads_present_notifiedRun :
    ∃ st, exec (Churn.step (fun _ => idOf 0) (idOf 0x40)) notifiedRun Churn.initial = some st ∧
      Meets (Churn.step (fun _ => idOf 0) (idOf 0x40)) (fun e t => ¬ ReadsAbsent e t) notifiedRun
        Churn.initial := by
  have hisSome : (exec (Churn.step (fun _ => idOf 0) (idOf 0x40)) notifiedRun
      Churn.initial).isSome = true := by decide +kernel
  obtain ⟨st, hrun⟩ := Option.isSome_iff_exists.mp hisSome
  have hne : idOf 0x40 ≠ idOf 0x80 := by decide
  refine ⟨st, hrun, (join_reads_present_iff hrun).mpr ?_⟩
  simp [notifiedRun, Orderly, Permitted, track, hne]

/-- The node `80…` joins before `40…`, which has created the ring, has notified itself. -/
def earlyHandover : List (Event IdType) :=
  [.start (idOf 0x40), .create, .start (idOf 0x80), .joinStart (idOf 0x80),
    .joinAnswer (idOf 0x80) (some (idOf 0x40)), .serveHandover (idOf 0x80) (idOf 0x40) true]

/-- The node `80…` joins before `40…` has created the ring. -/
def earlyJoin : List (Event IdType) :=
  [.start (idOf 0x40), .start (idOf 0x80), .joinStart (idOf 0x80), .joinAnswer (idOf 0x80) none]

theorem join_reads_absent :
    (∃ st, exec (Churn.step (fun _ => idOf 0) (idOf 0x40)) earlyHandover Churn.initial = some st ∧
        ¬ Meets (Churn.step (fun _ => idOf 0) (idOf 0x40)) (fun e t => ¬ ReadsAbsent e t)
          earlyHandover Churn.initial) ∧
      ∃ st, exec (Churn.step (fun _ => idOf 0) (idOf 0x40)) earlyJoin Churn.initial = some st ∧
        ¬ Meets (Churn.step (fun _ => idOf 0) (idOf 0x40)) (fun e t => ¬ ReadsAbsent e t)
          earlyJoin Churn.initial := by
  constructor
  · have hisSome : (exec (Churn.step (fun _ => idOf 0) (idOf 0x40)) earlyHandover
        Churn.initial).isSome = true := by decide +kernel
    obtain ⟨st, hrun⟩ := Option.isSome_iff_exists.mp hisSome
    refine ⟨st, hrun, ?_⟩
    rw [meets_iff_orderly Inv.initial hrun]
    simp [earlyHandover, Orderly, Permitted, track]
  · have hisSome : (exec (Churn.step (fun _ => idOf 0) (idOf 0x40)) earlyJoin
        Churn.initial).isSome = true := by decide +kernel
    obtain ⟨st, hrun⟩ := Option.isSome_iff_exists.mp hisSome
    refine ⟨st, hrun, ?_⟩
    rw [meets_iff_orderly Inv.initial hrun]
    simp [earlyJoin, Orderly, Permitted]

end ChordPlusPlus
