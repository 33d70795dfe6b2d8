import ChordPlusPlus.Dht.MainLoop
import ChordPlusPlus.Storage.HashedItems
import ChordPlusPlus.Storage.Join
import ChordPlusPlus.Storage.ReadYourWrites
import Mathlib.Data.Set.Card

/-!
# Read your writes while the ring grows

A join hands items over to the new node, and rounds their expiry dates down to the second.  Between two
joins the deployment refines the map of its clients; a join keeps this relation, with the dates of the
items that it has moved rounded.  Rounding twice is rounding once, so however many nodes join, an item
is lost at most one second early.

`Members` says what the nodes outside a ring are like while at most one node joins.  Together with an
ideal ring it gives a settled one, so that the next join starts from where the last one has ended.
-/

namespace ChordPlusPlus

open Pointers Run

variable {N : Type*}

/-- The step is one of maintenance, or one that `n` takes while it joins. -/
inductive Action.DuringJoin (n : N) : Action N → Prop
  | maintenance {a : Action N} : a.IsMaintenance → DuringJoin n a
  | joinStart : DuringJoin n (.joinStart n)
  | joinAnswer (s : N) : DuringJoin n (.joinAnswer n s)
  | handover : DuringJoin n (.handover n)
  | storeItems : DuringJoin n (.storeItems n)

namespace NodeInformation

/-- A node without state has no finger to drop. -/
lemma initial_setFinger (i : Fin keyBits) :
    (initial : NodeInformation N).setFinger i none = initial := by
  rw [setFinger, show (none : Option N) = initial.fingerTable i from rfl, Function.update_eq_self]

end NodeInformation

variable [Endpoint N]

namespace System

variable {b n m p s : N} {ring : Finset N} {a : Action N} {sys sys' : System N}

/-! ## The nodes outside the ring -/

/-- Only the nodes of `ring` have any state, and no node other than `n` is joining. -/
structure Members (b n : N) (ring : Finset N) (sys : System N) : Prop where
  pointers : PointerInv b sys
  fingers : FingersJoined sys
  outside : ∀ m ∉ ring, sys.info m = NodeInformation.initial
  not_joining : ∀ m ≠ n, ¬ (sys.phase m).InJoin

lemma Members.not_joined (h : Members b n ring sys) (hm : m ∉ ring) : ¬ sys.Joined m := by
  rw [Joined, succ, h.outside m hm]
  exact not_not.mpr rfl

/-- Two nodes of which one is remembered as the predecessor of the other have joined. -/
lemma PointerInv.joined_of_knows (hinv : PointerInv b sys) (h : sys.Knows p s) :
    sys.Joined p ∧ sys.Joined s := by
  have hpath := hinv.knows p s h
  obtain ⟨q, hq⟩ := hpath.exists_last
  exact ⟨hpath.isSome, hinv.succ_joined q s hq⟩

/-- An ideal ring of which only the nodes have any state is settled when no node is joining. -/
lemma Members.settled {method : N → GetSuccessorMethod} (h : Members b n ring sys)
    (hideal : IsIdeal (sys.network method) ring) (hn : ¬ (sys.phase n).InJoin) :
    Settled method ring sys where
  ideal := hideal
  outside := h.outside
  not_joining := by
    intro m
    by_cases hmn : m = n
    · exact hmn ▸ hn
    · exact h.not_joining m hmn
  stabilizing := h.pointers.stabilizing
  read := by
    intro m t x hphase
    by_contra hx
    exact h.not_joined hx (h.pointers.joined_of_knows (Or.inr (Or.inr ⟨m, hphase⟩))).1
  fixing := h.pointers.fixing
  found := by
    intro m f hphase
    by_contra hf
    exact h.not_joined hf (h.fingers.fixing m f hphase)
  messages := by
    intro q t hmem
    have hjoined := h.pointers.joined_of_knows (Or.inr (Or.inl hmem))
    constructor
    · by_contra hq
      exact h.not_joined hq hjoined.1
    · by_contra ht
      exact h.not_joined ht hjoined.2

/-- The nodes outside a settled ring have no state. -/
lemma Settled.members {method : N → GetSuccessorMethod} {ring' : Finset N}
    (h : Settled method ring sys) (hb : b ∈ ring) (hsub : ring ⊆ ring') (n : N) :
    Members b n ring' sys where
  pointers := h.pointerInv hb
  fingers := h.fingersJoined
  outside := fun m hm => h.outside m fun hmem => hm (hsub hmem)
  not_joining := fun m _ => h.not_joining m

variable [DecidableEq N] {sha256 : Bytes → IdType}

/-- A node that has no state and does not join by the step has no state afterwards either. -/
lemma info_of_outsider (hinv : PointerInv b sys) (hstore : a ≠ .storeItems m)
    (h : step sha256 b a sys = some sys') (hm : ¬ sys'.Joined m)
    (hinit : sys.info m = NodeInformation.initial) : sys'.info m = NodeInformation.initial := by
  have hold : ¬ sys.Joined m := fun hjoined => hm (joined_step hinv h hjoined)
  have hother : ∀ {t : N} {info : NodeInformation N}, sys'.info = (sys.setInfo t info).info →
      (t = m → info = NodeInformation.initial) → sys'.info m = NodeInformation.initial := by
    intro t info heq hinfo
    rw [heq, setInfo_info]
    by_cases hmt : t = m
    · rw [← hmt, Function.update_self]
      exact hinfo hmt
    · rwa [Function.update_of_ne (Ne.symm hmt)]
  cases a with
  | create =>
    obtain ⟨-, -, rfl⟩ := step_create h
    refine hother rfl fun hbm => absurd ?_ hm
    simp [Joined, ← hbm]
  | joinStart t =>
    obtain ⟨-, -, -, rfl⟩ := step_joinStart h
    refine hother rfl fun htm => ?_
    rw [htm, hinit]
    rfl
  | joinAnswer t s =>
    obtain ⟨-, -, rfl⟩ := step_joinAnswer h
    refine hother rfl fun htm => absurd ?_ hm
    simp [Joined, ← htm]
  | joinRefused t =>
    obtain ⟨-, rfl⟩ := step_joinRefused h
    refine hother rfl fun htm => ?_
    rw [htm, hinit]
    exact NodeInformation.initial_setFinger 0
  | handover t =>
    obtain ⟨-, s, items, info, hs, -, -, -, rfl⟩ := step_handover h
    refine hother rfl fun hsm => absurd ?_ hold
    rw [hinv.getSuccessor_eq] at hs
    exact hsm ▸ hinv.succ_joined t s hs
  | storeItems t =>
    obtain ⟨items, -, rfl⟩ := step_storeItems h
    exact hother rfl fun htm => absurd (htm ▸ rfl) hstore
  | stabilizeRead t =>
    obtain ⟨-, ⟨_, -, rfl⟩ | rfl⟩ := step_stabilizeRead h
    · exact hinit
    · exact hinit
  | stabilizeAct t =>
    obtain ⟨s, q, hphase, ⟨-, rfl⟩ | ⟨x, -, -, -, rfl⟩ | ⟨-, -, rfl⟩⟩ := step_stabilizeAct h
    · exact hinit
    · refine hother rfl fun htm => absurd ?_ hm
      simp [Joined, ← htm]
    · exact hinit
  | deliverNotify q t =>
    obtain ⟨hmem, rfl⟩ := step_deliverNotify h
    refine hother rfl fun htm => absurd ?_ hold
    exact htm ▸ (hinv.joined_of_knows (Or.inr (Or.inl hmem))).2
  | fixFingersLookup t r =>
    obtain ⟨-, -, rfl⟩ := step_fixFingersLookup h
    exact hinit
  | fixFingersSet t =>
    obtain ⟨r, hphase, rfl⟩ := step_fixFingersSet h
    refine hother rfl fun htm => ?_
    subst htm
    have hnone := not_not.mp hold
    rw [hinit, hinv.fixing t r hphase (Or.inr hnone), hnone]
    exact NodeInformation.initial_setFinger _
  | checkPredecessor t =>
    obtain rfl := step_checkPredecessor h
    exact hinit

/-- A step of maintenance does not start a join. -/
lemma not_inJoin_of_isMaintenance (ha : a.IsMaintenance) (h : step sha256 b a sys = some sys')
    (hm : ¬ (sys.phase m).InJoin) : ¬ (sys'.phase m).InJoin := by
  rcases phase_cases h m with heq | hmove
  · rwa [heq]
  · generalize sys.phase m = old, sys'.phase m = new at *
    cases hmove <;> first | exact ha.elim | exact id

/-- While `n` joins, the nodes outside the ring with `n` stay without state. -/
lemma Members.step (h : Members b n ring sys) (hn : n ∈ ring) (ha : a.DuringJoin n)
    (hstep : System.step sha256 b a sys = some sys') : Members b n ring sys' where
  pointers := h.pointers.step hstep
  fingers := h.fingers.step h.pointers hstep
  outside := by
    intro m hm
    have hmn : m ≠ n := fun heq => hm (heq ▸ hn)
    refine info_of_outsider h.pointers ?_ hstep ?_ (h.outside m hm)
    · rintro rfl
      cases ha with
      | maintenance ha => exact ha
      | storeItems => exact hmn rfl
    · -- Only `n` can enter.
      have hold := h.not_joined hm
      rw [Joined, not_not] at hold ⊢
      cases succ_step h.pointers hstep with
      | same heq => rwa [heq]
      | created hact _ _ =>
        subst hact
        cases ha with
        | maintenance ha => exact ha.elim
      | joined t u hact _ _ heq =>
        subst hact
        cases ha with
        | maintenance ha => exact ha.elim
        | joinAnswer => rwa [heq, Function.update_of_ne hmn]
      | shortened t u x _ _ ht _ heq =>
        have hmt : m ≠ t := by
          rintro rfl
          rw [hold] at ht
          cases ht
        rwa [heq, Function.update_of_ne hmt]
  not_joining := by
    intro m hmn
    have hold := h.not_joining m hmn
    cases ha with
    | maintenance ha => exact not_inJoin_of_isMaintenance ha hstep hold
    | joinStart | joinAnswer | handover | storeItems =>
      rcases phase_cases hstep m with heq | hmove
      · rwa [heq]
      · obtain ⟨point, hthread⟩ := hmove.exists_thread b
        exact absurd (Prod.mk.inj (Option.some.inj hthread)).1.symm hmn

/-! ## Settled rings stay settled, and grow -/

/-- Maintenance moves no pointer of a settled ring. -/
lemma Settled.pointers_step {method : N → GetSuccessorMethod} (h : Settled method ring sys)
    (hb : b ∈ ring) (ha : a.IsMaintenance) (hstep : System.step sha256 b a sys = some sys') :
    sys'.succ = sys.succ ∧ sys'.pred = sys.pred := by
  have hinv := h.pointerInv hb
  constructor
  · cases succ_step hinv hstep with
    | same heq => exact heq
    | created hact _ _ => exact (hact ▸ ha).elim
    | joined _ _ hact _ _ _ => exact (hact ▸ ha).elim
    | shortened t u x _ hphase ht hopen _ =>
      have htmem : t ∈ ring := h.joined_iff.mp (by rw [Joined, ht]; exact Option.some_ne_none u)
      obtain ⟨v, hv, hnext⟩ := h.ideal.successor t htmem
      obtain rfl : u = v := Option.some.inj (ht.symm.trans hv)
      exact absurd hopen (hnext.between x (h.read t u x hphase))
  · cases pred_step hinv hstep with
    | same heq => exact heq
    | moved q t _ hmem hcase _ _ =>
      obtain ⟨hq, ht⟩ := h.messages q t hmem
      rcases hcase with hnone | ⟨r, hr, hopen⟩
      · obtain ⟨r, hr, -⟩ := h.ideal.predecessor t ht
        exact absurd (hr.symm.trans hnone) (Option.some_ne_none r)
      · exact absurd hopen ((h.isNext_of_pred hr).between q hq)

/-- Maintenance keeps a ring settled. -/
lemma Settled.maintain {method : N → GetSuccessorMethod} (h : Settled method ring sys)
    (hb : b ∈ ring) (ha : a.IsMaintenance) (hstep : System.step sha256 b a sys = some sys') :
    Settled method ring sys' := by
  have hmembers := (h.members hb subset_rfl b).step hb (.maintenance ha) hstep
  obtain ⟨hsucc, hpred⟩ := h.pointers_step hb ha hstep
  refine hmembers.settled ⟨h.ideal.nonempty, fun _ _ => rfl, ?_, ?_, ?_⟩
    (not_inJoin_of_isMaintenance ha hstep (h.not_joining b))
  · intro m hm
    obtain ⟨t, ht, hnext⟩ := h.ideal.successor m hm
    exact ⟨t, (congrFun hsucc m).trans ht, hnext⟩
  · intro m hm
    obtain ⟨q, hq, hnext⟩ := h.ideal.predecessor m hm
    exact ⟨q, (congrFun hpred m).trans hq, hnext⟩
  · intro m _ i f hf
    by_contra hnot
    exact hmembers.not_joined hnot (hmembers.fingers.finger m i f hf)

/-- A join, interleaved with any maintenance, leads from a settled ring to a settled ring with the new
node added. -/
lemma Settled.join {method : N → GetSuccessorMethod} (h : Settled method ring sys) (hb : b ∈ ring)
    (hn : n ∉ ring) (hp : sys.pred s = some p) (hopen : Arc.Open (getId p) (getId n) (getId s))
    {as : List (Action N)} (hweave : Weave Action.IsMaintenance (joinActions p n s) as)
    (hexec : exec (System.step sha256 b) as sys = some sys') :
    Settled method (insert n ring) sys' := by
  have hideal := (join_run h hb hn hp hopen hweave hexec).1
  have hmem := Finset.mem_insert_self n ring
  have hmaintain : ∀ a t t', Action.IsMaintenance a → Members b n (insert n ring) t →
      System.step sha256 b a t = some t' → Members b n (insert n ring) t' :=
    fun _ _ _ ha ht hstep => ht.step hmem (.maintenance ha) hstep
  have hstart := h.members hb (Finset.subset_insert n ring) n
  obtain ⟨_, _, _, ht, hstep, hweave, hexec⟩ := hweave.exec_cons hmaintain hstart hexec
  obtain ⟨_, _, _, ht, hstep, hweave, hexec⟩ :=
    hweave.exec_cons hmaintain (ht.step hmem .joinStart hstep) hexec
  obtain ⟨_, _, _, ht, hstep, hweave, hexec⟩ :=
    hweave.exec_cons hmaintain (ht.step hmem (.joinAnswer s) hstep) hexec
  obtain ⟨t, u, _, ht, hstep, hweave, hexec⟩ :=
    hweave.exec_cons hmaintain (ht.step hmem .handover hstep) hexec
  -- What is left is maintenance, which does not start a join.
  have hidle : ¬ (u.phase n).InJoin := by
    obtain ⟨_, -, rfl⟩ := step_storeItems hstep
    simp [Phase.InJoin]
  obtain ⟨hmembers, hphase⟩ : Members b n (insert n ring) sys' ∧ ¬ (sys'.phase n).InJoin := by
    refine hweave.exec_all (P := fun t => Members b n (insert n ring) t ∧ ¬ (t.phase n).InJoin) ?_
      (by simp [Action.IsMaintenance]) ⟨ht.step hmem .storeItems hstep, hidle⟩ hexec
    rintro a t t' ha ⟨ht, hphase⟩ hstep
    exact ⟨hmaintain a t t' ha ht hstep, not_inJoin_of_isMaintenance ha hstep hphase⟩
  exact hmembers.settled hideal hphase

omit [DecidableEq N] in
/-- Requests change the stores of a settled ring, which stays settled. -/
lemma Settled.withInfo {method : N → GetSuccessorMethod} (h : Settled method ring sys)
    {info : N → NodeInformation N}
    (hfinger : ∀ m, (info m).fingerTable = (sys.info m).fingerTable)
    (hpred : ∀ m, (info m).predecessor = (sys.info m).predecessor)
    (hout : ∀ m ∉ ring, info m = sys.info m) :
    Settled method ring { sys with info := info } := by
  have hsucc : ({ sys with info := info } : System N).succ = sys.succ := by
    funext m
    exact congrFun (hfinger m) 0
  refine ⟨h.ideal.congr (fun _ _ => rfl) (fun m _ => hfinger m) (fun m _ => hpred m),
    fun m hm => (hout m hm).trans (h.outside m hm), h.not_joining, ?_, h.read, ?_, h.found,
    h.messages⟩
  · rw [hsucc]
    exact h.stabilizing
  · rw [hsucc]
    exact h.fixing

end System

namespace Network

variable [DecidableEq N] {net : Network N} {ring : Finset N}

/-- A put on an ideal ring reaches only nodes of the ring. -/
lemma put_info_of_notMem (h : IsIdeal net ring) {self : N} (hself : self ∈ ring) (ctx : PutContext)
    (hfuel : ring.card + 3 ≤ ctx.fuel) (storedKey : Bytes → Bytes) (key value : Bytes)
    (ttl : UInt16) (replication : UInt8) {m : N} (hm : m ∉ ring) :
    (net.put ctx self storedKey key value ttl replication).info m = net.info m := by
  let P : Network N → Prop := fun net' => IsIdeal net' ring ∧ net'.info m = net.info m
  have hset : ∀ net' node now id k,
      net'.dhtGetSuccessor ctx.fuel self id = some node → P net' →
      P (net'.setData self node now k value ttl) := by
    rintro net' node now id k hnode ⟨hideal, hinfo⟩
    obtain ⟨s, hown⟩ := @Arc.exists_owns N IdType _ getId _ hideal.nonempty id
    rw [hideal.dhtGetSuccessor_eq hself hown hfuel] at hnode
    obtain rfl := Option.some.inj hnode
    have hms : m ≠ s := fun heq => hm (heq ▸ hown.mem)
    refine ⟨(net'.setData_sameExcept self s now k value ttl).isIdeal hideal, ?_⟩
    rw [setData_info_of_ne net' self hms, hinfo]
  obtain ⟨s, hown⟩ := @Arc.exists_owns N IdType _ getId _ h.nonempty (ctx.sha256 key)
  have hsucc := h.dhtGetSuccessor_eq hself hown hfuel
  have hitem : P (net.setData self s (ctx.now 0) (storedKey key) value ttl) :=
    hset net s _ _ _ hsucc ⟨h, rfl⟩
  unfold put
  simp only [hsucc]
  split_ifs
  · exact (putReplicas_induction (P := P)
      (fun net' node now j hnode hP => hset net' node now _ _ hnode hP) _ _ _ hitem).2
  · exact hitem.2

end Network

/-! ## Rounded dates -/

/-- The date to which a handover rounds is not later, if it is after the epoch. -/
lemma expiresHandedOver_le {e : TimePoint} (h : 0 < expiresHandedOver e) : expiresHandedOver e ≤ e := by
  have hround := toInt_expiresHandedOver e
  rw [tdiv_second] at hround
  rw [Int64.lt_iff_toInt_lt, show (0 : Int64).toInt = 0 from rfl] at h
  rw [Int64.le_iff_toInt_le]
  split_ifs at hround <;> omega

/-- Handing an item over again does not round its date again. -/
lemma expiresHandedOver_idem (e : TimePoint) :
    expiresHandedOver (expiresHandedOver e) = expiresHandedOver e := by
  apply Int64.toInt_inj.mp
  rw [toInt_expiresHandedOver, toInt_expiresHandedOver, Int.mul_tdiv_cancel _ (by decide)]

/-- Neither a date nor the date to which it is rounded is reached one second before it. -/
lemma le_of_lasts {t e e' : TimePoint} (ht : 0 < t) (hlasts : t.toInt + 1000000000 ≤ e.toInt)
    (hdate : e' = e ∨ e' = expiresHandedOver e) : t ≤ e' := by
  have hround := toInt_expiresHandedOver e
  rw [Int64.lt_iff_toInt_lt, show (0 : Int64).toInt = 0 from rfl] at ht
  rw [Int.tdiv_eq_ediv_of_nonneg (by omega)] at hround
  rw [Int64.le_iff_toInt_le]
  rcases hdate with rfl | rfl
  · omega
  · omega

/-- The values in `w'` are those in `w`, with some of the stored dates rounded. -/
structure Rounded (w w' : Written) : Prop where
  absent : ∀ key, w key = none → w' key = none
  present : ∀ key v e, w key = some (v, e) → ∃ e', w' key = some (v, e') ∧
    (storedExpiry e' = storedExpiry e ∨ storedExpiry e' = expiresHandedOver (storedExpiry e))

/-- The dates of the items that a handover moves are rounded. -/
def Written.handOver (w : Written) (moved : Bytes → Prop) [DecidablePred moved] : Written :=
  fun key => if moved key then
    (w key).map fun item => (item.1, some (expiresHandedOver (storedExpiry item.2)))
  else w key

lemma Rounded.handOver {w w' : Written} (h : Rounded w w') (moved : Bytes → Prop)
    [DecidablePred moved] : Rounded w (Written.handOver w' moved) where
  absent := by
    intro key hkey
    simp [Written.handOver, h.absent key hkey]
  present := by
    intro key v e hkey
    obtain ⟨e', he', hdate⟩ := h.present key v e hkey
    by_cases hmoved : moved key
    · refine ⟨some (expiresHandedOver (storedExpiry e')), by simp [Written.handOver, hmoved, he'], ?_⟩
      right
      change expiresHandedOver (storedExpiry e') = _
      rcases hdate with hdate | hdate
      · rw [hdate]
      · rw [hdate, expiresHandedOver_idem]
    · exact ⟨e', by simp [Written.handOver, hmoved, he'], hdate⟩

lemma Rounded.update {w w' : Written} (h : Rounded w w') (key : Bytes)
    (item : Bytes × Option TimePoint) :
    Rounded (Function.update w key (some item)) (Function.update w' key (some item)) where
  absent := by
    intro k hk
    by_cases hkk : k = key
    · subst hkk
      simp at hk
    · rw [Function.update_of_ne hkk] at hk ⊢
      exact h.absent k hk
  present := by
    intro k v e hk
    by_cases hkk : k = key
    · subst hkk
      exact ⟨e, by simpa using hk, Or.inl rfl⟩
    · rw [Function.update_of_ne hkk] at hk ⊢
      exact h.present k v e hk

lemma Rounded.refl (w : Written) : Rounded w w :=
  ⟨fun _ h => h, fun _ _ e h => ⟨e, h, Or.inl rfl⟩⟩

/-! ## The deployment -/

/-- A deployment in operation: the state of its nodes and their main loops, the replication indices
that each process has seen, and the latest reading of the clock. -/
structure GrowingCluster (N P : Type*) extends System N where
  indices : P → List UInt8
  clock : TimePoint

namespace GrowingCluster

variable {P : Type*}

/-- The deployment as the request handlers see it. -/
def cluster (d : GrowingCluster N P) (method : N → GetSuccessorMethod) : Cluster N P :=
  ⟨d.network method, d.indices, d.clock⟩

/-- The deployment after a request, which leaves the main loops alone. -/
def withCluster (d : GrowingCluster N P) (c : Cluster N P) : GrowingCluster N P :=
  ⟨{ d.toSystem with info := c.net.info }, c.indices, c.clock⟩

variable [DecidableEq N] [DecidableEq P]

section Steps

variable (sha256 : Bytes → IdType) (bootstrap : N) (method : N → GetSuccessorMethod) (fuel : ℕ)
  (replicationLimit : UInt8) (process : N → P)

/-- One step of the deployment, and what it means to the clients. -/
inductive Step : GrowingCluster N P × Written → GrowingCluster N P × Written → Prop
  /-- A `DHT_PUT` of a 32-byte key at some node of the ring. -/
  | put {d : GrowingCluster N P} {w : Written} (m : N) (key value : Bytes) (ttl : UInt16)
      (replication : UInt8) (now : ℕ → TimePoint) (clock : TimePoint) :
      d.Joined m → key.length = 32 → (∀ i, d.clock ≤ now i ∧ now i ≤ clock) →
      Step (d, w)
        (d.withCluster ((d.cluster method).put sha256 fuel replicationLimit process m key value ttl
          replication now clock), Function.update w key (some (value, putExpiry (now 0) ttl)))
  /-- A pass of the data cleaner of some node. -/
  | clean {d : GrowingCluster N P} {w : Written} (m : N) (now : ℕ → TimePoint) (clock : TimePoint) :
      (∀ i, d.clock ≤ now i ∧ now i ≤ clock) →
      Step (d, w) (d.withCluster ((d.cluster method).clean m now clock), w)
  /-- A step of maintenance at some node, or the delivery of a message. -/
  | maintain {d : GrowingCluster N P} {w : Written} {sys : System N} (a : Action N) :
      a.IsMaintenance → System.step sha256 bootstrap a d.toSystem = some sys →
      Step (d, w) (⟨sys, d.indices, d.clock⟩, w)
  /-- A node joins before the node `s` that the bootstrap node finds for it, interleaved with any
  maintenance. -/
  | join {d : GrowingCluster N P} {w : Written} {sys : System N} (n p s : N) (as : List (Action N))
      (clock : TimePoint) :
      ¬ d.Joined n → (d.network method).Resolves bootstrap (getId n) (.ok (some s)) →
      d.pred s = some p → Weave Action.IsMaintenance (joinActions p n s) as →
      exec (System.step sha256 bootstrap) as d.toSystem = some sys → d.clock ≤ clock →
      Step (d, w) (⟨sys, d.indices, clock⟩, w)

/-- The refinement relation between the deployment on `ring` and the map of its clients: the stores
hold what has been put, with the dates of some items rounded. -/
structure Refines (fresh : Bytes → Prop) (ring : Finset N) (d : GrowingCluster N P) (w : Written) :
    Prop where
  settled : System.Settled method ring d.toSystem
  bootstrap_mem : bootstrap ∈ ring
  clock_pos : 0 < d.clock
  refines : ∃ w', Rounded w w' ∧ Cluster.Refines sha256 ring fresh (d.cluster method) w'

end Steps

variable {sha256 : Bytes → IdType} {b : N} {method : N → GetSuccessorMethod} {fuel : ℕ}
  {replicationLimit : UInt8} {process : N → P} {fresh : Bytes → Prop} {ring : Finset N}
  {d : GrowingCluster N P} {w : Written}

omit [Endpoint N] [DecidableEq N] [DecidableEq P] in
lemma cluster_withCluster {c : Cluster N P} (hanswers : c.net.answers = fun _ => true)
    (hmethod : c.net.method = method) : (d.withCluster c).cluster method = c := by
  obtain ⟨⟨info, answers, method'⟩, indices, clock⟩ := c
  obtain rfl : answers = fun _ => true := hanswers
  obtain rfl : method' = method := hmethod
  rfl

omit [DecidableEq N] [DecidableEq P] in
/-- After a request that leaves the pointers and the nodes outside the ring alone, the ring is
settled. -/
lemma Refines.withCluster (h : Refines sha256 b method fresh ring d w) {c : Cluster N P}
    {w' : Written} (hsame : SameExcept (fun _ => True) (d.network method) c.net)
    (hout : ∀ m ∉ ring, c.net.info m = d.info m) (hclock : d.clock ≤ c.clock) {w'' : Written}
    (hround : Rounded w' w'') (href : Cluster.Refines sha256 ring fresh c w'') :
    Refines sha256 b method fresh ring (d.withCluster c) w' where
  settled := h.settled.withInfo hsame.fingerTable hsame.predecessor hout
  bootstrap_mem := h.bootstrap_mem
  clock_pos := Int64.lt_of_lt_of_le h.clock_pos hclock
  refines := by
    have hcluster : (d.withCluster c).cluster method = c :=
      cluster_withCluster hsame.answers hsame.method
    exact ⟨w'', hround, hcluster ▸ href⟩

variable (replicationLimit process) in
lemma Refines.put (h : Refines sha256 b method fresh ring d w) (hfuel : ring.card + 3 ≤ fuel)
    {m : N} (hm : d.Joined m) {key : Bytes} (hkey : key.length = 32) (value : Bytes)
    (ttl : UInt16) (replication : UInt8) {now : ℕ → TimePoint} {clock : TimePoint}
    (hnow : ∀ i, d.clock ≤ now i ∧ now i ≤ clock) :
    Refines sha256 b method fresh ring
      (d.withCluster ((d.cluster method).put sha256 fuel replicationLimit process m key value ttl
        replication now clock)) (Function.update w key (some (value, putExpiry (now 0) ttl))) := by
  obtain ⟨w', hround, href⟩ := h.refines
  have hmem := h.settled.joined_iff.mp hm
  obtain ⟨s, hown⟩ := @Arc.exists_owns N IdType _ getId _ h.settled.ideal.nonempty (sha256 key)
  have hsame := (@IsIdeal.put_spec _ _ _ _ _ h.settled.ideal m s hmem
    ⟨sha256, fuel, replicationLimit, now⟩ hfuel id key hown value ttl replication).1
  refine h.withCluster (hsame.mono fun _ _ => trivial) ?_
    (Int64.le_trans (hnow 0).1 (hnow 0).2) (hround.update key _)
    (href.put hfuel hmem hkey value ttl replication hnow)
  intro m' hm'
  exact Network.put_info_of_notMem h.settled.ideal hmem ⟨sha256, fuel, replicationLimit, now⟩ hfuel
    id key value ttl replication hm'

omit [DecidableEq P] in
lemma Refines.clean (h : Refines sha256 b method fresh ring d w) (m : N) {now : ℕ → TimePoint}
    {clock : TimePoint} (hnow : ∀ i, d.clock ≤ now i ∧ now i ≤ clock) :
    Refines sha256 b method fresh ring (d.withCluster ((d.cluster method).clean m now clock)) w := by
  obtain ⟨w', hround, href⟩ := h.refines
  have hinfo : ∀ m', ((d.cluster method).clean m now clock).net.info m' =
      if m' = m then (d.info m).dataCleanerPass now else d.info m' := by
    intro m'
    exact Function.update_apply ..
  refine h.withCluster ⟨rfl, rfl, ?_, ?_, fun _ _ hk => absurd trivial hk⟩ ?_
    (Int64.le_trans (hnow 0).1 (hnow 0).2) hround (href.clean m hnow)
  · intro m'
    rw [hinfo]
    split_ifs with hm
    · rw [hm]
      rfl
    · rfl
  · intro m'
    rw [hinfo]
    split_ifs with hm
    · rw [hm]
      rfl
    · rfl
  · intro m' hm'
    rw [hinfo]
    split_ifs with hm
    · subst hm
      rw [h.settled.outside m' hm']
      rfl
    · rfl

omit [DecidableEq P] in
lemma Refines.maintain (h : Refines sha256 b method fresh ring d w) {a : Action N}
    (ha : a.IsMaintenance) {sys : System N} (hstep : System.step sha256 b a d.toSystem = some sys) :
    Refines sha256 b method fresh ring ⟨sys, d.indices, d.clock⟩ w := by
  obtain ⟨w', hround, href⟩ := h.refines
  have hsettled := h.settled.maintain h.bootstrap_mem ha hstep
  have hdata := System.data_of_isMaintenance ha hstep
  refine ⟨hsettled, h.bootstrap_mem, h.clock_pos, w', hround, hsettled.ideal, ?_, ?_⟩
  · intro k v e s hk hw he hs
    exact (congrArg (AList.lookup k) (hdata s)).trans (href.held k v e s hk hw he hs)
  · intro k hk hfresh hw m hm
    obtain ⟨hnone, hreplicas⟩ := href.absent k hk hfresh hw m hm
    exact ⟨(congrArg (AList.lookup k) (hdata m)).trans hnone,
      fun j => (congrArg (AList.lookup _) (hdata m)).trans (hreplicas j)⟩

omit [DecidableEq P] in
/-- A join keeps the refinement relation, with the dates of the items that it moves rounded. -/
lemma Refines.join (h : Refines sha256 b method fresh ring d w) {n p s : N}
    {as : List (Action N)} {sys : System N} {clock : TimePoint} (hn : ¬ d.Joined n)
    (hlookup : (d.network method).Resolves b (getId n) (.ok (some s))) (hp : d.pred s = some p)
    (hweave : Weave Action.IsMaintenance (joinActions p n s) as)
    (hexec : exec (System.step sha256 b) as d.toSystem = some sys) (hclock : d.clock ≤ clock) :
    Refines sha256 b method fresh (insert n ring) ⟨sys, d.indices, clock⟩ w := by
  obtain ⟨w', hround, href⟩ := h.refines
  have hnmem : n ∉ ring := fun hmem => hn (h.settled.joined_iff.mpr hmem)
  have hopen := h.settled.open_of_resolves h.bootstrap_mem hnmem hlookup hp
  have hnext := h.settled.isNext_of_pred hp
  have hsettled := h.settled.join h.bootstrap_mem hnmem hp hopen hweave hexec
  have hdata := (System.join_run h.settled h.bootstrap_mem hnmem hp hopen hweave hexec).2
  let moved : Bytes → Prop := fun k => Arc.HalfOpen (getId p) (sha256 k) (getId n)
  refine ⟨hsettled, Finset.mem_insert_of_mem h.bootstrap_mem,
    Int64.lt_of_lt_of_le h.clock_pos hclock, _, hround.handOver moved, hsettled.ideal, ?_, ?_⟩
  · intro k v e m hk hw he hm
    change (sys.info m).data.lookup k = _
    rw [hdata m k]
    rw [Arc.owns_insert_iff getId_injective hnext hopen] at hm
    by_cases hin : moved k
    · -- The item has moved from `s` to `n`.
      simp only [Written.handOver, if_pos hin] at hw
      obtain ⟨⟨v', e'⟩, hw', heq⟩ := Option.map_eq_some_iff.mp hw
      obtain ⟨rfl, rfl⟩ : v' = v ∧ some (expiresHandedOver (storedExpiry e')) = e := by
        simpa using heq
      change clock ≤ expiresHandedOver (storedExpiry e') at he
      have hpos := Int64.lt_of_lt_of_le (Int64.lt_of_lt_of_le h.clock_pos hclock) he
      have hlive : d.clock ≤ storedExpiry e' :=
        Int64.le_trans (Int64.le_trans hclock he) (expiresHandedOver_le hpos)
      have hown : Arc.Owns getId ring (sha256 k) s := by
        refine ⟨p, hnext, ?_⟩
        have hin' : Arc.HalfOpen (getId p) (sha256 k) (getId n) := hin
        grind [Arc.Open, Arc.HalfOpen]
      have hold : (d.info s).data.lookup k = some (v', storedExpiry e') :=
        href.held k v' e' s hk hw' hlive hown
      by_cases hmn : m = n
      · rw [if_pos hmn, if_pos hin, hold]
        rfl
      · rw [if_neg hmn] at hm
        obtain rfl := hm.1.unique getId_injective hown
        exact absurd ⟨rfl, hin⟩ hm.2
    · simp only [Written.handOver, if_neg hin] at hw
      have hmn : m ≠ n := by
        rintro rfl
        rw [if_pos rfl] at hm
        exact hin hm
      rw [if_neg hmn] at hm
      rw [if_neg hmn, if_neg hm.2]
      exact href.held k v e m hk hw (Int64.le_trans hclock he) hm.1
  · intro k hk hfresh hw m hm
    have hw' : w' k = none := by
      by_cases hin : moved k
      · simpa [Written.handOver, hin] using hw
      · simpa [Written.handOver, hin] using hw
    have hblank := href.absent k hk hfresh hw'
    -- What is nowhere is not handed over.
    have hnone : ∀ k', (∀ m ∈ ring, (d.info m).data.lookup k' = none) →
        (sys.info m).data.lookup k' = none := by
      intro k' hk'
      rw [hdata m k']
      split_ifs with hmn
      · rw [hk' s hnext.right_mem]
        rfl
      · rfl
      · rfl
      · exact hk' m (Finset.mem_of_mem_insert_of_ne hm hmn)
    exact ⟨hnone k fun m hm => (hblank m hm).1, fun j => hnone _ fun m hm => (hblank m hm).2 j⟩

omit [DecidableEq N] in
/-- What is enough for all nodes is enough for every ring. -/
lemma card_add_three_le (hfuel : Nat.card N + 3 ≤ fuel) (ring : Finset N) : ring.card + 3 ≤ fuel := by
  have : Finite N := finite_endpoints
  have hle := Set.ncard_le_card (ring : Set N)
  rw [Set.ncard_coe_finset] at hle
  omega

/-- One step keeps the refinement relation, on the same ring or on a larger one. -/
lemma Refines.step {d' : GrowingCluster N P} {w' : Written} (hfuel : Nat.card N + 3 ≤ fuel)
    (h : Refines sha256 b method fresh ring d w)
    (hstep : Step sha256 b method fuel replicationLimit process (d, w) (d', w')) :
    ∃ ring', Refines sha256 b method fresh ring' d' w' := by
  have hcard := card_add_three_le hfuel ring
  cases hstep with
  | put m key value ttl replication now clock hm hkey hnow =>
    exact ⟨ring, h.put replicationLimit process hcard hm hkey value ttl replication hnow⟩
  | clean m now clock hnow => exact ⟨ring, h.clean m hnow⟩
  | maintain a ha hstep => exact ⟨ring, h.maintain ha hstep⟩
  | join n p s as clock hn hlookup hp hweave hexec hclock =>
    exact ⟨insert n ring, h.join hn hlookup hp hweave hexec hclock⟩

/-- Every node can join. -/
lemma Refines.exists_join (h : Refines sha256 b method fresh ring d w) {n : N} (hn : n ∉ ring)
    (fuel : ℕ) (replicationLimit : UInt8) (process : N → P) :
    ∃ d', Step sha256 b method fuel replicationLimit process (d, w) (d', w) ∧ d'.Joined n ∧
      d'.clock = d.clock := by
  obtain ⟨p, s, hp, hopen⟩ := h.settled.exists_place hn
  obtain ⟨as, sys, hweave, hexec⟩ : ∃ as sys, Weave Action.IsMaintenance (joinActions p n s) as ∧
      exec (System.step sha256 b) as d.toSystem = some sys :=
    System.exists_join_run h.settled h.bootstrap_mem hn hp hopen
  have hown : Arc.Owns getId ring (getId n) s := by
    refine ⟨p, h.settled.isNext_of_pred hp, ?_⟩
    grind [Arc.Open, Arc.HalfOpen]
  have hlookup := (resolves_iff_owns h.settled.ideal h.bootstrap_mem).mpr ⟨s, rfl, hown⟩
  have hnot : ¬ d.Joined n := fun hjoined => hn (h.settled.joined_iff.mp hjoined)
  refine ⟨⟨sys, d.indices, d.clock⟩,
    .join n p s as d.clock hnot hlookup hp hweave hexec (Int64.le_refl _), ?_, rfl⟩
  have hsettled := h.settled.join h.bootstrap_mem hn hp hopen hweave hexec
  exact hsettled.joined_iff.mpr (Finset.mem_insert_self n ring)

/-- Every run keeps the refinement relation. -/
lemma Refines.run {x y : GrowingCluster N P × Written} (hfuel : Nat.card N + 3 ≤ fuel)
    (h : Refines sha256 b method fresh ring x.1 x.2)
    (hrun : Relation.ReflTransGen (Step sha256 b method fuel replicationLimit process) x y) :
    ∃ ring', Refines sha256 b method fresh ring' y.1 y.2 := by
  induction hrun with
  | refl => exact ⟨ring, h⟩
  | tail _ hstep ih =>
    obtain ⟨ring', h'⟩ := ih
    exact h'.step hfuel hstep

/-- **Read your writes while the ring grows.**  A settled ring goes through any sequence of puts, data
cleaner passes and steps of maintenance, and any number of nodes join it one after the other, each
join interleaved with any maintenance.  Then a get of a 32-byte key at any node that has joined, at any
later time `t`, answers with the value that was put last, up to one second before its expiry date; and
it fails if the key was never put and nothing was stored for it at the start. -/
theorem read_your_writes_growing {ring₀ : Finset N} {d₀ : GrowingCluster N P}
    (hring : System.Settled method ring₀ d₀.toSystem) (hb : b ∈ ring₀) (hclock : 0 < d₀.clock)
    (hfuel : Nat.card N + 3 ≤ fuel)
    (hrun : Relation.ReflTransGen (Step sha256 b method fuel replicationLimit process)
      (d₀, fun _ => none) (d, w))
    {m : N} (hm : d.Joined m) {key : Bytes} (hkey : key.length = 32) {t : TimePoint}
    (ht : d.clock ≤ t) :
    (∀ v e, w key = some (v, e) → t.toInt + 1000000000 ≤ (storedExpiry e).toInt →
      (d.cluster method).get sha256 fuel process m key = .dhtSuccess key v) ∧
    ((d₀.cluster method).Blank ring₀ key → w key = none →
      (d.cluster method).get sha256 fuel process m key = .dhtFailure key) := by
  have hinit : Refines sha256 b method ((d₀.cluster method).Blank ring₀) ring₀ d₀ fun _ => none := by
    refine ⟨hring, hb, hclock, _, Rounded.refl _, hring.ideal, ?_, fun _ _ hfresh _ => hfresh⟩
    rintro k v e s - ⟨⟩
  obtain ⟨ring, href⟩ : ∃ ring, Refines sha256 b method ((d₀.cluster method).Blank ring₀) ring d w :=
    hinit.run hfuel hrun
  obtain ⟨w', hround, hcluster⟩ := href.refines
  have hcard : ring.card + 3 ≤ fuel := card_add_three_le hfuel ring
  have hmem := href.settled.joined_iff.mp hm
  constructor
  · intro v e hw hlasts
    obtain ⟨e', hw', hdate⟩ := hround.present key v e hw
    obtain ⟨s, hown⟩ := @Arc.exists_owns N IdType _ getId _ hcluster.ideal.nonempty (sha256 key)
    have hlive : d.clock ≤ storedExpiry e' :=
      Int64.le_trans ht (le_of_lasts (Int64.lt_of_lt_of_le href.clock_pos ht) hlasts hdate)
    refine Cluster.get_eq_success hcluster.ideal hcard hmem hown ?_
    simp [NodeInformation.getData, hcluster.held key v e' s hkey hw' hlive hown]
  · intro hfresh hw
    have hblank := hcluster.absent key hkey hfresh (hround.absent key hw)
    refine Cluster.get_eq_failure hcluster.ideal hcard hmem ?_ ?_
    · intro s hs
      simp [NodeInformation.getData, (hblank s hs).1]
    · intro s hs
      simp [NodeInformation.getData, (hblank s hs).2 1]

/-- The ring of the ids `40…` and `80…`, in one process and with empty stores. -/
def pairGrowing : GrowingCluster IdType Unit where
  toSystem := System.pair (idOf 0x40) (idOf 0x80) fun _ => ∅
  indices := fun _ => []
  clock := 1

/-- A value is put at the node `40…`; then the node `60…` joins, which becomes responsible for it, and
reads it. -/
theorem read_your_writes_growing_pair : ∃ d : GrowingCluster IdType Unit,
    Relation.ReflTransGen (Step (fun _ => idOf 0x50) (idOf 0x40) (fun _ => .localHops)
      (Nat.card IdType + 3) 1 fun _ => ()) (pairGrowing, fun _ => none)
      (d, Function.update (fun _ => none) (List.replicate 32 7) (some ([1], none))) ∧
    d.Joined (idOf 0x60) ∧
    (d.cluster fun _ => .localHops).get (fun _ => idOf 0x50) (Nat.card IdType + 3) (fun _ => ())
      (idOf 0x60) (List.replicate 32 7) = .dhtSuccess (List.replicate 32 7) [1] := by
  have h₀ : System.Settled (fun _ => .localHops) {idOf 0x40, idOf 0x80} pairGrowing.toSystem :=
    System.settled_pair (by decide) _ _
  have hinit : Refines (fun _ => idOf 0x50) (idOf 0x40) (fun _ => .localHops) (fun _ => False)
      {idOf 0x40, idOf 0x80} pairGrowing fun _ => none := by
    refine ⟨h₀, by decide, by decide, _, Rounded.refl _, h₀.ideal, ?_, fun _ _ hfresh _ => hfresh.elim⟩
    rintro k v e s - ⟨⟩
  have hjoined : pairGrowing.Joined (idOf 0x40) := h₀.joined_iff.mpr (by decide)
  have hnow : ∀ i : ℕ, pairGrowing.clock ≤ (fun _ => 10 : ℕ → TimePoint) i ∧
      (fun _ => 10 : ℕ → TimePoint) i ≤ 20 := fun _ =>
    ⟨show (1 : TimePoint) ≤ 10 by decide, show (10 : TimePoint) ≤ 20 by decide⟩
  have hput := hinit.put 1 (fun _ => ()) (card_add_three_le le_rfl _) hjoined
    (List.length_replicate (n := 32) (a := 7)) [1] 0 3 hnow
  obtain ⟨d, hstep, hd, hclock⟩ := hput.exists_join (n := idOf 0x60) (by decide)
    (Nat.card IdType + 3) 1 (fun _ => ())
  have hrun : Relation.ReflTransGen (Step (fun _ => idOf 0x50) (idOf 0x40) (fun _ => .localHops)
      (Nat.card IdType + 3) 1 fun _ => ()) (pairGrowing, fun _ => none) (d, _) :=
    (Relation.ReflTransGen.single (.put (idOf 0x40) _ [1] 0 3 _ 20 hjoined List.length_replicate
      hnow)).tail hstep
  refine ⟨d, hrun, hd, ?_⟩
  exact (read_your_writes_growing h₀ (by decide) (by decide) le_rfl hrun hd List.length_replicate
    (t := 20) (by rw [hclock]; exact Int64.le_refl _)).1 [1] none (Function.update_self ..) (by decide)

end GrowingCluster

end ChordPlusPlus
