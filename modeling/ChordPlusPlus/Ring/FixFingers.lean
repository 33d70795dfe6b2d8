import ChordPlusPlus.Ring.HopLoop
import ChordPlusPlus.Ring.LookupSteps

/-!
# Repairing the fingers of an ideal ring

An ideal ring whose nodes run `stabilize`, `notify`, `checkPredecessor` and `fixFingers` in any
interleaving.  Here the lookup of `fixFingers` is taken apart into its requests (`Stage`), each of
which is answered from the state of the asked node at that moment, so that lookups run through
fingers that other nodes are about to repair.

`Upkeep.Inv` holds in every reachable state: the ring is still the same ideal ring, and what each
node is about to write is right.  `Repaired` counts how many fingers in a row, from the first
`nextFinger` on, a node has written since; after 256 of them all fingers are right.
-/

namespace ChordPlusPlus

open Run

/-- A deployment in which lookups are taken apart into requests. -/
structure Upkeep (N : Type*) extends System N where
  /-- The lookup that `fixFingers` of the node waits for. -/
  lookups : N → Option (Stage N)

/-- A step of some node, or the sending or delivery of a message. -/
inductive Activity (N : Type*)
  | stabilizeRead (n : N)
  | stabilizeAct (n : N)
  | sendNotify (sender receiver : N)
  | deliverNotify (sender receiver : N)
  | checkPredecessor (n : N)
  | fixFingersStart (n : N)
  /-- The lookup gets its next reply. -/
  | fixFingersHop (n : N)
  /-- The lookup returns to `fixFingers`. -/
  | fixFingersEnd (n : N)
  | fixFingersSet (n : N)
deriving DecidableEq

/-- The nodes that the activity is about are nodes of the ring. -/
def Activity.In {N : Type*} (ring : Finset N) : Activity N → Prop
  | sendNotify sender receiver | deliverNotify sender receiver =>
      sender ∈ ring ∧ receiver ∈ ring
  | stabilizeRead n | stabilizeAct n | checkPredecessor n | fixFingersStart n | fixFingersHop n
  | fixFingersEnd n | fixFingersSet n => n ∈ ring

namespace Upkeep

variable {N : Type*}

/-- Nodes with the given state, all of them between two steps of their main loop. -/
def start (info : N → NodeInformation N) (nextFinger : N → Fin keyBits) : Upkeep N where
  info := info
  phase := fun _ => .idle
  nextFinger := nextFinger
  notifies := []
  lookups := fun _ => none

section Step

variable [DecidableEq N]

/-- Replaces the lookup that one node waits for. -/
def setLookup (st : Upkeep N) (n : N) (lookup : Option (Stage N)) : Upkeep N :=
  { st with lookups := Function.update st.lookups n lookup }

@[simp] lemma setLookup_toSystem (st : Upkeep N) (n : N) (l : Option (Stage N)) :
    (st.setLookup n l).toSystem = st.toSystem := rfl

@[simp] lemma setLookup_lookups_self (st : Upkeep N) (n : N) (l : Option (Stage N)) :
    (st.setLookup n l).lookups n = l := by
  simp [setLookup]

@[simp] lemma setLookup_setLookup (st : Upkeep N) (n : N) (l l' : Option (Stage N)) :
    (st.setLookup n l).setLookup n l' = st.setLookup n l' := by
  simp [setLookup]

lemma setLookup_eq_self (st : Upkeep N) (n : N) : st.setLookup n (st.lookups n) = st := by
  simp [setLookup]

variable [Endpoint N]

/-- A step that does not depend on a lookup. -/
def regular (sha256 : Bytes → IdType) (bootstrap : N) (a : Action N) (st : Upkeep N) :
    Option (Upkeep N) :=
  (System.step sha256 bootstrap a st.toSystem).map fun sys => { st with toSystem := sys }

/-- One step.  A node that waits for a lookup does nothing else in its main loop. -/
def step (sha256 : Bytes → IdType) (bootstrap : N) (method : N → GetSuccessorMethod) :
    Activity N → Upkeep N → Option (Upkeep N)
  | .stabilizeRead n, st =>
      if (st.lookups n).isNone then regular sha256 bootstrap (.stabilizeRead n) st else none
  | .stabilizeAct n, st => regular sha256 bootstrap (.stabilizeAct n) st
  | .sendNotify sender receiver, st =>
      some { st with toSystem := st.toSystem.setNotifies ((sender, receiver) :: st.notifies) }
  | .deliverNotify sender receiver, st =>
      regular sha256 bootstrap (.deliverNotify sender receiver) st
  | .checkPredecessor n, st =>
      if (st.lookups n).isNone then regular sha256 bootstrap (.checkPredecessor n) st else none
  | .fixFingersStart n, st =>
      if st.phase n = .idle ∧ (st.lookups n).isNone then some (st.setLookup n (some (.start n)))
      else none
  | .fixFingersHop n, st =>
      match st.lookups n with
      | some stage =>
          some (st.setLookup n (some (stage.next st.info method (st.toSystem.fingerStart n))))
      | none => none
  | .fixFingersEnd n, st =>
      match st.lookups n with
      | some (.done result) =>
          some { st.setLookup n none with toSystem := st.toSystem.setPhase n (.fixing result) }
      | _ => none
  | .fixFingersSet n, st => regular sha256 bootstrap (.fixFingersSet n) st

end Step

variable [Endpoint N]

/-! ## What holds in every reachable state -/

/-- What the main loop of the node `m` is doing is right, where `key` is the start of the finger that
comes next. -/
def Busy (ring : Finset N) (m : N) (key : IdType) : Phase N → Option (Stage N) → Prop
  | .idle, none => True
  | .idle, some stage => stage.Sound ring key
  | .stabilizing _ predOfSuccessor, none => predOfSuccessor = some m
  | .fixing result, none => ∃ s, result = some s ∧ Arc.Owns getId ring key s
  | _, _ => False

/-- The ring is ideal, and what its nodes are doing is right. -/
structure Inv (method : N → GetSuccessorMethod) (ring : Finset N) (st : Upkeep N) : Prop where
  ideal : IsIdeal (st.toSystem.network method) ring
  busy : ∀ m ∈ ring, Busy ring m (st.toSystem.fingerStart m) (st.phase m) (st.lookups m)

/-- A step that moves the main loop of the node `n` at most, and writes no pointer. -/
structure Quiet (ring : Finset N) (st st' : Upkeep N) (n : N) : Prop where
  info : st'.info = st.info
  nextFinger : st'.nextFinger = st.nextFinger
  phase : ∀ m, m ≠ n → st'.phase m = st.phase m
  lookups : ∀ m, m ≠ n → st'.lookups m = st.lookups m
  busy : Busy ring n (st.toSystem.fingerStart n) (st'.phase n) (st'.lookups n)

/-- The node `n` has written `count` fingers from `first` on, and they are right. -/
structure Repaired (ring : Finset N) (n : N) (first : Fin keyBits) (count : ℕ) (st : Upkeep N) :
    Prop where
  nextFinger : (st.nextFinger n : ℕ) = (first + count) % keyBits
  finger : ∀ j < count, ∀ i : Fin keyBits, (i : ℕ) = (first + j) % keyBits →
    ∃ f, (st.info n).fingerTable i = some f ∧ Arc.Owns getId ring (getId n + pow2 32 i) f

section Steps

variable {method : N → GetSuccessorMethod} {ring : Finset N} {st st' : Upkeep N}

/-- The successor of a ring node, as its state has it. -/
lemma Inv.isNext_of_getSuccessor (hinv : Inv method ring st) {n s : N} (hn : n ∈ ring)
    (hs : (st.info n).getSuccessor = some s) : Arc.IsNext getId ring n s := by
  obtain ⟨t, hfinger, hnext⟩ := hinv.ideal.successor n hn
  have ht : (st.info n).getSuccessor = some t :=
    NodeInformation.getSuccessor_of_finger_zero hfinger
  obtain rfl : s = t := Option.some.inj (hs.symm.trans ht)
  exact hnext

/-- A node that waits for a lookup is at no other point of its main loop. -/
lemma Inv.sound (hinv : Inv method ring st) {n : N} (hn : n ∈ ring) {stage : Stage N}
    (hstage : st.lookups n = some stage) :
    st.phase n = .idle ∧ stage.Sound ring (st.toSystem.fingerStart n) := by
  have hbusy := hinv.busy n hn
  rw [hstage] at hbusy
  cases hphase : st.phase n with
  | idle =>
    rw [hphase] at hbusy
    exact ⟨rfl, hbusy⟩
  | _ => simp [hphase, Busy] at hbusy

/-- What `fixFingers` is about to write. -/
lemma Inv.found (hinv : Inv method ring st) {n : N} (hn : n ∈ ring) {r : Option N}
    (hphase : st.phase n = .fixing r) :
    st.lookups n = none ∧ ∃ s, r = some s ∧ Arc.Owns getId ring (st.toSystem.fingerStart n) s := by
  have hbusy := hinv.busy n hn
  rw [hphase] at hbusy
  cases hlookup : st.lookups n with
  | none =>
    rw [hlookup] at hbusy
    exact ⟨rfl, hbusy⟩
  | some stage => simp [hlookup, Busy] at hbusy

/-- No node of the ring is closer to `t` than its predecessor: `notify` changes nothing. -/
lemma Inv.notify_eq (hinv : Inv method ring st) {q t : N} (hq : q ∈ ring) (ht : t ∈ ring) :
    PeerImpl.notify t (st.info t) q = st.info t := by
  obtain ⟨p, hp, hnext⟩ := hinv.ideal.predecessor t ht
  rcases System.notify_cases (st.info t) t q with heq | ⟨hnone | ⟨p', hp', hopen⟩, -⟩
  · exact heq
  · exact absurd (hp.symm.trans hnone) (Option.some_ne_none p)
  · obtain rfl : p = p' := Option.some.inj (hp.symm.trans hp')
    exact absurd hopen (hnext.between q hq)

/-- The start of `finger[0]` belongs to the next node. -/
lemma finger_zero_of_owns (hideal : IsIdeal (st.toSystem.network method) ring) {n s : N}
    (hn : n ∈ ring) (hown : Arc.Owns getId ring (getId n + pow2 32 ((0 : Fin keyBits) : ℕ)) s) :
    (st.info n).fingerTable 0 = some s := by
  obtain ⟨t, hfinger, hnext⟩ := hideal.successor n hn
  have ht : Arc.Owns getId ring (getId n + pow2 32 ((0 : Fin keyBits) : ℕ)) t :=
    ⟨n, hnext, ByteArr.halfOpen_add_one (by decide) System.toNat_pow2_zero _ _⟩
  rw [hown.unique getId_injective ht]
  exact hfinger

lemma Quiet.refl (hinv : Inv method ring st) {n : N} (hn : n ∈ ring) : Quiet ring st st n where
  info := rfl
  nextFinger := rfl
  phase := fun _ _ => rfl
  lookups := fun _ _ => rfl
  busy := hinv.busy n hn

/-- A quiet step of a ring node keeps the invariant. -/
lemma Quiet.inv {n : N} (hquiet : Quiet ring st st' n) (hinv : Inv method ring st) :
    Inv method ring st' where
  ideal := by
    have hnet : st'.toSystem.network method = st.toSystem.network method := by
      rw [System.network, hquiet.info, System.network]
    rw [hnet]
    exact hinv.ideal
  busy := by
    intro m hm
    have hstart : st'.toSystem.fingerStart m = st.toSystem.fingerStart m := by
      rw [System.fingerStart, hquiet.nextFinger, System.fingerStart]
    rw [hstart]
    by_cases hmn : m = n
    · rw [hmn]
      exact hquiet.busy
    · rw [hquiet.phase m hmn, hquiet.lookups m hmn]
      exact hinv.busy m hm

/-- A step that leaves the fingers of `n` and its `nextFinger` alone. -/
lemma Repaired.congr {n : N} {first : Fin keyBits} {count : ℕ} (hrep : Repaired ring n first count st)
    (hinfo : (st'.info n).fingerTable = (st.info n).fingerTable)
    (hnext : st'.nextFinger n = st.nextFinger n) : Repaired ring n first count st' where
  nextFinger := by rw [hnext, hrep.nextFinger]
  finger := by rw [hinfo]; exact hrep.finger

/-- Between two steps of the main loops, an ideal ring satisfies the invariant. -/
lemma Inv.start {info : N → NodeInformation N}
    (hideal : IsIdeal ⟨info, fun _ => true, method⟩ ring) (nextFinger : N → Fin keyBits) :
    Inv method ring (start info nextFinger) :=
  ⟨hideal, fun _ _ => trivial⟩

lemma Repaired.zero (st : Upkeep N) (n : N) : Repaired ring n (st.nextFinger n) 0 st :=
  ⟨(Nat.mod_eq_of_lt (st.nextFinger n).isLt).symm, fun j hj => absurd hj (Nat.not_lt_zero j)⟩

/-- After 256 fingers in a row, every finger has been written. -/
lemma Repaired.finger_all {n : N} {first : Fin keyBits} {count : ℕ} (hrep : Repaired ring n first count st)
    (hcount : keyBits ≤ count) (i : Fin keyBits) :
    ∃ f, (st.info n).fingerTable i = some f ∧ Arc.Owns getId ring (getId n + pow2 32 i) f := by
  have hi : (i : ℕ) < 256 := i.isLt
  have hfirst : (first : ℕ) < 256 := first.isLt
  obtain ⟨j, hj, hij⟩ : ∃ j < 256, (i : ℕ) = (first + j) % 256 :=
    ⟨(i + 256 - first) % 256, by omega, by omega⟩
  exact hrep.finger j (hj.trans_le hcount) i hij

variable [DecidableEq N]

lemma Quiet.of_update {n : N} {p : Phase N} {l : Option (Stage N)} (hinfo : st'.info = st.info)
    (hnext : st'.nextFinger = st.nextFinger) (hphase : st'.phase = Function.update st.phase n p)
    (hlookups : st'.lookups = Function.update st.lookups n l)
    (hbusy : Busy ring n (st.toSystem.fingerStart n) p l) : Quiet ring st st' n where
  info := hinfo
  nextFinger := hnext
  phase := fun m hm => by rw [hphase, Function.update_of_ne hm]
  lookups := fun m hm => by rw [hlookups, Function.update_of_ne hm]
  busy := by rwa [hphase, hlookups, Function.update_self, Function.update_self]

variable {sha256 : Bytes → IdType} {b n : N}

lemma regular_eq_some {a : Action N} (h : regular sha256 b a st = some st') :
    ∃ sys, System.step sha256 b a st.toSystem = some sys ∧ st' = { st with toSystem := sys } := by
  obtain ⟨sys, hsys, rfl⟩ := Option.map_eq_some_iff.mp h
  exact ⟨sys, hsys, rfl⟩

/-! ## One lemma for each activity -/

/-- `stabilize` reads the node itself as the predecessor of its successor. -/
lemma Inv.stabilizeRead (hinv : Inv method ring st) (hn : n ∈ ring)
    (h : step sha256 b method (.stabilizeRead n) st = some st') : Quiet ring st st' n := by
  simp only [step] at h
  split_ifs at h with hnone
  obtain ⟨sys, hsys, rfl⟩ := regular_eq_some h
  obtain ⟨-, ⟨s, hs, rfl⟩ | rfl⟩ := System.step_stabilizeRead hsys
  · have hpred : st.toSystem.pred s = some n :=
      hinv.ideal.predecessor_of_next (hinv.isNext_of_getSuccessor hn hs)
    refine .of_update rfl rfl rfl (Function.update_eq_self_iff.mpr rfl).symm ?_
    rw [Option.isNone_iff_eq_none.mp hnone]
    exact hpred
  · exact .refl hinv hn

/-- `stabilize` then drops the answer. -/
lemma Inv.stabilizeAct (hinv : Inv method ring st) (hn : n ∈ ring)
    (h : step sha256 b method (.stabilizeAct n) st = some st') : Quiet ring st st' n := by
  obtain ⟨sys, hsys, rfl⟩ := regular_eq_some h
  obtain ⟨s, p, hphase, hcases⟩ := System.step_stabilizeAct hsys
  have hbusy := hinv.busy n hn
  rw [hphase] at hbusy
  -- A node that stabilizes does not wait for a lookup.
  cases hlookup : st.lookups n with
  | some stage => simp [hlookup, Busy] at hbusy
  | none =>
    obtain rfl : p = some n := by simpa [hlookup, Busy] using hbusy
    rcases hcases with ⟨-, rfl⟩ | ⟨x, hx, hne, -, -⟩ | ⟨hne, -, -⟩
    · refine .of_update rfl rfl rfl (Function.update_eq_self_iff.mpr rfl).symm ?_
      rw [hlookup]
      trivial
    · exact absurd (Option.some.inj hx).symm hne
    · exact absurd rfl hne

lemma Inv.deliverNotify (hinv : Inv method ring st) {q : N} (hq : q ∈ ring) (hn : n ∈ ring)
    (h : step sha256 b method (.deliverNotify q n) st = some st') : Quiet ring st st' n := by
  obtain ⟨sys, hsys, rfl⟩ := regular_eq_some h
  obtain ⟨-, rfl⟩ := System.step_deliverNotify hsys
  exact {
    info := by
      simp only [System.setNotifies_info, System.setInfo_info, hinv.notify_eq hq hn]
      exact Function.update_eq_self n st.info
    nextFinger := rfl
    phase := fun _ _ => rfl
    lookups := fun _ _ => rfl
    busy := hinv.busy n hn }

lemma Inv.checkPredecessor (hinv : Inv method ring st) (hn : n ∈ ring)
    (h : step sha256 b method (.checkPredecessor n) st = some st') : Quiet ring st st' n := by
  simp only [step] at h
  split_ifs at h with hnone
  obtain ⟨sys, hsys, rfl⟩ := regular_eq_some h
  obtain rfl := System.step_checkPredecessor hsys
  exact .refl hinv hn

lemma Inv.fixFingersStart (hn : n ∈ ring)
    (h : step sha256 b method (.fixFingersStart n) st = some st') : Quiet ring st st' n := by
  simp only [step] at h
  split_ifs at h with hidle
  obtain rfl := Option.some.inj h
  exact .of_update (p := .idle) rfl rfl (Function.update_eq_self_iff.mpr hidle.1.symm).symm rfl hn

/-- A reply to the lookup of a node keeps it sound. -/
lemma Inv.fixFingersHop (hinv : Inv method ring st) (hn : n ∈ ring)
    (h : step sha256 b method (.fixFingersHop n) st = some st') : Quiet ring st st' n := by
  simp only [step] at h
  split at h
  next stage hstage =>
    obtain rfl := Option.some.inj h
    obtain ⟨hidle, hsound⟩ := hinv.sound hn hstage
    exact .of_update (p := .idle) rfl rfl (Function.update_eq_self_iff.mpr hidle.symm).symm rfl
      (Stage.Sound.next hinv.ideal hsound)
  next => cases h

/-- A lookup returns the node that the start of the finger belongs to. -/
lemma Inv.fixFingersEnd (hinv : Inv method ring st) (hn : n ∈ ring)
    (h : step sha256 b method (.fixFingersEnd n) st = some st') : Quiet ring st st' n := by
  simp only [step] at h
  split at h
  next result hstage =>
    obtain rfl := Option.some.inj h
    exact .of_update rfl rfl rfl rfl (hinv.sound hn hstage).2
  next => cases h

/-- `fixFingers` ends by writing what it has found. -/
lemma step_fixFingersSet (h : step sha256 b method (.fixFingersSet n) st = some st') :
    ∃ r, st.phase n = .fixing r ∧ st' = { st with
      toSystem := ((st.toSystem.setInfo n ((st.info n).setFinger (st.nextFinger n) r)).setPhase n
        .idle).setNextFinger n (st.nextFinger n + 1) } := by
  obtain ⟨sys, hsys, rfl⟩ := regular_eq_some h
  obtain ⟨r, hphase, rfl⟩ := System.step_fixFingersSet hsys
  exact ⟨r, hphase, rfl⟩

/-- The written finger keeps the ring ideal: it names a ring node, and `finger[0]` does not change. -/
lemma Inv.fixFingersSet (hinv : Inv method ring st) (hn : n ∈ ring)
    (h : step sha256 b method (.fixFingersSet n) st = some st') : Inv method ring st' := by
  obtain ⟨r, hphase, rfl⟩ := step_fixFingersSet h
  obtain ⟨hlookup, s, rfl, hown⟩ := hinv.found hn hphase
  exact {
    ideal := {
      nonempty := hinv.ideal.nonempty
      answers := fun _ _ => rfl
      successor := by
        intro m hm
        obtain ⟨t, ht, hnext⟩ := hinv.ideal.successor m hm
        refine ⟨t, ?_, hnext⟩
        by_cases hmn : m = n
        · subst hmn
          by_cases hzero : st.nextFinger m = 0
          · rw [System.fingerStart, hzero] at hown
            have hs := finger_zero_of_owns hinv.ideal hn hown
            simpa [System.network, hzero] using hs.symm.trans ht
          · simpa [System.network, NodeInformation.setFinger_ne _ (Ne.symm hzero)] using ht
        · simpa [System.network, hmn] using ht
      predecessor := by
        intro m hm
        obtain ⟨q, hq, hnext⟩ := hinv.ideal.predecessor m hm
        refine ⟨q, ?_, hnext⟩
        by_cases hmn : m = n
        · subst hmn
          simpa [System.network] using hq
        · simpa [System.network, hmn] using hq
      fingers := by
        intro m hm i f hf
        by_cases hmn : m = n
        · subst hmn
          by_cases hi : i = st.nextFinger m
          · subst hi
            obtain rfl : s = f := by simpa [System.network] using hf
            exact hown.mem
          · refine hinv.ideal.fingers m hm i f ?_
            simpa [System.network, NodeInformation.setFinger_ne _ hi] using hf
        · refine hinv.ideal.fingers m hm i f ?_
          simpa [System.network, hmn] using hf }
    busy := by
      intro m hm
      by_cases hmn : m = n
      · subst hmn
        simp [hlookup, Busy]
      · have hbusy := hinv.busy m hm
        simpa [System.fingerStart, hmn] using hbusy }

/-! ## Whole runs -/

variable {e : Activity N}

/-- Every activity except the end of `fixFingers` is quiet. -/
lemma Inv.quiet (hinv : Inv method ring st) (hin : e.In ring) (hset : ∀ m, e ≠ .fixFingersSet m)
    (h : step sha256 b method e st = some st') : ∃ m, Quiet ring st st' m := by
  cases e with
  | stabilizeRead m => exact ⟨m, hinv.stabilizeRead hin h⟩
  | stabilizeAct m => exact ⟨m, hinv.stabilizeAct hin h⟩
  | sendNotify q m =>
    obtain rfl := Option.some.inj h
    exact ⟨m, rfl, rfl, fun _ _ => rfl, fun _ _ => rfl, hinv.busy m hin.2⟩
  | deliverNotify q m => exact ⟨m, hinv.deliverNotify hin.1 hin.2 h⟩
  | checkPredecessor m => exact ⟨m, hinv.checkPredecessor hin h⟩
  | fixFingersStart m => exact ⟨m, Inv.fixFingersStart hin h⟩
  | fixFingersHop m => exact ⟨m, hinv.fixFingersHop hin h⟩
  | fixFingersEnd m => exact ⟨m, hinv.fixFingersEnd hin h⟩
  | fixFingersSet m => exact absurd rfl (hset m)

/-- One step keeps the invariant. -/
lemma Inv.step (hinv : Inv method ring st) (hin : e.In ring)
    (h : step sha256 b method e st = some st') : Inv method ring st' := by
  by_cases hset : ∃ m, e = .fixFingersSet m
  · obtain ⟨m, rfl⟩ := hset
    exact hinv.fixFingersSet hin h
  · obtain ⟨m, hquiet⟩ := hinv.quiet hin (fun m hm => hset ⟨m, hm⟩) h
    exact hquiet.inv hinv

/-- `fixFingers` at `n` writes one more finger. -/
lemma Repaired.set {first : Fin keyBits} {count : ℕ} (hrep : Repaired ring n first count st)
    (hinv : Inv method ring st) (hn : n ∈ ring)
    (h : step sha256 b method (.fixFingersSet n) st = some st') :
    Repaired ring n first (count + 1) st' := by
  obtain ⟨r, hphase, rfl⟩ := step_fixFingersSet h
  obtain ⟨-, s, rfl, hown⟩ := hinv.found hn hphase
  constructor
  · have hnext := hrep.nextFinger
    simp only [System.setNextFinger_nextFinger, Function.update_self, Fin.val_add, hnext,
      Nat.mod_add_mod]
    rfl
  · intro j hj i hi
    by_cases hcur : i = st.nextFinger n
    · subst hcur
      exact ⟨s, by simp, hown⟩
    · have hlt : j < count := by
        rcases Nat.lt_succ_iff_lt_or_eq.mp hj with hlt | rfl
        · exact hlt
        · exact absurd (Fin.ext (hi.trans hrep.nextFinger.symm)) hcur
      obtain ⟨f, hf, hright⟩ := hrep.finger j hlt i hi
      refine ⟨f, ?_, hright⟩
      simpa [NodeInformation.setFinger_ne _ hcur] using hf

/-- One step, counted if it ends `fixFingers` at `n`. -/
lemma Repaired.step {first : Fin keyBits} {count : ℕ} (hrep : Repaired ring n first count st)
    (hinv : Inv method ring st) (hin : e.In ring)
    (h : step sha256 b method e st = some st') :
    Repaired ring n first (count + [e].count (.fixFingersSet n)) st' := by
  by_cases hset : ∃ m, e = .fixFingersSet m
  · obtain ⟨m, rfl⟩ := hset
    by_cases hmn : m = n
    · subst hmn
      simpa using hrep.set hinv hin h
    · obtain ⟨r, -, rfl⟩ := step_fixFingersSet h
      rw [List.count_singleton, if_neg (by simpa using hmn)]
      exact hrep.congr (by simp [Ne.symm hmn]) (by simp [Ne.symm hmn])
  · obtain ⟨m, hquiet⟩ := hinv.quiet hin (fun m hm => hset ⟨m, hm⟩) h
    rw [List.count_singleton, if_neg (by simpa using fun heq => hset ⟨n, heq⟩)]
    exact hrep.congr (by rw [hquiet.info]) (by rw [hquiet.nextFinger])

/-- A run keeps the invariant and repairs one finger of `n` with each `fixFingers` of `n`. -/
lemma Inv.exec {first : Fin keyBits} {count : ℕ} {es : List (Activity N)}
    (hinv : Inv method ring st) (hrep : Repaired ring n first count st) (hes : ∀ e ∈ es, e.In ring)
    (h : exec (Upkeep.step sha256 b method) es st = some st') :
    Inv method ring st' ∧ Repaired ring n first (count + es.count (.fixFingersSet n)) st' := by
  induction es generalizing st count with
  | nil =>
    obtain rfl := Option.some.inj h
    exact ⟨hinv, hrep⟩
  | cons e es ih =>
    obtain ⟨t, ht, hrest⟩ := exec_cons_eq_some.mp h
    have hin := hes e List.mem_cons_self
    obtain ⟨hinv', hrep'⟩ := ih (hinv.step hin ht) (hrep.step hinv hin ht)
      (fun e he => hes e (List.mem_cons_of_mem _ he)) hrest
    refine ⟨hinv', ?_⟩
    rwa [← List.singleton_append, List.count_append, ← Nat.add_assoc]

/-! ## `fixFingers` can always be carried out -/

/-- The replies to the lookup of one node, while the others pause. -/
lemma exec_fixFingersHop {stage : Stage N} (hstage : st.lookups n = some stage) (k : ℕ) :
    Run.exec (Upkeep.step sha256 b method) (List.replicate k (.fixFingersHop n)) st =
      some (st.setLookup n
        (some ((Stage.next st.info method (st.toSystem.fingerStart n))^[k] stage))) := by
  induction k generalizing st stage with
  | zero =>
    rw [Function.iterate_zero_apply, ← hstage, setLookup_eq_self]
    rfl
  | succ k ih =>
    rw [List.replicate_succ, exec_cons_eq_some]
    refine ⟨st.setLookup n (some (stage.next st.info method (st.toSystem.fingerStart n))), ?_, ?_⟩
    · simp [Upkeep.step, hstage]
    · rw [ih (setLookup_lookups_self _ _ _), Function.iterate_succ_apply]
      simp

/-- In every state of the ring, a node between two steps of its main loop can go through `fixFingers`,
and is then between two steps again. -/
lemma Inv.exists_fixFingers (sha256 : Bytes → IdType) (b : N) (hinv : Inv method ring st)
    (hn : n ∈ ring) (hidle : st.phase n = .idle) (hnone : st.lookups n = none) :
    ∃ es st', (∀ e ∈ es, e.In ring) ∧ Run.exec (Upkeep.step sha256 b method) es st = some st' ∧
      es.count (.fixFingersSet n) = 1 ∧ st'.phase n = .idle ∧ st'.lookups n = none := by
  obtain ⟨s, hown⟩ := @Arc.exists_owns N IdType _ getId _ hinv.ideal.nonempty
    (st.toSystem.fingerStart n)
  have hres : (st.toSystem.network method).Resolves n (st.toSystem.fingerStart n) (.ok (some s)) :=
    (resolves_iff_owns hinv.ideal hn).mpr ⟨s, rfl, hown⟩
  obtain ⟨result, -, k, hk⟩ := hres.leads fun _ => rfl
  have hlookup := @exec_fixFingersHop _ _ method (st.setLookup n (some (.start n))) _ sha256 b n _
    (setLookup_lookups_self _ _ _) k
  have hdone : (Stage.next st.info method (st.toSystem.fingerStart n))^[k] (.start n) =
      .done result := hk
  simp only [setLookup_toSystem, setLookup_setLookup, hdone] at hlookup
  refine ⟨.fixFingersStart n :: (List.replicate k (.fixFingersHop n) ++
    [.fixFingersEnd n, .fixFingersSet n]), { st.setLookup n none with
      toSystem := ((st.toSystem.setInfo n ((st.info n).setFinger (st.nextFinger n) result)).setPhase n
        .idle).setNextFinger n (st.nextFinger n + 1) }, ?_, ?_, ?_, ?_, ?_⟩
  · intro e he
    simp only [List.mem_cons, List.mem_append, List.mem_replicate, List.not_mem_nil, or_false] at he
    rcases he with rfl | ⟨-, rfl⟩ | rfl | rfl <;> exact hn
  · rw [exec_cons_eq_some]
    refine ⟨st.setLookup n (some (.start n)), by simp [Upkeep.step, hidle, hnone], ?_⟩
    rw [exec_append_eq_some]
    refine ⟨_, hlookup, ?_⟩
    simp [Run.exec, Upkeep.step, regular, System.step, setLookup, System.setPhase, System.setInfo]
  · simp [List.count_replicate]
  · simp
  · simp

/-- In every state of the ring, such a node can go through `fixFingers` any number of times. -/
lemma Inv.exists_fixFingers_times (sha256 : Bytes → IdType) (b : N) (hinv : Inv method ring st)
    (hn : n ∈ ring) (hidle : st.phase n = .idle) (hnone : st.lookups n = none) (k : ℕ) :
    ∃ es st', (∀ e ∈ es, e.In ring) ∧ Run.exec (Upkeep.step sha256 b method) es st = some st' ∧
      es.count (.fixFingersSet n) = k := by
  induction k generalizing st with
  | zero => exact ⟨[], st, by simp, rfl, rfl⟩
  | succ k ih =>
    obtain ⟨es, t, hes, ht, hcount, hidle', hnone'⟩ :=
      hinv.exists_fixFingers sha256 b hn hidle hnone
    obtain ⟨hinv', -⟩ := hinv.exec (.zero st n) hes ht
    obtain ⟨es', st', hes', hst', hcount'⟩ := ih hinv' hidle' hnone'
    refine ⟨es ++ es', st', ?_, exec_append_eq_some.mpr ⟨t, ht, hst'⟩, ?_⟩
    · intro e he
      rcases List.mem_append.mp he with he | he
      · exact hes e he
      · exact hes' e he
    · rw [List.count_append, hcount, hcount', Nat.add_comm]

end Steps

end Upkeep

open Upkeep in
/-- On every ideal ring, from any fingers and any `nextFinger`, and in every interleaving of
`stabilize`, `notify`, `checkPredecessor` and the single requests of `fixFingers` at all nodes, the
successors and predecessors stay as they are, and a node that has gone through `fixFingers` 256 times
has in `finger[i]` the first ring node at or after `id + 2^i`, from then on. -/
theorem fixFingers_ideal {N : Type*} [DecidableEq N] [Endpoint N] (sha256 : Bytes → IdType) (b : N)
    (method : N → GetSuccessorMethod) {ring : Finset N} {info : N → NodeInformation N}
    (hideal : IsIdeal ⟨info, fun _ => true, method⟩ ring) (nextFinger : N → Fin keyBits)
    {es : List (Activity N)} (hes : ∀ e ∈ es, e.In ring) {st : Upkeep N}
    (hrun : exec (step sha256 b method) es (start info nextFinger) = some st) :
    (∀ m ∈ ring, (st.info m).getSuccessor = (info m).getSuccessor ∧
      (st.info m).fingerTable 0 = (info m).fingerTable 0 ∧
      (st.info m).predecessor = (info m).predecessor) ∧
    ∀ n ∈ ring, 256 ≤ es.count (.fixFingersSet n) → ∀ i : Fin keyBits,
      ∃ f ∈ ring, (st.info n).fingerTable i = some f ∧
        ∀ t : IdType, t.toNat = ((getId n).toNat + 2 ^ (i : ℕ)) % 2 ^ 256 →
          Arc.Owns getId ring t f := by
  have hstart := Inv.start hideal nextFinger
  constructor
  · intro m hm
    obtain ⟨hinv, -⟩ := hstart.exec (.zero _ m) hes hrun
    obtain ⟨s, hs, hnext⟩ := hideal.successor m hm
    obtain ⟨s', hs', hnext'⟩ := hinv.ideal.successor m hm
    obtain ⟨p, hp, hprev⟩ := hideal.predecessor m hm
    obtain ⟨p', hp', hprev'⟩ := hinv.ideal.predecessor m hm
    obtain rfl := hnext.right_unique getId_injective hnext'
    obtain rfl := hprev.left_unique getId_injective hprev'
    have hsucc := NodeInformation.getSuccessor_of_finger_zero hs
    have hsucc' := NodeInformation.getSuccessor_of_finger_zero hs'
    exact ⟨hsucc'.trans hsucc.symm, hs'.trans hs.symm, hp'.trans hp.symm⟩
  · intro n hn hcount i
    obtain ⟨-, hrep⟩ := hstart.exec (.zero _ n) hes hrun
    rw [Nat.zero_add] at hrep
    obtain ⟨f, hf, hown⟩ := hrep.finger_all hcount i
    refine ⟨f, hown.mem, hf, ?_⟩
    intro t ht
    obtain rfl : t = getId n + pow2 32 i := by
      apply ByteArr.toNat_injective
      rw [ht, toNat_add_pow2]
    exact hown

open Upkeep in
/-- The ring of the ids `40…` and `80…`, on which `40…` goes through `fixFingers` 256 times, from
`nextFinger = 200` on. -/
theorem fixFingers_ideal_pair : ∃ es : List (Activity IdType), ∃ st : Upkeep IdType,
    exec (step (fun _ => idOf 0) (idOf 0x40) fun _ => .localHops) es
      (start (pairInfo (idOf 0x40) (idOf 0x80)) fun _ => 200) = some st ∧
    256 ≤ es.count (.fixFingersSet (idOf 0x40)) ∧
    ∀ i : Fin keyBits, ∃ f ∈ ({idOf 0x40, idOf 0x80} : Finset IdType),
      (st.info (idOf 0x40)).fingerTable i = some f ∧
      ∀ t : IdType, t.toNat = ((idOf 0x40).toNat + 2 ^ (i : ℕ)) % 2 ^ 256 →
        Arc.Owns getId {idOf 0x40, idOf 0x80} t f := by
  have hideal := @isIdeal_pair IdType _ _ (idOf 0x40) (idOf 0x80) (by decide) fun _ => .localHops
  obtain ⟨es, st, hes, hrun, hcount⟩ := (Inv.start hideal fun _ => 200).exists_fixFingers_times
    (fun _ => idOf 0) (idOf 0x40) (n := idOf 0x40) (by simp) rfl rfl 256
  exact ⟨es, st, hrun, hcount.ge,
    (fixFingers_ideal (fun _ => idOf 0) (idOf 0x40) (fun _ => .localHops) hideal (fun _ => 200) hes
      hrun).2 (idOf 0x40) (by simp) hcount.ge⟩

end ChordPlusPlus
