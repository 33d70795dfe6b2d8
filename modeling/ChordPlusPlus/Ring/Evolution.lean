import ChordPlusPlus.Dht.Maintenance
import ChordPlusPlus.Foundation.Pointers

/-!
# How the pointers evolve

The pointer invariant of the maintenance loop, and what one step can do to each part of the state
it speaks about.  Successor pointers are created, set by a join, or shortened towards a node that
has notified the old successor; predecessor pointers move closer; and every node that anybody
remembers as a predecessor of `s` has once notified `s`, which it does only while `s` is its
successor.  The preservation of the invariant is derived from these descriptions alone.
-/

namespace ChordPlusPlus

open Pointers

namespace System

variable {N : Type*}

/-- `p` is remembered as a possible predecessor of `s`: by `s` itself, by a message in flight, or by
a node that has read it from `s`. -/
def Knows (sys : System N) (p s : N) : Prop :=
  sys.pred s = some p ∨ (p, s) ∈ sys.notifies ∨ ∃ n, sys.phase n = .stabilizing s (some p)

/-- The pointer invariant. -/
structure PointerInv [Endpoint N] (b : N) (sys : System N) : Prop where
  /-- A node without successor has an empty finger table. -/
  finger_none : ∀ n, sys.succ n = none → ∀ i, (sys.info n).fingerTable i = none
  /-- Successors have joined. -/
  succ_joined : ∀ n s, sys.succ n = some s → sys.Joined s
  /-- The bootstrap node is the first to join. -/
  bootstrap_joined : ∀ n, sys.Joined n → sys.Joined b
  /-- The pointers lead from the bootstrap node once round the circle. -/
  cycle : sys.Joined b → Path getId sys.succ b b
  /-- The pointers lead from every joined node to the bootstrap node. -/
  reach : ∀ n, sys.Joined n → Relation.ReflTransGen (Hop sys.succ) n b
  /-- A remembered predecessor of `s` leads to `s` inside the arc up to `s`. -/
  knows : ∀ p s, sys.Knows p s → Path getId sys.succ p s
  /-- A node that stabilizes still has the successor it asked. -/
  stabilizing : ∀ n s p, sys.phase n = .stabilizing s p → sys.succ n = some s
  /-- A node that has answered with another node does not return to itself. -/
  read : ∀ n s x, sys.phase n = .stabilizing s (some x) → x ≠ s →
    ∃ y, y ≠ s ∧ sys.pred s = some y
  /-- What `fixFingers` is about to write to `finger[0]` is already there. -/
  fixing : ∀ n r, sys.phase n = .fixing r → sys.nextFinger n = 0 ∨ sys.succ n = none →
    r = sys.succ n
  /-- A node that waits for the bootstrap node has no successor yet. -/
  asking : ∀ n, sys.phase n = .asking → sys.succ n = none
  /-- Only a node that is its own successor is its own predecessor. -/
  pred_self : ∀ n, sys.pred n = some n → sys.succ n = some n
  /-- The same for a message that a node has sent to itself. -/
  notify_self : ∀ n, (n, n) ∈ sys.notifies → sys.pred n = none → sys.succ n = some n

/-- What the action `a` can do to the successor pointers. -/
inductive SuccStep [Endpoint N] [DecidableEq N] (b : N) (a : Action N) (sys sys' : System N) : Prop
  | same : sys'.succ = sys.succ → SuccStep b a sys sys'
  | created : a = .create → sys.succ b = none →
      sys'.succ = Function.update sys.succ b (some b) → SuccStep b a sys sys'
  | joined (n s : N) : a = .joinAnswer n s → sys.succ n = none → sys.Joined s →
      sys'.succ = Function.update sys.succ n (some s) → SuccStep b a sys sys'
  | shortened (n s x : N) : a = .stabilizeAct n → sys.phase n = .stabilizing s (some x) →
      sys.succ n = some s → Arc.Open (getId n) (getId x) (getId s) →
      sys'.succ = Function.update sys.succ n (some x) → SuccStep b a sys sys'

/-- What the action `a` can do to the predecessor pointers. -/
inductive PredStep [Endpoint N] [DecidableEq N] (a : Action N) (sys sys' : System N) : Prop
  | same : sys'.pred = sys.pred → PredStep a sys sys'
  | moved (n s : N) : a = .deliverNotify n s → (n, s) ∈ sys.notifies →
      (sys.pred s = none ∨ ∃ q, sys.pred s = some q ∧ Arc.Open (getId q) (getId n) (getId s)) →
      sys'.pred = Function.update sys.pred s (some n) → sys'.succ = sys.succ →
      PredStep a sys sys'

/-- What one step can do to the main loop of the node `n`. -/
inductive PhaseStep (sys sys' : System N) (n : N) : Prop
  | kept : sys'.phase n = sys.phase n → sys'.succ n = sys.succ n →
      sys'.nextFinger n = sys.nextFinger n → PhaseStep sys sys' n
  | idle : sys'.phase n = .idle → PhaseStep sys sys' n
  | asks : sys'.phase n = .asking → sys'.succ n = none → PhaseStep sys sys' n
  | requests : sys'.phase n = .requesting → PhaseStep sys sys' n
  | stores (items : List DataItem) : sys'.phase n = .storing items → PhaseStep sys sys' n
  | reads (s : N) : sys'.phase n = .stabilizing s (sys'.pred s) → sys'.succ n = some s →
      sys'.pred = sys.pred → PhaseStep sys sys' n
  | finds (r : Option N) : sys'.phase n = .fixing r →
      (sys'.nextFinger n = 0 ∨ sys'.succ n = none → r = sys'.succ n) →
      (∀ f, r = some f → sys'.Joined f) → PhaseStep sys sys' n

namespace PhaseStep

variable {sys sys' : System N} {n : N}

/-- A node that stabilizes did so before, or has just read the answer. -/
lemma of_stabilizing (h : PhaseStep sys sys' n) {s : N} {p : Option N}
    (hphase : sys'.phase n = .stabilizing s p) :
    sys.phase n = .stabilizing s p ∧ sys'.succ n = sys.succ n ∨
      p = sys'.pred s ∧ sys'.succ n = some s ∧ sys'.pred = sys.pred := by
  cases h with
  | kept heq hsucc _ => exact Or.inl ⟨heq ▸ hphase, hsucc⟩
  | reads t heq hsucc hpred =>
    rw [heq] at hphase
    obtain ⟨rfl, hp⟩ := Phase.stabilizing.inj hphase
    exact Or.inr ⟨hp.symm, hsucc, hpred⟩
  | idle heq => rw [heq] at hphase; cases hphase
  | asks heq _ => rw [heq] at hphase; cases hphase
  | requests heq => rw [heq] at hphase; cases hphase
  | stores items heq => rw [heq] at hphase; cases hphase
  | finds r heq _ _ => rw [heq] at hphase; cases hphase

/-- A node that is about to write a finger was so before, or has just looked it up. -/
lemma of_fixing (h : PhaseStep sys sys' n) {r : Option N} (hphase : sys'.phase n = .fixing r) :
    sys.phase n = .fixing r ∧ sys'.succ n = sys.succ n ∧
        sys'.nextFinger n = sys.nextFinger n ∨
      (sys'.nextFinger n = 0 ∨ sys'.succ n = none → r = sys'.succ n) ∧
        ∀ f, r = some f → sys'.Joined f := by
  cases h with
  | kept heq hsucc hnext => exact Or.inl ⟨heq ▸ hphase, hsucc, hnext⟩
  | finds r' heq hfound hjoined =>
    rw [heq] at hphase
    cases hphase
    exact Or.inr ⟨hfound, hjoined⟩
  | idle heq => rw [heq] at hphase; cases hphase
  | asks heq _ => rw [heq] at hphase; cases hphase
  | requests heq => rw [heq] at hphase; cases hphase
  | stores items heq => rw [heq] at hphase; cases hphase
  | reads s heq _ _ => rw [heq] at hphase; cases hphase

/-- A node that waits for the bootstrap node did so before, or has no successor. -/
lemma of_asking (h : PhaseStep sys sys' n) (hphase : sys'.phase n = .asking) :
    sys.phase n = .asking ∧ sys'.succ n = sys.succ n ∨ sys'.succ n = none := by
  cases h with
  | kept heq hsucc _ => exact Or.inl ⟨heq ▸ hphase, hsucc⟩
  | asks _ hnone => exact Or.inr hnone
  | idle heq => rw [heq] at hphase; cases hphase
  | requests heq => rw [heq] at hphase; cases hphase
  | stores items heq => rw [heq] at hphase; cases hphase
  | reads s heq _ _ => rw [heq] at hphase; cases hphase
  | finds r heq _ _ => rw [heq] at hphase; cases hphase

end PhaseStep

variable [Endpoint N] {b : N} {sys sys' : System N}

namespace PointerInv

lemma getSuccessor_eq (hinv : PointerInv b sys) (n : N) :
    (sys.info n).getSuccessor = sys.succ n := by
  cases h : sys.succ n with
  | none => exact NodeInformation.getSuccessor_eq_none_iff.mpr (hinv.finger_none n h)
  | some s => exact NodeInformation.getSuccessor_of_finger_zero h

/-- A node with a predecessor has joined. -/
lemma joined_of_pred (hinv : PointerInv b sys) {p s : N} (h : sys.pred s = some p) :
    sys.Joined s := by
  obtain ⟨q, hq⟩ := (hinv.knows p s (Or.inl h)).exists_last
  exact hinv.succ_joined q s hq

/-- The invariant does not depend on the stores. -/
lemma congr (hinv : PointerInv b sys) (hsucc : sys'.succ = sys.succ) (hpred : sys'.pred = sys.pred)
    (hfinger : ∀ m, (sys'.info m).fingerTable = (sys.info m).fingerTable)
    (hphase : sys'.phase = sys.phase) (hnext : sys'.nextFinger = sys.nextFinger)
    (hnotifies : sys'.notifies = sys.notifies) : PointerInv b sys' := by
  constructor
  · intro n hn i
    rw [hfinger]
    exact hinv.finger_none n (hsucc ▸ hn) i
  all_goals
    simp only [Joined, Knows, hsucc, hpred, hphase, hnext, hnotifies]
  · exact hinv.succ_joined
  · exact hinv.bootstrap_joined
  · exact hinv.cycle
  · exact hinv.reach
  · exact hinv.knows
  · exact hinv.stabilizing
  · exact hinv.read
  · exact hinv.fixing
  · exact hinv.asking
  · exact hinv.pred_self
  · exact hinv.notify_self

lemma pred_eq_none (hinv : PointerInv b sys) {n : N} (h : sys.succ n = none) :
    sys.pred n = none := by
  cases hp : sys.pred n with
  | none => rfl
  | some p => exact absurd h (hinv.joined_of_pred hp)

end PointerInv

/-- The start of `finger[0]` is the point right after the node. -/
lemma toNat_pow2_zero : (pow2 32 ((0 : Fin keyBits) : ℕ)).toNat = 1 :=
  toNat_pow2 (by decide) (by decide)

/-- A lookup for `finger[0]` answers with the successor that is already there. -/
lemma eq_succ_of_lookupMay [DecidableEq N] (hinv : PointerInv b sys) {n : N} {r : Option N}
    (hmay : sys.lookupMay n (sys.fingerStart n) r = true)
    (h : sys.nextFinger n = 0 ∨ sys.succ n = none) : r = sys.succ n := by
  unfold lookupMay at hmay
  cases hreq : PeerImpl.requested n (sys.info n) (sys.fingerStart n) with
  | thisNode =>
    obtain ⟨p, hp, hin⟩ := PeerImpl.requested_eq_thisNode_iff.mp hreq
    have hr : r = some n := by simpa [hreq] using hmay
    rcases h with h | h
    · rw [fingerStart, h] at hin
      have hself : p = n := getId_injective
        (ByteArr.eq_of_halfOpen_add_one (by decide) toNat_pow2_zero hin)
      rw [hr, hinv.pred_self n (hself ▸ hp)]
    · exact absurd h (hinv.joined_of_pred hp)
  | nextNode s =>
    obtain ⟨hs, -⟩ := PeerImpl.requested_eq_nextNode hreq
    have hr : r = some s := by simpa [hreq] using hmay
    rw [hr, ← hs, hinv.getSuccessor_eq]
  | otherNode =>
    cases hsucc : sys.succ n with
    | none =>
      cases r with
      | none => rfl
      | some x => simp [hreq, hinv.getSuccessor_eq, hsucc] at hmay
    | some s =>
      -- The start of `finger[0]` lies in the arc of every successor.
      rcases h with h | h
      · have hnot := (PeerImpl.requested_eq_otherNode hreq).2 s
          ((hinv.getSuccessor_eq n).trans hsucc)
        rw [fingerStart, h] at hnot
        exact absurd (ByteArr.halfOpen_add_one (by decide) toNat_pow2_zero _ _) hnot
      · rw [h] at hsucc
        cases hsucc

/-- A lookup may answer only with a node that has joined. -/
lemma joined_of_lookupMay [DecidableEq N] (hinv : PointerInv b sys) {n x : N} {key : IdType}
    (hmay : sys.lookupMay n key (some x) = true) : sys.Joined x := by
  unfold lookupMay at hmay
  cases hreq : PeerImpl.requested n (sys.info n) key with
  | thisNode =>
    obtain ⟨p, hp, -⟩ := PeerImpl.requested_eq_thisNode_iff.mp hreq
    obtain rfl : x = n := by simpa [hreq] using hmay
    exact hinv.joined_of_pred hp
  | nextNode s =>
    obtain ⟨hs, -⟩ := PeerImpl.requested_eq_nextNode hreq
    obtain rfl : x = s := by simpa [hreq] using hmay
    exact hinv.succ_joined n x ((hinv.getSuccessor_eq n).symm.trans hs)
  | otherNode =>
    have hsome : (sys.info x).getSuccessor.isSome = true := by
      simp only [hreq, Bool.and_eq_true] at hmay
      exact hmay.2
    rw [hinv.getSuccessor_eq] at hsome
    exact Option.isSome_iff_ne_none.mp hsome

/-- `notify` moves the predecessor only to a closer node. -/
lemma notify_cases (info : NodeInformation N) (s n : N) :
    PeerImpl.notify s info n = info ∨
      (info.predecessor = none ∨
        ∃ q, info.predecessor = some q ∧ Arc.Open (getId q) (getId n) (getId s)) ∧
      PeerImpl.notify s info n = info.setPredecessor (some n) := by
  unfold PeerImpl.notify
  cases hp : info.predecessor with
  | none => exact Or.inr ⟨Or.inl rfl, rfl⟩
  | some q =>
    by_cases hin : Arc.Open (getId q) (getId n) (getId s)
    · exact Or.inr ⟨Or.inr ⟨q, rfl, hin⟩, by simp [hin]⟩
    · exact Or.inl (by simp [hin])

lemma notify_fingerTable (info : NodeInformation N) (s n : N) :
    (PeerImpl.notify s info n).fingerTable = info.fingerTable := by
  rcases notify_cases info s n with heq | ⟨-, heq⟩
  · rw [heq]
  · rw [heq]
    rfl

section Steps

variable [DecidableEq N] {sha256 : Bytes → IdType} {a : Action N}

/-- The successor pointers after one step. -/
lemma succ_step (hinv : PointerInv b sys) (h : step sha256 b a sys = some sys') :
    SuccStep b a sys sys' := by
  cases a with
  | create =>
    obtain ⟨-, hnone, rfl⟩ := step_create h
    rw [hinv.getSuccessor_eq] at hnone
    exact .created rfl hnone (by simp)
  | joinStart n =>
    obtain ⟨-, -, -, rfl⟩ := step_joinStart h
    exact .same (by simp [succ])
  | joinAnswer n s =>
    obtain ⟨hphase, hs, rfl⟩ := step_joinAnswer h
    rw [hinv.getSuccessor_eq] at hs
    exact .joined n s rfl (hinv.asking n hphase) hs (by simp)
  | joinRefused n =>
    obtain ⟨hphase, rfl⟩ := step_joinRefused h
    exact .same (by simp [← hinv.asking n hphase])
  | handover n =>
    obtain ⟨-, s, items, info, -, -, hf, -, rfl⟩ := step_handover h
    exact .same (setInfo_succ_of_fingerTable sys s info hf)
  | storeItems n =>
    obtain ⟨items, -, rfl⟩ := step_storeItems h
    exact .same (by simp [succ])
  | stabilizeRead n =>
    obtain ⟨-, ⟨s, -, rfl⟩ | rfl⟩ := step_stabilizeRead h
    · exact .same rfl
    · exact .same rfl
  | stabilizeAct n =>
    obtain ⟨s, p, hphase, ⟨-, rfl⟩ | ⟨x, rfl, -, hopen, rfl⟩ | ⟨-, -, rfl⟩⟩ :=
      step_stabilizeAct h
    · exact .same rfl
    · exact .shortened n s x rfl hphase (hinv.stabilizing n s _ hphase) hopen (by simp)
    · exact .same rfl
  | deliverNotify n s =>
    obtain ⟨-, rfl⟩ := step_deliverNotify h
    exact .same (setInfo_succ_of_fingerTable sys s _ (notify_fingerTable (sys.info s) s n))
  | fixFingersLookup n r =>
    obtain ⟨-, -, rfl⟩ := step_fixFingersLookup h
    exact .same rfl
  | fixFingersSet n =>
    obtain ⟨r, hphase, rfl⟩ := step_fixFingersSet h
    refine .same ?_
    by_cases hi : sys.nextFinger n = 0
    · have hr := hinv.fixing n r hphase (Or.inl hi)
      simp [hi, hr, succ]
    · simp [NodeInformation.setFinger_ne _ (Ne.symm hi), succ]
  | checkPredecessor n =>
    obtain rfl := step_checkPredecessor h
    exact .same rfl

/-- The predecessor pointers after one step. -/
lemma pred_step (hinv : PointerInv b sys) (h : step sha256 b a sys = some sys') :
    PredStep a sys sys' := by
  cases a with
  | create =>
    obtain ⟨-, hnone, rfl⟩ := step_create h
    rw [hinv.getSuccessor_eq] at hnone
    exact .same (by simp [← hinv.pred_eq_none hnone])
  | joinStart n =>
    obtain ⟨-, -, hnone, rfl⟩ := step_joinStart h
    rw [hinv.getSuccessor_eq] at hnone
    exact .same (by simp [← hinv.pred_eq_none hnone])
  | joinAnswer n s =>
    obtain ⟨-, -, rfl⟩ := step_joinAnswer h
    exact .same (by simp [pred])
  | joinRefused n =>
    obtain ⟨-, rfl⟩ := step_joinRefused h
    exact .same (by simp [pred])
  | handover n =>
    obtain ⟨-, s, items, info, -, -, -, hp, rfl⟩ := step_handover h
    exact .same (by simp [hp, pred])
  | storeItems n =>
    obtain ⟨items, -, rfl⟩ := step_storeItems h
    exact .same (by simp [pred])
  | stabilizeRead n =>
    obtain ⟨-, ⟨s, -, rfl⟩ | rfl⟩ := step_stabilizeRead h
    · exact .same rfl
    · exact .same rfl
  | stabilizeAct n =>
    obtain ⟨s, p, -, ⟨-, rfl⟩ | ⟨x, -, -, -, rfl⟩ | ⟨-, -, rfl⟩⟩ := step_stabilizeAct h
    · exact .same rfl
    · exact .same (by simp [pred])
    · exact .same rfl
  | deliverNotify n s =>
    obtain ⟨hmem, rfl⟩ := step_deliverNotify h
    rcases notify_cases (sys.info s) s n with heq | ⟨hcase, heq⟩
    · exact .same (by simp [heq, pred])
    · exact .moved n s rfl hmem hcase (by simp [heq]) (by simp [heq, succ])
  | fixFingersLookup n r =>
    obtain ⟨-, -, rfl⟩ := step_fixFingersLookup h
    exact .same rfl
  | fixFingersSet n =>
    obtain ⟨r, -, rfl⟩ := step_fixFingersSet h
    exact .same (by simp [pred])
  | checkPredecessor n =>
    obtain rfl := step_checkPredecessor h
    exact .same rfl

/-- The messages after one step: a new one is sent by `stabilize` to the successor of its sender. -/
lemma notifies_step (hinv : PointerInv b sys) (h : step sha256 b a sys = some sys') {m : N × N}
    (hm : m ∈ sys'.notifies) :
    m ∈ sys.notifies ∨ a = .stabilizeAct m.1 ∧ sys'.succ m.1 = some m.2 := by
  cases a with
  | create =>
    obtain ⟨-, -, rfl⟩ := step_create h
    exact Or.inl hm
  | joinStart n =>
    obtain ⟨-, -, -, rfl⟩ := step_joinStart h
    exact Or.inl hm
  | joinAnswer n s =>
    obtain ⟨-, -, rfl⟩ := step_joinAnswer h
    exact Or.inl hm
  | joinRefused n =>
    obtain ⟨-, rfl⟩ := step_joinRefused h
    exact Or.inl hm
  | handover n =>
    obtain ⟨-, s, items, info, -, -, -, -, rfl⟩ := step_handover h
    exact Or.inl hm
  | storeItems n =>
    obtain ⟨items, -, rfl⟩ := step_storeItems h
    exact Or.inl hm
  | stabilizeRead n =>
    obtain ⟨-, ⟨s, -, rfl⟩ | rfl⟩ := step_stabilizeRead h
    · exact Or.inl hm
    · exact Or.inl hm
  | stabilizeAct n =>
    obtain ⟨s, p, hphase, ⟨-, rfl⟩ | ⟨x, -, -, -, rfl⟩ | ⟨-, -, rfl⟩⟩ := step_stabilizeAct h
    · exact Or.inl hm
    · rcases List.mem_cons.mp hm with rfl | hm
      · exact Or.inr ⟨rfl, by simp⟩
      · exact Or.inl hm
    · rcases List.mem_cons.mp hm with rfl | hm
      · exact Or.inr ⟨rfl, hinv.stabilizing n s p hphase⟩
      · exact Or.inl hm
  | deliverNotify n s =>
    obtain ⟨-, rfl⟩ := step_deliverNotify h
    exact Or.inl (List.mem_of_mem_erase hm)
  | fixFingersLookup n r =>
    obtain ⟨-, -, rfl⟩ := step_fixFingersLookup h
    exact Or.inl hm
  | fixFingersSet n =>
    obtain ⟨r, -, rfl⟩ := step_fixFingersSet h
    exact Or.inl hm
  | checkPredecessor n =>
    obtain rfl := step_checkPredecessor h
    exact Or.inl hm

/-- The main loop of the node `m` after one step. -/
lemma phase_step (hinv : PointerInv b sys) (h : step sha256 b a sys = some sys') (m : N) :
    PhaseStep sys sys' m := by
  cases a with
  | create =>
    obtain ⟨hidle, -, rfl⟩ := step_create h
    by_cases hm : m = b
    · exact .idle (hm ▸ hidle)
    · exact .kept rfl (by simp [hm]) rfl
  | joinStart n =>
    obtain ⟨-, -, hnone, rfl⟩ := step_joinStart h
    rw [hinv.getSuccessor_eq] at hnone
    by_cases hm : m = n
    · subst hm
      exact .asks (by simp) (by simpa [succ] using hnone)
    · exact .kept (by simp [hm]) (by simp [hm]) rfl
  | joinAnswer n s =>
    obtain ⟨-, -, rfl⟩ := step_joinAnswer h
    by_cases hm : m = n
    · exact .requests (by simp [hm])
    · exact .kept (by simp [hm]) (by simp [hm]) rfl
  | joinRefused n =>
    obtain ⟨-, rfl⟩ := step_joinRefused h
    by_cases hm : m = n
    · exact .idle (by simp [hm])
    · exact .kept (by simp [hm]) (by simp [hm]) rfl
  | handover n =>
    obtain ⟨-, s, items, info, -, -, hf, -, rfl⟩ := step_handover h
    by_cases hm : m = n
    · exact .stores items (by simp [hm])
    · exact .kept (by simp [hm]) (congrFun (setInfo_succ_of_fingerTable sys s info hf) m) rfl
  | storeItems n =>
    obtain ⟨items, -, rfl⟩ := step_storeItems h
    by_cases hm : m = n
    · exact .idle (by simp [hm])
    · exact .kept (by simp [hm]) (by simp [hm]) rfl
  | stabilizeRead n =>
    obtain ⟨-, ⟨s, hs, rfl⟩ | rfl⟩ := step_stabilizeRead h
    · rw [hinv.getSuccessor_eq] at hs
      by_cases hm : m = n
      · subst hm
        exact .reads s (by simp) hs rfl
      · exact .kept (by simp [hm]) rfl rfl
    · exact .kept rfl rfl rfl
  | stabilizeAct n =>
    obtain ⟨s, p, -, ⟨-, rfl⟩ | ⟨x, -, -, -, rfl⟩ | ⟨-, -, rfl⟩⟩ := step_stabilizeAct h
    all_goals
      by_cases hm : m = n
      · exact .idle (by simp [hm])
      · exact .kept (by simp [hm]) (by simp [hm]) rfl
  | deliverNotify n s =>
    obtain ⟨-, rfl⟩ := step_deliverNotify h
    exact .kept rfl (congrFun (setInfo_succ_of_fingerTable sys s _
      (notify_fingerTable (sys.info s) s n)) m) rfl
  | fixFingersLookup n r =>
    obtain ⟨-, hmay, rfl⟩ := step_fixFingersLookup h
    by_cases hm : m = n
    · subst hm
      refine .finds r (by simp) (eq_succ_of_lookupMay hinv hmay) ?_
      rintro f rfl
      exact joined_of_lookupMay hinv hmay
    · exact .kept (by simp [hm]) rfl rfl
  | fixFingersSet n =>
    obtain ⟨r, -, rfl⟩ := step_fixFingersSet h
    by_cases hm : m = n
    · exact .idle (by simp [hm])
    · exact .kept (by simp [hm]) (by simp [hm]) (by simp [hm])
  | checkPredecessor n =>
    obtain rfl := step_checkPredecessor h
    exact .kept rfl rfl rfl

/-- A node with a successor keeps one. -/
lemma joined_step (hinv : PointerInv b sys) (h : step sha256 b a sys = some sys') {m : N}
    (hm : sys.Joined m) : sys'.Joined m := by
  unfold Joined at hm ⊢
  cases succ_step hinv h with
  | same heq => rwa [heq]
  | created _ _ heq =>
    rw [heq, Function.update_apply]
    split_ifs
    · exact Option.some_ne_none b
    · exact hm
  | joined n s _ _ _ heq =>
    rw [heq, Function.update_apply]
    split_ifs
    · exact Option.some_ne_none s
    · exact hm
  | shortened n s x _ _ _ _ heq =>
    rw [heq, Function.update_apply]
    split_ifs
    · exact Option.some_ne_none x
    · exact hm

/-- The finger tables after one step: apart from `finger[0]`, only `fixFingers` writes to them. -/
lemma finger_cases (h : step sha256 b a sys = some sys') (m : N) (i : Fin keyBits) :
    (sys'.info m).fingerTable i = (sys.info m).fingerTable i ∨ i = 0 ∨
      sys.phase m = .fixing ((sys'.info m).fingerTable i) := by
  by_cases hi : i = 0
  · exact Or.inr (Or.inl hi)
  -- A change of one node that leaves the fingers above `finger[0]` alone.
  have hother : ∀ {n : N} {info : NodeInformation N}, sys'.info = (sys.setInfo n info).info →
      info.fingerTable i = (sys.info n).fingerTable i →
      (sys'.info m).fingerTable i = (sys.info m).fingerTable i := by
    intro n info hinfo hkeep
    rw [hinfo, setInfo_info]
    by_cases hmn : m = n
    · subst hmn
      rwa [Function.update_self]
    · rw [Function.update_of_ne hmn]
  cases a with
  | create =>
    obtain ⟨-, -, rfl⟩ := step_create h
    exact Or.inl (hother rfl (NodeInformation.setSuccessor_fingerTable_ne _ hi _))
  | joinStart n =>
    obtain ⟨-, -, -, rfl⟩ := step_joinStart h
    exact Or.inl (hother rfl rfl)
  | joinAnswer n s =>
    obtain ⟨-, -, rfl⟩ := step_joinAnswer h
    exact Or.inl (hother rfl (NodeInformation.setSuccessor_fingerTable_ne _ hi _))
  | joinRefused n =>
    obtain ⟨-, rfl⟩ := step_joinRefused h
    exact Or.inl (hother rfl (NodeInformation.setSuccessor_fingerTable_ne _ hi _))
  | handover n =>
    obtain ⟨-, s, items, info, -, -, hkeep, -, rfl⟩ := step_handover h
    exact Or.inl (hother rfl (congrFun hkeep i))
  | storeItems n =>
    obtain ⟨items, -, rfl⟩ := step_storeItems h
    exact Or.inl (hother rfl (by rw [PeerImpl.storeDataItems_fingerTable]))
  | stabilizeRead n =>
    obtain ⟨-, ⟨s, -, rfl⟩ | rfl⟩ := step_stabilizeRead h
    · exact Or.inl rfl
    · exact Or.inl rfl
  | stabilizeAct n =>
    obtain ⟨s, p, -, ⟨-, rfl⟩ | ⟨x, -, -, -, rfl⟩ | ⟨-, -, rfl⟩⟩ := step_stabilizeAct h
    · exact Or.inl rfl
    · exact Or.inl (hother rfl (NodeInformation.setSuccessor_fingerTable_ne _ hi _))
    · exact Or.inl rfl
  | deliverNotify n s =>
    obtain ⟨-, rfl⟩ := step_deliverNotify h
    exact Or.inl (hother rfl (by rw [notify_fingerTable]))
  | fixFingersLookup n r =>
    obtain ⟨-, -, rfl⟩ := step_fixFingersLookup h
    exact Or.inl rfl
  | fixFingersSet n =>
    obtain ⟨r, hphase, rfl⟩ := step_fixFingersSet h
    by_cases hnext : i = sys.nextFinger n
    · by_cases hmn : m = n
      · subst hmn hnext
        exact Or.inr (Or.inr (by simpa using hphase))
      · exact Or.inl (by simp [hmn])
    · exact Or.inl (hother rfl (NodeInformation.setFinger_ne _ hnext _))
  | checkPredecessor n =>
    obtain rfl := step_checkPredecessor h
    exact Or.inl rfl

/-- Nodes without successor keep their finger tables empty. -/
lemma finger_step (hinv : PointerInv b sys) (h : step sha256 b a sys = some sys') {m : N}
    (hm : sys'.succ m = none) (i : Fin keyBits) : (sys'.info m).fingerTable i = none := by
  have hold : sys.succ m = none := by
    by_contra hjoined
    exact joined_step hinv h hjoined hm
  rcases finger_cases h m i with heq | rfl | hphase
  · rw [heq]
    exact hinv.finger_none m hold i
  · exact hm
  · exact (hinv.fixing m _ hphase (Or.inr hold)).trans hold

end Steps

end System

end ChordPlusPlus
