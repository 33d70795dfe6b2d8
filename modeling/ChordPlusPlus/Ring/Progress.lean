import ChordPlusPlus.Ring.Convergence

/-!
# What the main loops wait for

A main loop that waits for a reply goes on when the reply is there.  The one reply that may not be
possible yet is that of the handover, as long as the successor has no predecessor (`Running.Waits`).

`System.EntryInv` says that a node in this position is known to nobody, except to nodes that have been
given it as successor and wait for it in turn.  So the nodes that have their items form a ring of their
own, whose main loops do not wait (`Running.enabled_iff`).
-/

namespace ChordPlusPlus

open Run

variable {N : Type*} [Endpoint N]

namespace System

/-- Nodes that wait for their items are unknown to the nodes that have theirs. -/
structure EntryInv (b : N) (sys : System N) : Prop where
  /-- The bootstrap node does not join. -/
  bootstrap : sys.phase b ≠ .asking ∧ sys.phase b ≠ .requesting
  /-- The successor of a node that has its items has its items. -/
  succ : ∀ n s, sys.succ n = some s → sys.phase n ≠ .requesting → sys.phase s ≠ .requesting
  /-- A node with a predecessor has its items, and the predecessor too. -/
  pred : ∀ s p, sys.pred s = some p → sys.phase s ≠ .requesting ∧ sys.phase p ≠ .requesting
  /-- The same for a `notify` in flight. -/
  notify : ∀ n s, (n, s) ∈ sys.notifies → sys.phase n ≠ .requesting ∧ sys.phase s ≠ .requesting
  /-- The same for a predecessor that `stabilize` has read. -/
  read : ∀ n s p, sys.phase n = .stabilizing s (some p) → sys.phase p ≠ .requesting

variable [DecidableEq N] {sha256 : Bytes → IdType} {b n : N} {a : Action N} {sys sys' : System N}

/-- A joined node that has its items keeps them. -/
lemma not_requesting_step (hinv : PointerInv b sys) (h : step sha256 b a sys = some sys')
    (hn : sys.Joined n) (hphase : sys.phase n ≠ .requesting) : sys'.phase n ≠ .requesting := by
  intro hrequesting
  rcases phase_cases h n with heq | hmove
  · exact hphase (heq ▸ hrequesting)
  · rw [hrequesting] at hmove
    generalize hasking : sys.phase n = phase at hmove
    cases hmove with
    | answered s => exact hn (hinv.asking n hasking)

/-- A node stops waiting for its items when they are handed over. -/
lemma eq_handover_of_requesting (h : step sha256 b a sys = some sys')
    (hphase : sys.phase n = .requesting) (hphase' : sys'.phase n ≠ .requesting) :
    a = .handover n := by
  rcases phase_cases h n with heq | hmove
  · exact absurd (heq.trans hphase) hphase'
  · rw [hphase] at hmove
    generalize sys'.phase n = phase at hmove
    cases hmove with
    | served items => rfl

/-- The bootstrap node neither asks for a successor nor waits for items. -/
lemma EntryInv.bootstrap_step (hentry : EntryInv b sys) (h : step sha256 b a sys = some sys') :
    sys'.phase b ≠ .asking ∧ sys'.phase b ≠ .requesting := by
  rcases phase_cases h b with heq | hmove
  · rw [heq]
    exact hentry.bootstrap
  · generalize hphase' : sys'.phase b = phase' at hmove
    generalize hphase : sys.phase b = phase at hmove
    cases hmove with
    | asks => exact absurd rfl (step_joinStart h).1
    | answered s => exact absurd hphase hentry.bootstrap.1
    | refused | served | stored | reads | acts | finds | sets => exact ⟨nofun, nofun⟩

/-- The successors after one step. -/
lemma EntryInv.succ_step (hentry : EntryInv b sys) (hinv : PointerInv b sys)
    (h : step sha256 b a sys = some sys')
    (hserve : ∀ n, a = .handover n → ∃ s p, sys.succ n = some s ∧ sys.pred s = some p) {s : N}
    (hs : sys'.succ n = some s) (hphase : sys'.phase n ≠ .requesting) :
    sys'.phase s ≠ .requesting := by
  -- A pointer that stays leads to a node that has its items, at the latest from the handover on.
  have hkept : sys.succ n = some s → sys'.phase s ≠ .requesting := by
    intro hold
    apply not_requesting_step hinv h (hinv.succ_joined n s hold)
    by_cases hwaiting : sys.phase n = .requesting
    · obtain ⟨t, p, ht, hp⟩ := hserve n (eq_handover_of_requesting h hwaiting hphase)
      rw [hold] at ht
      obtain rfl := Option.some.inj ht
      exact (hentry.pred s p hp).1
    · exact hentry.succ n s hold hwaiting
  cases System.succ_step hinv h with
  | same heq => exact hkept (heq ▸ hs)
  | created _ _ heq =>
    by_cases hnb : n = b
    · subst hnb
      rw [heq, Function.update_self] at hs
      exact Option.some.inj hs ▸ hphase
    · rw [heq, Function.update_of_ne hnb] at hs
      exact hkept hs
  | joined m t hact _ _ heq =>
    by_cases hnm : n = m
    · subst hnm hact
      obtain ⟨-, -, rfl⟩ := step_joinAnswer h
      exact absurd (by simp) hphase
    · rw [heq, Function.update_of_ne hnm] at hs
      exact hkept hs
  | shortened m t x _ hread _ _ heq =>
    by_cases hnm : n = m
    · subst hnm
      rw [heq, Function.update_self] at hs
      obtain rfl := Option.some.inj hs
      have hjoined : sys.Joined x :=
        (hinv.knows x t (Or.inr (Or.inr ⟨n, hread⟩))).isSome
      exact not_requesting_step hinv h hjoined (hentry.read n t x hread)
    · rw [heq, Function.update_of_ne hnm] at hs
      exact hkept hs

/-- Each step keeps the invariant, if handovers are served by nodes that have a predecessor. -/
lemma EntryInv.step (hentry : EntryInv b sys) (hinv : PointerInv b sys)
    (h : System.step sha256 b a sys = some sys')
    (hserve : ∀ n, a = .handover n → ∃ s p, sys.succ n = some s ∧ sys.pred s = some p) :
    EntryInv b sys' := by
  -- What a step keeps of two nodes that know each other.
  have hkept : ∀ {p s}, sys.Knows p s →
      sys.phase s ≠ .requesting ∧ sys.phase p ≠ .requesting →
      sys'.phase s ≠ .requesting ∧ sys'.phase p ≠ .requesting := by
    intro p s hknows hphase
    have hpath := hinv.knows p s hknows
    obtain ⟨q, hq⟩ := hpath.exists_last
    exact ⟨not_requesting_step hinv h (hinv.succ_joined q s hq) hphase.1,
      not_requesting_step hinv h hpath.isSome hphase.2⟩
  have hpred : ∀ s p, sys'.pred s = some p →
      sys'.phase s ≠ .requesting ∧ sys'.phase p ≠ .requesting := by
    intro s p hp
    cases pred_step hinv h with
    | same heq =>
      rw [heq] at hp
      exact hkept (Or.inl hp) (hentry.pred s p hp)
    | moved n t _ hmem _ heq _ =>
      by_cases hst : s = t
      · subst hst
        rw [heq, Function.update_self] at hp
        obtain rfl := Option.some.inj hp
        exact hkept (Or.inr (Or.inl hmem)) (hentry.notify n s hmem).symm
      · rw [heq, Function.update_of_ne hst] at hp
        exact hkept (Or.inl hp) (hentry.pred s p hp)
  refine ⟨hentry.bootstrap_step h, fun n s => hentry.succ_step hinv h hserve, hpred, ?_, ?_⟩
  · intro n s hmem
    rcases notifies_step hinv h hmem with hold | ⟨hact, hs⟩
    · exact (hkept (Or.inr (Or.inl hold)) (hentry.notify n s hold).symm).symm
    · subst hact
      have hidle : sys'.phase n = .idle := by
        obtain ⟨t, p, -, ⟨-, rfl⟩ | ⟨x, -, -, -, rfl⟩ | ⟨-, -, rfl⟩⟩ := step_stabilizeAct h
        all_goals simp
      have hphase : sys'.phase n ≠ .requesting := by simp [hidle]
      exact ⟨hphase, hentry.succ_step hinv h hserve hs hphase⟩
  · intro n s p hread
    rcases (phase_step hinv h n).of_stabilizing hread with ⟨hold, -⟩ | ⟨hp, -, heq⟩
    · have hjoined := (hinv.knows p s (Or.inr (Or.inr ⟨n, hold⟩))).isSome
      exact not_requesting_step hinv h hjoined (hentry.read n s p hold)
    · exact (hpred s p hp.symm).2

end System

namespace Running

/-- The node waits for a handover from a node that has no predecessor. -/
def Waits (st : Running N) (n : N) : Prop :=
  st.phase n = .requesting ∧ ∃ s, st.succ n = some s ∧ st.pred s = none

variable [DecidableEq N] {sha256 : Bytes → IdType} {b n : N} {l : LoopAction N}
  {st st' : Running N}

lemma pointerInv (h : Reachable (step sha256 b) initial st) : System.PointerInv b st.toSystem :=
  System.pointerInv_of_reachable (reachable_toSystem h)

/-- A joined node stays joined. -/
lemma joined_step (hinv : System.PointerInv b st.toSystem) (h : step sha256 b l st = some st')
    (hn : st.Joined n) : st'.Joined n := by
  rcases toSystem_step h with ⟨m, -, heq⟩ | ⟨a, -, hsys⟩
  · rwa [heq]
  · exact System.joined_step hinv hsys hn

/-- The main loop of a node is moved by its own steps alone. -/
lemma stays (h : step sha256 b l st = some st') (hl : ¬ l.Of b n) :
    st'.point n = st.point n ∧ st'.phase n = st.phase n := by
  cases l with
  | goOn m =>
    obtain ⟨-, -, -, rfl⟩ := step_goOn h
    have hne : n ≠ m := fun heq => hl heq.symm
    exact ⟨Function.update_of_ne hne .., rfl⟩
  | act a =>
    have hphase : System.step sha256 b a st.toSystem = some st'.toSystem →
        st'.phase n = st.phase n := by
      intro hsys
      rcases System.phase_cases hsys n with heq | hmove
      · exact heq
      · exact absurd (hmove.exists_thread b) hl
    cases hthread : a.thread b with
    | none =>
      obtain ⟨hsys, hpoint⟩ := step_act_none hthread h
      exact ⟨congrFun hpoint n, hphase hsys⟩
    | some t =>
      obtain ⟨m, point⟩ := t
      obtain ⟨-, hsys, hpoint⟩ := step_act hthread h
      refine ⟨?_, hphase hsys⟩
      have hne : n ≠ m := by
        rintro rfl
        exact hl ⟨point, hthread⟩
      rw [hpoint, advance]
      split_ifs
      · exact Function.update_of_ne hne ..
      · rfl

/-! ## Invariants of the loop -/

/-- The phases that a node can be in at a statement of the loop. -/
def PhaseAt : LoopPoint → Phase N → Prop
  | _, .idle => True
  | .checkSuccessor, .asking => True
  | .checkSuccessor, .requesting => True
  | .checkSuccessor, .storing _ => True
  | .stabilize, .stabilizing _ _ => True
  | .fixFingers, .fixing _ => True
  | _, _ => False

/-- The phases belong to the statements at which the nodes are, and a node that waits for its items has
a successor to wait for. -/
structure LoopInv (st : Running N) : Prop where
  phaseAt : ∀ n, PhaseAt (st.point n) (st.phase n)
  requesting : ∀ n, st.phase n = .requesting → st.Joined n

omit [Endpoint N] [DecidableEq N] in
lemma phaseAt_of_move {a : Action N} {point : LoopPoint} {phase phase' : Phase N}
    (h : PhaseMove a n phase phase') (hthread : a.thread b = some (n, point)) :
    PhaseAt point phase' := by
  cases h <;> cases hthread <;> trivial

lemma LoopInv.step (hloop : LoopInv st) (hinv : System.PointerInv b st.toSystem)
    (h : Running.step sha256 b l st = some st') : LoopInv st' where
  phaseAt := by
    intro n
    by_cases hl : l.Of b n
    · cases l with
      | goOn m =>
        obtain rfl : m = n := hl
        obtain ⟨-, hidle, -, rfl⟩ := step_goOn h
        rw [show ({ st with point := _ } : Running N).phase m = .idle from hidle]
        trivial
      | act a =>
        obtain ⟨point, hthread⟩ := hl
        obtain ⟨hpoint, hsys, hadvance⟩ := step_act hthread h
        by_cases hidle : st'.phase n = .idle
        · rw [hidle]
          trivial
        · have hsame : st'.point n = point := by rw [hadvance, advance, if_neg hidle, hpoint]
          rw [hsame]
          rcases System.phase_cases hsys n with heq | hmove
          · rw [heq, ← hpoint]
            exact hloop.phaseAt n
          · exact phaseAt_of_move hmove hthread
    · obtain ⟨hpoint, hphase⟩ := stays h hl
      rw [hpoint, hphase]
      exact hloop.phaseAt n
  requesting := by
    intro n hn
    rcases toSystem_step h with ⟨m, -, heq⟩ | ⟨a, -, hsys⟩
    · rw [heq] at hn ⊢
      exact hloop.requesting n hn
    · rcases System.phase_cases hsys n with heq | hmove
      · exact System.joined_step hinv hsys (hloop.requesting n (heq ▸ hn))
      · rw [hn] at hmove
        generalize st.phase n = phase at hmove
        cases hmove with
        | answered n s =>
          obtain ⟨-, -, heq⟩ := System.step_joinAnswer hsys
          rw [heq]
          simp [System.Joined]

lemma loopInv (h : Reachable (step sha256 b) initial st) : LoopInv st := by
  have hinit : LoopInv (initial : Running N) := ⟨(fun _ => trivial), (fun _ h => nomatch h)⟩
  refine h.induction hinit ?_
  intro l s s' hreach hloop hstep
  exact hloop.step (pointerInv hreach) hstep

/-- In every reachable state nodes that wait for their items are unknown to the others. -/
lemma entryInv (h : Reachable (step sha256 b) initial st) : System.EntryInv b st.toSystem := by
  have hinit : System.EntryInv b (initial : Running N).toSystem :=
    ⟨⟨nofun, nofun⟩, nofun, nofun, nofun, nofun⟩
  refine h.induction (P := fun t => System.EntryInv b t.toSystem) hinit ?_
  intro l s s' hreach hentry hstep
  have hinv := pointerInv hreach
  rcases toSystem_step hstep with ⟨m, -, heq⟩ | ⟨a, rfl, hsys⟩
  · rwa [heq]
  · refine hentry.step hinv hsys ?_
    rintro n rfl
    obtain ⟨t, p, ht, hp⟩ := step_act_handover hstep
    exact ⟨t, p, (hinv.getSuccessor_eq n).symm.trans ht, hp⟩

/-! ## No other main loop gets stuck -/

/-- A step of the system that belongs to the statement at which the node is can be taken. -/
lemma exists_step_act {a : Action N} {point : LoopPoint} (hthread : a.thread b = some (n, point))
    (hpoint : st.point n = point) (hpresent : st.readsAbsent a = false) {sys : System N}
    (hsys : System.step sha256 b a st.toSystem = some sys) :
    ∃ st', step sha256 b (.act a) st = some st' :=
  ⟨⟨sys, st.advance sys n⟩, by simp [step, hthread, hpoint, hpresent, hsys]⟩

/-- A message in flight can be delivered. -/
lemma exists_step_deliverNotify (sha256 : Bytes → IdType) (b : N) {s : N}
    (hmem : (n, s) ∈ st.notifies) :
    ∃ st', step sha256 b (.act (.deliverNotify n s)) st = some st' := by
  have hsys : System.step sha256 b (.deliverNotify n s) st.toSystem = some _ := if_pos hmem
  simp only [step, Action.thread, hsys, Option.map_some]
  exact ⟨_, rfl⟩

/-- Some answer of a lookup is always possible. -/
lemma exists_lookupMay (sys : System N) (n : N) (key : IdType) :
    ∃ r, sys.lookupMay n key r = true := by
  unfold System.lookupMay
  cases PeerImpl.requested n (sys.info n) key with
  | thisNode => exact ⟨some n, by simp⟩
  | nextNode s => exact ⟨some s, by simp⟩
  | otherNode => exact ⟨none, rfl⟩

/-- The statement at which a node is can be carried out. -/
lemma enabled_of_step {a : Action N} (hthread : a.thread b = some (n, st.point n))
    (hpresent : st.readsAbsent a = false) {sys : System N}
    (hsys : System.step sha256 b a st.toSystem = some sys) :
    Enabled (step sha256 b) (LoopAction.Of b) n st := by
  obtain ⟨st', hst'⟩ := exists_step_act hthread rfl hpresent hsys
  exact ⟨.act a, st', ⟨_, hthread⟩, hst'⟩

/-- A node inside a statement can go on, unless it waits. -/
lemma enabled_of_busy (hinv : System.PointerInv b st.toSystem) (hloop : LoopInv st)
    (hb : st.Joined b) (hbusy : st.phase n ≠ .idle) (hwaits : ¬ st.Waits n) :
    Enabled (step sha256 b) (LoopAction.Of b) n st := by
  have hat := hloop.phaseAt n
  cases hphase : st.phase n with
  | idle => exact absurd hphase hbusy
  | asking =>
    cases hpoint : st.point n <;> simp only [hphase, hpoint, PhaseAt] at hat
    have hb' := (hinv.getSuccessor_eq b).trans_ne hb
    exact enabled_of_step (a := .joinAnswer n b) (by rw [hpoint, Action.thread]) rfl
      (if_pos ⟨hphase, hb'⟩)
  | requesting =>
    cases hpoint : st.point n <;> simp only [hphase, hpoint, PhaseAt] at hat
    obtain ⟨s, hs⟩ := Option.ne_none_iff_exists'.mp (hloop.requesting n hphase)
    have hs' := (hinv.getSuccessor_eq n).trans hs
    obtain ⟨p, hp⟩ := Option.ne_none_iff_exists'.mp fun hp => hwaits ⟨hphase, s, hs, hp⟩
    have hpresent : st.readsAbsent (.handover n) = false := by
      simp [System.readsAbsent, hs', hp]
    cases hserve : PeerImpl.getDataItemsOnJoin sha256 s (st.info s) n with
    | none =>
      exact enabled_of_step (a := .handover n) (by rw [hpoint, Action.thread]) hpresent
        (by simp only [System.step, hphase, hs', hserve]; rfl)
    | some served =>
      exact enabled_of_step (a := .handover n) (by rw [hpoint, Action.thread]) hpresent
        (by simp only [System.step, hphase, hs', hserve]; rfl)
  | storing items =>
    cases hpoint : st.point n <;> simp only [hphase, hpoint, PhaseAt] at hat
    exact enabled_of_step (a := .storeItems n) (by rw [hpoint, Action.thread]) rfl
      (by simp only [System.step, hphase]; rfl)
  | stabilizing s p =>
    cases hpoint : st.point n <;> simp only [hphase, hpoint, PhaseAt] at hat
    exact enabled_of_step (a := .stabilizeAct n) (by rw [hpoint, Action.thread]) rfl
      (by simp only [System.step, hphase]; rfl)
  | fixing r =>
    cases hpoint : st.point n <;> simp only [hphase, hpoint, PhaseAt] at hat
    exact enabled_of_step (a := .fixFingersSet n) (by rw [hpoint, Action.thread]) rfl
      (by simp only [System.step, hphase]; rfl)

/-- A node between two statements can go on, once the ring exists. -/
lemma enabled_of_idle (hinv : System.PointerInv b st.toSystem) (hb : st.Joined b)
    (hidle : st.phase n = .idle) : Enabled (step sha256 b) (LoopAction.Of b) n st := by
  cases hpoint : st.point n with
  | checkSuccessor =>
    by_cases hsucc : (st.info n).getSuccessor = none
    · have hnb : n ≠ b := by
        rintro rfl
        exact hb ((hinv.getSuccessor_eq n).symm.trans hsucc)
      exact enabled_of_step (a := .joinStart n) (by rw [hpoint, Action.thread]) rfl
        (if_pos ⟨hnb, hidle, hsucc⟩)
    · exact ⟨.goOn n, _, rfl, if_pos ⟨hpoint, hidle, hsucc⟩⟩
  | stabilize =>
    cases hsucc : (st.info n).getSuccessor with
    | none =>
      exact enabled_of_step (a := .stabilizeRead n) (by rw [hpoint, Action.thread]) rfl
        (by simp only [System.step, hidle, hsucc]; rfl)
    | some s =>
      exact enabled_of_step (a := .stabilizeRead n) (by rw [hpoint, Action.thread]) rfl
        (by simp only [System.step, hidle, hsucc]; rfl)
  | fixFingers =>
    obtain ⟨r, hr⟩ := exists_lookupMay st.toSystem n (st.fingerStart n)
    exact enabled_of_step (a := .fixFingersLookup n r) (by rw [hpoint, Action.thread]) rfl
      (if_pos ⟨hidle, hr⟩)
  | checkPredecessor =>
    exact enabled_of_step (a := .checkPredecessor n) (by rw [hpoint, Action.thread]) rfl
      (if_pos hidle)

/-- A node that waits for its items takes no step but the handover. -/
lemma eq_handover_of_step (hphase : st.phase n = .requesting) (hl : l.Of b n)
    (h : step sha256 b l st = some st') : l = .act (.handover n) := by
  cases l with
  | goOn m =>
    obtain rfl : m = n := hl
    simp [(step_goOn h).2.1] at hphase
  | act a =>
    obtain ⟨point, hthread⟩ := hl
    obtain ⟨-, hsys, -⟩ := step_act hthread h
    cases a <;> cases hthread <;> simp_all [System.step]

/-- Once the ring exists, a main loop can take a step exactly if it does not wait for a handover from a
node that has no predecessor. -/
lemma enabled_iff (hreach : Reachable (step sha256 b) initial st) (hb : st.Joined b) (n : N) :
    Enabled (step sha256 b) (LoopAction.Of b) n st ↔ ¬ st.Waits n := by
  have hinv := pointerInv hreach
  constructor
  · rintro ⟨l, st', hl, hstep⟩ ⟨hphase, s, hs, hnone⟩
    obtain rfl := eq_handover_of_step hphase hl hstep
    obtain ⟨t, p, ht, hp⟩ := step_act_handover hstep
    rw [hinv.getSuccessor_eq] at ht
    obtain rfl := Option.some.inj (hs.symm.trans ht)
    rw [hnone] at hp
    cases hp
  · intro hwaits
    by_cases hidle : st.phase n = .idle
    · exact enabled_of_idle hinv hb hidle
    · exact enabled_of_busy hinv (loopInv hreach) hb hidle hwaits

end Running

end ChordPlusPlus
