import ChordPlusPlus.Ring.Join
import ChordPlusPlus.Ring.Progress
import Mathlib.Data.Set.Card

/-!
# The main loops repair the ring

A deployment in which every joined node that can go on with its main loop does so, and every `notify`
is delivered at some time, ends in the ideal ring, and stays there.

Entries are finite in number, since a node enters once.  After the last one the pointers move only
finitely often.  From then on a node that has its items comes through its loop again and again, so
`stabilize` runs to its end twice; what it has read the second time is up to date, and the `notify` it
sends tells the successor of the node.  So all nodes on the way of the bootstrap node round the circle
have a predecessor, nobody waits for one any more, and pointers that agree in this way are those of the
ideal ring.
-/

namespace ChordPlusPlus

open Filter Pointers Run

variable {N : Type*} [Endpoint N]

namespace System

variable {b : N} {sys sys' : System N}

/-! ## Pointers that agree -/

/-- Without the messages and the work in progress the invariant still holds. -/
lemma PointerInv.quiet (hinv : PointerInv b sys) :
    PointerInv b { sys with phase := fun _ => .idle, notifies := [] } where
  finger_none := hinv.finger_none
  succ_joined := hinv.succ_joined
  bootstrap_joined := hinv.bootstrap_joined
  cycle := hinv.cycle
  reach := hinv.reach
  knows := by
    rintro p s (h | h | ⟨n, h⟩)
    · exact hinv.knows p s (Or.inl h)
    · cases h
    · cases h
  stabilizing := fun _ _ _ h => nomatch h
  read := fun _ _ _ h => nomatch h
  fixing := fun _ _ h => nomatch h
  asking := fun _ h => nomatch h
  pred_self := hinv.pred_self
  notify_self := fun _ h => nomatch h

/-- A `notify` from a node that is not further away than the predecessor is heard. -/
lemma notify_predecessor {info : NodeInformation N} {n s : N} (hne : info.predecessor ≠ some n)
    (hfar : ∀ x, info.predecessor = some x → ¬ Arc.Open (getId n) (getId x) (getId s)) :
    (PeerImpl.notify s info n).predecessor = some n := by
  cases hp : info.predecessor with
  | none => simp [PeerImpl.notify, hp]
  | some x =>
    have hxn : getId n ≠ getId x := by
      intro h
      exact hne (by rw [hp, getId_injective h])
    have hopen : Arc.Open (getId x) (getId n) (getId s) := by
      rcases Arc.open_or_open hxn with hopen | heq | hopen
      · exact absurd hopen (hfar x hp)
      · rw [← heq]
        exact Arc.open_self_iff.mpr hxn
      · exact hopen
    simp [PeerImpl.notify, hp, hopen]

variable [DecidableEq N] {sha256 : Bytes → IdType} {a : Action N}

/-- If each node is the predecessor of its successor, and the fingers name joined nodes, the joined
nodes form the ideal ring. -/
lemma PointerInv.exists_ideal (hinv : PointerInv b sys) (hfingers : FingersJoined sys)
    (hpred : ∀ n s, sys.succ n = some s → sys.pred s = some n) {m : N} (hm : sys.Joined m) :
    ∃ ring : Finset N, (∀ n, n ∈ ring ↔ sys.Joined n) ∧
      ∀ method, IsIdeal (sys.network method) ring := by
  have hq : Quiescent (fun _ => getId b) b { sys with phase := fun _ => .idle, notifies := [] } := by
    refine quiescent_of_pred_succ rfl (fun _ => rfl) ?_
    intro n s hs
    exact hpred n s ((hinv.getSuccessor_eq n).symm.trans hs)
  obtain ⟨ring, hring, hnext⟩ := hq.neighbours hinv.quiet
  refine ⟨ring, hring, ?_⟩
  intro method
  refine ⟨⟨m, (hring m).mpr hm⟩, fun _ _ => rfl, ?_, ?_, ?_⟩
  · exact fun n hn => (hnext n hn).1
  · exact fun n hn => (hnext n hn).2
  · exact fun n _ i f hf => (hring f).mpr (hfingers.finger n i f hf)

/-- In every reachable state the fingers name joined nodes. -/
lemma fingersJoined_of_reachable (h : Reachable (step sha256 b) System.initial sys) :
    FingersJoined sys := by
  have hinit : FingersJoined (System.initial : System N) :=
    ⟨(fun _ _ _ hf => nomatch hf), (fun _ _ hf => nomatch hf)⟩
  refine h.induction hinit ?_
  intro a t t' hreach ht hstep
  exact ht.step (pointerInv_of_reachable hreach) hstep

/-- Messages are kept until they are delivered. -/
lemma mem_notifies_step (h : step sha256 b a sys = some sys') {m : N × N} (hm : m ∈ sys.notifies)
    (ha : a ≠ .deliverNotify m.1 m.2) : m ∈ sys'.notifies := by
  cases a with
  | create =>
    obtain ⟨-, -, rfl⟩ := step_create h
    exact hm
  | joinStart n =>
    obtain ⟨-, -, -, rfl⟩ := step_joinStart h
    exact hm
  | joinAnswer n s =>
    obtain ⟨-, -, rfl⟩ := step_joinAnswer h
    exact hm
  | joinRefused n =>
    obtain ⟨-, rfl⟩ := step_joinRefused h
    exact hm
  | handover n =>
    obtain ⟨-, s, items, info, -, -, -, -, rfl⟩ := step_handover h
    exact hm
  | storeItems n =>
    obtain ⟨items, -, rfl⟩ := step_storeItems h
    exact hm
  | stabilizeRead n =>
    obtain ⟨-, ⟨s, -, rfl⟩ | rfl⟩ := step_stabilizeRead h
    · exact hm
    · exact hm
  | stabilizeAct n =>
    obtain ⟨s, p, -, ⟨-, rfl⟩ | ⟨x, -, -, -, rfl⟩ | ⟨-, -, rfl⟩⟩ := step_stabilizeAct h
    · exact hm
    · exact List.mem_cons_of_mem _ hm
    · exact List.mem_cons_of_mem _ hm
  | deliverNotify n s =>
    obtain ⟨-, rfl⟩ := step_deliverNotify h
    refine (List.mem_erase_of_ne ?_).mpr hm
    rintro rfl
    exact ha rfl
  | fixFingersLookup n r =>
    obtain ⟨-, -, rfl⟩ := step_fixFingersLookup h
    exact hm
  | fixFingersSet n =>
    obtain ⟨r, -, rfl⟩ := step_fixFingersSet h
    exact hm
  | checkPredecessor n =>
    obtain rfl := step_checkPredecessor h
    exact hm

/-! ## Entries -/

/-- A node that enters had not joined before. -/
lemma enters_step (hinv : PointerInv b sys) (h : step sha256 b a sys = some sys') (ha : a.Enters) :
    ∃ n, ¬ sys.Joined n ∧ sys'.Joined n := by
  cases a with
  | create =>
    obtain ⟨-, hnone, rfl⟩ := step_create h
    rw [hinv.getSuccessor_eq] at hnone
    exact ⟨b, not_not.mpr hnone, by simp [Joined]⟩
  | joinAnswer n s =>
    obtain ⟨hasking, -, rfl⟩ := step_joinAnswer h
    exact ⟨n, not_not.mpr (hinv.asking n hasking), by simp [Joined]⟩
  | joinStart | joinRefused | handover | storeItems | stabilizeRead | stabilizeAct | deliverNotify
  | fixFingersLookup | fixFingersSet | checkPredecessor => exact ha.elim

/-- A step by which no node enters does not add to the joined nodes. -/
lemma joined_of_not_enters (hinv : PointerInv b sys) (h : step sha256 b a sys = some sys')
    (ha : ¬ a.Enters) {n : N} (hn : sys'.Joined n) : sys.Joined n := by
  cases succ_step hinv h with
  | same heq => rwa [Joined, heq] at hn
  | created hact _ _ => exact absurd (hact ▸ trivial) ha
  | joined m s hact _ _ _ => exact absurd (hact ▸ trivial) ha
  | shortened m s x _ _ hs _ heq =>
    rw [Joined, heq] at hn
    by_cases hnm : n = m
    · rw [Joined, hnm, hs]
      exact Option.some_ne_none s
    · rwa [Function.update_of_ne hnm] at hn

/-- The number of nodes that have not joined. -/
noncomputable def outsiders (sys : System N) : ℕ := {n | ¬ sys.Joined n}.ncard

lemma outsiders_le (hinv : PointerInv b sys) (h : step sha256 b a sys = some sys') :
    sys'.outsiders ≤ sys.outsiders := by
  have : Finite N := finite_endpoints
  apply Set.ncard_le_ncard _ (Set.toFinite _)
  intro n hn hjoined
  exact hn (joined_step hinv h hjoined)

lemma outsiders_lt (hinv : PointerInv b sys) (h : step sha256 b a sys = some sys')
    (ha : a.Enters) : sys'.outsiders < sys.outsiders := by
  have : Finite N := finite_endpoints
  apply Set.ncard_lt_ncard _ (Set.toFinite _)
  obtain ⟨n, hn, hn'⟩ := enters_step hinv h ha
  refine (Set.ssubset_iff_of_subset ?_).mpr ⟨n, hn, not_not.mpr hn'⟩
  intro m hm hjoined
  exact hm (joined_step hinv h hjoined)

end System

/-- By the step a node enters the ring. -/
def LoopAction.Enters : LoopAction N → Prop
  | .goOn _ => False
  | .act a => a.Enters

namespace Running

/-- How many steps of its main loop a joined node is away from the second half of `stabilize`. -/
def loopRank (st : Running N) (n : N) : ℕ :=
  match st.point n, st.phase n with
  | .checkSuccessor, .requesting => 4
  | .checkSuccessor, .storing _ => 3
  | .checkSuccessor, _ => 2
  | .stabilize, .idle => 1
  | .stabilize, _ => 0
  | .fixFingers, .idle => 5
  | .fixFingers, _ => 4
  | .checkPredecessor, _ => 3

variable [DecidableEq N] {sha256 : Bytes → IdType} {b n : N} {l : LoopAction N}
  {st st' : Running N}

/-- Every step of the main loop of a joined node, other than the second half of `stabilize`, brings it
closer to this one. -/
lemma loopRank_step (hinv : System.PointerInv b st.toSystem) (hn : st.Joined n)
    (h : step sha256 b l st = some st') (hl : l.Of b n) (hne : l ≠ .act (.stabilizeAct n)) :
    st'.loopRank n < st.loopRank n := by
  cases l with
  | goOn m =>
    obtain rfl : m = n := hl
    obtain ⟨hpoint, hidle, -, rfl⟩ := step_goOn h
    simp [loopRank, hpoint, hidle]
  | act a =>
    obtain ⟨point, hthread⟩ := hl
    obtain ⟨hpoint, hsys, hadvance⟩ := step_act hthread h
    have hsucc : (st.info n).getSuccessor ≠ none := by
      rw [hinv.getSuccessor_eq]
      exact hn
    cases a with
    | create =>
      cases hthread
      exact absurd (System.step_create hsys).2.1 hsucc
    | joinStart m =>
      cases hthread
      exact absurd (System.step_joinStart hsys).2.2.1 hsucc
    | joinAnswer m s =>
      cases hthread
      exact absurd (hinv.asking n (System.step_joinAnswer hsys).1) hn
    | joinRefused m =>
      cases hthread
      exact absurd (hinv.asking n (System.step_joinRefused hsys).1) hn
    | handover m =>
      cases hthread
      obtain ⟨hphase, s, items, info, -, -, -, -, heq⟩ := System.step_handover hsys
      simp [loopRank, hadvance, advance, heq, hphase, hpoint]
    | storeItems m =>
      cases hthread
      obtain ⟨items, hphase, heq⟩ := System.step_storeItems hsys
      simp [loopRank, hadvance, advance, heq, hphase, hpoint, LoopPoint.next]
    | stabilizeRead m =>
      cases hthread
      obtain ⟨s, hs⟩ := Option.ne_none_iff_exists'.mp hsucc
      have hphase := (System.step_stabilizeRead hsys).1
      have heq : st'.toSystem = st.setPhase n (.stabilizing s (st.pred s)) := by
        simpa [System.step, hphase, hs] using hsys.symm
      simp [loopRank, hadvance, advance, heq, hphase, hpoint]
    | stabilizeAct m =>
      cases hthread
      exact absurd rfl hne
    | deliverNotify m s => cases hthread
    | fixFingersLookup m r =>
      cases hthread
      obtain ⟨hphase, -, heq⟩ := System.step_fixFingersLookup hsys
      simp [loopRank, hadvance, advance, heq, hphase, hpoint]
    | fixFingersSet m =>
      cases hthread
      obtain ⟨r, hphase, heq⟩ := System.step_fixFingersSet hsys
      simp [loopRank, hadvance, advance, heq, hphase, hpoint, LoopPoint.next]
    | checkPredecessor m =>
      cases hthread
      have hphase : st.phase n = .idle := by
        simp only [System.step] at hsys
        split_ifs at hsys with hc
        exact hc
      have heq := System.step_checkPredecessor hsys
      simp [loopRank, hadvance, advance, heq, hphase, hpoint, LoopPoint.next]

/-- A step by which no node enters does not add to the joined nodes. -/
lemma joined_of_not_enters (hinv : System.PointerInv b st.toSystem)
    (h : step sha256 b l st = some st') (hl : ¬ l.Enters) (hn : st'.Joined n) : st.Joined n := by
  rcases toSystem_step h with ⟨m, -, heq⟩ | ⟨a, rfl, hsys⟩
  · rwa [heq] at hn
  · exact System.joined_of_not_enters hinv hsys hl hn

/-- The steps of the main loop of a joined node are no entries. -/
lemma not_enters_of_joined (hinv : System.PointerInv b st.toSystem) (hn : st.Joined n)
    (hl : l.Of b n) (h : step sha256 b l st = some st') : ¬ l.Enters := by
  rcases toSystem_step h with ⟨m, rfl, -⟩ | ⟨a, rfl, hsys⟩
  · exact id
  · obtain ⟨point, hthread⟩ := hl
    cases a with
    | create =>
      cases hthread
      exact absurd ((hinv.getSuccessor_eq b).symm.trans (System.step_create hsys).2.1) hn
    | joinAnswer m s =>
      cases hthread
      exact absurd (hinv.asking n (System.step_joinAnswer hsys).1) hn
    | joinStart | joinRefused | handover | storeItems | stabilizeRead | stabilizeAct | deliverNotify
    | fixFingersLookup | fixFingersSet | checkPredecessor => exact id

/-- A joined node that has its items keeps them. -/
lemma not_requesting_step (hinv : System.PointerInv b st.toSystem)
    (h : step sha256 b l st = some st') (hn : st.Joined n) (hphase : st.phase n ≠ .requesting) :
    st'.phase n ≠ .requesting := by
  rcases toSystem_step h with ⟨m, -, heq⟩ | ⟨a, -, hsys⟩
  · rwa [heq]
  · exact System.not_requesting_step hinv hsys hn hphase

/-! ## Infinite runs -/

/-- No main loop of a node that joins is passed over for ever while it can take a step, and each message
is delivered at some time. -/
structure Fair (sha256 : Bytes → IdType) (b : N) (run : ℕ → Running N)
    (act : ℕ → LoopAction N) : Prop where
  nodes : ∀ n, (∃ i, (run i).Joined n) →
    ∃ᶠ i in atTop, Enabled (step sha256 b) (LoopAction.Of b) n (run i) → (act i).Of b n
  messages : ∀ i n s, (n, s) ∈ (run i).notifies → ∃ j ≥ i, act j = .act (.deliverNotify n s)

/-- At some time the node has joined and has its items. -/
def GetsItems (run : ℕ → Running N) (n : N) : Prop :=
  ∃ i, (run i).Joined n ∧ (run i).phase n ≠ .requesting

/-- From the index `K` on no pointer moves. -/
def Steady (run : ℕ → Running N) (K : ℕ) : Prop :=
  ∀ i ≥ K, (run i).succ = (run K).succ ∧ (run i).pred = (run K).pred

section Runs

variable {run : ℕ → Running N} {act : ℕ → LoopAction N} {K : ℕ}
  (hinv : ∀ i, System.PointerInv b (run i).toSystem)
  (hnext : ∀ i, step sha256 b (act i) (run i) = some (run (i + 1)))

include hinv hnext

/-- A joined node stays joined for the rest of the run. -/
lemma joined_of_le {i j : ℕ} (hij : i ≤ j) (hn : (run i).Joined n) : (run j).Joined n := by
  induction j, hij using Nat.le_induction with
  | base => exact hn
  | succ j _ ih => exact joined_step (hinv j) (hnext j) ih

/-- From some time on no node enters. -/
lemma exists_last_entry : ∃ K, ∀ i ≥ K, ¬ (act i).Enters := by
  have hfinite : {i | 0 ≤ i ∧ (act i).Enters}.Finite := by
    refine finite_of_strict_decrease (fun i => (run i).outsiders) ?_ ?_
    · intro i _
      rcases toSystem_step (hnext i) with ⟨m, -, heq⟩ | ⟨a, -, hsys⟩
      · exact (congrArg System.outsiders heq).le
      · exact System.outsiders_le (hinv i) hsys
    · intro i _ henters
      rcases toSystem_step (hnext i) with ⟨m, hm, -⟩ | ⟨a, ha, hsys⟩
      · exact (hm ▸ henters : LoopAction.Enters (.goOn m)).elim
      · exact System.outsiders_lt (hinv i) hsys (ha ▸ henters : LoopAction.Enters (.act a))
  obtain ⟨K, -, hK⟩ := exists_bound_of_finite hfinite
  exact ⟨K, hK⟩

/-- From some time on no pointer moves. -/
lemma exists_steady : ∃ K, Steady run K := by
  obtain ⟨k, hk⟩ := exists_last_entry hinv hnext
  have hfinite : {i | k ≤ i ∧
      System.Moved (run i).toSystem (run (i + 1)).toSystem}.Finite := by
    refine finite_of_strict_decrease (fun i => (run i).pointerMeasure) ?_ ?_
    · intro i hi
      rcases toSystem_step (hnext i) with ⟨m, -, heq⟩ | ⟨a, ha, hsys⟩
      · exact (congrArg System.pointerMeasure heq).le
      · exact System.measure_step_le (hinv i) hsys fun henters => hk i hi (ha ▸ henters)
    · intro i hi hmoved
      rcases toSystem_step (hnext i) with ⟨m, -, heq⟩ | ⟨a, ha, hsys⟩
      · rw [heq] at hmoved
        exact absurd hmoved (not_or.mpr ⟨not_not.mpr rfl, not_not.mpr rfl⟩)
      · exact System.measure_step_lt (hinv i) hsys (fun henters => hk i hi (ha ▸ henters)) hmoved
  obtain ⟨K, -, hK⟩ := exists_bound_of_finite hfinite
  have hsame : ∀ i ≥ K, ¬ ((run (i + 1)).succ, (run (i + 1)).pred) ≠
      ((run i).succ, (run i).pred) := by
    intro i hi hne
    apply hK i hi
    by_contra hstill
    obtain ⟨hsucc, hpred⟩ := not_or.mp hstill
    exact hne (Prod.ext (not_not.mp hsucc) (not_not.mp hpred))
  refine ⟨K, ?_⟩
  intro i hi
  exact Prod.mk.inj (const_of_no_change (f := fun i => ((run i).succ, (run i).pred)) hsame hi)

/-- A joined node that goes on with its main loop finishes `stabilize` again and again. -/
lemma frequently_stabilizeAct {k : ℕ} (hn : (run k).Joined n)
    (hown : ∃ᶠ i in atTop, (act i).Of b n) :
    ∃ᶠ i in atTop, act i = .act (.stabilizeAct n) := by
  have hstay : ∀ i ≥ k, ¬ (act i).Of b n → (run (i + 1)).loopRank n = (run i).loopRank n := by
    intro i _ hl
    obtain ⟨hpoint, hphase⟩ := stays (hnext i) hl
    simp only [loopRank, hpoint, hphase]
  have hcloser : ∀ i ≥ k, (act i).Of b n → act i ≠ .act (.stabilizeAct n) →
      (run (i + 1)).loopRank n < (run i).loopRank n := by
    intro i hi hl hne
    exact loopRank_step (hinv i) (joined_of_le hinv hnext hi hn) (hnext i) hl hne
  refine (frequently_of_rank (fun i => (run i).loopRank n) _ _ hstay hcloser hown).mono ?_
  exact fun i hi => hi.2

/-- Once the pointers are steady and `n` has finished `stabilize`, what `n` reads from its successor is
up to date. -/
lemma read_of_steady (hsteady : Steady run K) {i : ℕ} (hi : K ≤ i)
    (hact : act i = .act (.stabilizeAct n)) {j : ℕ} (hij : i < j) {s : N} {p : Option N}
    (hphase : (run j).phase n = .stabilizing s p) : p = (run K).pred s := by
  induction j, hij using Nat.le_induction generalizing s p with
  | base =>
    have hsys : System.step sha256 b (.stabilizeAct n) (run i).toSystem =
        some (run (i + 1)).toSystem := by
      have hstep := hnext i
      rw [hact] at hstep
      exact (step_act rfl hstep).2.1
    -- The phase is idle again.
    obtain ⟨t, q, -, ⟨-, heq⟩ | ⟨x, -, -, -, heq⟩ | ⟨-, -, heq⟩⟩ := System.step_stabilizeAct hsys
    all_goals
      rw [heq] at hphase
      simp at hphase
  | succ j hij ih =>
    have hj : K ≤ j := by omega
    rcases toSystem_step (hnext j) with ⟨m, -, heq⟩ | ⟨a, -, hsys⟩
    · rw [heq] at hphase
      exact ih hphase
    · rcases (System.phase_step (hinv j) hsys n).of_stabilizing hphase with
        ⟨hold, -⟩ | ⟨hp, -, -⟩
      · exact ih hold
      · rw [hp, (hsteady (j + 1) (by omega)).2]

/-- A joined node that has its items still has them later. -/
lemma not_requesting_of_le {i j : ℕ} (hij : i ≤ j) (hn : (run i).Joined n)
    (hphase : (run i).phase n ≠ .requesting) : (run j).phase n ≠ .requesting := by
  induction j, hij using Nat.le_induction with
  | base => exact hphase
  | succ j hij ih =>
    exact not_requesting_step (hinv j) (hnext j) (joined_of_le hinv hnext hij hn) ih

/-- Once the pointers are steady, each node that goes on with its main loop is the predecessor of its
successor. -/
lemma pred_of_steady (hown : ∃ᶠ i in atTop, (act i).Of b n)
    (hmessages : ∀ i n s, (n, s) ∈ (run i).notifies → ∃ j ≥ i, act j = .act (.deliverNotify n s))
    (hsteady : Steady run K) {s : N} (hs : (run K).succ n = some s) :
    (run K).pred s = some n := by
  have hn : (run K).Joined n := by
    rw [System.Joined, hs]
    exact Option.some_ne_none s
  have hoften := frequently_atTop.mp (frequently_stabilizeAct hinv hnext hn hown)
  obtain ⟨i, hi, hact⟩ := hoften K
  obtain ⟨j, hij, hact'⟩ := hoften (i + 1)
  have hsys : System.step sha256 b (.stabilizeAct n) (run j).toSystem =
      some (run (j + 1)).toSystem := by
    have hstep := hnext j
    rw [hact'] at hstep
    exact (step_act rfl hstep).2.1
  by_contra hne
  obtain ⟨t, p, hphase, hcase⟩ := System.step_stabilizeAct hsys
  have hp := read_of_steady hinv hnext hsteady hi hact hij hphase
  have ht : t = s := by
    have ht := (hinv j).stabilizing n t p hphase
    rw [(hsteady j (by omega)).1, hs] at ht
    exact (Option.some.inj ht).symm
  subst ht
  rcases hcase with ⟨hself, -⟩ | ⟨x, hx, -, hopen, heq⟩ | ⟨-, hfar, heq⟩
  · exact hne (hp.symm.trans hself)
  · -- The successor pointer would move.
    have hsucc : (run (j + 1)).succ n = some x := by
      rw [heq]
      simp
    rw [(hsteady (j + 1) (by omega)).1, hs] at hsucc
    obtain rfl := Option.some.inj hsucc
    exact Arc.not_open_right _ _ hopen
  · -- The successor is notified, and would take `n` as predecessor.
    have hmem : (n, t) ∈ (run (j + 1)).notifies := by
      rw [heq]
      simp
    obtain ⟨k, hk, hdeliver⟩ := hmessages (j + 1) n t hmem
    have hstep := hnext k
    rw [hdeliver] at hstep
    obtain ⟨-, hnotified⟩ := System.step_deliverNotify (step_act_none rfl hstep).1
    have hpred : ((run k).info t).predecessor = (run K).pred t :=
      congrFun (hsteady k (by omega)).2 t
    have hmoved : (run (k + 1)).pred t = some n := by
      rw [hnotified]
      simp only [System.setNotifies_pred, System.setInfo_pred, Function.update_self]
      apply System.notify_predecessor
      · rwa [hpred]
      · intro x hx
        exact hfar x (by rw [hp, ← hpred, hx])
    rw [(hsteady (k + 1) (by omega)).2] at hmoved
    exact hne hmoved

end Runs

section Waiting

variable {run : ℕ → Running N} {act : ℕ → LoopAction N} {K : ℕ}
  (hreach : ∀ i, Reachable (step sha256 b) initial (run i))
  (hnext : ∀ i, step sha256 b (act i) (run i) = some (run (i + 1)))
  (hfair : Fair sha256 b run act)

include hreach hnext hfair

/-- A node that does not wait from some time on goes on with its main loop. -/
lemma frequently_of_not_waits {k : ℕ} (hn : (run k).Joined n) (hwaits : ∀ i ≥ k, ¬ (run i).Waits n) :
    ∃ᶠ i in atTop, (act i).Of b n := by
  have hinv : ∀ i, System.PointerInv b (run i).toSystem := fun i => pointerInv (hreach i)
  have henabled : ∀ᶠ i in atTop, Enabled (step sha256 b) (LoopAction.Of b) n (run i) := by
    refine eventually_atTop.mpr ⟨k, ?_⟩
    intro i hi
    have hb := (hinv i).bootstrap_joined n (joined_of_le hinv hnext hi hn)
    exact (enabled_iff (hreach i) hb n).mpr (hwaits i hi)
  exact ((hfair.nodes n ⟨k, hn⟩).and_eventually henabled).mono fun i hi => hi.1 hi.2

/-- A node that has its items goes on with its main loop. -/
lemma GetsItems.frequently (hn : GetsItems run n) : ∃ᶠ i in atTop, (act i).Of b n := by
  have hinv : ∀ i, System.PointerInv b (run i).toSystem := fun i => pointerInv (hreach i)
  obtain ⟨k, hjoined, hphase⟩ := hn
  refine frequently_of_not_waits hreach hnext hfair hjoined ?_
  exact fun i hi hwaits => not_requesting_of_le hinv hnext hi hjoined hphase hwaits.1

/-- A joined node whose successor has a predecessor from some time on gets its items. -/
lemma getsItems_of_pred {k : ℕ} (hn : (run k).Joined n)
    (hpred : ∀ i ≥ k, ∀ s, (run i).succ n = some s → (run i).pred s ≠ none) : GetsItems run n := by
  have hinv : ∀ i, System.PointerInv b (run i).toSystem := fun i => pointerInv (hreach i)
  have hown := frequently_of_not_waits hreach hnext hfair hn
    fun i hi ⟨_, s, hs, hnone⟩ => hpred i hi s hs hnone
  obtain ⟨i, hi, hl⟩ := frequently_atTop.mp hown k
  have hjoined := joined_of_le hinv hnext hi hn
  by_cases hphase : (run i).phase n = .requesting
  · -- The step that it takes is the handover.
    have hact := eq_handover_of_step hphase hl (hnext i)
    have hstep := hnext i
    rw [hact] at hstep
    obtain ⟨-, hsys, -⟩ := step_act rfl hstep
    obtain ⟨-, s, items, info, -, -, -, -, heq⟩ := System.step_handover hsys
    exact ⟨i + 1, joined_step (hinv i) (hnext i) hjoined, by simp [heq]⟩
  · exact ⟨i, hjoined, hphase⟩

omit hfair in
/-- Once the pointers are steady, the successor of a node that gets its items gets its items. -/
lemma GetsItems.succ (hsteady : Steady run K) (hn : GetsItems run n) {s : N}
    (hs : (run K).succ n = some s) : GetsItems run s := by
  have hinv : ∀ i, System.PointerInv b (run i).toSystem := fun i => pointerInv (hreach i)
  obtain ⟨k, hjoined, hphase⟩ := hn
  have hs' : (run (max k K)).succ n = some s := by
    rw [(hsteady _ (le_max_right k K)).1, hs]
  refine ⟨max k K, (hinv _).succ_joined n s hs', ?_⟩
  exact (entryInv (hreach _)).succ n s hs'
    (not_requesting_of_le hinv hnext (le_max_left k K) hjoined hphase)

omit hfair in
/-- Once the pointers are steady, the nodes on the way from the bootstrap node get their items. -/
lemma getsItems_of_reach (hsteady : Steady run K) (hb : (run K).Joined b)
    (hn : Relation.ReflTransGen (Hop (run K).succ) b n) : GetsItems run n := by
  induction hn with
  | refl => exact ⟨K, hb, (entryInv (hreach K)).bootstrap.2⟩
  | tail _ hop ih => exact ih.succ hreach hnext hsteady hop

/-- Once the pointers are steady, every joined node lies on the way of the bootstrap node round the
circle. -/
lemma reach_of_steady (hsteady : Steady run K) (hb : (run K).Joined b) (hn : (run K).Joined n) :
    Relation.ReflTransGen (Hop (run K).succ) b n := by
  have hinv : ∀ i, System.PointerInv b (run i).toSystem := fun i => pointerInv (hreach i)
  have hback : ∀ {m s}, GetsItems run m → (run K).succ m = some s → (run K).pred s = some m :=
    fun hm => pred_of_steady hinv hnext (hm.frequently hreach hnext hfair) hfair.messages hsteady
  have hcycle : ∀ {s}, Relation.ReflTransGen (Hop (run K).succ) b s →
      ∃ p, Relation.ReflTransGen (Hop (run K).succ) b p ∧ (run K).succ p = some s := by
    intro s hs
    rcases Relation.ReflTransGen.cases_tail hs with rfl | hlast
    · exact ((hinv K).cycle hb).exists_hop
    · exact hlast
  -- From the end of the way of `n` to the bootstrap node back to `n`.
  refine Relation.ReflTransGen.head_induction_on ((hinv K).reach n hn) Relation.ReflTransGen.refl ?_
  intro m s hop _ hs
  obtain ⟨p, hp, hps⟩ := hcycle hs
  have hpred := hback (getsItems_of_reach hreach hnext hsteady hb hp) hps
  have hm : GetsItems run m := by
    refine getsItems_of_pred hreach hnext hfair (k := K) ?_ ?_
    · rw [System.Joined, show (run K).succ m = some s from hop]
      exact Option.some_ne_none s
    · intro i hi t ht
      rw [(hsteady i hi).1, show (run K).succ m = some s from hop] at ht
      obtain rfl := Option.some.inj ht
      rw [(hsteady i hi).2, hpred]
      exact Option.some_ne_none p
  obtain rfl : m = p := Option.some.inj ((hback hm hop).symm.trans hpred)
  exact hp

end Waiting

/-- In a fair run with a joined node the joined nodes form the ideal ring from some time on. -/
lemma eventually_ideal {st₀ : Running N} {run : ℕ → Running N} {act : ℕ → LoopAction N}
    (hreach : Reachable (step sha256 b) initial st₀)
    (hrun : Endless (step sha256 b) st₀ run act) (hfair : Fair sha256 b run act)
    (hjoined : ∃ i n, (run i).Joined n) :
    ∃ ring : Finset N, ∀ᶠ i in atTop, (∀ n, n ∈ ring ↔ (run i).Joined n) ∧
      ∀ method, IsIdeal ((run i).network method) ring := by
  have hreach' : ∀ i, Reachable (step sha256 b) initial (run i) :=
    fun i => hrun.reachable hreach i
  have hinv : ∀ i, System.PointerInv b (run i).toSystem := fun i => pointerInv (hreach' i)
  obtain ⟨K, hsteady⟩ := exists_steady hinv hrun.next
  obtain ⟨i₀, n₀, hn₀⟩ := hjoined
  have hK : (run K).Joined n₀ := by
    have hlate := joined_of_le hinv hrun.next (le_max_left i₀ K) hn₀
    rwa [System.Joined, (hsteady _ (le_max_right i₀ K)).1] at hlate
  have hb := (hinv K).bootstrap_joined n₀ hK
  have hideal : ∀ i ≥ K, ∃ ring : Finset N, (∀ n, n ∈ ring ↔ (run i).Joined n) ∧
      ∀ method, IsIdeal ((run i).network method) ring := by
    intro i hi
    refine (hinv i).exists_ideal ?_ ?_ (m := n₀) ?_
    · exact System.fingersJoined_of_reachable (reachable_toSystem (hreach' i))
    · intro n s hs
      rw [(hsteady i hi).1] at hs
      rw [(hsteady i hi).2]
      have hn : (run K).Joined n := by
        rw [System.Joined, hs]
        exact Option.some_ne_none s
      have hitems := getsItems_of_reach hreach' hrun.next hsteady hb
        (reach_of_steady hreach' hrun.next hfair hsteady hb hn)
      exact pred_of_steady hinv hrun.next (hitems.frequently hreach' hrun.next hfair) hfair.messages
        hsteady hs
    · rwa [System.Joined, (hsteady i hi).1]
  obtain ⟨ring, hring, -⟩ := hideal K le_rfl
  refine ⟨ring, eventually_atTop.mpr ⟨K, ?_⟩⟩
  intro i hi
  obtain ⟨ring', hring', hideal'⟩ := hideal i hi
  obtain rfl : ring' = ring := by
    ext n
    rw [hring, hring', System.Joined, System.Joined, (hsteady i hi).1]
  exact ⟨hring', hideal'⟩

/-! ## Fair runs exist -/

/-- Messages are kept until they are delivered. -/
lemma mem_notifies_step (h : step sha256 b l st = some st') {m : N × N} (hm : m ∈ st.notifies)
    (hl : l ≠ .act (.deliverNotify m.1 m.2)) : m ∈ st'.notifies := by
  rcases toSystem_step h with ⟨n, -, heq⟩ | ⟨a, rfl, hsys⟩
  · rwa [heq]
  · exact System.mem_notifies_step hsys hm fun ha => hl (ha ▸ rfl)

/-- The steps of a thread: of the main loop of a node, as long as it does not enter, or of the delivery
of a message. -/
def ofThread (b : N) : N ⊕ N × N → LoopAction N → Prop
  | .inl n, l => l.Of b n ∧ ¬ l.Enters
  | .inr m, l => l = .act (.deliverNotify m.1 m.2)

/-- Once the ring exists, every reachable state is the start of a fair run in which no node enters. -/
lemma exists_fair_run (hreach : Reachable (step sha256 b) initial st) (hb : st.Joined b) :
    ∃ run act, Endless (step sha256 b) st run act ∧ Fair sha256 b run act ∧
      ∀ i, ¬ (act i).Enters := by
  have : Finite N := finite_endpoints
  let P : Running N → Prop := fun t => Reachable (step sha256 b) initial t ∧ t.Joined b
  have hlive : ∀ t, P t → ∃ u, Enabled (step sha256 b) (ofThread b) u t := by
    intro t ht
    have hwaits : ¬ t.Waits b := fun hwaits => (entryInv ht.1).bootstrap.2 hwaits.1
    obtain ⟨l, t', hl, hstep⟩ := (enabled_iff ht.1 ht.2 b).mpr hwaits
    exact ⟨.inl b, l, t', ⟨hl, not_enters_of_joined (pointerInv ht.1) ht.2 hl hstep⟩, hstep⟩
  have hpreserved : ∀ u l t t', ofThread b u l → P t → step sha256 b l t = some t' → P t' := by
    intro _ l t t' _ ht hstep
    exact ⟨ht.1.next hstep, joined_step (pointerInv ht.1) hstep ht.2⟩
  obtain ⟨run, act, hrun, hinv, hof, hturn⟩ := exists_fair (ofThread b) hpreserved hlive
    (show P st from ⟨hreach, hb⟩)
  refine ⟨run, act, hrun, ⟨?_, ?_⟩, ?_⟩
  · rintro n ⟨k, hk⟩
    have hjoined : ∀ᶠ i in atTop, (run i).Joined n := by
      refine eventually_atTop.mpr ⟨k, ?_⟩
      exact fun i hi => joined_of_le (fun j => pointerInv (hinv j).1) hrun.next hi hk
    refine ((hturn (.inl n)).and_eventually hjoined).mono ?_
    rintro i ⟨hi, hn⟩ ⟨l, t', hl, hstep⟩
    exact (hi ⟨l, t', ⟨hl, not_enters_of_joined (pointerInv (hinv i).1) hn hl hstep⟩, hstep⟩).1
  · intro i n s hmem
    by_contra hnever
    push Not at hnever
    -- An undelivered message stays, so its turn comes.
    have hstays : ∀ j ≥ i, (n, s) ∈ (run j).notifies := by
      intro j hj
      induction j, hj using Nat.le_induction with
      | base => exact hmem
      | succ j hj ih => exact mem_notifies_step (hrun.next j) ih (hnever j hj)
    obtain ⟨j, hj, hdeliver⟩ := frequently_atTop.mp (hturn (.inr (n, s))) i
    obtain ⟨t, ht⟩ := exists_step_deliverNotify sha256 b (hstays j hj)
    exact hnever j hj (hdeliver ⟨_, t, rfl, ht⟩)
  · intro i
    obtain ⟨t, ht⟩ := hof i
    cases t with
    | inl n => exact ht.2
    | inr m => exact ht ▸ id

/-! ## Repair -/

/-- **The main loops repair the ring.**  In every run of a deployment without failures, from any state
that the deployment reaches, in which no main loop of a joined node is passed over for ever while it can
take a step and each message is delivered at some time: if any node joins, then from some time on the
joined nodes do not change, they form the ideal ring, and every lookup that any of them starts finds the
node responsible for the id.  No step of a run reads through an absent optional. -/
theorem mainLoop_converges (sha256 : Bytes → IdType) (b : N) {st₀ : Running N}
    {run : ℕ → Running N} {act : ℕ → LoopAction N}
    (hreach : Reachable (step sha256 b) initial st₀)
    (hrun : Endless (step sha256 b) st₀ run act) (hfair : Fair sha256 b run act)
    (hjoined : ∃ i n, (run i).Joined n) :
    ∃ ring : Finset N, ∀ᶠ i in atTop, (∀ n, n ∈ ring ↔ (run i).Joined n) ∧
      ∀ method, IsIdeal ((run i).network method) ring ∧ ∀ m ∈ ring, ∀ id s,
        ((run i).network method).Resolves m id (.ok (some s)) ↔ Arc.Owns getId ring id s := by
  obtain ⟨ring, hring⟩ := eventually_ideal hreach hrun hfair hjoined
  refine ⟨ring, hring.mono ?_⟩
  rintro i ⟨hmem, hideal⟩
  refine ⟨hmem, fun method => ⟨hideal method, ?_⟩⟩
  intro m hm id s
  rw [resolves_iff_owns (hideal method) hm]
  simp

/-- A node creates the ring and has sent itself a `notify` when a second one joins and asks for its
items. -/
def secondNode : List (LoopAction IdType) :=
  [.act .create, .act (.stabilizeRead (idOf 0x40)), .act (.stabilizeAct (idOf 0x40)),
    .act (.joinStart (idOf 0x80)), .act (.joinAnswer (idOf 0x80) (idOf 0x40))]

/-- The second node waits, since the first has no predecessor yet. -/
lemma exists_secondNode :
    ∃ st : Running IdType, exec (step (fun _ => idOf 0) (idOf 0x40)) secondNode initial = some st ∧
      st.Joined (idOf 0x40) ∧ st.Joined (idOf 0x80) ∧ st.Waits (idOf 0x80) := by
  obtain ⟨st, hexec, hb, hn, hphase, hpred⟩ : ∃ st : Running IdType,
      exec (step (fun _ => idOf 0) (idOf 0x40)) secondNode initial = some st ∧
        st.succ (idOf 0x40) ≠ none ∧ st.succ (idOf 0x80) = some (idOf 0x40) ∧
        st.phase (idOf 0x80) = .requesting ∧ st.pred (idOf 0x40) = none :=
    exists_exec_of_decide (by decide +kernel)
  exact ⟨st, hexec, hb, hn.trans_ne (Option.some_ne_none _), hphase, _, hn, hpred⟩

/-- Two nodes join, the second waits until the first has heard its own `notify`, and the main loops go on
for ever. -/
theorem mainLoop_converges_secondNode : ∃ (st₀ : Running IdType) (run : ℕ → Running IdType)
    (act : ℕ → LoopAction IdType),
    exec (step (fun _ => idOf 0) (idOf 0x40)) secondNode initial = some st₀ ∧
      st₀.Joined (idOf 0x40) ∧ st₀.Joined (idOf 0x80) ∧ st₀.Waits (idOf 0x80) ∧
      Endless (step (fun _ => idOf 0) (idOf 0x40)) st₀ run act ∧
      Fair (fun _ => idOf 0) (idOf 0x40) run act ∧
      ∃ ring : Finset IdType, ∀ᶠ i in atTop, (∀ n, n ∈ ring ↔ (run i).Joined n) ∧
        ∀ method, IsIdeal ((run i).network method) ring ∧ ∀ m ∈ ring, ∀ id s,
          ((run i).network method).Resolves m id (.ok (some s)) ↔ Arc.Owns getId ring id s := by
  obtain ⟨st₀, hexec, hb, hn, hwaits⟩ := exists_secondNode
  obtain ⟨run, act, hrun, hfair, -⟩ := exists_fair_run ⟨_, hexec⟩ hb
  refine ⟨st₀, run, act, hexec, hb, hn, hwaits, hrun, hfair, ?_⟩
  exact mainLoop_converges (fun _ => idOf 0) (idOf 0x40) ⟨_, hexec⟩ hrun hfair
    ⟨0, idOf 0x40, hrun.start ▸ hb⟩

/-- **No state is beyond repair.**  In every state that the main loops reach, in whatever order their
steps and the messages have come, a main loop can take a step exactly if it does not wait for a handover
from a node without predecessor; and the loops can lead, without any further entry, to the ideal ring on
exactly the nodes that have joined, where no loop waits in this way. -/
theorem exists_repair (hreach : Reachable (step sha256 b) initial st) {m : N} (hm : st.Joined m) :
    (∀ n, Enabled (step sha256 b) (LoopAction.Of b) n st ↔ ¬ st.Waits n) ∧
      ∃ ls st' ring, exec (step sha256 b) ls st = some st' ∧ (∀ l ∈ ls, ¬ l.Enters) ∧
        (∀ n, n ∈ ring ↔ st.Joined n) ∧ (∀ method, IsIdeal (st'.network method) ring) ∧
        ∀ n, Enabled (step sha256 b) (LoopAction.Of b) n st' := by
  have hb := (pointerInv hreach).bootstrap_joined m hm
  refine ⟨enabled_iff hreach hb, ?_⟩
  obtain ⟨run, act, hrun, hfair, henters⟩ := exists_fair_run hreach hb
  have hreach' := hrun.reachable hreach
  have hinv := fun i => pointerInv (hreach' i)
  -- No node enters on the way.
  have hjoined : ∀ n i, (run i).Joined n ↔ st.Joined n := by
    intro n i
    induction i with
    | zero => rw [hrun.start]
    | succ i ih =>
      refine ⟨fun hn => ih.mp ?_, fun hn => joined_step (hinv i) (hrun.next i) (ih.mpr hn)⟩
      exact joined_of_not_enters (hinv i) (hrun.next i) (henters i) hn
  obtain ⟨ring, hring⟩ := eventually_ideal hreach hrun hfair ⟨0, b, hrun.start ▸ hb⟩
  obtain ⟨i, hmem, hideal⟩ := hring.exists
  refine ⟨_, run i, ring, hrun.exec_range i, by simp [henters], ?_, hideal, ?_⟩
  · intro n
    rw [hmem, hjoined]
  · intro n
    refine (enabled_iff (hreach' i) ((hjoined b i).mpr hb) n).mpr ?_
    rintro ⟨-, s, hs, hnone⟩
    -- Each member of the ideal ring has a predecessor.
    obtain ⟨p, hp, -⟩ := (hideal fun _ => .passOn).predecessor s
      ((hmem s).mpr ((hinv i).succ_joined n s hs))
    exact Option.some_ne_none p (hp.symm.trans hnone)

/-- The second node cannot take a step while it waits, and both nodes end in the ring. -/
theorem exists_repair_secondNode : ∃ st : Running IdType,
    exec (step (fun _ => idOf 0) (idOf 0x40)) secondNode initial = some st ∧
      ¬ Enabled (step (fun _ => idOf 0) (idOf 0x40)) (LoopAction.Of (idOf 0x40)) (idOf 0x80) st ∧
      ∃ ls st' ring, exec (step (fun _ => idOf 0) (idOf 0x40)) ls st = some st' ∧
        idOf 0x40 ∈ ring ∧ idOf 0x80 ∈ ring ∧ (∀ method, IsIdeal (st'.network method) ring) ∧
        ∀ n, Enabled (step (fun _ => idOf 0) (idOf 0x40)) (LoopAction.Of (idOf 0x40)) n st' := by
  obtain ⟨st, hexec, hb, hn, hwaits⟩ := exists_secondNode
  obtain ⟨henabled, ls, st', ring, hls, -, hring, hideal, hend⟩ := exists_repair ⟨_, hexec⟩ hb
  refine ⟨st, hexec, fun h => (henabled _).mp h hwaits, ls, st', ring, hls, ?_⟩
  exact ⟨(hring _).mpr hb, (hring _).mpr hn, hideal, hend⟩

end Running

end ChordPlusPlus
