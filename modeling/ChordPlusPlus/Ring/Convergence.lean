import ChordPlusPlus.Dht.MainLoop
import ChordPlusPlus.Foundation.Fair
import ChordPlusPlus.Ring.Cycle
import Mathlib.Algebra.BigOperators.Finprod
import Mathlib.Algebra.Order.BigOperators.Group.Finset

/-!
# Stabilization reaches the ideal ring

Each pointer spans an arc: a successor pointer the arc from the node to its successor, a
predecessor pointer the arc from the predecessor to the node.  Every step that moves a pointer,
except the entry of a node, shortens the arcs, so once no node enters any more only finitely many
pointers move.  A state in which nothing is in flight and `stabilize` would not move any pointer is
the ideal ring: the successors are then injective, so all joined nodes lie on the one ordered cycle.
-/

namespace ChordPlusPlus

open Pointers Run

variable {N : Type*} [Endpoint N]

/-- The full circle. -/
def circle : ℕ := 256 ^ 32

/-- The length of the arc from `a` to `b`; from a node to itself it is the full circle. -/
def arcLength (a b : N) : ℕ :=
  if getId a = getId b then circle else ByteArr.dist (getId a) (getId b)

lemma arcLength_le (a b : N) : arcLength a b ≤ circle := by
  unfold arcLength
  split_ifs
  · exact le_rfl
  · exact (ByteArr.dist_lt _ _).le

/-- A pointer to a node strictly inside the arc spans less. -/
lemma arcLength_lt_left {n x s : N} (h : Arc.Open (getId n) (getId x) (getId s)) :
    arcLength n x < arcLength n s := by
  unfold arcLength
  rw [if_neg h.ne_left.symm]
  split_ifs with hns
  · exact ByteArr.dist_lt _ _
  · exact ByteArr.dist_lt_dist_left hns h

/-- A pointer from a node strictly inside the arc spans less. -/
lemma arcLength_lt_right {q x s : N} (h : Arc.Open (getId q) (getId x) (getId s)) :
    arcLength x s < arcLength q s := by
  unfold arcLength
  rw [if_neg h.ne_right]
  split_ifs with hqs
  · exact ByteArr.dist_lt _ _
  · exact ByteArr.dist_lt_dist_right hqs h

/-- The actions by which a node enters the ring: it creates the ring or takes its first
successor. -/
def Action.Enters : Action N → Prop
  | .create => True
  | .joinAnswer _ _ => True
  | _ => False

namespace System

variable {b : N} {sys sys' : System N}

/-! ## The measure -/

/-- The arc that the successor pointer of `n` spans. -/
def succLength (sys : System N) (n : N) : ℕ :=
  match sys.succ n with
  | none => 0
  | some s => arcLength n s

/-- The arc that the predecessor pointer of `n` spans; an absent predecessor counts as more than the
full circle. -/
def predLength (sys : System N) (n : N) : ℕ :=
  match sys.pred n with
  | none => circle + 1
  | some p => arcLength p n

/-- The sum of the arcs of all pointers. -/
noncomputable def pointerMeasure (sys : System N) : ℕ :=
  finsum fun n => sys.succLength n + sys.predLength n

lemma succLength_congr {n : N} (h : sys'.succ n = sys.succ n) :
    sys'.succLength n = sys.succLength n := by
  unfold succLength
  rw [h]

lemma predLength_congr {n : N} (h : sys'.pred n = sys.pred n) :
    sys'.predLength n = sys.predLength n := by
  unfold predLength
  rw [h]

lemma pointerMeasure_congr (hsucc : sys'.succ = sys.succ) (hpred : sys'.pred = sys.pred) :
    sys'.pointerMeasure = sys.pointerMeasure := by
  apply finsum_congr
  intro n
  rw [succLength_congr (congrFun hsucc n), predLength_congr (congrFun hpred n)]

/-- If the arcs of one node become smaller and no others change, the measure decreases. -/
lemma pointerMeasure_lt (n : N)
    (hlt : sys'.succLength n + sys'.predLength n < sys.succLength n + sys.predLength n)
    (heq : ∀ m, m ≠ n → sys'.succLength m = sys.succLength m ∧
      sys'.predLength m = sys.predLength m) :
    sys'.pointerMeasure < sys.pointerMeasure := by
  have : Finite N := finite_endpoints
  have : Fintype N := Fintype.ofFinite N
  unfold pointerMeasure
  rw [finsum_eq_sum_of_fintype, finsum_eq_sum_of_fintype]
  apply Finset.sum_lt_sum
  · intro m _
    by_cases hm : m = n
    · exact hm ▸ hlt.le
    · rw [(heq m hm).1, (heq m hm).2]
  · exact ⟨n, Finset.mem_univ n, hlt⟩

/-- Some pointer differs. -/
def Moved (sys sys' : System N) : Prop := sys'.succ ≠ sys.succ ∨ sys'.pred ≠ sys.pred

section Measure

variable [DecidableEq N]

/-- The measure decreases when a successor pointer is shortened. -/
lemma pointerMeasure_lt_of_succ {n s x : N} (hs : sys.succ n = some s)
    (hopen : Arc.Open (getId n) (getId x) (getId s))
    (hsucc : sys'.succ = Function.update sys.succ n (some x)) (hpred : sys'.pred = sys.pred) :
    sys'.pointerMeasure < sys.pointerMeasure := by
  apply pointerMeasure_lt n
  · have hnew : sys'.succLength n = arcLength n x := by simp [succLength, hsucc]
    have hold : sys.succLength n = arcLength n s := by simp [succLength, hs]
    rw [hnew, hold, predLength_congr (congrFun hpred n)]
    exact Nat.add_lt_add_right (arcLength_lt_left hopen) _
  · intro m hm
    exact ⟨succLength_congr (by rw [hsucc, Function.update_of_ne hm]),
      predLength_congr (congrFun hpred m)⟩

/-- The measure decreases when a predecessor pointer moves closer. -/
lemma pointerMeasure_lt_of_pred {n s : N}
    (hcase : sys.pred s = none ∨
      ∃ q, sys.pred s = some q ∧ Arc.Open (getId q) (getId n) (getId s))
    (hpred : sys'.pred = Function.update sys.pred s (some n)) (hsucc : sys'.succ = sys.succ) :
    sys'.pointerMeasure < sys.pointerMeasure := by
  apply pointerMeasure_lt s
  · have hnew : sys'.predLength s = arcLength n s := by simp [predLength, hpred]
    rw [hnew, succLength_congr (congrFun hsucc s)]
    apply Nat.add_lt_add_left
    rcases hcase with hnone | ⟨q, hq, hopen⟩
    · have hold : sys.predLength s = circle + 1 := by simp [predLength, hnone]
      rw [hold]
      exact Nat.lt_succ_of_le (arcLength_le n s)
    · have hold : sys.predLength s = arcLength q s := by simp [predLength, hq]
      rw [hold]
      exact arcLength_lt_right hopen
  · intro m hm
    exact ⟨succLength_congr (congrFun hsucc m),
      predLength_congr (by rw [hpred, Function.update_of_ne hm])⟩

end Measure

section Steps

variable [DecidableEq N] {sha256 : Bytes → IdType} {a : Action N}

/-- A step by which no node enters moves no pointer or decreases the measure. -/
lemma measure_step (hinv : PointerInv b sys) (h : step sha256 b a sys = some sys')
    (ha : ¬ a.Enters) :
    sys'.succ = sys.succ ∧ sys'.pred = sys.pred ∨ sys'.pointerMeasure < sys.pointerMeasure := by
  cases succ_step hinv h with
  | same hsucc =>
    cases pred_step hinv h with
    | same hpred => exact Or.inl ⟨hsucc, hpred⟩
    | moved n s _ _ hcase hpred _ => exact Or.inr (pointerMeasure_lt_of_pred hcase hpred hsucc)
  | created hact _ _ => exact absurd (hact ▸ trivial) ha
  | joined n s hact _ _ _ => exact absurd (hact ▸ trivial) ha
  | shortened n s x hact _ hs hopen hsucc =>
    cases pred_step hinv h with
    | same hpred => exact Or.inr (pointerMeasure_lt_of_succ hs hopen hsucc hpred)
    | moved m t hact' _ _ _ _ => cases hact.symm.trans hact'

/-- Such a step does not increase the measure. -/
lemma measure_step_le (hinv : PointerInv b sys) (h : step sha256 b a sys = some sys')
    (ha : ¬ a.Enters) : sys'.pointerMeasure ≤ sys.pointerMeasure := by
  rcases measure_step hinv h ha with ⟨hsucc, hpred⟩ | hlt
  · exact (pointerMeasure_congr hsucc hpred).le
  · exact hlt.le

/-- Such a step decreases the measure if it moves a pointer. -/
lemma measure_step_lt (hinv : PointerInv b sys) (h : step sha256 b a sys = some sys')
    (ha : ¬ a.Enters) (hmoved : Moved sys sys') : sys'.pointerMeasure < sys.pointerMeasure := by
  rcases measure_step hinv h ha with ⟨hsucc, hpred⟩ | hlt
  · rcases hmoved with hne | hne
    · exact absurd hsucc hne
    · exact absurd hpred hne
  · exact hlt

/-- The states of an infinite run are reachable. -/
lemma reachable_of_infinite_run {run : ℕ → System N} {act : ℕ → Action N}
    (hinit : run 0 = System.initial)
    (hstep : ∀ i, step sha256 b (act i) (run i) = some (run (i + 1))) (i : ℕ) :
    Run.Reachable (step sha256 b) System.initial (run i) := by
  induction i with
  | zero => exact ⟨[], by rw [hinit]; rfl⟩
  | succ i ih => exact ih.next (hstep i)

/-! ## Quiescent states -/

/-- No message is in flight, and no node's `stabilize`, with its `notify` delivered, would move a
pointer. -/
structure Quiescent (sha256 : Bytes → IdType) (b : N) (sys : System N) : Prop where
  no_notifies : sys.notifies = []
  idle : ∀ n, sys.phase n = .idle
  stabilize : ∀ n sys', Run.exec (step sha256 b) [.stabilizeRead n, .stabilizeAct n] sys =
    some sys' → ¬ Moved sys sys'
  notify : ∀ n s sys', Run.exec (step sha256 b)
    [.stabilizeRead n, .stabilizeAct n, .deliverNotify n s] sys = some sys' → ¬ Moved sys sys'

/-- `stabilize` at an idle node, up to the point where it has acted on the answer. -/
lemma exec_stabilize (sha256 : Bytes → IdType) (hinv : PointerInv b sys) {n s : N}
    (hidle : sys.phase n = .idle) (hs : sys.succ n = some s) :
    Run.exec (step sha256 b) [.stabilizeRead n, .stabilizeAct n] sys =
      some ((sys.setPhase n (.stabilizing s (sys.pred s))).stabilizeAct n s (sys.pred s)) := by
  simp [Run.exec, step, hidle, hinv.getSuccessor_eq, hs]

/-- When `stabilize` ends by notifying the successor, the notification does not change its
predecessor in a quiescent state. -/
lemma Quiescent.notify_succ (hinv : PointerInv b sys) (hq : Quiescent sha256 b sys) {n s : N}
    (hs : sys.succ n = some s)
    (hact : (sys.setPhase n (.stabilizing s (sys.pred s))).stabilizeAct n s (sys.pred s) =
      ((sys.setPhase n (.stabilizing s (sys.pred s))).setPhase n .idle).setNotifies
        ((n, s) :: sys.notifies)) :
    (PeerImpl.notify s (sys.info s) n).predecessor = sys.pred s := by
  have hrun := exec_stabilize sha256 hinv (hq.idle n) hs
  rw [hact] at hrun
  have hdeliver := exec_append_eq_some.mpr ⟨_, hrun, exec_cons_eq_some.mpr
    ⟨_, (show step sha256 b (.deliverNotify n s) _ = _ from if_pos (by simp)), exec_nil _⟩⟩
  have hsame := hq.notify n s _ hdeliver
  unfold Moved at hsame
  push Not at hsame
  simpa using congrFun hsame.2 s

/-- In a quiescent state a node is the predecessor of its successor. -/
lemma Quiescent.pred_succ (hinv : PointerInv b sys) (hq : Quiescent sha256 b sys) {n s : N}
    (hs : sys.succ n = some s) : sys.pred s = some n := by
  cases hp : sys.pred s with
  | none =>
    have hkeep := hq.notify_succ hinv hs (by simp [stabilizeAct, hp])
    have hnone : (sys.info s).predecessor = none := hp
    simp [PeerImpl.notify, hnone, hp] at hkeep
  | some x =>
    by_contra hne
    have hxn : x ≠ n := fun hxn => hne (by rw [hxn])
    have hpred : (sys.info s).predecessor = some x := hp
    by_cases hin : Arc.Open (getId n) (getId x) (getId s)
    · -- `stabilize` would take the closer node as successor.
      have hsame := hq.stabilize n _ (exec_stabilize sha256 hinv (hq.idle n) hs)
      unfold Moved at hsame
      push Not at hsame
      have hx : some x = sys.succ n := by
        simpa [stabilizeAct, hp, hxn, hin] using congrFun hsame.1 n
      obtain rfl : x = s := Option.some.inj (hx.trans hs)
      exact Arc.not_open_right _ _ hin
    · have hkeep := hq.notify_succ hinv hs (by simp [stabilizeAct, hp, hxn, hin])
      have hopen : Arc.Open (getId x) (getId n) (getId s) := by
        rcases Arc.open_or_open (fun h => hxn (getId_injective h.symm)) with
          hopen | heq | hopen
        · exact absurd hopen hin
        · rw [← heq]
          exact Arc.open_self_iff.mpr fun h => hxn (getId_injective h.symm)
        · exact hopen
      -- The notification would move the predecessor.
      have hmoved : (PeerImpl.notify s (sys.info s) n).predecessor = some n := by
        simp [PeerImpl.notify, hpred, hopen]
      exact hne (by rw [← hp, ← hkeep, hmoved])

/-- In a quiescent state in which a node has joined, the joined nodes are the members of the
cycle. -/
lemma Quiescent.joined_iff_mem (hinv : PointerInv b sys) (hq : Quiescent sha256 b sys)
    {rest : List N} (hvisits : Visits getId sys.succ b b rest) {n : N} :
    sys.Joined n ↔ n ∈ b :: rest := by
  have hinj : ∀ x y z, Hop sys.succ x z → Hop sys.succ y z → x = y := by
    intro x y z hx hy
    exact Option.some.inj ((hq.pred_succ hinv hx).symm.trans (hq.pred_succ hinv hy))
  constructor
  · intro hn
    exact mem_of_reach_of_injective hvisits.chain hinj List.mem_cons_self (hinv.reach n hn)
  · intro hn
    obtain ⟨q, _, hhop⟩ := exists_hop_of_mem_chain hvisits.chain hn
    exact hinv.succ_joined q n hhop

/-- Every quiescent state is the ideal ring: successor and predecessor of each joined node are its
neighbours among all joined nodes. -/
lemma Quiescent.neighbours (hinv : PointerInv b sys) (hq : Quiescent sha256 b sys) :
    ∃ ring : Finset N, (∀ n, n ∈ ring ↔ sys.Joined n) ∧ ∀ n ∈ ring,
      (∃ s, sys.succ n = some s ∧ Arc.IsNext getId ring n s) ∧
      (∃ p, sys.pred n = some p ∧ Arc.IsNext getId ring p n) := by
  by_cases hb : sys.Joined b
  · obtain ⟨rest, hvisits⟩ := (hinv.cycle hb).exists_visits
    have hmem : ∀ n, n ∈ (b :: rest).toFinset ↔ n ∈ b :: rest := fun n => List.mem_toFinset
    have hnext : ∀ n s, sys.succ n = some s → Arc.IsNext getId (b :: rest).toFinset n s := by
      intro n s hs
      have hn : n ∈ b :: rest :=
        (hq.joined_iff_mem hinv hvisits).mp fun hnone => nomatch hs.symm.trans hnone
      refine ⟨(hmem n).mpr hn, ?_, ?_⟩
      · exact (hmem s).mpr ((hq.joined_iff_mem hinv hvisits).mp (hinv.succ_joined n s hs))
      · intro x hx
        exact hvisits.between n hn s hs x ((hmem x).mp hx)
    refine ⟨(b :: rest).toFinset, ?_, ?_⟩
    · intro n
      rw [hmem, hq.joined_iff_mem hinv hvisits]
    · intro n hn
      rw [hmem] at hn
      constructor
      · obtain ⟨s, hs⟩ := Option.ne_none_iff_exists'.mp
          ((hq.joined_iff_mem hinv hvisits).mpr hn)
        exact ⟨s, hs, hnext n s hs⟩
      · obtain ⟨q, _, hhop⟩ := exists_hop_of_mem_chain hvisits.chain hn
        exact ⟨q, hq.pred_succ hinv hhop, hnext q n hhop⟩
  · refine ⟨∅, ?_, by simp⟩
    intro n
    simp only [Finset.notMem_empty, false_iff]
    exact fun hn => hb (hinv.bootstrap_joined n hn)

/-- In every run without failures the steps that move a pointer, other than the entry of a node,
decrease the measure; after the last entry only finitely many of them happen; and every reachable
quiescent state is the ideal ring on the joined nodes. -/
theorem stabilization (sha256 : Bytes → IdType) (b : N) :
    (∀ a sys sys', Reachable (step sha256 b) System.initial sys →
      step sha256 b a sys = some sys' → ¬ a.Enters → Moved sys sys' →
      sys'.pointerMeasure < sys.pointerMeasure) ∧
    (∀ (run : ℕ → System N) (act : ℕ → Action N) (k : ℕ), run 0 = System.initial →
      (∀ i, step sha256 b (act i) (run i) = some (run (i + 1))) →
      (∀ i ≥ k, ¬ (act i).Enters) → {i | k ≤ i ∧ Moved (run i) (run (i + 1))}.Finite) ∧
    ∀ sys, Reachable (step sha256 b) System.initial sys → Quiescent sha256 b sys →
      ∃ ring : Finset N, (∀ n, n ∈ ring ↔ sys.Joined n) ∧ ∀ n ∈ ring,
        (∃ s, sys.succ n = some s ∧ Arc.IsNext getId ring n s) ∧
        (∃ p, sys.pred n = some p ∧ Arc.IsNext getId ring p n) := by
  refine ⟨?_, ?_, ?_⟩
  · intro a sys sys' hreach h ha hmoved
    exact measure_step_lt (pointerInv_of_reachable hreach) h ha hmoved
  · intro run act k hinit hstep hlast
    have hinv : ∀ i, PointerInv b (run i) :=
      fun i => pointerInv_of_reachable (reachable_of_infinite_run hinit hstep i)
    apply finite_of_strict_decrease fun i => (run i).pointerMeasure
    · intro i hi
      exact measure_step_le (hinv i) (hstep i) (hlast i hi)
    · intro i hi hmoved
      exact measure_step_lt (hinv i) (hstep i) (hlast i hi) hmoved
  · intro sys hreach hq
    exact hq.neighbours (pointerInv_of_reachable hreach)

/-- A state without messages in which each node is the predecessor of its successor is
quiescent. -/
lemma quiescent_of_pred_succ (hnotifies : sys.notifies = []) (hidle : ∀ n, sys.phase n = .idle)
    (hpred : ∀ n s, (sys.info n).getSuccessor = some s → sys.pred s = some n) :
    Quiescent sha256 b sys := by
  have hact : ∀ n sys', exec (step sha256 b) [.stabilizeRead n, .stabilizeAct n] sys =
      some sys' → sys'.succ = sys.succ ∧ sys'.pred = sys.pred ∧ sys'.notifies = [] := by
    intro n sys' h
    obtain ⟨t, hread, h⟩ := exec_cons_eq_some.mp h
    obtain ⟨_, hact, h⟩ := exec_cons_eq_some.mp h
    obtain rfl := Option.some.inj h
    obtain ⟨-, ⟨s, hs, rfl⟩ | rfl⟩ := step_stabilizeRead hread
    · have hself := hpred n s hs
      simp only [step, setPhase_phase, Function.update_self, hself, stabilizeAct, if_true,
        Option.some.injEq] at hact
      subst hact
      exact ⟨rfl, rfl, hnotifies⟩
    · simp [step, hidle] at hact
  refine ⟨hnotifies, hidle, ?_, ?_⟩
  · intro n sys' h
    obtain ⟨hsucc, hpred, -⟩ := hact n sys' h
    exact not_or.mpr ⟨not_not.mpr hsucc, not_not.mpr hpred⟩
  · intro n s sys' h
    obtain ⟨t, hrun, hdeliver⟩ := exec_append_eq_some.mp
      (show exec (step sha256 b) ([.stabilizeRead n, .stabilizeAct n] ++ [.deliverNotify n s]) sys =
        some sys' from h)
    obtain ⟨u, hu, -⟩ := exec_cons_eq_some.mp hdeliver
    have hmem := (step_deliverNotify hu).1
    rw [(hact n t hrun).2.2] at hmem
    cases hmem

/-- A node whose main loop takes no step of a run stays where it is and keeps its successor. -/
lemma exec_untouched {as : List (Action N)} {n : N} (hinv : PointerInv b sys)
    (has : ∀ c ∈ as, ∀ point, c.thread b ≠ some (n, point))
    (h : exec (step sha256 b) as sys = some sys') :
    sys'.phase n = sys.phase n ∧ sys'.succ n = sys.succ n := by
  induction as generalizing sys with
  | nil =>
    obtain rfl := Option.some.inj h
    exact ⟨rfl, rfl⟩
  | cons c as ih =>
    obtain ⟨t, hstep, hrest⟩ := exec_cons_eq_some.mp h
    have hc := has c List.mem_cons_self
    have hphase : t.phase n = sys.phase n := by
      rcases phase_cases hstep n with heq | hmove
      · exact heq
      · obtain ⟨point, hpoint⟩ := hmove.exists_thread b
        exact absurd hpoint (hc point)
    have hsucc : t.succ n = sys.succ n := by
      cases succ_step hinv hstep with
      | same heq => rw [heq]
      | created hact _ heq =>
        subst hact
        rw [heq, Function.update_of_ne]
        rintro rfl
        exact hc _ rfl
      | joined m s hact _ _ heq =>
        subst hact
        rw [heq, Function.update_of_ne]
        rintro rfl
        exact hc _ rfl
      | shortened m s x hact _ _ _ heq =>
        subst hact
        rw [heq, Function.update_of_ne]
        rintro rfl
        exact hc _ rfl
    obtain ⟨hphase', hsucc'⟩ := ih (hinv.step hstep)
      (fun d hd => has d (List.mem_cons_of_mem c hd)) hrest
    exact ⟨hphase'.trans hphase, hsucc'.trans hsucc⟩

end Steps

/-- The state that the two nodes of `pairRun` end in is quiescent. -/
lemma quiescent_pairRun {sys : System IdType}
    (h : exec (step (fun _ => idOf 0) (idOf 0)) pairRun System.initial = some sys)
    (hsucc : sys.succ (idOf 0) = some (idOf 1) ∧ sys.succ (idOf 1) = some (idOf 0))
    (hpred : sys.pred (idOf 0) = some (idOf 1) ∧ sys.pred (idOf 1) = some (idOf 0))
    (hphase : sys.phase (idOf 0) = .idle ∧ sys.phase (idOf 1) = .idle)
    (hnotifies : sys.notifies = []) : Quiescent (fun _ => idOf 0) (idOf 0) sys := by
  have hinv : PointerInv (idOf 0) sys := pointerInv_of_reachable ⟨_, h⟩
  have hother : ∀ n, n ≠ idOf 0 → n ≠ idOf 1 → sys.phase n = .idle ∧ sys.succ n = none := by
    intro n hzero hone
    refine exec_untouched (PointerInv.initial (idOf 0)) ?_ h
    simp [pairRun, Action.thread, hzero.symm, hone.symm]
  refine quiescent_of_pred_succ hnotifies ?_ ?_
  · intro n
    by_cases hzero : n = idOf 0
    · exact hzero ▸ hphase.1
    · by_cases hone : n = idOf 1
      · exact hone ▸ hphase.2
      · exact (hother n hzero hone).1
  · intro n s hs
    rw [hinv.getSuccessor_eq] at hs
    by_cases hzero : n = idOf 0
    · subst hzero
      obtain rfl : idOf 1 = s := Option.some.inj (hsucc.1.symm.trans hs)
      exact hpred.2
    · by_cases hone : n = idOf 1
      · subst hone
        obtain rfl : idOf 0 = s := Option.some.inj (hsucc.2.symm.trans hs)
        exact hpred.1
      · cases (hother n hzero hone).2.symm.trans hs

/-- Two nodes form the ring by `pairRun`, after which node 0 checks its predecessor for ever.  When
node 0 stabilizes for the second time, its successor pointer moves; after the entry of node 1 only
finitely many pointers move; and the state that `pairRun` ends in is the ideal ring on both. -/
theorem stabilization_two_nodes : ∃ (run : ℕ → System IdType) (act : ℕ → Action IdType),
    Run.Endless (step (fun _ => idOf 0) (idOf 0)) System.initial run act ∧
      Moved (run 12) (run 13) ∧ (run 13).pointerMeasure < (run 12).pointerMeasure ∧
      {i | 6 ≤ i ∧ Moved (run i) (run (i + 1))}.Finite ∧
      (run 14).Joined (idOf 0) ∧ (run 14).Joined (idOf 1) ∧
      Quiescent (fun _ => idOf 0) (idOf 0) (run 14) ∧
      ∃ ring : Finset IdType, (∀ n, n ∈ ring ↔ (run 14).Joined n) ∧ ∀ n ∈ ring,
        (∃ s, (run 14).succ n = some s ∧ Arc.IsNext getId ring n s) ∧
        (∃ p, (run 14).pred n = some p ∧ Arc.IsNext getId ring p n) := by
  obtain ⟨sys, hexec, hsucc, hpred, hphase, hnotifies⟩ := @Run.exists_exec_of_decide _ _
    (step (fun _ => idOf 0) (idOf 0))
    (fun sys => (sys.succ (idOf 0) = some (idOf 1) ∧ sys.succ (idOf 1) = some (idOf 0)) ∧
      (sys.pred (idOf 0) = some (idOf 1) ∧ sys.pred (idOf 1) = some (idOf 0)) ∧
      (sys.phase (idOf 0) = .idle ∧ sys.phase (idOf 1) = .idle) ∧ sys.notifies = []) _
    pairRun System.initial (by decide +kernel)
  obtain ⟨run, hrun, hend, -⟩ := Run.exists_endless_of_loop hexec
    (Run.meets_of_forall fun _ _ _ => trivial)
    (show step (fun _ => idOf 0) (idOf 0) (.checkPredecessor (idOf 0)) sys = some sys from
      if_pos hphase.1) trivial
  have hlast : run 14 = sys := hend 14 le_rfl
  have hbefore : (run 12).succ (idOf 0) = some (idOf 0) :=
    hrun.of_decide (p := fun sys => sys.succ (idOf 0) = some (idOf 0)) 12 (by decide +kernel)
  have hafter : (run 13).succ (idOf 0) = some (idOf 1) :=
    hrun.of_decide (p := fun sys => sys.succ (idOf 0) = some (idOf 1)) 13 (by decide +kernel)
  have hmoved : Moved (run 12) (run 13) := by
    refine Or.inl fun heq => ?_
    rw [heq, hbefore] at hafter
    exact absurd hafter (by decide)
  have hentered : ∀ i ≥ 6, ¬ (pairRun.getD i (.checkPredecessor (idOf 0))).Enters := by
    intro i hi
    rcases Nat.lt_or_ge i 14 with hlt | hge
    · interval_cases i <;> exact id
    · rw [List.getD_eq_getElem?_getD, List.getElem?_eq_none hge]
      exact id
  have hq := quiescent_pairRun hexec hsucc hpred hphase hnotifies
  obtain ⟨hdecrease, hfinite, hideal⟩ := stabilization (fun _ => idOf 0) (idOf 0 : IdType)
  refine ⟨run, _, hrun, hmoved, ?_, ?_, ?_, ?_, hlast ▸ hq, ?_⟩
  · exact hdecrease _ _ _ (hrun.reachable ⟨[], rfl⟩ 12) (hrun.next 12) (hentered 12 (by decide))
      hmoved
  · exact hfinite run _ 6 hrun.start hrun.next hentered
  · rw [hlast, Joined, hsucc.1]
    exact Option.some_ne_none _
  · rw [hlast, Joined, hsucc.2]
    exact Option.some_ne_none _
  · exact hideal (run 14) (hrun.reachable ⟨[], rfl⟩ 14) (hlast ▸ hq)

end System

end ChordPlusPlus
