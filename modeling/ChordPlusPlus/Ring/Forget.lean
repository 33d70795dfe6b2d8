import ChordPlusPlus.Foundation.Fair
import ChordPlusPlus.Ring.Churn
import ChordPlusPlus.Ring.Ideal
import ChordPlusPlus.Ring.Online
import Mathlib.Data.Set.Card
import Mathlib.Order.Filter.Finite

/-!
# Crashed nodes are forgotten

Lookups answer only with nodes that are online.
Names of crashed nodes are therefore never brought back by `fixFingers` or by a join.  They live on in
messages that the crashed nodes have sent, in predecessor pointers, in answers that `stabilize` has
read, and in fingers.  In this order they disappear: the messages are delivered or lost,
`checkPredecessor` drops what does not answer, the next `stabilize` starts from a clean answer, and
`fixFingers` goes through all fingers.
-/

namespace ChordPlusPlus

open Filter Run

variable {N : Type*} [Endpoint N] [DecidableEq N]

/-- The node is about to use the name `x`. -/
def Phase.Holds {N : Type*} (x : N) : Phase N → Prop
  | .stabilizing _ r => r = some x
  | .fixing r => r = some x
  | _ => False

namespace Churn

/-- Only nodes that run answer requests, and lookups name only such nodes. -/
def Truthful (e : Event N) (st : Churn N) : Prop :=
  match e with
  | .stabilizeRead n true => ∀ s, (st.info n).getSuccessor = some s → st.alive s = true
  | .checkPredecessor n true => ∀ p, (st.info n).predecessor = some p → st.alive p = true
  | .fixFingersLookup _ (some x) => st.alive x = true
  | .joinAnswer _ (some x) => st.alive x = true
  | _ => True

/-- The lookups of the program name only nodes that run. -/
lemma alive_of_resolves {st : Churn N} {n x : N} {key : IdType} {method : N → GetSuccessorMethod}
    (hn : st.alive n = true)
    (h : Network.Resolves ⟨st.info, st.alive, method⟩ n key (.ok (some x))) : st.alive x = true := by
  rcases Network.answers_of_resolves h with rfl | hx
  · exact hn
  · exact hx

/-! ## What one step does -/

variable {sha256 : Bytes → IdType} {b n : N} {e : Event N} {st st' : Churn N}

/-- How the event `e` may change the pointers of the node `n`. -/
inductive InfoChange (e : Event N) (st : Churn N) (n : N) (info : NodeInformation N) : Prop
  | kept : info.fingerTable = (st.info n).fingerTable →
      info.predecessor = (st.info n).predecessor → InfoChange e st n info
  /-- The predecessor is dropped. -/
  | dropped : info.fingerTable = (st.info n).fingerTable → info.predecessor = none →
      InfoChange e st n info
  | crashed : e = .crash n → info = NodeInformation.initial → InfoChange e st n info
  | notified (x : N) : (x, n) ∈ st.notifies → info.fingerTable = (st.info n).fingerTable →
      info.predecessor = some x → InfoChange e st n info
  /-- The successor is replaced: by the node itself, by the answer of the bootstrap node, or by what
  `stabilize` has read. -/
  | successor (r : Option N) : info.fingerTable = Function.update (st.info n).fingerTable 0 r →
      info.predecessor = (st.info n).predecessor ∨ info.predecessor = none →
      (∀ x, r = some x → x = n ∧ st.alive n = true ∨ e = .joinAnswer n (some x) ∨
        ∃ s, st.phase n = .stabilizing s (some x)) → InfoChange e st n info
  | finger (r : Option N) : e = .fixFingersSet n → st.phase n = .fixing r →
      info.fingerTable = Function.update (st.info n).fingerTable (st.nextFinger n) r →
      info.predecessor = (st.info n).predecessor → InfoChange e st n info

omit [Endpoint N] in
lemma InfoChange.of_update {m : N} {info : NodeInformation N}
    (hinfo : st'.info = Function.update st.info m info) (h : InfoChange e st m info) (n : N) :
    InfoChange e st n (st'.info n) := by
  rw [hinfo]
  by_cases hn : n = m
  · subst hn
    rwa [Function.update_self]
  · rw [Function.update_of_ne hn]
    exact .kept rfl rfl

omit [Endpoint N] [DecidableEq N] in
lemma InfoChange.of_eq (hinfo : st'.info = st.info) (n : N) : InfoChange e st n (st'.info n) := by
  rw [hinfo]
  exact .kept rfl rfl

lemma alive_of_regular {a : Action N} (h : regular sha256 b n a st = some st') :
    st.alive n = true ∧ st'.alive = st.alive := by
  unfold regular at h
  split_ifs at h with hn
  obtain ⟨sys, -, rfl⟩ := Option.map_eq_some_iff.mp h
  exact ⟨hn, rfl⟩

lemma info_change (h : step sha256 b e st = some st') (n : N) :
    InfoChange e st n (st'.info n) := by
  cases e with
  | start m =>
    simp only [step] at h
    split_ifs at h
    obtain rfl := Option.some.inj h
    exact .of_eq rfl n
  | crash m =>
    simp only [step] at h
    split_ifs at h
    obtain rfl := Option.some.inj h
    exact .of_update rfl (.crashed rfl rfl) n
  | create =>
    have halive := (alive_of_regular h).1
    obtain ⟨sys, hsys, rfl⟩ := regular_eq_some h
    obtain ⟨-, -, rfl⟩ := System.step_create hsys
    refine .of_update rfl (.successor (some b) rfl (Or.inr rfl) ?_) n
    rintro x ⟨⟩
    exact Or.inl ⟨rfl, halive⟩
  | joinStart m =>
    obtain ⟨sys, hsys, rfl⟩ := regular_eq_some h
    obtain ⟨-, -, -, rfl⟩ := System.step_joinStart hsys
    refine .of_update rfl ?_ n
    exact .dropped rfl rfl
  | joinAnswer m answer =>
    have hchange : InfoChange (.joinAnswer m answer) st m ((st.info m).setSuccessor answer) := by
      refine .successor answer rfl (Or.inl rfl) ?_
      rintro x rfl
      exact Or.inr (Or.inl rfl)
    simp only [step] at h
    split_ifs at h
    split at h
    · obtain rfl := Option.some.inj h
      exact .of_update rfl hchange n
    · obtain rfl := Option.some.inj h
      exact .of_update rfl hchange n
  | joinRefused m =>
    obtain ⟨sys, hsys, rfl⟩ := regular_eq_some h
    obtain ⟨-, rfl⟩ := System.step_joinRefused hsys
    refine .of_update rfl ?_ n
    exact .successor none rfl (Or.inl rfl) fun _ hx => absurd hx.symm (Option.some_ne_none _)
  | joinFailed m =>
    simp only [step] at h
    split_ifs at h
    obtain rfl := Option.some.inj h
    exact .of_eq rfl n
  | serveHandover m s received =>
    simp only [step] at h
    obtain ⟨hfingers, hpred⟩ := @served_pointers _ _ sha256 s m (st.info s)
    split_ifs at h
    · obtain rfl := Option.some.inj h
      exact .of_update rfl (.kept hfingers hpred) n
    · obtain rfl := Option.some.inj h
      exact .of_update rfl (.kept hfingers hpred) n
  | handoverFailed m =>
    simp only [step] at h
    split_ifs at h
    obtain rfl := Option.some.inj h
    exact .of_eq rfl n
  | dropRequest m s =>
    obtain rfl := Option.some.inj h
    exact .of_eq rfl n
  | storeItems m =>
    obtain ⟨sys, hsys, rfl⟩ := regular_eq_some h
    obtain ⟨items, -, rfl⟩ := System.step_storeItems hsys
    exact .of_update rfl (.kept (PeerImpl.storeDataItems_fingerTable _ _)
      (PeerImpl.storeDataItems_predecessor _ _)) n
  | stabilizeRead m answered =>
    simp only [step] at h
    split_ifs at h
    · obtain ⟨sys, hsys, rfl⟩ := regular_eq_some h
      obtain ⟨-, ⟨s, -, rfl⟩ | rfl⟩ := System.step_stabilizeRead hsys
      · exact .of_eq rfl n
      · exact .of_eq rfl n
    · split at h
      · obtain rfl := Option.some.inj h
        exact .of_eq rfl n
      · obtain rfl := Option.some.inj h
        exact .of_eq rfl n
  | stabilizeAct m =>
    obtain ⟨sys, hsys, rfl⟩ := regular_eq_some h
    obtain ⟨s, q, hphase, ⟨-, rfl⟩ | ⟨x, rfl, -, -, rfl⟩ | ⟨-, -, rfl⟩⟩ := System.step_stabilizeAct hsys
    · exact .of_eq rfl n
    · refine .of_update rfl ?_ n
      refine .successor (some x) rfl (Or.inl rfl) ?_
      rintro y ⟨⟩
      exact Or.inr (Or.inr ⟨s, hphase⟩)
    · exact .of_eq rfl n
  | deliverNotify x m =>
    obtain ⟨sys, hsys, rfl⟩ := regular_eq_some h
    obtain ⟨hmem, rfl⟩ := System.step_deliverNotify hsys
    refine .of_update rfl ?_ n
    rcases System.notify_cases (st.info m) m x with heq | ⟨-, heq⟩
    · rw [heq]
      exact .kept rfl rfl
    · rw [heq]
      exact .notified x hmem rfl rfl
  | dropNotify x m =>
    obtain rfl := Option.some.inj h
    exact .of_eq rfl n
  | fixFingersLookup m result =>
    simp only [step] at h
    split_ifs at h
    obtain rfl := Option.some.inj h
    exact .of_eq rfl n
  | fixFingersSet m =>
    obtain ⟨sys, hsys, rfl⟩ := regular_eq_some h
    obtain ⟨r, hphase, rfl⟩ := System.step_fixFingersSet hsys
    refine .of_update rfl ?_ n
    exact .finger r rfl hphase rfl rfl
  | checkPredecessor m answered =>
    simp only [step] at h
    split_ifs at h
    · obtain rfl := Option.some.inj h
      exact .of_eq rfl n
    · obtain rfl := Option.some.inj h
      refine .of_update rfl ?_ n
      exact .dropped rfl rfl

/-- A predecessor was there before, or has been notified of. -/
lemma pred_step (h : step sha256 b e st = some st') {x : N} (hx : st'.pred n = some x) :
    st.pred n = some x ∨ (x, n) ∈ st.notifies := by
  have hpred : (st'.info n).predecessor = some x := hx
  cases info_change h n with
  | kept _ heq => exact Or.inl (heq.symm.trans hpred)
  | dropped _ heq => cases heq.symm.trans hpred
  | crashed _ heq =>
    rw [heq] at hpred
    cases hpred
  | notified y hmem _ heq =>
    obtain rfl : y = x := Option.some.inj (heq.symm.trans hpred)
    exact Or.inr hmem
  | successor _ _ heq _ =>
    rcases heq with heq | heq
    · exact Or.inl (heq.symm.trans hpred)
    · cases heq.symm.trans hpred
  | finger _ _ _ _ heq => exact Or.inl (heq.symm.trans hpred)

/-- A finger was there before, names the node itself or the answer of the bootstrap node, or is what
the node was about to use. -/
lemma finger_step (h : step sha256 b e st = some st') {k : Fin keyBits} {x : N}
    (hx : (st'.info n).fingerTable k = some x) :
    (st.info n).fingerTable k = some x ∨ x = n ∧ st.alive n = true ∨
      e = .joinAnswer n (some x) ∨ (st.phase n).Holds x := by
  cases info_change h n with
  | kept heq _ => exact Or.inl (heq ▸ hx)
  | dropped heq _ => exact Or.inl (heq ▸ hx)
  | crashed _ heq =>
    rw [heq] at hx
    cases hx
  | notified _ _ heq _ => exact Or.inl (heq ▸ hx)
  | successor r heq _ hsource =>
    rw [heq] at hx
    by_cases hk : k = 0
    · rw [hk, Function.update_self] at hx
      rcases hsource x hx with hself | hanswer | ⟨s, hs⟩
      · exact Or.inr (Or.inl hself)
      · exact Or.inr (Or.inr (Or.inl hanswer))
      · refine Or.inr (Or.inr (Or.inr ?_))
        rw [hs]
        rfl
    · rw [Function.update_of_ne hk] at hx
      exact Or.inl hx
  | finger r _ hphase heq _ =>
    rw [heq] at hx
    by_cases hk : k = st.nextFinger n
    · rw [hk, Function.update_self] at hx
      refine Or.inr (Or.inr (Or.inr ?_))
      rw [hphase]
      exact hx
    · rw [Function.update_of_ne hk] at hx
      exact Or.inl hx

omit [Endpoint N] in
/-- A phase other than the old one is one of the node that moves. -/
lemma holds_of_update {m x : N} (phase : Phase N)
    (hphase : st'.phase = Function.update st.phase m phase) (hx : (st'.phase n).Holds x) :
    (st.phase n).Holds x ∨ n = m ∧ phase.Holds x := by
  rw [hphase] at hx
  by_cases hn : n = m
  · subst hn
    rw [Function.update_self] at hx
    exact Or.inr ⟨rfl, hx⟩
  · rw [Function.update_of_ne hn] at hx
    exact Or.inl hx

/-- What a node is about to use it was about to use before, or it has just read it from its successor
or found it by a lookup. -/
lemma holds_step (h : step sha256 b e st = some st') {x : N} (hx : (st'.phase n).Holds x) :
    (st.phase n).Holds x ∨
      (∃ s, e = .stabilizeRead n true ∧ (st.info n).getSuccessor = some s ∧ st.pred s = some x) ∨
      e = .fixFingersLookup n (some x) := by
  -- A step that moves `m` to a phase without a name.
  have hblank : ∀ {m : N} (phase : Phase N), st'.phase = Function.update st.phase m phase →
      ¬ phase.Holds x → (st.phase n).Holds x := by
    intro m phase hphase hnot
    rcases holds_of_update phase hphase hx with hold | ⟨-, hnew⟩
    · exact hold
    · exact absurd hnew hnot
  cases e with
  | start m =>
    simp only [step] at h
    split_ifs at h
    obtain rfl := Option.some.inj h
    exact Or.inl hx
  | crash m =>
    simp only [step] at h
    split_ifs at h
    obtain rfl := Option.some.inj h
    exact Or.inl (hblank .idle rfl id)
  | create =>
    obtain ⟨sys, hsys, rfl⟩ := regular_eq_some h
    obtain ⟨-, -, rfl⟩ := System.step_create hsys
    exact Or.inl hx
  | joinStart m =>
    obtain ⟨sys, hsys, rfl⟩ := regular_eq_some h
    obtain ⟨-, -, -, rfl⟩ := System.step_joinStart hsys
    exact Or.inl (hblank .asking rfl id)
  | joinAnswer m answer =>
    simp only [step] at h
    split_ifs at h
    split at h
    · obtain rfl := Option.some.inj h
      exact Or.inl (hblank .requesting rfl id)
    · obtain rfl := Option.some.inj h
      exact Or.inl (hblank .idle rfl id)
  | joinRefused m =>
    obtain ⟨sys, hsys, rfl⟩ := regular_eq_some h
    obtain ⟨-, rfl⟩ := System.step_joinRefused hsys
    exact Or.inl (hblank .idle rfl id)
  | joinFailed m =>
    simp only [step] at h
    split_ifs at h
    obtain rfl := Option.some.inj h
    exact Or.inl (hblank .idle rfl id)
  | serveHandover m s received =>
    simp only [step] at h
    split_ifs at h
    · obtain rfl := Option.some.inj h
      exact Or.inl (hblank (.storing _) rfl id)
    · obtain rfl := Option.some.inj h
      exact Or.inl hx
  | handoverFailed m =>
    simp only [step] at h
    split_ifs at h
    obtain rfl := Option.some.inj h
    exact Or.inl (hblank .idle rfl id)
  | dropRequest m s =>
    obtain rfl := Option.some.inj h
    exact Or.inl hx
  | storeItems m =>
    obtain ⟨sys, hsys, rfl⟩ := regular_eq_some h
    obtain ⟨items, -, rfl⟩ := System.step_storeItems hsys
    exact Or.inl (hblank .idle rfl id)
  | stabilizeRead m answered =>
    simp only [step] at h
    split_ifs at h with hanswered
    · subst hanswered
      obtain ⟨sys, hsys, rfl⟩ := regular_eq_some h
      obtain ⟨-, ⟨s, hs, rfl⟩ | rfl⟩ := System.step_stabilizeRead hsys
      · rcases holds_of_update (.stabilizing s (st.pred s)) rfl hx with hold | ⟨rfl, hnew⟩
        · exact Or.inl hold
        · exact Or.inr (Or.inl ⟨s, rfl, hs, hnew⟩)
      · exact Or.inl hx
    · split at h
      · obtain rfl := Option.some.inj h
        exact Or.inl (hblank (.stabilizing _ none) rfl fun hnone =>
          absurd hnone.symm (Option.some_ne_none _))
      · obtain rfl := Option.some.inj h
        exact Or.inl hx
  | stabilizeAct m =>
    obtain ⟨sys, hsys, rfl⟩ := regular_eq_some h
    obtain ⟨s, q, -, ⟨-, rfl⟩ | ⟨x, -, -, -, rfl⟩ | ⟨-, -, rfl⟩⟩ := System.step_stabilizeAct hsys
    all_goals exact Or.inl (hblank .idle rfl id)
  | deliverNotify x m =>
    obtain ⟨sys, hsys, rfl⟩ := regular_eq_some h
    obtain ⟨-, rfl⟩ := System.step_deliverNotify hsys
    exact Or.inl hx
  | dropNotify x m =>
    obtain rfl := Option.some.inj h
    exact Or.inl hx
  | fixFingersLookup m result =>
    simp only [step] at h
    split_ifs at h
    obtain rfl := Option.some.inj h
    rcases holds_of_update (.fixing result) rfl hx with hold | ⟨rfl, rfl⟩
    · exact Or.inl hold
    · exact Or.inr (Or.inr rfl)
  | fixFingersSet m =>
    obtain ⟨sys, hsys, rfl⟩ := regular_eq_some h
    obtain ⟨r, -, rfl⟩ := System.step_fixFingersSet hsys
    exact Or.inl (hblank .idle rfl id)
  | checkPredecessor m answered =>
    simp only [step] at h
    split_ifs at h
    · obtain rfl := Option.some.inj h
      exact Or.inl hx
    · obtain rfl := Option.some.inj h
      exact Or.inl hx

/-- How the event `e` may change the messages in flight. -/
inductive MailChange (e : Event N) (st : Churn N) (notifies : List (N × N)) : Prop
  | kept : notifies = st.notifies → MailChange e st notifies
  | sent (m x : N) : st.alive m = true → notifies = (m, x) :: st.notifies → MailChange e st notifies
  | removed (x m : N) : e = .deliverNotify x m ∨ e = .dropNotify x m →
      notifies = st.notifies.erase (x, m) → MailChange e st notifies

/-- What the event `e` does besides: messages are sent by nodes that run, `nextFinger` moves at the
end of `fixFingers`, and nodes start and crash. -/
structure Rest (e : Event N) (st st' : Churn N) : Prop where
  mail : MailChange e st st'.notifies
  nextFinger : ∀ n, e ≠ .fixFingersSet n → e ≠ .crash n → st'.nextFinger n = st.nextFinger n
  alive : (∀ n, e ≠ .crash n) → st'.alive = st.alive ∨
    ∃ n, st.alive n = false ∧ st'.alive = Function.update st.alive n true

omit [Endpoint N] in
lemma Rest.of_eq (hmail : st'.notifies = st.notifies) (hnext : st'.nextFinger = st.nextFinger)
    (halive : st'.alive = st.alive) : Rest e st st' :=
  ⟨.kept hmail, fun n _ _ => congrFun hnext n, fun _ => Or.inl halive⟩

lemma rest (h : step sha256 b e st = some st') : Rest e st st' := by
  cases e with
  | start m =>
    simp only [step] at h
    split_ifs at h with hm
    obtain rfl := Option.some.inj h
    exact ⟨.kept rfl, fun _ _ _ => rfl, fun _ => Or.inr ⟨m, by simpa using hm, rfl⟩⟩
  | crash m =>
    simp only [step] at h
    split_ifs at h
    obtain rfl := Option.some.inj h
    refine ⟨.kept rfl, ?_, fun hcrash => absurd rfl (hcrash m)⟩
    intro n _ hn
    have hnm : n ≠ m := fun heq => hn (heq ▸ rfl)
    exact Function.update_of_ne hnm ..
  | create =>
    obtain ⟨sys, hsys, rfl⟩ := regular_eq_some h
    obtain ⟨-, -, rfl⟩ := System.step_create hsys
    exact .of_eq rfl rfl rfl
  | joinStart m =>
    obtain ⟨sys, hsys, rfl⟩ := regular_eq_some h
    obtain ⟨-, -, -, rfl⟩ := System.step_joinStart hsys
    exact .of_eq rfl rfl rfl
  | joinAnswer m answer =>
    simp only [step] at h
    split_ifs at h
    split at h
    · obtain rfl := Option.some.inj h
      exact .of_eq rfl rfl rfl
    · obtain rfl := Option.some.inj h
      exact .of_eq rfl rfl rfl
  | joinRefused m =>
    obtain ⟨sys, hsys, rfl⟩ := regular_eq_some h
    obtain ⟨-, rfl⟩ := System.step_joinRefused hsys
    exact .of_eq rfl rfl rfl
  | joinFailed m =>
    simp only [step] at h
    split_ifs at h
    obtain rfl := Option.some.inj h
    exact .of_eq rfl rfl rfl
  | serveHandover m s received =>
    simp only [step] at h
    split_ifs at h
    · obtain rfl := Option.some.inj h
      exact .of_eq rfl rfl rfl
    · obtain rfl := Option.some.inj h
      exact .of_eq rfl rfl rfl
  | handoverFailed m =>
    simp only [step] at h
    split_ifs at h
    obtain rfl := Option.some.inj h
    exact .of_eq rfl rfl rfl
  | dropRequest m s =>
    obtain rfl := Option.some.inj h
    exact .of_eq rfl rfl rfl
  | storeItems m =>
    obtain ⟨sys, hsys, rfl⟩ := regular_eq_some h
    obtain ⟨items, -, rfl⟩ := System.step_storeItems hsys
    exact .of_eq rfl rfl rfl
  | stabilizeRead m answered =>
    simp only [step] at h
    split_ifs at h
    · obtain ⟨sys, hsys, rfl⟩ := regular_eq_some h
      obtain ⟨-, ⟨s, -, rfl⟩ | rfl⟩ := System.step_stabilizeRead hsys
      · exact .of_eq rfl rfl rfl
      · exact .of_eq rfl rfl rfl
    · split at h
      · obtain rfl := Option.some.inj h
        exact .of_eq rfl rfl rfl
      · obtain rfl := Option.some.inj h
        exact .of_eq rfl rfl rfl
  | stabilizeAct m =>
    have halive := (alive_of_regular h).1
    obtain ⟨sys, hsys, rfl⟩ := regular_eq_some h
    obtain ⟨s, q, -, ⟨-, rfl⟩ | ⟨x, -, -, -, rfl⟩ | ⟨-, -, rfl⟩⟩ := System.step_stabilizeAct hsys
    · exact .of_eq rfl rfl rfl
    · exact ⟨.sent m x halive rfl, fun _ _ _ => rfl, fun _ => Or.inl rfl⟩
    · exact ⟨.sent m s halive rfl, fun _ _ _ => rfl, fun _ => Or.inl rfl⟩
  | deliverNotify x m =>
    obtain ⟨sys, hsys, rfl⟩ := regular_eq_some h
    obtain ⟨-, rfl⟩ := System.step_deliverNotify hsys
    exact ⟨.removed x m (Or.inl rfl) rfl, fun _ _ _ => rfl, fun _ => Or.inl rfl⟩
  | dropNotify x m =>
    obtain rfl := Option.some.inj h
    exact ⟨.removed x m (Or.inr rfl) rfl, fun _ _ _ => rfl, fun _ => Or.inl rfl⟩
  | fixFingersLookup m result =>
    simp only [step] at h
    split_ifs at h
    obtain rfl := Option.some.inj h
    exact .of_eq rfl rfl rfl
  | fixFingersSet m =>
    obtain ⟨sys, hsys, rfl⟩ := regular_eq_some h
    obtain ⟨r, -, rfl⟩ := System.step_fixFingersSet hsys
    refine ⟨.kept rfl, ?_, fun _ => Or.inl rfl⟩
    intro n hn _
    have hnm : n ≠ m := fun heq => hn (heq ▸ rfl)
    exact Function.update_of_ne hnm ..
  | checkPredecessor m answered =>
    simp only [step] at h
    split_ifs at h
    · obtain rfl := Option.some.inj h
      exact .of_eq rfl rfl rfl
    · obtain rfl := Option.some.inj h
      exact .of_eq rfl rfl rfl

/-- The delivery or loss of a message. -/
lemma notifies_of_removed (h : step sha256 b e st = some st') {x s : N}
    (he : e = .deliverNotify x s ∨ e = .dropNotify x s) :
    st'.notifies = st.notifies.erase (x, s) := by
  rcases he with rfl | rfl
  · obtain ⟨sys, hsys, rfl⟩ := regular_eq_some h
    obtain ⟨-, rfl⟩ := System.step_deliverNotify hsys
    rfl
  · obtain rfl := Option.some.inj h
    rfl

/-- The end of `fixFingers`. -/
lemma fixFingersSet_step (h : step sha256 b (.fixFingersSet n) st = some st') :
    ∃ r, st.phase n = .fixing r ∧ st'.phase n = .idle ∧
      (st'.info n).fingerTable (st.nextFinger n) = r ∧ st'.nextFinger n = st.nextFinger n + 1 := by
  obtain ⟨sys, hsys, rfl⟩ := regular_eq_some h
  obtain ⟨r, hphase, rfl⟩ := System.step_fixFingersSet hsys
  exact ⟨r, hphase, by simp, by simp, by simp⟩

/-- `checkPredecessor` leaves a predecessor that runs. -/
lemma checkPredecessor_step {answered : Bool}
    (h : step sha256 b (.checkPredecessor n answered) st = some st')
    (htrue : Truthful (.checkPredecessor n answered) st) {p : N} (hp : st'.pred n = some p) :
    st.alive p = true := by
  simp only [step] at h
  split_ifs at h with _ hanswered
  · obtain rfl := Option.some.inj h
    subst hanswered
    exact htrue p hp
  · obtain rfl := Option.some.inj h
    simp at hp

/-! ## Runs after the last crash -/

/-- Nodes that keep running come back to `checkPredecessor` and to the end of `fixFingers` again and
again, and each message is delivered or lost at some time. -/
structure Fair (run : ℕ → Churn N) (act : ℕ → Event N) : Prop where
  checks : ∀ n, (∀ᶠ i in atTop, (run i).alive n = true) →
    ∃ᶠ i in atTop, ∃ answered, act i = .checkPredecessor n answered
  fixes : ∀ n, (∀ᶠ i in atTop, (run i).alive n = true) → ∃ᶠ i in atTop, act i = .fixFingersSet n
  messages : ∀ i x s, (x, s) ∈ (run i).notifies →
    ∃ j ≥ i, act j = .deliverNotify x s ∨ act j = .dropNotify x s

section Runs

variable {run : ℕ → Churn N} {act : ℕ → Event N} {up : N → Bool} {K : ℕ}

/-- From some time on the same nodes run. -/
lemma exists_last_start (hnext : ∀ i, step sha256 b (act i) (run i) = some (run (i + 1)))
    (hcrash : ∀ᶠ i in atTop, ∀ n, act i ≠ .crash n) :
    ∃ K up, ∀ i ≥ K, (run i).alive = up ∧ ∀ n, act i ≠ .crash n := by
  have : Finite N := finite_endpoints
  obtain ⟨k, hk⟩ := eventually_atTop.mp hcrash
  -- The number of nodes that are down decreases with every start.
  have hdown : ∀ i ≥ k, (run (i + 1)).alive = (run i).alive ∨
      {n | (run (i + 1)).alive n = false}.ncard < {n | (run i).alive n = false}.ncard := by
    intro i hi
    rcases (rest (hnext i)).alive (hk i hi) with heq | ⟨n, hn, heq⟩
    · exact Or.inl heq
    · refine Or.inr (Set.ncard_lt_ncard ?_ (Set.toFinite _))
      rw [heq]
      refine (Set.ssubset_iff_of_subset ?_).mpr ⟨n, hn, by simp⟩
      intro m hm
      have hmn : m ≠ n := by
        rintro rfl
        simp at hm
      simpa [hmn] using hm
  have hfinite : {i | k ≤ i ∧ (run (i + 1)).alive ≠ (run i).alive}.Finite := by
    refine finite_of_strict_decrease (fun i => {n | (run i).alive n = false}.ncard) ?_ ?_
    · intro i hi
      rcases hdown i hi with heq | hlt
      · rw [heq]
      · exact hlt.le
    · intro i hi hne
      exact (hdown i hi).resolve_left hne
  obtain ⟨K, hKk, hK⟩ := exists_bound_of_finite hfinite
  refine ⟨K, (run K).alive, fun i hi => ⟨?_, hk i (hKk.trans hi)⟩⟩
  exact const_of_no_change (f := fun i => (run i).alive) hK hi

variable (hnext : ∀ i, step sha256 b (act i) (run i) = some (run (i + 1)))
  (htrue : ∀ i ≥ K, Truthful (act i) (run i)) (hfair : Fair run act)
  (hup : ∀ i ≥ K, (run i).alive = up ∧ ∀ n, act i ≠ .crash n)

include hnext in
/-- A message stays until it is delivered or lost. -/
lemma exists_removed (hfair : Fair run act) {i : ℕ} {x s : N} (hmem : (x, s) ∈ (run i).notifies) :
    ∃ j ≥ i, (x, s) ∈ (run j).notifies ∧
      (act j = .deliverNotify x s ∨ act j = .dropNotify x s) := by
  obtain ⟨j, hij, hact⟩ := hfair.messages i x s hmem
  by_contra hnever
  push Not at hnever
  have hstays : ∀ l ≥ i, (x, s) ∈ (run l).notifies := by
    intro l hl
    induction l, hl using Nat.le_induction with
    | base => exact hmem
    | succ l hl ih =>
      obtain ⟨hdeliver, hdrop⟩ := hnever l hl ih
      cases (rest (hnext l)).mail with
      | kept heq => rwa [heq]
      | sent m y _ heq =>
        rw [heq]
        exact List.mem_cons_of_mem _ ih
      | removed y m hcase heq =>
        rw [heq]
        refine (List.mem_erase_of_ne ?_).mpr ih
        rintro ⟨⟩
        rcases hcase with hcase | hcase
        · exact hdeliver hcase
        · exact hdrop hcase
  obtain ⟨hdeliver, hdrop⟩ := hnever j hij (hstays j hij)
  rcases hact with hact | hact
  · exact hdeliver hact
  · exact hdrop hact

include hnext hfair hup in
/-- The messages of crashed nodes disappear. -/
lemma eventually_mail : ∀ᶠ i in atTop, ∀ m ∈ (run i).notifies, up m.1 = true := by
  let μ : ℕ → ℕ := fun i => (run i).notifies.countP fun m => !up m.1
  have hfinite : {i | K ≤ i ∧ ∃ x s, (x, s) ∈ (run i).notifies ∧ up x = false ∧
      (act i = .deliverNotify x s ∨ act i = .dropNotify x s)}.Finite := by
    refine finite_of_strict_decrease μ ?_ ?_
    · intro i hi
      cases (rest (hnext i)).mail with
      | kept heq => simp only [μ, heq, le_refl]
      | sent m x hm heq =>
        rw [(hup i hi).1] at hm
        simp [μ, heq, hm]
      | removed x s _ heq =>
        simp only [μ, heq]
        exact List.Sublist.countP_le List.erase_sublist
    · rintro i hi ⟨x, s, hmem, hx, hact⟩
      have hcount := (List.perm_cons_erase hmem).countP_eq fun m => !up m.1
      rw [List.countP_cons_of_pos (by simpa using hx)] at hcount
      simp only [μ, notifies_of_removed (hnext i) hact]
      omega
  obtain ⟨k, -, hk⟩ := exists_bound_of_finite hfinite
  refine eventually_atTop.mpr ⟨k, ?_⟩
  rintro i hi ⟨x, s⟩ hmem
  by_contra hx
  obtain ⟨j, hj, hmem', hact⟩ := exists_removed hnext hfair hmem
  exact hk j (hi.trans hj) ⟨x, s, hmem', by simpa using hx, hact⟩

include hnext htrue hfair hup in
/-- The predecessors that do not answer are dropped. -/
lemma eventually_pred {n : N} (hn : up n = true) :
    ∀ᶠ i in atTop, ∀ p, (run i).pred n = some p → up p = true := by
  obtain ⟨k, hk⟩ := eventually_atTop.mp (eventually_mail hnext hfair hup)
  have halive : ∀ᶠ i in atTop, (run i).alive n = true :=
    eventually_atTop.mpr ⟨K, fun i hi => by rw [(hup i hi).1]; exact hn⟩
  refine eventually_of_stable (k := max k K) ?_ ?_
  · intro i hi hclean p hp
    rcases pred_step (hnext i) hp with hold | hmem
    · exact hclean p hold
    · exact hk i ((le_max_left k K).trans hi) _ hmem
  · obtain ⟨i, hi, answered, hact⟩ := frequently_atTop.mp (hfair.checks n halive) (max k K)
    refine ⟨i + 1, by omega, ?_⟩
    intro p hp
    have hKi := (le_max_right k K).trans hi
    have hrunning := checkPredecessor_step (hact ▸ hnext i) (hact ▸ htrue i hKi) hp
    rwa [(hup i hKi).1] at hrunning

include hnext htrue hfair hup in
/-- What the nodes have read before is used up, and what they read is up to date. -/
lemma eventually_holds {n : N} (hn : up n = true) :
    ∀ᶠ i in atTop, ∀ x, ((run i).phase n).Holds x → up x = true := by
  have : Finite N := finite_endpoints
  have hpreds : ∀ᶠ i in atTop, ∀ s, up s = true → ∀ p, (run i).pred s = some p → up p = true :=
    eventually_all.mpr fun s => (em (up s = true)).elim
      (fun hs => (eventually_pred hnext htrue hfair hup hs).mono fun _ h _ => h)
      (fun hs => .of_forall fun _ h => absurd h hs)
  obtain ⟨k, hk⟩ := eventually_atTop.mp hpreds
  have halive : ∀ᶠ i in atTop, (run i).alive n = true :=
    eventually_atTop.mpr ⟨K, fun i hi => by rw [(hup i hi).1]; exact hn⟩
  refine eventually_of_stable (k := max k K) ?_ ?_
  · intro i hi hclean x hx
    have hupi := (hup i ((le_max_right k K).trans hi)).1
    have htruei := htrue i ((le_max_right k K).trans hi)
    rcases holds_step (hnext i) hx with hold | ⟨s, hact, hs, hpred⟩ | hact
    · exact hclean x hold
    · rw [hact] at htruei
      have hrunning : up s = true := hupi ▸ htruei s hs
      exact hk i ((le_max_left k K).trans hi) s hrunning x hpred
    · rw [hact] at htruei
      exact hupi ▸ htruei
  · obtain ⟨i, hi, hact⟩ := frequently_atTop.mp (hfair.fixes n halive) (max k K)
    refine ⟨i + 1, by omega, ?_⟩
    intro x hx
    obtain ⟨r, -, hidle, -⟩ := fixFingersSet_step (hact ▸ hnext i)
    rw [hidle] at hx
    exact hx.elim

include hnext hfair hup in
/-- `fixFingers` comes to every finger again and again. -/
lemma frequently_fixFinger {n : N} (hn : up n = true) (k : Fin keyBits) :
    ∃ᶠ i in atTop, act i = .fixFingersSet n ∧ (run i).nextFinger n = k := by
  have halive : ∀ᶠ i in atTop, (run i).alive n = true :=
    eventually_atTop.mpr ⟨K, fun i hi => by rw [(hup i hi).1]; exact hn⟩
  refine frequently_of_rank (k := K) (fun i => (k - (run i).nextFinger n : Fin keyBits).val) _
    (fun i => (run i).nextFinger n = k) ?_ ?_ (hfair.fixes n halive)
  · intro i hi hother
    rw [(rest (hnext i)).nextFinger n hother ((hup i hi).2 n)]
  · intro i hi hact hne
    obtain ⟨_, -, -, -, hnf⟩ := fixFingersSet_step (hact ▸ hnext i)
    have hdist : k - (run i).nextFinger n ≠ 0 := fun h => hne (sub_eq_zero.mp h).symm
    have hpos : (k - (run i).nextFinger n).val ≠ 0 := fun h => hdist (Fin.ext h)
    rw [hnf, ← sub_sub, Fin.val_sub_one_of_ne_zero hdist]
    omega

include hnext htrue hfair hup in
/-- The fingers that name crashed nodes are overwritten. -/
lemma eventually_finger {n : N} (hn : up n = true) (k : Fin keyBits) :
    ∀ᶠ i in atTop, ∀ f, ((run i).info n).fingerTable k = some f → up f = true := by
  obtain ⟨l, hl⟩ := eventually_atTop.mp (eventually_holds hnext htrue hfair hup hn)
  refine eventually_of_stable (k := max l K) ?_ ?_
  · intro i hi hclean f hf
    have hupi := (hup i ((le_max_right l K).trans hi)).1
    rcases finger_step (hnext i) hf with hold | ⟨rfl, -⟩ | hact | hholds
    · exact hclean f hold
    · exact hn
    · have htruei := htrue i ((le_max_right l K).trans hi)
      rw [hact] at htruei
      exact hupi ▸ htruei
    · exact hl i ((le_max_left l K).trans hi) f hholds
  · obtain ⟨i, hi, hact, rfl⟩ :=
      frequently_atTop.mp (frequently_fixFinger hnext hfair hup hn k) (max l K)
    refine ⟨i + 1, by omega, ?_⟩
    intro f hf
    obtain ⟨r, hphase, -, hr, -⟩ := fixFingersSet_step (hact ▸ hnext i)
    refine hl i ((le_max_left l K).trans hi) f ?_
    rw [hphase]
    exact hr.symm.trans hf

end Runs

/-- **Crashed nodes are forgotten.**  In every run, from any state, in which the nodes that run go on
with their maintenance, and in which from some time on no node crashes, requests are answered only by
nodes that run and lookups name only such nodes: from some time on no finger and no predecessor of a
node that runs names a node that does not. -/
theorem crashed_forgotten {st₀ : Churn N} {run : ℕ → Churn N} {act : ℕ → Event N}
    (hrun : Endless (step sha256 b) st₀ run act) (htrue : ∀ᶠ i in atTop, Truthful (act i) (run i))
    (hcrash : ∀ᶠ i in atTop, ∀ n, act i ≠ .crash n) (hfair : Fair run act) :
    ∀ᶠ i in atTop, ∀ n, (run i).alive n = true →
      (∀ k f, ((run i).info n).fingerTable k = some f → (run i).alive f = true) ∧
        ∀ p, ((run i).info n).predecessor = some p → (run i).alive p = true := by
  have : Finite N := finite_endpoints
  obtain ⟨k, up, hk⟩ := exists_last_start hrun.next hcrash
  obtain ⟨l, hl⟩ := eventually_atTop.mp htrue
  let K := max k l
  have hup : ∀ i ≥ K, (run i).alive = up ∧ ∀ n, act i ≠ .crash n :=
    fun i hi => hk i ((le_max_left k l).trans hi)
  have htrueK : ∀ i ≥ K, Truthful (act i) (run i) := fun i hi => hl i ((le_max_right k l).trans hi)
  have hnode : ∀ n, ∀ᶠ i in atTop, up n = true →
      (∀ k f, ((run i).info n).fingerTable k = some f → up f = true) ∧
        ∀ p, (run i).pred n = some p → up p = true := by
    intro n
    by_cases hn : up n = true
    · have hfingers := eventually_all.mpr fun k => eventually_finger hrun.next htrueK hfair hup hn k
      have hpred := eventually_pred hrun.next htrueK hfair hup hn
      exact (hfingers.and hpred).mono fun i h _ => h
    · exact .of_forall fun i h => absurd h hn
  refine ((eventually_all.mpr hnode).and (eventually_ge_atTop K)).mono ?_
  rintro i ⟨hclean, hi⟩ n hn
  rw [(hup i hi).1] at hn ⊢
  exact hclean n hn

/-- The node `40…` runs; its successor and predecessor `80…` has crashed. -/
def widowed : Churn IdType where
  toSystem := System.initial.setInfo (idOf 0x40) (pairInfo (idOf 0x40) (idOf 0x80) (idOf 0x40))
  alive := fun n => decide (n = idOf 0x40)
  requests := []

/-- The main loop of `40…`, in which no request is answered. -/
def widowedLoop (i : ℕ) : Event IdType :=
  if i % 3 = 0 then .checkPredecessor (idOf 0x40) false
  else if i % 3 = 1 then .fixFingersLookup (idOf 0x40) none
  else .fixFingersSet (idOf 0x40)

lemma widowedLoop_zero {i : ℕ} (hi : i % 3 = 0) :
    widowedLoop i = .checkPredecessor (idOf 0x40) false := by
  rw [widowedLoop, if_pos hi]

lemma widowedLoop_one {i : ℕ} (hi : i % 3 = 1) :
    widowedLoop i = .fixFingersLookup (idOf 0x40) none := by
  rw [widowedLoop, if_neg (by omega), if_pos hi]

lemma widowedLoop_two {i : ℕ} (hi : i % 3 = 2) :
    widowedLoop i = .fixFingersSet (idOf 0x40) := by
  rw [widowedLoop, if_neg (by omega), if_neg (by omega)]

/-- The states of this loop. -/
structure Widowed (i : ℕ) (st : Churn IdType) : Prop where
  alive : st.alive = fun n => decide (n = idOf 0x40)
  notifies : st.notifies = []
  idle : i % 3 ≠ 2 → st.phase (idOf 0x40) = .idle
  fixing : i % 3 = 2 → st.phase (idOf 0x40) = .fixing none
  pred : i % 3 = 1 → (st.info (idOf 0x40)).predecessor = none

lemma Widowed.step {i : ℕ} {st : Churn IdType} (h : Widowed i st) :
    ∃ st', Churn.step (fun _ => idOf 0) (idOf 0x40) (widowedLoop i) st = some st' ∧
      Widowed (i + 1) st' := by
  have halive : st.alive (idOf 0x40) = true := by simp [h.alive]
  obtain hi | hi | hi : i % 3 = 0 ∨ i % 3 = 1 ∨ i % 3 = 2 := by omega
  · have hidle := h.idle (by omega)
    rw [widowedLoop_zero hi]
    refine ⟨_, if_pos ⟨halive, hidle⟩, ?_⟩
    exact ⟨h.alive, h.notifies, fun _ => hidle, by omega, by simp⟩
  · have hidle := h.idle (by omega)
    have hmay : st.answerMay (idOf 0x40) (st.fingerStart (idOf 0x40)) none = true := by
      unfold answerMay
      cases hreq : PeerImpl.requested (idOf 0x40) (st.info (idOf 0x40))
        (st.fingerStart (idOf 0x40)) with
      | thisNode =>
        obtain ⟨p, hp, -⟩ := PeerImpl.requested_eq_thisNode_iff.mp hreq
        rw [h.pred hi] at hp
        cases hp
      | nextNode s => simp
      | otherNode => rfl
    rw [widowedLoop_one hi]
    refine ⟨_, if_pos ⟨halive, hidle, hmay⟩, ?_⟩
    exact ⟨h.alive, h.notifies, by omega, by simp, by omega⟩
  · have hfixing := h.fixing hi
    rw [widowedLoop_two hi]
    refine ⟨_, by simp only [Churn.step, regular, halive, if_true, System.step, hfixing]; rfl, ?_⟩
    exact ⟨h.alive, h.notifies, fun _ => by simp, by omega, by omega⟩

/-- From some time on the node `40…` names only itself. -/
theorem crashed_forgotten_widowed : ∃ run,
    Endless (Churn.step (fun _ => idOf 0) (idOf 0x40)) widowed run widowedLoop ∧
      ∀ᶠ i in atTop, ∀ n, (run i).alive n = true →
        (∀ k f, ((run i).info n).fingerTable k = some f → (run i).alive f = true) ∧
          ∀ p, ((run i).info n).predecessor = some p → (run i).alive p = true := by
  have hstart : Widowed 0 widowed := ⟨rfl, rfl, fun _ => rfl, by omega, by omega⟩
  obtain ⟨run, hrun, hstates⟩ := exists_endless hstart fun i st h => h.step
  refine ⟨run, hrun, crashed_forgotten hrun ?_ ?_ ?_⟩
  · refine .of_forall fun i => ?_
    unfold widowedLoop
    split_ifs <;> trivial
  · refine .of_forall fun i n => ?_
    unfold widowedLoop
    split_ifs <;> simp
  · have halive : ∀ {n}, (∀ᶠ i in atTop, (run i).alive n = true) → n = idOf 0x40 := by
      intro n hn
      obtain ⟨i, hi⟩ := hn.exists
      simpa [(hstates i).alive] using hi
    refine ⟨?_, ?_, ?_⟩
    · intro n hn
      rw [halive hn]
      exact frequently_atTop.mpr fun k => ⟨3 * k, by omega, false, widowedLoop_zero (by omega)⟩
    · intro n hn
      rw [halive hn]
      exact frequently_atTop.mpr fun k => ⟨3 * k + 2, by omega, widowedLoop_two (by omega)⟩
    · intro i x s hmem
      rw [(hstates i).notifies] at hmem
      cases hmem

end Churn

end ChordPlusPlus
