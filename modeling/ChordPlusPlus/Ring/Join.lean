import ChordPlusPlus.Ring.HopLoop

/-!
# A single join

One node `n` joins a settled ideal ring between two neighbours `p` and `s`, while every node goes on
with its maintenance, which may already be under way when `n` starts.  `Joining` describes all states
on the way: the pointers of the ring stay as they were, except that `s` may have learnt of `n`, then
`p`, and then `n` of `p`, in this order.  When `n` has learnt of `p`, the ring is the ideal ring with
`n` added.
-/

namespace ChordPlusPlus

open Pointers

variable {N : Type*}

/-- The node is inside `join`. -/
def Phase.InJoin : Phase N → Prop
  | .asking | .requesting | .storing _ => True
  | _ => False

namespace System

/-- Fingers, and lookups that are about to become fingers, name nodes that have joined. -/
structure FingersJoined (sys : System N) : Prop where
  finger : ∀ m i f, (sys.info m).fingerTable i = some f → sys.Joined f
  fixing : ∀ m f, sys.phase m = .fixing (some f) → sys.Joined f

/-- An ideal ring on which no node is joining, and outside of which no node has joined.  The nodes
may be in the middle of their maintenance: what they have read and the messages they have sent may be
out of date, but name nodes of the ring. -/
structure Settled [Endpoint N] (method : N → GetSuccessorMethod) (ring : Finset N)
    (sys : System N) : Prop where
  ideal : IsIdeal (sys.network method) ring
  outside : ∀ m ∉ ring, sys.info m = NodeInformation.initial
  not_joining : ∀ m, ¬ (sys.phase m).InJoin
  /-- A node that stabilizes has asked its successor. -/
  stabilizing : ∀ m t x, sys.phase m = .stabilizing t x → sys.succ m = some t
  read : ∀ m t x, sys.phase m = .stabilizing t (some x) → x ∈ ring
  /-- What `fixFingers` has found for `finger[0]` is the successor. -/
  fixing : ∀ m r, sys.phase m = .fixing r → sys.nextFinger m = 0 ∨ sys.succ m = none →
    r = sys.succ m
  found : ∀ m f, sys.phase m = .fixing (some f) → f ∈ ring
  messages : ∀ q t, (q, t) ∈ sys.notifies → q ∈ ring ∧ t ∈ ring

section Fingers

variable [DecidableEq N] [Endpoint N] {sha256 : Bytes → IdType} {b : N} {a : Action N}
  {sys sys' : System N}

/-- One step keeps the fingers among the nodes that have joined. -/
lemma FingersJoined.step (hfingers : FingersJoined sys) (hinv : PointerInv b sys)
    (h : System.step sha256 b a sys = some sys') : FingersJoined sys' where
  finger := by
    intro m i f hf
    rcases finger_cases h m i with heq | rfl | hphase
    · exact joined_step hinv h (hfingers.finger m i f (heq ▸ hf))
    · exact (hinv.step h).succ_joined m f hf
    · exact joined_step hinv h (hfingers.fixing m f (hf ▸ hphase))
  fixing := by
    intro m f hphase
    rcases (phase_step hinv h m).of_fixing hphase with ⟨hold, -, -⟩ | ⟨-, hjoined⟩
    · exact joined_step hinv h (hfingers.fixing m f hold)
    · exact hjoined f rfl

end Fingers

namespace Settled

variable [Endpoint N] {method : N → GetSuccessorMethod} {ring : Finset N} {sys : System N}

lemma joined_iff (h : Settled method ring sys) {m : N} : sys.Joined m ↔ m ∈ ring := by
  constructor
  · intro hjoined
    by_contra hm
    exact hjoined (by rw [succ, h.outside m hm]; rfl)
  · intro hm
    obtain ⟨s, hs, -⟩ := h.ideal.successor m hm
    rw [Joined, show sys.succ m = some s from hs]
    exact Option.some_ne_none s

lemma mem_of_pred (h : Settled method ring sys) {m q : N} (hq : sys.pred m = some q) :
    m ∈ ring := by
  by_contra hm
  rw [pred, h.outside m hm] at hq
  cases hq

lemma mem_of_succ (h : Settled method ring sys) {m s : N} (hs : sys.succ m = some s) :
    s ∈ ring := by
  have hm : m ∈ ring := h.joined_iff.mp (by rw [Joined, hs]; exact Option.some_ne_none s)
  obtain ⟨t, ht, hnext⟩ := h.ideal.successor m hm
  obtain rfl : s = t := Option.some.inj (hs.symm.trans ht)
  exact hnext.right_mem

/-- The predecessor pointers of a settled ring. -/
lemma isNext_of_pred (h : Settled method ring sys) {m q : N} (hq : sys.pred m = some q) :
    Arc.IsNext getId ring q m := by
  obtain ⟨r, hr, hnext⟩ := h.ideal.predecessor m (h.mem_of_pred hq)
  obtain rfl : q = r := Option.some.inj (hq.symm.trans hr)
  exact hnext

/-- The successor pointers of a settled ring. -/
lemma succ_of_isNext (h : Settled method ring sys) {m s : N} (hs : Arc.IsNext getId ring m s) :
    sys.succ m = some s := by
  obtain ⟨t, ht, hnext⟩ := h.ideal.successor m hs.left_mem
  rw [hs.right_unique getId_injective hnext]
  exact ht

/-- A settled ring satisfies the pointer invariant, with any of its nodes as bootstrap node. -/
lemma pointerInv (h : Settled method ring sys) {b : N} (hb : b ∈ ring) : PointerInv b sys where
  finger_none := by
    intro n hn i
    have hout : n ∉ ring := fun hmem => h.joined_iff.mpr hmem hn
    rw [h.outside n hout]
    rfl
  succ_joined := fun n s hs => h.joined_iff.mpr (h.mem_of_succ hs)
  bootstrap_joined := fun _ _ => h.joined_iff.mpr hb
  cycle := fun _ => Path.of_isNext getId_injective h.ideal.successor hb hb
  reach := fun n hn =>
    (Path.of_isNext getId_injective h.ideal.successor (h.joined_iff.mp hn) hb).reach
  knows := by
    rintro p s (hp | hmem | ⟨n, hphase⟩)
    · exact Path.last (h.succ_of_isNext (h.isNext_of_pred hp))
    · obtain ⟨hp, hs⟩ := h.messages p s hmem
      exact Path.of_isNext getId_injective h.ideal.successor hp hs
    · exact Path.of_isNext getId_injective h.ideal.successor (h.read n s p hphase)
        (h.mem_of_succ (h.stabilizing n s (some p) hphase))
  stabilizing := h.stabilizing
  read := by
    intro n s x hphase hxs
    obtain ⟨y, hy, hnext⟩ :=
      h.ideal.predecessor s (h.mem_of_succ (h.stabilizing n s (some x) hphase))
    refine ⟨y, ?_, hy⟩
    -- A node that precedes itself is alone on the ring.
    rintro rfl
    refine hnext.between x (h.read n y x hphase) (Arc.open_self_iff.mpr ?_)
    exact fun heq => hxs (getId_injective heq)
  fixing := h.fixing
  asking := fun n hphase => absurd (by rw [hphase]; trivial) (h.not_joining n)
  pred_self := fun n hn => h.succ_of_isNext (h.isNext_of_pred hn)
  notify_self := by
    intro n hmem hnone
    obtain ⟨p, hp, -⟩ := h.ideal.predecessor n (h.messages n n hmem).1
    exact absurd (hp.symm.trans hnone) (Option.some_ne_none p)

lemma fingersJoined (h : Settled method ring sys) : FingersJoined sys where
  finger := by
    intro m i f hf
    by_cases hm : m ∈ ring
    · exact h.joined_iff.mpr (h.ideal.fingers m hm i f hf)
    · rw [h.outside m hm] at hf
      cases hf
  fixing := fun m f hphase => h.joined_iff.mpr (h.found m f hphase)

end Settled

/-- The deployment in which only the nodes `a` and `b` run, as neighbours, with the given stores. -/
def pair [DecidableEq N] (a b : N) (data : N → DataType) : System N where
  info := fun m =>
    if m = a ∨ m = b then { pairInfo a b m with data := data m } else NodeInformation.initial
  phase := fun _ => .idle
  nextFinger := fun _ => 0
  notifies := []

lemma settled_pair [DecidableEq N] [Endpoint N] {a b : N} (hab : a ≠ b) (data : N → DataType)
    (method : N → GetSuccessorMethod) : Settled method {a, b} (pair a b data) where
  ideal := by
    refine (isIdeal_pair hab method).congr (fun _ _ => rfl) ?_ ?_
    · intro m hm
      simp [network, pair, show m = a ∨ m = b by simpa using hm]
    · intro m hm
      simp [network, pair, show m = a ∨ m = b by simpa using hm]
  outside := by
    intro m hm
    exact if_neg (by simpa using hm)
  not_joining := fun _ => id
  stabilizing := fun _ _ _ h => by cases h
  read := fun _ _ _ h => by cases h
  fixing := fun _ _ h => by cases h
  found := fun _ _ h => by cases h
  messages := fun _ _ h => by cases h

/-! ## The states on the way -/

section Joining

variable [Endpoint N]

/-- The pointers while the node `n` is about to join `ring` between the neighbours `p` and `s`, has
partly joined, or has joined. -/
structure JoinPointers (ring : Finset N) (p n s : N) (sys : System N) : Prop where
  next : Arc.IsNext getId ring p s
  inside : Arc.Open (getId p) (getId n) (getId s)
  members : ∀ m, sys.Joined m → m = n ∨ m ∈ ring
  succ_ring : ∀ m ∈ ring, m ≠ p → ∃ t, sys.succ m = some t ∧ Arc.IsNext getId ring m t
  pred_ring : ∀ t ∈ ring, t ≠ s → ∃ m, sys.pred t = some m ∧ Arc.IsNext getId ring m t
  succ_p : sys.succ p = some s ∨ sys.succ p = some n ∧ sys.pred s = some n
  pred_s : sys.pred s = some p ∨ sys.pred s = some n ∧ sys.succ n = some s
  succ_n : sys.succ n = none ∨ sys.succ n = some s
  pred_n : sys.pred n = none ∨ sys.pred n = some p ∧ sys.succ p = some n

/-- A state on the way: besides the pointers, what messages and answers may say. -/
structure Joining (b : N) (ring : Finset N) (p n s : N) (sys : System N) : Prop
    extends JoinPointers ring p n s sys where
  pointers : PointerInv b sys
  fingers : FingersJoined sys
  /-- Messages go between ring nodes, from `n` to `s`, or from `p` to `n`. -/
  messages : ∀ q t, (q, t) ∈ sys.notifies → q ∈ ring ∧ t ∈ ring ∨
    q = n ∧ t = s ∧ sys.succ n = some s ∨ q = p ∧ t = n ∧ sys.succ p = some n
  /-- A ring node that stabilizes has read a ring node, except that `p` may have read `n`; and `n` has
  read `p` or itself. -/
  reads : ∀ m t x, sys.phase m = .stabilizing t (some x) → m ∈ ring ∧ x ∈ ring ∨
    m = p ∧ t = s ∧ x = n ∧ sys.pred s = some n ∨ m = n ∧ t = s ∧ (x = p ∨ x = n)

/-- What the action `a` can do to the pointers during the join. -/
inductive JoinStep [DecidableEq N] (p n s : N) (a : Action N) (sys sys' : System N) : Prop
  | same : sys'.succ = sys.succ → sys'.pred = sys.pred → JoinStep p n s a sys sys'
  /-- `n` is given its successor. -/
  | entered : sys.succ n = none → sys'.succ = Function.update sys.succ n (some s) →
      sys'.pred = sys.pred → JoinStep p n s a sys sys'
  /-- `s` learns of `n`. -/
  | noticed : a = .deliverNotify n s → (n, s) ∈ sys.notifies → sys.pred s = some p →
      sys.succ n = some s → sys'.succ = sys.succ →
      sys'.pred = Function.update sys.pred s (some n) → JoinStep p n s a sys sys'
  /-- `p` moves on to `n`. -/
  | adopted : sys.succ p = some s → sys.pred s = some n →
      sys'.succ = Function.update sys.succ p (some n) → sys'.pred = sys.pred →
      JoinStep p n s a sys sys'
  /-- `n` learns of `p`. -/
  | confirmed : sys.succ p = some n → sys'.succ = sys.succ →
      sys'.pred = Function.update sys.pred n (some p) → JoinStep p n s a sys sys'

namespace JoinPointers

variable {p n s : N} {ring : Finset N} {sys sys' : System N}

lemma notMem (h : JoinPointers ring p n s sys) : n ∉ ring :=
  fun hn => h.next.between n hn h.inside

lemma ne_left (h : JoinPointers ring p n s sys) : n ≠ p :=
  fun hn => h.notMem (hn ▸ h.next.left_mem)

lemma ne_right (h : JoinPointers ring p n s sys) : n ≠ s :=
  fun hn => h.notMem (hn ▸ h.next.right_mem)

/-- Where the pointers of the joined nodes lead. -/
lemma of_succ (h : JoinPointers ring p n s sys) {q t : N} (hqt : sys.succ q = some t) :
    q ≠ p ∧ Arc.IsNext getId ring q t ∨ q = p ∧ t = s ∨ q = p ∧ t = n ∨ q = n ∧ t = s := by
  rcases h.members q (by rw [Joined, hqt]; exact Option.some_ne_none t) with rfl | hq
  · rcases h.succ_n with hnone | hs
    · rw [hnone] at hqt
      cases hqt
    · exact Or.inr (Or.inr (Or.inr ⟨rfl, Option.some.inj (hqt.symm.trans hs)⟩))
  · by_cases hqp : q = p
    · subst hqp
      rcases h.succ_p with hs | ⟨hs, -⟩
      · exact Or.inr (Or.inl ⟨rfl, Option.some.inj (hqt.symm.trans hs)⟩)
      · exact Or.inr (Or.inr (Or.inl ⟨rfl, Option.some.inj (hqt.symm.trans hs)⟩))
    · obtain ⟨t', ht', hnext⟩ := h.succ_ring q hq hqp
      obtain rfl : t = t' := Option.some.inj (hqt.symm.trans ht')
      exact Or.inl ⟨hqp, hnext⟩

/-- What a message from `q` to its successor `t` may be. -/
lemma message (h : JoinPointers ring p n s sys) {q t : N} (hqt : sys.succ q = some t) :
    q ∈ ring ∧ t ∈ ring ∨ q = n ∧ t = s ∧ sys.succ n = some s ∨
      q = p ∧ t = n ∧ sys.succ p = some n := by
  rcases h.of_succ hqt with ⟨-, hnext⟩ | ⟨rfl, rfl⟩ | ⟨rfl, rfl⟩ | ⟨rfl, rfl⟩
  · exact Or.inl ⟨hnext.left_mem, hnext.right_mem⟩
  · exact Or.inl ⟨h.next.left_mem, h.next.right_mem⟩
  · exact Or.inr (Or.inr ⟨rfl, rfl, hqt⟩)
  · exact Or.inr (Or.inl ⟨rfl, rfl, hqt⟩)

/-- What a node may read from its successor. -/
lemma read (h : JoinPointers ring p n s sys) {m t x : N} (hmt : sys.succ m = some t)
    (hx : sys.pred t = some x) :
    m ∈ ring ∧ x ∈ ring ∨ m = p ∧ t = s ∧ x = n ∧ sys.pred s = some n ∨
      m = n ∧ t = s ∧ (x = p ∨ x = n) := by
  have hs : t = s → x = p ∨ x = n ∧ sys.pred s = some n := by
    rintro rfl
    rcases h.pred_s with hp | ⟨hp, -⟩
    · exact Or.inl (Option.some.inj (hx.symm.trans hp))
    · exact Or.inr ⟨Option.some.inj (hx.symm.trans hp), hp⟩
  rcases h.of_succ hmt with ⟨hmp, hnext⟩ | ⟨rfl, rfl⟩ | ⟨rfl, rfl⟩ | ⟨rfl, rfl⟩
  · have hts : t ≠ s := by
      rintro rfl
      exact hmp (hnext.left_unique getId_injective h.next)
    obtain ⟨q, hq, hqt⟩ := h.pred_ring t hnext.right_mem hts
    obtain rfl : x = q := Option.some.inj (hx.symm.trans hq)
    exact Or.inl ⟨hnext.left_mem, hqt.left_mem⟩
  · rcases hs rfl with rfl | ⟨rfl, hpred⟩
    · exact Or.inl ⟨h.next.left_mem, h.next.left_mem⟩
    · exact Or.inr (Or.inl ⟨rfl, rfl, rfl, hpred⟩)
  · rcases h.pred_n with hnone | ⟨hp, -⟩
    · rw [hnone] at hx
      cases hx
    · obtain rfl : x = m := Option.some.inj (hx.symm.trans hp)
      exact Or.inl ⟨h.next.left_mem, h.next.left_mem⟩
  · exact Or.inr (Or.inr ⟨rfl, rfl, (hs rfl).imp_right And.left⟩)

/-- What has been reached on the way is kept: the successor of `n`, then the predecessor of `s`, the
successor of `p` and the predecessor of `n`. -/
lemma keeps [DecidableEq N] {a : Action N} (h : JoinPointers ring p n s sys)
    (hstep : JoinStep p n s a sys sys') :
    (sys.succ n = some s → sys'.succ n = some s) ∧ (sys.pred s = some n → sys'.pred s = some n) ∧
      (sys.succ p = some n → sys'.succ p = some n) ∧
      (sys.pred n = some p → sys'.pred n = some p) := by
  have hnp := h.ne_left
  have hns := h.ne_right
  cases hstep with
  | same hsucc hpred => simp [hsucc, hpred]
  | entered _ hsucc hpred => simp [hsucc, hpred, hnp.symm]
  | noticed _ _ _ _ hsucc hpred => simp [hsucc, hpred, hns]
  | adopted _ _ hsucc hpred => simp [hsucc, hpred, hnp]
  | confirmed _ hsucc hpred => simp [hsucc, hpred, hns.symm]

/-- The pointers stay in one of the shapes of the join. -/
lemma step [DecidableEq N] {a : Action N} (h : JoinPointers ring p n s sys)
    (hstep : JoinStep p n s a sys sys') : JoinPointers ring p n s sys' := by
  have hnp := h.ne_left
  have hns := h.ne_right
  have hout := h.notMem
  refine ⟨h.next, h.inside, ?_, ?_, ?_, ?_, ?_, ?_, ?_⟩
  · intro m hm
    have hold := h.members m
    unfold Joined at hm hold
    cases hstep with
    | same hsucc _ => exact hold (hsucc ▸ hm)
    | noticed _ _ _ _ hsucc _ => exact hold (hsucc ▸ hm)
    | confirmed _ hsucc _ => exact hold (hsucc ▸ hm)
    | entered _ hsucc _ =>
      by_cases hmn : m = n
      · exact Or.inl hmn
      · exact hold (by simpa [hsucc, hmn] using hm)
    | adopted _ _ hsucc _ =>
      by_cases hmp : m = p
      · exact Or.inr (hmp ▸ h.next.left_mem)
      · exact hold (by simpa [hsucc, hmp] using hm)
  · intro m hm hmp
    have hmn : m ≠ n := fun heq => hout (heq ▸ hm)
    have hsucc : sys'.succ m = sys.succ m := by
      cases hstep <;> simp [*]
    rw [hsucc]
    exact h.succ_ring m hm hmp
  · intro t ht hts
    have htn : t ≠ n := fun heq => hout (heq ▸ ht)
    have hpred : sys'.pred t = sys.pred t := by
      cases hstep <;> simp [*]
    rw [hpred]
    exact h.pred_ring t ht hts
  · have hold := h.succ_p
    cases hstep with
    | same hsucc hpred => rwa [hsucc, hpred]
    | entered _ hsucc hpred => simpa [hsucc, hpred, hnp.symm] using hold
    | noticed _ _ _ _ hsucc hpred =>
      exact Or.imp_right (fun hn => ⟨hn.1, by simp [hpred]⟩) (hsucc ▸ hold)
    | adopted _ hp hsucc hpred => exact Or.inr (by simp [hsucc, hpred, hp])
    | confirmed _ hsucc hpred => simpa [hsucc, hpred, hns.symm] using hold
  · have hold := h.pred_s
    cases hstep with
    | same hsucc hpred => rwa [hsucc, hpred]
    | entered _ hsucc hpred =>
      exact Or.imp_right (fun hn => ⟨hn.1, by simp [hsucc]⟩) (hpred ▸ hold)
    | noticed _ _ _ hs hsucc hpred => exact Or.inr (by simp [hsucc, hpred, hs])
    | adopted _ _ hsucc hpred => simpa [hsucc, hpred, hnp] using hold
    | confirmed _ hsucc hpred => simpa [hsucc, hpred, hns.symm] using hold
  · have hold := h.succ_n
    cases hstep with
    | same hsucc _ => rwa [hsucc]
    | entered _ hsucc _ => exact Or.inr (by simp [hsucc])
    | noticed _ _ _ _ hsucc _ => rwa [hsucc]
    | adopted _ _ hsucc _ => simpa [hsucc, hnp] using hold
    | confirmed _ hsucc _ => rwa [hsucc]
  · have hold := h.pred_n
    cases hstep with
    | same hsucc hpred => rwa [hsucc, hpred]
    | entered _ hsucc hpred => simpa [hsucc, hpred, hnp.symm] using hold
    | noticed _ _ _ _ hsucc hpred => simpa [hsucc, hpred, hns] using hold
    | adopted _ _ hsucc hpred =>
      exact Or.imp_right (fun hn => ⟨hn.1, by simp [hsucc]⟩) (hpred ▸ hold)
    | confirmed hs hsucc hpred => exact Or.inr (by simp [hsucc, hpred, hs])

end JoinPointers

namespace Joining

variable {b p n s : N} {ring : Finset N} {sys sys' : System N}

/-- A settled ring before the join. -/
lemma of_settled {method : N → GetSuccessorMethod} (h : Settled method ring sys) (hb : b ∈ ring)
    (hp : sys.pred s = some p) (hn : Arc.Open (getId p) (getId n) (getId s)) :
    Joining b ring p n s sys := by
  have hnext := h.isNext_of_pred hp
  have hout : n ∉ ring := fun hmem => hnext.between n hmem hn
  refine ⟨⟨hnext, hn, ?_, ?_, ?_, ?_, Or.inl hp, ?_, ?_⟩, h.pointerInv hb, h.fingersJoined, ?_, ?_⟩
  · exact fun m hm => Or.inr (h.joined_iff.mp hm)
  · exact fun m hm _ => h.ideal.successor m hm
  · exact fun t ht _ => h.ideal.predecessor t ht
  · exact Or.inl (h.succ_of_isNext hnext)
  · exact Or.inl (by rw [succ, h.outside n hout]; rfl)
  · exact Or.inl (by rw [pred, h.outside n hout]; rfl)
  · exact fun q t hmem => Or.inl (h.messages q t hmem)
  · intro m t x hphase
    have hm : sys.Joined m := by
      rw [Joined, h.stabilizing m t (some x) hphase]
      exact Option.some_ne_none t
    exact Or.inl ⟨h.joined_iff.mp hm, h.read m t x hphase⟩

/-- When `n` has learnt of `p`, the ring is the ideal ring with `n` added. -/
lemma isIdeal [DecidableEq N] (h : Joining b ring p n s sys) (hdone : sys.pred n = some p)
    (method : N → GetSuccessorMethod) : IsIdeal (sys.network method) (insert n ring) := by
  have hsp : sys.succ p = some n := by
    rcases h.pred_n with hnone | ⟨-, hp⟩
    · rw [hdone] at hnone
      cases hnone
    · exact hp
  have hps : sys.pred s = some n := by
    rcases h.succ_p with hs | ⟨-, hn⟩
    · exact absurd (Option.some.inj (hsp.symm.trans hs)) h.ne_right
    · exact hn
  have hsn : sys.succ n = some s := by
    rcases h.pred_s with hp | ⟨-, hn⟩
    · exact absurd (Option.some.inj (hps.symm.trans hp)) h.ne_left
    · exact hn
  refine ⟨⟨n, Finset.mem_insert_self n ring⟩, fun _ _ => rfl, ?_, ?_, ?_⟩
  · intro m hm
    rcases Finset.mem_insert.mp hm with rfl | hm
    · exact ⟨s, hsn, h.next.insert_right h.inside⟩
    · by_cases hmp : m = p
      · subst hmp
        exact ⟨n, hsp, h.next.insert_left h.inside⟩
      · obtain ⟨t, ht, hnext⟩ := h.succ_ring m hm hmp
        exact ⟨t, ht, h.next.insert_of_ne getId_injective h.inside hnext hmp⟩
  · intro t ht
    rcases Finset.mem_insert.mp ht with rfl | ht
    · exact ⟨p, hdone, h.next.insert_left h.inside⟩
    · by_cases hts : t = s
      · subst hts
        exact ⟨n, hps, h.next.insert_right h.inside⟩
      · obtain ⟨q, hq, hnext⟩ := h.pred_ring t ht hts
        refine ⟨q, hq, h.next.insert_of_ne getId_injective h.inside hnext ?_⟩
        rintro rfl
        exact hts (hnext.right_unique getId_injective h.next)
  · intro m _ i f hf
    exact Finset.mem_insert.mpr (h.members f (h.fingers.finger m i f hf))

section Steps

variable [DecidableEq N] {sha256 : Bytes → IdType} {a : Action N}

/-- A step during the join does one of five things to the pointers. -/
lemma joinStep (h : Joining b ring p n s sys) (hcreate : a ≠ .create)
    (hanswer : ∀ m t, a = .joinAnswer m t → m = n ∧ t = s)
    (hstep : System.step sha256 b a sys = some sys') : JoinStep p n s a sys sys' := by
  cases pred_step h.pointers hstep with
  | same hpred =>
    cases succ_step h.pointers hstep with
    | same hsucc => exact .same hsucc hpred
    | created ha _ _ => exact absurd ha hcreate
    | joined m t ha hnone _ hsucc =>
      obtain ⟨rfl, rfl⟩ := hanswer m t ha
      exact .entered hnone hsucc hpred
    | shortened m t x _ hphase hs hopen hsucc =>
      rcases h.reads m t x hphase with ⟨hm, hx⟩ | ⟨rfl, rfl, rfl, hp⟩ | ⟨rfl, rfl, rfl | rfl⟩
      · -- No ring node lies between a ring node and its successor.
        exfalso
        rcases h.of_succ hs with ⟨-, hnext⟩ | ⟨rfl, rfl⟩ | ⟨rfl, rfl⟩ | ⟨rfl, rfl⟩
        · exact hnext.between x hx hopen
        · exact h.next.between x hx hopen
        · exact h.next.between x hx (h.inside.of_head hopen)
        · exact h.notMem hm
      · exact .adopted hs hp hsucc hpred
      · exact absurd hopen h.inside.not_tail
      · exact absurd hopen (Arc.not_open_left _ _)
  | moved q t ha hmem hcase hpred hsucc =>
    have hcloser : ∀ {r}, sys.pred t = some r → Arc.Open (getId r) (getId q) (getId t) := by
      intro r hr
      rcases hcase with hnone | ⟨r', hr', hopen⟩
      · rw [hr] at hnone
        cases hnone
      · rwa [Option.some.inj (hr.symm.trans hr')]
    rcases h.messages q t hmem with ⟨hq, ht⟩ | ⟨rfl, rfl, hqt⟩ | ⟨rfl, rfl, hqt⟩
    · -- A ring node is no closer to another one than the predecessor it already has.
      exfalso
      by_cases hts : t = s
      · subst hts
        rcases h.pred_s with hp | ⟨hp, -⟩
        · exact h.next.between q hq (hcloser hp)
        · exact h.next.between q hq (h.inside.of_tail (hcloser hp))
      · obtain ⟨m, hp, hmt⟩ := h.pred_ring t ht hts
        exact hmt.between q hq (hcloser hp)
    · rcases h.pred_s with hp | ⟨hp, -⟩
      · exact .noticed ha hmem hp hqt hsucc hpred
      · exact absurd (hcloser hp) (Arc.not_open_left _ _)
    · exact .confirmed hqt hsucc hpred

/-- A step during the join leads to a state on the way. -/
theorem step (h : Joining b ring p n s sys) (hcreate : a ≠ .create)
    (hanswer : ∀ m t, a = .joinAnswer m t → m = n ∧ t = s)
    (hstep : System.step sha256 b a sys = some sys') : Joining b ring p n s sys' := by
  have hjoin := h.joinStep hcreate hanswer hstep
  have hpointers := h.toJoinPointers.step hjoin
  have hkeep := h.toJoinPointers.keeps hjoin
  refine ⟨hpointers, h.pointers.step hstep, h.fingers.step h.pointers hstep, ?_, ?_⟩
  · intro q t hmem
    rcases notifies_step h.pointers hstep hmem with hold | ⟨-, hsucc⟩
    · rcases h.messages q t hold with hring | ⟨rfl, rfl, hs⟩ | ⟨rfl, rfl, hs⟩
      · exact Or.inl hring
      · exact Or.inr (Or.inl ⟨rfl, rfl, hkeep.1 hs⟩)
      · exact Or.inr (Or.inr ⟨rfl, rfl, hkeep.2.2.1 hs⟩)
    · exact hpointers.message hsucc
  · intro m t x hphase
    rcases (phase_step h.pointers hstep m).of_stabilizing hphase with ⟨hold, -⟩ | ⟨hx, hsucc, -⟩
    · rcases h.reads m t x hold with hring | ⟨rfl, rfl, rfl, hp⟩ | hn
      · exact Or.inl hring
      · exact Or.inr (Or.inl ⟨rfl, rfl, rfl, hkeep.2.1 hp⟩)
      · exact Or.inr (Or.inr hn)
    · exact hpointers.read hsucc hx.symm

end Steps

end Joining

end Joining

end System

end ChordPlusPlus
