import ChordPlusPlus.Dht.Maintenance

/-!
# The order of the main loop

`System.step` lets a node take the steps of its maintenance in any order.  `Dht::mainLoop` takes them
in a fixed one: first the test for a successor, with `create` or `join` when there is none, then
`stabilize`, `fixFingers` and `checkPredecessor`, and again from the start.  `Running` adds to the state
of a deployment the point of the loop at which each node is.  `notify` is served by the thread of the
RPC server, at any point of the loop.

`System.step` goes on where a node without predecessor serves a handover.  There the source reads through
an absent optional, and no statement follows, so this is no step of a main loop.  Neither is a reply of
the bootstrap node with an empty successor, whose address `join` would read next: a node that has asked
takes a successor (`joinAnswer`), or the request has failed or been rejected with its proof of work
(`joinRefused`), and the reply then has no successor field.

The deployment is one in which no node is shut down, so `m_dhtCancelled` is not set.
-/

namespace ChordPlusPlus

/-- A statement of the body of `Dht::mainLoop`. -/
inductive LoopPoint
  /-- The test for a successor, and `create` or `join` if there is none. -/
  | checkSuccessor
  | stabilize
  | fixFingers
  | checkPredecessor
deriving DecidableEq

/-- The statement that follows. -/
def LoopPoint.next : LoopPoint → LoopPoint
  | .checkSuccessor => .stabilize
  | .stabilize => .fixFingers
  | .fixFingers => .checkPredecessor
  | .checkPredecessor => .checkSuccessor

/-- The node whose main loop takes the step, and the statement of the loop that the step belongs to.
The delivery of a message belongs to no main loop. -/
def Action.thread {N : Type*} (bootstrap : N) : Action N → Option (N × LoopPoint)
  | .create => some (bootstrap, .checkSuccessor)
  | .joinStart n => some (n, .checkSuccessor)
  | .joinAnswer n _ => some (n, .checkSuccessor)
  | .joinRefused n => some (n, .checkSuccessor)
  | .handover n => some (n, .checkSuccessor)
  | .storeItems n => some (n, .checkSuccessor)
  | .stabilizeRead n => some (n, .stabilize)
  | .stabilizeAct n => some (n, .stabilize)
  | .deliverNotify _ _ => none
  | .fixFingersLookup n _ => some (n, .fixFingers)
  | .fixFingersSet n => some (n, .fixFingers)
  | .checkPredecessor n => some (n, .checkPredecessor)

/-- The step reads through an absent optional: a node without predecessor serves the handover. -/
def System.readsAbsent {N : Type*} (sys : System N) : Action N → Bool
  | .handover n => ((sys.info n).getSuccessor.bind sys.pred).isNone
  | _ => false

/-- A deployment whose nodes run their main loops. -/
structure Running (N : Type*) extends System N where
  /-- The statement that the main loop of each node executes. -/
  point : N → LoopPoint

/-- A step of a deployment whose nodes run their main loops. -/
inductive LoopAction (N : Type*)
  /-- The node finds that it has a successor. -/
  | goOn (n : N)
  | act (a : Action N)

/-- The step is one of the main loop of `n`. -/
def LoopAction.Of {N : Type*} (bootstrap n : N) : LoopAction N → Prop
  | .goOn m => m = n
  | .act a => ∃ point, a.thread bootstrap = some (n, point)

/-- A step that moves the main loop of `n` is one of this loop. -/
lemma PhaseMove.exists_thread {N : Type*} {a : Action N} {n : N} {phase phase' : Phase N}
    (h : PhaseMove a n phase phase') (b : N) : ∃ point, a.thread b = some (n, point) := by
  cases h <;> exact ⟨_, rfl⟩

namespace Running

variable {N : Type*}

/-- All nodes are about to enter the loop. -/
def initial : Running N where
  toSystem := System.initial
  point := fun _ => .checkSuccessor

variable [DecidableEq N]

/-- Where the node `n` is after a step of `point`: a statement that waits for a reply is not left. -/
def advance (st : Running N) (sys : System N) (n : N) : N → LoopPoint :=
  if sys.phase n = .idle then Function.update st.point n (st.point n).next else st.point

variable [Endpoint N]

/-- One step. -/
def step (sha256 : Bytes → IdType) (bootstrap : N) : LoopAction N → Running N → Option (Running N)
  | .goOn n, st =>
      if st.point n = .checkSuccessor ∧ st.phase n = .idle ∧
          (st.info n).getSuccessor ≠ none then
        some { st with point := Function.update st.point n .stabilize }
      else none
  | .act a, st =>
      match a.thread bootstrap with
      | none =>
          (System.step sha256 bootstrap a st.toSystem).map fun sys => ⟨sys, st.point⟩
      | some (n, point) =>
          if st.point n = point ∧ st.readsAbsent a = false then
            (System.step sha256 bootstrap a st.toSystem).map fun sys => ⟨sys, st.advance sys n⟩
          else none

section Inversion

variable {sha256 : Bytes → IdType} {b n : N} {a : Action N} {st st' : Running N}

lemma step_goOn (h : step sha256 b (.goOn n) st = some st') :
    st.point n = .checkSuccessor ∧ st.phase n = .idle ∧ (st.info n).getSuccessor ≠ none ∧
      st' = { st with point := Function.update st.point n .stabilize } := by
  simp only [step] at h
  split_ifs at h with hc
  exact ⟨hc.1, hc.2.1, hc.2.2, (Option.some.inj h).symm⟩

/-- A step of the main loop of `n` is taken at its statement, which it may end. -/
lemma step_act {point : LoopPoint} (hthread : a.thread b = some (n, point))
    (h : step sha256 b (.act a) st = some st') :
    st.point n = point ∧ System.step sha256 b a st.toSystem = some st'.toSystem ∧
      st'.point = st.advance st'.toSystem n := by
  simp only [step, hthread] at h
  split_ifs at h with hc
  obtain ⟨sys, hsys, rfl⟩ := Option.map_eq_some_iff.mp h
  exact ⟨hc.1, hsys, rfl⟩

/-- A handover is served by a node that has a predecessor. -/
lemma step_act_handover (h : step sha256 b (.act (.handover n)) st = some st') :
    ∃ s p, (st.info n).getSuccessor = some s ∧ st.pred s = some p := by
  simp only [step, Action.thread] at h
  split_ifs at h with hc
  have hsome := hc.2
  rw [System.readsAbsent, Option.isNone_eq_false_iff, Option.isSome_iff_exists] at hsome
  obtain ⟨p, hp⟩ := hsome
  obtain ⟨s, hs, hp⟩ := Option.bind_eq_some_iff.mp hp
  exact ⟨s, p, hs, hp⟩

/-- The delivery of a message moves no main loop. -/
lemma step_act_none (hthread : a.thread b = none) (h : step sha256 b (.act a) st = some st') :
    System.step sha256 b a st.toSystem = some st'.toSystem ∧ st'.point = st.point := by
  simp only [step, hthread] at h
  obtain ⟨sys, hsys, rfl⟩ := Option.map_eq_some_iff.mp h
  exact ⟨hsys, rfl⟩

/-- A step of the loop is a step of the system, or the test for a successor, which changes nothing. -/
lemma toSystem_step {l : LoopAction N} (h : step sha256 b l st = some st') :
    (∃ n, l = .goOn n ∧ st'.toSystem = st.toSystem) ∨
      ∃ a, l = .act a ∧ System.step sha256 b a st.toSystem = some st'.toSystem := by
  cases l with
  | goOn n =>
    obtain ⟨-, -, -, rfl⟩ := step_goOn h
    exact Or.inl ⟨n, rfl, rfl⟩
  | act a =>
    cases hthread : a.thread b with
    | none => exact Or.inr ⟨a, rfl, (step_act_none hthread h).1⟩
    | some t => exact Or.inr ⟨a, rfl, (step_act hthread h).2.1⟩

/-- The loop refines the system: what it reaches, the steps in any order reach too. -/
theorem reachable_toSystem (h : Run.Reachable (step sha256 b) initial st) :
    Run.Reachable (System.step sha256 b) System.initial st.toSystem := by
  refine h.invariant
    (P := fun t => Run.Reachable (System.step sha256 b) System.initial t.toSystem) ?_ ⟨[], rfl⟩
  intro l s s' ih hstep
  rcases toSystem_step hstep with ⟨n, -, heq⟩ | ⟨a, -, hsys⟩
  · rw [heq]
    exact ih
  · exact ih.next hsys

end Inversion

end Running

end ChordPlusPlus
