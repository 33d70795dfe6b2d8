import ChordPlusPlus.Dht.Peer

/-!
# What the steps of a lookup return

One specification lemma for each function of the lookup, in terms of the clockwise arcs, and the
monotonicity of the step bound: a lookup that has settled keeps its result under every larger
bound, so that the answer of a lookup (`Network.Resolves`) is unique.
-/

namespace ChordPlusPlus

namespace PeerImpl

variable {N : Type*} [Endpoint N] {self : N} {info : NodeInformation N} {id : IdType}

/-- The closest preceding node is a finger strictly between this node and `id`. -/
lemma getClosestPreceding_eq_some {f : N} (h : getClosestPreceding self info id = some f) :
    (∃ i, info.fingerTable i = some f) ∧ Arc.Open (getId self) (getId f) id := by
  obtain ⟨i, -, hi⟩ := List.exists_of_findSome?_eq_some h
  rw [Option.filter_eq_some_iff] at hi
  exact ⟨⟨i, hi.1⟩, by simpa using hi.2⟩

/-- Without a closest preceding node, no finger lies strictly between this node and `id`. -/
lemma getClosestPreceding_eq_none_iff :
    getClosestPreceding self info id = none ↔
      ∀ i f, info.fingerTable i = some f → ¬ Arc.Open (getId self) (getId f) id := by
  unfold getClosestPreceding
  rw [List.findSome?_eq_none_iff]
  constructor
  · intro h i f hf
    have hi := h i (by simp)
    rw [hf, Option.filter_eq_none_iff] at hi
    simpa using hi f rfl
  · intro h i _
    rw [Option.filter_eq_none_iff]
    intro f hf
    simpa using h i f hf

/-- This node is requested exactly when `id` lies between its predecessor and itself. -/
lemma requested_eq_thisNode_iff :
    requested self info id = .thisNode ↔
      ∃ p, info.predecessor = some p ∧ Arc.HalfOpen (getId p) id (getId self) := by
  unfold requested
  cases hp : info.predecessor with
  | none =>
    cases hs : info.getSuccessor with
    | none => simp
    | some s => by_cases h : Arc.HalfOpen (getId self) id (getId s) <;> simp [h]
  | some p =>
    by_cases h : Arc.HalfOpen (getId p) id (getId self)
    · simp [h]
    · cases hs : info.getSuccessor with
      | none => simp [h]
      | some s => by_cases h' : Arc.HalfOpen (getId self) id (getId s) <;> simp [h, h']

/-- The next node is requested when it is the successor and `id` lies between this node and it. -/
lemma requested_eq_nextNode {s : N} (h : requested self info id = .nextNode s) :
    info.getSuccessor = some s ∧ Arc.HalfOpen (getId self) id (getId s) := by
  unfold requested at h
  dsimp only at h
  split_ifs at h with h1
  cases hs : info.getSuccessor with
  | none => simp [hs] at h
  | some s' =>
    by_cases h' : Arc.HalfOpen (getId self) id (getId s')
    · simp only [hs, isInRangeLoop_false_true, h', if_true, Requested.nextNode.injEq] at h
      subst h
      exact ⟨rfl, h'⟩
    · simp [hs, h'] at h

/-- The lookup goes on when `id` lies neither in this node's own arc nor in its successor's. -/
lemma requested_eq_otherNode (h : requested self info id = .otherNode) :
    (∀ p, info.predecessor = some p → ¬ Arc.HalfOpen (getId p) id (getId self)) ∧
      ∀ s, info.getSuccessor = some s → ¬ Arc.HalfOpen (getId self) id (getId s) := by
  constructor
  · intro p hp hin
    have hthis : requested self info id = .thisNode :=
      requested_eq_thisNode_iff.mpr ⟨p, hp, hin⟩
    rw [hthis] at h
    cases h
  · intro s hs hin
    unfold requested at h
    dsimp only at h
    split_ifs at h with h1
    simp [hs, hin] at h

variable [DecidableEq N] {peers : ℕ → Peers N} {node : N} {distrusted : Finset N}

/-- What the first question of `iterate` leads to: the request fails, the answer is returned, or it
names a distrusted node and the id of that node is asked for next. -/
lemma iterate_cases {fuel request request' : ℕ} {askedId : IdType}
    {r : Promise (ClosestPrecedingPair N)}
    (h : iterate self info peers node id distrusted (fuel + 1) request askedId =
      some (r, request')) :
    (∃ e, impl self info peers node id request askedId = (.error e, request') ∧ r = .error e) ∨
    (∃ result, impl self info peers node id request askedId = (.ok result, request') ∧
      r = .ok result ∧ ∀ c, result.closestPreceding = some c → c ∉ distrusted) ∨
    (∃ c successor request₁,
      impl self info peers node id request askedId = (.ok ⟨some c, successor⟩, request₁) ∧
      c ∈ distrusted ∧
      iterate self info peers node id distrusted fuel request₁ (getId c) = some (r, request')) := by
  rw [iterate] at h
  rcases himpl : impl self info peers node id request askedId with
    ⟨e | ⟨_ | c, successor⟩, request₁⟩
  · rw [himpl] at h
    obtain ⟨rfl, rfl⟩ := Prod.mk.inj (Option.some.inj h)
    exact Or.inl ⟨e, rfl, rfl⟩
  · rw [himpl] at h
    obtain ⟨rfl, rfl⟩ := Prod.mk.inj (Option.some.inj h)
    exact Or.inr (Or.inl ⟨_, rfl, rfl, by simp⟩)
  · rw [himpl] at h
    dsimp only at h
    split_ifs at h with hmem
    · exact Or.inr (Or.inr ⟨c, successor, request₁, rfl, hmem, h⟩)
    · obtain ⟨rfl, rfl⟩ := Prod.mk.inj (Option.some.inj h)
      exact Or.inr (Or.inl ⟨_, rfl, rfl, by simpa using hmem⟩)

/-- A settled `iterate` does not change under a larger step bound. -/
lemma iterate_succ {fuel request : ℕ} {askedId : IdType}
    {r : Promise (ClosestPrecedingPair N) × ℕ}
    (h : iterate self info peers node id distrusted fuel request askedId = some r) :
    iterate self info peers node id distrusted (fuel + 1) request askedId = some r := by
  induction fuel generalizing request askedId with
  | zero => simp [iterate] at h
  | succ fuel ih =>
    rw [iterate] at h ⊢
    split at h
    · exact h
    · split at h
      · exact h
      · split_ifs at h ⊢ with hc
        · exact ih h
        · exact h

/-- A settled hop loop does not change under a larger step bound. -/
lemma getSuccessorAlgorithm_succ {fuel request : ℕ} {hops : List N} {r : Promise (Option N)}
    (h : getSuccessorAlgorithm self info peers id fuel request hops distrusted = some r) :
    getSuccessorAlgorithm self info peers id (fuel + 1) request hops distrusted = some r := by
  induction fuel generalizing request hops distrusted with
  | zero => simp [getSuccessorAlgorithm] at h
  | succ fuel ih =>
    cases hops with
    | nil => exact h
    | cons current hops =>
      rw [getSuccessorAlgorithm] at h ⊢
      cases hhelp : getClosestPrecedingHelper self info peers fuel request current id distrusted with
      | none => rw [hhelp] at h; cases h
      | some res =>
        have hmore : getClosestPrecedingHelper self info peers (fuel + 1) request current id
            distrusted = some res := iterate_succ hhelp
        rw [hhelp] at h
        rw [hmore]
        split at h
        · cases ‹some res = none›
        · exact h
        · split at h
          · exact ih h
          · split at h
            · exact h
            · exact ih h

lemma iterate_mono {fuel fuel' request : ℕ} (hle : fuel ≤ fuel') {askedId : IdType}
    {r : Promise (ClosestPrecedingPair N) × ℕ}
    (h : iterate self info peers node id distrusted fuel request askedId = some r) :
    iterate self info peers node id distrusted fuel' request askedId = some r := by
  induction fuel', hle using Nat.le_induction with
  | base => exact h
  | succ n _ ih => exact iterate_succ ih

lemma getSuccessorAlgorithm_mono {fuel fuel' request : ℕ} (hle : fuel ≤ fuel') {hops : List N}
    {r : Promise (Option N)}
    (h : getSuccessorAlgorithm self info peers id fuel request hops distrusted = some r) :
    getSuccessorAlgorithm self info peers id fuel' request hops distrusted = some r := by
  induction fuel', hle using Nat.le_induction with
  | base => exact h
  | succ n _ ih => exact getSuccessorAlgorithm_succ ih

end PeerImpl

namespace Network

variable {N : Type*} [Endpoint N] {net : Network N}

/-- An answering node replies with its predecessor. -/
lemma peers_getPredecessor {node : N} (h : net.answers node = true) :
    net.peers.getPredecessor node = .ok (net.info node).predecessor := by
  simp [peers, request, h]

/-- An answering node replies with its closest preceding finger and its successor. -/
lemma peers_getClosestPreceding {node : N} (h : net.answers node = true) (id : IdType) :
    net.peers.getClosestPreceding node id =
      .ok (PeerImpl.serveClosestPreceding node (net.info node) id) := by
  simp [peers, request, h]

variable [DecidableEq N]

/-- A settled lookup does not change under a larger step bound. -/
lemma getSuccessor_succ {fuel : ℕ} {self : N} {id : IdType} {r : Promise (Option N)}
    (h : net.getSuccessor fuel self id = some r) : net.getSuccessor (fuel + 1) self id = some r := by
  induction fuel generalizing self id r with
  | zero => simp [getSuccessor] at h
  | succ fuel ih =>
    rw [getSuccessor] at h ⊢
    unfold PeerImpl.getSuccessor at h ⊢
    split at h
    · exact h
    · exact h
    · split at h
      · split at h
        · exact h
        · rw [Option.map_eq_some_iff] at h ⊢
          obtain ⟨a, ha, hr⟩ := h
          refine ⟨a, ?_, hr⟩
          dsimp only at ha ⊢
          split_ifs at ha ⊢ with hans
          · exact ih ha
          · exact ha
      · exact PeerImpl.getSuccessorAlgorithm_succ h

/-- A settled lookup has the same result under every larger step bound. -/
lemma getSuccessor_mono {fuel fuel' : ℕ} (hle : fuel ≤ fuel') {self : N} {id : IdType}
    {r : Promise (Option N)} (h : net.getSuccessor fuel self id = some r) :
    net.getSuccessor fuel' self id = some r := by
  induction fuel', hle using Nat.le_induction with
  | base => exact h
  | succ n _ ih => exact getSuccessor_succ ih

/-- A lookup has at most one answer. -/
lemma Resolves.unique {self : N} {id : IdType} {r r' : Promise (Option N)}
    (h : net.Resolves self id r) (h' : net.Resolves self id r') : r = r' := by
  obtain ⟨fuel, h⟩ := h
  obtain ⟨fuel', h'⟩ := h'
  have h1 := getSuccessor_mono (le_max_left fuel fuel') h
  have h2 := getSuccessor_mono (le_max_right fuel fuel') h'
  exact Option.some.inj (h1.symm.trans h2)

end Network

end ChordPlusPlus
