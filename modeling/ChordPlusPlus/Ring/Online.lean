import ChordPlusPlus.Ring.LookupEnds

/-!
# Lookups among crashed nodes

Before `getSuccessor` returns a successor it asks it for its predecessor, for no other reason than to
see whether it is online.  So a lookup answers only with the asking node or with a node that has replied
to a request of this lookup, whatever the replies are.

With `PASS_ON` the request moves strictly clockwise towards the id, from finger to finger, so that it
comes to an end for any pointers of the nodes.
-/

namespace ChordPlusPlus

variable {N : Type*} [Endpoint N] [DecidableEq N]

/-- The node has replied to a request for its predecessor. -/
def Replied (peers : ℕ → Peers N) (s : N) : Prop := ∃ k p, (peers k).getPredecessor s = .ok p

namespace PeerImpl

variable {self node s : N} {info : NodeInformation N} {peers : ℕ → Peers N} {id : IdType}

/-- The direct successor that `checkResult` lets through has replied. -/
lemma checkResult_replied {request k : ℕ} {result result' : ClosestPrecedingPair N}
    (h : checkResult self peers node id request result = (.ok result', k))
    (hs : result'.successor = some s) : Replied peers s := by
  unfold checkResult at h
  dsimp only at h
  cases hsucc : result.successor with
  | none =>
    rw [hsucc] at h
    obtain rfl := Except.ok.inj (Prod.mk.inj h).1
    cases hs
  | some t =>
    rw [hsucc] at h
    by_cases hself : t = self
    · simp only [if_pos hself] at h
      obtain rfl := Except.ok.inj (Prod.mk.inj h).1
      cases hs
    · simp only [if_neg hself] at h
      cases hp : (peers request).getPredecessor t with
      | error e =>
        rw [hp] at h
        cases (Prod.mk.inj h).1
      | ok p =>
        rw [hp] at h
        obtain rfl := Except.ok.inj (Prod.mk.inj h).1
        split_ifs at hs
        obtain rfl : t = s := Option.some.inj hs
        exact ⟨request, p, hp⟩

lemma iterate_replied {distrusted : Finset N} {fuel request k : ℕ} {askedId : IdType}
    {result : ClosestPrecedingPair N}
    (h : iterate self info peers node id distrusted fuel request askedId = some (.ok result, k))
    (hs : result.successor = some s) : Replied peers s := by
  induction fuel generalizing request askedId with
  | zero => cases h
  | succ fuel ih =>
    rcases iterate_cases h with
      ⟨e, -, herror⟩ | ⟨result', himpl, hresult, -⟩ | ⟨_, _, _, -, -, hrest⟩
    · cases herror
    · obtain rfl := Except.ok.inj hresult
      unfold impl at himpl
      split_ifs at himpl
      · exact checkResult_replied himpl hs
      · exact checkResult_replied himpl hs
    · exact ih hrest

/-- The hop loop ends with a node that has replied. -/
lemma getSuccessorAlgorithm_replied {fuel request : ℕ} {hops : List N} {distrusted : Finset N}
    (h : getSuccessorAlgorithm self info peers id fuel request hops distrusted =
      some (.ok (some s))) : Replied peers s := by
  induction fuel generalizing request hops distrusted with
  | zero => cases h
  | succ fuel ih =>
    cases hops with
    | nil => cases h
    | cons current hops =>
      rw [getSuccessorAlgorithm] at h
      rcases hhelper : getClosestPrecedingHelper self info peers fuel request current id
        distrusted with _ | ⟨e | ⟨_ | c, _ | t⟩, k⟩
      · rw [hhelper] at h
        cases h
      · rw [hhelper] at h
        cases h
      · rw [hhelper] at h
        exact ih h
      · rw [hhelper] at h
        obtain rfl : t = s := by simpa using h
        exact iterate_replied hhelper rfl
      · rw [hhelper] at h
        exact ih h
      · rw [hhelper] at h
        exact ih h

/-- What a lookup answers with: the asking node, a node that has replied, or what the node has found
that it was passed on to. -/
lemma getSuccessor_replied {method : GetSuccessorMethod}
    {passOn : N → IdType → Option (Promise (Option N))} {fuel : ℕ}
    (h : getSuccessor self info peers method passOn fuel id = some (.ok (some s))) :
    s = self ∨ Replied peers s ∨
      method = .passOn ∧ ∃ c, passOn c id = some (.ok (some s)) := by
  unfold getSuccessor at h
  cases hreq : requested self info id with
  | thisNode =>
    rw [hreq] at h
    exact Or.inl (by simpa using h.symm)
  | nextNode t =>
    rw [hreq] at h
    dsimp only at h
    cases hp : (peers 0).getPredecessor t with
    | error e =>
      rw [hp] at h
      cases h
    | ok p =>
      rw [hp] at h
      obtain rfl : t = s := by simpa using h
      exact Or.inr (Or.inl ⟨0, p, hp⟩)
  | otherNode =>
    rw [hreq] at h
    cases method with
    | localHops => exact Or.inr (Or.inl (getSuccessorAlgorithm_replied h))
    | passOn =>
      dsimp only at h
      cases hc : getClosestPreceding self info id with
      | none =>
        rw [hc] at h
        cases h
      | some c =>
        rw [hc] at h
        obtain ⟨r, hr, heq⟩ := Option.map_eq_some_iff.mp h
        rcases r with e | r
        · cases heq
        · obtain rfl := Except.ok.inj heq
          exact Or.inr (Or.inr ⟨rfl, c, hr⟩)

end PeerImpl

namespace Network

variable {net : Network N} {self s : N} {id : IdType}

omit [DecidableEq N] in
lemma answers_of_replied (h : Replied (fun _ => net.peers) s) : net.answers s = true := by
  obtain ⟨_, p, hp⟩ := h
  by_contra hdown
  simp [peers, request, hdown] at hp

/-- A lookup, wherever it is passed on to, answers with the asking node or with one that is online. -/
lemma answers_of_resolves (h : net.Resolves self id (.ok (some s))) :
    s = self ∨ net.answers s = true := by
  obtain ⟨fuel, h⟩ := h
  induction fuel generalizing self with
  | zero => cases h
  | succ fuel ih =>
    rw [getSuccessor] at h
    rcases PeerImpl.getSuccessor_replied h with hself | hreplied | ⟨-, c, hc⟩
    · exact Or.inl hself
    · exact Or.inr (answers_of_replied hreplied)
    · split_ifs at hc with hanswers
      · rcases ih hc with rfl | hs
        · exact Or.inr hanswers
        · exact Or.inr hs
      · cases hc

/-! ## Lookups come to an end -/

/-- A failure of the node that a request is passed on to is caught. -/
lemma getSuccessor_passOn {fuel : ℕ} {c : N} {r : Promise (Option N)}
    (hreq : PeerImpl.requested self (net.info self) id = .otherNode)
    (hmethod : net.method self = .passOn)
    (hc : PeerImpl.getClosestPreceding self (net.info self) id = some c)
    (hr : (if net.answers c then net.getSuccessor fuel c id else some (.error .disconnected)) =
      some r) :
    ∃ o, net.getSuccessor (fuel + 1) self id = some (.ok o) := by
  simp only [getSuccessor, PeerImpl.getSuccessor, hreq, hmethod, hc, hr]
  cases r with
  | error e => exact ⟨none, rfl⟩
  | ok o => exact ⟨o, rfl⟩

/-- A node that decides by itself, or that passes requests on, answers without an error. -/
lemma exists_resolves_ok
    (h : PeerImpl.requested self (net.info self) id = .otherNode → net.method self = .passOn ∧
      ∀ c, PeerImpl.getClosestPreceding self (net.info self) id = some c → net.answers c = true →
        ∃ r, net.Resolves c id r) :
    ∃ o, net.Resolves self id (.ok o) := by
  cases hreq : PeerImpl.requested self (net.info self) id with
  | thisNode =>
    refine ⟨some self, 1, ?_⟩
    simp [getSuccessor, PeerImpl.getSuccessor, hreq]
  | nextNode s =>
    by_cases hans : net.answers s = true
    · refine ⟨some s, 1, ?_⟩
      simp [getSuccessor, PeerImpl.getSuccessor, hreq, peers, request, hans]
    · refine ⟨none, 1, ?_⟩
      simp [getSuccessor, PeerImpl.getSuccessor, hreq, peers, request, hans]
  | otherNode =>
    obtain ⟨hmethod, hpassed⟩ := h hreq
    cases hc : PeerImpl.getClosestPreceding self (net.info self) id with
    | none =>
      refine ⟨none, 1, ?_⟩
      simp [getSuccessor, PeerImpl.getSuccessor, hreq, hmethod, hc]
    | some c =>
      by_cases hans : net.answers c = true
      · obtain ⟨r, fuel, hfuel⟩ := hpassed c hc hans
        obtain ⟨o, ho⟩ := getSuccessor_passOn hreq hmethod hc (by rw [if_pos hans, hfuel])
        exact ⟨o, _, ho⟩
      · obtain ⟨o, ho⟩ : ∃ o, net.getSuccessor (0 + 1) self id = some (.ok o) :=
          getSuccessor_passOn hreq hmethod hc (if_neg hans)
        exact ⟨o, _, ho⟩

/-- The hop loop of the method `LOCAL` at this node settles as the lookup. -/
lemma resolves_of_settlesFrom {r : Promise (Option N)}
    (hreq : PeerImpl.requested self (net.info self) id = .otherNode)
    (hmethod : net.method self = .localHops)
    (h : HopLoop.SettlesFrom self (net.info self) (fun _ => net.peers) id ⟨0, [self], ∅⟩ r) :
    net.Resolves self id r := by
  obtain ⟨fuel, hfuel⟩ := h
  refine ⟨fuel + 1, ?_⟩
  simp only [getSuccessor, PeerImpl.getSuccessor, hreq, hmethod]
  exact hfuel

/-- Each lookup comes to an end: a request that is passed on comes closer to the id with every hop. -/
lemma exists_resolves (net : Network N) (self : N) (id : IdType) : ∃ r, net.Resolves self id r := by
  have : Finite N := finite_endpoints
  have : Fintype N := .ofFinite N
  -- The induction is on the number of nodes between this one and the id.
  induction hk : ((Finset.univ : Finset N).filter fun m => Arc.Open (getId self) (getId m) id).card
    using Nat.strong_induction_on generalizing self with
  | _ k ih =>
    by_cases hlocal : PeerImpl.requested self (net.info self) id = .otherNode ∧
        net.method self = .localHops
    · obtain ⟨hreq, hmethod⟩ := hlocal
      by_cases hdead : DeadSuccessor net self id
      · obtain ⟨e, he⟩ := exists_settlesFrom_error hdead
        exact ⟨_, resolves_of_settlesFrom hreq hmethod he⟩
      · obtain ⟨o, ho⟩ := exists_settlesFrom_ok hdead
        exact ⟨_, resolves_of_settlesFrom hreq hmethod ho⟩
    · have hok : ∃ o, net.Resolves self id (.ok o) := by
        refine exists_resolves_ok fun hreq => ⟨?_, ?_⟩
        · cases hmethod : net.method self with
          | passOn => rfl
          | localHops => exact absurd ⟨hreq, hmethod⟩ hlocal
        · intro c hc _
          have hahead := (PeerImpl.getClosestPreceding_eq_some hc).2
          exact ih _ (hk ▸ Arc.card_ahead_lt (Finset.mem_univ c) hahead) c rfl
      obtain ⟨o, ho⟩ := hok
      exact ⟨_, ho⟩

/-- **Lookups among crashed nodes.**  For any pointers, any nodes that do not answer and any lookup
methods of the nodes: a lookup comes to an end; it answers only with the asking node or with one that
is online; and it fails exactly when the asking node uses the method `LOCAL`, does not decide by itself,
and comes in its hop loop to a node whose direct successor does not answer. -/
theorem lookup_total (net : Network N) (self : N) (id : IdType) :
    (∃ r, net.Resolves self id r) ∧
      (∀ s, net.Resolves self id (.ok (some s)) → s = self ∨ net.answers s = true) ∧
      ((∃ e, net.Resolves self id (.error e)) ↔
        PeerImpl.requested self (net.info self) id = .otherNode ∧
          net.method self = .localHops ∧ DeadSuccessor net self id) := by
  refine ⟨exists_resolves net self id, fun s hs => answers_of_resolves hs, ?_, ?_⟩
  · rintro ⟨e, he⟩
    by_contra hfails
    have hok : ∃ o, net.Resolves self id (.ok o) := by
      by_cases hlocal : PeerImpl.requested self (net.info self) id = .otherNode ∧
          net.method self = .localHops
      · obtain ⟨hreq, hmethod⟩ := hlocal
        obtain ⟨o, ho⟩ :=
          exists_settlesFrom_ok fun hdead => hfails ⟨hreq, hmethod, hdead⟩
        exact ⟨o, resolves_of_settlesFrom hreq hmethod ho⟩
      · refine exists_resolves_ok fun hreq => ⟨?_, fun c _ _ => exists_resolves net c id⟩
        cases hmethod : net.method self with
        | passOn => rfl
        | localHops => exact absurd ⟨hreq, hmethod⟩ hlocal
    obtain ⟨o, ho⟩ := hok
    cases he.unique ho
  · rintro ⟨hreq, hmethod, hdead⟩
    obtain ⟨e, he⟩ := exists_settlesFrom_error hdead
    exact ⟨e, resolves_of_settlesFrom hreq hmethod he⟩

end Network

end ChordPlusPlus
