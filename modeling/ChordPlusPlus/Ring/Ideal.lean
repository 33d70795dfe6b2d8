import ChordPlusPlus.Dht.Lookup

/-!
# Lookups on an ideal ring

An ideal ring is a finite non-empty set of answering nodes in which every node's `finger[0]` is the
next node clockwise, its predecessor is the previous one, and the other fingers are empty or name
nodes of the ring.  On it a lookup finds the node responsible for the id, from every start node and
with both lookup methods, whatever the other fingers are.

The hop loop and the chain of passed-on requests are measured by the number of ring nodes strictly
ahead of the current node on the way to the id.
-/

namespace ChordPlusPlus

variable {N : Type*} [Endpoint N]

/-- `s` is responsible for `id` by its own state: it has a predecessor, and `id` lies in the
clockwise arc from the predecessor up to `s`. -/
def NodeInformation.Responsible (info : NodeInformation N) (s : N) (id : IdType) : Prop :=
  ∃ p, info.predecessor = some p ∧ isInRangeLoop id (getId p) (getId s) false true = true

/-- The ideal ring on the nodes `ring`. -/
structure IsIdeal (net : Network N) (ring : Finset N) : Prop where
  nonempty : ring.Nonempty
  answers : ∀ m ∈ ring, net.answers m = true
  successor : ∀ m ∈ ring, ∃ s, (net.info m).fingerTable 0 = some s ∧ Arc.IsNext getId ring m s
  predecessor : ∀ m ∈ ring, ∃ p, (net.info m).predecessor = some p ∧ Arc.IsNext getId ring p m
  fingers : ∀ m ∈ ring, ∀ i f, (net.info m).fingerTable i = some f → f ∈ ring

namespace IsIdeal

variable {net : Network N} {ring : Finset N}

/-- Only the pointers of the ring nodes matter for a ring to be ideal. -/
lemma congr (h : IsIdeal net ring) {net' : Network N}
    (hanswers : ∀ m ∈ ring, net'.answers m = net.answers m)
    (hfinger : ∀ m ∈ ring, (net'.info m).fingerTable = (net.info m).fingerTable)
    (hpred : ∀ m ∈ ring, (net'.info m).predecessor = (net.info m).predecessor) :
    IsIdeal net' ring where
  nonempty := h.nonempty
  answers := by
    intro m hm
    rw [hanswers m hm]
    exact h.answers m hm
  successor := by
    intro m hm
    rw [hfinger m hm]
    exact h.successor m hm
  predecessor := by
    intro m hm
    rw [hpred m hm]
    exact h.predecessor m hm
  fingers := by
    intro m hm i f
    rw [hfinger m hm]
    exact h.fingers m hm i f

/-- The ideal ring does not depend on the lookup methods of its nodes. -/
lemma withMethod (h : IsIdeal net ring) (method : N → GetSuccessorMethod) :
    IsIdeal { net with method := method } ring :=
  h.congr (fun _ _ => rfl) (fun _ _ => rfl) fun _ _ => rfl

/-- The successor of `m` on an ideal ring names `m` as its predecessor. -/
lemma predecessor_of_next (h : IsIdeal net ring) {m s : N} (hs : Arc.IsNext getId ring m s) :
    (net.info s).predecessor = some m := by
  obtain ⟨p, hp, hnext⟩ := h.predecessor s hs.right_mem
  rw [hp, hs.left_unique getId_injective hnext]

/-- On an ideal ring the node that calls itself responsible is the one the ring assigns. -/
lemma responsible_iff_owns (h : IsIdeal net ring) {s : N} (hs : s ∈ ring) {id : IdType} :
    (net.info s).Responsible s id ↔ Arc.Owns getId ring id s := by
  constructor
  · rintro ⟨p, hp, hin⟩
    obtain ⟨q, hq, hnext⟩ := h.predecessor s hs
    obtain rfl : p = q := Option.some.inj (hp.symm.trans hq)
    exact ⟨p, hnext, by simpa using hin⟩
  · rintro ⟨p, hnext, hin⟩
    exact ⟨p, h.predecessor_of_next hnext, by simpa using hin⟩

/-- At a node whose successor is at or beyond `id`, that successor is responsible. -/
lemma owns_of_no_closestPreceding {c s : N} {id : IdType}
    (hs : Arc.IsNext getId ring c s) (hfinger : (net.info c).fingerTable 0 = some s)
    (hnone : PeerImpl.getClosestPreceding c (net.info c) id = none) :
    Arc.Owns getId ring id s := by
  have hout := PeerImpl.getClosestPreceding_eq_none_iff.mp hnone 0 s hfinger
  exact ⟨c, hs, Arc.halfOpen_of_not_open hout⟩

/-- The closest preceding node of a ring node is a ring node with fewer nodes ahead of it. -/
lemma closestPreceding (h : IsIdeal net ring) {c f : N} {id : IdType} (hc : c ∈ ring)
    (hf : PeerImpl.getClosestPreceding c (net.info c) id = some f) :
    f ∈ ring ∧ Arc.Open (getId c) (getId f) id := by
  obtain ⟨⟨i, hi⟩, hopen⟩ := PeerImpl.getClosestPreceding_eq_some hf
  exact ⟨h.fingers c hc i f hi, hopen⟩

end IsIdeal

section Lookup

variable [DecidableEq N] {net : Network N} {ring : Finset N}

/-- A hop of the loop on an ideal ring: the asked node names its closest preceding finger and its
successor, and the check lets both pass, except a successor that is the asking node itself. -/
lemma helper_ideal (h : IsIdeal net ring) {self c s : N} {id : IdType} (hc : c ∈ ring)
    (hfinger : (net.info c).fingerTable 0 = some s) (hs : Arc.IsNext getId ring c s)
    (fuel request : ℕ) :
    ∃ request', PeerImpl.getClosestPrecedingHelper self (net.info self) (fun _ => net.peers)
      (fuel + 1) request c id ∅ =
        some (.ok ⟨PeerImpl.getClosestPreceding c (net.info c) id,
          if s = self then none else some s⟩, request') := by
  have hserve : ∀ request, ∃ request',
      PeerImpl.checkResult self (fun _ => net.peers) c id request
        (PeerImpl.serveClosestPreceding c (net.info c) id) =
          (.ok ⟨PeerImpl.getClosestPreceding c (net.info c) id,
            if s = self then none else some s⟩, request') := by
    intro request
    have hkeep : (PeerImpl.getClosestPreceding c (net.info c) id).filter (fun f =>
        isInRangeLoop (getId f) (getId c) id false false) =
          PeerImpl.getClosestPreceding c (net.info c) id := by
      cases hgcp : PeerImpl.getClosestPreceding c (net.info c) id with
      | none => rfl
      | some f => simp [Option.filter, (PeerImpl.getClosestPreceding_eq_some hgcp).2]
    have hpred : net.peers.getPredecessor s = .ok (some c) := by
      rw [Network.peers_getPredecessor (h.answers s hs.right_mem), h.predecessor_of_next hs]
    have hsucc : (net.info c).getSuccessor = some s :=
      NodeInformation.getSuccessor_of_finger_zero hfinger
    unfold PeerImpl.checkResult PeerImpl.serveClosestPreceding
    by_cases hself : s = self
    · exact ⟨request, by simp [hkeep, hsucc, hself]⟩
    · exact ⟨request + 1, by simp [hkeep, hsucc, hself, hpred, Arc.halfOpen_self]⟩
  have himpl : ∃ request', PeerImpl.impl self (net.info self) (fun _ => net.peers) c id request id =
      (.ok ⟨PeerImpl.getClosestPreceding c (net.info c) id,
        if s = self then none else some s⟩, request') := by
    unfold PeerImpl.impl
    by_cases hself : c = self
    · rw [if_pos hself, ← hself]
      rw [hself]
      exact hself ▸ hserve request
    · rw [if_neg hself]
      simp only [Network.peers_getClosestPreceding (h.answers c hc)]
      exact hserve (request + 1)
  obtain ⟨request', himpl⟩ := himpl
  refine ⟨request', ?_⟩
  rw [PeerImpl.getClosestPrecedingHelper, PeerImpl.iterate, himpl]
  cases PeerImpl.getClosestPreceding c (net.info c) id <;> simp

/-- The hop loop on an ideal ring ends at the node `s` responsible for `id`, unless `s` is the asking
node itself.  By induction on the number of ring nodes strictly ahead of the current hop. -/
lemma getSuccessorAlgorithm_ideal (h : IsIdeal net ring) {self s : N} {id : IdType}
    (hown : Arc.Owns getId ring id s) (hne : s ≠ self) {c : N} (hc : c ∈ ring) {fuel : ℕ}
    (hfuel : (ring.filter fun x => Arc.Open (getId c) (getId x) id).card + 2 ≤ fuel)
    (request : ℕ) (hops : List N) :
    PeerImpl.getSuccessorAlgorithm self (net.info self) (fun _ => net.peers) id fuel request
      (c :: hops) ∅ = some (.ok (some s)) := by
  induction hk : (ring.filter fun x => Arc.Open (getId c) (getId x) id).card
    using Nat.strong_induction_on generalizing c fuel request hops with
  | _ k ih =>
    subst hk
    obtain ⟨fuel, rfl⟩ : ∃ k, fuel = k + 1 + 1 := ⟨fuel - 2, by omega⟩
    obtain ⟨t, hfinger, hnext⟩ := h.successor c hc
    obtain ⟨request', hhelp⟩ :=
      @helper_ideal _ _ _ _ _ h self _ _ id hc hfinger hnext fuel request
    rw [PeerImpl.getSuccessorAlgorithm, hhelp]
    cases hgcp : PeerImpl.getClosestPreceding c (net.info c) id with
    | some f =>
      -- The loop pushes a ring node closer to `id`.
      obtain ⟨hf, hopen⟩ := h.closestPreceding hc hgcp
      have hless := Arc.card_ahead_lt hf hopen
      exact ih _ hless hf (by omega) request' (c :: hops) rfl
    | none =>
      -- The successor of the current hop is responsible, and it is not the asking node.
      obtain rfl : s = t := hown.unique getId_injective
        (IsIdeal.owns_of_no_closestPreceding hnext hfinger hgcp)
      rw [if_neg hne]

/-- Every lookup on an ideal ring resolves to the node `s` responsible for `id`.  By induction on
the number of ring nodes strictly ahead of the start node, for the chain of passed-on requests. -/
lemma getSuccessor_eq_owner_of_ahead (h : IsIdeal net ring) {m s : N} (hm : m ∈ ring) {id : IdType}
    (hown : Arc.Owns getId ring id s) {fuel : ℕ}
    (hfuel : (ring.filter fun x => Arc.Open (getId m) (getId x) id).card + 3 ≤ fuel) :
    net.getSuccessor fuel m id = some (.ok (some s)) := by
  induction hk : (ring.filter fun x => Arc.Open (getId m) (getId x) id).card
    using Nat.strong_induction_on generalizing m fuel with
  | _ k ih =>
    subst hk
    obtain ⟨fuel, rfl⟩ : ∃ k, fuel = k + 1 := ⟨fuel - 1, by omega⟩
    obtain ⟨t, hfinger, hnext⟩ := h.successor m hm
    have hsucc := NodeInformation.getSuccessor_of_finger_zero hfinger
    cases hreq : PeerImpl.requested m (net.info m) id with
    | thisNode =>
      obtain ⟨p, hp, hin⟩ := PeerImpl.requested_eq_thisNode_iff.mp hreq
      have hmown : Arc.Owns getId ring id m :=
        (h.responsible_iff_owns hm).mp ⟨p, hp, by simpa using hin⟩
      obtain rfl := hown.unique getId_injective hmown
      simp [Network.getSuccessor, PeerImpl.getSuccessor, hreq]
    | nextNode u =>
      obtain ⟨hu, hin⟩ := PeerImpl.requested_eq_nextNode hreq
      obtain rfl : t = u := Option.some.inj (hsucc.symm.trans hu)
      obtain rfl := hown.unique getId_injective ⟨m, hnext, hin⟩
      simp [Network.getSuccessor, PeerImpl.getSuccessor, hreq,
        Network.peers_getPredecessor (h.answers s hnext.right_mem)]
    | otherNode =>
      obtain ⟨hnotthis, hnotnext⟩ := PeerImpl.requested_eq_otherNode hreq
      have hne : s ≠ m := by
        rintro rfl
        obtain ⟨p, hp, hin⟩ := (h.responsible_iff_owns hm).mpr hown
        exact hnotthis p hp (by simpa using hin)
      cases hmethod : net.method m with
      | localHops =>
        simp only [Network.getSuccessor, PeerImpl.getSuccessor, hreq, hmethod]
        exact getSuccessorAlgorithm_ideal h hown hne hm (by omega) 0 []
      | passOn =>
        cases hgcp : PeerImpl.getClosestPreceding m (net.info m) id with
        | none =>
          have hout := PeerImpl.getClosestPreceding_eq_none_iff.mp hgcp 0 t hfinger
          exact absurd (Arc.halfOpen_of_not_open hout) (hnotnext t hsucc)
        | some f =>
          obtain ⟨hf, hopen⟩ := h.closestPreceding hm hgcp
          have hless := Arc.card_ahead_lt hf hopen
          have hnextHop : net.getSuccessor fuel f id = some (.ok (some s)) :=
            ih _ hless hf (by omega) rfl
          simp [Network.getSuccessor, PeerImpl.getSuccessor, hreq, hmethod, hgcp,
            h.answers f hf, hnextHop]

/-- Steps in proportion to the size of the ring are enough for every lookup. -/
lemma getSuccessor_eq_owner (h : IsIdeal net ring) {m s : N} (hm : m ∈ ring) {id : IdType}
    (hown : Arc.Owns getId ring id s) {fuel : ℕ} (hfuel : ring.card + 3 ≤ fuel) :
    net.getSuccessor fuel m id = some (.ok (some s)) := by
  have hle : (ring.filter fun x => Arc.Open (getId m) (getId x) id).card ≤ ring.card :=
    Finset.card_filter_le _ _
  exact getSuccessor_eq_owner_of_ahead h hm hown (by omega)

/-- On an ideal ring the answer of a lookup is the node that the ring assigns to the id. -/
lemma resolves_iff_owns (h : IsIdeal net ring) {m : N} (hm : m ∈ ring) {id : IdType}
    {r : Promise (Option N)} :
    net.Resolves m id r ↔ ∃ s, r = .ok (some s) ∧ Arc.Owns getId ring id s := by
  obtain ⟨s, hown⟩ := @Arc.exists_owns N IdType _ getId _ h.nonempty id
  have hres : net.Resolves m id (.ok (some s)) := ⟨_, getSuccessor_eq_owner h hm hown le_rfl⟩
  constructor
  · intro hr
    exact ⟨s, hr.unique hres, hown⟩
  · rintro ⟨t, rfl, ht⟩
    rwa [ht.unique getId_injective hown]

/-- On every ideal ring, from every start node and for every id, the lookup terminates with both
lookup methods, in any mixture of them, and returns the one ring node that is responsible for the
id. -/
theorem getSuccessor_ideal (h : IsIdeal net ring) {m : N} (hm : m ∈ ring) (id : IdType) :
    ∃ s ∈ ring, (net.info s).Responsible s id ∧
      (∀ t ∈ ring, (net.info t).Responsible t id → t = s) ∧
      ∀ method : N → GetSuccessorMethod, ∀ fuel ≥ ring.card + 3,
        Network.getSuccessor { net with method := method } fuel m id = some (.ok (some s)) := by
  obtain ⟨s, hown⟩ := @Arc.exists_owns N IdType _ getId _ h.nonempty id
  have hs := hown.mem
  refine ⟨s, hs, (h.responsible_iff_owns hs).mpr hown, ?_, ?_⟩
  · intro t ht hresp
    exact ((h.responsible_iff_owns ht).mp hresp).unique getId_injective hown
  · intro method fuel hfuel
    exact getSuccessor_eq_owner (h.withMethod method) hm hown hfuel

/-- Two nodes that know only each other. -/
def pairInfo (a b m : N) : NodeInformation N :=
  let other := if m = a then b else a
  { (NodeInformation.initial.setSuccessor (some other)) with predecessor := some other }

lemma isNext_pair (a b : N) : Arc.IsNext getId {a, b} a b where
  left_mem := by simp
  right_mem := by simp
  between := by
    intro x hx
    rw [Finset.mem_insert, Finset.mem_singleton] at hx
    rcases hx with rfl | rfl
    · exact Arc.not_open_left _ _
    · exact Arc.not_open_right _ _

/-- Two nodes that know only each other form an ideal ring. -/
lemma isIdeal_pair {a b : N} (hab : a ≠ b) (method : N → GetSuccessorMethod) :
    IsIdeal ⟨pairInfo a b, fun _ => true, method⟩ {a, b} where
  nonempty := ⟨a, by simp⟩
  answers := fun _ _ => rfl
  successor := by
    intro m hm
    rw [Finset.mem_insert, Finset.mem_singleton] at hm
    rcases hm with rfl | rfl
    · exact ⟨b, by simp [pairInfo], isNext_pair m b⟩
    · refine ⟨a, by simp [pairInfo, hab.symm], ?_⟩
      rw [Finset.pair_comm]
      exact isNext_pair m a
  predecessor := by
    intro m hm
    rw [Finset.mem_insert, Finset.mem_singleton] at hm
    rcases hm with rfl | rfl
    · refine ⟨b, by simp [pairInfo], ?_⟩
      rw [Finset.pair_comm]
      exact isNext_pair b m
    · exact ⟨a, by simp [pairInfo, hab.symm], isNext_pair a m⟩
  fingers := by
    intro m _ i f hf
    by_cases hi : i = 0
    · subst hi
      have hother : (if m = a then b else a) = f := by simpa [pairInfo] using hf
      rw [← hother]
      split_ifs <;> simp
    · simp [pairInfo, NodeInformation.setSuccessor_fingerTable_ne _ hi,
        NodeInformation.initial] at hf

/-- A lookup of `60…` at `40…` on the ring of the ids `40…` and `80…`. -/
theorem getSuccessor_ideal_pair :
    ∃ s ∈ ({idOf 0x40, idOf 0x80} : Finset IdType),
      (pairInfo (idOf 0x40) (idOf 0x80) s).Responsible s (idOf 0x60) ∧
      (∀ t ∈ ({idOf 0x40, idOf 0x80} : Finset IdType),
        (pairInfo (idOf 0x40) (idOf 0x80) t).Responsible t (idOf 0x60) → t = s) ∧
      ∀ method : IdType → GetSuccessorMethod,
        ∀ fuel ≥ ({idOf 0x40, idOf 0x80} : Finset IdType).card + 3,
        Network.getSuccessor ⟨pairInfo (idOf 0x40) (idOf 0x80), fun _ => true, method⟩ fuel
          (idOf 0x40) (idOf 0x60) = some (.ok (some s)) :=
  getSuccessor_ideal (isIdeal_pair (by decide) fun _ => .localHops) (by simp) (idOf 0x60)

end Lookup

end ChordPlusPlus
