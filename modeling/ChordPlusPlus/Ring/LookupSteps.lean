import ChordPlusPlus.Ring.Ideal

/-!
# Lookups request by request

A lookup waits for one reply after the other, and between two replies the other nodes go on with
their own steps.  `Stage` is what a lookup holds while it waits, and `Stage.next` is what it does
with the next reply, which is read off the state the nodes are in at that moment.  Where the nodes
stand still, the stages follow the functions of `Dht.Peer` one by one (`Network.Resolves.leads`).

On an ideal ring `Stage.Sound` holds of every stage of a lookup and survives a reply from any
fingers: it only depends on the neighbours of the asked nodes, and on all fingers naming nodes of the
ring.
-/

namespace ChordPlusPlus

/-- What a lookup holds while it waits for the next reply. -/
inductive Stage (N : Type*)
  /-- The node is about to start a lookup, its own or one that was passed on to it. -/
  | start (self : N)
  /-- Waiting for the next node to show that it is online. -/
  | ping (successor : N)
  /-- In the hop loop, waiting for the node `current` to name the closest node preceding `askedId`.
  The stack below `current` is `hops`. -/
  | ask (self current : N) (hops : List N) (distrusted : Finset N) (askedId : IdType)
  /-- In `checkResult`, waiting for the predecessor of `successor`. -/
  | check (self current : N) (hops : List N) (distrusted : Finset N)
      (closestPreceding : Option N) (successor : N)
  /-- The promise is fulfilled. -/
  | done (result : Option N)

namespace Stage

variable {N : Type*} [Endpoint N] [DecidableEq N]

/-- What `iterate` and the hop loop do with a checked answer of the node `current`. -/
def proceed (id : IdType) (self current : N) (hops : List N) (distrusted : Finset N)
    (result : ClosestPrecedingPair N) : Stage N :=
  match result.closestPreceding with
  | some c =>
      if c ∈ distrusted then ask self current hops distrusted (getId c)
      else ask self c (current :: hops) distrusted id
  | none =>
      match result.successor with
      | some successor => done (some successor)
      | none =>
          match hops with
          | [] => done none
          | hop :: hops => ask self hop hops (insert current distrusted) id

/-- The first half of `checkResult`, up to the request to the successor. -/
def received (id : IdType) (self current : N) (hops : List N) (distrusted : Finset N)
    (result : ClosestPrecedingPair N) : Stage N :=
  let closestPreceding := result.closestPreceding.filter fun c =>
    isInRangeLoop (getId c) (getId current) id false false
  match result.successor with
  | none => proceed id self current hops distrusted ⟨closestPreceding, none⟩
  | some successor =>
      if successor = self then proceed id self current hops distrusted ⟨closestPreceding, none⟩
      else check self current hops distrusted closestPreceding successor

/-- The next reply of a lookup of `id`, from the state `info` of the nodes at this moment. -/
def next (info : N → NodeInformation N) (method : N → GetSuccessorMethod) (id : IdType) :
    Stage N → Stage N
  | start self =>
      match PeerImpl.requested self (info self) id with
      | .thisNode => done (some self)
      | .nextNode successor => ping successor
      | .otherNode =>
          match method self with
          | .passOn =>
              match PeerImpl.getClosestPreceding self (info self) id with
              | none => done none
              | some c => start c
          | .localHops => ask self self [] ∅ id
  | ping successor => done (some successor)
  | ask self current hops distrusted askedId =>
      received id self current hops distrusted
        (PeerImpl.serveClosestPreceding current (info current) askedId)
  | check self current hops distrusted closestPreceding successor =>
      let responsible := match (info successor).predecessor with
        | none => false
        | some pred => isInRangeLoop id (getId pred) (getId current) false true
      proceed id self current hops distrusted
        ⟨closestPreceding, if responsible then some successor else none⟩
  | done result => done result

/-- Some number of replies leads from one stage to another while the nodes stand still. -/
def Leads (info : N → NodeInformation N) (method : N → GetSuccessorMethod) (id : IdType)
    (stage stage' : Stage N) : Prop :=
  ∃ k, (next info method id)^[k] stage = stage'

variable {info : N → NodeInformation N} {method : N → GetSuccessorMethod} {id : IdType}
  {a b c : Stage N}

lemma Leads.refl (a : Stage N) : Leads info method id a a := ⟨0, rfl⟩

lemma Leads.trans (hab : Leads info method id a b) (hbc : Leads info method id b c) :
    Leads info method id a c := by
  obtain ⟨k, rfl⟩ := hab
  obtain ⟨l, rfl⟩ := hbc
  exact ⟨l + k, Function.iterate_add_apply _ l k a⟩

lemma Leads.head (h : Leads info method id (next info method id a) b) :
    Leads info method id a b :=
  Leads.trans ⟨1, rfl⟩ h

end Stage

/-! ## The stages of a lookup on a network that stands still -/

section StandStill

open Stage

variable {N : Type*} [Endpoint N] [DecidableEq N] {net : Network N} {self : N} {id : IdType}

/-- `checkResult` asks at most one node. -/
lemma leads_checkResult (hans : ∀ m, net.answers m = true) {node : N} (hops : List N)
    (distrusted : Finset N) {request : ℕ} (result : ClosestPrecedingPair N) :
    ∃ result' request',
      PeerImpl.checkResult self (fun _ => net.peers) node id request result =
        (.ok result', request') ∧
      Leads net.info net.method id (received id self node hops distrusted result)
        (proceed id self node hops distrusted result') := by
  unfold PeerImpl.checkResult received
  obtain ⟨closestPreceding, _ | successor⟩ := result
  · exact ⟨_, _, rfl, .refl _⟩
  · by_cases hself : successor = self
    · simp only [hself, if_true]
      exact ⟨_, _, rfl, .refl _⟩
    · simp only [hself, if_false, Network.peers_getPredecessor (hans successor)]
      refine ⟨_, _, rfl, .head ?_⟩
      rw [next]
      cases (net.info successor).predecessor with
      | none => exact .refl _
      | some pred =>
        by_cases hin : isInRangeLoop id (getId pred) (getId node) false true = true
        · simp only [hin, if_true]
          exact .refl _
        · simp only [hin]
          exact .refl _

/-- `impl` asks the node and then checks its answer. -/
lemma leads_impl (hans : ∀ m, net.answers m = true) {node : N} (hops : List N)
    (distrusted : Finset N) (request : ℕ) (askedId : IdType) :
    ∃ result request',
      PeerImpl.impl self (net.info self) (fun _ => net.peers) node id request askedId =
        (.ok result, request') ∧
      Leads net.info net.method id (ask self node hops distrusted askedId)
        (proceed id self node hops distrusted result) := by
  unfold PeerImpl.impl
  by_cases hself : node = self
  · obtain ⟨result, request', heq, hleads⟩ := @leads_checkResult N _ _ net self id hans node hops
      distrusted request (PeerImpl.serveClosestPreceding node (net.info node) askedId)
    rw [if_pos hself]
    subst hself
    exact ⟨result, request', heq, .head hleads⟩
  · obtain ⟨result, request', heq, hleads⟩ := @leads_checkResult N _ _ net self id hans node hops
      distrusted (request + 1) (PeerImpl.serveClosestPreceding node (net.info node) askedId)
    rw [if_neg hself]
    simp only [Network.peers_getClosestPreceding (hans node)]
    exact ⟨result, request', heq, .head hleads⟩

/-- `iterate` ends with an answer whose closest preceding node is not distrusted.  By induction on
the step bound. -/
lemma leads_iterate (hans : ∀ m, net.answers m = true) {node : N} (hops : List N)
    {distrusted : Finset N} {fuel request request' : ℕ} {askedId : IdType}
    {r : Promise (ClosestPrecedingPair N)}
    (h : PeerImpl.iterate self (net.info self) (fun _ => net.peers) node id distrusted fuel request
      askedId = some (r, request')) :
    ∃ result, r = .ok result ∧ (∀ c, result.closestPreceding = some c → c ∉ distrusted) ∧
      Leads net.info net.method id (ask self node hops distrusted askedId)
        (proceed id self node hops distrusted result) := by
  induction fuel generalizing request askedId with
  | zero => simp [PeerImpl.iterate] at h
  | succ fuel ih =>
    obtain ⟨result, request₁, himpl, hleads⟩ :=
      @leads_impl N _ _ net self id hans node hops distrusted request askedId
    rcases PeerImpl.iterate_cases h with
      ⟨e, herror, -⟩ | ⟨result', hresult, hr, htrusted⟩ |
      ⟨c, successor, request₂, hanswer, hmem, hrest⟩
    · rw [himpl] at herror
      cases herror
    · rw [himpl] at hresult
      obtain rfl : result = result' := Except.ok.inj (Prod.mk.inj hresult).1
      exact ⟨result, hr, htrusted, hleads⟩
    · -- The closest preceding node is distrusted: the same node is asked again.
      rw [himpl] at hanswer
      obtain rfl : result = ⟨some c, successor⟩ := Except.ok.inj (Prod.mk.inj hanswer).1
      obtain ⟨result', hr, htrusted, hagain⟩ := ih hrest
      have hretry : proceed id self node hops distrusted ⟨some c, successor⟩ =
          ask self node hops distrusted (getId c) := by
        simp [proceed, hmem]
      exact ⟨result', hr, htrusted, hleads.trans (hretry ▸ hagain)⟩

/-- The hop loop, by induction on the step bound. -/
lemma leads_getSuccessorAlgorithm (hans : ∀ m, net.answers m = true) {fuel request : ℕ}
    {current : N} {hops : List N} {distrusted : Finset N} {r : Promise (Option N)}
    (h : PeerImpl.getSuccessorAlgorithm self (net.info self) (fun _ => net.peers) id fuel request
      (current :: hops) distrusted = some r) :
    ∃ result, r = .ok result ∧
      Leads net.info net.method id (ask self current hops distrusted id) (done result) := by
  induction fuel generalizing request current hops distrusted with
  | zero => simp [PeerImpl.getSuccessorAlgorithm] at h
  | succ fuel ih =>
    rw [PeerImpl.getSuccessorAlgorithm] at h
    split at h
    next => cases h
    next e request' hhelp =>
      obtain ⟨_, herr, -⟩ := leads_iterate hans hops hhelp
      cases herr
    next answer request' hhelp =>
      obtain ⟨_, heq, htrusted, hleads⟩ := leads_iterate hans hops hhelp
      obtain rfl := Except.ok.inj heq
      split at h
      next c hc =>
        obtain ⟨result, hr, hrest⟩ := ih h
        have hpush : proceed id self current hops distrusted answer =
            ask self c (current :: hops) distrusted id := by
          simp [proceed, hc, htrusted c hc]
        exact ⟨result, hr, hleads.trans (hpush ▸ hrest)⟩
      next hnone =>
        split at h
        next successor hsucc =>
          have hfound : proceed id self current hops distrusted answer = done (some successor) := by
            simp [proceed, hnone, hsucc]
          exact ⟨some successor, (Option.some.inj h).symm, hfound ▸ hleads⟩
        next hsucc =>
          -- The current hop is popped; without another one the loop has found nothing.
          rcases hops with _ | ⟨hop, hops⟩
          · have hempty : proceed id self current [] distrusted answer = done none := by
              simp [proceed, hnone, hsucc]
            cases fuel with
            | zero => simp [PeerImpl.getSuccessorAlgorithm] at h
            | succ fuel => exact ⟨none, (Option.some.inj h).symm, hempty ▸ hleads⟩
          · obtain ⟨result, hr, hrest⟩ := ih h
            have hpop : proceed id self current (hop :: hops) distrusted answer =
                ask self hop hops (insert current distrusted) id := by
              simp [proceed, hnone, hsucc]
            exact ⟨result, hr, hleads.trans (hpop ▸ hrest)⟩

/-- Where all nodes answer and stand still, the stages of a lookup lead to the answer that
`getSuccessor` computes. -/
theorem Network.Resolves.leads (hans : ∀ m, net.answers m = true) {r : Promise (Option N)}
    (h : net.Resolves self id r) :
    ∃ result, r = .ok result ∧ Leads net.info net.method id (start self) (done result) := by
  obtain ⟨fuel, h⟩ := h
  induction fuel generalizing self r with
  | zero => simp [Network.getSuccessor] at h
  | succ fuel ih =>
    rw [Network.getSuccessor] at h
    unfold PeerImpl.getSuccessor at h
    split at h
    next hreq =>
      exact ⟨some self, (Option.some.inj h).symm, .head (by simpa [next, hreq] using .refl _)⟩
    next successor hreq =>
      rw [Network.peers_getPredecessor (hans successor)] at h
      have hping : next net.info net.method id (start self) = ping successor := by
        simp [next, hreq]
      exact ⟨some successor, (Option.some.inj h).symm, .head (hping ▸ .head (.refl _))⟩
    next hreq =>
      split at h
      next hmethod =>
        split at h
        next hgcp =>
          have hstop : next net.info net.method id (start self) = done none := by
            simp [next, hreq, hmethod, hgcp]
          exact ⟨none, (Option.some.inj h).symm, .head (hstop ▸ .refl _)⟩
        next c hgcp =>
          have hpass : next net.info net.method id (start self) = start c := by
            simp [next, hreq, hmethod, hgcp]
          simp only [hans, if_true, Option.map_eq_some_iff] at h
          obtain ⟨r', hr', hr⟩ := h
          obtain ⟨result, rfl, hleads⟩ := ih hr'
          exact ⟨result, hr.symm, .head (hpass ▸ hleads)⟩
      next hmethod =>
        have hloop : next net.info net.method id (start self) = ask self self [] ∅ id := by
          simp [next, hreq, hmethod]
        obtain ⟨result, hr, hleads⟩ := leads_getSuccessorAlgorithm hans h
        exact ⟨result, hr, .head (hloop ▸ hleads)⟩

end StandStill

/-! ## The stages of a lookup on an ideal ring -/

namespace Stage

variable {N : Type*} [Endpoint N]

/-- What the stages of a lookup of `id` on an ideal ring have in common: the asked nodes are on the
ring and none is distrusted, the asking node is not responsible once the hop loop has begun, and a
node that is about to be returned is. -/
def Sound (ring : Finset N) (id : IdType) : Stage N → Prop
  | start self => self ∈ ring
  | ping successor => Arc.Owns getId ring id successor
  | ask self current _ distrusted askedId =>
      current ∈ ring ∧ distrusted = ∅ ∧ askedId = id ∧ ¬ Arc.Owns getId ring id self
  | check self current _ distrusted closestPreceding successor =>
      Arc.IsNext getId ring current successor ∧ distrusted = ∅ ∧ ¬ Arc.Owns getId ring id self ∧
        (∀ c, closestPreceding = some c → c ∈ ring) ∧
        (closestPreceding = none → Arc.Owns getId ring id successor)
  | done result => ∃ s, result = some s ∧ Arc.Owns getId ring id s

variable [DecidableEq N] {net : Network N} {ring : Finset N} {id : IdType}

/-- The hop loop moves on to a node of the ring or returns the responsible one. -/
lemma Sound.proceed {self current : N} (hops : List N) {result : ClosestPrecedingPair N}
    (hself : ¬ Arc.Owns getId ring id self)
    (hmem : ∀ c, result.closestPreceding = some c → c ∈ ring)
    (hfound : result.closestPreceding = none →
      ∃ s, result.successor = some s ∧ Arc.Owns getId ring id s) :
    (proceed id self current hops ∅ result).Sound ring id := by
  unfold Stage.proceed
  split
  next c hc =>
    rw [if_neg (Finset.notMem_empty c)]
    exact ⟨hmem c hc, rfl, rfl, hself⟩
  next hnone =>
    obtain ⟨s, hs, hown⟩ := hfound hnone
    rw [hs]
    exact ⟨s, rfl, hown⟩

/-- The answer of a ring node, checked against the requested id. -/
lemma Sound.received (h : IsIdeal net ring) {self current : N} (hops : List N)
    (hcurrent : current ∈ ring) (hself : ¬ Arc.Owns getId ring id self) :
    (received id self current hops ∅
      (PeerImpl.serveClosestPreceding current (net.info current) id)).Sound ring id := by
  obtain ⟨s, hfinger, hnext⟩ := h.successor current hcurrent
  have hsucc : (net.info current).getSuccessor = some s :=
    NodeInformation.getSuccessor_of_finger_zero hfinger
  have hmem : ∀ c, (PeerImpl.getClosestPreceding current (net.info current) id).filter (fun c =>
      isInRangeLoop (getId c) (getId current) id false false) = some c → c ∈ ring := by
    intro c hc
    exact (h.closestPreceding hcurrent (Option.filter_eq_some_iff.mp hc).1).1
  have hnone : (PeerImpl.getClosestPreceding current (net.info current) id).filter (fun c =>
      isInRangeLoop (getId c) (getId current) id false false) = none →
        Arc.Owns getId ring id s := by
    intro hfilter
    refine IsIdeal.owns_of_no_closestPreceding hnext hfinger ?_
    rw [Option.eq_none_iff_forall_ne_some]
    intro f hf
    have hopen := (PeerImpl.getClosestPreceding_eq_some hf).2
    rw [hf, Option.filter_eq_none_iff] at hfilter
    exact absurd (by simpa using hopen) (hfilter f rfl)
  simp only [Stage.received, PeerImpl.serveClosestPreceding, hsucc]
  split_ifs with heq
  · -- The successor is the asking node, which is not responsible: there is a closer node.
    subst heq
    exact Sound.proceed hops hself hmem fun hfilter => absurd (hnone hfilter) hself
  · exact ⟨hnext, rfl, hself, hmem, hnone⟩

/-- The node's own tests find the responsible node, or the lookup goes on from a ring node. -/
lemma Sound.start (h : IsIdeal net ring) {self : N} (hmem : self ∈ ring) :
    ((start self).next net.info net.method id).Sound ring id := by
  obtain ⟨t, hfinger, hnext⟩ := h.successor self hmem
  have hsucc := NodeInformation.getSuccessor_of_finger_zero hfinger
  rw [Stage.next]
  split
  next hreq =>
    obtain ⟨p, hp, hin⟩ := PeerImpl.requested_eq_thisNode_iff.mp hreq
    exact ⟨self, rfl, (h.responsible_iff_owns hmem).mp ⟨p, hp, by simpa using hin⟩⟩
  next s hreq =>
    obtain ⟨hs, hin⟩ := PeerImpl.requested_eq_nextNode hreq
    obtain rfl : t = s := Option.some.inj (hsucc.symm.trans hs)
    exact ⟨self, hnext, hin⟩
  next hreq =>
    obtain ⟨hnotthis, hnotnext⟩ := PeerImpl.requested_eq_otherNode hreq
    split
    next =>
      split
      next hgcp =>
        have hout := PeerImpl.getClosestPreceding_eq_none_iff.mp hgcp 0 t hfinger
        exact absurd (Arc.halfOpen_of_not_open hout) (hnotnext t hsucc)
      next c hgcp => exact (h.closestPreceding hmem hgcp).1
    next =>
      refine ⟨hmem, rfl, rfl, ?_⟩
      intro hown
      obtain ⟨p, hp, hin⟩ := (h.responsible_iff_owns hmem).mpr hown
      exact hnotthis p hp (by simpa using hin)

/-- Every reply of an ideal ring keeps a lookup sound, whatever the fingers are. -/
lemma Sound.next (h : IsIdeal net ring) {stage : Stage N} (hsound : stage.Sound ring id) :
    (stage.next net.info net.method id).Sound ring id := by
  cases stage with
  | start self => exact Sound.start h hsound
  | ping successor => exact ⟨successor, rfl, hsound⟩
  | ask self current hops distrusted askedId =>
    obtain ⟨hcurrent, rfl, rfl, hself⟩ := hsound
    exact Sound.received h hops hcurrent hself
  | check self current hops distrusted closestPreceding successor =>
    obtain ⟨hnext, rfl, hself, hmem, hnone⟩ := hsound
    -- The successor names the asked node, and the arc from a node to itself is the whole circle.
    have hpred := h.predecessor_of_next hnext
    have hin : isInRangeLoop id (getId current) (getId current) false true = true := by
      simp [Arc.halfOpen_self]
    simp only [Stage.next, hpred, hin, if_true]
    exact Sound.proceed hops hself hmem fun hc => ⟨successor, rfl, hnone hc⟩
  | done result => exact hsound

/-! ## How many replies a lookup waits for -/

/-- The number of ring nodes that a lookup of `id` at the node `m` has ahead of it. -/
def ahead (ring : Finset N) (id : IdType) (m : N) : ℕ :=
  (ring.filter fun x => Arc.Open (getId m) (getId x) id).card

/-- The number of replies that a lookup on an ideal ring still waits for, at most.  Each node on its
way may be asked, and then its successor. -/
def rank (ring : Finset N) (id : IdType) : Stage N → ℕ
  | start self => 2 * ahead ring id self + 3
  | ping _ => 1
  | ask _ current _ _ _ => 2 * ahead ring id current + 2
  | check _ _ _ _ (some c) _ => 2 * ahead ring id c + 3
  | check _ _ _ _ none _ => 1
  | done _ => 0

omit [DecidableEq N] in
/-- A node is not ahead of itself. -/
lemma rank_start_le {self : N} (hself : self ∈ ring) :
    (start self).rank ring id ≤ 2 * ring.card + 1 := by
  have hlt : ahead ring id self < ring.card := by
    refine Finset.card_lt_card (Finset.filter_ssubset.mpr ⟨self, hself, ?_⟩)
    exact Arc.not_open_left _ _
  rw [rank]
  omega

/-- A sound lookup does not go back: it goes on at the closest preceding node, or it ends. -/
lemma rank_proceed {self current : N} {hops : List N} {result : ClosestPrecedingPair N}
    (hsound : (proceed id self current hops ∅ result).Sound ring id) :
    (proceed id self current hops ∅ result).rank ring id =
      match result.closestPreceding with
      | some c => 2 * ahead ring id c + 2
      | none => 0 := by
  obtain ⟨_ | c, successor⟩ := result
  · rcases successor with _ | successor
    · cases hops with
      | nil => rfl
      | cons hop hops =>
        obtain ⟨-, hempty, -⟩ := hsound
        exact absurd hempty (Finset.insert_ne_empty _ _)
    · rfl
  · simp [proceed, rank]

/-- An answer that names a node closer to the requested id, or none. -/
lemma rank_received {self current : N} {hops : List N} {result : ClosestPrecedingPair N}
    (hsound : (received id self current hops ∅ result).Sound ring id)
    (hcloser : ∀ c, result.closestPreceding = some c →
      Arc.Open (getId current) (getId c) id → c ∈ ring) :
    (received id self current hops ∅ result).rank ring id < 2 * ahead ring id current + 2 := by
  unfold received at hsound ⊢
  dsimp only at hsound ⊢
  generalize hclosest : (result.closestPreceding.filter fun c =>
    isInRangeLoop (getId c) (getId current) id false false) = closest at hsound ⊢
  have hless : ∀ c, closest = some c → ahead ring id c < ahead ring id current := by
    intro c hc
    obtain ⟨hnamed, hopen⟩ := Option.filter_eq_some_iff.mp (hclosest.trans hc)
    have hopen : Arc.Open (getId current) (getId c) id := by simpa using hopen
    exact Arc.card_ahead_lt (hcloser c hnamed hopen) hopen
  have hproceed : (proceed id self current hops ∅ ⟨closest, none⟩).Sound ring id →
      (proceed id self current hops ∅ ⟨closest, none⟩).rank ring id <
        2 * ahead ring id current + 2 := by
    intro hsound
    rw [rank_proceed hsound]
    cases hc : closest with
    | none => exact Nat.succ_pos _
    | some c =>
      have hlt := hless c hc
      dsimp only
      omega
  split at hsound
  next => exact hproceed hsound
  next =>
    split_ifs at hsound ⊢
    · exact hproceed hsound
    · cases hc : closest with
      | none =>
        rw [rank]
        omega
      | some c =>
        have hlt := hless c hc
        rw [rank]
        omega

/-- Every reply of an ideal ring brings a lookup closer to its end, whatever the fingers are. -/
lemma Sound.rank_next (h : IsIdeal net ring) {stage : Stage N} (hsound : stage.Sound ring id)
    (hstage : ∀ result, stage ≠ .done result) :
    (stage.next net.info net.method id).rank ring id < stage.rank ring id := by
  have hnext := Sound.next h hsound
  cases stage with
  | start self =>
    rw [Stage.next]
    split
    next => simp [rank]
    next => simp [rank]
    next =>
      split
      next =>
        split
        next => simp [rank]
        next c hgcp =>
          obtain ⟨hc, hopen⟩ := h.closestPreceding hsound hgcp
          have hless : ahead ring id c < ahead ring id self := Arc.card_ahead_lt hc hopen
          simp only [rank]
          omega
      next => simp [rank]
  | ping successor => simp [Stage.next, rank]
  | ask self current hops distrusted askedId =>
    obtain ⟨hcurrent, rfl, rfl, -⟩ := hsound
    refine rank_received hnext fun c hc _ => ?_
    exact (h.closestPreceding hcurrent hc).1
  | check self current hops distrusted closestPreceding successor =>
    obtain ⟨-, rfl, -⟩ := hsound
    rw [Stage.next] at hnext ⊢
    rw [rank_proceed hnext]
    cases closestPreceding with
    | none => simp [rank]
    | some c => simp [rank]
  | done result => exact absurd rfl (hstage result)

end Stage

end ChordPlusPlus
