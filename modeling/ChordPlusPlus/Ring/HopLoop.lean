import ChordPlusPlus.Ring.Cycle
import ChordPlusPlus.Ring.Ideal

/-!
# What the hop loop finds

The hop loop of a `LOCAL` lookup is a backtracking search.  It walks to the closest preceding node
that the current node names, skips nodes that have turned out to be dead ends, and stops at a node
that names nobody else and whose direct successor passes the check.  The check should make sure that
the successor is responsible for the id, but it takes the arc up to the asked node instead of the
arc up to the successor.

`DeadEnd` and `Ends` describe the search on a network in which every node answers honestly, without
the stack, the set of distrusted nodes and the numbers of requests.  The lookup is sound exactly when
the fingers lead on from every node it comes to whose successor lies short of the id and has its
predecessor at or after that node (`hopLoop_responsible_iff`); the condition speaks of the pointers
alone.
-/

namespace ChordPlusPlus

variable {N : Type*} [Endpoint N] [DecidableEq N]

namespace HopLoop

section Walk

variable (net : Network N) (self : N) (id : IdType)

/-- The direct successor of the asked node `x`, if the check lets it pass. -/
def directSuccessor (x : N) : Option N :=
  match (net.info x).getSuccessor with
  | none => none
  | some s =>
      if s = self then none
      else match (net.info s).predecessor with
        | none => none
        | some p => if isInRangeLoop id (getId p) (getId x) false true then some s else none

/-- Asked for the closest node preceding `a`, and again for the one before as long as the answer is
in `D`, the node `x` ends up naming `o`. -/
inductive Names (x : N) (D : Finset N) : IdType → Option N → Prop
  | nobody {a : IdType} : PeerImpl.getClosestPreceding x (net.info x) a = none → Names x D a none
  | fresh {a : IdType} {c : N} : PeerImpl.getClosestPreceding x (net.info x) a = some c → c ∉ D →
      Names x D a (some c)
  | skip {a : IdType} {c : N} {o : Option N} :
      PeerImpl.getClosestPreceding x (net.info x) a = some c → c ∈ D → Names x D (getId c) o →
      Names x D a o

/-- The search from `x` comes back without a result. -/
inductive DeadEnd : N → Prop
  | mk {x : N} (D : Finset N) : (∀ d ∈ D, DeadEnd d) → Names net x D id none →
      directSuccessor net self id x = none → DeadEnd x

/-- The search from `x` ends at the node `y` and finds its successor `s`. -/
inductive Ends : N → N → N → Prop
  | here {x s : N} (D : Finset N) : (∀ d ∈ D, DeadEnd net self id d) → Names net x D id none →
      directSuccessor net self id x = some s → Ends x x s
  | hop {x c y s : N} (D : Finset N) : (∀ d ∈ D, DeadEnd net self id d) →
      Names net x D id (some c) → Ends c y s → Ends x y s

/-- Asked for the closest node preceding `a`, then for the one preceding the answer, and so on, the node
`x` names `c` at some time. -/
inductive Offers (x : N) : IdType → N → Prop
  | here {a : IdType} {c : N} : PeerImpl.getClosestPreceding x (net.info x) a = some c → Offers x a c
  | next {a : IdType} {c d : N} : PeerImpl.getClosestPreceding x (net.info x) a = some c →
      Offers x (getId c) d → Offers x a d

/-- From offer to offer, `x` leads to a node whose direct successor passes the check. -/
inductive Leads : N → Prop
  | here {x : N} : directSuccessor net self id x ≠ none → Leads x
  | step {x c : N} : Offers net x id c → Leads c → Leads x

/-- The nodes that the search comes to: the asking node, and of the offers of each such node those from
which no offer closer to the id leads on. -/
inductive Tried : N → Prop
  | start : Tried self
  | hop {x c : N} : Tried x → Offers net x id c →
      (∀ d, Offers net x id d → Arc.Open (getId x) (getId c) (getId d) → ¬ Leads net self id d) →
      Tried c

/-- The direct successor of `x` lies short of the id, and its predecessor is `x` or lies between the
two. -/
def ShortSuccessor (x : N) : Prop :=
  ∃ s p, (net.info x).getSuccessor = some s ∧ s ≠ self ∧ Arc.Open (getId x) (getId s) id ∧
    (net.info s).predecessor = some p ∧ (p = x ∨ Arc.Open (getId x) (getId p) (getId s))

end Walk

variable {net : Network N} {self : N} {id : IdType}

/-! ## Candidates -/

omit [DecidableEq N] in
/-- Whoever is named is not in `D` and lies on the way. -/
lemma Names.spec {x c : N} {D : Finset N} {a : IdType} (h : Names net x D a (some c)) :
    c ∉ D ∧ Arc.Open (getId x) (getId c) a := by
  generalize ho : some c = o at h
  induction h with
  | nobody _ => cases ho
  | fresh hc hD =>
    obtain rfl := Option.some.inj ho
    exact ⟨hD, (PeerImpl.getClosestPreceding_eq_some hc).2⟩
  | skip hc _ _ ih =>
    obtain ⟨hD, hopen⟩ := ih ho
    exact ⟨hD, (PeerImpl.getClosestPreceding_eq_some hc).2.of_head hopen⟩

omit [DecidableEq N] in
/-- If `x` names nobody outside `D₀`, everybody it names otherwise is in `D₀`. -/
lemma Names.mem_of_none {x c : N} {D₀ D : Finset N} {a : IdType} (h₀ : Names net x D₀ a none)
    (h : Names net x D a (some c)) : c ∈ D₀ := by
  generalize ho : some c = o at h
  induction h with
  | nobody _ => cases ho
  | fresh hc _ =>
    obtain rfl := Option.some.inj ho
    cases h₀ with
    | nobody hnone => rw [hc] at hnone; cases hnone
    | skip hc' hD _ =>
      rw [hc] at hc'
      cases hc'
      exact hD
  | skip hc _ _ ih =>
    cases h₀ with
    | nobody hnone => rw [hc] at hnone; cases hnone
    | skip hc' _ hrest =>
      rw [hc] at hc'
      cases hc'
      exact ih hrest ho

omit [DecidableEq N] in
/-- Two answers of `x` agree unless one of them is skipped by the other. -/
lemma Names.agree {x c c₀ : N} {D₀ D : Finset N} {a : IdType}
    (h₀ : Names net x D₀ a (some c₀)) (h : Names net x D a (some c)) :
    c = c₀ ∨ c ∈ D₀ ∨ c₀ ∈ D := by
  generalize ho : some c = o at h
  induction h with
  | nobody _ => cases ho
  | fresh hc _ =>
    obtain rfl := Option.some.inj ho
    cases h₀ with
    | fresh hc' _ => exact Or.inl (Option.some.inj (hc.symm.trans hc'))
    | skip hc' hD _ =>
      rw [hc] at hc'
      cases hc'
      exact Or.inr (Or.inl hD)
  | skip hc hD _ ih =>
    cases h₀ with
    | fresh hc' _ =>
      rw [hc] at hc'
      cases hc'
      exact Or.inr (Or.inr hD)
    | skip hc' _ hrest =>
      rw [hc] at hc'
      cases hc'
      exact ih hrest ho

/-- Every node names somebody or nobody: the asked id moves closer to the node with each retry. -/
lemma exists_names (x : N) (D : Finset N) (a : IdType) : ∃ o, Names net x D a o := by
  have : Finite N := finite_endpoints
  have : Fintype N := Fintype.ofFinite N
  induction hk : (Finset.univ.filter fun y : N => Arc.Open (getId x) (getId y) a).card
    using Nat.strong_induction_on generalizing a with
  | _ k ih =>
    subst hk
    cases hc : PeerImpl.getClosestPreceding x (net.info x) a with
    | none => exact ⟨none, .nobody hc⟩
    | some c =>
      by_cases hD : c ∈ D
      · have hopen := (PeerImpl.getClosestPreceding_eq_some hc).2
        obtain ⟨o, ho⟩ := ih _ (Arc.card_between_lt (Finset.mem_univ c) hopen) _ rfl
        exact ⟨o, .skip hc hD ho⟩
      · exact ⟨some c, .fresh hc hD⟩

/-! ## The walk -/

/-- A node whose search ends is not a dead end. -/
lemma Ends.not_deadEnd {x y s : N} (h : Ends net self id x y s) : ¬ DeadEnd net self id x := by
  induction h with
  | here D _ _ hs =>
    rintro ⟨D', _, _, hnone⟩
    rw [hs] at hnone
    cases hnone
  | hop D _ hnames _ ih =>
    rintro ⟨D', hdead, hnobody, _⟩
    exact ih (hdead _ (hnobody.mem_of_none hnames))

/-- Every search ends, or its start is a dead end.  By induction on the number of nodes ahead. -/
lemma deadEnd_or_ends (x : N) :
    DeadEnd net self id x ∨ ∃ y s, Ends net self id x y s := by
  classical
  have : Finite N := finite_endpoints
  have : Fintype N := Fintype.ofFinite N
  induction hk : (Finset.univ.filter fun y : N => Arc.Open (getId x) (getId y) id).card
    using Nat.strong_induction_on generalizing x with
  | _ k ih =>
    subst hk
    -- Let all dead ends be distrusted.
    let D : Finset N := Finset.univ.filter fun d => DeadEnd net self id d
    have hD : ∀ d ∈ D, DeadEnd net self id d := fun d hd => (Finset.mem_filter.mp hd).2
    obtain ⟨o, ho⟩ := @exists_names N _ _ net x D id
    cases o with
    | none =>
      cases hs : directSuccessor net self id x with
      | none => exact Or.inl (.mk D hD ho hs)
      | some s => exact Or.inr ⟨x, s, .here D hD ho hs⟩
    | some c =>
      obtain ⟨hc, hopen⟩ := ho.spec
      have hlive : ¬ DeadEnd net self id c :=
        fun h => hc (Finset.mem_filter.mpr ⟨Finset.mem_univ c, h⟩)
      obtain ⟨y, s, hends⟩ :=
        (ih _ (Arc.card_ahead_lt (Finset.mem_univ c) hopen) c rfl).resolve_left hlive
      exact Or.inr ⟨y, s, .hop D hD ho hends⟩

/-! ## The walk in terms of the pointers -/

omit [DecidableEq N] in
/-- If `x` names nobody, every offer is in `D`. -/
lemma Names.mem_of_offers {x d : N} {D : Finset N} {a : IdType} (h : Names net x D a none)
    (hd : Offers net x a d) : d ∈ D := by
  generalize ho : none = o at h
  induction h with
  | nobody hnone =>
    cases hd with
    | here hc => cases hnone.symm.trans hc
    | next hc _ => cases hnone.symm.trans hc
  | fresh _ _ => cases ho
  | skip hc hD _ ih =>
    cases hd with
    | here hc' => exact Option.some.inj (hc.symm.trans hc') ▸ hD
    | next hc' hrest =>
      obtain rfl := Option.some.inj (hc.symm.trans hc')
      exact ih hrest ho

omit [DecidableEq N] in
/-- Offers precede the id that is asked for. -/
lemma Offers.spec {x d : N} {a : IdType} (h : Offers net x a d) : Arc.Open (getId x) (getId d) a := by
  induction h with
  | here hc => exact (PeerImpl.getClosestPreceding_eq_some hc).2
  | next hc _ ih => exact (PeerImpl.getClosestPreceding_eq_some hc).2.of_head ih

omit [DecidableEq N] in
/-- Whoever is named is an offer, and the offers closer to the asked id are in `D`. -/
lemma Names.offers {x c : N} {D : Finset N} {a : IdType} (h : Names net x D a (some c)) :
    Offers net x a c ∧
      ∀ d, Offers net x a d → Arc.Open (getId x) (getId c) (getId d) → d ∈ D := by
  generalize ho : some c = o at h
  induction h with
  | nobody _ => cases ho
  | fresh hc _ =>
    obtain rfl := Option.some.inj ho
    refine ⟨.here hc, ?_⟩
    intro d hd hcd
    cases hd with
    | here hc' =>
      obtain rfl := Option.some.inj (hc.symm.trans hc')
      exact absurd hcd (Arc.not_open_right _ _)
    | next hc' hrest =>
      obtain rfl := Option.some.inj (hc.symm.trans hc')
      exact absurd (hrest.spec.of_head hcd) (Arc.not_open_right _ _)
  | skip hc hD _ ih =>
    obtain ⟨hoffers, hcloser⟩ := ih ho
    refine ⟨.next hc hoffers, ?_⟩
    intro d hd hcd
    cases hd with
    | here hc' => exact Option.some.inj (hc.symm.trans hc') ▸ hD
    | next hc' hrest =>
      obtain rfl := Option.some.inj (hc.symm.trans hc')
      exact hcloser d hrest hcd

/-- The offer outside `D` that is closest to the asked id is named. -/
lemma Offers.names {x c : N} {D : Finset N} {a : IdType} (h : Offers net x a c) (hc : c ∉ D)
    (hcloser : ∀ d, Offers net x a d → Arc.Open (getId x) (getId c) (getId d) → d ∈ D) :
    Names net x D a (some c) := by
  obtain ⟨o, ho⟩ := @exists_names N _ _ net x D a
  cases o with
  | none => exact absurd (ho.mem_of_offers h) hc
  | some d =>
    obtain ⟨hoffers, hcloser'⟩ := ho.offers
    have hd : d ∉ D := ho.spec.1
    by_cases heq : d = c
    · exact heq ▸ ho
    have hne : getId d ≠ getId c := fun hid => heq (getId_injective hid)
    rcases Arc.open_or_open (b := getId d) h.spec.ne_left.symm with hcd | hcd | hdc
    · exact absurd (hcloser d hoffers hcd) hd
    · exact absurd hcd.symm hne
    · have hclose : Arc.Open (getId x) (getId d) (getId c) := by grind [Arc.Open]
      exact absurd (hcloser' c h hclose) hc

/-- A node whose search ends leads to where it ends. -/
lemma Ends.leads {x y s : N} (h : Ends net self id x y s) : Leads net self id x := by
  induction h with
  | here _ _ _ hs => exact .here (by simp [hs])
  | hop _ _ hnames _ ih => exact .step hnames.offers.1 ih

/-- A dead end is a node that leads nowhere. -/
lemma deadEnd_iff {x : N} : DeadEnd net self id x ↔ ¬ Leads net self id x := by
  constructor
  · intro h
    induction h with
    | mk D _ hnobody hnone ih =>
      intro hleads
      cases hleads with
      | here hs => exact hs hnone
      | step hc hleads => exact ih _ (hnobody.mem_of_offers hc) hleads
  · intro h
    refine (deadEnd_or_ends x).resolve_right ?_
    rintro ⟨y, s, hends⟩
    exact h hends.leads

/-- The set of all dead ends. -/
lemma exists_deadEnds (net : Network N) (self : N) (id : IdType) :
    ∃ D : Finset N, ∀ d, d ∈ D ↔ DeadEnd net self id d := by
  classical
  have : Finite N := finite_endpoints
  have : Fintype N := Fintype.ofFinite N
  exact ⟨Finset.univ.filter fun d => DeadEnd net self id d, by simp⟩

/-- The search comes to the node at which it ends, and no offer of this node leads on. -/
lemma Ends.tried {x y s : N} (h : Ends net self id x y s) (hx : Tried net self id x) :
    Tried net self id y ∧ ∀ c, Offers net y id c → ¬ Leads net self id c := by
  induction h with
  | here D hdead hnobody _ =>
    exact ⟨hx, fun c hc => deadEnd_iff.mp (hdead c (hnobody.mem_of_offers hc))⟩
  | hop D hdead hnames _ ih =>
    obtain ⟨hoffers, hcloser⟩ := hnames.offers
    exact ih (hx.hop hoffers fun d hd hcd => deadEnd_iff.mp (hdead d (hcloser d hd hcd)))

/-- A search that comes to a node goes on from there. -/
lemma Tried.ends {y z s : N} (h : Tried net self id y) (hends : Ends net self id y z s) :
    Ends net self id self z s := by
  induction h with
  | start => exact hends
  | hop _ hoffers hcloser ih =>
    obtain ⟨D, hD⟩ := exists_deadEnds net self id
    refine ih (.hop D (fun d hd => (hD d).mp hd) (hoffers.names ?_ ?_) hends)
    · exact fun hc => hends.not_deadEnd ((hD _).mp hc)
    · exact fun d hd hcd => (hD d).mpr (deadEnd_iff.mpr (hcloser d hd hcd))

/-- The search ends at a node that it comes to, whose direct successor passes the check and whose
offers do not lead on. -/
lemma Tried.ends_here {y s : N} (h : Tried net self id y)
    (hs : directSuccessor net self id y = some s)
    (hnowhere : ∀ c, Offers net y id c → ¬ Leads net self id c) : Ends net self id self y s := by
  obtain ⟨D, hD⟩ := exists_deadEnds net self id
  refine h.ends (.here D (fun d hd => (hD d).mp hd) ?_ hs)
  obtain ⟨o, ho⟩ := @exists_names N _ _ net y D id
  cases o with
  | none => exact ho
  | some c =>
    have hdead : DeadEnd net self id c := deadEnd_iff.mpr (hnowhere c ho.offers.1)
    exact absurd ((hD c).mpr hdead) ho.spec.1

/-! ## The loop follows the walk -/

omit [DecidableEq N] in
/-- Whoever precedes an id on the way to `id` lies on the way to `id`. -/
lemma open_of_asked {x c : N} {a : IdType} (ha : a = id ∨ Arc.Open (getId x) a id)
    (hc : PeerImpl.getClosestPreceding x (net.info x) a = some c) :
    Arc.Open (getId x) (getId c) id := by
  have hopen := (PeerImpl.getClosestPreceding_eq_some hc).2
  rcases ha with rfl | ha
  · exact hopen
  · exact ha.of_head hopen

/-- The reply of `x`, after the check, to the question for the closest node preceding `a`. -/
lemma impl_eq (hanswers : ∀ x, net.answers x = true) (x : N) {a : IdType}
    (ha : a = id ∨ Arc.Open (getId x) a id) (request : ℕ) :
    ∃ request', PeerImpl.impl self (net.info self) (fun _ => net.peers) x id request a =
      (.ok ⟨PeerImpl.getClosestPreceding x (net.info x) a, directSuccessor net self id x⟩,
        request') := by
  have hkeep : (PeerImpl.getClosestPreceding x (net.info x) a).filter (fun c =>
      isInRangeLoop (getId c) (getId x) id false false) =
        PeerImpl.getClosestPreceding x (net.info x) a := by
    cases hgcp : PeerImpl.getClosestPreceding x (net.info x) a with
    | none => rfl
    | some c => simp [Option.filter, open_of_asked ha hgcp]
  have hcheck : ∀ request, ∃ request',
      PeerImpl.checkResult self (fun _ => net.peers) x id request
        (PeerImpl.serveClosestPreceding x (net.info x) a) =
      (.ok ⟨PeerImpl.getClosestPreceding x (net.info x) a, directSuccessor net self id x⟩,
        request') := by
    intro request
    unfold PeerImpl.checkResult PeerImpl.serveClosestPreceding directSuccessor
    cases hs : (net.info x).getSuccessor with
    | none => exact ⟨request, by simp [hkeep]⟩
    | some s =>
      by_cases hself : s = self
      · exact ⟨request, by simp [hkeep, hself]⟩
      · refine ⟨request + 1, ?_⟩
        cases hp : (net.info s).predecessor with
        | none => simp [hkeep, hself, Network.peers_getPredecessor (hanswers s), hp]
        | some p =>
          by_cases hin : Arc.HalfOpen (getId p) id (getId x) <;>
            simp [hkeep, hself, Network.peers_getPredecessor (hanswers s), hp, hin]
  unfold PeerImpl.impl
  by_cases hx : x = self
  · subst hx
    rw [if_pos rfl]
    exact hcheck request
  · rw [if_neg hx]
    simpa [Network.peers_getClosestPreceding (hanswers x)] using hcheck (request + 1)

/-- `getClosestPrecedingHelper` computes whom `x` names. -/
lemma iterate_names (hanswers : ∀ x, net.answers x = true) {x : N} {D : Finset N} {a : IdType}
    {o : Option N} (h : Names net x D a o) (ha : a = id ∨ Arc.Open (getId x) a id) :
    ∃ fuel, ∀ request, ∃ request',
      PeerImpl.iterate self (net.info self) (fun _ => net.peers) x id D fuel request a =
        some (.ok ⟨o, directSuccessor net self id x⟩, request') := by
  induction h with
  | nobody hnone =>
    refine ⟨1, fun request => ?_⟩
    obtain ⟨request', himpl⟩ := @impl_eq _ _ _ net self id hanswers x _ ha request
    exact ⟨request', by rw [PeerImpl.iterate, himpl]; simp [hnone]⟩
  | fresh hc hD =>
    refine ⟨1, fun request => ?_⟩
    obtain ⟨request', himpl⟩ := @impl_eq _ _ _ net self id hanswers x _ ha request
    exact ⟨request', by rw [PeerImpl.iterate, himpl]; simp [hc, hD]⟩
  | skip hc hD _ ih =>
    obtain ⟨fuel, hfuel⟩ := ih (Or.inr (open_of_asked ha hc))
    refine ⟨fuel + 1, fun request => ?_⟩
    obtain ⟨request', himpl⟩ := @impl_eq _ _ _ net self id hanswers x _ ha request
    obtain ⟨request'', hrest⟩ := hfuel request'
    exact ⟨request'', by rw [PeerImpl.iterate, himpl]; simp [hc, hD, hrest]⟩

/-- With enough steps the hop loop finishes with the result `r`, from the stack `hops` and the
distrusted nodes `D`. -/
def Settles (net : Network N) (self : N) (id : IdType) (hops : List N) (D : Finset N)
    (r : Promise (Option N)) : Prop :=
  ∃ fuel, ∀ request, PeerImpl.getSuccessorAlgorithm self (net.info self) (fun _ => net.peers) id
    fuel request hops D = some r

section Settles

variable {x : N} {rest : List N} {D : Finset N} {r : Promise (Option N)}

/-- One round of the loop at a node that names `o`: what is left to do settles the loop. -/
lemma Settles.round (hanswers : ∀ x, net.answers x = true) {o : Option N}
    (hnames : Names net x D id o) {hops : List N} {D' : Finset N}
    (hround : ∀ fuel request request',
      PeerImpl.getClosestPrecedingHelper self (net.info self) (fun _ => net.peers) fuel request x
        id D = some (.ok ⟨o, directSuccessor net self id x⟩, request') →
      PeerImpl.getSuccessorAlgorithm self (net.info self) (fun _ => net.peers) id (fuel + 1) request
        (x :: rest) D =
      PeerImpl.getSuccessorAlgorithm self (net.info self) (fun _ => net.peers) id fuel request'
        hops D')
    (h : Settles net self id hops D' r) : Settles net self id (x :: rest) D r := by
  obtain ⟨fuel₁, h₁⟩ := @iterate_names _ _ _ net self id hanswers _ _ _ _ hnames (Or.inl rfl)
  obtain ⟨fuel₂, h₂⟩ := h
  refine ⟨max fuel₁ fuel₂ + 1, fun request => ?_⟩
  obtain ⟨request', hhelp⟩ := h₁ request
  have hhelp' := PeerImpl.iterate_mono (le_max_left fuel₁ fuel₂) hhelp
  rw [hround _ _ _ hhelp']
  exact PeerImpl.getSuccessorAlgorithm_mono (le_max_right fuel₁ fuel₂) (h₂ request')

/-- The loop goes on with the node that `x` names. -/
lemma Settles.push (hanswers : ∀ x, net.answers x = true) {c : N}
    (hnames : Names net x D id (some c)) (h : Settles net self id (c :: x :: rest) D r) :
    Settles net self id (x :: rest) D r := by
  refine Settles.round hanswers hnames ?_ h
  intro fuel request request' hhelp
  rw [PeerImpl.getSuccessorAlgorithm, hhelp]

/-- The loop turns back at a node that names nobody and whose successor does not pass. -/
lemma Settles.pop (hanswers : ∀ x, net.answers x = true) (hnames : Names net x D id none)
    (hs : directSuccessor net self id x = none)
    (h : Settles net self id rest (insert x D) r) : Settles net self id (x :: rest) D r := by
  refine Settles.round hanswers hnames ?_ h
  intro fuel request request' hhelp
  rw [PeerImpl.getSuccessorAlgorithm, hhelp, hs]

/-- The loop stops at a node that names nobody and whose successor passes. -/
lemma Settles.found (hanswers : ∀ x, net.answers x = true) (hnames : Names net x D id none) {s : N}
    (hs : directSuccessor net self id x = some s) :
    Settles net self id (x :: rest) D (.ok (some s)) := by
  obtain ⟨fuel, h⟩ := @iterate_names _ _ _ net self id hanswers _ _ _ _ hnames (Or.inl rfl)
  refine ⟨fuel + 1, fun request => ?_⟩
  obtain ⟨request', hhelp⟩ := h request
  have hhelp' : PeerImpl.getClosestPrecedingHelper self (net.info self) (fun _ => net.peers) fuel
    request x id D = _ := hhelp
  rw [PeerImpl.getSuccessorAlgorithm, hhelp', hs]

lemma Settles.empty : Settles net self id [] D (.ok none) :=
  ⟨1, fun _ => rfl⟩

/-- Once `x` has been explored, the loop goes on with more distrusted nodes, all of them dead ends. -/
def Returns (net : Network N) (self : N) (id : IdType) (r : Promise (Option N)) (x : N) : Prop :=
  ∀ rest D, (∀ d ∈ D, DeadEnd net self id d) →
    (∀ D', (∀ d ∈ D', DeadEnd net self id d) → D ⊆ D' → x ∈ D' → Settles net self id rest D' r) →
    Settles net self id (x :: rest) D r

/-- If at `x` the loop settles unless it first explores a node it returns from, it settles: each such
node is distrusted afterwards. -/
lemma settles_of_tries (hanswers : ∀ x, net.answers x = true)
    (hstep : ∀ D', (∀ d ∈ D', DeadEnd net self id d) → D ⊆ D' → ∀ o, Names net x D' id o →
      Settles net self id (x :: rest) D' r ∨ ∃ c, o = some c ∧ Returns net self id r c)
    (hD : ∀ d ∈ D, DeadEnd net self id d) : Settles net self id (x :: rest) D r := by
  have : Finite N := finite_endpoints
  have : Fintype N := Fintype.ofFinite N
  induction hk : Dᶜ.card using Nat.strong_induction_on generalizing D with
  | _ k ih =>
    subst hk
    obtain ⟨o, ho⟩ := @exists_names N _ _ net x D id
    rcases hstep D hD (Finset.Subset.refl D) o ho with hsettles | ⟨c, rfl, hreturns⟩
    · exact hsettles
    · refine Settles.push hanswers ho (hreturns (x :: rest) D hD ?_)
      intro D' hD' hsub hc
      have hless : D'ᶜ.card < Dᶜ.card := by
        apply Finset.card_lt_card
        rw [Finset.ssubset_iff_of_subset (Finset.compl_subset_compl.mpr hsub)]
        exact ⟨c, by simpa using ho.spec.1, by simpa using hc⟩
      exact ih _ hless (fun E hE hsub' => hstep E hE (hsub.trans hsub')) hD' rfl

/-- The loop returns from every dead end. -/
lemma DeadEnd.returns (hanswers : ∀ x, net.answers x = true) (r : Promise (Option N))
    (hx : DeadEnd net self id x) : Returns net self id r x := by
  induction hx with
  | @mk x D₀ hdead hnobody hnone ih =>
    intro rest D hD hrest
    refine settles_of_tries hanswers ?_ hD
    intro E hE hsub o ho
    cases o with
    | none =>
      left
      refine Settles.pop hanswers ho hnone (hrest _ ?_ (hsub.trans (Finset.subset_insert x E))
        (Finset.mem_insert_self x E))
      intro d hd
      rcases Finset.mem_insert.mp hd with rfl | hd
      · exact .mk D₀ hdead hnobody hnone
      · exact hE d hd
    | some c => exact Or.inr ⟨c, rfl, ih c (hnobody.mem_of_none ho)⟩

/-- The loop finds the successor at which the walk ends. -/
lemma Ends.settles (hanswers : ∀ x, net.answers x = true) {y s : N}
    (h : Ends net self id x y s) (hD : ∀ d ∈ D, DeadEnd net self id d) :
    Settles net self id (x :: rest) D (.ok (some s)) := by
  induction h generalizing rest D with
  | @here x s D₀ hdead hnobody hs =>
    refine settles_of_tries hanswers ?_ hD
    intro E hE _ o ho
    cases o with
    | none => exact Or.inl (Settles.found hanswers ho hs)
    | some c => exact Or.inr ⟨c, rfl, (hdead c (hnobody.mem_of_none ho)).returns hanswers _⟩
  | @hop x c₀ y s D₀ hdead hnames hends ih =>
    refine settles_of_tries hanswers ?_ hD
    intro E hE _ o ho
    cases o with
    | none => exact absurd (hE c₀ (ho.mem_of_none hnames)) hends.not_deadEnd
    | some c =>
      rcases hnames.agree ho with rfl | hc | hc₀
      · exact Or.inl (Settles.push hanswers ho (ih hE))
      · exact Or.inr ⟨c, rfl, (hdead c hc).returns hanswers _⟩
      · exact absurd (hE c₀ hc₀) hends.not_deadEnd

end Settles

/-- The hop loop finds `s` exactly when the walk from the asking node ends with `s`. -/
lemma resolves_iff_ends (hanswers : ∀ x, net.answers x = true)
    (hmethod : net.method self = .localHops)
    (hreq : PeerImpl.requested self (net.info self) id = .otherNode) {s : N} :
    net.Resolves self id (.ok (some s)) ↔ ∃ y, Ends net self id self y s := by
  have hrun : ∀ r, Settles net self id [self] ∅ r → net.Resolves self id r := by
    rintro r ⟨fuel, hfuel⟩
    refine ⟨fuel + 1, ?_⟩
    simp only [Network.getSuccessor, PeerImpl.getSuccessor, hreq, hmethod]
    exact hfuel 0
  have hempty : ∀ d ∈ (∅ : Finset N), DeadEnd net self id d := by simp
  constructor
  · intro hres
    rcases @deadEnd_or_ends N _ _ net self id self with hdead | ⟨y, t, hends⟩
    · have hnone := hrun _ (hdead.returns hanswers (.ok none) [] ∅ hempty
        fun _ _ _ _ => Settles.empty)
      cases hres.unique hnone
    · have hfound := hrun _ (hends.settles hanswers hempty)
      cases hres.unique hfound
      exact ⟨y, hends⟩
  · rintro ⟨y, hends⟩
    exact hrun _ (hends.settles hanswers hempty)

/-! ## Soundness -/

lemma directSuccessor_eq_some {y s : N} (h : directSuccessor net self id y = some s) :
    (net.info y).getSuccessor = some s ∧ s ≠ self ∧
      ∃ p, (net.info s).predecessor = some p ∧ Arc.HalfOpen (getId p) id (getId y) := by
  unfold directSuccessor at h
  split at h
  · cases h
  · rename_i t ht
    split_ifs at h with hself
    split at h
    · cases h
    · rename_i p hp
      split_ifs at h with hin
      obtain rfl := Option.some.inj h
      exact ⟨ht, hself, p, hp, by simpa using hin⟩

lemma Ends.directSuccessor_eq {x y s : N} (h : Ends net self id x y s) :
    directSuccessor net self id y = some s := by
  induction h with
  | here _ _ _ hs => exact hs
  | hop _ _ _ _ ih => exact ih

/-- A short successor passes the check. -/
lemma ShortSuccessor.directSuccessor_eq {y : N} (h : ShortSuccessor net self id y) :
    ∃ s, directSuccessor net self id y = some s ∧ ¬ (net.info s).Responsible s id := by
  obtain ⟨s, p, hs, hself, hshort, hp, hbetween⟩ := h
  have hin : Arc.HalfOpen (getId p) id (getId y) := by
    rcases hbetween with rfl | hbetween
    · exact Arc.halfOpen_self _ _
    · grind [Arc.Open, Arc.HalfOpen]
  refine ⟨s, by simp [directSuccessor, hs, hself, hp, hin], ?_⟩
  rintro ⟨q, hq, hresponsible⟩
  obtain rfl : p = q := Option.some.inj (hp.symm.trans hq)
  rw [isInRangeLoop_false_true] at hresponsible
  rcases hbetween with rfl | hbetween
  · grind [Arc.Open, Arc.HalfOpen]
  · grind [Arc.Open, Arc.HalfOpen]

/-- A direct successor that passes the check without being responsible is a short one. -/
lemma shortSuccessor_of_directSuccessor {y s : N} (h : directSuccessor net self id y = some s)
    (hnot : ¬ (net.info s).Responsible s id) : ShortSuccessor net self id y := by
  obtain ⟨hs, hself, p, hp, hin⟩ := directSuccessor_eq_some h
  have hout : ¬ Arc.HalfOpen (getId p) id (getId s) :=
    fun hout => hnot ⟨p, hp, isInRangeLoop_false_true.mpr hout⟩
  -- `id` lies in the arc up to the asked node, but not in the arc up to its successor.
  have hshort : Arc.Open (getId y) (getId s) id := by grind [Arc.Open, Arc.HalfOpen]
  have hbetween : getId p = getId y ∨ Arc.Open (getId y) (getId p) (getId s) := by
    grind [Arc.Open, Arc.HalfOpen]
  exact ⟨s, p, hs, hself, hshort, hp, hbetween.imp_left fun heq => getId_injective heq⟩

end HopLoop

open HopLoop

/-- On a network of honest answering nodes, the node that the hop loop finds is responsible for the
id by its own answer, exactly when every node that the search comes to, and whose direct successor lies
short of the id with its predecessor at or after that node, makes an offer that leads on. -/
theorem hopLoop_responsible_iff {net : Network N} {self : N} {id : IdType}
    (hanswers : ∀ x, net.answers x = true) (hmethod : net.method self = .localHops)
    (hreq : PeerImpl.requested self (net.info self) id = .otherNode) :
    (∀ s, net.Resolves self id (.ok (some s)) → (net.info s).Responsible s id) ↔
      ∀ x, Tried net self id x → ShortSuccessor net self id x →
        ∃ c, Offers net x id c ∧ Leads net self id c := by
  constructor
  · intro hsound y hy hshort
    obtain ⟨s, hs, hnot⟩ := hshort.directSuccessor_eq
    by_contra hnowhere
    push Not at hnowhere
    exact hnot (hsound s ((resolves_iff_ends hanswers hmethod hreq).mpr
      ⟨y, hy.ends_here hs hnowhere⟩))
  · intro hleads s hres
    obtain ⟨y, hends⟩ := (resolves_iff_ends hanswers hmethod hreq).mp hres
    obtain ⟨hy, hnowhere⟩ := hends.tried .start
    by_contra hnot
    obtain ⟨c, hc, hlive⟩ :=
      hleads y hy (shortSuccessor_of_directSuccessor hends.directSuccessor_eq hnot)
    exact hnowhere c hc hlive

/-- The node `40…` has created the ring and `80…` has joined it; `40…` has taken `80…` as its
successor, but its notification has not arrived yet. -/
def halfStabilized : Network IdType where
  info := fun m =>
    if m = idOf 0x40 then
      (NodeInformation.initial.setSuccessor (some (idOf 0x80))).setPredecessor (some (idOf 0x80))
    else NodeInformation.initial.setSuccessor (some (idOf 0x40))
  answers := fun _ => true
  method := fun _ => .localHops

/-- The successor of `80…`, the node `40…`, lies short of `60…`, and no finger of `40…` leads on: a
lookup of `60…` at `80…` does not keep to the responsible nodes. -/
theorem hopLoop_responsible_iff_halfStabilized :
    ShortSuccessor halfStabilized (idOf 0x80) (idOf 0x60) (idOf 0x80) ∧
      (∀ c, Offers halfStabilized (idOf 0x80) (idOf 0x60) c →
        ¬ Leads halfStabilized (idOf 0x80) (idOf 0x60) c) ∧
      ¬ ∀ s, halfStabilized.Resolves (idOf 0x80) (idOf 0x60) (.ok (some s)) →
        (halfStabilized.info s).Responsible s (idOf 0x60) := by
  have hshort : ShortSuccessor halfStabilized (idOf 0x80) (idOf 0x60) (idOf 0x80) :=
    ⟨idOf 0x40, idOf 0x80, by decide +kernel, by decide, by decide, rfl, Or.inl rfl⟩
  have hoffers : ∀ c, Offers halfStabilized (idOf 0x80) (idOf 0x60) c → c = idOf 0x40 := by
    intro c hc
    have hfirst : PeerImpl.getClosestPreceding (idOf 0x80) (halfStabilized.info (idOf 0x80))
        (idOf 0x60) = some (idOf 0x40) := by decide +kernel
    have hsecond : PeerImpl.getClosestPreceding (idOf 0x80) (halfStabilized.info (idOf 0x80))
        (getId (idOf 0x40)) = none := by decide +kernel
    cases hc with
    | here hc => exact Option.some.inj (hc.symm.trans hfirst)
    | next hc hrest =>
      obtain rfl := Option.some.inj (hc.symm.trans hfirst)
      cases hrest with
      | here hc => cases hc.symm.trans hsecond
      | next hc _ => cases hc.symm.trans hsecond
  have hnowhere : ¬ Leads halfStabilized (idOf 0x80) (idOf 0x60) (idOf 0x40) := by
    have hnone : PeerImpl.getClosestPreceding (idOf 0x40) (halfStabilized.info (idOf 0x40))
        (idOf 0x60) = none := by decide +kernel
    intro hleads
    cases hleads with
    | here hs => exact hs (by decide +kernel)
    | step hc _ =>
      cases hc with
      | here hc => cases hc.symm.trans hnone
      | next hc _ => cases hc.symm.trans hnone
  refine ⟨hshort, fun c hc => hoffers c hc ▸ hnowhere, ?_⟩
  intro hsound
  obtain ⟨c, hc, hleads⟩ := (@hopLoop_responsible_iff IdType _ _ halfStabilized (idOf 0x80)
    (idOf 0x60) (fun _ => rfl) rfl (by decide +kernel)).mp hsound _ .start hshort
  exact hnowhere (hoffers c hc ▸ hleads)

/-- A lookup of `60…` at the node `80…` finds `40…`, whose own arc ends at `40…`. -/
theorem hopLoop_not_responsible :
    PeerImpl.requested (idOf 0x80) (halfStabilized.info (idOf 0x80)) (idOf 0x60) = .otherNode ∧
      halfStabilized.Resolves (idOf 0x80) (idOf 0x60) (.ok (some (idOf 0x40))) ∧
      ¬ (halfStabilized.info (idOf 0x40)).Responsible (idOf 0x40) (idOf 0x60) := by
  refine ⟨by decide +kernel, ⟨10, by decide +kernel⟩, ?_⟩
  rintro ⟨p, hp, hin⟩
  obtain rfl : idOf 0x80 = p := Option.some.inj hp
  revert hin
  decide

/-! ## Lookups during maintenance -/

namespace System

/-- The network of a deployment at one moment. -/
def network (sys : System N) (method : N → GetSuccessorMethod) : Network N :=
  ⟨sys.info, fun _ => true, method⟩

variable {b : N} {sys : System N} {method : N → GetSuccessorMethod}

/-- A lookup finds only nodes that have joined. -/
lemma PointerInv.joined_of_getSuccessor (hinv : PointerInv b sys) {fuel : ℕ} {n x : N}
    {key : IdType} (h : (sys.network method).getSuccessor fuel n key = some (.ok (some x))) :
    sys.Joined x := by
  induction fuel generalizing n with
  | zero => simp [Network.getSuccessor] at h
  | succ fuel ih =>
    cases hreq : PeerImpl.requested n (sys.info n) key with
    | thisNode =>
      obtain ⟨p, hp, -⟩ := PeerImpl.requested_eq_thisNode_iff.mp hreq
      have hx : n = x := by
        simpa [Network.getSuccessor, PeerImpl.getSuccessor, network, hreq] using h
      exact hx ▸ hinv.joined_of_pred hp
    | nextNode s =>
      obtain ⟨hs, -⟩ := PeerImpl.requested_eq_nextNode hreq
      rw [hinv.getSuccessor_eq] at hs
      have hx : s = x := by
        simpa [Network.getSuccessor, PeerImpl.getSuccessor, network, hreq, Network.peers,
          Network.request] using h
      exact hx ▸ hinv.succ_joined n s hs
    | otherNode =>
      cases hmethod : method n with
      | passOn =>
        cases hc : PeerImpl.getClosestPreceding n (sys.info n) key with
        | none =>
          simp [Network.getSuccessor, PeerImpl.getSuccessor, network, hreq, hmethod, hc] at h
        | some c =>
          have hpass : (sys.network method).getSuccessor fuel c key = some (.ok (some x)) := by
            simp only [Network.getSuccessor, PeerImpl.getSuccessor, network, hreq, hmethod, hc,
              if_true, Option.map_eq_some_iff] at h
            obtain ⟨r, hr, hrx⟩ := h
            cases r with
            | error e => cases hrx
            | ok y =>
              cases hrx
              exact hr
          exact ih hpass
      | localHops =>
        obtain ⟨y, hends⟩ := (@resolves_iff_ends N _ _ (sys.network method) _ _ (fun _ => rfl)
          hmethod hreq _).mp ⟨fuel + 1, h⟩
        obtain ⟨hs, -⟩ := directSuccessor_eq_some hends.directSuccessor_eq
        exact hinv.succ_joined y x ((hinv.getSuccessor_eq y).symm.trans hs)

/-- A lookup at a node without successor finds nothing. -/
lemma getSuccessor_isSome_of_resolves {n x : N} {key : IdType}
    (hreq : PeerImpl.requested n (sys.info n) key = .otherNode)
    (h : (sys.network method).Resolves n key (.ok (some x))) :
    (sys.info n).getSuccessor ≠ none := by
  intro hnone
  have hgcp : ∀ a, PeerImpl.getClosestPreceding n (sys.info n) a = none := by
    intro a
    rw [PeerImpl.getClosestPreceding_eq_none_iff]
    intro i f hf
    rw [NodeInformation.getSuccessor_eq_none_iff.mp hnone i] at hf
    cases hf
  cases hmethod : method n with
  | passOn =>
    obtain ⟨fuel, hfuel⟩ := h
    cases fuel with
    | zero => simp [Network.getSuccessor] at hfuel
    | succ fuel =>
      simp [Network.getSuccessor, PeerImpl.getSuccessor, network, hreq, hmethod, hgcp] at hfuel
  | localHops =>
    obtain ⟨y, hends⟩ := (resolves_iff_ends (fun _ => rfl) hmethod hreq).mp h
    cases hends with
    | here D _ _ hs =>
      have hsome : (sys.info n).getSuccessor = some x := (directSuccessor_eq_some hs).1
      rw [hnone] at hsome
      cases hsome
    | hop D _ hnames _ =>
      have hn : PeerImpl.getClosestPreceding n ((sys.network method).info n) key = none := hgcp key
      cases hnames with
      | fresh hc _ => rw [hn] at hc; cases hc
      | skip hc _ _ => rw [hn] at hc; cases hc

/-- The answers that the transition system allows a lookup include those that the lookup gives when
nothing else happens meanwhile. -/
theorem PointerInv.lookupMay_of_resolves (hinv : PointerInv b sys) {n : N} {key : IdType}
    {r : Option N} (h : (sys.network method).Resolves n key (.ok r)) :
    sys.lookupMay n key r = true := by
  unfold lookupMay
  cases hreq : PeerImpl.requested n (sys.info n) key with
  | thisNode =>
    have hself : (sys.network method).Resolves n key (.ok (some n)) :=
      ⟨1, by simp [Network.getSuccessor, PeerImpl.getSuccessor, network, hreq]⟩
    cases h.unique hself
    simp
  | nextNode s =>
    have hnext : (sys.network method).Resolves n key (.ok (some s)) :=
      ⟨1, by simp [Network.getSuccessor, PeerImpl.getSuccessor, network, hreq, Network.peers,
        Network.request]⟩
    cases h.unique hnext
    simp
  | otherNode =>
    cases r with
    | none => rfl
    | some x =>
      obtain ⟨fuel, hfuel⟩ := h
      have hx := hinv.joined_of_getSuccessor hfuel
      rw [Joined, ← hinv.getSuccessor_eq] at hx
      have hn := getSuccessor_isSome_of_resolves hreq ⟨fuel, hfuel⟩
      simp [Option.isSome_iff_ne_none, hn, hx]

end System

end ChordPlusPlus
