import ChordPlusPlus.Ring.Search
import Mathlib.Order.WellFounded

/-!
# When a lookup ends, and how

The stack of the hop loop can change only finitely often, whatever the other peers reply.  What may
go on for ever is the retry of `getClosestPrecedingHelper` at one node, because the answer is checked
against the id of the lookup and not against the smaller id that was asked for.  In terms of the replies,
a lookup does not end exactly when the search asks a node that is a `Trap` (`lookup_ends_iff`).

A request for the predecessor of a direct successor has no handler for failures, so that one node that
does not answer lets the whole lookup fail: exactly when the search asks its predecessor
(`lookup_resolves_iff`).
-/

namespace ChordPlusPlus

variable {N : Type*} [Endpoint N] [DecidableEq N]

namespace HopLoop

section Definitions

variable (self : N) (info : NodeInformation N) (peers : ℕ → Peers N) (id : IdType)

/-- Asked with the first request number and id, `node` names a distrusted node between itself and the
id of the lookup; it will be asked again with the second. -/
inductive Retry (node : N) (distrusted : Finset N) : ℕ × IdType → ℕ × IdType → Prop
  | mk {request request' : ℕ} {askedId : IdType} {c : N} :
      (answer self info peers node request askedId).1.closestPreceding = some c →
      c ∈ distrusted → Arc.Open (getId node) (getId c) id →
      afterCheck self peers (answer self info peers node request askedId).2
        (answer self info peers node request askedId).1.successor = some request' →
      Retry node distrusted (request, askedId) (request', getId c)

/-- From the request on, `node` answers every retry with a distrusted node, for ever. -/
def Stalls (node : N) (distrusted : Finset N) (request : ℕ) : Prop :=
  ∃ f : ℕ → ℕ × IdType, f 0 = (request, id) ∧
    ∀ k, Retry self info peers id node distrusted (f k) (f (k + 1))

/-- Asked for the closest node preceding an id, `node` names only nodes that precede it. -/
def Honours (node : N) : Prop :=
  ∀ request askedId c, (answer self info peers node request askedId).1.closestPreceding = some c →
    Arc.Open (getId node) (getId c) askedId

end Definitions

variable {self : N} {info : NodeInformation N} {peers : ℕ → Peers N} {id : IdType}

/-! ## The retries at one node -/

section Retries

variable {node : N} {distrusted : Finset N}

/-- A retry is what makes `iterate` call itself. -/
lemma retry_iff {request request' : ℕ} {askedId askedId' : IdType} :
    Retry self info peers id node distrusted (request, askedId) (request', askedId') ↔
      ∃ c successor, PeerImpl.impl self info peers node id request askedId =
        (.ok ⟨some c, successor⟩, request') ∧ c ∈ distrusted ∧ getId c = askedId' := by
  constructor
  · rintro ⟨hanswer, hmem, hopen, hcheck⟩
    obtain ⟨successor, hresult⟩ := checkResult_eq_ok_iff.mpr ⟨hanswer, hopen, hcheck⟩
    rw [← impl_eq_checkResult] at hresult
    exact ⟨_, successor, hresult, hmem, rfl⟩
  · rintro ⟨c, successor, himpl, hmem, rfl⟩
    rw [impl_eq_checkResult] at himpl
    obtain ⟨hanswer, hopen, hcheck⟩ := checkResult_eq_ok_iff.mp ⟨successor, himpl⟩
    exact .mk hanswer hmem hopen hcheck

lemma iterate_of_retry {p p' : ℕ × IdType} (h : Retry self info peers id node distrusted p p')
    (fuel : ℕ) :
    PeerImpl.iterate self info peers node id distrusted (fuel + 1) p.1 p.2 =
      PeerImpl.iterate self info peers node id distrusted fuel p'.1 p'.2 := by
  obtain ⟨c, successor, himpl, hmem, hc⟩ := retry_iff.mp h
  rw [PeerImpl.iterate, himpl]
  simp only [hmem, hc, if_true]

lemma iterate_of_not_retry {p : ℕ × IdType}
    (h : ∀ p', ¬ Retry self info peers id node distrusted p p') (fuel : ℕ) :
    PeerImpl.iterate self info peers node id distrusted (fuel + 1) p.1 p.2 ≠ none := by
  rw [PeerImpl.iterate]
  split
  · simp
  · next result request' himpl =>
    split
    · simp
    · next c hc =>
      split_ifs with hmem
      · obtain ⟨closest, successor⟩ := result
        obtain rfl : closest = some c := hc
        exact absurd (retry_iff.mpr ⟨c, successor, himpl, hmem, rfl⟩) (h (request', getId c))
      · simp

/-- `iterate` ends exactly when there is no endless chain of retries. -/
lemma iterate_ends_iff {p : ℕ × IdType} :
    (∃ fuel, PeerImpl.iterate self info peers node id distrusted fuel p.1 p.2 ≠ none) ↔
      Acc (fun p' p => Retry self info peers id node distrusted p p') p := by
  constructor
  · rintro ⟨fuel, hfuel⟩
    induction fuel generalizing p with
    | zero => exact absurd rfl hfuel
    | succ fuel ih =>
      constructor
      intro p' hretry
      rw [iterate_of_retry hretry] at hfuel
      exact ih hfuel
  · intro hacc
    induction hacc with
    | intro p _ ih =>
      by_cases hretry : ∃ p', Retry self info peers id node distrusted p p'
      · obtain ⟨p', hretry⟩ := hretry
        obtain ⟨fuel, hfuel⟩ := ih p' hretry
        exact ⟨fuel + 1, by rwa [iterate_of_retry hretry]⟩
      · exact ⟨1, iterate_of_not_retry (not_exists.mp hretry) 0⟩

/-- The helper ends unless the asked node stalls. -/
lemma helper_ends_iff {request : ℕ} :
    (∃ fuel, PeerImpl.getClosestPrecedingHelper self info peers fuel request node id distrusted ≠
      none) ↔ ¬ Stalls self info peers id node distrusted request := by
  rw [Stalls, ← not_acc_iff_exists_descending_chain
    (r := fun p' p => Retry self info peers id node distrusted p p'), not_not]
  exact iterate_ends_iff (p := (request, id))

/-- A node that names only nodes preceding the asked id does not stall: the asked id comes closer and
closer to the node. -/
lemma Honours.not_stalls (h : Honours self info peers node) (request : ℕ) :
    ¬ Stalls self info peers id node distrusted request := by
  have : Finite N := finite_endpoints
  have : Fintype N := Fintype.ofFinite N
  rw [Stalls, ← not_acc_iff_exists_descending_chain
    (r := fun p' p => Retry self info peers id node distrusted p p'), not_not]
  generalize (request, id) = p
  induction hk : (Finset.univ.filter fun y : N => Arc.Open (getId node) (getId y) p.2).card
    using Nat.strong_induction_on generalizing p with
  | _ k ih =>
    subst hk
    constructor
    rintro _ ⟨hanswer, -, -, -⟩
    exact ih _ (Arc.card_between_lt (Finset.mem_univ _) (h _ _ _ hanswer)) _ rfl

end Retries

/-! ## The loop -/

/-- The loop settles with the result `r` from the given state on. -/
def SettlesFrom (self : N) (info : NodeInformation N) (peers : ℕ → Peers N) (id : IdType)
    (st : State N) (r : Promise (Option N)) : Prop :=
  ∃ fuel, PeerImpl.getSuccessorAlgorithm self info peers id fuel st.request st.hops st.distrusted =
    some r

section Loop

variable {pushes pops : ℕ} {st st' : State N} {r : Promise (Option N)}

/-- An iteration does not change what the loop settles with. -/
lemma settlesFrom_iff_of_round {fuel₀ : ℕ} {current : N}
    {res : Promise (ClosestPrecedingPair N) × ℕ}
    (hhelp : PeerImpl.getClosestPrecedingHelper self info peers fuel₀ st.request current id
      st.distrusted = some res)
    (hround : ∀ fuel, PeerImpl.getClosestPrecedingHelper self info peers fuel st.request current id
        st.distrusted = some res →
      PeerImpl.getSuccessorAlgorithm self info peers id (fuel + 1) st.request st.hops
          st.distrusted =
        PeerImpl.getSuccessorAlgorithm self info peers id fuel st'.request st'.hops
          st'.distrusted) :
    SettlesFrom self info peers id st r ↔ SettlesFrom self info peers id st' r := by
  constructor
  · rintro ⟨fuel, hfuel⟩
    have hmax := PeerImpl.getSuccessorAlgorithm_mono
      ((le_max_left fuel fuel₀).trans (Nat.le_succ _)) hfuel
    rw [hround _ (PeerImpl.iterate_mono (le_max_right fuel fuel₀) hhelp)] at hmax
    exact ⟨_, hmax⟩
  · rintro ⟨fuel, hfuel⟩
    refine ⟨max fuel fuel₀ + 1, ?_⟩
    rw [hround _ (PeerImpl.iterate_mono (le_max_right fuel fuel₀) hhelp)]
    exact PeerImpl.getSuccessorAlgorithm_mono (le_max_left fuel fuel₀) hfuel

/-- The lookup settles as the loop does from any state it comes to. -/
lemma Reaches.settlesFrom_iff (h : Reaches self info peers id pushes pops st) :
    SettlesFrom self info peers id ⟨0, [self], ∅⟩ r ↔ SettlesFrom self info peers id st r := by
  induction h with
  | start => rfl
  | push _ hhelp ih =>
    refine ih.trans (settlesFrom_iff_of_round hhelp ?_)
    intro fuel hfuel
    dsimp only
    rw [PeerImpl.getSuccessorAlgorithm, hfuel]
  | pop _ hhelp ih =>
    refine ih.trans (settlesFrom_iff_of_round hhelp ?_)
    intro fuel hfuel
    dsimp only
    rw [PeerImpl.getSuccessorAlgorithm, hfuel]

/-- How an iteration goes on once the helper has answered: with a node to push, with a node to pop,
or with the result of the lookup. -/
lemma Reaches.round (h : Reaches self info peers id pushes pops st) {current : N} {hops : List N}
    (hhops : st.hops = current :: hops) {fuel request' : ℕ}
    {res : Promise (ClosestPrecedingPair N)}
    (hhelp : PeerImpl.getClosestPrecedingHelper self info peers fuel st.request current id
      st.distrusted = some (res, request')) :
    (∃ c, Arc.Open (getId current) (getId c) id ∧
        Reaches self info peers id (pushes + 1) pops ⟨request', c :: st.hops, st.distrusted⟩) ∨
      Reaches self info peers id pushes (pops + 1) ⟨request', hops, insert current st.distrusted⟩ ∨
      (∃ e, res = .error e ∧ SettlesFrom self info peers id st (.error e)) ∨
      ∃ successor, SettlesFrom self info peers id st (.ok (some successor)) := by
  obtain ⟨request, stack, distrusted⟩ := st
  obtain rfl : stack = current :: hops := hhops
  cases res with
  | error e =>
    refine Or.inr (Or.inr (Or.inl ⟨e, rfl, fuel + 1, ?_⟩))
    dsimp only at hhelp ⊢
    rw [PeerImpl.getSuccessorAlgorithm, hhelp]
  | ok result =>
    obtain ⟨closest, successor⟩ := result
    cases closest with
    | some c => exact Or.inl ⟨c, (helper_closestPreceding hhelp).2, h.push hhelp⟩
    | none =>
      cases successor with
      | none => exact Or.inr (Or.inl (h.pop hhelp))
      | some s =>
        refine Or.inr (Or.inr (Or.inr ⟨s, fuel + 1, ?_⟩))
        dsimp only at hhelp ⊢
        rw [PeerImpl.getSuccessorAlgorithm, hhelp]

/-- A lookup that is rejected has come to a node at which the helper was rejected. -/
lemma Reaches.exists_rejected (h : Reaches self info peers id pushes pops st) {fuel : ℕ}
    {e : KjException}
    (hfuel : PeerImpl.getSuccessorAlgorithm self info peers id fuel st.request st.hops
      st.distrusted = some (.error e)) :
    ∃ st' current hops fuel' request', Reached self info peers id st' ∧
      st'.hops = current :: hops ∧
      PeerImpl.getClosestPrecedingHelper self info peers fuel' st'.request current id
        st'.distrusted = some (.error e, request') := by
  induction fuel generalizing pushes pops st with
  | zero => cases hfuel
  | succ fuel ih =>
    obtain ⟨request, stack, distrusted⟩ := st
    cases stack with
    | nil => cases hfuel
    | cons current hops =>
      dsimp only at hfuel
      rw [PeerImpl.getSuccessorAlgorithm] at hfuel
      split at hfuel
      · cases hfuel
      · next e' request' hhelp =>
        cases hfuel
        exact ⟨_, current, hops, fuel, request', ⟨_, _, h⟩, rfl, hhelp⟩
      · next result request' hhelp =>
        obtain ⟨closest, successor⟩ := result
        cases closest with
        | some c => exact ih (h.push hhelp) hfuel
        | none =>
          cases successor with
          | some s => cases hfuel
          | none => exact ih (h.pop hhelp) hfuel

/-- Some node on top of the stack stalls. -/
def StallReached (self : N) (info : NodeInformation N) (peers : ℕ → Peers N) (id : IdType) : Prop :=
  ∃ st current hops, Reached self info peers id st ∧ st.hops = current :: hops ∧
    Stalls self info peers id current st.distrusted st.request

/-- The nodes between the top of the stack and the id. -/
noncomputable def ahead [Fintype N] (id : IdType) : List N → ℕ
  | [] => 0
  | current :: _ => (Finset.univ.filter fun y : N => Arc.Open (getId current) (getId y) id).card

omit [DecidableEq N] in
lemma ahead_le [Fintype N] (id : IdType) (hops : List N) : ahead id hops ≤ Fintype.card N := by
  cases hops with
  | nil => exact Nat.zero_le _
  | cons current hops => exact Finset.card_le_univ _

/-- The measure of the loop: the nodes that are not distrusted yet, then the nodes ahead. -/
noncomputable def loopMeasure [Fintype N] (id : IdType) (st : State N) : ℕ :=
  st.distrustedᶜ.card * (Fintype.card N + 1) + ahead id st.hops

lemma loopMeasure_push_lt [Fintype N] {current c : N} {hops : List N}
    (hhops : st.hops = current :: hops) (hopen : Arc.Open (getId current) (getId c) id)
    (request' : ℕ) : loopMeasure id ⟨request', c :: st.hops, st.distrusted⟩ < loopMeasure id st := by
  have hless := Arc.card_ahead_lt (Finset.mem_univ c) hopen
  rw [loopMeasure, loopMeasure, hhops]
  exact Nat.add_lt_add_left hless _

lemma loopMeasure_pop_lt [Fintype N] {current : N} (hmem : current ∉ st.distrusted) (hops : List N)
    (request' : ℕ) :
    loopMeasure id ⟨request', hops, insert current st.distrusted⟩ < loopMeasure id st := by
  have hless : (insert current st.distrusted)ᶜ.card < st.distrustedᶜ.card := by
    apply Finset.card_lt_card
    rw [Finset.ssubset_iff_of_subset (Finset.compl_subset_compl.mpr (Finset.subset_insert _ _))]
    exact ⟨current, by simpa using hmem, by simp⟩
  rw [loopMeasure, loopMeasure]
  calc (insert current st.distrusted)ᶜ.card * (Fintype.card N + 1) + ahead id hops
      < (insert current st.distrusted)ᶜ.card * (Fintype.card N + 1) + (Fintype.card N + 1) :=
        Nat.add_lt_add_left (Nat.lt_succ_of_le (ahead_le id hops)) _
    _ = ((insert current st.distrusted)ᶜ.card + 1) * (Fintype.card N + 1) := by
        rw [Nat.succ_mul]
    _ ≤ st.distrustedᶜ.card * (Fintype.card N + 1) := Nat.mul_le_mul_right _ hless
    _ ≤ st.distrustedᶜ.card * (Fintype.card N + 1) + ahead id st.hops := Nat.le_add_right _ _

/-- Unless some node stalls, the loop ends.  With every push the top of the stack comes closer to the
id, and with every pop another node is distrusted. -/
lemma Reaches.exists_settlesFrom (hstall : ¬ StallReached self info peers id)
    (h : Reaches self info peers id pushes pops st) :
    ∃ r, SettlesFrom self info peers id st r := by
  have : Finite N := finite_endpoints
  have : Fintype N := Fintype.ofFinite N
  induction hk : loopMeasure id st using Nat.strong_induction_on generalizing pushes pops st with
  | _ k ih =>
    subst hk
    cases hhops : st.hops with
    | nil =>
      refine ⟨.ok none, 1, ?_⟩
      rw [hhops]
      rfl
    | cons current hops =>
      have hends : ¬ Stalls self info peers id current st.distrusted st.request :=
        fun hst => hstall ⟨st, current, hops, ⟨_, _, h⟩, hhops, hst⟩
      obtain ⟨fuel, hfuel⟩ := helper_ends_iff.mpr hends
      obtain ⟨⟨res, request'⟩, hhelp⟩ := Option.ne_none_iff_exists'.mp hfuel
      rcases h.round hhops hhelp with ⟨c, hopen, hpush⟩ | hpop | ⟨e, -, hsettles⟩ | ⟨s, hsettles⟩
      · obtain ⟨r, hr⟩ := ih _ (loopMeasure_push_lt hhops hopen request') hpush rfl
        exact ⟨r, h.settlesFrom_iff.mp (hpush.settlesFrom_iff.mpr hr)⟩
      · have hmem : current ∉ st.distrusted := h.inv.trusted current (hhops ▸ List.mem_cons_self)
        obtain ⟨r, hr⟩ := ih _ (loopMeasure_pop_lt hmem hops request') hpop rfl
        exact ⟨r, h.settlesFrom_iff.mp (hpop.settlesFrom_iff.mpr hr)⟩
      · exact ⟨_, hsettles⟩
      · exact ⟨_, hsettles⟩

/-- If some node stalls, the loop does not end. -/
lemma not_settlesFrom_of_stallReached (hstall : StallReached self info peers id) :
    ¬ SettlesFrom self info peers id ⟨0, [self], ∅⟩ r := by
  obtain ⟨⟨request, stack, distrusted⟩, current, hops, ⟨pushes, pops, hreach⟩, hhops, hst⟩ := hstall
  obtain rfl : stack = current :: hops := hhops
  rw [hreach.settlesFrom_iff]
  rintro ⟨fuel, hfuel⟩
  cases fuel with
  | zero => cases hfuel
  | succ fuel =>
    dsimp only at hfuel
    have hhelp : PeerImpl.getClosestPrecedingHelper self info peers fuel request current id
        distrusted = none := by
      by_contra hne
      exact helper_ends_iff.mp ⟨fuel, hne⟩ hst
    rw [PeerImpl.getSuccessorAlgorithm, hhelp] at hfuel
    cases hfuel

end Loop

end HopLoop

open HopLoop

/-- Whatever the other peers reply, a lookup with the method `LOCAL` ends exactly when it is answered
by the first two tests, or no node on top of the stack answers every retry with a distrusted node
between itself and the id. -/
lemma getSuccessor_ends_iff (self : N) (info : NodeInformation N) (peers : ℕ → Peers N)
    (passOn : N → IdType → Option (Promise (Option N))) (id : IdType) :
    (∃ fuel, PeerImpl.getSuccessor self info peers .localHops passOn fuel id ≠ none) ↔
      (PeerImpl.requested self info id = .otherNode → ¬ StallReached self info peers id) := by
  cases hreq : PeerImpl.requested self info id with
  | thisNode =>
    refine iff_of_true ⟨0, ?_⟩ (by simp)
    simp [PeerImpl.getSuccessor, hreq]
  | nextNode s =>
    refine iff_of_true ⟨0, ?_⟩ (by simp)
    simp only [PeerImpl.getSuccessor, hreq]
    cases (peers 0).getPredecessor s <;> simp
  | otherNode =>
    simp only [PeerImpl.getSuccessor, hreq, forall_const]
    constructor
    · rintro ⟨fuel, hfuel⟩ hstall
      obtain ⟨r, hr⟩ := Option.ne_none_iff_exists'.mp hfuel
      exact not_settlesFrom_of_stallReached hstall ⟨fuel, hr⟩
    · intro hstall
      obtain ⟨r, fuel, hfuel⟩ := Reaches.start.exists_settlesFrom hstall
      exact ⟨fuel, by rw [hfuel]; simp⟩

/-! ## Traps -/

namespace HopLoop

section Traps

variable {self : N} {info : NodeInformation N} {peers : Peers N} {id : IdType} {x : N} {D : Finset N}

/-- The helper returns from a trap only with one of the barren nodes. -/
lemma exists_barren_of_iterate {K : Set N}
    (hK : ∀ c ∈ K, ¬ Fails self info peers x (getId c) ∧
      ∃ d ∈ K, closest self info peers id x (getId c) = some d)
    {fuel request request' : ℕ} {a : IdType} {res : Promise (ClosestPrecedingPair N)}
    (ha : ¬ Fails self info peers x a ∧ ∃ c ∈ K, closest self info peers id x a = some c)
    (h : PeerImpl.iterate self info (fun _ => peers) x id D fuel request a = some (res, request')) :
    ∃ c ∈ K, c ∉ D ∧ ∃ successor, res = .ok ⟨some c, successor⟩ := by
  induction fuel generalizing request a with
  | zero => cases h
  | succ fuel ih =>
    obtain ⟨hfails, c, hc, hclosest⟩ := ha
    obtain ⟨successor, request₁, himpl, -⟩ :=
      @impl_of_not_fails N _ _ self info peers id x a hfails request
    rw [hclosest] at himpl
    rw [PeerImpl.iterate, himpl] at h
    dsimp only at h
    split_ifs at h with hmem
    · exact ih (hK c hc) h
    · obtain ⟨rfl, -⟩ := Prod.mk.inj (Option.some.inj h)
      exact ⟨c, hc, hmem, successor, rfl⟩

/-- Once the loop has come to a trap, it stalls: as long as the trap is answered with a node that is not
distrusted yet, this node is explored and distrusted, and then there are fewer of them. -/
lemma Trap.stallReached (htrap : Trap self info peers id x) {start : ℕ} {hops : List N}
    (hreached : Reached self info (fun _ => peers) id ⟨start, x :: hops, D⟩) :
    StallReached self info (fun _ => peers) id := by
  have : Finite N := finite_endpoints
  have : Fintype N := Fintype.ofFinite N
  obtain ⟨K, hbarren, hfirst, hK⟩ := htrap
  induction hk : Dᶜ.card using Nat.strong_induction_on generalizing D start with
  | _ k ih =>
    subst hk
    by_cases hstalls : Stalls self info (fun _ => peers) id x D start
    · exact ⟨_, x, hops, hreached, rfl, hstalls⟩
    · obtain ⟨fuel, hfuel⟩ := helper_ends_iff.mpr hstalls
      obtain ⟨⟨res, r'⟩, hhelp⟩ := Option.ne_none_iff_exists'.mp hfuel
      obtain ⟨c, hc, hmem, successor, rfl⟩ := exists_barren_of_iterate hK hfirst hhelp
      obtain ⟨pushes, pops, hreach⟩ := hreached
      obtain ⟨start', D', hback, hsub, hc'⟩ :=
        (hbarren c hc).returns ⟨_, _, hreach.push hhelp⟩ .first
      have hless : D'ᶜ.card < Dᶜ.card := by
        apply Finset.card_lt_card
        rw [Finset.ssubset_iff_of_subset (Finset.compl_subset_compl.mpr hsub)]
        exact ⟨c, by simpa using hmem, by simpa using hc'⟩
      exact ih _ hless hback rfl

/-- A node that stalls is a trap. -/
lemma trap_of_stalls {request : ℕ} (hD : ∀ d ∈ D, Barren self info peers id d id)
    (h : Stalls self info (fun _ => peers) id x D request) : Trap self info peers id x := by
  obtain ⟨f, hstart, hretry⟩ := h
  have hnamed : ∀ k, ¬ Fails self info peers x (f k).2 ∧
      ∃ c ∈ D, getId c = (f (k + 1)).2 ∧ closest self info peers id x (f k).2 = some c := by
    intro k
    obtain ⟨c, successor, himpl, hmem, hc⟩ := retry_iff.mp (hretry k)
    obtain ⟨hfails, hclosest, -⟩ := of_impl_eq_ok himpl
    exact ⟨hfails, c, hmem, hc, hclosest⟩
  refine ⟨{c | c ∈ D ∧ ∃ k, getId c = (f (k + 1)).2}, fun c hc => hD c hc.1, ?_, ?_⟩
  · obtain ⟨hfails, c, hmem, hc, hclosest⟩ := hnamed 0
    rw [hstart] at hfails hclosest
    exact ⟨hfails, c, ⟨hmem, 0, hc⟩, hclosest⟩
  · rintro c ⟨-, k, hk⟩
    obtain ⟨hfails, d, hmem, hd, hclosest⟩ := hnamed (k + 1)
    rw [← hk] at hfails hclosest
    exact ⟨hfails, d, ⟨hmem, k + 1, hd⟩, hclosest⟩

/-- Some node stalls exactly when the search asks a trap. -/
lemma stallReached_iff : StallReached self info (fun _ => peers) id ↔
    ∃ x, Asks self info peers id x id ∧ Trap self info peers id x := by
  constructor
  · rintro ⟨⟨request, stack, D⟩, current, hops, ⟨_, _, hreach⟩, hhops, hstalls⟩
    obtain rfl : stack = current :: hops := hhops
    obtain ⟨hbarren, hasks⟩ := hreach.sound
    exact ⟨current, hasks current List.mem_cons_self, trap_of_stalls hbarren hstalls⟩
  · rintro ⟨x, hasks, htrap⟩
    obtain ⟨start, hops, D, r, hreached, -⟩ := hasks.exists_reached
    exact htrap.stallReached hreached

end Traps

/-- The peer `x` for ever names a node between itself and the id when it is asked for the closest node
preceding its last answer. -/
def Echoes (peers : ℕ → Peers N) (id : IdType) (x : N) : Prop :=
  ∃ f : ℕ → ℕ × N, ∀ k, (f k).1 < (f (k + 1)).1 ∧ Arc.Open (getId x) (getId (f (k + 1)).2) id ∧
    ∃ successor, (peers (f (k + 1)).1).getClosestPreceding x (getId (f k).2) =
      .ok ⟨some (f (k + 1)).2, successor⟩

section Streams

variable {self : N} {info : NodeInformation N} {peers : ℕ → Peers N} {id : IdType} {x : N}

/-- The asking node does not stall. -/
lemma honours_self : Honours self info peers self := by
  intro request askedId c hc
  rw [answer, if_pos rfl] at hc
  exact (PeerImpl.getClosestPreceding_eq_some hc).2

omit [Endpoint N] in
/-- The check of the direct successor takes at most one request. -/
lemma le_of_afterCheck {request request' : ℕ} {successor : Option N}
    (h : afterCheck self peers request successor = some request') : request ≤ request' := by
  unfold afterCheck at h
  split at h
  · exact (Option.some.inj h).le
  · split_ifs at h
    · exact (Option.some.inj h).le
    · split at h
      · exact Nat.le_of_succ_le (Option.some.inj h).le
      · cases h

/-- A retry at a peer, in terms of its reply. -/
lemma Retry.reply (hx : x ≠ self) {D : Finset N} {p p' : ℕ × IdType}
    (h : Retry self info peers id x D p p') :
    ∃ c successor, (peers p.1).getClosestPreceding x p.2 = .ok ⟨some c, successor⟩ ∧
      Arc.Open (getId x) (getId c) id ∧ p'.2 = getId c ∧ p.1 < p'.1 := by
  obtain ⟨hc, -, hopen, hcheck⟩ := h
  rename_i request request' askedId c
  unfold answer at hc hcheck
  rw [if_neg hx] at hc hcheck
  cases hreply : (peers request).getClosestPreceding x askedId with
  | error e =>
    rw [hreply] at hc
    cases hc
  | ok result =>
    obtain ⟨closest, successor⟩ := result
    rw [hreply] at hc hcheck
    obtain rfl : closest = some c := hc
    exact ⟨c, successor, rfl, hopen, rfl, le_of_afterCheck hcheck⟩

/-- A peer that stalls echoes. -/
lemma echoes_of_stalls (hx : x ≠ self) {D : Finset N} {request : ℕ}
    (h : Stalls self info peers id x D request) : Echoes peers id x := by
  obtain ⟨f, -, hretry⟩ := h
  choose c successor hanswer hopen hnext hlater using fun k => (hretry k).reply hx
  refine ⟨fun k => ((f k).1, c k), fun k => ⟨hlater k, hopen (k + 1), successor (k + 1), ?_⟩⟩
  show (peers (f (k + 1)).1).getClosestPreceding x (getId (c k)) = _
  rw [← hnext k]
  exact hanswer (k + 1)

end Streams

end HopLoop

/-- **When a lookup ends.**  For every function that gives the replies of the other peers, a lookup with
the method `LOCAL` ends exactly when it is answered by the first two tests, or the search asks no trap: no
node that names barren nodes only, round and round.  If the peers may change their replies from request to
request, it ends if no peer for ever names a node between itself and the id when it is asked for the
closest node preceding its last answer. -/
theorem lookup_ends_iff (self : N) (info : NodeInformation N)
    (passOn : N → IdType → Option (Promise (Option N))) (id : IdType) :
    (∀ peers : Peers N,
      (∃ fuel, PeerImpl.getSuccessor self info (fun _ => peers) .localHops passOn fuel id ≠ none) ↔
        (PeerImpl.requested self info id = .otherNode →
          ∀ x, Asks self info peers id x id → ¬ Trap self info peers id x)) ∧
    ∀ peers : ℕ → Peers N, (∀ x, x ≠ self → ¬ Echoes peers id x) →
      ∃ fuel, PeerImpl.getSuccessor self info peers .localHops passOn fuel id ≠ none := by
  constructor
  · intro peers
    rw [getSuccessor_ends_iff, stallReached_iff]
    push Not
    rfl
  · intro peers hechoes
    rw [getSuccessor_ends_iff]
    rintro - ⟨st, current, hops, -, -, hstalls⟩
    by_cases hself : current = self
    · subst hself
      exact honours_self.not_stalls st.request hstalls
    · exact hechoes current hself (echoes_of_stalls hself hstalls)

/-- The peer `20…` names `40…` whatever it is asked, and the others name nobody. -/
def misleadingPeers : ℕ → Peers IdType :=
  fun _ => ⟨fun node _ => if node = idOf 0x20 then .ok ⟨some (idOf 0x40), none⟩ else .ok ⟨none, none⟩,
    fun _ => .ok none⟩

/-- Once the node `40…` is distrusted, the peer `20…` is asked again and again. -/
theorem lookup_never_ends :
    PeerImpl.requested (idOf 0x10) oneFinger (idOf 0x80) = .otherNode ∧
      ∀ passOn fuel, PeerImpl.getSuccessor (idOf 0x10) oneFinger misleadingPeers .localHops passOn
        fuel (idOf 0x80) = none := by
  have hreq : PeerImpl.requested (idOf 0x10) oneFinger (idOf 0x80) = .otherNode := by
    decide +kernel
  have hpush : PeerImpl.getClosestPrecedingHelper (idOf 0x10) oneFinger misleadingPeers 1 0
      (idOf 0x10) (idOf 0x80) ∅ = some (.ok ⟨some (idOf 0x20), none⟩, 1) := by decide +kernel
  have hpush' : PeerImpl.getClosestPrecedingHelper (idOf 0x10) oneFinger misleadingPeers 1 1
      (idOf 0x20) (idOf 0x80) ∅ = some (.ok ⟨some (idOf 0x40), none⟩, 2) := by decide +kernel
  have hpop : PeerImpl.getClosestPrecedingHelper (idOf 0x10) oneFinger misleadingPeers 1 2
      (idOf 0x40) (idOf 0x80) ∅ = some (.ok ⟨none, none⟩, 3) := by decide +kernel
  have hreach : Reaches (idOf 0x10) oneFinger misleadingPeers (idOf 0x80) 2 1
      ⟨3, [idOf 0x20, idOf 0x10], {idOf 0x40}⟩ :=
    ((Reaches.start.push hpush).push hpush').pop hpop
  have hretry : ∀ request askedId, Retry (idOf 0x10) oneFinger misleadingPeers (idOf 0x80)
      (idOf 0x20) {idOf 0x40} (request, askedId) (request + 1, idOf 0x40) := by
    intro request askedId
    exact .mk rfl (by decide) (by decide) rfl
  have hstall : StallReached (idOf 0x10) oneFinger misleadingPeers (idOf 0x80) := by
    refine ⟨_, _, _, ⟨_, _, hreach⟩, rfl,
      fun k => (3 + k, if k = 0 then idOf 0x80 else idOf 0x40), rfl, ?_⟩
    intro k
    exact hretry _ _
  refine ⟨hreq, fun passOn fuel => ?_⟩
  simp only [PeerImpl.getSuccessor, hreq]
  by_contra hne
  obtain ⟨r, hr⟩ := Option.ne_none_iff_exists'.mp hne
  exact not_settlesFrom_of_stallReached hstall ⟨fuel, hr⟩

/-- The peer `20…` is a trap for a lookup of `80…` at the node `10…`, which therefore does not end; a
lookup among peers that name nobody ends. -/
theorem lookup_ends_iff_misleading :
    Trap (idOf 0x10) oneFinger (misleadingPeers 0) (idOf 0x80) (idOf 0x20) ∧
      (¬ ∃ fuel, PeerImpl.getSuccessor (idOf 0x10) oneFinger misleadingPeers .localHops
        (fun _ _ => none) fuel (idOf 0x80) ≠ none) ∧
      ∃ fuel, PeerImpl.getSuccessor (idOf 0x10) oneFinger silentPeers .localHops
        (fun _ _ => none) fuel (idOf 0x80) ≠ none := by
  have hfails : ∀ x a, ¬ Fails (idOf 0x10) oneFinger (misleadingPeers 0) x a := by
    rintro x a ⟨s, e, -, -, herror⟩
    cases herror
  have hbarren : Barren (idOf 0x10) oneFinger (misleadingPeers 0) (idOf 0x80) (idOf 0x40)
      (idOf 0x80) := by
    refine .nobody (hfails _ _) (by decide) ?_
    rintro ⟨s, p, -, -, hp, -⟩
    cases hp
  have htrap : Trap (idOf 0x10) oneFinger (misleadingPeers 0) (idOf 0x80) (idOf 0x20) := by
    refine ⟨{idOf 0x40}, ?_, ⟨hfails _ _, idOf 0x40, rfl, by decide⟩, ?_⟩
    · rintro c rfl
      exact hbarren
    · rintro c rfl
      exact ⟨hfails _ _, idOf 0x40, rfl, by decide⟩
  have hasks : Asks (idOf 0x10) oneFinger (misleadingPeers 0) (idOf 0x80) (idOf 0x20)
      (idOf 0x80) := Asks.start.push (hfails _ _) (by decide +kernel)
  obtain ⟨hreplies, hstreams⟩ := lookup_ends_iff (idOf 0x10) oneFinger (fun _ _ => none) (idOf 0x80)
  refine ⟨htrap, ?_, hstreams silentPeers ?_⟩
  · intro hends
    exact (hreplies (misleadingPeers 0)).mp hends (by decide +kernel) _ hasks htrap
  · rintro x - ⟨f, hf⟩
    obtain ⟨-, -, successor, hanswer⟩ := hf 0
    cases hanswer

/-! ## Nodes that do not answer -/

section Failures

variable {net : Network N} {self : N} {id : IdType}

/-- The node, which is the asking node or answers, has a direct successor other than the asking node
that does not answer. -/
def SuccessorFails (net : Network N) (self node : N) : Prop :=
  (node = self ∨ net.answers node = true) ∧
    ∃ s, (net.info node).getSuccessor = some s ∧ s ≠ self ∧ net.answers s = false

/-- The hop loop asks a node whose direct successor does not answer. -/
def DeadSuccessor (net : Network N) (self : N) (id : IdType) : Prop :=
  ∃ st current hops, Reached self (net.info self) (fun _ => net.peers) id st ∧
    st.hops = current :: hops ∧ SuccessorFails net self current

/-- What a node of the network answers. -/
lemma answer_peers (node : N) (request : ℕ) (askedId : IdType) :
    (answer self (net.info self) (fun _ => net.peers) node request askedId).1 =
      if node = self ∨ net.answers node = true then
        PeerImpl.serveClosestPreceding node (net.info node) askedId
      else ⟨none, none⟩ := by
  unfold answer
  by_cases hself : node = self
  · subst hself
    simp
  · by_cases hans : net.answers node = true
    · simp [hself, hans, Network.peers, Network.request]
    · simp [hself, hans, Network.peers, Network.request]

lemma honours_peers (node : N) : Honours self (net.info self) (fun _ => net.peers) node := by
  intro request askedId c hanswer
  rw [answer_peers] at hanswer
  split_ifs at hanswer
  exact (PeerImpl.getClosestPreceding_eq_some hanswer).2

/-- On a network no node stalls. -/
lemma not_stallReached_peers : ¬ StallReached self (net.info self) (fun _ => net.peers) id := by
  rintro ⟨st, current, hops, -, -, hst⟩
  exact (honours_peers current).not_stalls st.request hst

/-- The check of the direct successor fails when the successor does not answer. -/
lemma afterCheck_peers_eq_none_iff {request : ℕ} {successor : Option N} :
    afterCheck self (fun _ => net.peers) request successor = none ↔
      ∃ s, successor = some s ∧ s ≠ self ∧ net.answers s = false := by
  cases successor with
  | none => simp [afterCheck]
  | some s =>
    by_cases hs : s = self
    · simp [afterCheck, hs]
    · by_cases hans : net.answers s = true
      · simp [afterCheck, hs, hans, Network.peers, Network.request]
      · simp [afterCheck, hs, hans, Network.peers, Network.request]

/-- A question fails exactly when the direct successor of the asked node does not answer. -/
lemma impl_eq_error_iff {node : N} {request : ℕ} {askedId : IdType} :
    (∃ e request', PeerImpl.impl self (net.info self) (fun _ => net.peers) node id request askedId =
      (.error e, request')) ↔ SuccessorFails net self node := by
  rw [impl_eq_checkResult, checkResult_eq_error_iff, afterCheck_peers_eq_none_iff, answer_peers,
    SuccessorFails]
  split_ifs with hnode
  · rw [and_iff_right hnode]
    rfl
  · exact iff_of_false (by simp) fun h => hnode h.1

/-- Only a direct successor that does not answer lets the helper fail. -/
lemma successorFails_of_iterate {node : N} {distrusted : Finset N} {fuel request request' : ℕ}
    {askedId : IdType} {e : KjException}
    (h : PeerImpl.iterate self (net.info self) (fun _ => net.peers) node id distrusted fuel request
      askedId = some (.error e, request')) : SuccessorFails net self node := by
  induction fuel generalizing request askedId with
  | zero => cases h
  | succ fuel ih =>
    rcases PeerImpl.iterate_cases h with
      ⟨e₁, himpl, -⟩ | ⟨_, -, hresult, -⟩ | ⟨_, _, _, -, -, hrest⟩
    · exact impl_eq_error_iff.mp ⟨e₁, request', himpl⟩
    · cases hresult
    · exact ih hrest

/-- If the direct successor of a node answers, the closest preceding node it names passes the
check. -/
lemma impl_eq_ok {node c : N} {askedId : IdType} (hnode : node = self ∨ net.answers node = true)
    (hfails : ¬ SuccessorFails net self node)
    (hasked : askedId = id ∨ Arc.Open (getId node) askedId id)
    (hc : PeerImpl.getClosestPreceding node (net.info node) askedId = some c) (request : ℕ) :
    ∃ successor request', PeerImpl.impl self (net.info self) (fun _ => net.peers) node id request
      askedId = (.ok ⟨some c, successor⟩, request') := by
  have hanswer := @answer_peers _ _ _ net self node request askedId
  rw [if_pos hnode] at hanswer
  rw [impl_eq_checkResult]
  generalize answer self (net.info self) (fun _ => net.peers) node request askedId = served
    at hanswer ⊢
  obtain ⟨result, request₁⟩ := served
  obtain rfl : result = PeerImpl.serveClosestPreceding node (net.info node) askedId := hanswer
  have hcheck : afterCheck self (fun _ => net.peers) request₁ (net.info node).getSuccessor ≠
      none := by
    intro hnone
    exact hfails ⟨hnode, afterCheck_peers_eq_none_iff.mp hnone⟩
  obtain ⟨request', hrequest'⟩ := Option.ne_none_iff_exists'.mp hcheck
  rw [exists_comm]
  refine ⟨request', checkResult_eq_ok_iff.mpr ⟨hc, open_of_asked hasked hc, hrequest'⟩⟩

/-- If the direct successor of a node answers, the node it names is the result of the helper. -/
lemma iterate_of_names {node c : N} {distrusted : Finset N} {askedId : IdType}
    (hnode : node = self ∨ net.answers node = true) (hfails : ¬ SuccessorFails net self node)
    (hasked : askedId = id ∨ Arc.Open (getId node) askedId id)
    (h : Names net node distrusted askedId (some c)) :
    ∃ fuel, ∀ request, ∃ successor request',
      PeerImpl.iterate self (net.info self) (fun _ => net.peers) node id distrusted fuel request
        askedId = some (.ok ⟨some c, successor⟩, request') := by
  generalize ho : some c = o at h
  induction h with
  | nobody _ => cases ho
  | fresh hd hD =>
    obtain rfl := Option.some.inj ho
    refine ⟨1, fun request => ?_⟩
    obtain ⟨successor, request', hresult⟩ := impl_eq_ok hnode hfails hasked hd request
    refine ⟨successor, request', ?_⟩
    rw [PeerImpl.iterate, hresult]
    simp [hD]
  | skip hd hD _ ih =>
    obtain ⟨fuel, hfuel⟩ := ih (Or.inr (open_of_asked hasked hd)) ho
    refine ⟨fuel + 1, fun request => ?_⟩
    obtain ⟨successor, request', hresult⟩ := impl_eq_ok hnode hfails hasked hd request
    obtain ⟨successor', request'', hrest⟩ := hfuel request'
    refine ⟨successor', request'', ?_⟩
    rw [PeerImpl.iterate, hresult]
    simp [hD, hrest]

/-- Without a dead successor on its way, the lookup is not rejected. -/
lemma exists_settlesFrom_ok (hdead : ¬ DeadSuccessor net self id) :
    ∃ o, SettlesFrom self (net.info self) (fun _ => net.peers) id ⟨0, [self], ∅⟩ (.ok o) := by
  have hstart : Reaches self (net.info self) (fun _ => net.peers) id 0 0 ⟨0, [self], ∅⟩ := .start
  obtain ⟨r, hr⟩ := hstart.exists_settlesFrom not_stallReached_peers
  cases r with
  | ok o => exact ⟨o, hr⟩
  | error e =>
    obtain ⟨fuel, hfuel⟩ := hr
    obtain ⟨st, current, hops, _, _, hreached, hhops, hhelp⟩ :=
      hstart.exists_rejected hfuel
    exact absurd ⟨st, current, hops, hreached, hhops, successorFails_of_iterate hhelp⟩ hdead

/-- With a dead successor on its way, the lookup is rejected. -/
lemma exists_settlesFrom_error (hdead : DeadSuccessor net self id) :
    ∃ e, SettlesFrom self (net.info self) (fun _ => net.peers) id ⟨0, [self], ∅⟩ (.error e) := by
  obtain ⟨⟨request, stack, distrusted⟩, current, hops, ⟨_, _, hreach⟩, hhops, hfails⟩ := hdead
  obtain rfl : stack = current :: hops := hhops
  obtain ⟨e, request', himpl⟩ := (@impl_eq_error_iff _ _ _ net self id current request id).mpr hfails
  refine ⟨e, hreach.settlesFrom_iff.mpr ⟨2, ?_⟩⟩
  have hhelp : PeerImpl.getClosestPrecedingHelper self (net.info self) (fun _ => net.peers) 1
      request current id distrusted = some (.error e, request') := by
    rw [PeerImpl.getClosestPrecedingHelper, PeerImpl.iterate, himpl]
  dsimp only
  rw [PeerImpl.getSuccessorAlgorithm, hhelp]

/-- The hop loop asks a node whose direct successor does not answer exactly when the search does. -/
lemma deadSuccessor_iff : DeadSuccessor net self id ↔
    ∃ x, Asks self (net.info self) net.peers id x id ∧ SuccessorFails net self x := by
  constructor
  · rintro ⟨st, current, hops, ⟨_, _, hreach⟩, hhops, hfails⟩
    exact ⟨current, hreach.sound.2 current (hhops ▸ List.mem_cons_self), hfails⟩
  · rintro ⟨x, hasks, hfails⟩
    obtain ⟨start, hops, D, r, hreached, -⟩ := hasks.exists_reached
    exact ⟨_, x, hops, hreached, rfl, hfails⟩

/-- In every iteration, the closest preceding node that an asked node names is followed. -/
def FollowsNamed (net : Network N) (self : N) (id : IdType) : Prop :=
  ∀ st current hops c, Reached self (net.info self) (fun _ => net.peers) id st →
    st.hops = current :: hops → (current = self ∨ net.answers current = true) →
    Names net current st.distrusted id (some c) →
    ∃ request', Reached self (net.info self) (fun _ => net.peers) id
      ⟨request', c :: st.hops, st.distrusted⟩

end Failures

/-- On every network and with any nodes that do not answer: a lookup with the method `LOCAL` resolves
to a node or to none, and follows every node that is named to it, exactly when it is answered by the
first two tests or the search, as the replies determine it, asks no node whose direct successor does not
answer. -/
theorem lookup_resolves_iff (net : Network N) (self : N) (id : IdType)
    (hmethod : net.method self = .localHops) :
    ((∃ o, net.Resolves self id (.ok o)) ∧
        (PeerImpl.requested self (net.info self) id = .otherNode → FollowsNamed net self id)) ↔
      (PeerImpl.requested self (net.info self) id = .otherNode →
        ∀ x, Asks self (net.info self) net.peers id x id → ¬ SuccessorFails net self x) := by
  cases hreq : PeerImpl.requested self (net.info self) id with
  | thisNode =>
    refine iff_of_true ⟨⟨some self, 1, ?_⟩, by simp⟩ (by simp)
    simp [Network.getSuccessor, PeerImpl.getSuccessor, hreq]
  | nextNode s =>
    refine iff_of_true ⟨?_, by simp⟩ (by simp)
    by_cases hans : net.answers s = true
    · refine ⟨some s, 1, ?_⟩
      simp [Network.getSuccessor, PeerImpl.getSuccessor, hreq, Network.peers, Network.request, hans]
    · refine ⟨none, 1, ?_⟩
      simp [Network.getSuccessor, PeerImpl.getSuccessor, hreq, Network.peers, Network.request, hans]
  | otherNode =>
    have hresolves : ∀ r, SettlesFrom self (net.info self) (fun _ => net.peers) id ⟨0, [self], ∅⟩ r →
        net.Resolves self id r := by
      rintro r ⟨fuel, hfuel⟩
      refine ⟨fuel + 1, ?_⟩
      simp only [Network.getSuccessor, PeerImpl.getSuccessor, hreq, hmethod]
      exact hfuel
    have hcondition : (∀ x, Asks self (net.info self) net.peers id x id →
        ¬ SuccessorFails net self x) ↔ ¬ DeadSuccessor net self id := by
      rw [deadSuccessor_iff]
      push Not
      rfl
    simp only [forall_const, hcondition]
    constructor
    · rintro ⟨⟨o, ho⟩, -⟩ hdead
      obtain ⟨e, he⟩ := exists_settlesFrom_error hdead
      cases ho.unique (hresolves _ he)
    · intro hdead
      obtain ⟨o, ho⟩ := exists_settlesFrom_ok hdead
      refine ⟨⟨o, hresolves _ ho⟩, ?_⟩
      rintro st current hops c ⟨pushes, pops, hreach⟩ hhops hcurrent hnames
      have hfails : ¬ SuccessorFails net self current :=
        fun hfails => hdead ⟨st, current, hops, ⟨_, _, hreach⟩, hhops, hfails⟩
      obtain ⟨fuel, hfuel⟩ := iterate_of_names hcurrent hfails (Or.inl rfl) hnames
      obtain ⟨successor, request', hhelp⟩ := hfuel st.request
      obtain ⟨request, stack, distrusted⟩ := st
      obtain rfl : stack = current :: hops := hhops
      exact ⟨request', _, _, hreach.push hhelp⟩

/-- The node `10…` has the fingers `20…`, its successor, which does not answer, and `40…`. -/
def crashedSuccessor : Network IdType where
  info := fun m =>
    if m = idOf 0x10 then
      (NodeInformation.initial.setSuccessor (some (idOf 0x20))).setFinger 253 (some (idOf 0x40))
    else NodeInformation.initial
  answers := fun m => m ≠ idOf 0x20
  method := fun _ => .localHops

/-- The direct successor of the asking node `10…` itself does not answer, so that a lookup of `80…` there
does not resolve and follow the nodes that are named. -/
theorem lookup_resolves_iff_crashedSuccessor :
    SuccessorFails crashedSuccessor (idOf 0x10) (idOf 0x10) ∧
      ¬ ((∃ o, crashedSuccessor.Resolves (idOf 0x10) (idOf 0x80) (.ok o)) ∧
        (PeerImpl.requested (idOf 0x10) (crashedSuccessor.info (idOf 0x10)) (idOf 0x80) =
          .otherNode → FollowsNamed crashedSuccessor (idOf 0x10) (idOf 0x80))) := by
  have hfails : SuccessorFails crashedSuccessor (idOf 0x10) (idOf 0x10) :=
    ⟨Or.inl rfl, idOf 0x20, by decide +kernel, by decide, by decide⟩
  refine ⟨hfails, fun hresolves => ?_⟩
  exact (lookup_resolves_iff crashedSuccessor (idOf 0x10) (idOf 0x80) rfl).mp hresolves
    (by decide +kernel) _ .start hfails

/-- A lookup of `80…` at the node `10…` is rejected although its finger `40…` answers. -/
theorem lookup_rejected :
    PeerImpl.getClosestPreceding (idOf 0x10) (crashedSuccessor.info (idOf 0x10)) (idOf 0x80) =
        some (idOf 0x40) ∧
      crashedSuccessor.answers (idOf 0x40) = true ∧
      crashedSuccessor.Resolves (idOf 0x10) (idOf 0x80) (.error .disconnected) ∧
      ¬ ∃ o, crashedSuccessor.Resolves (idOf 0x10) (idOf 0x80) (.ok o) := by
  have hrejected : crashedSuccessor.Resolves (idOf 0x10) (idOf 0x80) (.error .disconnected) :=
    ⟨4, by decide +kernel⟩
  refine ⟨by decide +kernel, by decide, hrejected, ?_⟩
  rintro ⟨o, ho⟩
  cases hrejected.unique ho

end ChordPlusPlus
