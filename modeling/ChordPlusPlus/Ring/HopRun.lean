import ChordPlusPlus.Ring.Convergence
import ChordPlusPlus.Ring.HopLoop

/-!
# The hop loop under arbitrary replies

The other peers may answer whatever they like and change their answers from request to request.  The
state of the loop before an iteration is the stack of hops, the set of distrusted nodes and the number
of the next request; `Reaches` lists the states that a lookup comes to, with the pushes and pops it
has made.

Whatever the replies are, the stack leads clockwise towards the id and avoids the distrusted nodes
(`Reaches.inv`), so that every node is pushed at most once.  The loop ends unless the node on top of
the stack answers every retry with a distrusted node (`lookup_ends_iff`).  A lookup is rejected
exactly when an asked node has a direct successor that does not answer (`lookup_resolves_iff`).
-/

namespace ChordPlusPlus

variable {N : Type*} [Endpoint N] [DecidableEq N]

namespace HopLoop

/-- The state of the hop loop before an iteration. -/
structure State (N : Type*) where
  /-- The number of the next request. -/
  request : ℕ
  /-- The stack, its top first. -/
  hops : List N
  distrusted : Finset N

section Definitions

variable (self : N) (info : NodeInformation N) (peers : ℕ → Peers N) (id : IdType)

/-- The hop loop comes to the state after `pushes` pushes and `pops` pops. -/
inductive Reaches : ℕ → ℕ → State N → Prop
  | start : Reaches 0 0 ⟨0, [self], ∅⟩
  | push {pushes pops fuel request request' : ℕ} {current c : N} {hops : List N}
      {distrusted : Finset N} {successor : Option N} :
      Reaches pushes pops ⟨request, current :: hops, distrusted⟩ →
      PeerImpl.getClosestPrecedingHelper self info peers fuel request current id distrusted =
        some (.ok ⟨some c, successor⟩, request') →
      Reaches (pushes + 1) pops ⟨request', c :: current :: hops, distrusted⟩
  | pop {pushes pops fuel request request' : ℕ} {current : N} {hops : List N}
      {distrusted : Finset N} :
      Reaches pushes pops ⟨request, current :: hops, distrusted⟩ →
      PeerImpl.getClosestPrecedingHelper self info peers fuel request current id distrusted =
        some (.ok ⟨none, none⟩, request') →
      Reaches pushes (pops + 1) ⟨request', hops, insert current distrusted⟩

/-- The states that a lookup comes to. -/
def Reached (st : State N) : Prop := ∃ pushes pops, Reaches self info peers id pushes pops st

/-- What `node` answers when it is asked for the closest node preceding `askedId`, and the number of
the next request.  A request that fails counts as an answer without nodes. -/
def answer (node : N) (request : ℕ) (askedId : IdType) : ClosestPrecedingPair N × ℕ :=
  if node = self then (PeerImpl.serveClosestPreceding self info askedId, request)
  else match (peers request).getClosestPreceding node askedId with
    | .ok result => (result, request + 1)
    | .error _ => (⟨none, none⟩, request + 1)

/-- The number of the next request after the check of the direct successor; none if the request for
its predecessor fails. -/
def afterCheck (request : ℕ) : Option N → Option ℕ
  | none => some request
  | some successor =>
      if successor = self then some request
      else match (peers request).getPredecessor successor with
        | .ok _ => some (request + 1)
        | .error _ => none

/-- The questions of one iteration at `node`, with their request numbers: the closest node preceding
the id, and as long as the answer is distrusted, the closest node preceding that one. -/
inductive Question (node : N) (distrusted : Finset N) (request : ℕ) : ℕ → IdType → Prop
  | first : Question node distrusted request request id
  | retry {r r' : ℕ} {askedId : IdType} {c : N} {successor : Option N} :
      Question node distrusted request r askedId →
      PeerImpl.impl self info peers node id r askedId = (.ok ⟨some c, successor⟩, r') →
      c ∈ distrusted → Question node distrusted request r' (getId c)

/-- Some answer in the iteration that starts in the state names `c`. -/
def Named (st : State N) (c : N) : Prop :=
  ∃ node hops r askedId, st.hops = node :: hops ∧
    Question self info peers id node st.distrusted st.request r askedId ∧
    (answer self info peers node r askedId).1.closestPreceding = some c

/-- The clockwise distance that is left from a node to the id; a node whose id it is has the full
circle before it. -/
def remaining (x : N) : ℕ := arcLength (getId x) id

end Definitions

variable {self : N} {info : NodeInformation N} {peers : ℕ → Peers N} {id : IdType}

/-! ## One question -/

lemma impl_eq_checkResult (node : N) (request : ℕ) (askedId : IdType) :
    PeerImpl.impl self info peers node id request askedId =
      PeerImpl.checkResult self peers node id (answer self info peers node request askedId).2
        (answer self info peers node request askedId).1 := by
  unfold PeerImpl.impl answer
  split_ifs
  · rfl
  · cases (peers request).getClosestPreceding node askedId <;> rfl

/-- The check returns a closest preceding node exactly when the node is in range and the check of the
direct successor does not fail. -/
lemma checkResult_eq_ok_iff {node c : N} {request request' : ℕ} {result : ClosestPrecedingPair N} :
    (∃ successor, PeerImpl.checkResult self peers node id request result =
        (.ok ⟨some c, successor⟩, request')) ↔
      result.closestPreceding = some c ∧ Arc.Open (getId node) (getId c) id ∧
        afterCheck self peers request result.successor = some request' := by
  have hfilter : result.closestPreceding.filter (fun c =>
      isInRangeLoop (getId c) (getId node) id false false) = some c ↔
        result.closestPreceding = some c ∧ Arc.Open (getId node) (getId c) id := by
    rw [Option.filter_eq_some_iff, isInRangeLoop_false_false]
  rw [← and_assoc, ← hfilter]
  unfold PeerImpl.checkResult afterCheck
  dsimp only
  cases result.successor with
  | none => simp
  | some s =>
    by_cases hs : s = self
    · simp [hs]
    · cases hp : (peers request).getPredecessor s with
      | error e => simp [hs, hp]
      | ok p =>
        simp only [hs, hp, if_false]
        split_ifs <;> simp

/-- The check fails exactly when the request to the direct successor fails. -/
lemma checkResult_eq_error_iff {node : N} {request : ℕ} {result : ClosestPrecedingPair N} :
    (∃ e request', PeerImpl.checkResult self peers node id request result = (.error e, request')) ↔
      afterCheck self peers request result.successor = none := by
  unfold PeerImpl.checkResult afterCheck
  dsimp only
  cases result.successor with
  | none => simp
  | some s =>
    by_cases hs : s = self
    · simp [hs]
    · cases hp : (peers request).getPredecessor s with
      | error e => exact iff_of_true ⟨e, request + 1, by simp [hs, hp]⟩ (by simp [hs, hp])
      | ok p => simp [hs, hp]

/-- The node that the helper returns is trusted and lies between the asked node and the id. -/
lemma helper_closestPreceding {node c : N} {distrusted : Finset N} {fuel request request' : ℕ}
    {askedId : IdType} {successor : Option N}
    (h : PeerImpl.iterate self info peers node id distrusted fuel request askedId =
      some (.ok ⟨some c, successor⟩, request')) :
    c ∉ distrusted ∧ Arc.Open (getId node) (getId c) id := by
  induction fuel generalizing request askedId with
  | zero => cases h
  | succ fuel ih =>
    rcases PeerImpl.iterate_cases h with
      ⟨e, -, herror⟩ | ⟨result, himpl, hresult, htrusted⟩ | ⟨_, _, _, -, -, hrest⟩
    · cases herror
    · obtain rfl := Except.ok.inj hresult
      rw [impl_eq_checkResult] at himpl
      exact ⟨htrusted c rfl, (checkResult_eq_ok_iff.mp ⟨_, himpl⟩).2.1⟩
    · exact ih hrest

lemma exists_question_of_iterate {node c : N} {distrusted : Finset N} {start : ℕ}
    {fuel request request' : ℕ} {askedId : IdType} {successor : Option N}
    (hquestion : Question self info peers id node distrusted start request askedId)
    (h : PeerImpl.iterate self info peers node id distrusted fuel request askedId =
      some (.ok ⟨some c, successor⟩, request')) :
    ∃ r a, Question self info peers id node distrusted start r a ∧
      (answer self info peers node r a).1.closestPreceding = some c := by
  induction fuel generalizing request askedId with
  | zero => cases h
  | succ fuel ih =>
    rcases PeerImpl.iterate_cases h with
      ⟨e, -, herror⟩ | ⟨result, himpl, hresult, -⟩ | ⟨_, _, _, himpl, hmem, hrest⟩
    · cases herror
    · obtain rfl := Except.ok.inj hresult
      rw [impl_eq_checkResult] at himpl
      exact ⟨_, _, hquestion, (checkResult_eq_ok_iff.mp ⟨_, himpl⟩).1⟩
    · exact ih (hquestion.retry himpl hmem) hrest

/-- Whoever is pushed has been named. -/
lemma named_of_helper {current c : N} {hops : List N} {distrusted : Finset N}
    {fuel request request' : ℕ} {successor : Option N}
    (h : PeerImpl.getClosestPrecedingHelper self info peers fuel request current id distrusted =
      some (.ok ⟨some c, successor⟩, request')) :
    Named self info peers id ⟨request, current :: hops, distrusted⟩ c := by
  obtain ⟨r, a, hquestion, hanswer⟩ := exists_question_of_iterate .first h
  exact ⟨current, hops, r, a, rfl, hquestion, hanswer⟩

/-! ## The invariant of the loop -/

/-- What holds before every iteration. -/
structure Inv (id : IdType) (pushes pops : ℕ) (st : State N) : Prop where
  /-- From the top down, the nodes are farther and farther from the id. -/
  ordered : st.hops.Pairwise fun x y => remaining id x < remaining id y
  trusted : ∀ x ∈ st.hops, x ∉ st.distrusted
  card_distrusted : st.distrusted.card = pops
  length_hops : st.hops.length + pops = pushes + 1

omit [DecidableEq N] in
/-- A node on the way to the id is closer to it. -/
lemma remaining_lt {x c : N} (h : Arc.Open (getId x) (getId c) id) :
    remaining id c < remaining id x :=
  arcLength_lt_right (N := IdType) h

omit [DecidableEq N] in
lemma Inv.nodup {pushes pops : ℕ} {st : State N} (h : Inv id pushes pops st) : st.hops.Nodup := by
  refine List.Pairwise.imp ?_ h.ordered
  intro x y hlt heq
  exact hlt.ne (congrArg _ heq)

omit [DecidableEq N] in
/-- A node that lies between the top of the stack and the id can be pushed. -/
lemma Inv.push {pushes pops request request' : ℕ} {current c : N} {hops : List N}
    {distrusted : Finset N} (h : Inv id pushes pops ⟨request, current :: hops, distrusted⟩)
    (hc : c ∉ distrusted) (hopen : Arc.Open (getId current) (getId c) id) :
    Inv id (pushes + 1) pops ⟨request', c :: current :: hops, distrusted⟩ where
  ordered := by
    have hlt := remaining_lt hopen
    refine List.pairwise_cons.mpr ⟨?_, h.ordered⟩
    intro y hy
    rcases List.mem_cons.mp hy with rfl | hy
    · exact hlt
    · exact hlt.trans ((List.pairwise_cons.mp h.ordered).1 y hy)
  trusted := by
    intro x hx
    rcases List.mem_cons.mp hx with rfl | hx
    · exact hc
    · exact h.trusted x hx
  card_distrusted := h.card_distrusted
  length_hops := by
    have hlength := h.length_hops
    simp only [List.length_cons] at hlength ⊢
    omega

/-- The top of the stack can be popped and distrusted. -/
lemma Inv.pop {pushes pops request request' : ℕ} {current : N} {hops : List N}
    {distrusted : Finset N} (h : Inv id pushes pops ⟨request, current :: hops, distrusted⟩) :
    Inv id pushes (pops + 1) ⟨request', hops, insert current distrusted⟩ where
  ordered := (List.pairwise_cons.mp h.ordered).2
  trusted := by
    intro x hx hmem
    rcases Finset.mem_insert.mp hmem with rfl | hmem
    · exact (List.nodup_cons.mp h.nodup).1 hx
    · exact h.trusted x (List.mem_cons_of_mem _ hx) hmem
  card_distrusted := by
    rw [Finset.card_insert_of_notMem (h.trusted current List.mem_cons_self)]
    exact congrArg (· + 1) h.card_distrusted
  length_hops := by
    have hlength := h.length_hops
    simp only [List.length_cons] at hlength ⊢
    omega

/-- The invariant holds in every state that a lookup comes to. -/
lemma Reaches.inv {pushes pops : ℕ} {st : State N}
    (h : Reaches self info peers id pushes pops st) : Inv id pushes pops st := by
  induction h with
  | start => exact ⟨List.pairwise_singleton _ _, by simp, rfl, rfl⟩
  | push _ hhelp ih =>
    obtain ⟨hc, hopen⟩ := helper_closestPreceding hhelp
    exact ih.push hc hopen
  | pop _ _ ih => exact ih.pop

/-- Every node that was ever on the stack is the asking node or has been named. -/
lemma Reaches.eq_or_mem {pushes pops : ℕ} {st : State N}
    (h : Reaches self info peers id pushes pops st) {K : Finset N}
    (hK : ∀ st c, Reached self info peers id st → Named self info peers id st c → c ∈ K) {x : N}
    (hx : x ∈ st.hops ∨ x ∈ st.distrusted) : x = self ∨ x ∈ K := by
  induction h with
  | start =>
    rcases hx with hx | hx
    · exact Or.inl (List.mem_singleton.mp hx)
    · exact absurd hx (Finset.notMem_empty x)
  | push hreach hhelp ih =>
    rcases hx with hx | hx
    · rcases List.mem_cons.mp hx with rfl | hx
      · exact Or.inr (hK _ _ ⟨_, _, hreach⟩ (named_of_helper hhelp))
      · exact ih (Or.inl hx)
    · exact ih (Or.inr hx)
  | pop hreach _ ih =>
    rcases hx with hx | hx
    · exact ih (Or.inl (List.mem_cons_of_mem _ hx))
    · rcases Finset.mem_insert.mp hx with rfl | hx
      · exact ih (Or.inl List.mem_cons_self)
      · exact ih (Or.inr hx)

/-- The pushes and pops are bounded by the number of nodes that are named. -/
lemma Reaches.count_le {pushes pops : ℕ} {st : State N}
    (h : Reaches self info peers id pushes pops st) {K : Finset N}
    (hK : ∀ st c, Reached self info peers id st → Named self info peers id st c → c ∈ K) :
    pushes ≤ K.card ∧ pops ≤ K.card + 1 := by
  have hinv := h.inv
  have hdisjoint : Disjoint st.hops.toFinset st.distrusted := by
    rw [Finset.disjoint_left]
    intro x hx
    exact hinv.trusted x (List.mem_toFinset.mp hx)
  have hsub : st.hops.toFinset ∪ st.distrusted ⊆ insert self K := by
    intro x hx
    rw [Finset.mem_union, List.mem_toFinset] at hx
    exact Finset.mem_insert.mpr (h.eq_or_mem hK hx)
  have hcard := (Finset.card_le_card hsub).trans (Finset.card_insert_le self K)
  rw [Finset.card_union_of_disjoint hdisjoint, List.toFinset_card_of_nodup hinv.nodup,
    hinv.card_distrusted, hinv.length_hops] at hcard
  have hlength := hinv.length_hops
  exact ⟨by omega, by omega⟩

end HopLoop

open HopLoop

/-- Before every iteration of the hop loop, whatever the other peers reply: the stack leads clockwise
towards the id, no node is on it twice, and none of its nodes is distrusted; a node that is pushed is
not distrusted and a node that is popped was not distrusted before.  With `K` the nodes that are
named, by the other peers or by the asking node from its own fingers, there are at most `K.card`
pushes and `K.card + 1` pops. -/
theorem hopLoop_invariant (self : N) (info : NodeInformation N) (peers : ℕ → Peers N) (id : IdType)
    {pushes pops : ℕ} {st : State N} (h : Reaches self info peers id pushes pops st) :
    (st.hops.Pairwise fun x y => remaining id x < remaining id y) ∧ st.hops.Nodup ∧
      (∀ x ∈ st.hops, x ∉ st.distrusted) ∧
      (∀ current hops fuel result request', st.hops = current :: hops →
        PeerImpl.getClosestPrecedingHelper self info peers fuel st.request current id
          st.distrusted = some (.ok result, request') →
        (∀ c, result.closestPreceding = some c → c ∉ st.distrusted) ∧
          (result.closestPreceding = none → result.successor = none →
            current ∉ st.distrusted)) ∧
      ∀ K : Finset N,
        (∀ st c, Reached self info peers id st → Named self info peers id st c → c ∈ K) →
        pushes ≤ K.card ∧ pops ≤ K.card + 1 := by
  refine ⟨h.inv.ordered, h.inv.nodup, h.inv.trusted, ?_, fun K hK => h.count_le hK⟩
  rintro current hops fuel ⟨closest, successor⟩ request' hhops hhelp
  constructor
  · rintro c rfl
    exact (helper_closestPreceding hhelp).1
  · intro _ _
    exact h.inv.trusted current (hhops ▸ List.mem_cons_self)

/-- The peers name nobody. -/
def silentPeers : ℕ → Peers IdType :=
  fun _ => ⟨fun _ _ => .ok ⟨none, none⟩, fun _ => .ok none⟩

/-- A node whose only finger is `20…`. -/
def oneFinger : NodeInformation IdType := NodeInformation.initial.setSuccessor (some (idOf 0x20))

lemma reaches_oneFinger : Reaches (idOf 0x10) oneFinger silentPeers (idOf 0x80) 1 0
    ⟨1, [idOf 0x20, idOf 0x10], ∅⟩ := by
  have hhelp : PeerImpl.getClosestPrecedingHelper (idOf 0x10) oneFinger silentPeers 1 0 (idOf 0x10)
      (idOf 0x80) ∅ = some (.ok ⟨some (idOf 0x20), none⟩, 1) := by decide +kernel
  exact Reaches.start.push hhelp

/-- The lookup of `80…` at the node `10…` after one push. -/
theorem hopLoop_invariant_oneFinger :
    ∃ st, Reaches (idOf 0x10) oneFinger silentPeers (idOf 0x80) 1 0 st ∧ st.hops.Nodup ∧
      ∀ x ∈ st.hops, x ∉ st.distrusted := by
  have hinv := hopLoop_invariant _ _ _ _ reaches_oneFinger
  exact ⟨_, reaches_oneFinger, hinv.2.1, hinv.2.2.1⟩

/-- The asking node pushes its own finger although no reply of another peer names a node. -/
theorem push_without_reply :
    (∀ request node askedId,
        (silentPeers request).getClosestPreceding node askedId = .ok ⟨none, none⟩) ∧
      (∀ request node, (silentPeers request).getPredecessor node = .ok none) ∧
      ∃ st, Reaches (idOf 0x10) oneFinger silentPeers (idOf 0x80) 1 2 st ∧
        ¬ (1 ≤ (∅ : Finset IdType).card ∧ 2 ≤ (∅ : Finset IdType).card + 1) := by
  have hpop : PeerImpl.getClosestPrecedingHelper (idOf 0x10) oneFinger silentPeers 1 1 (idOf 0x20)
      (idOf 0x80) ∅ = some (.ok ⟨none, none⟩, 2) := by decide +kernel
  have hpop' : PeerImpl.getClosestPrecedingHelper (idOf 0x10) oneFinger silentPeers 2 2 (idOf 0x10)
      (idOf 0x80) {idOf 0x20} = some (.ok ⟨none, none⟩, 4) := by decide +kernel
  exact ⟨fun _ _ _ => rfl, fun _ _ => rfl, _, (reaches_oneFinger.pop hpop).pop hpop', by decide⟩

end ChordPlusPlus
