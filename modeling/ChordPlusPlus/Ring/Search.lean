import ChordPlusPlus.Ring.HopRun

/-!
# The search in terms of the replies

When each peer always gives the same reply to the same question, the course of the hop loop is
determined by the replies alone.  `Asks` lists the questions that the search puts to the nodes and
`Barren` the questions from which it comes back without a result; neither knows the stack, the set of
distrusted nodes or the numbers of the requests.  The loop follows them: what it distrusts is barren and
what it has on its stack is asked (`Reaches.sound`), and it comes to every question that is asked
(`Asks.exists_reached`).
-/

namespace ChordPlusPlus

variable {N : Type*} [Endpoint N] [DecidableEq N]

namespace HopLoop

section Definitions

variable (self : N) (info : NodeInformation N) (peers : Peers N) (id : IdType)

/-- The reply of `x` to the question for the closest node preceding `a`.  A request that fails counts as
a reply without nodes. -/
def reply (x : N) (a : IdType) : ClosestPrecedingPair N :=
  if x = self then PeerImpl.serveClosestPreceding self info a
  else match peers.getClosestPreceding x a with
    | .ok result => result
    | .error _ => ⟨none, none⟩

/-- The node that `x` names, if it lies between `x` and the id. -/
def closest (x : N) (a : IdType) : Option N :=
  (reply self info peers x a).closestPreceding.filter fun c =>
    isInRangeLoop (getId c) (getId x) id false false

/-- The direct successor in the reply does not answer. -/
def Fails (x : N) (a : IdType) : Prop :=
  ∃ s e, (reply self info peers x a).successor = some s ∧ s ≠ self ∧
    peers.getPredecessor s = .error e

/-- The direct successor in the reply passes the check. -/
def Passes (x : N) (a : IdType) : Prop :=
  ∃ s p, (reply self info peers x a).successor = some s ∧ s ≠ self ∧
    peers.getPredecessor s = .ok (some p) ∧ Arc.HalfOpen (getId p) id (getId x)

/-- The search that asks `x` for the closest node preceding `a` comes back without a result: `x` names
nobody and its direct successor does not pass, or the search comes back from the node that it names, and
then from the question for the one before. -/
inductive Barren : N → IdType → Prop
  | nobody {x : N} {a : IdType} : ¬ Fails self info peers x a → closest self info peers id x a = none →
      ¬ Passes self info peers id x a → Barren x a
  | skip {x c : N} {a : IdType} : ¬ Fails self info peers x a →
      closest self info peers id x a = some c → Barren c id → Barren x (getId c) → Barren x a

/-- The search asks `x` for the closest node preceding `a`: it starts at the asking node, goes on to the
node that is named, and when it comes back from there, asks for the one before. -/
inductive Asks : N → IdType → Prop
  | start : Asks self id
  | push {x c : N} {a : IdType} : Asks x a → ¬ Fails self info peers x a →
      closest self info peers id x a = some c → Asks c id
  | skip {x c : N} {a : IdType} : Asks x a → ¬ Fails self info peers x a →
      closest self info peers id x a = some c → Barren self info peers id c id → Asks x (getId c)

/-- Some barren nodes are such that `x` names one of them when it is asked for the closest node
preceding the id, and again one of them when it is asked for the closest node preceding any of them. -/
def Trap (x : N) : Prop :=
  ∃ K : Set N, (∀ c ∈ K, Barren self info peers id c id) ∧
    (¬ Fails self info peers x id ∧ ∃ c ∈ K, closest self info peers id x id = some c) ∧
    ∀ c ∈ K, ¬ Fails self info peers x (getId c) ∧
      ∃ d ∈ K, closest self info peers id x (getId c) = some d

end Definitions

variable {self : N} {info : NodeInformation N} {peers : Peers N} {id : IdType} {x c : N} {a : IdType}

/-! ## One question -/

lemma answer_eq_reply (x : N) (request : ℕ) (a : IdType) :
    (answer self info (fun _ => peers) x request a).1 = reply self info peers x a := by
  unfold answer reply
  split_ifs
  · rfl
  · cases peers.getClosestPreceding x a <;> rfl

/-- The result of a question whose direct successor answers. -/
lemma impl_of_not_fails (h : ¬ Fails self info peers x a) (request : ℕ) :
    ∃ successor request', PeerImpl.impl self info (fun _ => peers) x id request a =
        (.ok ⟨closest self info peers id x a, successor⟩, request') ∧
      (successor = none ↔ ¬ Passes self info peers id x a) := by
  rw [impl_eq_checkResult, answer_eq_reply]
  generalize (answer self info (fun _ => peers) x request a).2 = request₁
  unfold PeerImpl.checkResult
  cases hs : (reply self info peers x a).successor with
  | none => exact ⟨none, request₁, by simp [closest], by simp [Passes, hs]⟩
  | some s =>
    by_cases hself : s = self
    · exact ⟨none, request₁, by simp [closest, hself], by simp [Passes, hs, hself]⟩
    · cases hp : peers.getPredecessor s with
      | error e => exact absurd ⟨s, e, hs, hself, hp⟩ h
      | ok p =>
        cases p with
        | none =>
          exact ⟨none, request₁ + 1, by simp [closest, hself, hp], by simp [Passes, hs, hp]⟩
        | some p =>
          by_cases hin : Arc.HalfOpen (getId p) id (getId x)
          · exact ⟨some s, request₁ + 1, by simp [closest, hself, hp, hin],
              by simp [Passes, hs, hself, hp, hin]⟩
          · exact ⟨none, request₁ + 1, by simp [closest, hself, hp, hin],
              by simp [Passes, hs, hp, hin]⟩

/-- The question fails when the direct successor does not answer. -/
lemma impl_of_fails (h : Fails self info peers x a) (request : ℕ) :
    ∃ e request', PeerImpl.impl self info (fun _ => peers) x id request a = (.error e, request') := by
  obtain ⟨s, e, hs, hself, hp⟩ := h
  rw [impl_eq_checkResult, answer_eq_reply, checkResult_eq_error_iff]
  simp [afterCheck, hs, hself, hp]

/-- What a result says about the reply. -/
lemma of_impl_eq_ok {request request' : ℕ} {result : ClosestPrecedingPair N}
    (h : PeerImpl.impl self info (fun _ => peers) x id request a = (.ok result, request')) :
    ¬ Fails self info peers x a ∧ closest self info peers id x a = result.closestPreceding ∧
      (result.successor = none ↔ ¬ Passes self info peers id x a) := by
  by_cases hfails : Fails self info peers x a
  · obtain ⟨e, request'', herror⟩ := @impl_of_fails N _ _ self info peers id x a hfails request
    rw [herror] at h
    cases h
  · obtain ⟨successor, request'', hok, hpasses⟩ :=
      @impl_of_not_fails N _ _ self info peers id x a hfails request
    rw [hok] at h
    cases h
    exact ⟨hfails, rfl, hpasses⟩

/-! ## What the loop does is asked -/

section Sound

variable {D : Finset N} {fuel request request' : ℕ}

/-- The helper returns a node that is asked next. -/
lemma asks_of_iterate (hD : ∀ d ∈ D, Barren self info peers id d id) {successor : Option N}
    (hx : Asks self info peers id x a)
    (h : PeerImpl.iterate self info (fun _ => peers) x id D fuel request a =
      some (.ok ⟨some c, successor⟩, request')) : Asks self info peers id c id := by
  induction fuel generalizing request a with
  | zero => cases h
  | succ fuel ih =>
    rcases PeerImpl.iterate_cases h with
      ⟨e, -, herror⟩ | ⟨result, himpl, hresult, -⟩ | ⟨d, _, _, himpl, hmem, hrest⟩
    · cases herror
    · obtain rfl := Except.ok.inj hresult
      obtain ⟨hfails, hclosest, -⟩ := of_impl_eq_ok himpl
      exact hx.push hfails hclosest
    · obtain ⟨hfails, hclosest, -⟩ := of_impl_eq_ok himpl
      exact ih (hx.skip hfails hclosest (hD d hmem)) hrest

/-- When the helper returns nothing, the question is barren. -/
lemma barren_of_iterate (hD : ∀ d ∈ D, Barren self info peers id d id)
    (h : PeerImpl.iterate self info (fun _ => peers) x id D fuel request a =
      some (.ok ⟨none, none⟩, request')) : Barren self info peers id x a := by
  induction fuel generalizing request a with
  | zero => cases h
  | succ fuel ih =>
    rcases PeerImpl.iterate_cases h with
      ⟨e, -, herror⟩ | ⟨result, himpl, hresult, -⟩ | ⟨d, _, _, himpl, hmem, hrest⟩
    · cases herror
    · obtain rfl := Except.ok.inj hresult
      obtain ⟨hfails, hclosest, hpasses⟩ := of_impl_eq_ok himpl
      exact .nobody hfails hclosest (hpasses.mp rfl)
    · obtain ⟨hfails, hclosest, -⟩ := of_impl_eq_ok himpl
      exact .skip hfails hclosest (hD d hmem) (ih hrest)

end Sound

/-- What the loop distrusts is barren, and what it has on its stack is asked. -/
lemma Reaches.sound {pushes pops : ℕ} {st : State N}
    (h : Reaches self info (fun _ => peers) id pushes pops st) :
    (∀ d ∈ st.distrusted, Barren self info peers id d id) ∧
      ∀ x ∈ st.hops, Asks self info peers id x id := by
  induction h with
  | start => exact ⟨by simp, by simpa using .start⟩
  | push _ hhelp ih =>
    obtain ⟨hbarren, hasks⟩ := ih
    refine ⟨hbarren, ?_⟩
    intro y hy
    rcases List.mem_cons.mp hy with rfl | hy
    · exact asks_of_iterate hbarren (hasks _ List.mem_cons_self) hhelp
    · exact hasks y hy
  | pop _ hhelp ih =>
    obtain ⟨hbarren, hasks⟩ := ih
    refine ⟨?_, fun y hy => hasks y (List.mem_cons_of_mem _ hy)⟩
    intro d hd
    rcases Finset.mem_insert.mp hd with rfl | hd
    · exact barren_of_iterate hbarren hhelp
    · exact hbarren d hd

/-! ## The loop comes to every question -/

section Complete

variable {D D' : Finset N} {hops : List N} {start r : ℕ}

/-- A question of an iteration leads to the result of the helper. -/
lemma Question.helper_eq (h : Question self info (fun _ => peers) id x D start r a) {fuel : ℕ}
    {res : Promise (ClosestPrecedingPair N) × ℕ}
    (hres : PeerImpl.iterate self info (fun _ => peers) x id D fuel r a = some res) :
    ∃ fuel', PeerImpl.getClosestPrecedingHelper self info (fun _ => peers) fuel' start x id D =
      some res := by
  induction h generalizing fuel with
  | first => exact ⟨fuel, hres⟩
  | retry _ himpl hmem ih =>
    refine @ih (fuel + 1) ?_
    rw [PeerImpl.iterate, himpl]
    simpa [hmem] using hres

/-- A later iteration, with more distrusted nodes, asks the same questions again. -/
lemma Question.mono (hsub : D ⊆ D') (h : Question self info (fun _ => peers) id x D start r a)
    (start' : ℕ) : ∃ r', Question self info (fun _ => peers) id x D' start' r' a := by
  induction h with
  | first => exact ⟨start', .first⟩
  | retry _ himpl hmem ih =>
    obtain ⟨r', hquestion⟩ := ih
    obtain ⟨hfails, hclosest, -⟩ := of_impl_eq_ok himpl
    obtain ⟨successor, r'', himpl', -⟩ :=
      @impl_of_not_fails N _ _ self info peers id _ _ hfails r'
    rw [hclosest] at himpl'
    exact ⟨r'', hquestion.retry himpl' (hsub hmem)⟩

/-- If the named node is distrusted, the node before it is asked for. -/
lemma Question.skip (h : Question self info (fun _ => peers) id x D start r a)
    (hfails : ¬ Fails self info peers x a) (hc : closest self info peers id x a = some c)
    (hmem : c ∈ D) : ∃ r', Question self info (fun _ => peers) id x D start r' (getId c) := by
  obtain ⟨successor, r', himpl, -⟩ := @impl_of_not_fails N _ _ self info peers id x a hfails r
  rw [hc] at himpl
  exact ⟨r', h.retry himpl hmem⟩

/-- If the named node is trusted, it is pushed. -/
lemma Question.push (h : Question self info (fun _ => peers) id x D start r a)
    (hreached : Reached self info (fun _ => peers) id ⟨start, x :: hops, D⟩)
    (hfails : ¬ Fails self info peers x a) (hc : closest self info peers id x a = some c)
    (hmem : c ∉ D) : ∃ r', Reached self info (fun _ => peers) id ⟨r', c :: x :: hops, D⟩ := by
  obtain ⟨successor, r', himpl, -⟩ := @impl_of_not_fails N _ _ self info peers id x a hfails r
  rw [hc] at himpl
  have hiterate : PeerImpl.iterate self info (fun _ => peers) x id D 1 r a =
      some (.ok ⟨some c, successor⟩, r') := by
    rw [PeerImpl.iterate, himpl]
    simp [hmem]
  obtain ⟨fuel, hhelp⟩ := h.helper_eq hiterate
  obtain ⟨pushes, pops, hreach⟩ := hreached
  exact ⟨r', _, _, hreach.push hhelp⟩

/-- If nobody is named and the direct successor does not pass, the node is popped. -/
lemma Question.pop (h : Question self info (fun _ => peers) id x D start r a)
    (hreached : Reached self info (fun _ => peers) id ⟨start, x :: hops, D⟩)
    (hfails : ¬ Fails self info peers x a) (hc : closest self info peers id x a = none)
    (hpasses : ¬ Passes self info peers id x a) :
    ∃ r', Reached self info (fun _ => peers) id ⟨r', hops, insert x D⟩ := by
  obtain ⟨successor, r', himpl, hsuccessor⟩ :=
    @impl_of_not_fails N _ _ self info peers id x a hfails r
  obtain rfl := hsuccessor.mpr hpasses
  rw [hc] at himpl
  have hiterate : PeerImpl.iterate self info (fun _ => peers) x id D 1 r a =
      some (.ok ⟨none, none⟩, r') := by
    rw [PeerImpl.iterate, himpl]
  obtain ⟨fuel, hhelp⟩ := h.helper_eq hiterate
  obtain ⟨pushes, pops, hreach⟩ := hreached
  exact ⟨r', _, _, hreach.pop hhelp⟩

/-- From a barren question the loop comes back, and distrusts the node. -/
lemma Barren.returns (hbarren : Barren self info peers id x a)
    (hreached : Reached self info (fun _ => peers) id ⟨start, x :: hops, D⟩)
    (h : Question self info (fun _ => peers) id x D start r a) :
    ∃ r' D', Reached self info (fun _ => peers) id ⟨r', hops, D'⟩ ∧ D ⊆ D' ∧ x ∈ D' := by
  induction hbarren generalizing hops D start r with
  | nobody hfails hc hpasses =>
    obtain ⟨r', hpop⟩ := h.pop hreached hfails hc hpasses
    exact ⟨r', _, hpop, Finset.subset_insert _ _, Finset.mem_insert_self _ _⟩
  | @skip x c a hfails hc _ _ ih₁ ih₂ =>
    by_cases hmem : c ∈ D
    · obtain ⟨r', hskip⟩ := h.skip hfails hc hmem
      exact ih₂ hreached hskip
    · -- The loop explores the named node first.
      obtain ⟨r', hpush⟩ := h.push hreached hfails hc hmem
      obtain ⟨start', D', hback, hsub, hc'⟩ := ih₁ hpush .first
      obtain ⟨r'', hagain⟩ := h.mono hsub start'
      obtain ⟨r₃, hskip⟩ := hagain.skip hfails hc hc'
      obtain ⟨r₄, D'', hend, hsub', hx⟩ := ih₂ hback hskip
      exact ⟨r₄, D'', hend, hsub.trans hsub', hx⟩

/-- Every distrusted node was once on top of the stack. -/
lemma Reaches.exists_top {peers : ℕ → Peers N} {pushes pops : ℕ} {st : State N}
    (h : Reaches self info peers id pushes pops st) {d : N} (hd : d ∈ st.distrusted) :
    ∃ start hops D, Reached self info peers id ⟨start, d :: hops, D⟩ := by
  induction h with
  | start => exact absurd hd (Finset.notMem_empty d)
  | push _ _ ih => exact ih hd
  | pop hreach _ ih =>
    rcases Finset.mem_insert.mp hd with rfl | hd
    · exact ⟨_, _, _, _, _, hreach⟩
    · exact ih hd

/-- The loop comes to every question that is asked. -/
lemma Asks.exists_reached (h : Asks self info peers id x a) :
    ∃ start hops D r, Reached self info (fun _ => peers) id ⟨start, x :: hops, D⟩ ∧
      Question self info (fun _ => peers) id x D start r a := by
  induction h with
  | start => exact ⟨0, [], ∅, 0, ⟨0, 0, .start⟩, .first⟩
  | @push x c a _ hfails hc ih =>
    obtain ⟨start, hops, D, r, hreached, hquestion⟩ := ih
    by_cases hmem : c ∈ D
    · obtain ⟨_, _, hreach⟩ := hreached
      obtain ⟨start', hops', D', htop⟩ := hreach.exists_top hmem
      exact ⟨start', hops', D', start', htop, .first⟩
    · obtain ⟨r', hpush⟩ := hquestion.push hreached hfails hc hmem
      exact ⟨r', _, D, r', hpush, .first⟩
  | @skip x c a _ hfails hc hbarren ih =>
    obtain ⟨start, hops, D, r, hreached, hquestion⟩ := ih
    by_cases hmem : c ∈ D
    · obtain ⟨r', hskip⟩ := hquestion.skip hfails hc hmem
      exact ⟨start, hops, D, r', hreached, hskip⟩
    · obtain ⟨r', hpush⟩ := hquestion.push hreached hfails hc hmem
      obtain ⟨start', D', hback, hsub, hc'⟩ := hbarren.returns hpush .first
      obtain ⟨r'', hagain⟩ := hquestion.mono hsub start'
      obtain ⟨r₃, hskip⟩ := hagain.skip hfails hc hc'
      exact ⟨start', hops, D', r₃, hback, hskip⟩

end Complete

end HopLoop

end ChordPlusPlus
