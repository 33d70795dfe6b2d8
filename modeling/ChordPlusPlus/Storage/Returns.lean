import ChordPlusPlus.Storage.Concurrent

/-!
# Handlers return

On a settled ring the handler of a request has done its work after a number of its own steps that depends
on the size of the ring only, and the replication loop of a put handler ends (`requests_return`).  Neither
the maintenance of the nodes nor their data cleaners hold them up, and it does not matter which items have
expired.

A get, and a put without replicas, may then return.  A put with replicas assigns its replication loop to
`m_replicationFuture` and may have to wait for the loop that it replaces, but for nothing else: that is a
loop of the same node, which ends after a bounded number of its own steps (`FutureInv`).

Each reply that a lookup gets leaves fewer nodes of the ring ahead of it (`Stage.Sound.rank_next`),
although the fingers that it is told may change between one reply and the next.
-/

namespace ChordPlusPlus

open Concurrency Run

variable {N : Type*} [Endpoint N]

/-! ## The steps of one handler -/

/-- The steps after which the work of the handler of an operation is done, on a ring of `n` nodes. -/
def ClientOp.steps (n : ℕ) : ClientOp → ℕ
  | .put _ _ => 2 * n + 4
  | .get _ => 4 * n + 8

/-- The steps of the replication loop from round `i` on, on a ring of `n` nodes. -/
def PutThread.loopSteps (n : ℕ) (thread : PutThread N) (i : ℕ) : ℕ :=
  (thread.replication.toNat - 1 - i) * (2 * n + 4) + 1

/-- The steps of a put handler, with those of its replication loop. -/
def PutThread.steps (n : ℕ) (thread : PutThread N) : ℕ :=
  thread.loopSteps n 0 + (2 * n + 4)

/-- A put handler deals with nodes of the ring. -/
def PutThread.Sound (sha256 : Bytes → IdType) (ring : Finset N) (thread : PutThread N) : Prop :=
  thread.self ∈ ring ∧
    match thread.point with
    | .lookup stage => stage.Sound ring (sha256 thread.key.bytes)
    | .replicaLookup i _ stage => stage.Sound ring (sha256 (replicaKey thread.key (i + 1)))
    | .store node | .replicaStore _ _ node => node ∈ ring
    | .entry | .replica _ _ | .finished => True

/-- The steps that a put handler has left, at most. -/
def PutThread.rank (sha256 : Bytes → IdType) (ring : Finset N) (thread : PutThread N) : ℕ :=
  match thread.point with
  | .entry => thread.steps ring.card
  | .lookup stage => thread.loopSteps ring.card 0 + stage.rank ring (sha256 thread.key.bytes) + 2
  | .store _ => thread.loopSteps ring.card 0 + 1
  | .replica i _ => thread.loopSteps ring.card i
  | .replicaLookup i _ stage =>
      thread.loopSteps ring.card (i + 1) +
        stage.rank ring (sha256 (replicaKey thread.key (i + 1))) + 2
  | .replicaStore i _ _ => thread.loopSteps ring.card (i + 1) + 1
  | .finished => 0

/-- A get handler deals with nodes of the ring. -/
def GetThread.Sound (sha256 : Bytes → IdType) (ring : Finset N) (thread : GetThread N) : Prop :=
  thread.self ∈ ring ∧
    match thread.point with
    | .lookup stage => stage.Sound ring (sha256 thread.key.bytes)
    | .replicaLookup i stage => stage.Sound ring (sha256 (replicaKey thread.key i))
    | _ => True

/-- The steps that a get handler has left before it may return, at most.  One replica is enough: its
lookup finds a node. -/
def GetThread.rank (sha256 : Bytes → IdType) (ring : Finset N) (thread : GetThread N) : ℕ :=
  match thread.point with
  | .lookup stage => stage.rank ring (sha256 thread.key.bytes) + (2 * ring.card + 7)
  | .ask _ => 2 * ring.card + 6
  | .test _ => 2 * ring.card + 5
  | .loop _ => 2 * ring.card + 4
  | .replicaLookup i stage => stage.rank ring (sha256 (replicaKey thread.key i)) + 2
  | .replicaAsk _ _ => 1
  | .reply _ | .returned => 0

section Handlers

variable [DecidableEq N] {sha256 : Bytes → IdType} {replicationLimit : UInt8} {ring : Finset N}
  {net : Network N}

namespace PutThread

variable {thread : PutThread N}

omit [Endpoint N] [DecidableEq N] in
lemma loopSteps_succ {n i : ℕ} (hi : i < thread.replication.toNat - 1) :
    thread.loopSteps n i = thread.loopSteps n (i + 1) + (2 * n + 4) := by
  obtain ⟨k, hk⟩ : ∃ k, thread.replication.toNat - 1 - i = k + 1 :=
    ⟨thread.replication.toNat - 1 - i - 1, by omega⟩
  have hk' : thread.replication.toNat - 1 - (i + 1) = k := by omega
  rw [loopSteps, loopSteps, hk, hk', Nat.succ_mul]
  omega

omit [DecidableEq N] in
lemma rank_afterStore_le (successor : Option N) :
    rank sha256 ring { thread with point := thread.afterStore successor } ≤
      thread.loopSteps ring.card 0 := by
  unfold afterStore
  split_ifs
  · exact Nat.le_refl _
  · exact Nat.zero_le _

omit [DecidableEq N] in
lemma sound_afterStore (hself : thread.self ∈ ring) (successor : Option N) :
    Sound sha256 ring { thread with point := thread.afterStore successor } := by
  refine ⟨hself, ?_⟩
  unfold afterStore
  split_ifs
  · trivial
  · trivial

/-- A step brings a put handler closer to its end. -/
lemma Sound.next (hideal : IsIdeal net ring) (hsound : thread.Sound sha256 ring) :
    Sound sha256 ring
        { thread with point := thread.next sha256 replicationLimit net.method net.info } ∧
      rank sha256 ring
        { thread with point := thread.next sha256 replicationLimit net.method net.info } ≤
          thread.rank sha256 ring - 1 := by
  obtain ⟨hself, hpoint⟩ := hsound
  have hstart : ∀ id, (Stage.start thread.self).rank ring id ≤ 2 * ring.card + 1 :=
    fun _ => Stage.rank_start_le hself
  cases hp : thread.point with
  | entry =>
    have hid := hstart (sha256 thread.key.bytes)
    simp only [PutThread.next, Sound, rank, steps, hp]
    refine ⟨⟨hself, hself⟩, ?_⟩
    simp only [loopSteps]
    omega
  | lookup stage =>
    rw [hp] at hpoint
    rcases Stage.Sound.cases hideal hpoint with ⟨node, rfl, hown⟩ | ⟨hstage, hnext⟩
    · simp only [PutThread.next, Sound, rank, hp]
      refine ⟨⟨hself, hown.mem⟩, ?_⟩
      simp only [loopSteps]
      omega
    · have hless := Stage.Sound.rank_next hideal hpoint hstage
      rw [next_lookup hp hstage]
      simp only [Sound, rank, hp]
      refine ⟨⟨hself, hnext⟩, ?_⟩
      simp only [loopSteps]
      omega
  | store node =>
    have hnext : thread.next sha256 replicationLimit net.method net.info =
        thread.afterStore (some node) := by simp only [PutThread.next, hp]
    rw [hnext]
    refine ⟨sound_afterStore hself _, (rank_afterStore_le _).trans ?_⟩
    simp only [rank, hp]
    exact Nat.le_refl _
  | replica i stored =>
    simp only [PutThread.next, hp]
    split_ifs with hi
    · have hid := hstart (sha256 (replicaKey thread.key (i + 1)))
      have hround := @loopSteps_succ _ thread ring.card i hi
      simp only [Sound, rank, hp]
      refine ⟨⟨hself, hself⟩, ?_⟩
      simp only [loopSteps] at hround ⊢
      omega
    · exact ⟨⟨hself, trivial⟩, Nat.zero_le _⟩
  | replicaLookup i stored stage =>
    rw [hp] at hpoint
    rcases Stage.Sound.cases hideal hpoint with ⟨node, rfl, hown⟩ | ⟨hstage, hnext⟩
    · simp only [PutThread.next, hp]
      cases Network.addCopy replicationLimit (stored (getId node)) with
      | none =>
        simp only [Sound, rank, hp]
        refine ⟨⟨hself, trivial⟩, ?_⟩
        simp only [loopSteps]
        omega
      | some copies =>
        simp only [Sound, rank, hp]
        refine ⟨⟨hself, hown.mem⟩, ?_⟩
        simp only [loopSteps]
        omega
    · have hless := Stage.Sound.rank_next hideal hpoint hstage
      rw [next_replicaLookup hp hstage]
      simp only [Sound, rank, hp]
      refine ⟨⟨hself, hnext⟩, ?_⟩
      simp only [loopSteps]
      omega
  | replicaStore i stored node =>
    simp only [PutThread.next, Sound, rank, hp]
    exact ⟨⟨hself, trivial⟩, Nat.le_refl _⟩
  | finished =>
    simp only [PutThread.next, Sound, rank, hp]
    exact ⟨⟨hself, trivial⟩, Nat.zero_le _⟩

omit [DecidableEq N] in
/-- With no more than the steps of the replication loop left, the item is stored. -/
lemma isStored_of_rank (h : thread.rank sha256 ring ≤ thread.loopSteps ring.card 0) :
    thread.isStored = true := by
  unfold isStored
  cases hp : thread.point with
  | entry =>
    simp only [rank, steps, hp] at h
    omega
  | lookup | store =>
    simp only [rank, hp] at h
    omega
  | replica | replicaLookup | replicaStore | finished => rfl

omit [DecidableEq N] in
lemma finished_of_rank (h : thread.rank sha256 ring = 0) : thread.point = .finished := by
  cases hp : thread.point with
  | finished => rfl
  | _ => simp [rank, steps, loopSteps, hp] at h

end PutThread

namespace GetThread

variable {thread : GetThread N}

/-- A step brings a get handler closer to its return. -/
lemma Sound.next (hideal : IsIdeal net ring) (hsound : thread.Sound sha256 ring) (average : UInt8) :
    Sound sha256 ring
        { thread with point := thread.next sha256 net.method net.info average } ∧
      rank sha256 ring
        { thread with point := thread.next sha256 net.method net.info average } ≤
          thread.rank sha256 ring - 1 := by
  obtain ⟨hself, hpoint⟩ := hsound
  cases hp : thread.point with
  | lookup stage =>
    rw [hp] at hpoint
    rcases Stage.Sound.cases hideal hpoint with ⟨node, rfl, hown⟩ | ⟨hstage, hnext⟩
    · simp only [GetThread.next, Sound, rank, hp]
      refine ⟨⟨hself, trivial⟩, ?_⟩
      omega
    · have hless := Stage.Sound.rank_next hideal hpoint hstage
      rw [next_lookup hp hstage]
      simp only [Sound, rank, hp]
      refine ⟨⟨hself, hnext⟩, ?_⟩
      omega
  | ask node =>
    simp only [GetThread.next, Sound, rank, hp]
    exact ⟨⟨hself, trivial⟩, Nat.le_refl _⟩
  | test response =>
    simp only [GetThread.next, hp]
    split_ifs
    · simp only [Sound, rank, hp]
      exact ⟨⟨hself, trivial⟩, Nat.le_refl _⟩
    · exact ⟨⟨hself, trivial⟩, Nat.zero_le _⟩
  | loop i =>
    simp only [GetThread.next, hp]
    split_ifs
    · have hid := @Stage.rank_start_le N _ ring (sha256 (replicaKey thread.key i)) thread.self hself
      simp only [Sound, rank, hp]
      refine ⟨⟨hself, hself⟩, ?_⟩
      omega
    · exact ⟨⟨hself, trivial⟩, Nat.zero_le _⟩
  | replicaLookup i stage =>
    rw [hp] at hpoint
    rcases Stage.Sound.cases hideal hpoint with ⟨node, rfl, hown⟩ | ⟨hstage, hnext⟩
    · simp only [GetThread.next, Sound, rank, hp]
      exact ⟨⟨hself, trivial⟩, Nat.le_add_left _ _⟩
    · have hless := Stage.Sound.rank_next hideal hpoint hstage
      rw [next_replicaLookup hp hstage]
      simp only [Sound, rank, hp]
      refine ⟨⟨hself, hnext⟩, ?_⟩
      omega
  | replicaAsk i node =>
    simp only [GetThread.next, Sound, rank, hp]
    exact ⟨⟨hself, trivial⟩, Nat.le_refl _⟩
  | reply | returned =>
    simp only [GetThread.next, Sound, rank, hp]
    exact ⟨⟨hself, trivial⟩, Nat.zero_le _⟩

/-- A handler does not return by a step of its own. -/
lemma returned_of_next {method : N → GetSuccessorMethod} {info : N → NodeInformation N}
    {average : UInt8} (h : thread.next sha256 method info average = .returned) :
    thread.point = .returned := by
  cases hp : thread.point with
  | lookup stage =>
    by_cases hdone : ∃ result, stage = .done result
    · obtain ⟨_ | node, rfl⟩ := hdone
      · simp [GetThread.next, hp] at h
      · simp [GetThread.next, hp] at h
    · rw [next_lookup hp fun result hr => hdone ⟨result, hr⟩] at h
      cases h
  | replicaLookup i stage =>
    by_cases hdone : ∃ result, stage = .done result
    · obtain ⟨_ | node, rfl⟩ := hdone
      · simp [GetThread.next, hp] at h
      · simp [GetThread.next, hp] at h
    · rw [next_replicaLookup hp fun result hr => hdone ⟨result, hr⟩] at h
      cases h
  | test | loop =>
    simp only [GetThread.next, hp] at h
    split_ifs at h
  | ask | replicaAsk | reply => simp [GetThread.next, hp] at h
  | returned => rfl

omit [DecidableEq N] in
lemma point_of_rank (h : thread.rank sha256 ring = 0) :
    (∃ response, thread.point = .reply response) ∨ thread.point = .returned := by
  cases hp : thread.point with
  | reply response => exact Or.inl ⟨response, rfl⟩
  | returned => exact Or.inr rfl
  | _ => simp [rank, hp] at h

end GetThread

end Handlers

namespace ClientThread

/-- The operation that a handler carries out. -/
def op : ClientThread N → ClientOp
  | .put thread => .put thread.key thread.value
  | .get thread => .get thread.key

/-- The steps of a handler, with those of a replication loop. -/
def steps (n : ℕ) : ClientThread N → ℕ
  | .put thread => thread.steps n
  | .get thread => (ClientOp.get thread.key).steps n

def Sound (sha256 : Bytes → IdType) (ring : Finset N) : ClientThread N → Prop
  | .put thread => thread.Sound sha256 ring
  | .get thread => thread.Sound sha256 ring

def rank (sha256 : Bytes → IdType) (ring : Finset N) : ClientThread N → ℕ
  | .put thread => thread.rank sha256 ring
  | .get thread => thread.rank sha256 ring

/-- The handler has returned. -/
def Returned : ClientThread N → Prop
  | .put thread => thread.handler = .returned
  | .get thread => thread.point = .returned

end ClientThread

/-! ## Runs -/

/-- The event is a step of the handler number `i`. -/
def ServingEvent.isRun (i : ℕ) : ServingEvent N → Bool
  | .run j _ => j == i
  | _ => false

namespace Serving

variable {P : Type*} [DecidableEq N] [DecidableEq P]

/-- The condition on the events: no node joins or leaves, and requests are made to nodes of the ring. -/
def Resident (ring : Finset N) : ServingEvent N → Serving N P → Prop
  | .node a, _ => a.IsMaintenance
  | .clean m _, _ => m ∈ ring
  | .call self _, _ => self ∈ ring
  | .run _ _, _ | .assign _, _ | .reply _, _ => True

/-- What is known after `n` steps of the handler number `i`. -/
structure Advances (sha256 : Bytes → IdType) (method : N → GetSuccessorMethod) (ring : Finset N)
    (i n : ℕ) (st : Serving N P) : Prop where
  settled : System.Settled method ring st.sys
  sound : ∀ (j : ℕ) (thread : ClientThread N), st.threads[j]? = some thread →
    thread.Sound sha256 ring
  called : ∀ op, .call i op ∈ st.history → ∃ thread, st.threads[i]? = some thread ∧ thread.op = op
  idle : st.threads[i]? = none → n = 0
  rank : ∀ thread, st.threads[i]? = some thread →
    thread.rank sha256 ring ≤ thread.steps ring.card - n
  returned : ∀ thread, st.threads[i]? = some thread → thread.Returned →
    ∃ answer, .ret i answer ∈ st.history

variable {sha256 : Bytes → IdType} {replicationLimit : UInt8} {process : N → P}
  {method : N → GetSuccessorMethod} {b : N} {ring : Finset N} {st st' : Serving N P} {i j n n' : ℕ}
  {old thread : ClientThread N}

omit [DecidableEq N] [DecidableEq P] in
/-- Some handler takes a step or returns. -/
lemma Advances.set (h : Advances sha256 method ring i n st) (hold : st.threads[j]? = some old)
    (hthreads : st'.threads = st.threads.set j thread)
    (hsettled : System.Settled method ring st'.sys) (hsound : thread.Sound sha256 ring)
    (hop : thread.op = old.op) (hsteps : thread.steps ring.card = old.steps ring.card)
    (hrank : thread.rank sha256 ring ≤ old.rank sha256 ring - (n' - n)) (hn : j ≠ i → n' = n)
    (hcall : ∀ op, .call i op ∈ st'.history → .call i op ∈ st.history)
    (hhistory : st.history ⊆ st'.history)
    (hreturned : thread.Returned → old.Returned ∨ ∃ answer, .ret j answer ∈ st'.history) :
    Advances sha256 method ring i n' st' := by
  have hlt : j < st.threads.length := (List.getElem?_eq_some_iff.mp hold).1
  have hcases : ∀ {k : ℕ} {thread' : ClientThread N}, st'.threads[k]? = some thread' →
      k = j ∧ thread' = thread ∨ k ≠ j ∧ st.threads[k]? = some thread' :=
    fun hk => getElem?_set_cases (hthreads ▸ hk)
  refine ⟨hsettled, ?_, ?_, ?_, ?_, ?_⟩
  · intro k thread' hk
    rcases hcases hk with ⟨rfl, rfl⟩ | ⟨-, hk⟩
    · exact hsound
    · exact h.sound k thread' hk
  · intro op hop'
    obtain ⟨thread', hthread', hop'⟩ := h.called op (hcall op hop')
    rw [hthreads]
    by_cases hij : i = j
    · subst hij
      obtain rfl := Option.some.inj (hthread'.symm.trans hold)
      exact ⟨thread, List.getElem?_set_self hlt, hop.trans hop'⟩
    · exact ⟨thread', (List.getElem?_set_ne (Ne.symm hij)).trans hthread', hop'⟩
  · intro hnone
    rw [hthreads, List.getElem?_eq_none_iff, List.length_set] at hnone
    rw [hn (by omega)]
    exact h.idle (List.getElem?_eq_none hnone)
  · intro thread' hthread'
    rcases hcases hthread' with ⟨rfl, rfl⟩ | ⟨hij, hthread'⟩
    · have hbound := h.rank old hold
      omega
    · rw [hn (Ne.symm hij)]
      exact h.rank thread' hthread'
  · intro thread' hthread' hret
    rcases hcases hthread' with ⟨rfl, rfl⟩ | ⟨-, hthread'⟩
    · rcases hreturned hret with hret | hanswer
      · obtain ⟨answer, hanswer⟩ := h.returned old hold hret
        exact ⟨answer, hhistory hanswer⟩
      · exact hanswer
    · obtain ⟨answer, hanswer⟩ := h.returned thread' hthread' hret
      exact ⟨answer, hhistory hanswer⟩

omit [DecidableEq N] [DecidableEq P] in
/-- A request is made. -/
lemma Advances.call (h : Advances sha256 method ring i n st) {self : N} (hself : self ∈ ring)
    (request : ClientRequest) : Advances sha256 method ring i n (st.call self request) := by
  have hadd : ∀ {thread : ClientThread N} {st' : Serving N P}, st'.sys = st.sys →
      st'.threads = st.threads ++ [thread] →
      st'.history = st.history ++ [.call st.threads.length thread.op] →
      thread.Sound sha256 ring → thread.rank sha256 ring ≤ thread.steps ring.card →
      ¬ thread.Returned → Advances sha256 method ring i n st' := by
    intro thread st' hsys hthreads hhistory hsound hrank hreturned
    have hcases : ∀ {k thread'}, st'.threads[k]? = some thread' →
        st.threads[k]? = some thread' ∨
          st.threads[k]? = none ∧ k = st.threads.length ∧ thread' = thread := by
      intro k thread' hk
      rw [hthreads, List.getElem?_append] at hk
      split_ifs at hk with hlt
      · exact Or.inl hk
      · obtain ⟨hlt', heq⟩ := List.getElem?_eq_some_iff.mp hk
        rw [List.length_singleton] at hlt'
        rw [List.getElem_singleton] at heq
        exact Or.inr ⟨List.getElem?_eq_none (Nat.not_lt.mp hlt), by omega, heq.symm⟩
    refine ⟨hsys ▸ h.settled, ?_, ?_, ?_, ?_, ?_⟩
    · intro k thread' hk
      rcases hcases hk with hk | ⟨-, -, rfl⟩
      · exact h.sound k thread' hk
      · exact hsound
    · intro op hop
      rw [hhistory] at hop
      rcases List.mem_append.mp hop with hop | hop
      · obtain ⟨thread', hthread', heq⟩ := h.called op hop
        refine ⟨thread', ?_, heq⟩
        rw [hthreads, List.getElem?_append_left (List.getElem?_eq_some_iff.mp hthread').1, hthread']
      · obtain ⟨rfl, rfl⟩ : i = st.threads.length ∧ op = thread.op := by simpa using hop
        exact ⟨thread, by simp [hthreads], rfl⟩
    · intro hnone
      refine h.idle (List.getElem?_eq_none ?_)
      have hlength := List.getElem?_eq_none_iff.mp hnone
      rw [hthreads, List.length_append] at hlength
      omega
    · intro thread' hthread'
      rcases hcases hthread' with hthread' | ⟨hnone, -, rfl⟩
      · exact h.rank thread' hthread'
      · rw [h.idle hnone]
        exact hrank
    · intro thread' hthread' hret
      rcases hcases hthread' with hthread' | ⟨-, -, rfl⟩
      · obtain ⟨answer, hanswer⟩ := h.returned thread' hthread' hret
        exact ⟨answer, hhistory ▸ List.mem_append_left _ hanswer⟩
      · exact absurd hret hreturned
  cases request with
  | put key value ttl replication =>
    exact hadd rfl rfl rfl ⟨hself, trivial⟩ (Nat.le_refl _) (by simp [ClientThread.Returned])
  | get key =>
    refine hadd rfl rfl rfl ⟨hself, hself⟩ ?_ (by simp [ClientThread.Returned])
    have hlookup := @Stage.rank_start_le N _ ring (sha256 key.bytes) self hself
    simp only [ClientThread.rank, ClientThread.steps, ClientOp.steps, GetThread.rank]
    omega

omit [DecidableEq P] in
/-- The store request of a handler that deals with nodes of the ring. -/
lemma settled_stored (h : System.Settled method ring st.sys) {thread : PutThread N}
    (hsound : thread.Sound sha256 ring) (now : TimePoint) :
    System.Settled method ring (stored st.sys thread now) := by
  cases hwrite : thread.write with
  | none => simpa only [stored, hwrite] using h
  | some write =>
    obtain ⟨node, key⟩ := write
    have hmem : node ∈ ring := by
      obtain ⟨-, hpoint⟩ := hsound
      rcases write_cases hwrite with ⟨hp, -⟩ | ⟨k, copies, hp, -⟩
      · rw [hp] at hpoint
        exact hpoint
      · rw [hp] at hpoint
        exact hpoint
    simp only [stored, hwrite]
    exact settled_setInfo h hmem rfl rfl

/-- A handler takes a step. -/
lemma Advances.run (h : Advances sha256 method ring i n st) {now : TimePoint}
    (hrun : st.run sha256 replicationLimit process method j now = some st') :
    Advances sha256 method ring i (n + (j == i).toNat) st' := by
  have hn : j ≠ i → n + (j == i).toNat = n := by
    intro hne
    simp [hne]
  have hle : n + (j == i).toNat - n ≤ 1 := by
    have hbool := Bool.toNat_le (j == i)
    omega
  unfold Serving.run at hrun
  cases hthread : st.threads[j]? with
  | none => simp [hthread] at hrun
  | some thread =>
    simp only [hthread] at hrun
    have hsound := h.sound j thread hthread
    cases thread with
    | put thread =>
      obtain rfl := Option.some.inj hrun
      obtain ⟨hnext, hrank⟩ := @PutThread.Sound.next N _ _ sha256 replicationLimit ring _ thread
        h.settled.ideal hsound
      exact h.set hthread rfl (settled_stored h.settled hsound now) hnext rfl rfl
        (hrank.trans (Nat.sub_le_sub_left hle _)) hn (fun _ hmem => hmem) (List.Subset.refl _) Or.inl
    | get thread =>
      obtain rfl := Option.some.inj hrun
      obtain ⟨hnext, hrank⟩ := GetThread.Sound.next h.settled.ideal hsound
        (getAverageReplicationIndex (st.indices (process thread.self)))
      refine h.set hthread rfl h.settled hnext rfl rfl (hrank.trans (Nat.sub_le_sub_left hle _)) hn
        (fun _ hmem => hmem) (List.Subset.refl _) fun hret => Or.inl ?_
      exact GetThread.returned_of_next hret

omit [DecidableEq P] in
/-- A put handler assigns its replication loop. -/
lemma Advances.assign (h : Advances sha256 method ring i n st) (hassign : st.assign j = some st') :
    Advances sha256 method ring i n st' := by
  obtain ⟨thread, hthread, -, rfl⟩ := assign_cases hassign
  have hsound : thread.Sound sha256 ring := h.sound j _ hthread
  refine h.set hthread rfl h.settled hsound rfl rfl ?_ (fun _ => rfl) (fun _ hmem => hmem)
    (List.Subset.refl _) fun hret => by cases hret
  rw [Nat.sub_self]
  exact Nat.le_refl _

omit [DecidableEq N] [DecidableEq P] in
/-- A handler returns. -/
lemma Advances.reply (h : Advances sha256 method ring i n st) (hreply : st.reply j = some st') :
    Advances sha256 method ring i n st' := by
  have hcall : ∀ {answer : Answer} {op : ClientOp},
      .call i op ∈ st.history ++ [.ret j answer] → .call i op ∈ st.history := by
    intro answer op hmem
    simpa using hmem
  rcases reply_cases hreply with ⟨thread, hthread, -, rfl⟩ | ⟨thread, response, hthread, hp, rfl⟩
  · have hsound : thread.Sound sha256 ring := h.sound j _ hthread
    refine h.set hthread rfl h.settled hsound rfl rfl ?_ (fun _ => rfl)
      (fun _ => hcall) (List.subset_append_left _ _) fun _ => Or.inr ⟨.echo, by simp⟩
    rw [Nat.sub_self]
    exact Nat.le_refl _
  · obtain ⟨hself, -⟩ : thread.Sound sha256 ring := h.sound j _ hthread
    refine h.set hthread rfl h.settled ⟨hself, trivial⟩ rfl rfl (Nat.zero_le _) (fun _ => rfl)
      (fun _ => hcall) (List.subset_append_left _ _) fun _ =>
        Or.inr ⟨.reply (.ofResponse thread.key.bytes response), by simp⟩

/-- Every step is counted if it is one of the handler number `i`. -/
lemma Advances.step (h : Advances sha256 method ring i n st) (hb : b ∈ ring) {e : ServingEvent N}
    (hresident : Resident ring e st)
    (hstep : step sha256 replicationLimit process method b e st = some st') :
    Advances sha256 method ring i (n + (e.isRun i).toNat) st' := by
  cases e with
  | node a =>
    obtain ⟨sys, hsys, rfl⟩ := Option.map_eq_some_iff.mp hstep
    exact ⟨h.settled.maintain hb hresident hsys, h.sound, h.called, h.idle, h.rank, h.returned⟩
  | clean m now =>
    obtain rfl := Option.some.inj hstep
    exact ⟨settled_setInfo h.settled hresident rfl rfl, h.sound, h.called, h.idle, h.rank, h.returned⟩
  | call self request =>
    obtain rfl := Option.some.inj hstep
    exact h.call hresident request
  | run j now => exact h.run hstep
  | assign j => exact h.assign hstep
  | reply j => exact h.reply hstep

/-! ## The futures -/

/-- What a step does to the handlers and to `m_replicationFuture` of the nodes. -/
inductive HandlerStep (st st' : Serving N P) : Prop
  | same : st'.threads = st.threads → st'.replicationFuture = st.replicationFuture →
      HandlerStep st st'
  | called (thread : ClientThread N) : st'.threads = st.threads ++ [thread] →
      (∀ put, thread = .put put → put.handler = .runs) →
      st'.replicationFuture = st.replicationFuture → HandlerStep st st'
  | put (i : ℕ) (old new : PutThread N) : st.threads[i]? = some (.put old) →
      st'.threads = st.threads.set i (.put new) →
      new.self = old.self ∧ new.replication = old.replication →
      new.handler = old.handler ∨ new.handler = .returned →
      st'.replicationFuture = st.replicationFuture → HandlerStep st st'
  | get (i : ℕ) (old new : GetThread N) : st.threads[i]? = some (.get old) →
      st'.threads = st.threads.set i (.get new) → st'.replicationFuture = st.replicationFuture →
      HandlerStep st st'
  | assigned (i : ℕ) (old : PutThread N) : st.threads[i]? = some (.put old) →
      2 ≤ old.replication ∧ old.handler = .runs →
      st'.threads = st.threads.set i (.put { old with
        handler := .assigned (st.replicationFuture old.self) }) →
      st'.replicationFuture = Function.update st.replicationFuture old.self (some i) →
      HandlerStep st st'

lemma handlerStep {e : ServingEvent N}
    (hstep : step sha256 replicationLimit process method b e st = some st') : HandlerStep st st' := by
  cases e with
  | node a =>
    obtain ⟨sys, -, rfl⟩ := Option.map_eq_some_iff.mp hstep
    exact .same rfl rfl
  | clean m now =>
    obtain rfl := Option.some.inj hstep
    exact .same rfl rfl
  | call self request =>
    obtain rfl := Option.some.inj hstep
    cases request with
    | put key value ttl replication =>
      exact .called _ rfl (fun put hput => by cases hput; rfl) rfl
    | get key => exact .called _ rfl (fun put hput => by cases hput) rfl
  | run j now =>
    change st.run sha256 replicationLimit process method j now = some st' at hstep
    unfold Serving.run at hstep
    split at hstep
    next thread hthread =>
      obtain rfl := Option.some.inj hstep
      exact .put j thread _ hthread rfl ⟨rfl, rfl⟩ (Or.inl rfl) rfl
    next thread hthread =>
      obtain rfl := Option.some.inj hstep
      exact .get j thread _ hthread rfl rfl
    next => cases hstep
  | assign j =>
    obtain ⟨thread, hthread, ⟨-, hbefore⟩, rfl⟩ := assign_cases hstep
    exact .assigned j thread hthread hbefore rfl rfl
  | reply j =>
    rcases reply_cases hstep with ⟨thread, hthread, -, rfl⟩ | ⟨thread, response, hthread, -, rfl⟩
    · exact .put j thread _ hthread rfl ⟨rfl, rfl⟩ (Or.inr rfl) rfl
    · exact .get j thread _ hthread rfl rfl

/-- The handler number `k` is that of a put at the node `m` and has assigned its replication loop. -/
def HasAssigned (st : Serving N P) (k : ℕ) (m : N) : Prop :=
  ∃ thread, st.threads[k]? = some (.put thread) ∧ thread.self = m ∧ thread.handler ≠ .runs

omit [Endpoint N] [DecidableEq P] in
/-- A handler that has assigned its loop stays one. -/
lemma HasAssigned.step {k : ℕ} {m : N} (h : st.HasAssigned k m) (hstep : HandlerStep st st') :
    st'.HasAssigned k m := by
  obtain ⟨thread, hk, hself, hhandler⟩ := h
  have hlt := (List.getElem?_eq_some_iff.mp hk).1
  cases hstep with
  | same hthreads _ => exact ⟨thread, hthreads ▸ hk, hself, hhandler⟩
  | called new hthreads _ _ =>
    exact ⟨thread, by rw [hthreads, List.getElem?_append_left hlt, hk], hself, hhandler⟩
  | put i old new hi hthreads hself' hhandler' _ =>
    by_cases hik : i = k
    · subst hik
      obtain rfl := ClientThread.put.inj (Option.some.inj (hk.symm.trans hi))
      refine ⟨new, by rw [hthreads, List.getElem?_set_self hlt], hself'.1.trans hself, ?_⟩
      rcases hhandler' with heq | heq
      · rwa [heq]
      · rw [heq]
        nofun
    · exact ⟨thread, by rw [hthreads, List.getElem?_set_ne hik, hk], hself, hhandler⟩
  | get i old new hi hthreads _ =>
    have hik : i ≠ k := by
      rintro rfl
      rw [hk] at hi
      cases hi
    exact ⟨thread, by rw [hthreads, List.getElem?_set_ne hik, hk], hself, hhandler⟩
  | assigned i old hi hbefore hthreads _ =>
    have hik : i ≠ k := by
      rintro rfl
      obtain rfl := ClientThread.put.inj (Option.some.inj (hk.symm.trans hi))
      exact hhandler hbefore.2
    exact ⟨thread, by rw [hthreads, List.getElem?_set_ne hik, hk], hself, hhandler⟩

/-- The futures hold replication loops of their nodes.  A put handler that has assigned its loop has
replicas, and what it waits for is another loop of its node. -/
structure FutureInv (st : Serving N P) : Prop where
  future : ∀ m k, st.replicationFuture m = some k → st.HasAssigned k m
  earlier : ∀ (i : ℕ) thread earlier, st.threads[i]? = some (.put thread) →
    thread.handler = .assigned earlier → 2 ≤ thread.replication ∧
      ∀ k, earlier = some k → k ≠ i ∧ st.HasAssigned k thread.self

omit [Endpoint N] [DecidableEq P] in
/-- A future changes to the loop of the handler that assigns it. -/
lemma HandlerStep.future (hstep : HandlerStep st st') {m : N} {k : ℕ}
    (hk : st'.replicationFuture m = some k) :
    st.replicationFuture m = some k ∨ st'.HasAssigned k m := by
  cases hstep with
  | same _ hfuture => exact Or.inl (hfuture ▸ hk)
  | called _ _ _ hfuture => exact Or.inl (hfuture ▸ hk)
  | put _ _ _ _ _ _ _ hfuture => exact Or.inl (hfuture ▸ hk)
  | get _ _ _ _ _ hfuture => exact Or.inl (hfuture ▸ hk)
  | assigned i old hi _ hthreads hfuture =>
    rw [hfuture] at hk
    by_cases hm : m = old.self
    · subst hm
      rw [Function.update_self] at hk
      obtain rfl := Option.some.inj hk
      have hlt := (List.getElem?_eq_some_iff.mp hi).1
      exact Or.inr ⟨{ old with handler := .assigned (st.replicationFuture old.self) },
        by rw [hthreads, List.getElem?_set_self hlt], rfl, nofun⟩
    · rw [Function.update_of_ne hm] at hk
      exact Or.inl hk

omit [Endpoint N] [DecidableEq P] in
/-- A handler that waits for an earlier loop did so before, or it has just found that loop in the future
of its node. -/
lemma HandlerStep.waiting (hstep : HandlerStep st st') {thread : PutThread N} {earlier : Option ℕ}
    (hi : st'.threads[i]? = some (.put thread)) (hhandler : thread.handler = .assigned earlier) :
    ∃ old, st.threads[i]? = some (.put old) ∧
      (old.self = thread.self ∧ old.replication = thread.replication) ∧
      (old.handler = .assigned earlier ∨ (2 ≤ old.replication ∧ old.handler = .runs) ∧
        st.replicationFuture old.self = earlier) := by
  cases hstep with
  | same hthreads _ => exact ⟨thread, hthreads ▸ hi, ⟨rfl, rfl⟩, Or.inl hhandler⟩
  | called new hthreads hnew _ =>
    rw [hthreads, List.getElem?_append] at hi
    split_ifs at hi with hlt
    · exact ⟨thread, hi, ⟨rfl, rfl⟩, Or.inl hhandler⟩
    · -- A new handler has assigned nothing.
      obtain ⟨hlt', heq⟩ := List.getElem?_eq_some_iff.mp hi
      rw [List.getElem_singleton] at heq
      rw [hnew thread heq] at hhandler
      cases hhandler
  | put j old new hj hthreads hsame hhandler' _ =>
    rcases getElem?_set_cases (hthreads ▸ hi) with ⟨rfl, heq⟩ | ⟨-, hold⟩
    · obtain rfl := ClientThread.put.inj heq
      rcases hhandler' with hkept | hreturned
      · exact ⟨old, hj, ⟨hsame.1.symm, hsame.2.symm⟩, Or.inl (hkept.symm.trans hhandler)⟩
      · rw [hreturned] at hhandler
        cases hhandler
    · exact ⟨thread, hold, ⟨rfl, rfl⟩, Or.inl hhandler⟩
  | get j old new hj hthreads _ =>
    rcases getElem?_set_cases (hthreads ▸ hi) with ⟨-, heq⟩ | ⟨-, hold⟩
    · cases heq
    · exact ⟨thread, hold, ⟨rfl, rfl⟩, Or.inl hhandler⟩
  | assigned j old hj hbefore hthreads _ =>
    rcases getElem?_set_cases (hthreads ▸ hi) with ⟨rfl, heq⟩ | ⟨-, hold⟩
    · obtain rfl := ClientThread.put.inj heq
      exact ⟨old, hj, ⟨rfl, rfl⟩, Or.inr ⟨hbefore, PutHandler.assigned.inj hhandler⟩⟩
    · exact ⟨thread, hold, ⟨rfl, rfl⟩, Or.inl hhandler⟩

omit [Endpoint N] [DecidableEq P] in
/-- Each step keeps the futures right. -/
lemma FutureInv.step (h : FutureInv st) (hstep : HandlerStep st st') : FutureInv st' where
  future := by
    intro m k hk
    rcases hstep.future hk with hold | hassigned
    · exact (h.future m k hold).step hstep
    · exact hassigned
  earlier := by
    intro i thread earlier hi hhandler
    obtain ⟨old, hold, ⟨hself, hreplication⟩, hbefore⟩ := hstep.waiting hi hhandler
    rw [← hself, ← hreplication]
    rcases hbefore with hassigned | ⟨⟨htwo, hruns⟩, hearlier⟩
    · obtain ⟨htwo, hother⟩ := h.earlier i old earlier hold hassigned
      exact ⟨htwo, fun k hk => (hother k hk).imp_right fun h => h.step hstep⟩
    · refine ⟨htwo, fun k hk => ?_⟩
      have hassigned := h.future old.self k (hearlier.trans hk)
      refine ⟨?_, hassigned.step hstep⟩
      rintro rfl
      -- Its own loop was not yet in a future.
      obtain ⟨thread', hthread', -, hne⟩ := hassigned
      obtain rfl := ClientThread.put.inj (Option.some.inj (hthread'.symm.trans hold))
      exact hne hruns

/-! ## Returning -/

/-- The put handler number `i` waits for the replication loop of the handler number `j`, whose node is
the same and which has not ended. -/
def WaitsFor (st : Serving N P) (i j : ℕ) : Prop :=
  ∃ thread earlier, st.threads[i]? = some (.put thread) ∧ st.threads[j]? = some (.put earlier) ∧
    thread.handler = .assigned (some j) ∧ i ≠ j ∧ thread.self = earlier.self ∧
      earlier.hasEnded = false

omit [Endpoint N] [DecidableEq P] in
/-- A put handler whose work is done has returned or may return, unless it has replicas: then it may have
yet to assign its replication loop, or it waits for another one. -/
lemma FutureInv.put_returns (h : FutureInv st) {thread : PutThread N}
    (hi : st.threads[i]? = some (.put thread)) (hstored : thread.isStored = true) :
    thread.handler = .returned ∨ (st.reply i).isSome = true ∨
      2 ≤ thread.replication ∧ ((st.assign i).isSome = true ∨ ∃ j, st.WaitsFor i j) := by
  have hreply : st.mayReturn thread = true → (st.reply i).isSome = true := by
    intro hmay
    simp [Serving.reply, hi, hmay]
  cases hhandler : thread.handler with
  | returned => exact Or.inl rfl
  | runs =>
    by_cases htwo : 2 ≤ thread.replication
    · refine Or.inr (Or.inr ⟨htwo, Or.inl ?_⟩)
      simp [Serving.assign, hi, hstored, htwo, hhandler]
    · refine Or.inr (Or.inl (hreply ?_))
      simp [mayReturn, hstored, hhandler, UInt8.not_le.mp htwo]
  | assigned earlier =>
    obtain ⟨htwo, hother⟩ := h.earlier i thread earlier hi hhandler
    cases earlier with
    | none =>
      refine Or.inr (Or.inl (hreply ?_))
      simp [mayReturn, hstored, hhandler]
    | some j =>
      obtain ⟨hne, earlier, hj, hself, -⟩ := hother j rfl
      cases hended : earlier.hasEnded with
      | true =>
        refine Or.inr (Or.inl (hreply ?_))
        simp [mayReturn, hstored, hhandler, hasEnded, hj, hended]
      | false =>
        exact Or.inr (Or.inr ⟨htwo, Or.inr ⟨j, thread, earlier, hi, hj, hhandler, hne.symm,
          hself.symm, hended⟩⟩)

omit [DecidableEq P] in
/-- A handler that has had enough steps has returned, may return, or has an earlier loop to wait for. -/
lemma Advances.returns (h : Advances sha256 method ring i n st) (hfuture : FutureInv st)
    {op : ClientOp} (hcall : .call i op ∈ st.history) (hn : op.steps ring.card ≤ n) :
    (∃ answer, .ret i answer ∈ st.history) ∨ (st.reply i).isSome = true ∨
      ∃ thread, st.threads[i]? = some (.put thread) ∧ 2 ≤ thread.replication ∧
        ((st.assign i).isSome = true ∨ ∃ j, st.WaitsFor i j) := by
  obtain ⟨thread, hthread, rfl⟩ := h.called op hcall
  have hrank := h.rank thread hthread
  cases thread with
  | put thread =>
    have hstored : thread.isStored = true := by
      refine @PutThread.isStored_of_rank N _ sha256 ring thread ?_
      simp only [ClientThread.rank, ClientThread.steps, PutThread.steps] at hrank
      simp only [ClientThread.op, ClientOp.steps] at hn
      omega
    rcases hfuture.put_returns hthread hstored with hreturned | hreply | hwaits
    · exact Or.inl (h.returned _ hthread hreturned)
    · exact Or.inr (Or.inl hreply)
    · exact Or.inr (Or.inr ⟨thread, hthread, hwaits⟩)
  | get thread =>
    have hzero : thread.rank sha256 ring = 0 := by
      simp only [ClientThread.rank, ClientThread.steps] at hrank
      simp only [ClientThread.op] at hn
      simp only [ClientOp.steps] at hrank hn
      omega
    rcases GetThread.point_of_rank hzero with ⟨response, hp⟩ | hp
    · refine Or.inr (Or.inl ?_)
      simp [Serving.reply, hthread, hp]
    · exact Or.inl (h.returned _ hthread hp)

/-- **Requests return.**  On every settled ring, in every order of the steps of any number of put and get
handlers, of the maintenance of the nodes and of passes of their data cleaners, while no node joins: as
soon as a handler has taken `ClientOp.steps` steps of its own, it has returned or may return, unless it is
that of a put with replicas which has yet to assign its replication loop or waits for another loop of its
node.  After `PutThread.steps` steps of its own the replication loop of a put handler has ended. -/
theorem requests_return {st₀ : Serving N P} {es : List (ServingEvent N)}
    (hsettled : System.Settled method ring st₀.sys) (hb : b ∈ ring) (hthreads : st₀.threads = [])
    (hfutures : ∀ m, st₀.replicationFuture m = none) (hhistory : st₀.history = [])
    (hexec : exec (step sha256 replicationLimit process method b) es st₀ = some st)
    (hmeets : Meets (step sha256 replicationLimit process method b) (Resident ring) es st₀) (i : ℕ) :
    (∀ op, .call i op ∈ st.history → op.steps ring.card ≤ es.countP (ServingEvent.isRun i) →
      (∃ answer, .ret i answer ∈ st.history) ∨ (st.reply i).isSome = true ∨
        ∃ thread, st.threads[i]? = some (.put thread) ∧ 2 ≤ thread.replication ∧
          ((st.assign i).isSome = true ∨ ∃ j, st.WaitsFor i j)) ∧
    ∀ thread, st.threads[i]? = some (.put thread) →
      thread.steps ring.card ≤ es.countP (ServingEvent.isRun i) → thread.point = .finished := by
  have hinit : Advances sha256 method ring i 0 st₀ :=
    ⟨hsettled, by simp [hthreads], by simp [hhistory], fun _ => rfl, by simp [hthreads],
      by simp [hthreads]⟩
  have hend : Advances sha256 method ring i (0 + es.countP (ServingEvent.isRun i)) st :=
    exec_counted (I := fun n st => Advances sha256 method ring i n st)
      (fun n e s s' h hresident hstep => h.step hb hresident hstep) hmeets hinit hexec
  have hfuture₀ : FutureInv st₀ := ⟨by simp [hfutures], by simp [hthreads]⟩
  have hfuture : FutureInv st :=
    exec_invariant (fun e s s' h hstep => h.step (handlerStep hstep)) hfuture₀ hexec
  rw [Nat.zero_add] at hend
  refine ⟨fun op hcall hn => hend.returns hfuture hcall hn, fun thread hthread hn => ?_⟩
  have hrank : thread.rank sha256 ring ≤
      thread.steps ring.card - es.countP (ServingEvent.isRun i) := hend.rank _ hthread
  have hzero : thread.rank sha256 ring = 0 := by omega
  exact PutThread.finished_of_rank hzero

/-- On the ring of the ids `40…` and `80…` the node `40…` serves two puts with replicas, while the node
`80…` serves a get.  The replication loop of the first put stands still. -/
def turnsRun : List (ServingEvent IdType) :=
  [.call (idOf 0x40) (.put (idOf 7) [1] 0 3), .call (idOf 0x80) (.get (idOf 7)),
    .call (idOf 0x40) (.put (idOf 8) [2] 0 3)] ++ List.replicate 8 (.run 0 0) ++ [.assign 0] ++
    (List.replicate 25 [.run 1 0, .run 2 0]).flatten ++
    [.assign 2, .clean (idOf 0x80) fun _ => 0]

/-- The get may return.  The second put waits for the first loop, although its own loop has ended. -/
theorem requests_return_turns : ∃ st thread,
    exec (step (fun _ => idOf 0x60) 2 (fun _ => ()) (fun _ => .localHops) (idOf 0x40)) turnsRun
      pairServing = some st ∧
    (st.reply 1).isSome = true ∧ (∃ j, st.WaitsFor 2 j) ∧
    st.threads[2]? = some (.put thread) ∧ thread.point = .finished := by
  obtain ⟨st, hexec, hhistory, hbusy, hassigned, hget, hput⟩ := exists_exec_of_decide
    (p := fun st : Serving IdType Unit =>
      st.history = [.call 0 (.put (idOf 7) [1]), .call 1 (.get (idOf 7)),
          .call 2 (.put (idOf 8) [2])] ∧
        (st.reply 2).isSome = false ∧ (st.assign 2).isSome = false ∧
        (st.threads[1]?.any fun
          | .put _ => false
          | .get _ => true) = true ∧
        (st.threads[2]?.any fun
          | .put thread => thread.replication == 3
          | .get _ => false) = true)
    (show (exec (step (fun _ => idOf 0x60) 2 (fun _ => ()) (fun _ => .localHops) (idOf 0x40))
      turnsRun pairServing).map _ = some true by decide +kernel)
  have hmeets : Meets (step (fun _ => idOf 0x60) 2 (fun _ => ()) (fun _ => .localHops) (idOf 0x40))
      (Resident {idOf 0x40, idOf 0x80}) turnsRun pairServing := by
    refine meets_of_forall fun e he t => ?_
    simp only [turnsRun, List.mem_append, List.mem_cons, List.mem_replicate, List.mem_flatten,
      List.not_mem_nil, or_false] at he
    rcases he with ((((rfl | rfl | rfl) | ⟨-, rfl⟩) | rfl) | ⟨_, ⟨-, rfl⟩, hrun⟩) | rfl | rfl
    · exact show idOf 0x40 ∈ ({idOf 0x40, idOf 0x80} : Finset IdType) by decide
    · exact show idOf 0x80 ∈ ({idOf 0x40, idOf 0x80} : Finset IdType) by decide
    · exact show idOf 0x40 ∈ ({idOf 0x40, idOf 0x80} : Finset IdType) by decide
    · trivial
    · trivial
    · simp only [List.mem_cons, List.not_mem_nil, or_false] at hrun
      rcases hrun with rfl | rfl
      · trivial
      · trivial
    · trivial
    · exact show idOf 0x80 ∈ ({idOf 0x40, idOf 0x80} : Finset IdType) by decide
  have hreturns := requests_return (System.settled_pair (by decide) (fun _ => ∅) fun _ => .localHops)
    (by decide) rfl (fun _ => rfl) rfl hexec hmeets
  have hpending : ∀ i answer, .ret i answer ∉ st.history := by simp [hhistory]
  have hreply : (st.reply 1).isSome = true := by
    rcases (hreturns 1).1 (.get (idOf 7)) (by simp [hhistory]) (by decide) with
      ⟨answer, hret⟩ | hreply | ⟨thread, hthread, -⟩
    · exact absurd hret (hpending 1 answer)
    · exact hreply
    · simp [hthread] at hget
  have hwaits : ∃ j, st.WaitsFor 2 j := by
    rcases (hreturns 2).1 (.put (idOf 8) [2]) (by simp [hhistory]) (by decide) with
      ⟨answer, hret⟩ | hreply | ⟨thread, -, -, hassign | hwaits⟩
    · exact absurd hret (hpending 2 answer)
    · simp [hreply] at hbusy
    · simp [hassign] at hassigned
    · exact hwaits
  cases hthread : st.threads[2]? with
  | none => simp [hthread] at hput
  | some thread =>
    cases thread with
    | get thread => simp [hthread] at hput
    | put thread =>
      have hreplication : thread.replication = 3 := by simpa [hthread] using hput
      refine ⟨st, thread, hexec, hreply, hwaits, hthread, (hreturns 2).2 thread hthread ?_⟩
      simp only [PutThread.steps, PutThread.loopSteps, hreplication]
      decide

end Serving

end ChordPlusPlus
