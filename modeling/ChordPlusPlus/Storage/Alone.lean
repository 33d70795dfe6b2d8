import ChordPlusPlus.Dht.Threads
import ChordPlusPlus.Ring.Join
import ChordPlusPlus.Ring.Online

/-!
# Requests served alone

`Dht.Handlers` computes what a handler does from beginning to end, and `Dht.Threads` takes the handler
apart into steps.  The two agree: if nothing else happens in a deployment while a request is served, then
the steps of its handler lead to the state and to the reply that the function computes (`call_alone`).
A put with replicas returns only if the replication loop that its node has started before has ended.

The functions bound the steps of their lookups.  Each lookup comes to its end, so that there is a
bound from which on the functions do not depend on it.
-/

namespace ChordPlusPlus

open Concurrency

variable {N : Type*} [Endpoint N] [DecidableEq N]

namespace System

/-- A lookup has an answer, and the stages of the lookup lead to it. -/
lemma exists_lookup (sys : System N) (method : N → GetSuccessorMethod) (self : N) (id : IdType) :
    ∃ bound result, (∀ fuel ≥ bound, (sys.network method).dhtGetSuccessor fuel self id = result) ∧
      Stage.Leads sys.info method id (.start self) (.done result) := by
  obtain ⟨r, hr⟩ := Network.exists_resolves (sys.network method) self id
  obtain ⟨result, rfl, hleads⟩ := hr.leads fun _ => rfl
  obtain ⟨bound, hbound⟩ := hr
  refine ⟨bound, result, fun fuel hfuel => ?_, hleads⟩
  rw [Network.dhtGetSuccessor, Network.getSuccessor_mono hfuel hbound]

omit [Endpoint N] in
/-- A store request changes the node it is made to. -/
lemma network_setData (sys : System N) (method : N → GetSuccessorMethod) (self node : N)
    (now : TimePoint) (key value : Bytes) (ttl : UInt16) :
    (sys.network method).setData self node now key value ttl =
      (sys.setInfo node (PeerImpl.serveSetData (sys.info node) now key value ttl)).network method := by
  rw [Network.setData]
  split_ifs with hself hanswers
  · rw [hself]
    rfl
  · rfl
  · exact absurd rfl hanswers

omit [Endpoint N] in
lemma network_getData (sys : System N) (method : N → GetSuccessorMethod) (self node : N)
    (key : Bytes) : (sys.network method).getData self node key = (sys.info node).getData key := by
  rw [Network.getData]
  split_ifs with hself
  · rw [hself]
    rfl
  · rfl

end System

namespace Serving

variable {P : Type*} [DecidableEq P] {sha256 : Bytes → IdType} {replicationLimit : UInt8}
  {process : N → P} {method : N → GetSuccessorMethod} {bootstrap : N} {st st' st'' : Serving N P}
  {i : ℕ} {sys : System N}

/-! ## The steps of one handler -/

/-- The deployment with the nodes and the handler number `i` replaced. -/
def place (st : Serving N P) (i : ℕ) (sys : System N) (thread : ClientThread N) : Serving N P :=
  { st with sys := sys, threads := st.threads.set i thread }

variable (sha256 replicationLimit process method bootstrap) in
/-- Some steps of the handler number `i`, and no others, lead from one state to another. -/
def Alone (i : ℕ) (st st' : Serving N P) : Prop :=
  ∃ es : List (ServingEvent N), (∀ e ∈ es, ∃ now, e = .run i now) ∧
    Run.exec (step sha256 replicationLimit process method bootstrap) es st = some st'

lemma Alone.refl (st : Serving N P) :
    Alone sha256 replicationLimit process method bootstrap i st st := ⟨[], by simp, rfl⟩

lemma Alone.trans (h : Alone sha256 replicationLimit process method bootstrap i st st')
    (h' : Alone sha256 replicationLimit process method bootstrap i st' st'') :
    Alone sha256 replicationLimit process method bootstrap i st st'' := by
  obtain ⟨es, hes, hexec⟩ := h
  obtain ⟨es', hes', hexec'⟩ := h'
  refine ⟨es ++ es', ?_, Run.exec_append_eq_some.mpr ⟨st', hexec, hexec'⟩⟩
  intro e he
  exact (List.mem_append.mp he).elim (hes e) (hes' e)

lemma Alone.head {now : TimePoint}
    (hrun : st.run sha256 replicationLimit process method i now = some st')
    (h : Alone sha256 replicationLimit process method bootstrap i st' st'') :
    Alone sha256 replicationLimit process method bootstrap i st st'' :=
  Alone.trans ⟨[.run i now], by simp, Run.exec_cons_eq_some.mpr ⟨st', hrun, rfl⟩⟩ h

/-- A step of a put handler that has begun. -/
lemma run_put (hi : i < st.threads.length) (thread : PutThread N) (hpoint : thread.point ≠ .entry)
    (now : TimePoint) :
    (st.place i sys (.put thread)).run sha256 replicationLimit process method i now =
      some (st.place i (stored sys thread now)
        (.put { thread with point := thread.next sha256 replicationLimit method sys.info })) := by
  have hrecorded : recorded process st.indices thread = st.indices := by
    unfold recorded
    split
    · exact absurd ‹_› hpoint
    · rfl
  simp [run, place, hi, hrecorded]

/-- A step of a get handler. -/
lemma run_get (hi : i < st.threads.length) (thread : GetThread N) (now : TimePoint) :
    (st.place i sys (.get thread)).run sha256 replicationLimit process method i now =
      some (st.place i sys (.get { thread with
        point := thread.next sha256 method sys.info
          (getAverageReplicationIndex (st.indices (process thread.self))) })) := by
  simp [run, place, hi]

/-- A handler that waits for a lookup goes through its stages. -/
lemma Alone.lookup {wait : Stage N → ClientThread N} {id : IdType} {stage : Stage N}
    {result : Option N}
    (hwait : ∀ stage, (∀ r, stage ≠ .done r) →
      (st.place i sys (wait stage)).run sha256 replicationLimit process method i 0 =
        some (st.place i sys (wait (stage.next sys.info method id))))
    (hleads : Stage.Leads sys.info method id stage (.done result)) :
    Alone sha256 replicationLimit process method bootstrap i (st.place i sys (wait stage))
      (st.place i sys (wait (.done result))) := by
  obtain ⟨k, hk⟩ := hleads
  induction k generalizing stage with
  | zero =>
    obtain rfl : stage = .done result := hk
    exact .refl _
  | succ k ih =>
    rw [Function.iterate_succ_apply] at hk
    by_cases hdone : ∃ r, stage = .done r
    · obtain ⟨r, rfl⟩ := hdone
      exact ih hk
    · exact .head (hwait stage fun r hr => hdone ⟨r, hr⟩) (ih hk)

/-! ## Put handlers -/

section Put

variable {thread : PutThread N} {point point' : PutPoint N}

/-- A step of a put handler that stores nothing. -/
lemma Alone.put (hi : i < st.threads.length) (hentry : point ≠ .entry)
    (hnext : PutThread.next sha256 replicationLimit method sys.info { thread with point := point } =
      point')
    (hwrite : PutThread.write { thread with point := point } = none)
    (h : Alone sha256 replicationLimit process method bootstrap i
      (st.place i sys (.put { thread with point := point' })) st'') :
    Alone sha256 replicationLimit process method bootstrap i
      (st.place i sys (.put { thread with point := point })) st'' := by
  have hrun := @run_put N _ _ P _ sha256 replicationLimit process method st i sys hi
    { thread with point := point } hentry 0
  rw [hnext, stored, hwrite] at hrun
  exact .head hrun h

/-- A step of a put handler that stores. -/
lemma Alone.putStore (hi : i < st.threads.length) {node : N} {key : Bytes} (now : TimePoint)
    (hnext : PutThread.next sha256 replicationLimit method sys.info { thread with point := point } =
      point')
    (hwrite : PutThread.write { thread with point := point } = some (node, key))
    (h : Alone sha256 replicationLimit process method bootstrap i
      (st.place i (sys.setInfo node
        (PeerImpl.serveSetData (sys.info node) now key thread.value thread.ttl))
        (.put { thread with point := point' })) st'') :
    Alone sha256 replicationLimit process method bootstrap i
      (st.place i sys (.put { thread with point := point })) st'' := by
  have hentry : point ≠ .entry := by
    rintro rfl
    cases hwrite
  have hrun := @run_put N _ _ P _ sha256 replicationLimit process method st i sys hi
    { thread with point := point } hentry now
  rw [hnext, stored, hwrite] at hrun
  exact .head hrun h

/-- A put handler that waits for a lookup. -/
lemma Alone.putLookup (hi : i < st.threads.length) {wait : Stage N → PutPoint N} {id : IdType}
    {result : Option N} (hentry : ∀ stage, wait stage ≠ .entry)
    (hwrite : ∀ stage, PutThread.write { thread with point := wait stage } = none)
    (hnext : ∀ stage, (∀ r, stage ≠ .done r) →
      PutThread.next sha256 replicationLimit method sys.info { thread with point := wait stage } =
        wait (stage.next sys.info method id))
    (hleads : Stage.Leads sys.info method id (.start thread.self) (.done result)) :
    Alone sha256 replicationLimit process method bootstrap i
      (st.place i sys (.put { thread with point := wait (.start thread.self) }))
      (st.place i sys (.put { thread with point := wait (.done result) })) := by
  refine @Alone.lookup N _ _ P _ sha256 replicationLimit process method bootstrap st i sys
    (fun stage => .put { thread with point := wait stage }) id (.start thread.self) result ?_ hleads
  intro stage hstage
  rw [run_put hi _ (hentry stage), hnext stage hstage, stored, hwrite stage]

variable (sha256 replicationLimit process method bootstrap) in
/-- From the state `start` the steps of the put handler lead to its end and to the nodes that `result`
computes, if the bound on the steps of a lookup is large enough. -/
def Computes (i : ℕ) (st : Serving N P) (sys : System N) (thread : PutThread N)
    (result : ℕ → Network N) (start : Serving N P) : Prop :=
  ∃ bound info, (∀ fuel ≥ bound, result fuel = ({ sys with info := info } : System N).network method) ∧
    Alone sha256 replicationLimit process method bootstrap i start
      (st.place i { sys with info := info } (.put { thread with point := .finished }))

lemma Computes.of_eq {result result' : ℕ → Network N} {start start' : Serving N P} (bound : ℕ)
    (heq : ∀ fuel ≥ bound, result fuel = result' fuel)
    (halone : Alone sha256 replicationLimit process method bootstrap i start start')
    (h : Computes sha256 replicationLimit process method bootstrap i st sys thread result' start') :
    Computes sha256 replicationLimit process method bootstrap i st sys thread result start := by
  obtain ⟨bound', info, hresult, hend⟩ := h
  refine ⟨max bound bound', info, fun fuel hfuel => ?_, halone.trans hend⟩
  rw [heq fuel ((le_max_left _ _).trans hfuel), hresult fuel ((le_max_right _ _).trans hfuel)]

/-- The replication loop. -/
lemma computes_putReplicas (hi : i < st.threads.length) (thread : PutThread N) (clock : ℕ → TimePoint)
    {rounds j : ℕ} (hrounds : j + rounds = thread.replication.toNat - 1)
    (counts : IdType → Option UInt8) (sys : System N) :
    Computes sha256 replicationLimit process method bootstrap i st sys thread
      (fun fuel => Network.putReplicas ⟨sha256, fuel, replicationLimit, clock⟩ thread.self id
        thread.key.bytes thread.value thread.ttl rounds j counts (sys.network method))
      (st.place i sys (.put { thread with point := .replica j counts })) := by
  induction rounds generalizing j counts sys with
  | zero =>
    refine ⟨0, sys.info, fun _ _ => rfl, .put hi (by simp) ?_ rfl (.refl _)⟩
    simp only [PutThread.next]
    rw [if_neg (by omega)]
  | succ rounds ih =>
    obtain ⟨bound, result, hlookup, hleads⟩ := sys.exists_lookup method thread.self
      (sha256 (replicaKey thread.key (j + 1)))
    have hbegin : PutThread.next sha256 replicationLimit method sys.info
        { thread with point := .replica j counts } = .replicaLookup j counts (.start thread.self) := by
      simp only [PutThread.next]
      rw [if_pos (by omega)]
    have hfound : Alone sha256 replicationLimit process method bootstrap i
        (st.place i sys (.put { thread with point := .replica j counts }))
        (st.place i sys (.put { thread with point := .replicaLookup j counts (.done result) })) :=
      .put hi (by simp) hbegin rfl (.putLookup hi (by simp) (fun _ => rfl)
        (fun stage hstage => PutThread.next_replicaLookup rfl hstage) hleads)
    rw [replicaKey] at hlookup
    rcases result with _ | node
    · refine .of_eq bound (fun fuel hfuel => ?_) (hfound.trans (.put hi (by simp) rfl rfl (.refl _)))
        (@ih (j + 1) (by omega) counts sys)
      rw [Network.putReplicas]
      dsimp only
      rw [hlookup fuel hfuel]
    · rcases hcopies : Network.addCopy replicationLimit (counts (getId node)) with _ | copies
      · have hnext : PutThread.next sha256 replicationLimit method sys.info
            { thread with point := .replicaLookup j counts (.done (some node)) } =
              .replica (j + 1) counts := by
          simp only [PutThread.next, hcopies]
        refine .of_eq bound (fun fuel hfuel => ?_) (hfound.trans (.put hi (by simp) hnext rfl (.refl _)))
          (@ih (j + 1) (by omega) counts sys)
        rw [Network.putReplicas]
        dsimp only
        rw [hlookup fuel hfuel]
        dsimp only
        rw [hcopies]
      · have hnext : PutThread.next sha256 replicationLimit method sys.info
            { thread with point := .replicaLookup j counts (.done (some node)) } =
              .replicaStore j (Function.update counts (getId node) (some copies)) node := by
          simp only [PutThread.next, hcopies]
        refine .of_eq bound (fun fuel hfuel => ?_)
          (hfound.trans (.put hi (by simp) hnext rfl (.putStore hi (clock (j + 1)) rfl rfl (.refl _))))
          (@ih (j + 1) (by omega) (Function.update counts (getId node) (some copies))
            (sys.setInfo node (PeerImpl.serveSetData (sys.info node) (clock (j + 1))
              (replicaKey thread.key (j + 1)) thread.value thread.ttl)))
        rw [Network.putReplicas]
        dsimp only
        rw [hlookup fuel hfuel]
        dsimp only
        rw [hcopies]
        dsimp only
        rw [System.network_setData]
        rfl

/-- What follows the store of the item. -/
lemma computes_afterStore (hi : i < st.threads.length) (thread : PutThread N) (clock : ℕ → TimePoint)
    (successor : Option N) (sys : System N) :
    Computes sha256 replicationLimit process method bootstrap i st sys thread
      (fun fuel =>
        if 2 ≤ thread.replication then
          Network.putReplicas ⟨sha256, fuel, replicationLimit, clock⟩ thread.self id thread.key.bytes
            thread.value thread.ttl (thread.replication.toNat - 1) 0
            (match successor with
              | some node => Function.update (fun _ => none) (getId node) (some 1)
              | none => fun _ => none)
            (sys.network method)
        else sys.network method)
      (st.place i sys (.put { thread with point := thread.afterStore successor })) := by
  unfold PutThread.afterStore
  split_ifs with hreplication
  · exact computes_putReplicas hi thread clock (Nat.zero_add _) _ sys
  · exact ⟨0, sys.info, fun _ _ => rfl, .refl _⟩

/-- A put handler from its lookup on. -/
lemma computes_put (hi : i < st.threads.length) (thread : PutThread N) (clock : ℕ → TimePoint)
    (sys : System N) :
    Computes sha256 replicationLimit process method bootstrap i st sys thread
      (fun fuel => Network.put ⟨sha256, fuel, replicationLimit, clock⟩ thread.self id thread.key.bytes
        thread.value thread.ttl thread.replication (sys.network method))
      (st.place i sys (.put { thread with point := .lookup (.start thread.self) })) := by
  obtain ⟨bound, result, hlookup, hleads⟩ :=
    sys.exists_lookup method thread.self (sha256 thread.key.bytes)
  have hfound : Alone sha256 replicationLimit process method bootstrap i
      (st.place i sys (.put { thread with point := .lookup (.start thread.self) }))
      (st.place i sys (.put { thread with point := .lookup (.done result) })) :=
    .putLookup hi (by simp) (fun _ => rfl)
      (fun stage hstage => PutThread.next_lookup rfl hstage) hleads
  rcases result with _ | node
  · refine .of_eq bound (fun fuel hfuel => ?_) (hfound.trans (.put hi (by simp) rfl rfl (.refl _)))
      (computes_afterStore hi thread clock none sys)
    simp only [Network.put, hlookup fuel hfuel]
  · refine .of_eq bound (fun fuel hfuel => ?_)
      (hfound.trans (.put hi (by simp) rfl rfl (.putStore hi (clock 0) rfl rfl (.refl _))))
      (computes_afterStore hi thread clock (some node) (sys.setInfo node
        (PeerImpl.serveSetData (sys.info node) (clock 0) thread.key.bytes thread.value thread.ttl)))
    simp only [Network.put, hlookup fuel hfuel, System.network_setData]
    rfl

end Put

/-! ## Get handlers -/

section Get

variable {thread : GetThread N} {point point' : GetPoint N}

/-- A step of a get handler. -/
lemma Alone.get (hi : i < st.threads.length)
    (hnext : GetThread.next sha256 method sys.info
      (getAverageReplicationIndex (st.indices (process thread.self))) { thread with point := point } =
        point')
    (h : Alone sha256 replicationLimit process method bootstrap i
      (st.place i sys (.get { thread with point := point' })) st'') :
    Alone sha256 replicationLimit process method bootstrap i
      (st.place i sys (.get { thread with point := point })) st'' := by
  have hrun := @run_get N _ _ P _ sha256 replicationLimit process method st i sys hi
    { thread with point := point } 0
  rw [hnext] at hrun
  exact .head hrun h

/-- A get handler that waits for a lookup. -/
lemma Alone.getLookup (hi : i < st.threads.length) {wait : Stage N → GetPoint N} {id : IdType}
    {result : Option N}
    (hnext : ∀ stage, (∀ r, stage ≠ .done r) →
      GetThread.next sha256 method sys.info
        (getAverageReplicationIndex (st.indices (process thread.self)))
        { thread with point := wait stage } = wait (stage.next sys.info method id))
    (hleads : Stage.Leads sys.info method id (.start thread.self) (.done result)) :
    Alone sha256 replicationLimit process method bootstrap i
      (st.place i sys (.get { thread with point := wait (.start thread.self) }))
      (st.place i sys (.get { thread with point := wait (.done result) })) := by
  refine @Alone.lookup N _ _ P _ sha256 replicationLimit process method bootstrap st i sys
    (fun stage => .get { thread with point := wait stage }) id (.start thread.self) result ?_ hleads
  intro stage hstage
  rw [run_get hi, hnext stage hstage]

variable (sha256 replicationLimit process method bootstrap) in
/-- From the state `start` the steps of the get handler lead to the response that `result` computes, if
the bound on the steps of a lookup is large enough. -/
def Responds (i : ℕ) (st : Serving N P) (sys : System N) (thread : GetThread N)
    (result : ℕ → Option Bytes) (start : Serving N P) : Prop :=
  ∃ bound response, (∀ fuel ≥ bound, result fuel = response) ∧
    Alone sha256 replicationLimit process method bootstrap i start
      (st.place i sys (.get { thread with point := .reply response }))

lemma Responds.of_eq {result result' : ℕ → Option Bytes} {start start' : Serving N P} (bound : ℕ)
    (heq : ∀ fuel ≥ bound, result fuel = result' fuel)
    (halone : Alone sha256 replicationLimit process method bootstrap i start start')
    (h : Responds sha256 replicationLimit process method bootstrap i st sys thread result' start') :
    Responds sha256 replicationLimit process method bootstrap i st sys thread result start := by
  obtain ⟨bound', response, hresult, hend⟩ := h
  refine ⟨max bound bound', response, fun fuel hfuel => ?_, halone.trans hend⟩
  rw [heq fuel ((le_max_left _ _).trans hfuel), hresult fuel ((le_max_right _ _).trans hfuel)]

/-- The replica loop. -/
lemma responds_loop (hi : i < st.threads.length) (thread : GetThread N) {average : UInt8}
    (haverage : getAverageReplicationIndex (st.indices (process thread.self)) = average)
    {rounds j : ℕ} (hrounds : j + rounds = 257) :
    Responds sha256 replicationLimit process method bootstrap i st sys thread
      (fun fuel => ((sys.network method).calls fuel thread.self average).onDhtGetReplicas
        sha256 thread.key.bytes rounds j)
      (st.place i sys (.get { thread with point := .loop j })) := by
  subst haverage
  have hbound := (getAverageReplicationIndex (st.indices (process thread.self))).toNat_lt
  induction rounds generalizing j with
  | zero =>
    refine ⟨0, none, fun _ _ => rfl, .get hi ?_ (.refl _)⟩
    simp only [GetThread.next]
    rw [if_neg (by omega)]
  | succ rounds ih =>
    by_cases hj : j ≤ (getAverageReplicationIndex (st.indices (process thread.self))).toNat
    · obtain ⟨bound, result, hlookup, hleads⟩ := sys.exists_lookup method thread.self
        (sha256 (replicaKey thread.key j))
      have hbegin : GetThread.next sha256 method sys.info
          (getAverageReplicationIndex (st.indices (process thread.self)))
          { thread with point := .loop j } = .replicaLookup j (.start thread.self) := by
        simp only [GetThread.next]
        rw [if_pos hj]
      have hfound : Alone sha256 replicationLimit process method bootstrap i
          (st.place i sys (.get { thread with point := .loop j }))
          (st.place i sys (.get { thread with point := .replicaLookup j (.done result) })) :=
        .get hi hbegin (.getLookup hi
          (fun stage hstage => GetThread.next_replicaLookup rfl hstage) hleads)
      rw [replicaKey] at hlookup
      rcases result with _ | node
      · refine .of_eq bound (fun fuel hfuel => ?_) (hfound.trans (.get hi rfl (.refl _)))
          (@ih (j + 1) (by omega))
        simp only [Calls.onDhtGetReplicas, Network.calls, hj, if_true, hlookup fuel hfuel]
      · refine ⟨bound, (sys.info node).getData (replicaKey thread.key j), fun fuel hfuel => ?_,
          hfound.trans (.get hi rfl (.get hi rfl (.refl _)))⟩
        simp only [Calls.onDhtGetReplicas, Network.calls, hj, if_true, hlookup fuel hfuel,
          System.network_getData]
        rfl
    · refine ⟨0, none, fun fuel _ => ?_, .get hi ?_ (.refl _)⟩
      · simp only [Calls.onDhtGetReplicas, Network.calls]
        exact if_neg hj
      · simp only [GetThread.next]
        rw [if_neg hj]

/-- A get handler, from its lookup on. -/
lemma responds_get (hi : i < st.threads.length) (thread : GetThread N) {average : UInt8}
    (haverage : getAverageReplicationIndex (st.indices (process thread.self)) = average)
    (sys : System N) :
    ∃ result : ℕ → Option Bytes,
      (∀ fuel, ((sys.network method).calls fuel thread.self average).onDhtGet sha256
        thread.key.bytes = .ofResponse thread.key.bytes (result fuel)) ∧
      Responds sha256 replicationLimit process method bootstrap i st sys thread result
        (st.place i sys (.get { thread with point := .lookup (.start thread.self) })) := by
  refine ⟨fun fuel =>
    let calls := (sys.network method).calls fuel thread.self average
    let response := calls.fetch 0 (sha256 thread.key.bytes) thread.key.bytes
    if response = none ∧ 1 ≤ average then calls.onDhtGetReplicas sha256 thread.key.bytes 256 1
    else response, fun fuel => rfl, ?_⟩
  obtain ⟨bound, result, hlookup, hleads⟩ :=
    sys.exists_lookup method thread.self (sha256 thread.key.bytes)
  have hfound : Alone sha256 replicationLimit process method bootstrap i
      (st.place i sys (.get { thread with point := .lookup (.start thread.self) }))
      (st.place i sys (.get { thread with point := .lookup (.done result) })) :=
    .getLookup hi (fun stage hstage => GetThread.next_lookup rfl hstage) hleads
  -- The response of the node that was found, if one was found.
  obtain ⟨response, hfetch, htested⟩ : ∃ response,
      (∀ fuel ≥ bound, ((sys.network method).calls fuel thread.self average).fetch 0
        (sha256 thread.key.bytes) thread.key.bytes = response) ∧
      Alone sha256 replicationLimit process method bootstrap i
        (st.place i sys (.get { thread with point := .lookup (.start thread.self) }))
        (st.place i sys (.get { thread with point := .test response })) := by
    rcases result with _ | node
    · refine ⟨none, fun fuel hfuel => ?_, hfound.trans (.get hi rfl (.refl _))⟩
      simp only [Calls.fetch, Network.calls, hlookup fuel hfuel]
    · refine ⟨(sys.info node).getData thread.key.bytes, fun fuel hfuel => ?_,
        hfound.trans (.get hi rfl (.get hi rfl (.refl _)))⟩
      simp only [Calls.fetch, Network.calls, hlookup fuel hfuel, System.network_getData]
  by_cases htest : response = none ∧ 1 ≤ average
  · refine .of_eq bound (fun fuel hfuel => ?_) (htested.trans (.get hi ?_ (.refl _)))
      (@responds_loop _ _ _ _ _ _ _ _ _ _ _ _ _ hi thread average haverage 256 1 rfl)
    · simp only [hfetch fuel hfuel]
      rw [if_pos htest]
    · simp only [GetThread.next, haverage]
      rw [if_pos htest]
  · refine ⟨bound, response, fun fuel hfuel => ?_, htested.trans (.get hi ?_ (.refl _))⟩
    · simp only [hfetch fuel hfuel]
      rw [if_neg htest]
    · simp only [GetThread.next, haverage]
      rw [if_neg htest]

end Get

/-! ## Whole requests -/

/-- The deployment after a request, computed by the functions of `Dht.Handlers`. -/
def served (sha256 : Bytes → IdType) (replicationLimit : UInt8) (process : N → P)
    (method : N → GetSuccessorMethod) (clock : ℕ → TimePoint) (st : Serving N P) (self : N)
    (request : ClientRequest) (fuel : ℕ) : Serving N P :=
  let net := st.sys.network method
  match request with
  | .put key value ttl replication =>
      let result := net.onDhtPut ⟨sha256, fuel, replicationLimit, clock⟩ self key.bytes value ttl
        replication (st.indices (process self))
      { sys := { st.sys with info := result.2.info }
        indices := Function.update st.indices (process self) result.1
        threads := st.threads ++ [.put ⟨self, key, value, ttl, replication, .finished, .returned⟩]
        replicationFuture :=
          if 2 ≤ replication then
            Function.update st.replicationFuture self (some st.threads.length)
          else st.replicationFuture
        history := st.history ++
          [.call st.threads.length (.put key value), .ret st.threads.length .echo] }
  | .get key =>
      let reply := (net.calls fuel self
        (getAverageReplicationIndex (st.indices (process self)))).onDhtGet sha256 key.bytes
      { st with
        threads := st.threads ++ [.get ⟨self, key, .returned⟩]
        history := st.history ++
          [.call st.threads.length (.get key), .ret st.threads.length (.reply reply)] }

/-- A request that is called, and what its handler does. -/
lemma exec_call {request : ClientRequest} {self : N} {es : List (ServingEvent N)}
    (hexec : Run.exec (step sha256 replicationLimit process method bootstrap) es
      (st.call self request) = some st') :
    Run.exec (step sha256 replicationLimit process method bootstrap) (.call self request :: es) st =
      some st' :=
  Run.exec_cons_eq_some.mpr ⟨st.call self request, rfl, hexec⟩

omit [Endpoint N] [DecidableEq P] in
lemma assign_put {thread : PutThread N} (hi : st.threads[i]? = some (.put thread))
    (hstored : thread.isStored = true) (hreplication : 2 ≤ thread.replication)
    (hruns : thread.handler = .runs) :
    st.assign i = some { st with
      threads := st.threads.set i (.put { thread with
        handler := .assigned (st.replicationFuture thread.self) })
      replicationFuture := Function.update st.replicationFuture thread.self (some i) } := by
  simp only [assign, hi]
  rw [if_pos ⟨hstored, hreplication, hruns⟩]

omit [Endpoint N] [DecidableEq N] [DecidableEq P] in
lemma reply_put {thread : PutThread N} (hi : st.threads[i]? = some (.put thread))
    (hmay : st.mayReturn thread = true) :
    st.reply i = some { st with
      threads := st.threads.set i (.put { thread with handler := .returned })
      history := st.history ++ [.ret i .echo] } := by
  simp only [reply, hi]
  rw [if_pos hmay]

omit [Endpoint N] [DecidableEq N] [DecidableEq P] in
/-- Whether a replication loop has ended does not depend on where its handler is. -/
lemma hasEnded_set {thread : PutThread N} (hi : st.threads[i]? = some (.put thread))
    (handler : PutHandler) (future : N → Option ℕ) (j : ℕ) :
    hasEnded { st with
      threads := st.threads.set i (.put { thread with handler := handler })
      replicationFuture := future } j = st.hasEnded j := by
  have hlt : i < st.threads.length := (List.getElem?_eq_some_iff.mp hi).1
  unfold hasEnded
  by_cases hij : i = j
  · subst hij
    simp only [List.getElem?_set_self hlt, hi]
    rfl
  · simp only [List.getElem?_set_ne hij]

omit [Endpoint N] [DecidableEq N] [DecidableEq P] in
/-- A new handler leaves the replication loops of the others alone. -/
lemma hasEnded_of_append {thread : ClientThread N} {j : ℕ}
    (hthreads : st'.threads = st.threads ++ [thread]) (hj : st.hasEnded j = true) :
    st'.hasEnded j = true := by
  unfold hasEnded at hj ⊢
  cases hold : st.threads[j]? with
  | none => simp [hold] at hj
  | some old =>
    have hlt := (List.getElem?_eq_some_iff.mp hold).1
    rw [hold] at hj
    simpa only [hthreads, List.getElem?_append_left hlt, hold] using hj

/-- A put handler that has stored its item assigns its replication loop, if there is one, and returns,
if the loop before has ended. -/
lemma exists_exec_return (sha256 : Bytes → IdType) (replicationLimit : UInt8) (process : N → P)
    (method : N → GetSuccessorMethod) (bootstrap : N) {thread : PutThread N}
    (hi : st.threads[i]? = some (.put thread)) (hstored : thread.isStored = true)
    (hruns : thread.handler = .runs)
    (hended : 2 ≤ thread.replication → (st.replicationFuture thread.self).all st.hasEnded = true) :
    ∃ es : List (ServingEvent N), (∀ e ∈ es, e = .assign i ∨ e = .reply i) ∧
      Run.exec (step sha256 replicationLimit process method bootstrap) es st = some { st with
        threads := st.threads.set i (.put { thread with handler := .returned })
        replicationFuture :=
          if 2 ≤ thread.replication then
            Function.update st.replicationFuture thread.self (some i)
          else st.replicationFuture
        history := st.history ++ [.ret i .echo] } := by
  have hlt : i < st.threads.length := (List.getElem?_eq_some_iff.mp hi).1
  by_cases hreplication : 2 ≤ thread.replication
  · -- The loop that is replaced has ended.
    have hmay : mayReturn
        { st with
          threads := st.threads.set i (.put { thread with
            handler := .assigned (st.replicationFuture thread.self) })
          replicationFuture := Function.update st.replicationFuture thread.self (some i) }
        { thread with handler := .assigned (st.replicationFuture thread.self) } = true := by
      rw [mayReturn, funext (hasEnded_set hi _ _)]
      exact Bool.and_eq_true_iff.mpr ⟨hstored, hended hreplication⟩
    refine ⟨[.assign i, .reply i], by simp, Run.exec_cons_eq_some.mpr
      ⟨_, assign_put hi hstored hreplication hruns, Run.exec_cons_eq_some.mpr
        ⟨_, reply_put (List.getElem?_set_self hlt) hmay, ?_⟩⟩⟩
    simp [hreplication, Run.exec]
  · have hmay : st.mayReturn thread = true := by
      simp [mayReturn, hstored, hruns, UInt8.not_le.mp hreplication]
    refine ⟨[.reply i], by simp, Run.exec_cons_eq_some.mpr ⟨_, reply_put hi hmay, ?_⟩⟩
    simp [hreplication, Run.exec]

/-- The steps of a put handler whose request has come in. -/
lemma exists_alone_put (sha256 : Bytes → IdType) (replicationLimit : UInt8) (process : N → P)
    (method : N → GetSuccessorMethod) (bootstrap : N) (clock : ℕ → TimePoint) (st : Serving N P)
    (self : N) (key : IdType) (value : Bytes) (ttl : UInt16) (replication : UInt8) :
    ∃ bound info st',
      (∀ fuel ≥ bound, (st.sys.network method).put ⟨sha256, fuel, replicationLimit, clock⟩ self id
        key.bytes value ttl replication = ({ st.sys with info := info } : System N).network method) ∧
      Alone sha256 replicationLimit process method bootstrap st.threads.length
        (st.call self (.put key value ttl replication)) st' ∧
      st' =
        { sys := { st.sys with info := info }
          indices := Function.update st.indices (process self)
            (setReplicationIndex (st.indices (process self)) replication)
          threads := st.threads ++ [.put ⟨self, key, value, ttl, replication, .finished, .runs⟩]
          replicationFuture := st.replicationFuture
          history := st.history ++ [.call st.threads.length (.put key value)] } := by
  -- The first step takes down the replication index.
  let thread : PutThread N := ⟨self, key, value, ttl, replication, .entry, .runs⟩
  let begun : Serving N P := { st.call self (.put key value ttl replication) with
    indices := Function.update st.indices (process self)
      (setReplicationIndex (st.indices (process self)) replication) }
  have hbegun : (st.call self (.put key value ttl replication)).run sha256 replicationLimit process
      method st.threads.length 0 = some (begun.place st.threads.length st.sys
        (.put { thread with point := .lookup (.start self) })) := by
    simp [run, call, place, stored, PutThread.write, PutThread.next, recorded, begun, thread]
  obtain ⟨bound, info, hput, halone⟩ := @computes_put N _ _ P _ sha256 replicationLimit process method
    bootstrap begun st.threads.length (by simp [begun, call]) thread clock st.sys
  exact ⟨bound, info, _, hput, halone.head hbegun, by simp [place, begun, call, thread]⟩

/-- The steps of a get handler whose request has come in. -/
lemma exists_alone_get (sha256 : Bytes → IdType) (replicationLimit : UInt8) (process : N → P)
    (method : N → GetSuccessorMethod) (bootstrap : N) (st : Serving N P) (self : N) (key : IdType) :
    ∃ bound response,
      (∀ fuel ≥ bound, ((st.sys.network method).calls fuel self
        (getAverageReplicationIndex (st.indices (process self)))).onDhtGet sha256 key.bytes =
          .ofResponse key.bytes response) ∧
      Alone sha256 replicationLimit process method bootstrap st.threads.length
        (st.call self (.get key))
        { st with
          threads := st.threads ++ [.get ⟨self, key, .reply response⟩]
          history := st.history ++ [.call st.threads.length (.get key)] } := by
  obtain ⟨result, hresult, bound, response, hresponse, halone⟩ := @responds_get N _ _ P _ sha256
    replicationLimit process method bootstrap (st.call self (.get key)) st.threads.length
    (by simp [call]) ⟨self, key, .lookup (.start self)⟩ _ rfl st.sys
  refine ⟨bound, response, fun fuel hfuel => ?_, ?_⟩
  · exact hresponse fuel hfuel ▸ hresult fuel
  · simpa [place, call] using halone

/-- **Requests served alone.**  A request comes in, its handler takes its steps and returns, and nothing
else happens meanwhile.  The deployment is then what the functions of `Dht.Handlers` compute, for any
bound on the steps of a lookup that is large enough.  The replication loop that a put with replicas
replaces in `m_replicationFuture` has to have ended, since the handler waits for it. -/
theorem call_alone (sha256 : Bytes → IdType) (replicationLimit : UInt8) (process : N → P)
    (method : N → GetSuccessorMethod) (bootstrap : N) (clock : ℕ → TimePoint) (st : Serving N P)
    (self : N) (request : ClientRequest)
    (hended : 2 ≤ request.replication → (st.replicationFuture self).all st.hasEnded = true) :
    ∃ bound es,
      (∀ e ∈ es, e = .assign st.threads.length ∨ e = .reply st.threads.length ∨
        ∃ now, e = .run st.threads.length now) ∧
      ∀ fuel ≥ bound, Run.exec (step sha256 replicationLimit process method bootstrap)
        (.call self request :: es) st =
          some (st.served sha256 replicationLimit process method clock self request fuel) := by
  cases request with
  | put key value ttl replication =>
    obtain ⟨bound, info, st₁, hput, ⟨es, hes, hexec⟩, hst₁⟩ := exists_alone_put sha256 replicationLimit
      process method bootstrap clock st self key value ttl replication
    have hi : st₁.threads[st.threads.length]? =
        some (.put ⟨self, key, value, ttl, replication, .finished, .runs⟩) := by
      simp [hst₁]
    have hended₁ : 2 ≤ replication → (st₁.replicationFuture self).all st₁.hasEnded = true := by
      intro hreplication
      have hfuture : st₁.replicationFuture = st.replicationFuture := by rw [hst₁]
      have hbefore := hended hreplication
      rw [hfuture]
      cases hj : st.replicationFuture self with
      | none => rfl
      | some j =>
        rw [hj] at hbefore
        exact hasEnded_of_append (by rw [hst₁]) hbefore
    obtain ⟨es', hes', hexec'⟩ := exists_exec_return sha256 replicationLimit process method bootstrap hi
      rfl rfl hended₁
    refine ⟨bound, es ++ es', ?_, fun fuel hfuel => ?_⟩
    · intro e he
      rcases List.mem_append.mp he with hrun | hreturn
      · exact Or.inr (Or.inr (hes e hrun))
      · exact (hes' e hreturn).imp_right Or.inl
    · rw [exec_call (Run.exec_append_eq_some.mpr ⟨_, hexec, hexec'⟩)]
      simp only [served, Network.onDhtPut, hput fuel hfuel]
      simp [System.network, hst₁]
  | get key =>
    obtain ⟨bound, response, hget, es, hes, hexec⟩ := exists_alone_get sha256 replicationLimit process
      method bootstrap st self key
    refine ⟨bound, es ++ [.reply st.threads.length], ?_, fun fuel hfuel => ?_⟩
    · intro e he
      rcases List.mem_append.mp he with hrun | hreply
      · exact Or.inr (Or.inr (hes e hrun))
      · exact Or.inr (Or.inl (List.mem_singleton.mp hreply))
    · have hreply : reply
          { st with
            threads := st.threads ++ [.get ⟨self, key, .reply response⟩]
            history := st.history ++ [.call st.threads.length (.get key)] } st.threads.length =
          some (st.served sha256 replicationLimit process method clock self (.get key) fuel) := by
        simp [reply, served, hget fuel hfuel]
      exact exec_call (Run.exec_append_eq_some.mpr
        ⟨_, hexec, Run.exec_cons_eq_some.mpr ⟨_, hreply, rfl⟩⟩)

/-- On the ring of the ids `40…` and `80…` the node `40…` has served a put, whose replication loop is in
`m_replicationFuture` and has ended. -/
def servedPair : Serving IdType Unit where
  sys := System.pair (idOf 0x40) (idOf 0x80) fun _ => ∅
  indices := fun _ => [3]
  threads := [.put ⟨idOf 0x40, idOf 7, [1], 0, 3, .finished, .returned⟩]
  replicationFuture := Function.update (fun _ => none) (idOf 0x40) (some 0)
  history := [.call 0 (.put (idOf 7) [1]), .ret 0 .echo]

/-- The next put with replicas at this node returns. -/
theorem call_alone_servedPair : ∃ bound es,
    (∀ e ∈ es, e = .assign 1 ∨ e = .reply 1 ∨ ∃ now, e = .run 1 now) ∧
    ∀ fuel ≥ bound, Run.exec (step (fun _ => idOf 0x60) 2 (fun _ => ()) (fun _ => .localHops)
        (idOf 0x40)) (.call (idOf 0x40) (.put (idOf 8) [2] 0 3) :: es) servedPair =
      some (servedPair.served (fun _ => idOf 0x60) 2 (fun _ => ()) (fun _ => .localHops) (fun _ => 0)
        (idOf 0x40) (.put (idOf 8) [2] 0 3) fuel) :=
  call_alone (fun _ => idOf 0x60) 2 (fun _ => ()) (fun _ => .localHops) (idOf 0x40) (fun _ => 0)
    servedPair (idOf 0x40) (.put (idOf 8) [2] 0 3) (by decide)

end Serving

end ChordPlusPlus
