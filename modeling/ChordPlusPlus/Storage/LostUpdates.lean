import ChordPlusPlus.Storage.Join

/-!
# Puts while nodes join

Joins and `DHT_PUT` requests in any interleaving.  A put is a lookup followed by a store request to
the node found.  A joining node is handed its items before its successor learns of it, so between
the two moments the store requests for the new node's arc still go to the successor, and nothing
moves them later.  Two nodes that join the same gap can miss each other's items in the same way.

The nodes whose handover has been served divide the circle.  As long as every store request
reaches the node in charge among them, and every handover is served by the node in charge of the new
node, each key has its last value at the node in charge of it, or on the way there.
-/

namespace ChordPlusPlus

namespace System

variable {N : Type*}

/-- The node has taken over its arc: it has created the ring, or its handover has been served. -/
def TookOver (sys : System N) (m : N) : Prop :=
  sys.Joined m ∧ sys.phase m ≠ .requesting

/-- Among the nodes that have taken over, `t` is the first one at or after `id`. -/
def InCharge [Endpoint N] (sys : System N) (id : IdType) (t : N) : Prop :=
  sys.TookOver t ∧ ∀ m, sys.TookOver m → Arc.HalfOpen (getId m) id (getId t)

/-- At most one node is in charge of a point. -/
lemma InCharge.unique [Endpoint N] {sys : System N} {id : IdType} {t u : N}
    (ht : sys.InCharge id t) (hu : sys.InCharge id u) : t = u := by
  have h1 := ht.2 u hu.1
  have h2 := hu.2 t ht.1
  apply getId_injective
  grind [Arc.HalfOpen]

/-- The items of a handover that the node has yet to store. -/
def arriving (sys : System N) (m : N) : List DataItem :=
  match sys.phase m with
  | .storing items => items
  | _ => []

/-- The store of a node once it has stored what is on the way to it. -/
def store (sys : System N) (m : N) : DataType :=
  (PeerImpl.storeDataItems (sys.info m) (sys.arriving m)).data

lemma arriving_eq_nil {sys : System N} {m : N} (h : ¬ (sys.phase m).InJoin) :
    sys.arriving m = [] := by
  unfold arriving
  cases hphase : sys.phase m with
  | storing items => exact absurd (by rw [hphase]; trivial) h
  | idle | asking | requesting | stabilizing _ _ | fixing _ => rfl

/-- Without items on the way, the store of a node is its own. -/
lemma store_of_not_inJoin {sys : System N} {m : N} (h : ¬ (sys.phase m).InJoin) :
    sys.store m = (sys.info m).data := by
  rw [store, arriving_eq_nil h]
  rfl

lemma store_congr {sys sys' : System N} {m : N} (hdata : (sys'.info m).data = (sys.info m).data)
    (harriving : sys'.arriving m = sys.arriving m) : sys'.store m = sys.store m := by
  simp [store, PeerImpl.storeDataItems_data, hdata, harriving]

section Steps

variable [DecidableEq N] [Endpoint N] {sha256 : Bytes → IdType} {b : N} {a : Action N}
  {sys sys' : System N}

/-- A node begins to wait for its handover with the answer of the bootstrap node, and ends when it
is served. -/
lemma requesting_step (h : step sha256 b a sys = some sys') (m : N) :
    (sys'.phase m = .requesting ↔ sys.phase m = .requesting) ∨ a = .handover m ∨
      (∃ s, a = .joinAnswer m s) ∧ sys.phase m = .asking ∧ sys'.phase m = .requesting := by
  rcases phase_cases h m with heq | hmove
  · exact Or.inl (by rw [heq])
  · generalize sys.phase m = old, sys'.phase m = new at *
    cases hmove with
    | answered _ s => exact Or.inr (Or.inr ⟨⟨s, rfl⟩, rfl, rfl⟩)
    | served _ _ => exact Or.inr (Or.inl rfl)
    | asks | refused | stored | reads | acts | finds | sets => exact Or.inl (by simp)

/-- A node that has taken over stays so. -/
lemma tookOver_step (hinv : PointerInv b sys) (h : step sha256 b a sys = some sys') {m : N}
    (hm : sys.TookOver m) : sys'.TookOver m := by
  refine ⟨joined_step hinv h hm.1, ?_⟩
  intro hrequesting
  rcases requesting_step h m with hiff | rfl | ⟨-, hasking, -⟩
  · exact hm.2 (hiff.mp hrequesting)
  · obtain ⟨hphase, -⟩ := step_handover h
    exact hm.2 hphase
  · exact hm.1 (hinv.asking m hasking)

/-- A node takes over by creating the ring or by a handover. -/
lemma tookOver_of_step (hinv : PointerInv b sys) (h : step sha256 b a sys = some sys') {m : N}
    (hm : sys'.TookOver m) : sys.TookOver m ∨ a = .create ∧ m = b ∨ a = .handover m := by
  by_cases hrequesting : sys.phase m = .requesting
  · rcases requesting_step h m with hiff | hact | ⟨-, -, hnew⟩
    · exact absurd (hiff.mpr hrequesting) hm.2
    · exact Or.inr (Or.inr hact)
    · exact absurd hnew hm.2
  · by_cases hjoined : sys.Joined m
    · exact Or.inl ⟨hjoined, hrequesting⟩
    · have hm' := hm.1
      unfold Joined at hjoined hm'
      cases succ_step hinv h with
      | same heq => exact absurd (heq ▸ hm') hjoined
      | created hact _ heq =>
        by_cases hmb : m = b
        · exact Or.inr (Or.inl ⟨hact, hmb⟩)
        · exact absurd (by simpa [heq, hmb] using hm') hjoined
      | joined n s hact _ _ heq =>
        by_cases hmn : m = n
        · subst hact hmn
          obtain ⟨-, -, rfl⟩ := step_joinAnswer h
          exact absurd (by simp) hm.2
        · exact absurd (by simpa [heq, hmn] using hm') hjoined
      | shortened n s x _ _ hs _ heq =>
        by_cases hmn : m = n
        · exact absurd (by rw [hmn, hs]; exact Option.some_ne_none s) hjoined
        · exact absurd (by simpa [heq, hmn] using hm') hjoined

/-- Items are on the way to a node from its handover until it stores them. -/
lemma arriving_step (h : step sha256 b a sys = some sys') {m : N} (hhandover : a ≠ .handover m)
    (hstore : a ≠ .storeItems m) : sys'.arriving m = sys.arriving m := by
  unfold arriving
  rcases phase_cases h m with heq | hmove
  · rw [heq]
  · generalize sys.phase m = old, sys'.phase m = new at *
    cases hmove with
    | served => exact absurd rfl hhandover
    | stored => exact absurd rfl hstore
    | asks | answered | refused | reads | acts | finds | sets => rfl

/-- Apart from handovers, no step changes what a node has stored or is about to store. -/
lemma store_step (h : step sha256 b a sys = some sys') (hhandover : ∀ t, a ≠ .handover t) (m : N) :
    sys'.store m = sys.store m := by
  by_cases hstore : ∃ t, a = .storeItems t
  · obtain ⟨t, rfl⟩ := hstore
    by_cases hmt : m = t
    · subst hmt
      obtain ⟨items, hphase, rfl⟩ := step_storeItems h
      simp [store, arriving, hphase, PeerImpl.storeDataItems]
    · refine store_congr ?_ (arriving_step h (by simp) (by simpa using Ne.symm hmt))
      obtain ⟨items, -, rfl⟩ := step_storeItems h
      simp [hmt]
  · have hstore' : ∀ t, a ≠ .storeItems t := fun t ht => hstore ⟨t, ht⟩
    exact store_congr (data_step hhandover hstore' h m)
      (arriving_step h (hhandover m) (hstore' m))

/-- What a handover does to the stores if `s` is in charge of the new node `n`: the items that come
under the charge of `n` are on the way to `n`, and all other nodes keep what they are in charge of. -/
lemma store_handover {n s q : N} (hinv : PointerInv b sys) (hs : sys.succ n = some s)
    (hq : sys.pred s = some q) (hqover : sys.TookOver q) (hcharge : sys.InCharge (getId n) s)
    (hsettled : ¬ (sys.phase s).InJoin)
    (h : step sha256 b (.handover n) sys = some sys') {t : N} {k : Bytes}
    (ht : sys'.InCharge (sha256 k) t) :
    ∃ t₀, sys.InCharge (sha256 k) t₀ ∧ ∀ v, ((sys.store t₀).lookup k).map Prod.fst = some v →
      ((sys'.store t).lookup k).map Prod.fst = some v := by
  have hold : ∀ m, sys.TookOver m → sys'.TookOver m := fun m hm => tookOver_step hinv h hm
  have hnew : ∀ m, sys'.TookOver m → m = n ∨ sys.TookOver m := by
    intro m hm
    rcases tookOver_of_step hinv h hm with hm | ⟨hact, -⟩ | hact
    · exact Or.inr hm
    · cases hact
    · cases hact
      exact Or.inl rfl
  have hn : sys'.Joined n := joined_step hinv h (by rw [Joined, hs]; exact Option.some_ne_none s)
  obtain ⟨hrequesting, s', items, info, hs', hcase, -, -, rfl⟩ := step_handover h
  obtain rfl : s' = s := Option.some.inj (hs'.symm.trans ((hinv.getSuccessor_eq n).trans hs))
  have hns : n ≠ s' := by
    rintro rfl
    exact hcharge.1.2 hrequesting
  have hopen : Arc.Open (getId q) (getId n) (getId s') := by
    have hin := hcharge.2 q hqover
    have hne : getId n ≠ getId s' := fun heq => hns (getId_injective heq)
    grind [Arc.Open, Arc.HalfOpen]
  obtain ⟨info', items', hserve, hkept, hmoved⟩ :=
    @PeerImpl.getDataItemsOnJoin_eq _ _ sha256 s' n q (sys.info s') hq hopen
  obtain ⟨rfl, rfl⟩ : info = info' ∧ items = items' := by
    rw [hserve] at hcase
    simpa [eq_comm] using hcase
  by_cases htn : t = n
  · -- The new node takes over a part of the charge of `s`, and is sent the items there.
    subst htn
    refine ⟨s', ⟨hcharge.1, ?_⟩, ?_⟩
    · intro m hm
      have h1 := ht.2 m (hold m hm)
      have h2 := hcharge.2 m hm
      grind [Arc.HalfOpen]
    · intro v hv
      rw [store_of_not_inJoin hsettled] at hv
      obtain ⟨e, he, rfl⟩ := Option.map_eq_some_iff.mp hv
      have hin := ht.2 q (hold q hqover)
      simp [store, arriving, hns, hmoved, hin, he]
  · have htover : sys.TookOver t := (hnew t ht.1).resolve_left htn
    refine ⟨t, ⟨htover, fun m hm => ht.2 m (hold m hm)⟩, ?_⟩
    intro v hv
    by_cases hts : t = s'
    · -- The serving node gives away nothing on its side of the new node.
      subst hts
      have hnover : ((sys.setInfo t info).setPhase n (.storing items)).TookOver n :=
        ⟨hn, by simp⟩
      have hbeyond := ht.2 n hnover
      have hout : ¬ Arc.HalfOpen (getId q) (sha256 k) (getId n) := by
        grind [Arc.Open, Arc.HalfOpen]
      have hphase : ((sys.setInfo t info).setPhase n (.storing items)).phase t = sys.phase t := by
        simp [htn]
      rw [store_of_not_inJoin hsettled] at hv
      rw [store_of_not_inJoin (by rwa [hphase])]
      simpa [hkept, hout] using hv
    · have hsame : ((sys.setInfo s' info).setPhase n (.storing items)).store t = sys.store t :=
        store_congr (by simp [hts]) (by simp [arriving, htn])
      rwa [hsame]

end Steps

end System

/-! ## Joins and puts -/

/-- A put whose lookup has found `node`.  A replica is stored by such a request too, under its own
key. -/
structure PutRequest (N : Type*) where
  node : N
  key : Bytes
  value : Bytes
  ttl : UInt16
deriving DecidableEq

/-- A deployment with clients. -/
structure Deployment (N : Type*) where
  sys : System N
  /-- The store requests that have not arrived. -/
  pending : List (PutRequest N)
  /-- The value of the last completed put of each key. -/
  last : Bytes → Option Bytes

/-- A step of the nodes, or one of the two steps of a put. -/
inductive ClientAction (N : Type*)
  | node (a : Action N)
  | lookup (self : N) (request : PutRequest N)
  | store (request : PutRequest N) (now : TimePoint)

namespace Deployment

variable {N : Type*}

/-- Before any node has entered its main loop. -/
def initial : Deployment N := ⟨System.initial, [], fun _ => none⟩

variable [DecidableEq N] [Endpoint N] (sha256 : Bytes → IdType) (b : N)

/-- One step.  A put is completed when the node found has stored the item. -/
def step : ClientAction N → Deployment N → Option (Deployment N)
  | .node a, d => (System.step sha256 b a d.sys).map fun sys => { d with sys := sys }
  | .lookup self request, d =>
      if d.sys.lookupMay self (sha256 request.key) (some request.node) = true then
        some { d with pending := request :: d.pending }
      else none
  | .store request now, d =>
      if request ∈ d.pending then
        some
          { sys := d.sys.setInfo request.node (PeerImpl.serveSetData (d.sys.info request.node) now
              request.key request.value request.ttl)
            pending := d.pending.erase request
            last := Function.update d.last request.key (some request.value) }
      else none

/-- The condition on the state before a step.  A handover is served by the node in charge of the new
node, which knows a predecessor; a store request arrives at the node in charge of its key; and
neither of these nodes is itself waiting for the items of a handover. -/
def Orderly : ClientAction N → Deployment N → Prop
  | .node (.handover n), d => ∀ s, (d.sys.info n).getSuccessor = some s →
      d.sys.pred s ≠ none ∧ d.sys.InCharge (getId n) s ∧ ¬ (d.sys.phase s).InJoin
  | .store request _, d =>
      d.sys.InCharge (sha256 request.key) request.node ∧ ¬ (d.sys.phase request.node).InJoin
  | _, _ => True

/-- No message is in flight: every node is between two steps of its loop, and every `notify` and every
store request has arrived. -/
structure Quiet (d : Deployment N) : Prop where
  idle : ∀ m, d.sys.phase m = .idle
  notified : d.sys.notifies = []
  stored : d.pending = []

/-- The invariant of orderly runs. -/
structure Safe (d : Deployment N) : Prop where
  pointers : System.PointerInv b d.sys
  /-- Only nodes that have taken over are remembered as predecessors. -/
  known : ∀ p s, d.sys.Knows p s → d.sys.TookOver p
  /-- Nothing is put before the ring exists. -/
  started : ∀ k v, d.last k = some v → d.sys.Joined b
  /-- The node in charge of a key has its last value, or is about to store it. -/
  held : ∀ k v t, d.last k = some v → d.sys.InCharge (sha256 k) t →
    ((d.sys.store t).lookup k).map Prod.fst = some v

variable {sha256 b} {d d' : Deployment N}

omit [DecidableEq N] in
lemma Safe.initial : Safe sha256 b (initial : Deployment N) where
  pointers := System.PointerInv.initial b
  known := by
    rintro p s (h | h | ⟨n, h⟩)
    · cases h
    · cases h
    · cases h
  started := fun _ _ h => nomatch h
  held := fun _ _ _ h => nomatch h

/-- A step of the nodes remembers only nodes that have taken over. -/
lemma known_step {a : Action N} {sys sys' : System N} (hinv : System.PointerInv b sys)
    (hknown : ∀ p s, sys.Knows p s → sys.TookOver p)
    (h : System.step sha256 b a sys = some sys') {p s : N} (hknows : sys'.Knows p s) :
    sys'.TookOver p := by
  have hold : sys.Knows p s → sys'.TookOver p :=
    fun hk => System.tookOver_step hinv h (hknown p s hk)
  rcases hknows with hpred | hmem | ⟨n, hphase⟩
  · cases System.pred_step hinv h with
    | same heq => exact hold (Or.inl (heq ▸ hpred))
    | moved m t _ hmem _ heq _ =>
      by_cases hst : s = t
      · subst hst
        obtain rfl : m = p := by simpa [heq] using hpred
        exact hold (Or.inr (Or.inl hmem))
      · exact hold (Or.inl (by simpa [heq, hst] using hpred))
  · rcases System.notifies_step hinv h hmem with hmem | ⟨rfl, -⟩
    · exact hold (Or.inr (Or.inl hmem))
    · -- The sender was in `stabilize`, which it runs only after its join.
      obtain ⟨t, x, hphase, -⟩ := System.step_stabilizeAct h
      refine System.tookOver_step hinv h ⟨?_, by simp [hphase]⟩
      rw [System.Joined, hinv.stabilizing p t x hphase]
      exact Option.some_ne_none t
  · rcases (System.phase_step hinv h n).of_stabilizing hphase with ⟨hphase, -⟩ | ⟨hp, -, hpred⟩
    · exact hold (Or.inr (Or.inr ⟨n, hphase⟩))
    · exact hold (Or.inl (hpred ▸ hp.symm))

/-- An orderly step of the nodes keeps the invariant. -/
lemma Safe.node {a : Action N} {sys : System N} (h : Safe sha256 b d)
    (horderly : Orderly sha256 (.node a) d) (hstep : System.step sha256 b a d.sys = some sys) :
    Safe sha256 b { d with sys := sys } where
  pointers := h.pointers.step hstep
  known := fun _ _ hknows => known_step h.pointers h.known hstep hknows
  started := fun k v hlast => System.joined_step h.pointers hstep (h.started k v hlast)
  held := by
    intro k v t hlast ht
    by_cases hhandover : ∃ n, a = .handover n
    · obtain ⟨n, rfl⟩ := hhandover
      obtain ⟨-, s, -, -, hs, -⟩ := System.step_handover hstep
      obtain ⟨hpred, hcharge, hsettled⟩ := horderly s hs
      obtain ⟨q, hq⟩ := Option.ne_none_iff_exists'.mp hpred
      rw [h.pointers.getSuccessor_eq] at hs
      obtain ⟨t₀, ht₀, hkeep⟩ := System.store_handover h.pointers hs hq
        (h.known q s (Or.inl hq)) hcharge hsettled hstep ht
      exact hkeep v (h.held k v t₀ hlast ht₀)
    · rw [System.store_step hstep (fun n hn => hhandover ⟨n, hn⟩)]
      refine h.held k v t hlast ⟨?_, ?_⟩
      · rcases System.tookOver_of_step h.pointers hstep ht.1 with htook | ⟨rfl, -⟩ | hact
        · exact htook
        · -- Nothing has been put before the ring is created.
          obtain ⟨-, hnone, -⟩ := System.step_create hstep
          rw [h.pointers.getSuccessor_eq] at hnone
          exact absurd hnone (h.started k v hlast)
        · exact absurd ⟨t, hact⟩ hhandover
      · exact fun m hm => ht.2 m (System.tookOver_step h.pointers hstep hm)

/-- A store request that arrives at the node in charge keeps the invariant. -/
lemma Safe.store {request : PutRequest N} {now : TimePoint} (h : Safe sha256 b d)
    (horderly : Orderly sha256 (.store request now) d)
    (hstep : step sha256 b (.store request now) d = some d') : Safe sha256 b d' := by
  obtain ⟨hcharge, hsettled⟩ := horderly
  simp only [step] at hstep
  split_ifs at hstep with hpending
  obtain rfl := Option.some.inj hstep
  set info := PeerImpl.serveSetData (d.sys.info request.node) now request.key request.value
    request.ttl with hinfo
  have hsucc : (d.sys.setInfo request.node info).succ = d.sys.succ :=
    System.setInfo_succ_of_fingerTable _ _ _ rfl
  have hpred : (d.sys.setInfo request.node info).pred = d.sys.pred := by
    rw [System.setInfo_pred]
    exact Function.update_eq_self request.node d.sys.pred
  have hfinger : ∀ m, ((d.sys.setInfo request.node info).info m).fingerTable =
      (d.sys.info m).fingerTable := by
    intro m
    by_cases hm : m = request.node
    · subst hm
      simp [hinfo, PeerImpl.serveSetData, NodeInformation.setData, NodeInformation.setDataExpires]
    · simp [hm]
  have htook : ∀ m, (d.sys.setInfo request.node info).TookOver m ↔ d.sys.TookOver m := by
    intro m
    rw [System.TookOver, System.TookOver, System.Joined, System.Joined, hsucc,
      System.setInfo_phase]
  refine ⟨h.pointers.congr hsucc hpred hfinger rfl rfl rfl, ?_, ?_, ?_⟩
  · intro p s hknows
    rw [System.Knows, hpred] at hknows
    exact (htook p).mpr (h.known p s hknows)
  · intro _ _ _
    rw [System.Joined, hsucc]
    exact h.pointers.bootstrap_joined request.node hcharge.1.1
  · intro k v t hlast ht
    have ht' : d.sys.InCharge (sha256 k) t :=
      ⟨(htook t).mp ht.1, fun m hm => ht.2 m ((htook m).mpr hm)⟩
    have hsettled' : ¬ ((d.sys.setInfo request.node info).phase request.node).InJoin := hsettled
    have hstore := System.store_of_not_inJoin hsettled'
    rw [System.setInfo_info, Function.update_self] at hstore
    by_cases hk : k = request.key
    · subst hk
      obtain rfl := hcharge.unique ht'
      obtain rfl : request.value = v := by simpa using hlast
      rw [hstore]
      simp [hinfo, PeerImpl.serveSetData, NodeInformation.setData, NodeInformation.setDataExpires]
    · have hold := h.held k v t (by simpa [hk] using hlast) ht'
      by_cases htn : t = request.node
      · subst htn
        rw [System.store_of_not_inJoin hsettled] at hold
        rw [hstore]
        simpa [hinfo, PeerImpl.serveSetData, NodeInformation.setData,
          NodeInformation.setDataExpires, AList.lookup_insert_ne hk] using hold
      · have hsame : (d.sys.setInfo request.node info).store t = d.sys.store t :=
          System.store_congr (by simp [htn]) rfl
        exact hsame ▸ hold

/-- An orderly step keeps the invariant. -/
lemma Safe.step {a : ClientAction N} (h : Safe sha256 b d) (horderly : Orderly sha256 a d)
    (hstep : Deployment.step sha256 b a d = some d') : Safe sha256 b d' := by
  cases a with
  | node a =>
    obtain ⟨sys, hsys, rfl⟩ := Option.map_eq_some_iff.mp hstep
    exact h.node horderly hsys
  | lookup self request =>
    simp only [Deployment.step] at hstep
    split_ifs at hstep
    obtain rfl := Option.some.inj hstep
    exact ⟨h.pointers, h.known, h.started, h.held⟩
  | store request now => exact h.store horderly hstep

/-- In every run whose steps are orderly, as soon as no message is in flight and the nodes that have
joined form an ideal ring, the node responsible for the hash of a key has the value of the last
completed put of the key, and a get at any node answers with it. -/
theorem no_update_lost {method : N → GetSuccessorMethod} {ring : Finset N}
    {as : List (ClientAction N)} (hexec : Run.exec (Deployment.step sha256 b) as initial = some d)
    (horderly : Run.Meets (Deployment.step sha256 b) (Orderly sha256) as initial)
    (hquiet : d.Quiet) (hideal : IsIdeal (d.sys.network method) ring)
    (hring : ∀ m, d.sys.Joined m → m ∈ ring) {k v : Bytes} (hlast : d.last k = some v) :
    (∃ s, Arc.Owns getId ring (sha256 k) s ∧ (d.sys.info s).getData k = some v) ∧
      ∀ m ∈ ring, ∀ fuel ≥ ring.card + 3, ∀ average,
        ((d.sys.network method).calls fuel m average).onDhtGet sha256 k = .dhtSuccess k v := by
  have hsafe : Safe sha256 b d :=
    Run.exec_invariant_of_meets (fun _ _ _ h ho hs => h.step ho hs) horderly Safe.initial hexec
  obtain ⟨s, hown⟩ := @Arc.exists_owns N IdType _ getId _ hideal.nonempty (sha256 k)
  have hcharge : d.sys.InCharge (sha256 k) s := by
    refine ⟨⟨?_, by simp [hquiet.idle]⟩, fun m hm => hown.halfOpen (hring m hm.1)⟩
    obtain ⟨t, ht, -⟩ := hideal.successor s hown.mem
    rw [System.Joined, show d.sys.succ s = some t from ht]
    exact Option.some_ne_none t
  have hdata : (d.sys.info s).getData k = some v := by
    have hheld := hsafe.held k v s hlast hcharge
    rwa [System.store_of_not_inJoin (by rw [hquiet.idle]; exact id)] at hheld
  refine ⟨⟨s, hown, hdata⟩, ?_⟩
  intro m hm fuel hfuel average
  have hfetch := hideal.fetch_eq hm hown hfuel average 0 k
  rw [show ((d.sys.network method).info s).getData k = some v from hdata] at hfetch
  simp [Calls.onDhtGet, hfetch, Reply.ofResponse]

/-! ## Two endpoints -/

section Decidable

variable [Fintype N]

instance (phase : Phase N) : Decidable phase.InJoin :=
  match phase with
  | .asking | .requesting | .storing _ => isTrue trivial
  | .idle | .stabilizing _ _ | .fixing _ => isFalse id

instance (sys : System N) (m : N) : Decidable (sys.TookOver m) :=
  inferInstanceAs (Decidable (sys.succ m ≠ none ∧ sys.phase m ≠ .requesting))

instance (sys : System N) (id : IdType) (t : N) : Decidable (sys.InCharge id t) :=
  inferInstanceAs (Decidable
    (sys.TookOver t ∧ ∀ m, sys.TookOver m → Arc.HalfOpen (getId m) id (getId t)))

instance : ∀ (a : ClientAction N) (d : Deployment N), Decidable (Orderly sha256 a d)
  | .node (.handover n), d => inferInstanceAs (Decidable
      (∀ s, (d.sys.info n).getSuccessor = some s →
        d.sys.pred s ≠ none ∧ d.sys.InCharge (getId n) s ∧ ¬ (d.sys.phase s).InJoin))
  | .store request _, d => inferInstanceAs (Decidable
      (d.sys.InCharge (sha256 request.key) request.node ∧
        ¬ (d.sys.phase request.node).InJoin))
  | .lookup _ _, _ | .node .create, _ | .node (.joinStart _), _ | .node (.joinAnswer _ _), _
  | .node (.joinRefused _), _ | .node (.storeItems _), _ | .node (.stabilizeRead _), _
  | .node (.stabilizeAct _), _ | .node (.deliverNotify _ _), _ | .node (.fixFingersLookup _ _), _
  | .node (.fixFingersSet _), _ | .node (.checkPredecessor _), _ => isTrue trivial

end Decidable

end Deployment

/-- The endpoints of a small deployment, with the ids `40…` and `80…`. -/
inductive Two
  | low
  | high
deriving DecidableEq

instance : Fintype Two := ⟨{.low, .high}, fun m => by cases m <;> decide⟩

instance : Endpoint Two where
  getId
    | .low => idOf 0x40
    | .high => idOf 0x80
  getId_injective := by
    intro a b hab
    cases a <;> cases b <;> first | rfl | exact absurd hab (by decide)

namespace Deployment

/-- A hash for the example: the first byte of the key decides. -/
def firstByte (key : Bytes) : IdType := idOf (key.headD 0)

/-- The node `40…` creates the ring and comes to know itself as its predecessor; the node `80…` asks
for its place. -/
def ringRun : List (ClientAction Two) :=
  [.node .create, .node (.stabilizeRead .low), .node (.stabilizeAct .low),
    .node (.deliverNotify .low .low), .node (.joinStart .high)]

/-- The node `80…` is answered, served, and stores the reply. -/
def joinRun : List (ClientAction Two) :=
  [.node (.joinAnswer .high .low), .node (.handover .high), .node (.storeItems .high)]

/-- The value `[7]` is put under a key with the hash `60…` and goes to the node `40…`. -/
def putRun : List (ClientAction Two) :=
  [.lookup .low ⟨.low, [0x60], [7], 0⟩, .store ⟨.low, [0x60], [7], 0⟩ 0]

/-- Both nodes stabilize. -/
def settleRun : List (ClientAction Two) :=
  [.node (.stabilizeRead .high), .node (.stabilizeAct .high), .node (.deliverNotify .high .low),
    .node (.stabilizeRead .low), .node (.stabilizeAct .low), .node (.deliverNotify .low .high)]

/-- Nothing is under way, and the two nodes are neighbours of each other. -/
def Formed (d : Deployment Two) : Prop :=
  (∀ m, d.sys.phase m = .idle) ∧ d.sys.notifies = [] ∧ d.pending = [] ∧
    (∀ m i, (d.sys.info m).fingerTable i = (pairInfo .low .high m).fingerTable i) ∧
    ∀ m, d.sys.pred m = (pairInfo .low .high m).predecessor

instance (d : Deployment Two) : Decidable d.Formed :=
  inferInstanceAs (Decidable (_ ∧ _ ∧ _ ∧ _ ∧ _))

lemma Formed.quiet {d : Deployment Two} (h : d.Formed) : d.Quiet :=
  ⟨h.1, h.2.1, h.2.2.1⟩

lemma Formed.isIdeal {d : Deployment Two} (h : d.Formed) (method : Two → GetSuccessorMethod) :
    IsIdeal (d.sys.network method) {.low, .high} :=
  (isIdeal_pair (by decide) method).congr (fun _ _ => rfl) (fun m _ => funext (h.2.2.2.1 m))
    fun m _ => h.2.2.2.2 m

/-- A put that comes before the join is not lost: the value is handed over to the node `80…`. -/
theorem no_update_lost_two :
    ∃ d, Run.exec (step firstByte .low) (ringRun ++ putRun ++ joinRun ++ settleRun) initial =
        some d ∧
      (∃ s, Arc.Owns getId {Two.low, Two.high} (firstByte [0x60]) s ∧
        (d.sys.info s).getData [0x60] = some [7]) ∧
      ∀ m ∈ ({.low, .high} : Finset Two), ∀ fuel ≥ ({.low, .high} : Finset Two).card + 3,
        ∀ average, ((d.sys.network fun _ => .localHops).calls fuel m average).onDhtGet firstByte
          [0x60] = .dhtSuccess [0x60] [7] := by
  obtain ⟨d, hexec, hformed, hlast⟩ := Run.exists_exec_of_decide
    (p := fun d : Deployment Two => d.Formed ∧ d.last [0x60] = some [7])
    (show (Run.exec (step firstByte .low) (ringRun ++ putRun ++ joinRun ++ settleRun)
      initial).map _ = some true by decide +kernel)
  refine ⟨d, hexec, no_update_lost hexec (by decide +kernel) hformed.quiet (hformed.isIdeal _) ?_
    hlast⟩
  intro m _
  cases m <;> decide

/-- A put between the handover and the moment when the node `40…` learns of the new node is lost.
The lookups of the run answer from the states in which they take place.  At the end no message is in
flight and the ring is ideal, but the node `80…`, now responsible for the key, does not have the
value, and a get fails. -/
theorem update_lost :
    ((Run.exec (step firstByte .low) ringRun initial).map fun d =>
      (d.sys.network fun _ => .localHops).getSuccessor 5 .low (getId Two.high)) =
        some (some (.ok (some .low))) ∧
    ((Run.exec (step firstByte .low) (ringRun ++ joinRun) initial).map fun d =>
      (d.sys.network fun _ => .localHops).getSuccessor 5 .low (firstByte [0x60])) =
        some (some (.ok (some .low))) ∧
    ∃ d, Run.exec (step firstByte .low) (ringRun ++ joinRun ++ putRun ++ settleRun) initial =
        some d ∧
      d.Quiet ∧ IsIdeal (d.sys.network fun _ => .localHops) {.low, .high} ∧
      (∀ m, m ∈ ({.low, .high} : Finset Two)) ∧ d.last [0x60] = some [7] ∧
      (∀ s, Arc.Owns getId {Two.low, Two.high} (firstByte [0x60]) s →
        (d.sys.info s).getData [0x60] = none) ∧
      ∀ m, ((d.sys.network fun _ => .localHops).calls 5 m 0).onDhtGet firstByte [0x60] =
        .dhtFailure [0x60] := by
  refine ⟨by decide +kernel, by decide +kernel, ?_⟩
  obtain ⟨d, hexec, hformed, hlast, hnone, hget⟩ := Run.exists_exec_of_decide
    (p := fun d : Deployment Two => d.Formed ∧ d.last [0x60] = some [7] ∧
      (d.sys.info .high).getData [0x60] = none ∧
      ∀ m, ((d.sys.network fun _ => .localHops).calls 5 m 0).onDhtGet firstByte [0x60] =
        .dhtFailure [0x60])
    (show (Run.exec (step firstByte .low) (ringRun ++ joinRun ++ putRun ++ settleRun)
      initial).map _ = some true by decide +kernel)
  refine ⟨d, hexec, hformed.quiet, hformed.isIdeal _, fun m => by cases m <;> decide, hlast, ?_,
    hget⟩
  intro s hs
  obtain rfl : s = .high :=
    hs.unique getId_injective ⟨.low, isNext_pair _ _, by decide⟩
  exact hnone

end Deployment

end ChordPlusPlus
