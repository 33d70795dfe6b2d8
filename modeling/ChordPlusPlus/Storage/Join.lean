import ChordPlusPlus.Ring.Join
import ChordPlusPlus.Storage.Requests

/-!
# What a join does to the stores

The successor serves the handover while its predecessor is still the old one, so it gives away
exactly the items that hash into the arc up to the new node.  Maintenance steps change no store, and
they cannot disturb the join: the successor learns of the new node only after the new node has
stored the reply.  After the join and one round of `stabilize` at the new node and at its
predecessor, every item is at the node that the larger ring assigns to it.
-/

namespace ChordPlusPlus

variable {N : Type*}

/-- The steps of the main loop after a node has joined, and the delivery of messages. -/
def Action.IsMaintenance : Action N → Prop
  | .stabilizeRead _ | .stabilizeAct _ | .deliverNotify _ _ | .fixFingersLookup _ _
  | .fixFingersSet _ | .checkPredecessor _ => True
  | _ => False

/-- The join of `n` between `p` and `s`, followed by `stabilize` at `n` and at `p`. -/
def joinActions (p n s : N) : List (Action N) :=
  [.joinStart n, .joinAnswer n s, .handover n, .storeItems n,
    .stabilizeRead n, .stabilizeAct n, .deliverNotify n s,
    .stabilizeRead p, .stabilizeAct p, .deliverNotify p n]

/-- An item that expires at `e` on the node `m` has become one that expires at `e'` on the node `m'`:
either it has stayed, or it has moved to the new node `n` with its expiry date rounded down to the
second, both conversions being exact. -/
structure Carried (n m m' : N) (e e' : TimePoint) : Prop where
  moved : m' = m ∧ e' = e ∨ m' = n ∧ ((expiresToWire e).toNat : ℤ) = e.toInt / 1000000000 ∧
    e'.toInt = (expiresToWire e).toNat * 1000000000
  not_later : e'.toInt ≤ e.toInt
  within_second : e.toInt < e'.toInt + 1000000000

lemma Carried.stay (n m : N) (e : TimePoint) : Carried n m m e e :=
  ⟨Or.inl ⟨rfl, rfl⟩, le_rfl, by omega⟩

lemma Carried.move (n m : N) {e : TimePoint} (he : 0 ≤ e.toInt) :
    Carried n m n e (expiresHandedOver e) := by
  have hwire := toNat_expiresToWire he
  have hround := toInt_expiresHandedOver e
  rw [Int.tdiv_eq_ediv_of_nonneg he] at hround
  exact ⟨Or.inr ⟨rfl, hwire, by omega⟩, by omega, by omega⟩

variable [DecidableEq N] [Endpoint N]

/-- What a handover from `s` to `n` does to the stores: the items that hash into the arc from `p` to
`n` have moved, with their expiry dates rounded down to the second. -/
def HandedOver (sha256 : Bytes → IdType) (p n s : N) (before after : N → NodeInformation N) :
    Prop :=
  ∀ m k, (after m).data.lookup k =
    if m = n then
      if Arc.HalfOpen (getId p) (sha256 k) (getId n) then
        ((before s).data.lookup k).map fun e => (e.1, expiresHandedOver e.2)
      else none
    else if m = s ∧ Arc.HalfOpen (getId p) (sha256 k) (getId n) then none
    else (before m).data.lookup k

namespace System

variable {sha256 : Bytes → IdType} {b : N} {ring : Finset N} {p n s : N} {a : Action N}
  {sys sys' : System N}

/-- Only the handover and the storing of its reply change a store. -/
lemma data_step (hhandover : ∀ t, a ≠ .handover t) (hstore : ∀ t, a ≠ .storeItems t)
    (h : step sha256 b a sys = some sys') (m : N) :
    (sys'.info m).data = (sys.info m).data := by
  have hother : ∀ {t : N} {info : NodeInformation N}, info.data = (sys.info t).data →
      ((sys.setInfo t info).info m).data = (sys.info m).data := by
    intro t info hinfo
    by_cases hmt : m = t
    · subst hmt
      simpa using hinfo
    · simp [hmt]
  cases a with
  | create =>
    obtain ⟨-, -, rfl⟩ := step_create h
    exact hother rfl
  | joinStart t =>
    obtain ⟨-, -, -, rfl⟩ := step_joinStart h
    exact hother rfl
  | joinAnswer t s =>
    obtain ⟨-, -, rfl⟩ := step_joinAnswer h
    exact hother rfl
  | joinRefused t =>
    obtain ⟨-, rfl⟩ := step_joinRefused h
    exact hother rfl
  | handover t => exact absurd rfl (hhandover t)
  | storeItems t => exact absurd rfl (hstore t)
  | stabilizeRead t =>
    obtain ⟨-, ⟨_, -, rfl⟩ | rfl⟩ := step_stabilizeRead h
    · rfl
    · rfl
  | stabilizeAct t =>
    obtain ⟨_, _, -, ⟨-, rfl⟩ | ⟨x, -, -, -, rfl⟩ | ⟨-, -, rfl⟩⟩ := step_stabilizeAct h
    · rfl
    · exact hother rfl
    · rfl
  | deliverNotify q t =>
    obtain ⟨-, rfl⟩ := step_deliverNotify h
    refine hother ?_
    rcases notify_cases (sys.info t) t q with heq | ⟨-, heq⟩
    · rw [heq]
    · rw [heq]
      rfl
  | fixFingersLookup t r =>
    obtain ⟨-, -, rfl⟩ := step_fixFingersLookup h
    rfl
  | fixFingersSet t =>
    obtain ⟨_, -, rfl⟩ := step_fixFingersSet h
    exact hother rfl
  | checkPredecessor t =>
    obtain rfl := step_checkPredecessor h
    rfl

/-- Maintenance changes no store. -/
lemma data_of_isMaintenance (ha : a.IsMaintenance) (h : step sha256 b a sys = some sys') (m : N) :
    (sys'.info m).data = (sys.info m).data := by
  refine data_step ?_ ?_ h m
  · rintro t rfl
    exact ha
  · rintro t rfl
    exact ha

/-- Maintenance does not move a node that is inside `join`. -/
lemma phase_of_isMaintenance (ha : a.IsMaintenance) (h : step sha256 b a sys = some sys') {m : N}
    (hm : (sys.phase m).InJoin) : sys'.phase m = sys.phase m := by
  rcases phase_cases h m with heq | hmove
  · exact heq
  · generalize sys.phase m = old, sys'.phase m = new at *
    cases hmove <;> first | exact ha.elim | exact hm.elim

/-- Maintenance during the join leads to a state on the way. -/
lemma Joining.maintain (h : Joining b ring p n s sys) (ha : a.IsMaintenance)
    (hstep : System.step sha256 b a sys = some sys') :
    Joining b ring p n s sys' ∧ JoinStep p n s a sys sys' := by
  have hcreate : a ≠ .create := by
    rintro rfl
    exact ha
  have hanswer : ∀ m t, a = .joinAnswer m t → m = n ∧ t = s := by
    rintro m t rfl
    exact ha.elim
  exact ⟨h.step hcreate hanswer hstep, h.joinStep hcreate hanswer hstep⟩

/-! ## The stages of the join -/

section Stages

variable (sha256 b ring p n s)

/-- Before `n` has a successor.  `before` are the states of the nodes before the join. -/
structure Unanswered (before : N → NodeInformation N) (sys : System N) : Prop
    extends Joining b ring p n s sys where
  unanswered : sys.succ n = none
  data : ∀ m, (sys.info m).data = (before m).data

/-- Between the answer of the bootstrap node and the handover. -/
structure Answered (before : N → NodeInformation N) (sys : System N) : Prop
    extends Joining b ring p n s sys where
  requesting : sys.phase n = .requesting
  answered : sys.succ n = some s
  /-- The successor has not learnt of `n`, nor is a message under way. -/
  unnoticed : sys.pred s = some p
  unsent : (n, s) ∉ sys.notifies
  data : ∀ m, (sys.info m).data = (before m).data

/-- Between the handover and the storing of the reply: when `n` stores it, the items have moved. -/
structure Served (before : N → NodeInformation N) (sys : System N) : Prop
    extends Joining b ring p n s sys where
  storing : ∃ items, sys.phase n = .storing items ∧ HandedOver sha256 p n s before
    (Function.update sys.info n (PeerImpl.storeDataItems (sys.info n) items))

/-- After the reply has been stored. -/
structure Stored (before : N → NodeInformation N) (sys : System N) : Prop
    extends Joining b ring p n s sys where
  stored : HandedOver sha256 p n s before sys.info

end Stages

variable {before : N → NodeInformation N}

lemma HandedOver_congr {after after' : N → NodeInformation N}
    (hdata : ∀ m, (after' m).data = (after m).data) (h : HandedOver sha256 p n s before after) :
    HandedOver sha256 p n s before after' := by
  intro m k
  rw [hdata]
  exact h m k

lemma Unanswered.maintain (h : Unanswered b ring p n s before sys) (ha : a.IsMaintenance)
    (hstep : step sha256 b a sys = some sys') : Unanswered b ring p n s before sys' := by
  obtain ⟨hjoining, hjoin⟩ := h.toJoining.maintain ha hstep
  refine ⟨hjoining, ?_, fun m => (data_of_isMaintenance ha hstep m).trans (h.data m)⟩
  cases succ_step h.pointers hstep with
  | same heq => exact heq ▸ h.unanswered
  | created hact _ _ => exact (hact ▸ ha).elim
  | joined m t hact _ _ _ => exact (hact ▸ ha).elim
  | shortened m t x _ _ hs _ heq =>
    have hmn : n ≠ m := by
      rintro rfl
      rw [h.unanswered] at hs
      cases hs
    rw [heq, Function.update_of_ne hmn]
    exact h.unanswered

/-- Until `n` has a successor, the old ring is ideal. -/
lemma Unanswered.isIdeal (h : Unanswered b ring p n s before sys)
    (method : N → GetSuccessorMethod) : IsIdeal (sys.network method) ring := by
  have hps : sys.pred s = some p := by
    rcases h.pred_s with hp | ⟨-, hs⟩
    · exact hp
    · rw [h.unanswered] at hs
      cases hs
  have hsp : sys.succ p = some s := by
    rcases h.succ_p with hs | ⟨-, hpred⟩
    · exact hs
    · exact absurd (Option.some.inj (hpred.symm.trans hps)) h.ne_left
  refine ⟨⟨p, h.next.left_mem⟩, fun _ _ => rfl, ?_, ?_, ?_⟩
  · intro m hm
    by_cases hmp : m = p
    · subst hmp
      exact ⟨s, hsp, h.next⟩
    · exact h.succ_ring m hm hmp
  · intro t ht
    by_cases hts : t = s
    · subst hts
      exact ⟨p, hps, h.next⟩
    · exact h.pred_ring t ht hts
  · intro m _ i f hf
    have hjoined := h.fingers.finger m i f hf
    rcases h.members f hjoined with rfl | hring
    · exact absurd h.unanswered hjoined
    · exact hring

lemma Answered.maintain (h : Answered b ring p n s before sys) (ha : a.IsMaintenance)
    (hstep : step sha256 b a sys = some sys') : Answered b ring p n s before sys' := by
  obtain ⟨hjoining, hjoin⟩ := h.toJoining.maintain ha hstep
  have hphase := phase_of_isMaintenance ha hstep (m := n) (by rw [h.requesting]; trivial)
  refine ⟨hjoining, hphase.trans h.requesting, (h.keeps hjoin).1 h.answered, ?_, ?_,
    fun m => (data_of_isMaintenance ha hstep m).trans (h.data m)⟩
  · cases hjoin with
    | same _ hpred => exact hpred ▸ h.unnoticed
    | entered _ _ hpred => exact hpred ▸ h.unnoticed
    | noticed _ hmem _ _ _ _ => exact absurd hmem h.unsent
    | adopted _ _ _ hpred => exact hpred ▸ h.unnoticed
    | confirmed _ _ hpred =>
      rw [hpred, Function.update_of_ne h.ne_right.symm]
      exact h.unnoticed
  · -- `n` waits for the handover, so it does not stabilize and sends nothing.
    intro hmem
    rcases notifies_step h.pointers hstep hmem with hold | ⟨rfl, -⟩
    · exact h.unsent hold
    · obtain ⟨_, _, hstabilizing, -⟩ := step_stabilizeAct hstep
      rw [h.requesting] at hstabilizing
      cases hstabilizing

lemma Served.maintain (h : Served sha256 b ring p n s before sys) (ha : a.IsMaintenance)
    (hstep : step sha256 b a sys = some sys') : Served sha256 b ring p n s before sys' := by
  obtain ⟨items, hphase, hitems⟩ := h.storing
  have hkept := phase_of_isMaintenance ha hstep (m := n) (by rw [hphase]; trivial)
  refine ⟨(h.toJoining.maintain ha hstep).1, items, hkept.trans hphase, ?_⟩
  refine HandedOver_congr ?_ hitems
  intro m
  by_cases hmn : m = n
  · subst hmn
    simp [PeerImpl.storeDataItems_data, data_of_isMaintenance ha hstep]
  · simp [hmn, data_of_isMaintenance ha hstep]

lemma Stored.maintain (h : Stored sha256 b ring p n s before sys) (ha : a.IsMaintenance)
    (hstep : step sha256 b a sys = some sys') : Stored sha256 b ring p n s before sys' :=
  ⟨(h.toJoining.maintain ha hstep).1,
    HandedOver_congr (data_of_isMaintenance ha hstep) h.stored⟩

/-! ## The steps of the join -/

lemma Unanswered.joinStart (h : Unanswered b ring p n s before sys)
    (hstep : step sha256 b (.joinStart n) sys = some sys') : Unanswered b ring p n s before sys' := by
  have hjoining := h.toJoining.step (by simp) (by simp) hstep
  have hdata := fun m => (data_step (by simp) (by simp) hstep m).trans (h.data m)
  obtain ⟨-, -, -, rfl⟩ := step_joinStart hstep
  exact ⟨hjoining, by simpa [succ] using h.unanswered, hdata⟩

lemma Unanswered.joinAnswer (h : Unanswered b ring p n s before sys)
    (hstep : step sha256 b (.joinAnswer n s) sys = some sys') :
    Answered b ring p n s before sys' := by
  have hjoining := h.toJoining.step (by simp) (by rintro m t ⟨⟩; exact ⟨rfl, rfl⟩) hstep
  have hdata := fun m => (data_step (by simp) (by simp) hstep m).trans (h.data m)
  obtain ⟨-, -, rfl⟩ := step_joinAnswer hstep
  refine ⟨hjoining, by simp, by simp, ?_, ?_, hdata⟩
  · rcases h.pred_s with hp | ⟨-, hs⟩
    · simpa [pred, h.ne_right.symm] using hp
    · rw [h.unanswered] at hs
      cases hs
  · intro hmem
    rcases h.messages n s hmem with ⟨hn, -⟩ | ⟨-, -, hs⟩ | ⟨hnp, -, -⟩
    · exact h.notMem hn
    · rw [h.unanswered] at hs
      cases hs
    · exact h.ne_left hnp

/-- The successor still has its old predecessor when it serves the request. -/
lemma Answered.handover (h : Answered b ring p n s before sys) (hempty : (before n).data = ∅)
    (hstep : step sha256 b (.handover n) sys = some sys') :
    Served sha256 b ring p n s before sys' := by
  have hjoining := h.toJoining.step (by simp) (by simp) hstep
  obtain ⟨info', items', hserve, hkept, hmoved⟩ :=
    @PeerImpl.getDataItemsOnJoin_eq _ _ sha256 s n p (sys.info s) h.unnoticed h.inside
  obtain ⟨-, t, items, info, ht, hcase, -, -, rfl⟩ := step_handover hstep
  obtain rfl : t = s :=
    Option.some.inj (ht.symm.trans ((h.pointers.getSuccessor_eq n).trans h.answered))
  obtain ⟨rfl, rfl⟩ : info = info' ∧ items = items' := by
    rw [hserve] at hcase
    simpa [eq_comm] using hcase
  refine ⟨hjoining, items, by simp, ?_⟩
  intro m k
  have hn : (sys.info n).data.lookup k = none := by
    rw [h.data n, hempty]
    rfl
  by_cases hmn : m = n
  · subst hmn
    simp [h.ne_right, hmoved, hn, h.data t]
  · by_cases hmt : m = t
    · subst hmt
      simp [hmn, hkept, h.data m]
    · simp [hmn, hmt, h.data m]

lemma Served.storeItems (h : Served sha256 b ring p n s before sys)
    (hstep : step sha256 b (.storeItems n) sys = some sys') :
    Stored sha256 b ring p n s before sys' := by
  have hjoining := h.toJoining.step (by simp) (by simp) hstep
  obtain ⟨items, hphase, hitems⟩ := h.storing
  obtain ⟨items', hphase', rfl⟩ := step_storeItems hstep
  rw [hphase] at hphase'
  cases hphase'
  exact ⟨hjoining, hitems⟩

/-- The message of `p` to `n` has been sent by `p` with `n` as its successor, so `n` takes it. -/
lemma Stored.deliverNotify (h : Stored sha256 b ring p n s before sys)
    (hstep : step sha256 b (.deliverNotify p n) sys = some sys') :
    Stored sha256 b ring p n s before sys' ∧ sys'.pred n = some p := by
  refine ⟨h.maintain (a := .deliverNotify p n) trivial hstep, ?_⟩
  obtain ⟨-, rfl⟩ := step_deliverNotify hstep
  rcases notify_cases (sys.info n) n p with heq | ⟨-, heq⟩
  · -- `notify` refuses nothing to a node without predecessor.
    rcases h.pred_n with hnone | ⟨hp, -⟩
    · have hnone' : (sys.info n).predecessor = none := hnone
      simp [PeerImpl.notify, hnone']
    · simpa [heq, pred] using hp
  · simp [heq]

/-- Where the bootstrap node finds the place of the new node. -/
lemma Settled.open_of_resolves {method : N → GetSuccessorMethod} (h : Settled method ring sys)
    (hb : b ∈ ring) (hn : n ∉ ring)
    (hlookup : (sys.network method).Resolves b (getId n) (.ok (some s)))
    (hp : sys.pred s = some p) : Arc.Open (getId p) (getId n) (getId s) := by
  obtain ⟨t, ht, hown⟩ := (resolves_iff_owns h.ideal hb).mp hlookup
  obtain rfl : s = t := by simpa using ht
  obtain ⟨q, hq, hin⟩ := hown
  obtain rfl : p = q := (h.isNext_of_pred hp).left_unique getId_injective hq
  have hns : getId n ≠ getId s := fun heq => hn (getId_injective heq ▸ hq.right_mem)
  grind [Arc.Open, Arc.HalfOpen]

omit [DecidableEq N] in
/-- A settled ring is ready for the join. -/
lemma Settled.unanswered {method : N → GetSuccessorMethod} (h : Settled method ring sys)
    (hb : b ∈ ring) (hn : n ∉ ring) (hp : sys.pred s = some p)
    (hopen : Arc.Open (getId p) (getId n) (getId s)) :
    Unanswered b ring p n s sys.info sys :=
  ⟨Joining.of_settled h hb hp hopen, by rw [succ, h.outside n hn]; rfl, fun _ => rfl⟩

omit [DecidableEq N] in
/-- On a settled ring there is a place for the new node. -/
lemma Settled.exists_place {method : N → GetSuccessorMethod} (h : Settled method ring sys)
    (hn : n ∉ ring) :
    ∃ p s, sys.pred s = some p ∧ Arc.Open (getId p) (getId n) (getId s) := by
  obtain ⟨s, p, hnext, hin⟩ := @Arc.exists_owns N IdType _ getId _ h.ideal.nonempty (getId n)
  have hns : getId n ≠ getId s := fun heq => hn (getId_injective heq ▸ hnext.right_mem)
  refine ⟨p, s, h.ideal.predecessor_of_next hnext, ?_⟩
  grind [Arc.Open, Arc.HalfOpen]

/-- The outcome of a join of `n`, interleaved with any maintenance: the ring is the ideal ring with
`n` added, and the items that hash into the arc up to `n` have moved. -/
lemma join_run {method : N → GetSuccessorMethod} {sys₀ : System N} (h₀ : Settled method ring sys₀)
    (hb : b ∈ ring) (hn : n ∉ ring) (hp : sys₀.pred s = some p)
    (hopen : Arc.Open (getId p) (getId n) (getId s)) {as : List (Action N)}
    (hweave : Run.Weave Action.IsMaintenance (joinActions p n s) as)
    (hexec : Run.exec (step sha256 b) as sys₀ = some sys) :
    IsIdeal (sys.network method) (insert n ring) ∧
      HandedOver sha256 p n s sys₀.info sys.info := by
  have hempty : (sys₀.info n).data = ∅ := by
    rw [h₀.outside n hn]
    rfl
  have hstart := h₀.unanswered hb hn hp hopen
  obtain ⟨_, _, _, h, hstep, hweave, hexec⟩ :=
    hweave.exec_cons (fun _ _ _ ha h hs => h.maintain ha hs) hstart hexec
  obtain ⟨_, _, _, h, hstep, hweave, hexec⟩ :=
    hweave.exec_cons (fun _ _ _ ha h hs => h.maintain ha hs) (h.joinStart hstep) hexec
  obtain ⟨_, _, _, h, hstep, hweave, hexec⟩ :=
    hweave.exec_cons (fun _ _ _ ha h hs => h.maintain ha hs) (h.joinAnswer hstep) hexec
  obtain ⟨_, _, _, h, hstep, hweave, hexec⟩ :=
    hweave.exec_cons (fun _ _ _ ha h hs => h.maintain ha hs) (h.handover hempty hstep) hexec
  -- The rest are maintenance steps; the last of them gives `n` its predecessor.
  have hrest : Run.Weave Action.IsMaintenance ([.stabilizeRead n, .stabilizeAct n,
      .deliverNotify n s, .stabilizeRead p, .stabilizeAct p] ++ [.deliverNotify p n]) _ := hweave
  obtain ⟨_, _, _, h, hstep, hweave, hexec⟩ :=
    hrest.exec_concat (fun _ _ _ ha h hs => h.maintain ha hs) (by simp [Action.IsMaintenance])
      (h.storeItems hstep) hexec
  have hdone : Stored sha256 b ring p n s sys₀.info sys ∧ sys.pred n = some p := by
    refine hweave.exec_nil (P := fun sys => Stored sha256 b ring p n s sys₀.info sys ∧
      sys.pred n = some p) ?_ (h.deliverNotify hstep) hexec
    rintro a t u ha ⟨hstored, hpred⟩ hs
    obtain ⟨-, hjoin⟩ := hstored.toJoining.maintain ha hs
    exact ⟨hstored.maintain ha hs, (hstored.keeps hjoin).2.2.2 hpred⟩
  exact ⟨hdone.1.toJoining.isIdeal hdone.2 method, hdone.1.stored⟩

/-- Whenever the bootstrap node looks up the place of the new node, it finds `s`. -/
lemma lookup_before_answer {method : N → GetSuccessorMethod} {sys₀ : System N}
    (h₀ : Settled method ring sys₀) (hb : b ∈ ring) (hn : n ∉ ring) (hp : sys₀.pred s = some p)
    (hopen : Arc.Open (getId p) (getId n) (getId s)) {as : List (Action N)}
    (hweave : Run.Weave Action.IsMaintenance [.joinStart n] as)
    (hexec : Run.exec (step sha256 b) as sys₀ = some sys) :
    (sys.network method).Resolves b (getId n) (.ok (some s)) := by
  have hstart := h₀.unanswered hb hn hp hopen
  obtain ⟨_, _, _, h, hstep, hweave, hexec⟩ :=
    hweave.exec_cons (fun _ _ _ ha h hs => h.maintain ha hs) hstart hexec
  have hlast := hweave.exec_nil (fun _ _ _ ha h hs => h.maintain ha hs) (h.joinStart hstep) hexec
  refine (resolves_iff_owns (hlast.isIdeal method) hb).mpr ⟨s, rfl, p, hlast.next, ?_⟩
  grind [Arc.Open, Arc.HalfOpen]

/-! ## The join takes place -/

/-- A node that is in the middle of a maintenance step can finish it. -/
lemma Unanswered.exists_idle (sha256 : Bytes → IdType) (h : Unanswered b ring p n s before sys)
    {m : N} (hm : ¬ (sys.phase m).InJoin) :
    ∃ as u, (∀ a ∈ as, Action.IsMaintenance a) ∧ Run.exec (step sha256 b) as sys = some u ∧
      Unanswered b ring p n s before u ∧ u.phase m = .idle ∧
      ∀ t ≠ m, u.phase t = sys.phase t := by
  have hone : ∀ {a : Action N} {u : System N}, a.IsMaintenance → step sha256 b a sys = some u →
      u.phase m = .idle → (∀ t ≠ m, u.phase t = sys.phase t) →
      ∃ as u, (∀ a ∈ as, Action.IsMaintenance a) ∧ Run.exec (step sha256 b) as sys = some u ∧
        Unanswered b ring p n s before u ∧ u.phase m = .idle ∧
        ∀ t ≠ m, u.phase t = sys.phase t := by
    intro a u ha hstep hidle hother
    exact ⟨[a], u, by simpa using ha, by simp [Run.exec, hstep], h.maintain ha hstep, hidle, hother⟩
  cases hphase : sys.phase m with
  | idle => exact ⟨[], sys, by simp, rfl, h, hphase, fun _ _ => rfl⟩
  | stabilizing t x =>
    obtain ⟨u, hu⟩ : ∃ u, step sha256 b (.stabilizeAct m) sys = some u := by simp [step, hphase]
    refine hone (a := .stabilizeAct m) trivial hu ?_ ?_
    · obtain ⟨_, _, -, ⟨-, rfl⟩ | ⟨_, -, -, -, rfl⟩ | ⟨-, -, rfl⟩⟩ := step_stabilizeAct hu <;> simp
    · intro t ht
      rcases phase_cases hu t with heq | hmove
      · exact heq
      · generalize sys.phase t = old, u.phase t = new at hmove
        cases hmove
        exact absurd rfl ht
  | fixing r =>
    obtain ⟨u, hu⟩ : ∃ u, step sha256 b (.fixFingersSet m) sys = some u := by simp [step, hphase]
    refine hone (a := .fixFingersSet m) trivial hu ?_ ?_
    · obtain ⟨_, -, rfl⟩ := step_fixFingersSet hu
      simp
    · intro t ht
      obtain ⟨_, -, rfl⟩ := step_fixFingersSet hu
      simp [ht]
  | asking => exact absurd (by rw [hphase]; trivial) hm
  | requesting => exact absurd (by rw [hphase]; trivial) hm
  | storing items => exact absurd (by rw [hphase]; trivial) hm

/-- Undisturbed, the join takes place: `n` asks the bootstrap node, is given `s`, is served, and stores
the reply. -/
lemma Unanswered.exists_stored (hstart : Unanswered b ring p n s before sys) (hnb : n ≠ b)
    (hempty : (before n).data = ∅) (hidle : sys.phase n = .idle) (hidle' : sys.phase p = .idle) :
    ∃ u, Run.exec (step sha256 b) [.joinStart n, .joinAnswer n s, .handover n, .storeItems n] sys =
        some u ∧
      Stored sha256 b ring p n s before u ∧ u.succ n = some s ∧ u.pred s = some p ∧
      u.phase n = .idle ∧ u.phase p = .idle := by
  have hnp := hstart.ne_left
  have hns := hstart.ne_right
  obtain ⟨u1, hu1⟩ : ∃ u, step sha256 b (.joinStart n) sys = some u := by
    simp [step, hnb, hidle, hstart.pointers.getSuccessor_eq, hstart.unanswered]
  have h1 := hstart.joinStart hu1
  have hphase1 : u1.phase n = .asking ∧ u1.phase p = .idle := by
    obtain ⟨-, -, -, rfl⟩ := step_joinStart hu1
    simp [hnp.symm, hidle']
  obtain ⟨u2, hu2⟩ : ∃ u, step sha256 b (.joinAnswer n s) u1 = some u := by
    have hs : u1.succ s ≠ none := by
      rcases h1.pred_s with hpred | ⟨hpred, -⟩
      · exact h1.pointers.joined_of_pred hpred
      · exact h1.pointers.joined_of_pred hpred
    simp [step, hphase1.1, h1.pointers.getSuccessor_eq, hs]
  have h2 := h1.joinAnswer hu2
  have hphase2 : u2.phase p = .idle := by
    obtain ⟨-, -, rfl⟩ := step_joinAnswer hu2
    simp [hnp.symm, hphase1.2]
  obtain ⟨u3, hu3⟩ : ∃ u, step sha256 b (.handover n) u2 = some u := by
    simp only [step, h2.requesting, h2.pointers.getSuccessor_eq, h2.answered]
    split
    · exact ⟨_, rfl⟩
    · exact ⟨_, rfl⟩
  have h3 := h2.handover hempty hu3
  have hsame3 : u3.succ = u2.succ ∧ u3.pred = u2.pred ∧ u3.phase p = .idle := by
    obtain ⟨-, _, _, info, -, -, hfinger, hpred, rfl⟩ := step_handover hu3
    refine ⟨setInfo_succ_of_fingerTable u2 _ info hfinger, ?_, by simp [hnp.symm, hphase2]⟩
    simp [hpred, pred]
  obtain ⟨u4, hu4⟩ : ∃ u, step sha256 b (.storeItems n) u3 = some u := by
    obtain ⟨items, hitems, -⟩ := h3.storing
    simp [step, hitems]
  refine ⟨u4, by simp [Run.exec, hu1, hu2, hu3, hu4], h3.storeItems hu4, ?_⟩
  obtain ⟨items, -, rfl⟩ := step_storeItems hu4
  have hsucc : u3.succ n = some s := hsame3.1 ▸ h2.answered
  have hpred : u3.pred s = some p := hsame3.2.1 ▸ h2.unnoticed
  refine ⟨by simpa [succ] using hsucc, by simpa [hns.symm] using hpred, by simp, ?_⟩
  simp [hnp.symm, hsame3.2.2]

/-- Undisturbed, the two rounds of `stabilize` take place: `n` reads `p` from `s` and notifies `s`, then
`p` reads `n` from `s` and notifies `n`. -/
lemma Stored.exists_stabilized {u : System N} (h : Stored sha256 b ring p n s before u)
    (hsucc : u.succ n = some s) (hpred : u.pred s = some p) (hidle : u.phase n = .idle)
    (hidle' : u.phase p = .idle) :
    ∃ sys, Run.exec (step sha256 b) [.stabilizeRead n, .stabilizeAct n, .deliverNotify n s,
      .stabilizeRead p, .stabilizeAct p, .deliverNotify p n] u = some sys := by
  have hnp := h.ne_left
  have hopen := h.inside
  have hu1 : step sha256 b (.stabilizeRead n) u =
      some (u.setPhase n (.stabilizing s (some p))) := by
    simp [step, hidle, h.pointers.getSuccessor_eq, hsucc, hpred]
  have h1 := h.maintain (a := .stabilizeRead n) trivial hu1
  have hu2 : step sha256 b (.stabilizeAct n) (u.setPhase n (.stabilizing s (some p))) =
      some (((u.setPhase n (.stabilizing s (some p))).setPhase n .idle).setNotifies
        ((n, s) :: u.notifies)) := by
    simp [step, stabilizeAct, hnp.symm, hopen.not_tail]
  have h2 := h1.maintain (a := .stabilizeAct n) trivial hu2
  set u2 := ((u.setPhase n (.stabilizing s (some p))).setPhase n .idle).setNotifies
    ((n, s) :: u.notifies)
  obtain ⟨u3, hu3⟩ : ∃ u, step sha256 b (.deliverNotify n s) u2 = some u := by
    simp [step, u2]
  have h3 := h2.maintain (a := .deliverNotify n s) trivial hu3
  have hs : u3.pred s = some n ∧ u3.succ p = some s ∧ u3.phase p = .idle := by
    have hsp : u.succ p = some s := by
      rcases h.succ_p with hs | ⟨-, hn⟩
      · exact hs
      · exact absurd (Option.some.inj (hn.symm.trans hpred)) hnp
    have hold : (u.info s).predecessor = some p := hpred
    obtain ⟨-, rfl⟩ := step_deliverNotify hu3
    have hfinger := notify_fingerTable (u2.info s) s n
    refine ⟨?_, ?_, by simp [u2, hnp.symm, hidle']⟩
    · simp [u2, PeerImpl.notify, hold, hopen]
    · exact (congrFun (setInfo_succ_of_fingerTable u2 s _ hfinger) p).trans hsp
  have hu4 : step sha256 b (.stabilizeRead p) u3 =
      some (u3.setPhase p (.stabilizing s (some n))) := by
    simp [step, hs, h3.pointers.getSuccessor_eq]
  obtain ⟨u5, hu5⟩ : ∃ u, step sha256 b (.stabilizeAct p)
      (u3.setPhase p (.stabilizing s (some n))) = some u := by
    simp [step]
  have hmem : (p, n) ∈ u5.notifies := by
    obtain rfl : stabilizeAct (u3.setPhase p (.stabilizing s (some n))) p s (some n) = u5 := by
      simpa [step] using hu5
    simp [stabilizeAct, hnp, hopen]
  obtain ⟨u6, hu6⟩ : ∃ u, step sha256 b (.deliverNotify p n) u5 = some u := by
    simp [step, hmem]
  exact ⟨u6, by simp [Run.exec, hu1, hu2, hu3, hu4, hu5, hu6]⟩

/-- The join is never blocked: when `p` and `n` have finished what they are doing, all its steps take
place. -/
lemma exists_join_run {method : N → GetSuccessorMethod} {sys₀ : System N}
    (h₀ : Settled method ring sys₀) (hb : b ∈ ring) (hn : n ∉ ring) (hp : sys₀.pred s = some p)
    (hopen : Arc.Open (getId p) (getId n) (getId s)) :
    ∃ as sys, Run.Weave Action.IsMaintenance (joinActions p n s) as ∧
      Run.exec (step sha256 b) as sys₀ = some sys := by
  have hempty : (sys₀.info n).data = ∅ := by
    rw [h₀.outside n hn]
    rfl
  have hnb : n ≠ b := fun heq => hn (heq ▸ hb)
  obtain ⟨as₁, u₁, has₁, hexec₁, h₁, hidle₁, hother₁⟩ :=
    (h₀.unanswered hb hn hp hopen).exists_idle sha256 (h₀.not_joining n)
  obtain ⟨as₂, u₂, has₂, hexec₂, h₂, hidle₂, hother₂⟩ := h₁.exists_idle sha256 (m := p)
    (by rw [hother₁ p h₁.ne_left.symm]; exact h₀.not_joining p)
  obtain ⟨u, hjoin, hstored, hsucc, hpred, hidle, hidle'⟩ :=
    h₂.exists_stored hnb hempty ((hother₂ n h₂.ne_left).trans hidle₁) hidle₂
  obtain ⟨sys, hstabilize⟩ := hstored.exists_stabilized hsucc hpred hidle hidle'
  refine ⟨as₁ ++ (as₂ ++ joinActions p n s), sys,
    ((Run.Weave.self _ _).append_left has₂).append_left has₁, ?_⟩
  exact Run.exec_append_eq_some.mpr ⟨u₁, hexec₁, Run.exec_append_eq_some.mpr ⟨u₂, hexec₂,
    Run.exec_append_eq_some.mpr ⟨u, hjoin, hstabilize⟩⟩⟩

/-! ## Where the items are after the join -/

/-- Every settled ideal ring takes in every new node `n`, through any of its members `b`, between two
neighbours `p` and `s`.  The lookup finds the successor `s` at any moment before the answer, the join
and the two rounds of `stabilize` can take place, and however they are interleaved with maintenance
steps, the ring is the ideal ring with `n` added.  If every item under a key in `put` that is
unexpired at some time `now` after the epoch was at the responsible node, then it is now at the node
responsible now, with the same value; it has moved only to `n`, and nothing else has appeared. -/
theorem join_placement {method : N → GetSuccessorMethod} {sys₀ : System N}
    (h₀ : Settled method ring sys₀) (hb : b ∈ ring) (hn : n ∉ ring) {put : Bytes → Prop}
    {now : TimePoint} (hnow : 0 < now)
    (hplaced : ∀ m ∈ ring, ∀ k v e, put k → (sys₀.info m).data.lookup k = some (v, e) → now ≤ e →
      Arc.Owns getId ring (sha256 k) m) :
    ∃ p s, Arc.IsNext getId ring p s ∧
    (∀ as sys, Run.Weave Action.IsMaintenance [.joinStart n] as →
      Run.exec (step sha256 b) as sys₀ = some sys →
      (sys.network method).Resolves b (getId n) (.ok (some s))) ∧
    (∃ as sys, Run.Weave Action.IsMaintenance (joinActions p n s) as ∧
      Run.exec (step sha256 b) as sys₀ = some sys) ∧
    ∀ as sys, Run.Weave Action.IsMaintenance (joinActions p n s) as →
      Run.exec (step sha256 b) as sys₀ = some sys →
      IsIdeal (sys.network method) (insert n ring) ∧
      (∀ m ∈ ring, ∀ k v e, put k → (sys₀.info m).data.lookup k = some (v, e) → now ≤ e →
        ∃ m' e', Arc.Owns getId (insert n ring) (sha256 k) m' ∧
          (sys.info m').data.lookup k = some (v, e') ∧ Carried n m m' e e') ∧
      ∀ m' ∈ insert n ring, ∀ k v e', put k → (sys.info m').data.lookup k = some (v, e') →
        now ≤ e' → Arc.Owns getId (insert n ring) (sha256 k) m' ∧
          ∃ m ∈ ring, ∃ e, (sys₀.info m).data.lookup k = some (v, e) ∧ now ≤ e ∧
            Carried n m m' e e' := by
  obtain ⟨p, s, hp, hopen⟩ := h₀.exists_place hn
  have hnext := h₀.isNext_of_pred hp
  refine ⟨p, s, hnext, fun _ _ => lookup_before_answer h₀ hb hn hp hopen,
    exists_join_run h₀ hb hn hp hopen, ?_⟩
  intro as sys hweave hexec
  obtain ⟨hideal, hdata⟩ := join_run h₀ hb hn hp hopen hweave hexec
  have hpos : 0 < now.toInt := Int64.lt_iff_toInt_lt.mp hnow
  refine ⟨hideal, ?_, ?_⟩
  · intro m hm k v e hput hitem he
    have hown := hplaced m hm k v e hput hitem he
    have hmn : m ≠ n := fun heq => hn (heq ▸ hm)
    rw [Int64.le_iff_toInt_le] at he
    by_cases hmove : m = s ∧ Arc.HalfOpen (getId p) (sha256 k) (getId n)
    · obtain ⟨rfl, hin⟩ := hmove
      refine ⟨n, expiresHandedOver e, ?_, ?_, Carried.move n m (by omega)⟩
      · rw [Arc.owns_insert_iff getId_injective hnext hopen]
        simpa using hin
      · simp [hdata n k, hin, hitem]
    · refine ⟨m, e, ?_, ?_, Carried.stay n m e⟩
      · rw [Arc.owns_insert_iff getId_injective hnext hopen, if_neg hmn]
        exact ⟨hown, hmove⟩
      · rw [hdata m k, if_neg hmn, if_neg hmove, hitem]
  · intro m' hm' k v e' hput hitem he'
    rw [hdata m' k] at hitem
    rw [Arc.owns_insert_iff getId_injective hnext hopen]
    by_cases hmn : m' = n
    · subst hmn
      simp only [if_true] at hitem ⊢
      split_ifs at hitem with hin
      obtain ⟨⟨v', e⟩, hold, heq⟩ := Option.map_eq_some_iff.mp hitem
      obtain ⟨rfl, rfl⟩ : v' = v ∧ expiresHandedOver e = e' := by simpa using heq
      -- Rounding never makes an expired item unexpired.
      have hround := toInt_expiresHandedOver e
      rw [tdiv_second] at hround
      rw [Int64.le_iff_toInt_le] at he'
      have he : 0 ≤ e.toInt := by
        split_ifs at hround <;> omega
      rw [if_pos he] at hround
      refine ⟨hin, s, hnext.right_mem, e, hold, ?_, Carried.move m' s he⟩
      rw [Int64.le_iff_toInt_le]
      omega
    · rw [if_neg hmn] at hitem ⊢
      split_ifs at hitem with hmove
      have hm : m' ∈ ring := Finset.mem_of_mem_insert_of_ne hm' hmn
      exact ⟨⟨hplaced m' hm k v e' hput hitem he', hmove⟩, m', hm, e', hitem, he',
        Carried.stay n m' e'⟩

/-- The ring of the ids `40…` and `80…`, with an item under the key `50` that never expires. -/
def joinExample : System IdType :=
  pair (idOf 0x40) (idOf 0x80) fun m =>
    if m = idOf 0x80 then AList.insert [0x50] ([7], Int64.maxValue) ∅ else ∅

/-- The node `60…` joins the ring, and the item moves to it. -/
theorem join_placement_pair :
    ∃ p s as sys, Run.Weave Action.IsMaintenance (joinActions p (idOf 0x60) s) as ∧
      Run.exec (step (fun k => idOf (k.headD 0)) (idOf 0x40)) as joinExample = some sys ∧
      IsIdeal (sys.network fun _ => .localHops) {idOf 0x60, idOf 0x40, idOf 0x80} ∧
      ∃ m' e', Arc.Owns getId {idOf 0x60, idOf 0x40, idOf 0x80} (idOf 0x50) m' ∧
        (sys.info m').data.lookup [0x50] = some ([7], e') ∧
        Carried (idOf 0x60) (idOf 0x80) m' Int64.maxValue e' := by
  have h₀ : Settled (fun _ => .localHops) {idOf 0x40, idOf 0x80} joinExample :=
    settled_pair (by decide) _ _
  have hplaced : ∀ m ∈ ({idOf 0x40, idOf 0x80} : Finset IdType), ∀ k v e, True →
      (joinExample.info m).data.lookup k = some (v, e) → (1 : TimePoint) ≤ e →
      Arc.Owns getId {idOf 0x40, idOf 0x80} (idOf (k.headD 0)) m := by
    intro m hm k v e _ hitem _
    rw [Finset.mem_insert, Finset.mem_singleton] at hm
    rcases hm with rfl | rfl
    · cases hitem
    · have hk : k = [0x50] := by
        by_contra hk
        have hnone : (joinExample.info (idOf 0x80)).data.lookup k = none :=
          AList.lookup_insert_ne hk
        rw [hnone] at hitem
        cases hitem
      subst hk
      exact ⟨idOf 0x40, isNext_pair _ _, by decide⟩
  have hnew : idOf 0x60 ∉ ({idOf 0x40, idOf 0x80} : Finset IdType) := by decide
  obtain ⟨p, s, -, -, ⟨as, sys, hweave, hexec⟩, hall⟩ :=
    join_placement (b := idOf 0x40) h₀ (by decide) hnew (by decide) hplaced
  obtain ⟨hideal, hitems, -⟩ := hall as sys hweave hexec
  exact ⟨p, s, as, sys, hweave, hexec, hideal,
    hitems (idOf 0x80) (by decide) [0x50] [7] Int64.maxValue trivial
    (by decide +kernel) (by decide)⟩

end System

end ChordPlusPlus
