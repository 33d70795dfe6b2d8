import ChordPlusPlus.Storage.Join
import ChordPlusPlus.Storage.Replicas

/-!
# Content-addressed items and joins

An item put by `onDhtPutKeyIsHashOfData` is placed by the hash of its value and stored under that
hash as key.  The handover on a join places every item by the hash of its stored key, here the hash
of the hash.  The two positions have nothing to do with each other: if the new node takes over one
of them and not the other, the item is afterwards not where a get looks for it.
-/

namespace ChordPlusPlus

variable {N : Type*} [Endpoint N] [DecidableEq N]

/-- The deployment after a `DHT_PUT_KEY_IS_HASH_OF_DATA` at the node `self`. -/
def System.putKeyIsHashOfData (sys : System N) (method : N → GetSuccessorMethod)
    (ctx : Network.PutContext) (self : N) (value : Bytes) (ttl : UInt16) (replication : UInt8)
    (indices : List UInt8) : System N :=
  { sys with
    info := ((sys.network method).onDhtPutKeyIsHashOfData ctx self value ttl replication
      indices).2.info }

variable {method : N → GetSuccessorMethod} {ring : Finset N} {ctx : Network.PutContext} {self : N}

/-- What each store request of the put keeps: the ring is ideal, the nodes outside have not started,
and the node `o` has the value under its hash. -/
structure PutInv (ctx : Network.PutContext) (ring : Finset N) (value : Bytes) (o : N)
    (net : Network N) : Prop where
  ideal : IsIdeal net ring
  outside : ∀ m ∉ ring, net.info m = NodeInformation.initial
  held : (net.info o).getData (ctx.sha256 value).bytes = some value

omit [Endpoint N] in
/-- A store request of the item to one node changes no other node. -/
lemma Network.setData_info_of_ne (net : Network N) (self : N) {node m : N} (hm : m ≠ node)
    (now : TimePoint) (key value : Bytes) (ttl : UInt16) :
    (net.setData self node now key value ttl).info m = net.info m := by
  unfold setData
  split_ifs with hself
  · simp [setInfo, show m ≠ self from hself ▸ hm]
  · simp [setInfo, hm]
  · rfl

omit [Endpoint N] in
/-- Storing a value under a key leaves the value where it is already stored under that key. -/
lemma Network.setData_getData_self {net : Network N} {self node o : N} {now : TimePoint}
    {k key value : Bytes} {ttl : UInt16} (hanswers : net.answers node = true)
    (h : (net.info o).getData k = some value ∨ o = node ∧ k = key) :
    ((net.setData self node now key value ttl).info o).getData k = some value := by
  by_cases hk : k = key
  · subst hk
    rw [NodeInformation.getData, Network.setData_lookup hanswers]
    split_ifs with ho
    · rfl
    · exact h.resolve_right fun hh => ho hh.1
  · rw [NodeInformation.getData, (net.setData_sameExcept self node now key value ttl).data o k hk]
    exact h.resolve_right fun hh => hk hh.2

/-- After the put, the ring is as settled as before, and the responsible node has the value. -/
lemma System.Settled.putKeyIsHashOfData {sys : System N} (h : Settled method ring sys)
    (hself : self ∈ ring) (hfuel : ring.card + 3 ≤ ctx.fuel) {value : Bytes} {o : N}
    (hown : Arc.Owns getId ring (ctx.sha256 value) o) (ttl : UInt16) (replication : UInt8)
    (indices : List UInt8) :
    Settled method ring
        (sys.putKeyIsHashOfData method ctx self value ttl replication indices) ∧
      ((sys.putKeyIsHashOfData method ctx self value ttl replication indices).info o).getData
        (ctx.sha256 value).bytes = some value := by
  set storedKey : Bytes → Bytes := fun key => (ctx.sha256 key).bytes
  set net := sys.network method with hnet
  have hsucc : net.dhtGetSuccessor ctx.fuel self (ctx.sha256 value) = some o :=
    h.ideal.dhtGetSuccessor_eq hself hown hfuel
  have hset : ∀ (net : Network N) (node : N) (now : TimePoint) (key : Bytes), IsIdeal net ring →
      (∀ m ∉ ring, net.info m = NodeInformation.initial) → node ∈ ring →
      IsIdeal (net.setData self node now (storedKey key) value ttl) ring ∧
        ∀ m ∉ ring, (net.setData self node now (storedKey key) value ttl).info m =
          NodeInformation.initial := by
    intro net node now key hideal houtside hnode
    refine ⟨(net.setData_sameExcept ..).isIdeal hideal, ?_⟩
    intro m hm
    have hne : m ≠ node := fun heq => hm (heq ▸ hnode)
    rw [net.setData_info_of_ne self hne]
    exact houtside m hm
  have hfirst : PutInv ctx ring value o
      (net.setData self o (ctx.now 0) (storedKey value) value ttl) := by
    obtain ⟨hideal, houtside⟩ := hset net o (ctx.now 0) value h.ideal h.outside hown.mem
    exact ⟨hideal, houtside,
      Network.setData_getData_self (h.ideal.answers o hown.mem) (Or.inr ⟨rfl, rfl⟩)⟩
  have hput : PutInv ctx ring value o
      (net.put ctx self storedKey value value ttl replication) := by
    unfold Network.put
    simp only [hsucc]
    split_ifs with hrep
    · refine Network.putReplicas_induction ?_ _ _ _ hfirst
      intro net' node now j hnode hinv
      obtain ⟨t, ht⟩ := @Arc.exists_owns N IdType _ getId _ hinv.ideal.nonempty
        (ctx.sha256 (value ++ [j]))
      have hnt : node = t := Option.some.inj
        (hnode.symm.trans (hinv.ideal.dhtGetSuccessor_eq hself ht hfuel))
      have hmem : node ∈ ring := hnt ▸ ht.mem
      obtain ⟨hideal, houtside⟩ := hset net' node now (value ++ [j]) hinv.ideal hinv.outside hmem
      exact ⟨hideal, houtside,
        Network.setData_getData_self (hinv.ideal.answers node hmem) (Or.inl hinv.held)⟩
    · exact hfirst
  have hsame := (@IsIdeal.put_spec _ _ _ _ _ h.ideal _ _ hself _ hfuel storedKey _ hown value ttl
    replication).1
  have hsucc' : (sys.putKeyIsHashOfData method ctx self value ttl replication indices).succ =
      sys.succ := funext fun m => congrFun (hsame.fingerTable m) 0
  refine ⟨⟨?_, hput.outside, h.not_joining, ?_, h.read, ?_, h.found, h.messages⟩, hput.held⟩
  · exact hput.ideal.congr (fun m hm => (hput.ideal.answers m hm).symm) (fun _ _ => rfl)
      fun _ _ => rfl
  · rw [hsucc']
    exact h.stabilizing
  · rw [hsucc']
    exact h.fixing

/-- On an ideal ring the get answers with the value if the responsible node has it, and does not if
that node has nothing under the hash. -/
lemma IsIdeal.getKeyIsHashOfData_iff {net : Network N} (h : IsIdeal net ring) {m s : N}
    (hm : m ∈ ring) {sha256 : Bytes → IdType} {value : Bytes}
    (hown : Arc.Owns getId ring (sha256 value) s) {fuel : ℕ} (hfuel : ring.card + 3 ≤ fuel)
    (average : UInt8) {c : Prop} [Decidable c]
    (hdata : (net.info s).getData (sha256 value).bytes = if c then some value else none) :
    (net.calls fuel m average).onDhtGetKeyIsHashOfData sha256 (sha256 value) =
      some (.dhtSuccess (sha256 value).bytes value) ↔ c := by
  have hfetch := h.fetch_eq hm hown hfuel average 0 (sha256 value).bytes
  by_cases hc : c
  · simp [Calls.onDhtGetKeyIsHashOfData, hfetch, hdata, hc, Reply.ofResponse]
  · simp [Calls.onDhtGetKeyIsHashOfData, hfetch, hdata, hc]

namespace System

variable {b p n s : N} {sys₁ sys : System N}

/-- A value put on a settled ideal ring, then a single join of `n` between `p` and `s`, interleaved
with any maintenance: afterwards the get for the hash of the value, at any node of the larger ring,
answers with the value if and only if the item did not have its place in the arc that `n` divides, or
the place of the item and the hash of its stored key lie on the same side of `n`. -/
theorem hashedItem_survives_iff (h₁ : Settled method ring sys₁) (hself : self ∈ ring)
    (hfuel : ring.card + 3 ≤ ctx.fuel) (value : Bytes) (ttl : UInt16) (replication : UInt8)
    (indices : List UInt8) (hb : b ∈ ring) (hn : n ∉ ring)
    (hlookup : ((sys₁.putKeyIsHashOfData method ctx self value ttl replication indices).network
      method).Resolves b (getId n) (.ok (some s)))
    (hp : (sys₁.putKeyIsHashOfData method ctx self value ttl replication indices).pred s = some p)
    {as : List (Action N)} (hweave : Run.Weave Action.IsMaintenance (joinActions p n s) as)
    (hexec : Run.exec (step ctx.sha256 b) as
      (sys₁.putKeyIsHashOfData method ctx self value ttl replication indices) = some sys)
    {m : N} (hm : m ∈ insert n ring) {fuel : ℕ} (hfuel' : (insert n ring).card + 3 ≤ fuel)
    (average : UInt8) :
    ((sys.network method).calls fuel m average).onDhtGetKeyIsHashOfData ctx.sha256
        (ctx.sha256 value) = some (.dhtSuccess (ctx.sha256 value).bytes value) ↔
      ¬ Arc.HalfOpen (getId p) (ctx.sha256 value) (getId s) ∨
      (Arc.HalfOpen (getId p) (ctx.sha256 value) (getId n) ↔
        Arc.HalfOpen (getId p) (ctx.sha256 (ctx.sha256 value).bytes) (getId n)) := by
  obtain ⟨o, hown⟩ := @Arc.exists_owns N IdType _ getId _ h₁.ideal.nonempty (ctx.sha256 value)
  obtain ⟨h₀, hheld⟩ := h₁.putKeyIsHashOfData hself hfuel hown ttl replication indices
  set sys₀ := sys₁.putKeyIsHashOfData method ctx self value ttl replication indices
  have hopen := h₀.open_of_resolves hb hn hlookup hp
  have hnext := h₀.isNext_of_pred hp
  obtain ⟨hideal, hdata⟩ := join_run h₀ hb hn hp hopen hweave hexec
  -- The node `s` was responsible exactly if the place of the item lies in the divided arc.
  have hos : o = s ↔ Arc.HalfOpen (getId p) (ctx.sha256 value) (getId s) := by
    constructor
    · rintro rfl
      obtain ⟨q, hq, hin⟩ := hown
      rwa [hnext.left_unique getId_injective hq]
    · exact fun hin => hown.unique getId_injective ⟨p, hnext, hin⟩
  by_cases hin : Arc.HalfOpen (getId p) (ctx.sha256 value) (getId n)
  · -- `n` is responsible now, and has the item if the handover has moved it.
    have hins : Arc.HalfOpen (getId p) (ctx.sha256 value) (getId s) := by
      grind [Arc.Open, Arc.HalfOpen]
    obtain rfl := hos.mpr hins
    have hown' : Arc.Owns getId (insert n ring) (ctx.sha256 value) n :=
      (Arc.owns_insert_iff getId_injective hnext hopen).mpr (by simpa using hin)
    have hget : (sys.info n).getData (ctx.sha256 value).bytes =
        if Arc.HalfOpen (getId p) (ctx.sha256 (ctx.sha256 value).bytes) (getId n) then some value
        else none := by
      rw [NodeInformation.getData, hdata, if_pos rfl]
      split_ifs
      · simpa [NodeInformation.getData, Function.comp_def] using hheld
      · rfl
    rw [hideal.getKeyIsHashOfData_iff hm hown' hfuel' average hget]
    simp [hin, hins]
  · -- The old node stays responsible, and has the item unless the handover has moved it.
    have hon : o ≠ n := fun heq => hn (heq ▸ hown.mem)
    have hown' : Arc.Owns getId (insert n ring) (ctx.sha256 value) o := by
      rw [Arc.owns_insert_iff getId_injective hnext hopen, if_neg hon]
      exact ⟨hown, fun hmove => hin hmove.2⟩
    have hget : (sys.info o).getData (ctx.sha256 value).bytes =
        if ¬ (o = s ∧ Arc.HalfOpen (getId p) (ctx.sha256 (ctx.sha256 value).bytes) (getId n)) then
          some value
        else none := by
      rw [NodeInformation.getData, hdata, if_neg hon]
      by_cases hmove : o = s ∧
          Arc.HalfOpen (getId p) (ctx.sha256 (ctx.sha256 value).bytes) (getId n)
      · rw [if_pos hmove, if_neg (not_not.mpr hmove)]
        rfl
      · rw [if_neg hmove, if_pos hmove]
        exact hheld
    rw [hideal.getKeyIsHashOfData_iff hm hown' hfuel' average hget, not_and_or, hos]
    simp [hin]

/-- The ring of `40…` and `80…` after the node `40…` has put the value `[0x50]`. -/
def putExample (sha256 : Bytes → IdType) : System IdType :=
  (pair (idOf 0x40) (idOf 0x80) fun _ => ∅).putKeyIsHashOfData (fun _ => .localHops)
    ⟨sha256, 5, 5, fun _ => 0⟩ (idOf 0x40) [0x50] 0 1 []

/-- With a hash under which the place `50…` of the item is the hash of itself, the join of `60…`
moves the item to the node that is responsible for it. -/
theorem hashedItem_survives_iff_pair :
    ∃ sys, Run.exec (step byteSum (idOf 0x40)) (joinActions (idOf 0x40) (idOf 0x60) (idOf 0x80))
        (putExample byteSum) = some sys ∧
      ((sys.network fun _ => .localHops).calls 6 (idOf 0x40) 0).onDhtGetKeyIsHashOfData byteSum
        (byteSum [0x50]) = some (.dhtSuccess (byteSum [0x50]).bytes [0x50]) := by
  have h₁ : Settled (fun _ => .localHops) {idOf 0x40, idOf 0x80}
      (pair (idOf 0x40) (idOf 0x80) fun _ => ∅) := settled_pair (by decide) _ _
  have hlookup : ((putExample byteSum).network fun _ => .localHops).Resolves (idOf 0x40)
      (getId (idOf 0x60)) (.ok (some (idOf 0x80))) := ⟨5, by decide +kernel⟩
  have hpred : (putExample byteSum).pred (idOf 0x80) = some (idOf 0x40) := by decide +kernel
  obtain ⟨sys, hsys⟩ : ∃ sys, Run.exec (step byteSum (idOf 0x40))
      (joinActions (idOf 0x40) (idOf 0x60) (idOf 0x80)) (putExample byteSum) = some sys :=
    Option.isSome_iff_exists.mp (by decide +kernel)
  refine ⟨sys, hsys, (hashedItem_survives_iff h₁ (by decide)
    (by decide) [0x50] 0 1 [] (by decide) (by decide) hlookup hpred (Run.Weave.self _ _) hsys
    (by decide) (by decide) 0).mpr (Or.inr ?_)⟩
  decide +kernel

/-- A hash that sends all keys of 32 bytes to `70…`. -/
def byteSumOrSeventy (bytes : Bytes) : IdType :=
  if bytes.length = 32 then idOf 0x70 else byteSum bytes

/-- The item with the place `50…` is stored under a key with the hash `70…`.  The joining node `60…`
becomes responsible for the item, but the handover leaves it at `80…`: a get at any node of the
ring reads an empty response. -/
theorem hashedItem_lost :
    Settled (fun _ => .localHops) {idOf 0x40, idOf 0x80}
        (pair (idOf 0x40) (idOf 0x80) fun _ => ∅) ∧
      ((putExample byteSumOrSeventy).network fun _ => .localHops).Resolves (idOf 0x40)
        (getId (idOf 0x60)) (.ok (some (idOf 0x80))) ∧
      (putExample byteSumOrSeventy).pred (idOf 0x80) = some (idOf 0x40) ∧
      ∃ sys, Run.exec (step byteSumOrSeventy (idOf 0x40))
          (joinActions (idOf 0x40) (idOf 0x60) (idOf 0x80)) (putExample byteSumOrSeventy) =
            some sys ∧
        ∀ m ∈ ({idOf 0x60, idOf 0x40, idOf 0x80} : Finset IdType),
          ((sys.network fun _ => .localHops).calls 6 m 0).onDhtGetKeyIsHashOfData byteSumOrSeventy
            (byteSumOrSeventy [0x50]) = none := by
  refine ⟨settled_pair (by decide) _ _, ⟨5, by decide +kernel⟩, by decide +kernel, ?_⟩
  obtain ⟨sys, hsys, hgets⟩ := Option.map_eq_some_iff.mp
    (show (Run.exec (step byteSumOrSeventy (idOf 0x40))
      (joinActions (idOf 0x40) (idOf 0x60) (idOf 0x80)) (putExample byteSumOrSeventy)).map
        (fun sys => [idOf 0x60, idOf 0x40, idOf 0x80].map fun m =>
          ((sys.network fun _ => .localHops).calls 6 m 0).onDhtGetKeyIsHashOfData byteSumOrSeventy
            (byteSumOrSeventy [0x50])) = some [none, none, none] by
      decide +kernel)
  refine ⟨sys, hsys, ?_⟩
  simp only [List.map_cons, List.map_nil, List.cons.injEq, and_true] at hgets
  intro m hm
  simp only [Finset.mem_insert, Finset.mem_singleton] at hm
  rcases hm with rfl | rfl | rfl
  · exact hgets.1
  · exact hgets.2.1
  · exact hgets.2.2

end System

end ChordPlusPlus
