import ChordPlusPlus.Ring.HopRun
import Mathlib.Data.Nat.Log

/-!
# Exact fingers halve the distance

On an ideal ring let every finger be exact: `finger[i]` of a node is the node responsible for the id
`2 ^ i` after its own.  Then the closest preceding finger that `getClosestPreceding` returns lies
more than half way to the last node before the id, so a lookup with `LOCAL` hops pushes at
most as many hops as an id has bits.

Let `d` be the distance to the last node before the id.  The finger that is returned is the one with
`2 ^ i ≤ d < 2 ^ (i + 1)`: it lies on the way since there is a node at distance `d`, and the higher
fingers, at a distance of `2 ^ (i + 1)` or more, lie beyond that node or have come round to the node
that is asked.
-/

namespace ChordPlusPlus

variable {N : Type*} [Endpoint N]

/-- The scan of `getClosestPreceding` goes from the highest finger down. -/
lemma PeerImpl.exists_highest_finger {self f : N} {info : NodeInformation N} {id : IdType}
    (h : PeerImpl.getClosestPreceding self info id = some f) :
    ∃ i, info.fingerTable i = some f ∧ Arc.Open (getId self) (getId f) id ∧
      ∀ j > i, ∀ g, info.fingerTable j = some g → ¬ Arc.Open (getId self) (getId g) id := by
  obtain ⟨before, i, after, hsplit, hi, hbefore⟩ := List.findSome?_eq_some_iff.mp h
  rw [Option.filter_eq_some_iff] at hi
  refine ⟨i, hi.1, by simpa using hi.2, ?_⟩
  intro j hj g hg
  -- The indices after `i` in the scan are smaller, so `j` was looked at before.
  have hsorted : (before ++ i :: after).Pairwise (· > ·) := by
    rw [← hsplit, List.pairwise_reverse]
    exact List.pairwise_lt_finRange keyBits
  have hmem : j ∈ before ++ i :: after := by
    rw [← hsplit]
    simp
  have hjbefore : j ∈ before := by
    rcases List.mem_append.mp hmem with hj' | hj'
    · exact hj'
    rcases List.mem_cons.mp hj' with rfl | hj'
    · exact absurd hj (lt_irrefl _)
    · have hlt := List.rel_of_pairwise_cons (List.pairwise_append.mp hsorted).2.1 hj'
      exact absurd hj (lt_asymm hlt)
  have hnone := hbefore j hjbefore
  rw [hg, Option.filter_eq_none_iff] at hnone
  simpa using hnone g rfl

/-! ## Exact fingers -/

/-- Every finger of every ring node is the node responsible for its start. -/
def ExactFingers (net : Network N) (ring : Finset N) : Prop :=
  ∀ n ∈ ring, ∀ i : Fin keyBits, ∃ f, (net.info n).fingerTable i = some f ∧
    Arc.Owns getId ring (getId n + pow2 32 i) f

section Distance

variable {ring : Finset N} {n f x : N} {i : Fin keyBits}

lemma two_pow_lt (i : Fin keyBits) : 2 ^ (i : ℕ) < 256 ^ 32 := by
  have hlt := (pow2 32 i).toNat_lt
  rwa [toNat_pow2 (by decide) i.isLt] at hlt

/-- From the start of a finger, no ring node comes before the finger. -/
lemma dist_finger_le_dist (hf : Arc.Owns getId ring (getId n + pow2 32 i) f) (hx : x ∈ ring) :
    (if 2 ^ (i : ℕ) ≤ ByteArr.dist (getId n) (getId f)
      then ByteArr.dist (getId n) (getId f) - 2 ^ (i : ℕ)
      else ByteArr.dist (getId n) (getId f) + 256 ^ 32 - 2 ^ (i : ℕ)) ≤
    if 2 ^ (i : ℕ) ≤ ByteArr.dist (getId n) (getId x)
      then ByteArr.dist (getId n) (getId x) - 2 ^ (i : ℕ)
      else ByteArr.dist (getId n) (getId x) + 256 ^ 32 - 2 ^ (i : ℕ) := by
  have hnear := ByteArr.halfOpen_iff_dist.mp (hf.halfOpen hx)
  rwa [ByteArr.dist_add_left, ByteArr.dist_add_left, toNat_pow2 (by decide) i.isLt] at hnear

/-- A finger is at least as far as its start, unless it has come round to the node itself. -/
lemma two_pow_le_dist (hn : n ∈ ring) (hf : Arc.Owns getId ring (getId n + pow2 32 i) f)
    (hne : f ≠ n) : 2 ^ (i : ℕ) ≤ ByteArr.dist (getId n) (getId f) := by
  have hnear := dist_finger_le_dist hf hn
  have hpos := Nat.two_pow_pos (i : ℕ)
  have hlt := two_pow_lt i
  have hdist := ByteArr.dist_pos fun heq => hne (getId_injective heq).symm
  rw [ByteArr.dist_self, if_neg (Nat.not_le.mpr hpos)] at hnear
  by_contra hle
  rw [if_neg hle] at hnear
  omega

/-- A finger whose start is not beyond a ring node is not beyond it either. -/
lemma dist_le_of_two_pow_le (hn : n ∈ ring) (hf : Arc.Owns getId ring (getId n + pow2 32 i) f)
    (hx : x ∈ ring) (hle : 2 ^ (i : ℕ) ≤ ByteArr.dist (getId n) (getId x)) :
    f ≠ n ∧ ByteArr.dist (getId n) (getId f) ≤ ByteArr.dist (getId n) (getId x) := by
  have hnear := dist_finger_le_dist hf hx
  have hlt := ByteArr.dist_lt (getId n) (getId x)
  have hpos := Nat.two_pow_pos (i : ℕ)
  rw [if_pos hle] at hnear
  have hne : f ≠ n := by
    rintro rfl
    rw [ByteArr.dist_self, if_neg (Nat.not_le.mpr hpos)] at hnear
    omega
  have hfar := two_pow_le_dist hn hf hne
  rw [if_pos hfar] at hnear
  exact ⟨hne, by omega⟩

end Distance

section Halving

variable {net : Network N} {ring : Finset N}

/-- A ring node on the way from `m` to `id` is not beyond the last node before `id`. -/
lemma dist_le_of_open {m p s f : N} {id : IdType} (hnext : Arc.IsNext getId ring p s)
    (hid : Arc.HalfOpen (getId p) id (getId s)) (hne : p ≠ m) (hf : f ∈ ring)
    (hopen : Arc.Open (getId m) (getId f) id) :
    ByteArr.dist (getId m) (getId f) ≤ ByteArr.dist (getId m) (getId p) := by
  by_contra hlt
  have hpos := ByteArr.dist_pos fun heq => hne (getId_injective heq).symm
  have hbetween : Arc.Open (getId m) (getId p) (getId f) :=
    (ByteArr.open_iff_dist hopen.ne_left.symm).mpr ⟨hpos, Nat.not_le.mp hlt⟩
  exact hnext.not_open_of_halfOpen hid hf (hbetween.tail hopen)

/-- A ring node that is not beyond the last node before `id` is on the way to `id`. -/
lemma open_of_dist_le {m p s f : N} {id : IdType} (hnext : Arc.IsNext getId ring p s)
    (hid : Arc.HalfOpen (getId p) id (getId s)) (hm : m ∈ ring) (hne : p ≠ m) (hfm : f ≠ m)
    (hle : ByteArr.dist (getId m) (getId f) ≤ ByteArr.dist (getId m) (getId p)) :
    Arc.Open (getId m) (getId f) id := by
  have hmp : getId m ≠ getId p := fun heq => hne (getId_injective heq).symm
  have hopen := hnext.open_of_halfOpen hid hm hmp.symm
  by_cases hfp : f = p
  · rwa [hfp]
  · have hsum := ByteArr.dist_add_dist hle
    have hrest := ByteArr.dist_pos fun heq => hfp (getId_injective heq)
    have hpos := ByteArr.dist_pos fun heq => hfm (getId_injective heq).symm
    exact hopen.of_head ((ByteArr.open_iff_dist hmp).mpr ⟨hpos, by omega⟩)

/-- With exact fingers the closest preceding finger covers more than half of the distance to the last
node before the id. -/
lemma ExactFingers.closestPreceding_halves (hfingers : ExactFingers net ring) {m p s : N}
    {id : IdType} (hm : m ∈ ring) (hnext : Arc.IsNext getId ring p s)
    (hid : Arc.HalfOpen (getId p) id (getId s)) (hne : p ≠ m) :
    ∃ f ∈ ring, PeerImpl.getClosestPreceding m (net.info m) id = some f ∧
      Arc.Open (getId m) (getId f) id ∧
      ByteArr.dist (getId m) (getId f) + ByteArr.dist (getId f) (getId p) =
        ByteArr.dist (getId m) (getId p) ∧
      ByteArr.dist (getId f) (getId p) < ByteArr.dist (getId m) (getId f) := by
  have hpos : 0 < ByteArr.dist (getId m) (getId p) :=
    ByteArr.dist_pos fun heq => hne (getId_injective heq).symm
  have hlt := ByteArr.dist_lt (getId m) (getId p)
  -- The finger `k` is the last one whose start is not beyond `p`.
  have hlower := Nat.pow_log_le_self 2 hpos.ne'
  have hupper := Nat.lt_pow_succ_log_self Nat.one_lt_two (ByteArr.dist (getId m) (getId p))
  have hbits : Nat.log 2 (ByteArr.dist (getId m) (getId p)) < keyBits := by
    apply Nat.log_lt_of_lt_pow hpos.ne'
    calc ByteArr.dist (getId m) (getId p) < 256 ^ 32 := hlt
      _ = 2 ^ keyBits := by norm_num
  obtain ⟨k, hk⟩ : ∃ k : Fin keyBits, (k : ℕ) = Nat.log 2 (ByteArr.dist (getId m) (getId p)) :=
    ⟨⟨_, hbits⟩, rfl⟩
  rw [← hk] at hlower hupper
  obtain ⟨g, hg, hgown⟩ := hfingers m hm k
  obtain ⟨hgm, hgle⟩ := dist_le_of_two_pow_le hm hgown hnext.left_mem hlower
  have hgopen := open_of_dist_le hnext hid hm hne hgm hgle
  rcases hgcp : PeerImpl.getClosestPreceding m (net.info m) id with _ | f
  · exact absurd hgopen (PeerImpl.getClosestPreceding_eq_none_iff.mp hgcp k g hg)
  obtain ⟨j, hj, hopen, hhighest⟩ := PeerImpl.exists_highest_finger hgcp
  obtain ⟨f', hf', hown⟩ := hfingers m hm j
  obtain rfl : f = f' := Option.some.inj (hj.symm.trans hf')
  have hfm : f ≠ m := fun heq => hopen.ne_left (congrArg getId heq)
  have hfar := two_pow_le_dist hm hown hfm
  have hle := dist_le_of_open hnext hid hne hown.mem hopen
  -- The finger that is returned is `k`: no lower one, and no higher one is before `p`.
  have hkj : (k : ℕ) ≤ j := by
    by_contra hlow
    exact hhighest k (Fin.lt_def.mpr (Nat.not_le.mp hlow)) g hg hgopen
  have hpow : 2 ^ (k : ℕ) ≤ 2 ^ (j : ℕ) := Nat.pow_le_pow_right (by decide) hkj
  have hsum := ByteArr.dist_add_dist hle
  rw [Nat.succ_eq_add_one, pow_succ] at hupper
  exact ⟨f, hown.mem, rfl, hopen, hsum, by omega⟩

end Halving

/-! ## The hop loop -/

section HopLoop

variable [DecidableEq N] {net : Network N} {ring : Finset N}

/-- The hop loop on an ideal ring with exact fingers after some pushes: it has not turned back, and
what is left of the distance to the last node `p` before the id has been halved by every push. -/
structure Halved (ring : Finset N) (p : N) (pushes : ℕ) (st : HopLoop.State N) : Prop where
  distrusted : st.distrusted = ∅
  top : ∃ current hops, st.hops = current :: hops ∧ current ∈ ring ∧
    ByteArr.dist (getId current) (getId p) * 2 ^ pushes < 2 ^ keyBits
  pushes_le : pushes ≤ keyBits

/-- The answer of the asked node on an ideal ring, as long as no node is distrusted. -/
lemma helper_eq_of_ideal (h : IsIdeal net ring) {self c s : N} {id : IdType} (hc : c ∈ ring)
    (hfinger : (net.info c).fingerTable 0 = some s) (hs : Arc.IsNext getId ring c s)
    {fuel request request' : ℕ} {result : ClosestPrecedingPair N}
    (hhelp : PeerImpl.getClosestPrecedingHelper self (net.info self) (fun _ => net.peers) fuel
      request c id ∅ = some (.ok result, request')) :
    result = ⟨PeerImpl.getClosestPreceding c (net.info c) id, if s = self then none else some s⟩ := by
  rcases fuel with _ | fuel
  · cases hhelp
  · obtain ⟨request'', hideal⟩ := @helper_ideal _ _ _ _ _ h self _ _ id hc hfinger hs fuel request
    rw [hhelp] at hideal
    exact Except.ok.inj (congrArg Prod.fst (Option.some.inj hideal))

omit [DecidableEq N] in
/-- The node that is asked next. -/
lemma Halved.current {p current : N} {pushes request : ℕ} {hops : List N} {distrusted : Finset N}
    (hhalved : Halved ring p pushes ⟨request, current :: hops, distrusted⟩) :
    current ∈ ring ∧ ByteArr.dist (getId current) (getId p) * 2 ^ pushes < 2 ^ keyBits := by
  obtain ⟨top, rest, htop, hcurrent, hdist⟩ := hhalved.top
  obtain ⟨rfl, -⟩ : current = top ∧ hops = rest := List.cons.inj htop
  exact ⟨hcurrent, hdist⟩

/-- The answer of the node that is asked next. -/
lemma Halved.helper_eq (h : IsIdeal net ring) {self p current : N} {id : IdType}
    {pushes fuel request request' : ℕ} {hops : List N} {distrusted : Finset N}
    {result : ClosestPrecedingPair N}
    (hhalved : Halved ring p pushes ⟨request, current :: hops, distrusted⟩)
    (hhelp : PeerImpl.getClosestPrecedingHelper self (net.info self) (fun _ => net.peers) fuel
      request current id distrusted = some (.ok result, request')) :
    ∃ t, (net.info current).fingerTable 0 = some t ∧ Arc.IsNext getId ring current t ∧
      PeerImpl.getClosestPreceding current (net.info current) id = result.closestPreceding ∧
      result.successor = if t = self then none else some t := by
  obtain rfl : distrusted = ∅ := hhalved.distrusted
  have hcurrent := hhalved.current.1
  obtain ⟨t, hfinger, ht⟩ := h.successor current hcurrent
  have hresult := helper_eq_of_ideal h hcurrent hfinger ht hhelp
  exact ⟨t, hfinger, ht, (congrArg ClosestPrecedingPair.closestPreceding hresult).symm,
    congrArg ClosestPrecedingPair.successor hresult⟩

/-- A push halves the distance. -/
lemma Halved.push (h : IsIdeal net ring) (hfingers : ExactFingers net ring) {self p s : N}
    {id : IdType} (hnext : Arc.IsNext getId ring p s)
    (hid : Arc.HalfOpen (getId p) id (getId s)) {pushes fuel request request' : ℕ} {current c : N}
    {hops : List N} {distrusted : Finset N} {successor : Option N}
    (hhalved : Halved ring p pushes ⟨request, current :: hops, distrusted⟩)
    (hhelp : PeerImpl.getClosestPrecedingHelper self (net.info self) (fun _ => net.peers) fuel
      request current id distrusted = some (.ok ⟨some c, successor⟩, request')) :
    Halved ring p (pushes + 1) ⟨request', c :: current :: hops, distrusted⟩ := by
  obtain ⟨hcurrent, hdist⟩ := hhalved.current
  obtain ⟨-, -, -, hgcp, -⟩ := hhalved.helper_eq h hhelp
  -- At the last node before the id no finger lies before the id.
  have hne : p ≠ current := by
    rintro rfl
    obtain ⟨hc, hopen⟩ := h.closestPreceding hcurrent hgcp
    exact hnext.not_open_of_halfOpen hid hc hopen
  obtain ⟨f, hf, hgcp', -, hsum, hhalf⟩ :=
    hfingers.closestPreceding_halves hcurrent hnext hid hne
  obtain rfl : c = f := Option.some.inj (hgcp.symm.trans hgcp')
  have hpos : 1 ≤ ByteArr.dist (getId current) (getId p) :=
    ByteArr.dist_pos fun heq => hne (getId_injective heq).symm
  refine ⟨hhalved.distrusted, ⟨c, current :: hops, rfl, hf, ?_⟩, ?_⟩
  · calc ByteArr.dist (getId c) (getId p) * 2 ^ (pushes + 1)
        = 2 * ByteArr.dist (getId c) (getId p) * 2 ^ pushes := by ring
      _ ≤ ByteArr.dist (getId current) (getId p) * 2 ^ pushes :=
        Nat.mul_le_mul_right _ (by omega)
      _ < 2 ^ keyBits := hdist
  · have hpow : 2 ^ pushes < 2 ^ keyBits :=
      (Nat.le_mul_of_pos_left _ hpos).trans_lt hdist
    exact (Nat.pow_lt_pow_iff_right Nat.one_lt_two).mp hpow

/-- The hop loop does not turn back, unless the asking node is responsible for the id itself. -/
lemma Halved.not_pop (h : IsIdeal net ring) {self p : N} {id : IdType} (hself : self ∈ ring)
    (hrequested : PeerImpl.requested self (net.info self) id = .otherNode)
    {pushes fuel request request' : ℕ} {current : N} {hops : List N} {distrusted : Finset N}
    (hhalved : Halved ring p pushes ⟨request, current :: hops, distrusted⟩) :
    PeerImpl.getClosestPrecedingHelper self (net.info self) (fun _ => net.peers) fuel request
      current id distrusted ≠ some (.ok ⟨none, none⟩, request') := by
  intro hhelp
  obtain ⟨t, hfinger, ht, hgcp, hsuccessor⟩ := hhalved.helper_eq h hhelp
  split_ifs at hsuccessor with htself
  have hown := IsIdeal.owns_of_no_closestPreceding ht hfinger hgcp
  rw [htself] at hown
  obtain ⟨q, hq, hin⟩ := (h.responsible_iff_owns hself).mpr hown
  exact (PeerImpl.requested_eq_otherNode hrequested).1 q hq (by simpa using hin)

/-- Every state of the hop loop that a lookup comes to. -/
lemma halved_of_reaches (h : IsIdeal net ring) (hfingers : ExactFingers net ring) {self p s : N}
    {id : IdType} (hself : self ∈ ring)
    (hrequested : PeerImpl.requested self (net.info self) id = .otherNode)
    (hnext : Arc.IsNext getId ring p s) (hid : Arc.HalfOpen (getId p) id (getId s))
    {pushes pops : ℕ} {st : HopLoop.State N}
    (hreaches : HopLoop.Reaches self (net.info self) (fun _ => net.peers) id pushes pops st) :
    Halved ring p pushes st := by
  induction hreaches with
  | start =>
    refine ⟨rfl, ⟨self, [], rfl, hself, ?_⟩, Nat.zero_le _⟩
    calc ByteArr.dist (getId self) (getId p) * 2 ^ 0
        < 256 ^ 32 := by simpa using ByteArr.dist_lt (getId self) (getId p)
      _ = 2 ^ keyBits := by norm_num
  | push _ hhelp ih => exact ih.push h hfingers hnext hid hhelp
  | pop _ hhelp ih => exact absurd hhelp (ih.not_pop h hself hrequested)

omit [DecidableEq N] in
/-- The nodes of every ring can be given exact fingers. -/
lemma exists_exactFingers (hne : ring.Nonempty) :
    ∃ net : Network N, IsIdeal net ring ∧ ExactFingers net ring := by
  have : Nonempty N := ⟨hne.choose⟩
  choose own hown using fun id => @Arc.exists_owns N IdType _ getId _ hne id
  choose! before hbefore using fun m (hm : m ∈ ring) =>
    @Arc.exists_isNext N IdType _ getId ring getId_injective m hm
  let net : Network N := {
    info := fun m => { (NodeInformation.initial : NodeInformation N) with
      predecessor := some (before m)
      fingerTable := fun i => some (own (getId m + pow2 32 i)) }
    answers := fun _ => true
    method := fun _ => .localHops }
  refine ⟨net, ⟨hne, fun _ _ => rfl, ?_, fun m hm => ⟨_, rfl, hbefore m hm⟩, ?_⟩, ?_⟩
  · intro m hm
    have hs := hown (getId m + pow2 32 ((0 : Fin keyBits) : ℕ))
    refine ⟨_, rfl, hm, hs.mem, ?_⟩
    generalize own (getId m + pow2 32 ((0 : Fin keyBits) : ℕ)) = s at hs ⊢
    -- A node before the owner of the next id would be its owner.
    intro x hx hopen
    have hnear := dist_finger_le_dist hs hx
    have hpos := ByteArr.dist_pos hopen.ne_left.symm
    have hlt := ByteArr.dist_lt (getId m) (getId x)
    rw [Fin.val_zero, pow_zero, if_pos (show 1 ≤ ByteArr.dist (getId m) (getId x) from hpos)]
      at hnear
    by_cases hself : getId m = getId s
    · rw [← hself, ByteArr.dist_self, if_neg (by decide)] at hnear
      omega
    · obtain ⟨-, hbefore⟩ := (ByteArr.open_iff_dist hself).mp hopen
      split_ifs at hnear
      · omega
      · omega
  · intro m _ i f hf
    rw [← Option.some.inj hf]
    exact (hown _).mem
  · intro n _ i
    exact ⟨_, rfl, hown _⟩

/-- **Halving.**  On an ideal ring with exact fingers the closest preceding finger at a node `m` other
than the last node `p` before the id lies between `m` and the id, and closer to `p` than to `m`; and
the hop loop of a lookup pushes at most 256 hops. -/
theorem exactFingers_halve (h : IsIdeal net ring) (hfingers : ExactFingers net ring) :
    (∀ m ∈ ring, ∀ p s id, Arc.IsNext getId ring p s → Arc.HalfOpen (getId p) id (getId s) →
      p ≠ m → ∃ f, PeerImpl.getClosestPreceding m (net.info m) id = some f ∧
        Arc.Open (getId m) (getId f) id ∧
        ByteArr.dist (getId f) (getId p) < ByteArr.dist (getId m) (getId f)) ∧
    ∀ self ∈ ring, ∀ id, PeerImpl.requested self (net.info self) id = .otherNode →
      ∀ pushes pops st,
        HopLoop.Reaches self (net.info self) (fun _ => net.peers) id pushes pops st →
        pushes ≤ 256 := by
  constructor
  · intro m hm p s id hnext hid hne
    obtain ⟨f, -, hgcp, hopen, -, hhalf⟩ := hfingers.closestPreceding_halves hm hnext hid hne
    exact ⟨f, hgcp, hopen, hhalf⟩
  · intro self hself id hrequested pushes pops st hreaches
    obtain ⟨s, p, hnext, hid⟩ := @Arc.exists_owns N IdType _ getId _ h.nonempty id
    exact (halved_of_reaches h hfingers hself hrequested hnext hid hreaches).pushes_le

/-- The nodes `40…`, `80…` and `c0…`. -/
def threeNodes : Finset IdType := {idOf 0x40, idOf 0x80, idOf 0xC0}

/-- A lookup of `a0…` at `40…` on the ring of three nodes with exact fingers: the first hop halves the
distance to `80…`, and the loop pushes it. -/
theorem exactFingers_halve_three :
    ∃ net : Network IdType, IsIdeal net threeNodes ∧ ExactFingers net threeNodes ∧
      (∃ f, PeerImpl.getClosestPreceding (idOf 0x40) (net.info (idOf 0x40)) (idOf 0xA0) = some f ∧
        Arc.Open (idOf 0x40) (getId f) (idOf 0xA0) ∧
        ByteArr.dist (getId f) (idOf 0x80) < ByteArr.dist (idOf 0x40) (getId f)) ∧
      (∃ st, HopLoop.Reaches (idOf 0x40) (net.info (idOf 0x40)) (fun _ => net.peers) (idOf 0xA0)
        1 0 st) ∧
      ∀ pushes pops st, HopLoop.Reaches (idOf 0x40) (net.info (idOf 0x40)) (fun _ => net.peers)
        (idOf 0xA0) pushes pops st → pushes ≤ 256 := by
  have hfirst : Arc.IsNext getId threeNodes (idOf 0x40) (idOf 0x80) :=
    ⟨by decide, by decide, by decide⟩
  have hsecond : Arc.IsNext getId threeNodes (idOf 0x80) (idOf 0xC0) :=
    ⟨by decide, by decide, by decide⟩
  have hthird : Arc.IsNext getId threeNodes (idOf 0xC0) (idOf 0x40) :=
    ⟨by decide, by decide, by decide⟩
  obtain ⟨net, h, hfingers⟩ := @exists_exactFingers IdType _ threeNodes ⟨idOf 0x40, by decide⟩
  obtain ⟨hhalve, hpushes⟩ := exactFingers_halve h hfingers
  obtain ⟨f, hgcp, hopen, hhalf⟩ := hhalve (idOf 0x40) (by decide) (idOf 0x80) (idOf 0xC0)
    (idOf 0xA0) hsecond (by decide) (by decide)
  obtain ⟨s, hfinger, hnext⟩ := h.successor (idOf 0x40) (by decide)
  obtain rfl : idOf 0x80 = s := hfirst.right_unique getId_injective hnext
  have hpred := h.predecessor_of_next hthird
  have hrequested : PeerImpl.requested (idOf 0x40) (net.info (idOf 0x40)) (idOf 0xA0) =
      .otherNode := by
    rw [PeerImpl.requested, hpred, NodeInformation.getSuccessor_of_finger_zero hfinger]
    decide
  obtain ⟨request', hhelp⟩ := @helper_ideal _ _ _ _ _ h (idOf 0x40) _ _ (idOf 0xA0) (by decide)
    hfinger hnext 0 0
  rw [hgcp] at hhelp
  exact ⟨net, h, hfingers, ⟨f, hgcp, hopen, hhalf⟩, ⟨_, HopLoop.Reaches.start.push hhelp⟩,
    hpushes (idOf 0x40) (by decide) (idOf 0xA0) hrequested⟩

end HopLoop

end ChordPlusPlus
