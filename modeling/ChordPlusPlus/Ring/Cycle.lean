import ChordPlusPlus.Ring.Evolution

/-!
# The successor pointers form one ordered cycle

The pointer invariant is preserved by every step of the maintenance loop, so it holds in every
reachable state of a deployment without failures.  From it follows that the successor pointers of
the joined nodes contain exactly one cycle: it passes through the bootstrap node, visits its
members in clockwise order going round once, and is reached from every joined node.
-/

namespace ChordPlusPlus

open Pointers

namespace System

variable {N : Type*} [Endpoint N] {b : N} {sys sys' : System N}

/-- In the initial state no node points anywhere. -/
lemma PointerInv.initial (b : N) : PointerInv b (System.initial : System N) where
  finger_none := fun _ _ _ => rfl
  succ_joined := fun _ _ h => nomatch h
  bootstrap_joined := fun _ h => absurd rfl h
  cycle := fun h => absurd rfl h
  reach := fun _ h => absurd rfl h
  knows := by
    rintro p s (h | h | ⟨n, h⟩)
    · cases h
    · cases h
    · cases h
  stabilizing := fun _ _ _ h => nomatch h
  read := fun _ _ _ h => nomatch h
  fixing := fun _ _ h => nomatch h
  asking := fun _ h => nomatch h
  pred_self := fun _ h => nomatch h
  notify_self := fun _ h => nomatch h

section Preservation

variable [DecidableEq N] {sha256 : Bytes → IdType} {a : Action N}

omit [Endpoint N] in
/-- A pointer set where there was none replaces no pointer. -/
lemma update_of_none {n : N} {v : Option N} (hn : sys.succ n = none)
    (heq : sys'.succ = Function.update sys.succ n v) :
    ∀ x y, sys.succ x = some y → sys'.succ x = some y := by
  intro x y hxy
  have hx : x ≠ n := by
    rintro rfl
    rw [hn] at hxy
    cases hxy
  rwa [heq, Function.update_of_ne hx]

/-- A step keeps every path. -/
lemma path_step (hinv : PointerInv b sys) (h : step sha256 b a sys = some sys') {p s : N}
    (hpath : Path getId sys.succ p s) : Path getId sys'.succ p s := by
  cases succ_step hinv h with
  | same heq => rwa [heq]
  | created _ hnone heq => exact hpath.mono (update_of_none hnone heq)
  | joined n t _ hnone _ heq => exact hpath.mono (update_of_none hnone heq)
  | shortened n t x _ hphase hsucc hopen heq =>
    rw [heq]
    exact Path.update hsucc hopen (hinv.knows x t (Or.inr (Or.inr ⟨n, hphase⟩))) hpath

/-- A step keeps what can be reached from a node. -/
lemma reach_step (hinv : PointerInv b sys) (h : step sha256 b a sys = some sys') {p s : N}
    (hreach : Relation.ReflTransGen (Hop sys.succ) p s) :
    Relation.ReflTransGen (Hop sys'.succ) p s := by
  cases succ_step hinv h with
  | same heq => rwa [heq]
  | created _ hnone heq => exact reach_mono (update_of_none hnone heq) hreach
  | joined n t _ hnone _ heq => exact reach_mono (update_of_none hnone heq) hreach
  | shortened n t x _ hphase hsucc hopen heq =>
    rw [heq]
    exact reach_update hsucc hopen (hinv.knows x t (Or.inr (Or.inr ⟨n, hphase⟩))) hreach

/-- A node joined after a step had joined before, is the bootstrap node, or points to a node that
had joined before. -/
lemma joined_of_step (hinv : PointerInv b sys) (h : step sha256 b a sys = some sys') {n : N}
    (hn : sys'.Joined n) : sys.Joined n ∨ (n = b ∧ sys'.succ b = some b) ∨
      ∃ s, sys.Joined s ∧ sys'.succ n = some s := by
  by_cases hold : sys.Joined n
  · exact Or.inl hold
  · right
    unfold Joined at hn hold
    cases succ_step hinv h with
    | same heq => exact absurd (heq ▸ hn) hold
    | created _ _ heq =>
      by_cases hnb : n = b
      · exact Or.inl ⟨hnb, by simp [heq]⟩
      · exact absurd (by simpa [heq, hnb] using hn) hold
    | joined m s _ _ hs heq =>
      by_cases hnm : n = m
      · exact Or.inr ⟨s, hs, by simp [heq, hnm]⟩
      · exact absurd (by simpa [heq, hnm] using hn) hold
    | shortened m s x _ _ hsucc _ heq =>
      by_cases hnm : n = m
      · exact absurd (by rw [hnm, hsucc]; exact Option.some_ne_none s) hold
      · exact absurd (by simpa [heq, hnm] using hn) hold

/-- A node that points to itself and knows no other predecessor goes on pointing to itself. -/
lemma succ_stays (hinv : PointerInv b sys) (h : step sha256 b a sys = some sys') {n : N}
    (hself : sys.succ n = some n) (hpred : sys.pred n = none ∨ sys.pred n = some n) :
    sys'.succ n = some n := by
  cases succ_step hinv h with
  | same heq => rwa [heq]
  | created _ hnone heq => exact update_of_none hnone heq n n hself
  | joined m s _ hnone _ heq => exact update_of_none hnone heq n n hself
  | shortened m s x _ hphase hsucc hopen heq =>
    by_cases hnm : n = m
    · subst hnm
      obtain rfl : s = n := Option.some.inj (hsucc.symm.trans hself)
      have hx : x ≠ s := fun hxs => hopen.ne_left (by rw [hxs])
      obtain ⟨y, hy, hys⟩ := hinv.read s s x hphase hx
      rcases hpred with hpred | hpred
      · rw [hpred] at hys
        cases hys
      · exact absurd (Option.some.inj (hys.symm.trans hpred)) hy
    · rw [heq, Function.update_of_ne hnm]
      exact hself

/-- Whoever is remembered as a predecessor after a step was remembered before, or points there. -/
lemma knows_step (hinv : PointerInv b sys) (h : step sha256 b a sys = some sys') {p s : N}
    (hknows : sys'.Knows p s) : sys.Knows p s ∨ sys'.succ p = some s := by
  rcases hknows with hpred | hmem | ⟨n, hphase⟩
  · left
    cases pred_step hinv h with
    | same heq => exact Or.inl (heq ▸ hpred)
    | moved m t _ hmem _ heq _ =>
      by_cases hst : s = t
      · subst hst
        obtain rfl : m = p := by simpa [heq] using hpred
        exact Or.inr (Or.inl hmem)
      · exact Or.inl (by simpa [heq, hst] using hpred)
  · rcases notifies_step hinv h hmem with hmem | ⟨-, hsucc⟩
    · exact Or.inl (Or.inr (Or.inl hmem))
    · exact Or.inr hsucc
  · left
    rcases (phase_step hinv h n).of_stabilizing hphase with ⟨hphase, -⟩ | ⟨hp, -, hpred⟩
    · exact Or.inr (Or.inr ⟨n, hphase⟩)
    · exact Or.inl (hpred ▸ hp.symm)

/-- A node that has a predecessor other than itself keeps one. -/
lemma pred_ne_step (hinv : PointerInv b sys) (h : step sha256 b a sys = some sys') {s y : N}
    (hy : y ≠ s) (hpred : sys.pred s = some y) : ∃ z, z ≠ s ∧ sys'.pred s = some z := by
  cases pred_step hinv h with
  | same heq => exact ⟨y, hy, heq ▸ hpred⟩
  | moved m t _ _ hcase heq _ =>
    by_cases hst : s = t
    · subst hst
      refine ⟨m, ?_, by simp [heq]⟩
      rcases hcase with hnone | ⟨q, _, hopen⟩
      · rw [hpred] at hnone
        cases hnone
      · exact fun hms => hopen.ne_right (by rw [hms])
    · exact ⟨y, hy, by simpa [heq, hst] using hpred⟩

/-- One step preserves the pointer invariant. -/
theorem PointerInv.step (hinv : PointerInv b sys) (h : System.step sha256 b a sys = some sys') :
    PointerInv b sys' where
  finger_none := fun _ hm i => finger_step hinv h hm i
  succ_joined := by
    intro n s hs
    cases succ_step hinv h with
    | same heq => exact joined_step hinv h (hinv.succ_joined n s (heq ▸ hs))
    | created _ _ heq =>
      by_cases hn : n = b
      · obtain rfl : b = s := by simpa [heq, hn] using hs
        simp [Joined, heq]
      · exact joined_step hinv h (hinv.succ_joined n s (by simpa [heq, hn] using hs))
    | joined m t _ _ ht heq =>
      by_cases hn : n = m
      · obtain rfl : t = s := by simpa [heq, hn] using hs
        exact joined_step hinv h ht
      · exact joined_step hinv h (hinv.succ_joined n s (by simpa [heq, hn] using hs))
    | shortened m t x _ hphase _ _ heq =>
      by_cases hn : n = m
      · obtain rfl : x = s := by simpa [heq, hn] using hs
        exact joined_step hinv h (hinv.knows x t (Or.inr (Or.inr ⟨m, hphase⟩))).isSome
      · exact joined_step hinv h (hinv.succ_joined n s (by simpa [heq, hn] using hs))
  bootstrap_joined := by
    intro n hn
    rcases joined_of_step hinv h hn with hold | ⟨-, hb⟩ | ⟨s, hs, -⟩
    · exact joined_step hinv h (hinv.bootstrap_joined n hold)
    · simp [Joined, hb]
    · exact joined_step hinv h (hinv.bootstrap_joined s hs)
  cycle := by
    intro hb
    rcases joined_of_step hinv h hb with hold | ⟨-, hself⟩ | ⟨s, hs, -⟩
    · exact path_step hinv h (hinv.cycle hold)
    · exact Path.last hself
    · exact path_step hinv h (hinv.cycle (hinv.bootstrap_joined s hs))
  reach := by
    intro n hn
    rcases joined_of_step hinv h hn with hold | ⟨rfl, -⟩ | ⟨s, hs, hhop⟩
    · exact reach_step hinv h (hinv.reach n hold)
    · exact Relation.ReflTransGen.refl
    · exact Relation.ReflTransGen.head hhop (reach_step hinv h (hinv.reach s hs))
  knows := by
    intro p s hknows
    rcases knows_step hinv h hknows with hold | hsucc
    · exact path_step hinv h (hinv.knows p s hold)
    · exact Path.last hsucc
  stabilizing := by
    intro n s p hphase
    rcases (phase_step hinv h n).of_stabilizing hphase with ⟨hold, hsucc⟩ | ⟨-, hsucc, -⟩
    · exact hsucc.trans (hinv.stabilizing n s p hold)
    · exact hsucc
  read := by
    intro n s x hphase hx
    rcases (phase_step hinv h n).of_stabilizing hphase with ⟨hold, -⟩ | ⟨hp, -, -⟩
    · obtain ⟨y, hy, hpred⟩ := hinv.read n s x hold hx
      exact pred_ne_step hinv h hy hpred
    · exact ⟨x, hx, hp.symm⟩
  fixing := by
    intro n r hphase hcase
    rcases (phase_step hinv h n).of_fixing hphase with ⟨hold, hsucc, hnext⟩ | ⟨hfound, -⟩
    · rw [hsucc] at hcase ⊢
      rw [hnext] at hcase
      exact hinv.fixing n r hold hcase
    · exact hfound hcase
  asking := by
    intro n hphase
    rcases (phase_step hinv h n).of_asking hphase with ⟨hold, hsucc⟩ | hnone
    · exact hsucc.trans (hinv.asking n hold)
    · exact hnone
  pred_self := by
    intro n hn
    cases pred_step hinv h with
    | same heq =>
      have hold : sys.pred n = some n := heq ▸ hn
      exact succ_stays hinv h (hinv.pred_self n hold) (Or.inr hold)
    | moved m t _ hmem hcase heq hsucc =>
      by_cases hnt : n = t
      · subst hnt
        obtain rfl : m = n := by simpa [heq] using hn
        rcases hcase with hnone | ⟨q, -, hopen⟩
        · rw [hsucc]
          exact hinv.notify_self m hmem hnone
        · exact absurd hopen (Arc.not_open_right _ _)
      · have hold : sys.pred n = some n := by simpa [heq, hnt] using hn
        exact succ_stays hinv h (hinv.pred_self n hold) (Or.inr hold)
  notify_self := by
    intro n hmem hnone
    rcases notifies_step hinv h hmem with hold | ⟨-, hsucc⟩
    · have hpred : sys.pred n = none := by
        cases pred_step hinv h with
        | same heq => exact heq ▸ hnone
        | moved m t _ _ _ heq _ =>
          by_cases hnt : n = t
          · simp [heq, hnt] at hnone
          · simpa [heq, hnt] using hnone
      exact succ_stays hinv h (hinv.notify_self n hold hpred) (Or.inl hpred)
    · exact hsucc

/-- The pointer invariant holds in every reachable state. -/
theorem pointerInv_of_reachable
    (h : Run.Reachable (System.step sha256 b) System.initial sys) : PointerInv b sys :=
  Run.Reachable.invariant (fun _ _ _ hinv hstep => hinv.step hstep) (PointerInv.initial b) h

end Preservation

/-! ## The cycle -/

/-- The only cycle of the successor pointers is `b :: rest`.  It visits its members in clockwise
order, going round once, and every joined node leads to it. -/
structure OrderedCycle (sys : System N) (b : N) (rest : List N) : Prop where
  /-- Each member points to the next one, the last one to `b`. -/
  hops : List.IsChain (Hop sys.succ) (b :: (rest ++ [b]))
  /-- The clockwise distance from `b` grows strictly along the cycle. -/
  clockwise : (b :: rest).Pairwise fun x y =>
    ByteArr.dist (getId b) (getId x) < ByteArr.dist (getId b) (getId y)
  /-- Its members are the nodes that lead back to themselves. -/
  only : ∀ n, Relation.TransGen (Hop sys.succ) n n ↔ n ∈ b :: rest
  /-- Every joined node leads to it. -/
  reached : ∀ n, sys.Joined n → ∃ c ∈ b :: rest, Relation.ReflTransGen (Hop sys.succ) n c

/-- In every reachable state, unless no node has joined yet, the successor pointers contain exactly
one cycle; it passes through the bootstrap node. -/
theorem exists_orderedCycle [DecidableEq N] {sha256 : Bytes → IdType}
    (h : Run.Reachable (System.step sha256 b) System.initial sys) :
    (∀ n, ¬ sys.Joined n) ∨ ∃ rest, OrderedCycle sys b rest := by
  have hinv := pointerInv_of_reachable h
  by_cases hb : sys.Joined b
  · right
    obtain ⟨rest, hvisits⟩ := (hinv.cycle hb).exists_visits
    have hchain := hvisits.chain
    refine ⟨rest, hchain, ?_, ?_, ?_⟩
    · rw [List.pairwise_cons]
      constructor
      · intro y hy
        rw [ByteArr.dist_self]
        exact ByteArr.dist_pos (hvisits.inside y hy).ne_left.symm
      · apply hvisits.sorted.imp_of_mem
        intro y z _ hz hyz
        exact ByteArr.dist_lt_dist_left (hvisits.inside z hz).ne_left.symm hyz
    · intro n
      constructor
      · intro hcycle
        have hn : sys.Joined n := by
          obtain ⟨m, hm, -⟩ := Relation.TransGen.head'_iff.mp hcycle
          exact fun hnone => Option.some_ne_none m (hm.symm.trans hnone)
        have hback := reach_back_of_cycle hcycle (hinv.reach n hn)
        exact mem_of_reach hchain List.mem_cons_self hback
      · exact cycle_of_mem_chain hchain
    · intro n hn
      exact ⟨b, List.mem_cons_self, hinv.reach n hn⟩
  · left
    intro n hn
    exact hb (hinv.bootstrap_joined n hn)

/-- One node creates the ring and becomes its own predecessor; another one joins it, and both stabilize
and notify each other. -/
def pairRun : List (Action IdType) :=
  [.create, .stabilizeRead (idOf 0), .stabilizeAct (idOf 0), .deliverNotify (idOf 0) (idOf 0),
    .joinStart (idOf 1), .joinAnswer (idOf 1) (idOf 0), .handover (idOf 1), .storeItems (idOf 1),
    .stabilizeRead (idOf 1), .stabilizeAct (idOf 1), .deliverNotify (idOf 1) (idOf 0),
    .stabilizeRead (idOf 0), .stabilizeAct (idOf 0), .deliverNotify (idOf 0) (idOf 1)]

/-- Two nodes form the ring, one after the other. -/
theorem exists_orderedCycle_two_nodes :
    ∃ sys rest, Run.exec (System.step (fun _ => idOf 0) (idOf 0)) pairRun System.initial = some sys ∧
      sys.succ (idOf 0) = some (idOf 1) ∧ sys.succ (idOf 1) = some (idOf 0) ∧
      OrderedCycle sys (idOf 0) rest := by
  obtain ⟨sys, hsys, hzero, hone⟩ := @Run.exists_exec_of_decide _ _
    (System.step (fun _ => idOf 0) (idOf 0))
    (fun sys => sys.succ (idOf 0) = some (idOf 1) ∧ sys.succ (idOf 1) = some (idOf 0)) _
    pairRun System.initial (by decide +kernel)
  rcases exists_orderedCycle ⟨_, hsys⟩ with hnone | ⟨rest, hcycle⟩
  · have hjoined : sys.Joined (idOf 0) := by
      rw [Joined, hzero]
      exact Option.some_ne_none _
    exact absurd hjoined (hnone (idOf 0))
  · exact ⟨sys, rest, hsys, hzero, hone, hcycle⟩

end System

end ChordPlusPlus
