import ChordPlusPlus.Entry.MainLoop
import ChordPlusPlus.Foundation.Stack

/-!
# The shell comes to an end

A script may execute other scripts, or itself, and `repeat` makes the loop take a command again without
reading a line.  The loop of the shell ends nevertheless, whatever the commands do, if the input and the
scripts are finite: at most 64 scripts are open, and each turn uses up a line, a `repeat` or the end of a
script at the innermost input.  This is a run on a bounded stack (`Foundation.Stack`); the levels are the
inputs, and the work on a level is twice the number of its lines, with one more for a `repeat` that is
pending and one for the end of a script.

The loop reads a script line by line, so that its file may be changed while it is executed.
`Shell.editedTurn` allows for that: before each turn the files may change, those of the open scripts too, as
long as no open script is left with more lines to read than before.
-/

namespace ChordPlusPlus

/-- What is still to be read of a script after its file has changed: any lines, but no more of them. -/
def Script.Edited (old new : Script) : Prop :=
  new.filename = old.filename ∧ new.lines.length ≤ old.lines.length

instance (old new : Script) : Decidable (old.Edited new) :=
  inferInstanceAs (Decidable (_ ∧ _))

namespace Shell

variable {σ : Type*}

/-! ## The stack of inputs -/

/-- The work on each level, the terminal first, without a pending `repeat`. -/
def levels (input : List (List Char)) : List Script → List ℕ
  | [] => [2 * input.length]
  | script :: outer => levels input outer ++ [2 * script.lines.length + 1]

/-- The work on the innermost input. -/
def top (s : Shell σ) : ℕ :=
  match s.scripts with
  | [] => 2 * s.input.length
  | script :: _ => 2 * script.lines.length + 1

/-- The work on the inputs that are suspended. -/
def below (s : Shell σ) : List ℕ :=
  match s.scripts with
  | [] => []
  | _ :: outer => levels s.input outer

/-- The work on all levels, with the pending `repeat`. -/
def work (s : Shell σ) : List ℕ := s.below ++ [s.top + s.isRepeatSet.toNat]

lemma levels_eq (s : Shell σ) : levels s.input s.scripts = s.below ++ [s.top] := by
  unfold below top
  rcases s.scripts with _ | ⟨script, outer⟩ <;> rfl

lemma length_levels (input : List (List Char)) (scripts : List Script) :
    (levels input scripts).length = scripts.length + 1 := by
  induction scripts with
  | nil => rfl
  | cons script outer ih => rw [levels, List.length_append, ih, List.length_singleton, List.length_cons]

lemma length_below (s : Shell σ) : s.below.length = s.scripts.length := by
  have hlength := congrArg List.length s.levels_eq
  rw [length_levels, List.length_append, List.length_singleton] at hlength
  omega

/-! ## Single turns -/

/-- What holds in every state: at most 64 scripts are open, and the remembered text is none or a command
other than `repeat` and `exit`. -/
structure Regular (s : Shell σ) : Prop where
  depth : s.scripts.length ≤ 64
  remembered : s.lastEnteredCommand = [] ∨ s.lastEnteredCommand ≠ "exit".toList ∧
    ∃ cmd args, tokenize s.lastEnteredCommand = cmd :: args ∧ cmd ≠ "repeat".toList

variable {readFile : σ → List Char → Option (List (List Char))} {run : List (List Char) → σ → σ}

/-- A command other than `repeat` leaves the inputs as they are or opens a script. -/
lemma execute_inputs {cmd : List Char} (hcmd : cmd ≠ "repeat".toList) (args : List (List Char))
    (s : Shell σ) :
    let t := execute readFile run (cmd :: args) s
    t.input = s.input ∧ t.isRepeatSet = s.isRepeatSet ∧
      (t.scripts = s.scripts ∧ t.lastEnteredCommand = s.lastEnteredCommand ∨
        ∃ script, t.scripts = script :: s.scripts ∧ t.lastEnteredCommand = [] ∧
          s.scripts.length < 64) := by
  dsimp only
  rw [execute]
  simp only [if_neg hcmd]
  split_ifs with hexecute
  · rcases args with _ | ⟨arg, rest⟩
    · exact ⟨rfl, rfl, Or.inl ⟨rfl, rfl⟩⟩
    · rw [executeScript]
      split_ifs with hdepth
      · exact ⟨rfl, rfl, Or.inl ⟨rfl, rfl⟩⟩
      · rw [openScript]
        rcases readFile s.world (resolvePath s.current arg) with _ | lines
        · exact ⟨rfl, rfl, Or.inl ⟨rfl, rfl⟩⟩
        · exact ⟨rfl, rfl, Or.inr ⟨_, rfl, rfl, Nat.not_le.mp hdepth⟩⟩
  · exact ⟨rfl, rfl, Or.inl ⟨rfl, rfl⟩⟩

/-- The work after a step that leaves the inputs as they are or opens a script. -/
lemma work_of_inputs {s t : Shell σ} (hinput : t.input = s.input)
    (hscripts : t.scripts = s.scripts ∨
      t.isRepeatSet = false ∧ ∃ script, t.scripts = script :: s.scripts) :
    ∃ rest, t.work = s.below ++ (s.top + t.isRepeatSet.toNat) :: rest := by
  rcases hscripts with hsame | ⟨hunset, script, hopened⟩
  · refine ⟨[], ?_⟩
    simp only [work, below, top, hsame, hinput]
  · refine ⟨[t.top], ?_⟩
    have hbelow : t.below = s.below ++ [s.top] := by
      rw [← levels_eq]
      simp only [below, hopened, hinput]
    simp [work, hbelow, hunset]

/-- What entering a line does to the inputs and to the remembered text. -/
lemma enter_spec {line : List Char} {s t : Shell σ} (hs : s.Regular)
    (h : enter readFile run line s = some t) :
    t.Regular ∧ (∃ rest, t.work = s.below ++ (s.top + t.isRepeatSet.toNat) :: rest) ∧
      (∀ cmd args, tokenize line = cmd :: args → cmd ≠ "repeat".toList → t.isRepeatSet = false) := by
  rw [enter] at h
  rcases htokens : tokenize line with _ | ⟨cmd, args⟩
  · rw [htokens] at h
    obtain rfl := Option.some.inj h
    exact ⟨hs, work_of_inputs rfl (Or.inl rfl), by simp⟩
  · rw [htokens] at h
    dsimp only at h
    split_ifs at h with hexit hcmd
    · obtain rfl := Option.some.inj h
      obtain ⟨hinput, hunset, hscripts⟩ := @execute_inputs σ readFile run cmd hcmd args
        { s with lastEnteredCommand := line, isRepeatSet := false }
      refine ⟨?_, work_of_inputs hinput ?_, fun _ _ _ _ => hunset⟩
      · rcases hscripts with ⟨hsame, hlast⟩ | ⟨script, hopened, hlast, hdepth⟩
        · refine ⟨by rw [hsame]; exact hs.depth, Or.inr ?_⟩
          rw [hlast]
          exact ⟨hexit, cmd, args, htokens, hcmd⟩
        · exact ⟨by rw [hopened, List.length_cons]; exact hdepth, Or.inl hlast⟩
      · rcases hscripts with ⟨hsame, -⟩ | ⟨script, hopened, -⟩
        · exact Or.inl hsame
        · exact Or.inr ⟨hunset, script, hopened⟩
    · obtain rfl := Option.some.inj h
      obtain rfl : cmd = "repeat".toList := not_not.mp hcmd
      refine ⟨⟨hs.depth, hs.remembered⟩, work_of_inputs rfl (Or.inl rfl), ?_⟩
      rintro cmd' args' ⟨⟩ hne
      exact absurd rfl hne

/-- Reading a line takes two from the work on the innermost input. -/
lemma getline_spec {s rest : Shell σ} {line : List Char} (h : s.getline = some (line, rest)) :
    rest.below = s.below ∧ rest.top + 2 = s.top ∧ rest.scripts.length = s.scripts.length ∧
      rest.lastEnteredCommand = s.lastEnteredCommand ∧ rest.isRepeatSet = s.isRepeatSet := by
  unfold getline at h
  split at h
  · cases h
  · rename_i filename head lines outer hscripts
    obtain ⟨rfl, rfl⟩ := Prod.mk.inj (Option.some.inj h)
    refine ⟨?_, ?_, ?_, rfl, rfl⟩
    · simp only [below, hscripts]
    · simp only [top, hscripts, List.length_cons]
      omega
    · simp only [hscripts, List.length_cons]
  · rename_i hscripts
    split at h
    · cases h
    · rename_i head lines hinput
      obtain ⟨rfl, rfl⟩ := Prod.mk.inj (Option.some.inj h)
      refine ⟨?_, ?_, rfl, rfl, rfl⟩
      · simp only [below, hscripts]
      · simp only [top, hscripts, hinput, List.length_cons]
        omega

/-- A turn of the loop takes work away at the innermost input. -/
lemma turn_spec {s t : Shell σ} (hs : s.Regular) (h : turn readFile run s = some t) :
    t.Regular ∧ StackLt 65 t.work s.work := by
  have hbound : s.below.length < 65 := by
    rw [length_below]
    exact Nat.lt_succ_of_le hs.depth
  rw [turn] at h
  split_ifs at h with hfirst hrepeat
  · -- `repeat` was the first command
    refine ⟨Option.some.inj h ▸ ⟨hs.depth, hs.remembered⟩, ?_⟩
    have hunset : t.isRepeatSet = false := Option.some.inj h ▸ rfl
    obtain ⟨rest, hwork⟩ := @work_of_inputs σ s t (Option.some.inj h ▸ rfl)
      (Or.inl (Option.some.inj h ▸ rfl))
    rw [hwork, hunset, work, hfirst.1]
    exact StackLt.push (Nat.lt_succ_self s.top) hbound rest
  · -- the remembered command is taken again
    obtain ⟨ht, ⟨rest, hwork⟩, hunset⟩ := enter_spec hs h
    refine ⟨ht, ?_⟩
    rcases hs.remembered with hnone | ⟨-, cmd, args, htokens, hcmd⟩
    · exact absurd ⟨hrepeat, hnone⟩ hfirst
    · rw [hwork, hunset cmd args htokens hcmd, work, hrepeat]
      exact StackLt.push (Nat.lt_succ_self s.top) hbound rest
  · have hunset : s.isRepeatSet = false := Bool.eq_false_iff.mpr hrepeat
    rcases hline : s.getline with _ | ⟨line, read⟩
    · rw [hline] at h
      rcases hscripts : s.scripts with _ | ⟨script, outer⟩
      · simp [hscripts] at h
      · -- the innermost script has come to its end
        rw [hscripts] at h
        obtain rfl := Option.some.inj h
        have hdepth := hs.depth
        rw [hscripts, List.length_cons] at hdepth
        refine ⟨⟨by dsimp only; omega, Or.inr ⟨?_, _, _, tokenize_execute _, by decide⟩⟩, ?_⟩
        · intro heq
          exact absurd (congrArg (List.drop 2) heq) (by simp)
        · have hbelow : s.below = levels s.input outer := by simp only [below, hscripts]
          have hpop := StackLt.pop (Nat.succ_pos (2 * script.lines.length)) hbound
          rw [work, work, hunset, Bool.toNat_false, Nat.add_zero, Nat.add_zero, ← levels_eq]
          simpa [hbelow, top, hscripts] using hpop
    · -- a line has been read
      rw [hline] at h
      obtain ⟨hbelow, htop, hscripts, hlast, hflag⟩ := getline_spec hline
      have hread : read.Regular := ⟨by rw [hscripts]; exact hs.depth, by rw [hlast]; exact hs.remembered⟩
      obtain ⟨ht, ⟨rest, hwork⟩, -⟩ := enter_spec hread h
      refine ⟨ht, ?_⟩
      rw [hwork, hbelow, work, hunset, Bool.toNat_false, Nat.add_zero]
      have hset := Bool.toNat_le t.isRepeatSet
      exact StackLt.push (by omega) hbound rest

/-! ## Files that change -/

variable (readFile run) in
/-- A turn of the loop, after the files have changed: `world` and `scripts` are what the rest of the program
and the open scripts have become. -/
def editedTurn (edit : σ × List Script) (s : Shell σ) : Option (Shell σ) :=
  if List.Forall₂ Script.Edited s.scripts edit.2 then
    turn readFile run { s with world := edit.1, scripts := edit.2 }
  else none

lemma editedTurn_eq_some {edit : σ × List Script} {s t : Shell σ}
    (h : editedTurn readFile run edit s = some t) :
    List.Forall₂ Script.Edited s.scripts edit.2 ∧
      turn readFile run { s with world := edit.1, scripts := edit.2 } = some t := by
  unfold editedTurn at h
  split_ifs at h with hedited
  exact ⟨hedited, h⟩

lemma levels_edited (input : List (List Char)) {old new : List Script}
    (h : List.Forall₂ Script.Edited old new) :
    List.Forall₂ (· ≤ ·) (levels input new) (levels input old) := by
  induction h with
  | nil => exact .cons (Nat.le_refl _) .nil
  | cons hedited _ ih =>
    refine List.rel_append ih (.cons ?_ .nil)
    have hlength := hedited.2
    omega

/-- The work does not grow when the files change. -/
lemma work_edited {s : Shell σ} {scripts : List Script} (h : List.Forall₂ Script.Edited s.scripts scripts)
    (world : σ) :
    List.Forall₂ (· ≤ ·) ({ s with world := world, scripts := scripts } : Shell σ).work s.work := by
  unfold work below top
  generalize s.scripts = old at h
  cases h with
  | nil => exact .cons (Nat.le_refl _) .nil
  | cons hedited houter =>
    refine List.rel_append (levels_edited s.input houter) (.cons ?_ .nil)
    have hlength := hedited.2
    dsimp only
    omega

lemma Regular.edited {s : Shell σ} (hs : s.Regular) {scripts : List Script}
    (h : List.Forall₂ Script.Edited s.scripts scripts) (world : σ) :
    Regular { s with world := world, scripts := scripts } :=
  ⟨h.length_eq ▸ hs.depth, hs.remembered⟩

/-- Such a turn takes work away, too. -/
lemma editedTurn_spec {edit : σ × List Script} {s t : Shell σ} (hs : s.Regular)
    (h : editedTurn readFile run edit s = some t) : t.Regular ∧ StackLt 65 t.work s.work := by
  obtain ⟨hedited, hturn⟩ := editedTurn_eq_some h
  obtain ⟨ht, hlt⟩ := turn_spec (hs.edited hedited edit.1) hturn
  exact ⟨ht, hlt.of_le (work_edited hedited edit.1).getD_le⟩

/-! ## The loop -/

lemma regular_start (world : σ) (input : List (List Char)) (startupScript : Option (List Char)) :
    (start readFile run world input startupScript).Regular := by
  have hempty : Regular (⟨world, [], false, input, [], []⟩ : Shell σ) := ⟨Nat.zero_le 64, Or.inl rfl⟩
  unfold start
  rcases startupScript with _ | path
  · exact hempty
  · dsimp only
    split_ifs
    · exact hempty
    · obtain ⟨-, -, hsame | ⟨script, hopened, hlast, -⟩⟩ := @execute_inputs σ readFile run
        "execute".toList (by decide) [path] ⟨world, [], false, input, [], []⟩
      · exact ⟨by rw [hsame.1]; exact Nat.zero_le 64, Or.inl hsame.2⟩
      · exact ⟨by rw [hopened, List.length_singleton]; decide, Or.inl hlast⟩

/-- A turn that ends the loop reads `exit`, or there is nothing left to be read. -/
lemma turn_eq_none {s : Shell σ} (hs : s.Regular) (h : turn readFile run s = none) :
    s.scripts = [] ∧ s.input = [] ∨
      ∃ line rest, s.getline = some (line, rest) ∧ stripComments false line = "exit".toList := by
  have henter : ∀ {line : List Char} {u : Shell σ}, enter readFile run line u = none →
      line = "exit".toList := by
    intro line u hnone
    rw [enter] at hnone
    split at hnone
    · exact absurd hnone (Option.some_ne_none _)
    · exact not_not.mp fun hne => absurd hnone (by rw [if_neg hne]; exact Option.some_ne_none _)
  rw [turn] at h
  split_ifs at h with hfirst hrepeat
  · rcases hs.remembered with hnone | ⟨hexit, -⟩
    · exact absurd ⟨hrepeat, hnone⟩ hfirst
    · exact absurd (henter h) hexit
  · rcases hline : s.getline with _ | ⟨line, rest⟩
    · rw [hline] at h
      rcases hscripts : s.scripts with _ | ⟨script, outer⟩
      · refine Or.inl ⟨rfl, ?_⟩
        rcases hinput : s.input with _ | ⟨line, rest⟩
        · rfl
        · simp [getline, hscripts, hinput] at hline
      · simp [hscripts] at h
    · rw [hline] at h
      exact Or.inr ⟨line, rest, rfl, henter h⟩

/-- **The main loop ends.**  Whatever the commands do, and however the files change meanwhile, if an open
script is never left with more lines to read than before, the loop does not go on for ever; and where it
stops, all scripts and the input have been read, or the line `exit`. -/
theorem mainLoop_ends (readFile : σ → List Char → Option (List (List Char)))
    (run : List (List Char) → σ → σ) (world : σ) (input : List (List Char))
    (startupScript : Option (List Char)) :
    (∀ shells edits, ¬ Run.Endless (editedTurn readFile run)
      (start readFile run world input startupScript) shells edits) ∧
    ∀ s world' scripts,
      Run.Reachable (editedTurn readFile run) (start readFile run world input startupScript) s →
      List.Forall₂ Script.Edited s.scripts scripts →
      turn readFile run { s with world := world', scripts := scripts } = none →
      scripts = [] ∧ s.input = [] ∨
        ∃ line rest, getline { s with world := world', scripts := scripts } = some (line, rest) ∧
          stripComments false line = "exit".toList := by
  have hstep : ∀ (edit : σ × List Script) s t, Regular s → editedTurn readFile run edit s = some t →
      Regular t ∧ InvImage (StackLt 65) work t s := fun _ s t => editedTurn_spec
  have hstart := @regular_start σ readFile run world input startupScript
  constructor
  · exact Run.not_endless (InvImage.wf work (StackLt.wellFounded 65)) hstep hstart
  · intro s world' scripts hreach hedited hturn
    have hs : Regular s := hreach.invariant (fun edit s t hs h => (hstep edit s t hs h).1) hstart
    exact turn_eq_none (hs.edited hedited world') hturn

/-- The script `a` executes itself and then repeats this, and while it does, the lines that are left of it
may be exchanged for others. -/
theorem mainLoop_ends_recursive : ∀ shells edits,
    ¬ Run.Endless (editedTurn (fun _ _ => some ["execute a".toList, "repeat".toList]) fun _ w => w)
      (start (fun _ _ => some ["execute a".toList, "repeat".toList]) (fun _ w => w) () [] (some ['a']))
      shells edits :=
  (mainLoop_ends _ _ () [] (some ['a'])).1

end Shell

end ChordPlusPlus
