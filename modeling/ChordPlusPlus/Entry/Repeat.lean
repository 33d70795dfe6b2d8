import ChordPlusPlus.Entry.MainLoop
import ChordPlusPlus.Foundation.Run

/-!
# The command `repeat`

A history adds to the state of the shell, for every input on the stack, the last command other than
`repeat` that has been executed in it.  `repeat` should have the effect of entering the last command of
the current input again.

The shell remembers a text.  As long as no script has come to its end, it is the last command; after
that it is an `execute` of the file name, which has already been resolved and is cut into tokens and
resolved once more.  So `repeat` does what it should in every state of a run exactly if at the end of
every script this leads back to the same file name (`repeatsLast_iff`).  For a name that is one token
this is the case at the terminal, in a script without a directory in its name, and for absolute names
(`reopens_iff_of_token`).
-/

namespace ChordPlusPlus

namespace Shell

variable {σ : Type*}

/-- The shell, and for each input, innermost first, the last command other than `repeat`. -/
structure History (σ : Type*) where
  shell : Shell σ
  commands : List (Option (List (List Char)))

/-- Cut into tokens and resolved in the current script, the name of a file stands for this file. -/
def Reopens (current : Option (List Char)) (name : List Char) : Prop :=
  (tokenize name).head?.map (resolvePath current) = some name

/-- If the next turn is the end of a script, its name will be found again by `repeat`. -/
def EndsReopenable (s : Shell σ) : Prop :=
  s.isRepeatSet = false → ∀ script outer, s.scripts = script :: outer → script.lines = [] →
    Reopens (outer.head?.map Script.filename) script.filename

/-- The states are equal, up to the text that is remembered for `repeat`. -/
structure SameEffect (s t : Shell σ) : Prop where
  world : s.world = t.world
  isRepeatSet : s.isRepeatSet = t.isRepeatSet
  input : s.input = t.input
  scripts : s.scripts = t.scripts
  messages : s.messages = t.messages

lemma SameEffect.refl (s : Shell σ) : SameEffect s s := ⟨rfl, rfl, rfl, rfl, rfl⟩

/-- The command other than `repeat` that the next turn reads, if it does. -/
def entered (s : Shell σ) : Option (List (List Char)) :=
  if s.isRepeatSet then none
  else
    match s.getline with
    | none => none
    | some (line, _) =>
        match tokenize (stripComments false line) with
        | [] => none
        | cmd :: args => if cmd = "repeat".toList then none else some (cmd :: args)

/-- The last commands, with the one that the next turn reads. -/
def History.noted (h : History σ) : List (Option (List (List Char))) :=
  match h.shell.entered with
  | some tokens => some tokens :: h.commands.tail
  | none => h.commands

section Runs

variable (readFile : σ → List Char → Option (List (List Char))) (run : List (List Char) → σ → σ)

/-- A turn of the loop: the command entered is the last one of its input; a script that is opened is a
new input, and a script that ends is taken away. -/
def History.step (h : History σ) : Option (History σ) :=
  (turn readFile run h.shell).map fun s =>
    if h.shell.scripts.length < s.scripts.length then ⟨s, none :: h.noted⟩
    else if s.scripts.length < h.shell.scripts.length then ⟨s, h.noted.tail⟩
    else ⟨s, h.noted⟩

/-- The start of the loop.  A startup script is started by an `execute` command. -/
def History.start (world : σ) (input : List (List Char)) (startupScript : Option (List Char)) :
    History σ :=
  let s := Shell.start readFile run world input startupScript
  if s.scripts = [] then ⟨s, [none]⟩
  else ⟨s, [none, startupScript.map fun path => ["execute".toList, path]]⟩

/-- The states of a run. -/
def History.Reached (world : σ) (input : List (List Char)) (startupScript : Option (List Char))
    (h : History σ) : Prop :=
  Run.Reachable (fun _ : Unit => History.step readFile run)
    (History.start readFile run world input startupScript) h

/-- Entering `repeat` has the effect of the last command of the current input. -/
def RepeatsLast (h : History σ) : Prop :=
  h.shell.isRepeatSet = false → ∀ tokens line, h.commands.head? = some (some tokens) →
    (tokenize line).head? = some "repeat".toList →
    ∃ s, (enter readFile run line h.shell).bind (turn readFile run) = some s ∧
      SameEffect s (execute readFile run tokens h.shell)

end Runs

/-! ## Names -/

/-- A file name is not changed by resolving it exactly if there is no directory to put in front of
it. -/
lemma joinPath_eq_right_iff {directory path : List Char} :
    joinPath directory path = path ↔ path.head? = some '/' ∨ directory = [] := by
  unfold joinPath
  by_cases habsolute : path.head? = some '/'
  · simp [habsolute]
  · rw [if_neg habsolute]
    split_ifs with hdirectory
    · simp [habsolute]
    · have hne : directory ≠ [] := fun h => hdirectory (Or.inl h)
      have hlonger : directory ++ '/' :: path ≠ path := by
        intro heq
        have hlength := congrArg List.length heq
        rw [List.length_append, List.length_cons] at hlength
        omega
      simp [habsolute, hne, hlonger]

/-- When the name of a script that is one token is found again. -/
lemma reopens_iff_of_token {current : Option (List Char)} {name : List Char}
    (h : tokenize name = [name]) : Reopens current name ↔
      ∀ lastFile, current = some lastFile → name.head? = some '/' ∨ parentPath lastFile = [] := by
  rw [Reopens, h, List.head?_cons, Option.map_some, Option.some_inj]
  cases current with
  | none => simp [resolvePath]
  | some lastFile =>
    rw [resolvePath, joinPath_eq_right_iff]
    simp

/-! ## Turns -/

section Turns

variable {readFile : σ → List Char → Option (List (List Char))} {run : List (List Char) → σ → σ}

/-- The names of the open scripts. -/
def names (s : Shell σ) : List (List Char) := s.scripts.map Script.filename

lemma current_eq (s : Shell σ) : s.current = s.names.head? := by
  rw [current, names, List.head?_map]

/-- A command has opened a script inside the scripts with the given names. -/
structure Opened (tokens outer : List (List Char)) (t : Shell σ) : Prop where
  command : ∃ arg rest, tokens = "execute".toList :: arg :: rest ∧
    t.names = resolvePath outer.head? arg :: outer
  depth : outer.length < 64
  remembered : t.lastEnteredCommand = []

/-- What a command other than `repeat` can do to the scripts: it opens one, or it leaves them as they
are. -/
lemma execute_cases {cmd : List Char} (hcmd : cmd ≠ "repeat".toList) (args : List (List Char))
    (s : Shell σ) :
    Opened (cmd :: args) s.names (execute readFile run (cmd :: args) s) ∨
      (execute readFile run (cmd :: args) s).names = s.names ∧
        (execute readFile run (cmd :: args) s).lastEnteredCommand = s.lastEnteredCommand := by
  rw [execute]
  simp only [if_neg hcmd]
  split_ifs with hexecute
  · subst hexecute
    cases args with
    | nil => exact Or.inr ⟨rfl, rfl⟩
    | cons arg rest =>
      rw [executeScript]
      split_ifs with hdepth
      · exact Or.inr ⟨rfl, rfl⟩
      · rw [openScript]
        rcases readFile s.world (resolvePath s.current arg) with _ | lines
        · exact Or.inr ⟨rfl, rfl⟩
        · refine Or.inl ⟨⟨arg, rest, rfl, ?_⟩, ?_, rfl⟩
          · rw [← current_eq]
            rfl
          · rw [names, List.length_map]
            exact Nat.not_le.mp hdepth
  · exact Or.inr ⟨rfl, rfl⟩

/-- What entering a line can do. -/
lemma enter_cases {line : List Char} {s t : Shell σ} (h : enter readFile run line s = some t) :
    tokenize line = [] ∧ t = s ∨
    (tokenize line).head? = some "repeat".toList ∧ t = { s with isRepeatSet := true } ∨
    ∃ cmd args, tokenize line = cmd :: args ∧ cmd ≠ "repeat".toList ∧ line ≠ "exit".toList ∧
      (Opened (cmd :: args) s.names t ∨ t.names = s.names ∧ t.lastEnteredCommand = line) := by
  rw [enter] at h
  rcases htokens : tokenize line with _ | ⟨cmd, args⟩
  · rw [htokens] at h
    exact Or.inl ⟨rfl, (Option.some.inj h).symm⟩
  · rw [htokens] at h
    dsimp only at h
    split_ifs at h with hexit hcmd
    · refine Or.inr (Or.inr ⟨cmd, args, rfl, hcmd, hexit, ?_⟩)
      rw [← Option.some.inj h]
      exact execute_cases hcmd args
        ({ s with lastEnteredCommand := line, isRepeatSet := false } : Shell σ)
    · obtain rfl : cmd = "repeat".toList := not_not.mp hcmd
      exact Or.inr (Or.inl ⟨rfl, (Option.some.inj h).symm⟩)

/-- Reading a line changes neither the names of the scripts nor the remembered command. -/
lemma names_of_getline {s rest : Shell σ} {line : List Char} (h : s.getline = some (line, rest)) :
    rest.names = s.names ∧ rest.lastEnteredCommand = s.lastEnteredCommand := by
  rw [getline] at h
  rcases hscripts : s.scripts with _ | ⟨⟨filename, _ | ⟨first, lines⟩⟩, outer⟩
  · rw [hscripts] at h
    rcases hinput : s.input with _ | ⟨first, lines⟩
    · rw [hinput] at h
      cases h
    · rw [hinput] at h
      obtain ⟨-, rfl⟩ := Prod.mk.inj (Option.some.inj h)
      exact ⟨by rw [names, names, hscripts], rfl⟩
  · rw [hscripts] at h
    cases h
  · rw [hscripts] at h
    obtain ⟨-, rfl⟩ := Prod.mk.inj (Option.some.inj h)
    exact ⟨by rw [names, names, hscripts]; rfl, rfl⟩

/-- What a turn can do: reset a `repeat` that comes first, execute the remembered command, enter a line
that has been read, or end a script. -/
lemma turn_cases {s t : Shell σ} (h : turn readFile run s = some t) :
    (s.lastEnteredCommand = [] ∧ t.names = s.names ∧ t.lastEnteredCommand = [] ∧
      s.entered = none) ∨
    (s.isRepeatSet = true ∧ s.lastEnteredCommand ≠ [] ∧ s.entered = none ∧
      enter readFile run s.lastEnteredCommand s = some t) ∨
    (∃ line rest, s.isRepeatSet = false ∧ s.getline = some (line, rest) ∧ rest.names = s.names ∧
      rest.lastEnteredCommand = s.lastEnteredCommand ∧
      enter readFile run (stripComments false line) rest = some t) ∨
    ∃ script outer, s.isRepeatSet = false ∧ s.scripts = script :: outer ∧ script.lines = [] ∧
      s.entered = none ∧
      t = { s with
        lastEnteredCommand := "execute ".toList ++ script.filename
        scripts := outer } := by
  rw [turn] at h
  split_ifs at h with hfirst hrepeat
  · refine Or.inl ⟨hfirst.2, ?_⟩
    rw [← Option.some.inj h]
    exact ⟨rfl, hfirst.2, by rw [entered, if_pos hfirst.1]⟩
  · refine Or.inr (Or.inl ⟨hrepeat, fun hempty => hfirst ⟨hrepeat, hempty⟩, ?_, h⟩)
    rw [entered, if_pos hrepeat]
  · have hunset : s.isRepeatSet = false := Bool.not_eq_true _ ▸ hrepeat
    rcases hline : s.getline with _ | ⟨line, rest⟩
    · rw [hline] at h
      rcases hscripts : s.scripts with _ | ⟨script, outer⟩
      · rw [hscripts] at h
        cases h
      · rw [hscripts] at h
        refine Or.inr (Or.inr (Or.inr ⟨script, outer, hunset, rfl, ?_, ?_,
          (Option.some.inj h).symm⟩))
        · obtain ⟨filename, lines⟩ := script
          cases lines with
          | nil => rfl
          | cons line lines =>
            rw [getline, hscripts] at hline
            cases hline
        · rw [entered, hunset, hline]
          rfl
    · rw [hline] at h
      obtain ⟨hnames, hlast⟩ := names_of_getline hline
      exact Or.inr (Or.inr (Or.inl ⟨line, rest, hunset, rfl, hnames, hlast, h⟩))

end Turns

/-! ## What the shell remembers -/

/-- Each suspended input has started the script that is read before it goes on. -/
def Suspended : List (List Char) → List (Option (List (List Char))) → Prop
  | [], [] => True
  | name :: outer, command :: commands =>
      (∃ arg rest, command = some ("execute".toList :: arg :: rest) ∧
        name = resolvePath outer.head? arg) ∧ Suspended outer commands
  | _, _ => False

/-- The text that is remembered belongs to a script that has come to its end, and that was started by
the command. -/
def FinishedScript (names : List (List Char)) (last : List Char) (tokens : List (List Char)) : Prop :=
  names.length < 64 ∧ ∃ arg rest, tokens = "execute".toList :: arg :: rest ∧
    last = "execute ".toList ++ resolvePath names.head? arg ∧
    Reopens names.head? (resolvePath names.head? arg)

/-- The text that is remembered stands for the last command of the current input. -/
def Remembered (names : List (List Char)) (last : List Char) : Option (List (List Char)) → Prop
  | none => last = []
  | some tokens =>
      (tokenize last = tokens ∧ ∃ cmd args, tokens = cmd :: args ∧ cmd ≠ "repeat".toList) ∨
        FinishedScript names last tokens

/-- The invariant of the loop. -/
structure Consistent (h : History σ) : Prop where
  depth : h.shell.names.length ≤ 64
  not_exit : h.shell.lastEnteredCommand ≠ "exit".toList
  commands : ∃ command outer, h.commands = command :: outer ∧
    Suspended h.shell.names outer ∧
    Remembered h.shell.names h.shell.lastEnteredCommand command

lemma Opened.length_lt {tokens names : List (List Char)} {t : Shell σ}
    (h : Opened tokens names t) : names.length < t.names.length := by
  obtain ⟨arg, rest, -, hnames⟩ := h.command
  rw [hnames, List.length_cons]
  exact Nat.lt_succ_self _

/-- A script that is opened by the last command of its input. -/
lemma consistent_of_opened {tokens names : List (List Char)} {t : Shell σ}
    {outer : List (Option (List (List Char)))} (hopened : Opened tokens names t)
    {arg : List Char} {rest tokens' : List (List Char)}
    (htokens : tokens' = "execute".toList :: arg :: rest)
    (hname : t.names.head? = some (resolvePath names.head? arg)) (houter : Suspended names outer) :
    Consistent ⟨t, none :: some tokens' :: outer⟩ := by
  obtain ⟨⟨arg', rest', -, hnames⟩, hdepth, hlast⟩ := hopened
  have hsame : resolvePath names.head? arg' = resolvePath names.head? arg := by
    rw [hnames, List.head?_cons] at hname
    exact Option.some.inj hname
  refine ⟨?_, ?_, none, some tokens' :: outer, rfl, ?_, hlast⟩
  · change t.names.length ≤ 64
    rw [hnames, List.length_cons]
    omega
  · change t.lastEnteredCommand ≠ _
    rw [hlast]
    decide
  · change Suspended t.names _
    rw [hnames]
    exact ⟨⟨arg, rest, by rw [htokens], hsame⟩, houter⟩

/-- The remembered command is one other than `repeat`; if it opens a script, this is the script of the
last command of the input. -/
lemma Remembered.tokens {names : List (List Char)} {last : List Char}
    {command : Option (List (List Char))} (h : Remembered names last command) (hne : last ≠ []) :
    ∃ tokens cmd args, command = some tokens ∧ tokenize last = cmd :: args ∧
      cmd ≠ "repeat".toList ∧ ∀ t : Shell σ, Opened (cmd :: args) names t →
        ∃ arg rest, tokens = "execute".toList :: arg :: rest ∧
          t.names.head? = some (resolvePath names.head? arg) := by
  rcases command with _ | tokens
  · exact absurd h hne
  rcases h with ⟨htokens, cmd, args, rfl, hcmd⟩ | ⟨-, arg, rest, rfl, rfl, hreopens⟩
  · refine ⟨_, cmd, args, rfl, htokens, hcmd, ?_⟩
    rintro t ⟨⟨arg, rest, hexecute, hnames⟩, -, -⟩
    exact ⟨arg, rest, hexecute, by rw [hnames]; rfl⟩
  · refine ⟨_, _, _, rfl, tokenize_execute _, by decide, ?_⟩
    -- The script opened is the one that the name of the finished script stands for.
    rintro t ⟨⟨arg', rest', hexecute, hnames⟩, -, -⟩
    refine ⟨arg, rest, rfl, ?_⟩
    rw [hnames, List.head?_cons]
    rw [Reopens, (List.cons.inj hexecute).2] at hreopens
    exact hreopens

lemma History.noted_of_none {h : History σ} (hentered : h.shell.entered = none) :
    h.noted = h.commands := by
  rw [noted, hentered]

section Preserved

variable {readFile : σ → List Char → Option (List (List Char))} {run : List (List Char) → σ → σ}

/-- The commands of a history after a turn, by the depth of the scripts. -/
lemma step_cases {h h' : History σ} (hstep : History.step readFile run h = some h') :
    turn readFile run h.shell = some h'.shell ∧
      (h.shell.names.length < h'.shell.names.length → h'.commands = none :: h.noted) ∧
      (h'.shell.names.length < h.shell.names.length → h'.commands = h.noted.tail) ∧
      (h'.shell.names.length = h.shell.names.length → h'.commands = h.noted) := by
  obtain ⟨s, hs, hnext⟩ := Option.map_eq_some_iff.mp hstep
  have hlength : ∀ s : Shell σ, s.names.length = s.scripts.length := fun s => List.length_map _
  simp only [hlength]
  split_ifs at hnext with hlonger hshorter
  · subst hnext
    refine ⟨hs, fun _ => rfl, fun hlt => ?_, fun heq => ?_⟩
    · exact absurd hlonger (Nat.lt_asymm hlt)
    · exact absurd heq.symm (Nat.ne_of_lt hlonger)
  · subst hnext
    refine ⟨hs, fun hlt => absurd hlt hlonger, fun _ => rfl, fun heq => ?_⟩
    exact absurd heq (Nat.ne_of_lt hshorter)
  · subst hnext
    exact ⟨hs, fun hlt => absurd hlt hlonger, fun hlt => absurd hlt hshorter, fun _ => rfl⟩

/-- A turn that changes neither the scripts nor what is remembered. -/
lemma Consistent.of_same {h h' : History σ} (hc : Consistent h)
    (hnames : h'.shell.names = h.shell.names)
    (hlast : h'.shell.lastEnteredCommand = h.shell.lastEnteredCommand)
    (hcommands : h'.commands = h.commands) : Consistent h' := by
  obtain ⟨hdepth, hexit, hremembers⟩ := hc
  refine ⟨?_, ?_, ?_⟩
  · rw [hnames]
    exact hdepth
  · rw [hlast]
    exact hexit
  · rw [hnames, hlast, hcommands]
    exact hremembers

/-- A turn that executes the remembered command. -/
lemma Consistent.repeat {h h' : History σ} (hc : Consistent h)
    (hne : h.shell.lastEnteredCommand ≠ []) (hentered : h.shell.entered = none)
    (henter : enter readFile run h.shell.lastEnteredCommand h.shell = some h'.shell)
    (hstep : History.step readFile run h = some h') : Consistent h' := by
  obtain ⟨-, hlonger, -, hequal⟩ := step_cases hstep
  have hnoted := History.noted_of_none hentered
  obtain ⟨command, outer, hcommands, hsuspended, hremembered⟩ := hc.commands
  obtain ⟨tokens, cmd, args, rfl, htokens, hcmd, hopens⟩ := hremembered.tokens (σ := σ) hne
  rcases enter_cases henter with ⟨hnil, -⟩ | ⟨hrepeat, -⟩ | ⟨cmd', args', htokens', -, -, hdone⟩
  · rw [htokens] at hnil
    cases hnil
  · rw [htokens, List.head?_cons] at hrepeat
    exact absurd (Option.some.inj hrepeat) hcmd
  · rw [htokens] at htokens'
    obtain ⟨rfl, rfl⟩ := List.cons.inj htokens'
    rcases hdone with hopened | ⟨hnames, hlast⟩
    · obtain ⟨arg, rest, hexecute, hname⟩ := hopens h'.shell hopened
      have hopenedNow := consistent_of_opened hopened hexecute hname hsuspended
      rw [← hcommands, ← hnoted, ← hlonger hopened.length_lt] at hopenedNow
      exact hopenedNow
    · exact hc.of_same hnames hlast ((hequal (by rw [hnames])).trans hnoted)

/-- A turn that enters a line. -/
lemma Consistent.enter {h h' : History σ} {line : List Char} {rest : Shell σ} (hc : Consistent h)
    (hunset : h.shell.isRepeatSet = false) (hline : h.shell.getline = some (line, rest))
    (henter : Shell.enter readFile run (stripComments false line) rest = some h'.shell)
    (hstep : History.step readFile run h = some h') : Consistent h' := by
  obtain ⟨-, hlonger, -, hequal⟩ := step_cases hstep
  obtain ⟨hnames, hlast⟩ := names_of_getline hline
  have hentered : h.shell.entered = match tokenize (stripComments false line) with
      | [] => none
      | cmd :: args => if cmd = "repeat".toList then none else some (cmd :: args) := by
    rw [entered, hunset, hline]
    rfl
  rcases enter_cases henter with ⟨hnil, hsame⟩ | ⟨hrepeat, hsame⟩ |
    ⟨cmd, args, htokens, hcmd, hexit, hdone⟩
  · rw [hnil] at hentered
    rw [hsame] at hequal
    refine hc.of_same (by rw [hsame, hnames]) (by rw [hsame, hlast]) ?_
    rw [hequal (by rw [hnames]), History.noted_of_none hentered]
  · obtain ⟨args, htokens⟩ := List.head?_eq_some_iff.mp hrepeat
    rw [htokens] at hentered
    have hnone : h.shell.entered = none := hentered.trans (if_pos rfl)
    have hsameNames : h'.shell.names = h.shell.names := by
      rw [hsame, ← hnames]
      rfl
    refine hc.of_same hsameNames (by rw [hsame, ← hlast]) ?_
    rw [hequal (by rw [hsameNames]), History.noted_of_none hnone]
  · obtain ⟨command, outer, hcommands, hsuspended, -⟩ := hc.commands
    rw [htokens] at hentered
    have hnoted : h.noted = some (cmd :: args) :: outer := by
      rw [History.noted, hentered.trans (if_neg hcmd), hcommands]
      rfl
    rw [hnames] at hdone
    rcases hdone with hopened | ⟨hnames', hlast'⟩
    · obtain ⟨arg, rest, hexecute, hscript⟩ := hopened.command
      have hopenedNow := consistent_of_opened hopened hexecute (by rw [hscript]; rfl) hsuspended
      rw [← hnoted, ← hlonger hopened.length_lt] at hopenedNow
      exact hopenedNow
    · refine ⟨?_, ?_, some (cmd :: args), outer, ?_, ?_, ?_⟩
      · rw [hnames']
        exact hc.depth
      · rw [hlast']
        exact hexit
      · rw [hequal (by rw [hnames']), hnoted]
      · rw [hnames']
        exact hsuspended
      · rw [hlast']
        exact Or.inl ⟨htokens, cmd, args, rfl, hcmd⟩

/-- The end of a script: the input below goes on, and its last command is the one that has started the
script. -/
lemma Consistent.ended {h h' : History σ} {script : Script} {outer : List Script}
    (hc : Consistent h) (hscripts : h.shell.scripts = script :: outer)
    (hentered : h.shell.entered = none)
    (hnext : h'.shell = { h.shell with
      lastEnteredCommand := "execute ".toList ++ script.filename, scripts := outer })
    (hstep : History.step readFile run h = some h') :
    h'.shell.names.length < 64 ∧ ∃ arg rest commands,
      script.filename = resolvePath h'.shell.names.head? arg ∧
      h'.commands = some ("execute".toList :: arg :: rest) :: commands ∧
      Suspended h'.shell.names commands := by
  obtain ⟨-, -, hshorter, -⟩ := step_cases hstep
  have hnames : h.shell.names = script.filename :: h'.shell.names := by
    rw [names, hscripts, hnext]
    rfl
  have hlength : h'.shell.names.length < h.shell.names.length := by
    rw [hnames, List.length_cons]
    exact Nat.lt_succ_self _
  obtain ⟨command, suspended, hcommands, hsuspended, -⟩ := hc.commands
  rw [hnames] at hsuspended
  rcases suspended with _ | ⟨starting, commands⟩
  · exact hsuspended.elim
  obtain ⟨⟨arg, rest, rfl, hname⟩, hrest⟩ := hsuspended
  refine ⟨lt_of_lt_of_le hlength hc.depth, arg, rest, commands, hname, ?_, hrest⟩
  rw [hshorter hlength, History.noted_of_none hentered, hcommands]
  rfl

/-! ## What `repeat` does -/

/-- A `repeat` executes the tokens of the text that is remembered. -/
lemma repeated_eq {s : Shell σ} {line cmd : List Char} {args : List (List Char)}
    (hunset : s.isRepeatSet = false) (hline : (tokenize line).head? = some "repeat".toList)
    (htokens : tokenize s.lastEnteredCommand = cmd :: args) (hcmd : cmd ≠ "repeat".toList)
    (hexit : s.lastEnteredCommand ≠ "exit".toList) :
    (enter readFile run line s).bind (turn readFile run) =
      some (execute readFile run (cmd :: args) s) := by
  have hlineExit : line ≠ "exit".toList := by
    rintro rfl
    revert hline
    decide
  have hne : s.lastEnteredCommand ≠ [] := by
    intro hempty
    rw [hempty] at htokens
    cases htokens
  obtain ⟨lineArgs, hlineTokens⟩ := List.head?_eq_some_iff.mp hline
  have hset : enter readFile run line s = some { s with isRepeatSet := true } := by
    rw [enter, hlineTokens]
    dsimp only
    rw [if_neg hlineExit, if_neg (not_not.mpr rfl)]
    rfl
  rw [hset, Option.bind_some, turn, if_neg (fun h => hne h.2), if_pos rfl, enter, htokens]
  dsimp only
  rw [if_neg hexit, if_pos hcmd, ← hunset]

lemma openScript_of_none {s : Shell σ} {path : List Char} (h : readFile s.world path = none) :
    openScript readFile path s = s.print ("Could not open ".toList ++ path) := by
  rw [openScript, h]

lemma scripts_openScript {s : Shell σ} {path : List Char} {lines : List (List Char)}
    (h : readFile s.world path = some lines) :
    (openScript readFile path s).scripts = ⟨path, lines⟩ :: s.scripts := by
  rw [openScript, h]

/-- Opening two files has the same effect only if it is the same file: the names are on the stack, or
in the error messages. -/
lemma eq_of_sameEffect_openScript {s : Shell σ} {path path' : List Char}
    (h : SameEffect (openScript readFile path s) (openScript readFile path' s)) : path = path' := by
  have hscripts := h.scripts
  have hmessages := h.messages
  rcases hfile : readFile s.world path with _ | lines <;>
    rcases hfile' : readFile s.world path' with _ | lines'
  · rw [openScript_of_none hfile, openScript_of_none hfile'] at hmessages
    have hlast := List.singleton_inj.mp (List.append_cancel_left hmessages)
    exact List.append_cancel_left hlast
  · rw [openScript_of_none hfile, scripts_openScript hfile'] at hscripts
    exact absurd hscripts (List.cons_ne_self _ _).symm
  · rw [scripts_openScript hfile, openScript_of_none hfile'] at hscripts
    exact absurd hscripts (List.cons_ne_self _ _)
  · rw [scripts_openScript hfile, scripts_openScript hfile'] at hscripts
    exact congrArg Script.filename (List.cons.inj hscripts).1

/-- Without an argument, nothing is opened, and the message is another one. -/
lemma not_sameEffect_print {s : Shell σ} {path : List Char} :
    ¬ SameEffect (s.print "PATH required!".toList) (openScript readFile path s) := by
  intro h
  rcases hfile : readFile s.world path with _ | lines
  · have hmessages := h.messages
    rw [openScript_of_none hfile] at hmessages
    have hlast := List.singleton_inj.mp (List.append_cancel_left hmessages)
    exact absurd (List.cons.inj hlast).1 (by decide)
  · have hscripts := h.scripts
    rw [scripts_openScript hfile] at hscripts
    exact absurd hscripts (List.cons_ne_self _ _).symm

/-- Two `execute` commands have the same effect exactly if they open the same file. -/
lemma sameEffect_executeScript_iff {s : Shell σ} (hdepth : s.scripts.length < 64)
    (args : List (List Char)) (arg : List Char) (rest : List (List Char)) :
    SameEffect (executeScript readFile args s) (executeScript readFile (arg :: rest) s) ↔
      args.head?.map (resolvePath s.current) = some (resolvePath s.current arg) := by
  have hopens : ∀ arg rest, executeScript readFile (arg :: rest) s =
      openScript readFile (resolvePath s.current arg) s := by
    intro arg rest
    rw [executeScript, if_neg (Nat.not_le.mpr hdepth)]
  rw [hopens]
  cases args with
  | nil =>
    refine iff_of_false not_sameEffect_print ?_
    rintro ⟨⟩
  | cons arg' rest' =>
    rw [hopens, List.head?_cons, Option.map_some, Option.some_inj]
    constructor
    · exact eq_of_sameEffect_openScript
    · intro hpath
      rw [hpath]
      exact SameEffect.refl _

/-- In a consistent history, `repeat` does what it should. -/
lemma Consistent.repeatsLast {h : History σ} (hc : Consistent h) : RepeatsLast readFile run h := by
  intro hunset tokens line hcommand hline
  obtain ⟨command, outer, hcommands, -, hremembered⟩ := hc.commands
  obtain rfl : command = some tokens := by
    rw [hcommands, List.head?_cons] at hcommand
    exact Option.some.inj hcommand
  rcases hremembered with ⟨htokens, cmd, args, rfl, hcmd⟩ | ⟨hdepth, arg, rest, rfl, hlast, hreopens⟩
  · exact ⟨_, repeated_eq hunset hline htokens hcmd hc.not_exit, SameEffect.refl _⟩
  · refine ⟨_, repeated_eq hunset hline (by rw [hlast]; exact tokenize_execute _) (by decide)
      hc.not_exit, ?_⟩
    rw [names, List.length_map] at hdepth
    refine (sameEffect_executeScript_iff hdepth _ arg rest).mpr ?_
    rw [current_eq]
    exact hreopens

/-- After the end of a script, `repeat` does what it should only if the script is found again. -/
lemma reopens_of_repeatsLast {h : History σ} {name arg : List Char} {rest : List (List Char)}
    {commands : List (Option (List (List Char)))} (hunset : h.shell.isRepeatSet = false)
    (hdepth : h.shell.names.length < 64)
    (hlast : h.shell.lastEnteredCommand = "execute ".toList ++ name)
    (hname : name = resolvePath h.shell.names.head? arg)
    (hcommands : h.commands = some ("execute".toList :: arg :: rest) :: commands)
    (hrepeats : RepeatsLast readFile run h) : Reopens h.shell.names.head? name := by
  have hline : (tokenize "repeat".toList).head? = some "repeat".toList := by decide
  obtain ⟨s, hs, hsame⟩ := hrepeats hunset _ _ (by rw [hcommands]; rfl) hline
  have htokens : tokenize h.shell.lastEnteredCommand = "execute".toList :: tokenize name := by
    rw [hlast, tokenize_execute]
  have hexit : h.shell.lastEnteredCommand ≠ "exit".toList := by
    rw [hlast]
    rintro ⟨⟩
  rw [repeated_eq hunset hline htokens (by decide) hexit] at hs
  obtain rfl := Option.some.inj hs
  rw [names, List.length_map] at hdepth
  have hopens := (sameEffect_executeScript_iff hdepth (tokenize name) arg rest).mp hsame
  rw [current_eq, ← hname] at hopens
  exact hopens

/-! ## Runs -/

/-- A turn keeps the invariant, if a script that ends is found again or `repeat` does what it should
afterwards. -/
lemma Consistent.step {h h' : History σ} (hc : Consistent h)
    (hstep : History.step readFile run h = some h')
    (hgood : EndsReopenable h.shell ∨ RepeatsLast readFile run h') : Consistent h' := by
  obtain ⟨hturn, -, -, hequal⟩ := step_cases hstep
  rcases turn_cases hturn with ⟨hempty, hnames, hlast, hentered⟩ | ⟨-, hne, hentered, henter⟩ |
    ⟨line, rest, hunset, hline, -, -, henter⟩ |
    ⟨script, outer, hunset, hscripts, hlines, hentered, hnext⟩
  · refine hc.of_same hnames (hlast.trans hempty.symm) ?_
    rw [hequal (by rw [hnames]), History.noted_of_none hentered]
  · exact hc.repeat hne hentered henter hstep
  · exact hc.enter hunset hline henter hstep
  · obtain ⟨hdepth, arg, rest, commands, hname, hcommands, hsuspended⟩ :=
      hc.ended hscripts hentered hnext hstep
    have hlast : h'.shell.lastEnteredCommand = "execute ".toList ++ script.filename := by
      rw [hnext]
    have hcurrent : h'.shell.names.head? = outer.head?.map Script.filename := by
      rw [hnext, names, List.head?_map]
    have hreopens : Reopens h'.shell.names.head? script.filename := by
      rcases hgood with hends | hrepeats
      · rw [hcurrent]
        exact hends hunset script outer hscripts hlines
      · exact reopens_of_repeatsLast (by rw [hnext]; exact hunset) hdepth hlast hname hcommands
          hrepeats
    rw [hname] at hlast hreopens
    refine ⟨hdepth.le, ?_, _, commands, hcommands, hsuspended, ?_⟩
    · rw [hlast]
      rintro ⟨⟩
    · exact Or.inr ⟨hdepth, arg, rest, rfl, hlast, hreopens⟩

/-- The end of a script in a consistent history: if `repeat` does what it should afterwards, the script
is found again. -/
lemma Consistent.endsReopenable {h : History σ} (hc : Consistent h)
    (hrepeats : ∀ h', History.step readFile run h = some h' → RepeatsLast readFile run h') :
    EndsReopenable h.shell := by
  intro hunset script outer hscripts hlines
  obtain ⟨filename, lines⟩ := script
  obtain rfl : lines = [] := hlines
  have hgetline : h.shell.getline = none := by rw [getline, hscripts]
  have hturn : turn readFile run h.shell = some { h.shell with
      lastEnteredCommand := "execute ".toList ++ filename, scripts := outer } := by
    rw [turn, if_neg (by simp [hunset]), if_neg (by simp [hunset]), hgetline, hscripts]
  obtain ⟨h', hstep⟩ : ∃ h', History.step readFile run h = some h' := by
    rw [History.step, hturn]
    exact ⟨_, rfl⟩
  have hnext : h'.shell = { h.shell with
      lastEnteredCommand := "execute ".toList ++ filename, scripts := outer } := by
    have hshell := (step_cases hstep).1
    rw [hturn] at hshell
    exact (Option.some.inj hshell).symm
  have hentered : h.shell.entered = none := by
    rw [entered, hunset, hgetline]
    rfl
  obtain ⟨hdepth, arg, rest, commands, hname, hcommands, -⟩ :=
    hc.ended hscripts hentered hnext hstep
  have hreopens := reopens_of_repeatsLast (by rw [hnext]; exact hunset) hdepth (by rw [hnext]) hname
    hcommands (hrepeats h' hstep)
  rw [hnext, names, List.head?_map] at hreopens
  exact hreopens

lemma History.Reached.next {world : σ} {input : List (List Char)}
    {startupScript : Option (List Char)} {h h' : History σ}
    (hreached : History.Reached readFile run world input startupScript h)
    (hstep : History.step readFile run h = some h') :
    History.Reached readFile run world input startupScript h' :=
  Run.Reachable.next (a := ()) hreached hstep

/-- The loop starts with a consistent history. -/
lemma consistent_start (world : σ) (input : List (List Char)) (startupScript : Option (List Char)) :
    Consistent (History.start readFile run world input startupScript) := by
  have hempty : ∀ s : Shell σ, s.scripts = [] → s.lastEnteredCommand = [] →
      Consistent (⟨s, [none]⟩ : History σ) := by
    intro s hscripts hlast
    refine ⟨?_, ?_, none, [], rfl, ?_, hlast⟩
    · simp [names, hscripts]
    · rw [hlast]
      decide
    · rw [names, hscripts]
      trivial
  rcases startupScript with _ | path
  · exact hempty _ rfl rfl
  by_cases hpath : path = []
  · subst hpath
    exact hempty _ rfl rfl
  · have hstart : Shell.start readFile run world input (some path) =
        openScript readFile path ⟨world, [], false, input, [], []⟩ := by
      rw [Shell.start, if_neg hpath]
      rfl
    rw [History.start, hstart, openScript]
    rcases readFile world path with _ | lines
    · exact hempty _ rfl rfl
    · refine ⟨?_, ?_, none, [some ["execute".toList, path]], rfl, ?_, rfl⟩
      · change 1 ≤ 64
        decide
      · change [] ≠ "exit".toList
        decide
      · exact ⟨⟨path, [], rfl, rfl⟩, trivial⟩

end Preserved

/-- **The command `repeat`.**  For all files, commands, lines entered and startup scripts: in every
state of the run, entering `repeat` has the effect of the last command of the current input, if and
only if every script that comes to its end in the run can be found again under its name. -/
theorem repeatsLast_iff (readFile : σ → List Char → Option (List (List Char)))
    (run : List (List Char) → σ → σ) (world : σ) (input : List (List Char))
    (startupScript : Option (List Char)) :
    (∀ h, History.Reached readFile run world input startupScript h → RepeatsLast readFile run h) ↔
      ∀ h, History.Reached readFile run world input startupScript h → EndsReopenable h.shell := by
  constructor
  · intro hrepeats h hreached
    have hc : Consistent h := by
      refine Run.Reachable.induction (consistent_start world input startupScript) ?_ hreached
      intro _ t t' ht hct htt'
      exact hct.step htt' (Or.inr (hrepeats t' (History.Reached.next ht htt')))
    exact hc.endsReopenable fun h' hstep => hrepeats h' (hreached.next hstep)
  · intro hends h hreached
    have hc : Consistent h := by
      refine Run.Reachable.induction (consistent_start world input startupScript) ?_ hreached
      intro _ t t' ht hct htt'
      exact hct.step htt' (Or.inl (hends t ht))
    exact hc.repeatsLast

/-- A script `a/b.txt` that executes an empty script `a/c.txt`. -/
def nestedScripts (_ : Unit) (path : List Char) : Option (List (List Char)) :=
  if path = "a/b.txt".toList then some ["execute c.txt".toList]
  else if path = "a/c.txt".toList then some []
  else none

/-- After the end of `a/c.txt`, a `repeat` in `a/b.txt` does not open it again, but fails to open
`a/a/c.txt`. -/
theorem not_repeatsLast_nested :
    ¬ ∀ h, History.Reached nestedScripts (fun _ world => world) () ["execute a/b.txt".toList] none h →
      RepeatsLast nestedScripts (fun _ world => world) h := by
  intro hrepeats
  let run : List (List Char) → Unit → Unit := fun _ world => world
  let tokens := ["execute".toList, "c.txt".toList]
  have hthree := @Run.exists_exec_of_decide _ _ (fun _ : Unit => History.step nestedScripts run)
    (fun h => h.shell.isRepeatSet = false ∧ h.commands.head? = some (some tokens) ∧
      ((enter nestedScripts run "repeat".toList h.shell).bind (turn nestedScripts run)).map
        (fun s => s.scripts.length) = some 1 ∧
      (execute nestedScripts run tokens h.shell).scripts.length = 2) inferInstance
    [(), (), ()] (History.start nestedScripts run () ["execute a/b.txt".toList] none)
    (by decide +kernel)
  obtain ⟨h, hexec, hunset, hcommand, hfails, hopens⟩ := hthree
  obtain ⟨s, hs, hsame⟩ := hrepeats h ⟨_, hexec⟩ hunset tokens "repeat".toList hcommand (by decide)
  have hone : s.scripts.length = 1 := by
    rw [hs, Option.map_some] at hfails
    exact Option.some.inj hfails
  rw [hsame.scripts, hopens] at hone
  cases hone

end Shell

end ChordPlusPlus
