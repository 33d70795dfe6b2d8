import Mathlib.Data.List.TakeWhile

/-!
# The main loop of the shell

`Entry::mainLoop` reads lines from the terminal or from the innermost script, cuts them into tokens and
executes them.  The command `execute` opens a script, whose name is taken relative to the directory of
the script that contains the command; `repeat` makes the loop take the last command again.  When a
script has come to its end, the command remembered is an `execute` of its file name.

The files are given by a function `readFile`, and all other commands by a function `run`; both depend
on the rest of the program, of which nothing is assumed.  A file is a finite text.  Its lines are taken
down when it is opened, although the source reads them one by one; a file that changes while it is open is
the subject of `Entry.Termination`.  Paths are those of `std::filesystem` on
POSIX.  A `std::string` is a list of characters.
-/

namespace ChordPlusPlus

/-! ## Lines -/

/-- The replacement of the pattern `#.*` by nothing.  A dot does not match the end of a line. -/
def stripComments : Bool → List Char → List Char
  | _, [] => []
  | true, c :: cs =>
      if c = '\n' ∨ c = '\r' then c :: stripComments false cs else stripComments true cs
  | false, c :: cs => if c = '#' then stripComments true cs else c :: stripComments false cs

/-- The class `[^ \n\r\t\[\]]`. -/
def isWordChar (c : Char) : Bool := c ∉ [' ', '\n', '\r', '\t', '[', ']']

/-- The matches of the pattern `\[[^\]]*\]|[^ \n\r\t\[\]]+`, one after the other; at most `fuel`
characters are looked at. -/
def tokenizeLoop : ℕ → List Char → List (List Char)
  | 0, _ => []
  | _ + 1, [] => []
  | fuel + 1, c :: cs =>
      if c = '[' ∧ ']' ∈ cs then
        (c :: cs.takeWhile (· ≠ ']') ++ [']']) :: tokenizeLoop fuel (cs.dropWhile (· ≠ ']')).tail
      else if isWordChar c then
        (c :: cs.takeWhile isWordChar) :: tokenizeLoop fuel (cs.dropWhile isWordChar)
      else tokenizeLoop fuel cs

/-- The tokens of a line. -/
def tokenize (line : List Char) : List (List Char) := tokenizeLoop line.length line

/-! ## Paths -/

/-- `std::filesystem::path::parent_path`. -/
def parentPath (path : List Char) : List Char :=
  let directory := path.reverse.dropWhile (· ≠ '/')
  let trimmed := directory.dropWhile (· = '/')
  if path.all (· = '/') then path
  else if directory = [] then []
  else if trimmed = [] then ['/']
  else trimmed.reverse

/-- `operator/` of `std::filesystem::path`. -/
def joinPath (directory path : List Char) : List Char :=
  if path.head? = some '/' then path
  else if directory = [] ∨ directory.getLast? = some '/' then directory ++ path
  else directory ++ '/' :: path

/-- The file that `execute` opens for an argument, inside the given script or at the terminal. -/
def resolvePath (current : Option (List Char)) (arg : List Char) : List Char :=
  match current with
  | some lastFile => joinPath (parentPath lastFile) arg
  | none => arg

/-! ## The loop -/

/-- An open script: an entry of `m_input_filenames`, and the lines that are still to be read. -/
structure Script where
  filename : List Char
  lines : List (List Char)

/-- The state of the shell. -/
structure Shell (σ : Type*) where
  /-- The rest of the program. -/
  world : σ
  /-- `m_lastEnteredCommand`. -/
  lastEnteredCommand : List Char
  isRepeatSet : Bool
  /-- The lines that are still to be entered at the terminal. -/
  input : List (List Char)
  /-- `m_input_files` and `m_input_filenames`, the innermost script first. -/
  scripts : List Script
  /-- What the loop and its own commands have printed. -/
  messages : List (List Char)

namespace Shell

variable {σ : Type*}

def print (message : List Char) (s : Shell σ) : Shell σ :=
  { s with messages := s.messages ++ [message] }

/-- The name of the innermost script. -/
def current (s : Shell σ) : Option (List Char) := s.scripts.head?.map Script.filename

section Commands

variable (readFile : σ → List Char → Option (List (List Char))) (run : List (List Char) → σ → σ)

/-- Opens a file as the innermost script. -/
def openScript (path : List Char) (s : Shell σ) : Shell σ :=
  match readFile s.world path with
  | none => s.print ("Could not open ".toList ++ path)
  | some lines => { s with scripts := ⟨path, lines⟩ :: s.scripts, lastEnteredCommand := [] }

/-- The command `execute`. -/
def executeScript (args : List (List Char)) (s : Shell σ) : Shell σ :=
  match args with
  | [] => s.print "PATH required!".toList
  | arg :: _ =>
      if 64 ≤ s.scripts.length then s.print "Recursion depth reached!".toList
      else openScript readFile (resolvePath s.current arg) s

/-- `Entry::execute`. -/
def execute (tokens : List (List Char)) (s : Shell σ) : Shell σ :=
  match tokens with
  | [] => s
  | cmd :: args =>
      if cmd = "repeat".toList then { s with isRepeatSet := true }
      else if cmd = "execute".toList then executeScript readFile args s
      else { s with world := run tokens s.world }

/-- A turn of the loop from the tokens on; `none` is the end of the loop. -/
def enter (line : List Char) (s : Shell σ) : Option (Shell σ) :=
  match tokenize line with
  | [] => some s
  | cmd :: args =>
      let remembered :=
        if cmd ≠ "repeat".toList then { s with lastEnteredCommand := line } else s
      let executed := execute readFile run (cmd :: args) { remembered with isRepeatSet := false }
      if line = "exit".toList then none else some executed

/-- `std::getline` on the innermost script, or on the terminal. -/
def getline (s : Shell σ) : Option (List Char × Shell σ) :=
  match s.scripts with
  | ⟨_, []⟩ :: _ => none
  | ⟨filename, line :: lines⟩ :: outer =>
      some (line, { s with scripts := ⟨filename, lines⟩ :: outer })
  | [] =>
      match s.input with
      | [] => none
      | line :: rest => some (line, { s with input := rest })

/-- A turn of `Entry::mainLoop`. -/
def turn (s : Shell σ) : Option (Shell σ) :=
  if s.isRepeatSet = true ∧ s.lastEnteredCommand = [] then
    some { s.print "repeat cannot be the first command. Enter any other command.".toList with
      isRepeatSet := false }
  else if s.isRepeatSet then enter readFile run s.lastEnteredCommand s
  else
    match s.getline with
    | some (line, rest) => enter readFile run (stripComments false line) rest
    | none =>
        match s.scripts with
        | [] => none
        | script :: outer =>
            some { s with
              lastEnteredCommand := "execute ".toList ++ script.filename
              scripts := outer }

/-- The start of `Entry::mainLoop`, with the startup script of the configuration. -/
def start (world : σ) (input : List (List Char)) (startupScript : Option (List Char)) : Shell σ :=
  let s : Shell σ := ⟨world, [], false, input, [], []⟩
  match startupScript with
  | none => s
  | some path => if path = [] then s else execute readFile run ["execute".toList, path] s

end Commands

end Shell

/-! ## Tokens -/

/-- The fuel does not matter, if there is enough of it. -/
lemma tokenizeLoop_congr {fuel fuel' : ℕ} {cs : List Char} (h : cs.length ≤ fuel)
    (h' : cs.length ≤ fuel') : tokenizeLoop fuel cs = tokenizeLoop fuel' cs := by
  induction fuel generalizing fuel' cs with
  | zero =>
    obtain rfl := List.eq_nil_of_length_eq_zero (Nat.le_zero.mp h)
    cases fuel' <;> rfl
  | succ fuel ih =>
    cases cs with
    | nil => cases fuel' <;> rfl
    | cons c cs =>
      rw [List.length_cons] at h h'
      obtain ⟨fuel', rfl⟩ : ∃ n, fuel' = n + 1 := ⟨fuel' - 1, by omega⟩
      have hdrop : ∀ p : Char → Bool, (cs.dropWhile p).length ≤ cs.length := fun p =>
        (List.dropWhile_sublist p).length_le
      rw [tokenizeLoop, tokenizeLoop]
      split_ifs
      · have hword := hdrop (· ≠ ']')
        have htail : ((cs.dropWhile (· ≠ ']')).tail).length ≤ (cs.dropWhile (· ≠ ']')).length := by
          rw [List.length_tail]
          omega
        rw [@ih fuel' _ (by omega) (by omega)]
      · have hword := hdrop isWordChar
        rw [@ih fuel' _ (by omega) (by omega)]
      · exact ih (by omega) (by omega)

/-- The tokens of an `execute` command that the loop has put together. -/
lemma tokenize_execute (name : List Char) :
    tokenize ("execute ".toList ++ name) = "execute".toList :: tokenize name := by
  have hline : "execute ".toList ++ name = 'e' :: (['x', 'e', 'c', 'u', 't', 'e'] ++ ' ' :: name) :=
    rfl
  have htake : (['x', 'e', 'c', 'u', 't', 'e'] ++ ' ' :: name).takeWhile isWordChar =
      ['x', 'e', 'c', 'u', 't', 'e'] := rfl
  have hdrop : (['x', 'e', 'c', 'u', 't', 'e'] ++ ' ' :: name).dropWhile isWordChar = ' ' :: name :=
    rfl
  have hlength : ('e' :: (['x', 'e', 'c', 'u', 't', 'e'] ++ ' ' :: name)).length =
      name.length + 6 + 1 + 1 := by
    simp
  rw [tokenize, hline, hlength, tokenizeLoop, if_neg (by simp), if_pos (by decide), htake, hdrop,
    tokenizeLoop, if_neg (by simp), if_neg (by decide)]
  exact congrArg _ (tokenizeLoop_congr (by omega) le_rfl)

end ChordPlusPlus
