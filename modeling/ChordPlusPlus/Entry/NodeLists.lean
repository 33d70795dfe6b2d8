import ChordPlusPlus.Config.SplitIp
import ChordPlusPlus.Foundation.Run

/-!
# The node lists of the shell

The shell keeps two vectors, the nodes and the `Dht` objects that run on them, and changes both in the
commands `add` and `remove`.  The commands `show` only read them.  A command that throws is reported
by `Entry::execute`, and the shell goes on.

A constructor that `add` calls may throw, and so may the start of a thread in `remove`; where this
happens is part of a call.  `CommandResult.undefined` is an access out of range, after which nothing
can be said.  `keepsLists_iff` says in which runs the two vectors stay in line.

What the commands print is left out, apart from the errors.
-/

namespace ChordPlusPlus

open RegularExpression

/-! ## Numbers -/

/-- The pattern of `parse_number`. -/
def numberPattern : RegularExpression Char :=
  optional (oneOf ['+', '-']) *
    (char '.' * oneOrMore (oneOf digits) +
      oneOrMore (oneOf digits) * optional (char '.') * (oneOf digits).star)

/-- `util::from_string` for an unsigned type with the given number of bits, on a word that begins with
a number.  The conversion stops at the first letter that is not a digit; without a digit it gives zero,
a number out of range gives the largest one, and a negative number wraps around. -/
def fromString (bits : ℕ) (word : List Char) : ℕ :=
  let unsigned := match word with
    | '+' :: rest => rest
    | '-' :: rest => rest
    | _ => word
  let n := decimal (unsigned.takeWhile fun c => c ∈ digits)
  if n < 2 ^ bits then
    if word.head? = some '-' then (2 ^ bits - n) % 2 ^ bits else n
  else 2 ^ bits - 1

/-- `parse_number`, for an unsigned type. -/
def parseNumber (bits : ℕ) (word : List Char) : Option ℕ :=
  if numberPattern.rmatch word then some (fromString bits word) else none

/-! ## The state -/

/-- A `NodeInformation` object: the number of objects created before it, and its port. -/
structure ShellNode where
  object : ℕ
  port : UInt16

/-- A `Dht` object: the node it runs on, and the port of its api. -/
structure ShellDht where
  node : ShellNode
  api : Option UInt16

/-- The vectors of the shell. -/
structure NodeLists where
  /-- `m_nodes`. -/
  nodes : List ShellNode
  /-- `m_DHTs`; `none` is a null pointer. -/
  dhts : List (Option ShellDht)
  /-- The number of `NodeInformation` objects created so far. -/
  created : ℕ

/-- Both vectors have the same length, and the `Dht` objects run on the nodes at the same places. -/
def NodeLists.Aligned (s : NodeLists) : Prop :=
  s.dhts.map (Option.map ShellDht.node) = s.nodes.map some

/-- The constructor of `Entry`, for the ports and the number of nodes of the configuration. -/
def NodeLists.start (p2pPort apiPort : UInt16) (nodeAmount : ℕ) : NodeLists where
  nodes := (List.range nodeAmount).map fun i => ⟨i, p2pPort + UInt16.ofNat i⟩
  dhts := (List.range nodeAmount).map fun i =>
    some ⟨⟨i, p2pPort + UInt16.ofNat i⟩, some (apiPort + UInt16.ofNat i)⟩
  created := nodeAmount

/-- How a command ends. -/
inductive CommandResult
  | done (lists : NodeLists)
  /-- The command reports an error. -/
  | error (message : String) (lists : NodeLists)
  /-- The command has read or erased out of range, or taken the last element of an empty vector. -/
  | undefined

/-- Where a command may throw: in a constructor while a node is added, or when it starts the thread for
the deletion of a `Dht` object. -/
inductive ThrowPoint
  | node
  | dht
  | api
  /-- The given number of deletions have been started before. -/
  | deletion (started : ℕ)

/-! ## The commands -/

section Commands

open CommandResult

/-- `Entry::addNode`.  An exception has a text of its own. -/
def addNode (throws : Option (ThrowPoint × String)) (portParam : Option UInt16) (s : NodeLists) :
    CommandResult :=
  match portParam.or (s.nodes.getLast?.map fun node : ShellNode => node.port + 1) with
  | none => undefined
  | some port =>
      let node : ShellNode := ⟨s.created, port⟩
      let nodes := s.nodes ++ [node]
      let dht (api : Option UInt16) : Option ShellDht := some ⟨node, api⟩
      match throws with
      | some (.node, what) => error what s
      | some (.dht, what) => error what ⟨nodes, s.dhts, s.created + 1⟩
      | some (.api, what) => error what ⟨nodes, s.dhts ++ [dht none], s.created + 1⟩
      | _ => done ⟨nodes, s.dhts ++ [dht (some (port + 1000))], s.created + 1⟩

/-- The command `add`. -/
def addCommand (throws : Option (ThrowPoint × String)) (args : List (List Char)) (s : NodeLists) :
    CommandResult :=
  match args with
  | [] => addNode throws none s
  | port :: _ => addNode throws ((parseNumber 16 port).map UInt16.ofNat) s

/-- The two calls of `erase` at the end of the command `remove`. -/
def eraseNodes (index count : ℕ) (s : NodeLists) : NodeLists :=
  { s with
    nodes := s.nodes.take index ++ s.nodes.drop (index + count)
    dhts := s.dhts.take index ++ s.dhts.drop (index + count) }

/-- The pointers that have been reset by deletions. -/
def resetDhts (index started : ℕ) (s : NodeLists) : NodeLists :=
  { s with
    dhts := s.dhts.take index ++ List.replicate started none ++ s.dhts.drop (index + started) }

/-- The end of the command `remove`: the objects are deleted one by one in threads of their own, and
then the range is erased from both vectors. -/
def deleteNodes (throws : Option (ThrowPoint × String)) (index count : ℕ) (s : NodeLists) :
    CommandResult :=
  if index + count ≤ s.dhts.length ∧ index + count ≤ s.nodes.length then
    match throws with
    | some (.deletion started, what) =>
        if started < count then error what (resetDhts index started s)
        else done (eraseNodes index count s)
    | _ => done (eraseNodes index count s)
  else undefined

/-- The error of an index that is too large. -/
def indexOutOfBounds (index : ℕ) (s : NodeLists) : CommandResult :=
  error ("Index [" ++ toString index ++ "] out of bounds!") s

/-- The command `remove`.  The sum of index and count is a 32-bit number. -/
def removeCommand (throws : Option (ThrowPoint × String)) (args : List (List Char)) (s : NodeLists) :
    CommandResult :=
  match args.head?.bind (parseNumber 32) with
  | none => error "INDEX required!" s
  | some index =>
      if s.nodes.length ≤ index then indexOutOfBounds index s
      else
        match (args[1]?).bind (parseNumber 32) with
        | none => deleteNodes throws index 1 s
        | some c =>
            if s.nodes.length < (index + c) % 2 ^ 32 then
              error ("Count [" ++ toString c ++ "] out of bounds!") s
            else deleteNodes throws index c s

/-- The end of `Entry::execute` for a name that is not in the table: the first colon is printed as a
blank. -/
def commandNotFound (cmd : List Char) (s : NodeLists) : CommandResult :=
  let shown := if ':' ∈ cmd then cmd.set (cmd.idxOf ':') ' ' else cmd
  error ("Command \"" ++ String.ofList shown ++ "\" not found!") s

/-- The command `show:nodes`.  Its subcommand `data` is not in the table. -/
def showNodes (args : List (List Char)) (s : NodeLists) : CommandResult :=
  match args with
  | [] => done s
  | arg :: _ =>
      if arg = "data".toList then commandNotFound "show:nodes:data".toList s
      else
        match parseNumber 32 arg with
        | none => done s
        | some index => if s.nodes.length ≤ index then indexOutOfBounds index s else done s

/-- The command `show:data`, which does not compare its index with the number of nodes. -/
def showData (args : List (List Char)) (s : NodeLists) : CommandResult :=
  match args with
  | [] => done s
  | arg :: _ =>
      match parseNumber 32 arg with
      | none => done s
      | some index => if index < s.nodes.length then done s else undefined

/-- The command `show:fingers`. -/
def showFingers (args : List (List Char)) (s : NodeLists) : CommandResult :=
  match args.head?.bind (parseNumber 32) with
  | none => error "INDEX required!" s
  | some index => if s.nodes.length ≤ index then indexOutOfBounds index s else done s

/-- `Entry::execute` for the commands whose names begin with `show:`. -/
def executeShow (cmd : List Char) (args : List (List Char)) (s : NodeLists) : CommandResult :=
  if cmd = "show:nodes".toList then showNodes args s
  else if cmd = "show:data".toList then showData args s
  else if cmd = "show:fingers".toList then showFingers args s
  else commandNotFound cmd s

/-- The command `show`. -/
def showCommand (args : List (List Char)) (s : NodeLists) : CommandResult :=
  match args with
  | [] => error "Argument required: WHAT" s
  | what :: rest => executeShow ("show:".toList ++ what.map Char.toLower) rest s

end Commands

/-- The commands that use the node lists. -/
inductive ListCommandName
  | add
  | remove
  | shows
  /-- A name that begins with `show:`, entered as it is. -/
  | showSub (what : List Char)

/-- A command with its arguments, and the point where it throws, if it does. -/
structure ListCommand where
  command : ListCommandName
  args : List (List Char)
  throws : Option (ThrowPoint × String)

namespace ListCommand

/-- The command. -/
def execute (call : ListCommand) (s : NodeLists) : CommandResult :=
  match call.command with
  | .add => addCommand call.throws call.args s
  | .remove => removeCommand call.throws call.args s
  | .shows => showCommand call.args s
  | .showSub what => executeShow ("show:".toList ++ what) call.args s

/-- The lists after a command, if it is defined. -/
def step (call : ListCommand) (s : NodeLists) : Option NodeLists :=
  match call.execute s with
  | .done s' => some s'
  | .error _ s' => some s'
  | .undefined => none

/-- The positions `index` to `index + count - 1` are deleted from both vectors, and nothing else.  The
count is one if there is no second argument that is a number. -/
def RemovesRange (args : List (List Char)) (s s' : NodeLists) : Prop :=
  ∃ index count, args.head?.bind (parseNumber 32) = some index ∧
    count = ((args[1]?).bind (parseNumber 32)).getD 1 ∧ index + count ≤ s.nodes.length ∧
    s'.nodes = s.nodes.take index ++ s.nodes.drop (index + count) ∧
    s'.dhts = s.dhts.take index ++ s.dhts.drop (index + count)

/-- What a command should do to the lists: it leaves them in line, an error leaves them as they were,
and `remove` deletes the range it is asked to delete. -/
def KeepsLists (call : ListCommand) (s : NodeLists) : Prop :=
  match call.execute s with
  | .done s' => s'.Aligned ∧ (call.command = .remove → RemovesRange call.args s s')
  | .error _ s' => s'.nodes = s.nodes ∧ s'.dhts = s.dhts
  | .undefined => False

/-- The index of a `show:data` is in range, if it is a number. -/
def IndexInRange (args : List (List Char)) (s : NodeLists) : Prop :=
  ∀ index, args.head?.bind (parseNumber 32) = some index → index < s.nodes.length

/-- The condition for a command to do what it should. -/
def Harmless (call : ListCommand) (s : NodeLists) : Prop :=
  match call.command with
  | .add => (call.args.head?.bind (parseNumber 16) = none → s.nodes ≠ []) ∧
      ∀ what, call.throws ≠ some (.dht, what) ∧ call.throws ≠ some (.api, what)
  | .remove => ∀ index count, call.args.head?.bind (parseNumber 32) = some index →
      count = ((call.args[1]?).bind (parseNumber 32)).getD 1 → index < s.nodes.length →
      (index + count) % 2 ^ 32 ≤ s.nodes.length →
      index + count ≤ s.nodes.length ∧
        ∀ started what, call.throws = some (.deletion started, what) → started = 0 ∨ count ≤ started
  | .shows => ∀ what rest, call.args = what :: rest → what.map Char.toLower = "data".toList →
      IndexInRange rest s
  | .showSub what => what = "data".toList → IndexInRange call.args s

/-! ## Single commands -/

lemma addCommand_eq (throws : Option (ThrowPoint × String)) (args : List (List Char)) (s : NodeLists) :
    addCommand throws args s =
      addNode throws ((args.head?.bind (parseNumber 16)).map UInt16.ofNat) s := by
  cases args with
  | nil => rfl
  | cons arg rest => rfl

/-- The port of a new node: only an empty list has no last port to go on from. -/
lemma newPort_eq_none_iff {number : Option ℕ} {s : NodeLists} :
    (number.map UInt16.ofNat).or (s.nodes.getLast?.map fun node : ShellNode => node.port + 1) =
      none ↔ number = none ∧ s.nodes = [] := by
  rw [Option.or_eq_none_iff, Option.map_eq_none_iff, Option.map_eq_none_iff,
    List.getLast?_eq_none_iff]

lemma keepsLists_add {args : List (List Char)} {throws : Option (ThrowPoint × String)}
    {s : NodeLists} (hs : s.Aligned) :
    KeepsLists ⟨.add, args, throws⟩ s ↔ Harmless ⟨.add, args, throws⟩ s := by
  have hnew := @newPort_eq_none_iff (args.head?.bind (parseNumber 16)) s
  have hlonger : ∀ node : ShellNode, ¬ s.nodes ++ [node] = s.nodes := by
    intro node
    simp
  unfold KeepsLists Harmless execute
  simp only [addCommand_eq, addNode]
  rcases hport : ((args.head?.bind (parseNumber 16)).map UInt16.ofNat).or
    (s.nodes.getLast?.map fun node : ShellNode => node.port + 1) with _ | port
  · obtain ⟨hnumber, hempty⟩ := hnew.mp hport
    simp [hnumber, hempty]
  · have hdefined : args.head?.bind (parseNumber 16) = none → s.nodes ≠ [] := by
      intro hnumber hempty
      rw [hnew.mpr ⟨hnumber, hempty⟩] at hport
      cases hport
    -- A node and the `Dht` object that runs on it are appended.
    have haligned : NodeLists.Aligned ⟨s.nodes ++ [⟨s.created, port⟩],
        s.dhts ++ [some ⟨⟨s.created, port⟩, some (port + 1000)⟩], s.created + 1⟩ := by
      rw [NodeLists.Aligned, List.map_append, List.map_append, hs]
      rfl
    rcases throws with _ | ⟨_ | _ | _ | started, what⟩
    · exact iff_of_true ⟨haligned, by rintro ⟨⟩⟩ ⟨hdefined, by simp⟩
    · exact iff_of_true ⟨rfl, rfl⟩ ⟨hdefined, by simp⟩
    · simp [hlonger]
    · simp [hlonger]
    · exact iff_of_true ⟨haligned, by rintro ⟨⟩⟩ ⟨hdefined, by simp⟩

/-- Erasing a range from both vectors keeps them in line. -/
lemma aligned_eraseNodes {s : NodeLists} (hs : s.Aligned) (index count : ℕ) :
    (eraseNodes index count s).Aligned := by
  rw [NodeLists.Aligned, eraseNodes]
  dsimp only
  rw [List.map_append, List.map_append, List.map_take, List.map_drop, List.map_take, List.map_drop,
    hs]

/-- Resetting pointers changes the vector: there is no null pointer in vectors in line. -/
lemma resetDhts_eq_iff {s : NodeLists} (hs : s.Aligned) {index started : ℕ}
    (hle : index + started ≤ s.dhts.length) :
    (resetDhts index started s).dhts = s.dhts ↔ started = 0 := by
  constructor
  · intro hsame
    by_contra hpos
    have hnull : none ∈ s.dhts := by
      rw [← hsame, resetDhts]
      simp [hpos]
    have hmem := List.mem_map_of_mem (f := Option.map ShellDht.node) hnull
    rw [hs] at hmem
    simp at hmem
  · rintro rfl
    simp [resetDhts]

/-- What `remove` does to the lists once its arguments have been accepted. -/
lemma keepsLists_remove_of_deleteNodes {args : List (List Char)}
    {throws : Option (ThrowPoint × String)} {s : NodeLists} {index count : ℕ} (hs : s.Aligned)
    (hindex : args.head?.bind (parseNumber 32) = some index)
    (hcount : count = ((args[1]?).bind (parseNumber 32)).getD 1)
    (hexecute : removeCommand throws args s = deleteNodes throws index count s) :
    KeepsLists ⟨.remove, args, throws⟩ s ↔ index + count ≤ s.nodes.length ∧
      ∀ started what, throws = some (.deletion started, what) → started = 0 ∨ count ≤ started := by
  have hlength : s.dhts.length = s.nodes.length := by
    simpa using congrArg List.length hs
  unfold KeepsLists execute
  simp only [hexecute, deleteNodes, hlength, and_self]
  by_cases hle : index + count ≤ s.nodes.length
  · have herased : (eraseNodes index count s).Aligned ∧
        RemovesRange args s (eraseNodes index count s) :=
      ⟨aligned_eraseNodes hs index count, index, count, hindex, hcount, hle, rfl, rfl⟩
    rw [if_pos hle]
    rcases throws with _ | ⟨_ | _ | _ | started, what⟩
    · simp [herased, hle]
    · simp [herased, hle]
    · simp [herased, hle]
    · simp [herased, hle]
    · by_cases hlt : started < count
      · -- Some of the pointers have been reset before the error.
        have hreset := @resetDhts_eq_iff s hs index started (by omega)
        simp only [if_pos hlt, hreset, hle, true_and, Option.some.injEq, Prod.mk.injEq,
          ThrowPoint.deletion.injEq]
        constructor
        · rintro ⟨-, rfl⟩ started' what' ⟨rfl, -⟩
          exact Or.inl rfl
        · intro h
          refine ⟨rfl, (h started what ⟨rfl, rfl⟩).resolve_right ?_⟩
          exact Nat.not_le.mpr hlt
      · simp only [if_neg hlt, herased, hle, true_and, implies_true, Option.some.injEq,
          Prod.mk.injEq, ThrowPoint.deletion.injEq, true_iff]
        rintro started' what' ⟨rfl, -⟩
        exact Or.inr (Nat.not_lt.mp hlt)
  · simp [hle]

lemma harmless_remove_iff {args : List (List Char)} {throws : Option (ThrowPoint × String)}
    {s : NodeLists} {index count : ℕ} (hindex : args.head?.bind (parseNumber 32) = some index)
    (hcount : count = ((args[1]?).bind (parseNumber 32)).getD 1) :
    Harmless ⟨.remove, args, throws⟩ s ↔ (index < s.nodes.length →
      (index + count) % 2 ^ 32 ≤ s.nodes.length → index + count ≤ s.nodes.length ∧
        ∀ started what, throws = some (.deletion started, what) →
          started = 0 ∨ count ≤ started) := by
  constructor
  · intro h
    exact h index count hindex hcount
  · rintro h index' count' hindex' rfl
    obtain rfl := Option.some.inj (hindex.symm.trans hindex')
    rw [← hcount]
    exact h

lemma keepsLists_remove {args : List (List Char)} {throws : Option (ThrowPoint × String)}
    {s : NodeLists} (hs : s.Aligned) :
    KeepsLists ⟨.remove, args, throws⟩ s ↔ Harmless ⟨.remove, args, throws⟩ s := by
  rcases hindex : args.head?.bind (parseNumber 32) with _ | index
  · simp [KeepsLists, Harmless, execute, removeCommand, hindex]
  rw [harmless_remove_iff hindex rfl]
  by_cases hout : s.nodes.length ≤ index
  · refine iff_of_true ?_ fun hlt => absurd hlt (Nat.not_lt.mpr hout)
    simp [KeepsLists, execute, removeCommand, hindex, hout, indexOutOfBounds]
  rcases hcount : (args[1]?).bind (parseNumber 32) with _ | c
  · have hexecute : removeCommand throws args s = deleteNodes throws index 1 s := by
      simp [removeCommand, hindex, hout, hcount]
    rw [keepsLists_remove_of_deleteNodes hs hindex (by rw [hcount]; rfl) hexecute]
    have hwrap : (index + 1) % 2 ^ 32 ≤ s.nodes.length :=
      (Nat.mod_le _ _).trans (Nat.not_le.mp hout)
    exact ⟨fun h _ _ => h, fun h => h (Nat.not_le.mp hout) hwrap⟩
  rw [Option.getD_some]
  by_cases hwrapped : s.nodes.length < (index + c) % 2 ^ 32
  · refine iff_of_true ?_ fun _ hle => absurd hle (Nat.not_le.mpr hwrapped)
    simp only [KeepsLists, execute, removeCommand, hindex, hout, hcount, hwrapped, if_true, if_false,
      and_self]
  · have hexecute : removeCommand throws args s = deleteNodes throws index c s := by
      simp only [removeCommand, hindex, hout, hcount, hwrapped, if_false]
    rw [keepsLists_remove_of_deleteNodes hs hindex (by rw [hcount]; rfl) hexecute]
    exact ⟨fun h _ _ => h, fun h => h (Nat.not_le.mp hout) (Nat.not_lt.mp hwrapped)⟩

/-! ### Commands that only read -/

/-- The command leaves the lists as they are, whether it reports an error or not. -/
def OnlyReads (s : NodeLists) : CommandResult → Prop
  | .done s' => s' = s
  | .error _ s' => s' = s
  | .undefined => False

lemma onlyReads_indexOutOfBounds (index : ℕ) (s : NodeLists) :
    OnlyReads s (if s.nodes.length ≤ index then indexOutOfBounds index s else .done s) := by
  split_ifs
  · exact rfl
  · exact rfl

lemma onlyReads_showNodes (args : List (List Char)) (s : NodeLists) :
    OnlyReads s (showNodes args s) := by
  unfold showNodes
  split
  · exact rfl
  · split_ifs
    · exact rfl
    · split
      · exact rfl
      · exact onlyReads_indexOutOfBounds _ s

lemma onlyReads_showFingers (args : List (List Char)) (s : NodeLists) :
    OnlyReads s (showFingers args s) := by
  unfold showFingers
  split
  · exact rfl
  · exact onlyReads_indexOutOfBounds _ s

/-- `show:data` is defined exactly if its index is in range. -/
lemma onlyReads_showData_iff (args : List (List Char)) (s : NodeLists) :
    OnlyReads s (showData args s) ↔ IndexInRange args s := by
  unfold showData IndexInRange
  cases args with
  | nil => simp [OnlyReads]
  | cons arg rest =>
    rcases hnumber : parseNumber 32 arg with _ | index
    · simp [OnlyReads, hnumber]
    · by_cases hlt : index < s.nodes.length
      · simp [OnlyReads, hnumber, hlt]
      · simp [OnlyReads, hnumber, hlt]

lemma onlyReads_executeShow_iff (what : List Char) (args : List (List Char)) (s : NodeLists) :
    OnlyReads s (executeShow ("show:".toList ++ what) args s) ↔
      (what = "data".toList → IndexInRange args s) := by
  have hnames : "show:nodes".toList = "show:".toList ++ "nodes".toList ∧
      "show:data".toList = "show:".toList ++ "data".toList ∧
      "show:fingers".toList = "show:".toList ++ "fingers".toList := by decide
  rw [executeShow, hnames.1, hnames.2.1, hnames.2.2]
  simp only [List.append_cancel_left_eq]
  by_cases hnodes : what = "nodes".toList
  · rw [if_pos hnodes]
    refine iff_of_true (onlyReads_showNodes args s) fun hdata => ?_
    rw [hnodes] at hdata
    exact absurd hdata (by decide)
  · rw [if_neg hnodes]
    by_cases hdata : what = "data".toList
    · rw [if_pos hdata, onlyReads_showData_iff]
      exact ⟨fun h _ => h, fun h => h hdata⟩
    · rw [if_neg hdata]
      refine iff_of_true ?_ fun h => absurd h hdata
      split_ifs
      · exact onlyReads_showFingers args s
      · exact rfl

/-- A `show` command either only reads or is undefined. -/
lemma executeShow_onlyReads_or_undefined (cmd : List Char) (args : List (List Char))
    (s : NodeLists) :
    OnlyReads s (executeShow cmd args s) ∨ executeShow cmd args s = .undefined := by
  unfold executeShow
  split_ifs
  · exact Or.inl (onlyReads_showNodes args s)
  · unfold showData
    split
    · exact Or.inl rfl
    · split
      · exact Or.inl rfl
      · split_ifs
        · exact Or.inl rfl
        · exact Or.inr rfl
  · exact Or.inl (onlyReads_showFingers args s)
  · exact Or.inl rfl

/-- Commands that only read do what they should, unless they are undefined. -/
lemma keepsLists_iff_onlyReads {call : ListCommand} {s : NodeLists} (hs : s.Aligned)
    (hcommand : call.command ≠ .remove)
    (hreads : OnlyReads s (call.execute s) ∨ call.execute s = .undefined) :
    KeepsLists call s ↔ OnlyReads s (call.execute s) := by
  unfold KeepsLists
  rcases hresult : call.execute s with s' | ⟨what, s'⟩ | _
  · rw [hresult] at hreads
    rcases hreads with hsame | hundefined
    · obtain rfl : s' = s := hsame
      exact iff_of_true ⟨hs, fun hremove => absurd hremove hcommand⟩ rfl
    · cases hundefined
  · rw [hresult] at hreads
    rcases hreads with hsame | hundefined
    · obtain rfl : s' = s := hsame
      exact iff_of_true ⟨rfl, rfl⟩ rfl
    · cases hundefined
  · exact Iff.rfl

lemma keepsLists_shows {args : List (List Char)} {throws : Option (ThrowPoint × String)}
    {s : NodeLists} (hs : s.Aligned) :
    KeepsLists ⟨.shows, args, throws⟩ s ↔ Harmless ⟨.shows, args, throws⟩ s := by
  cases args with
  | nil =>
    have hreads := @keepsLists_iff_onlyReads ⟨.shows, [], throws⟩ s hs (by rintro ⟨⟩) (Or.inl rfl)
    exact hreads.trans (iff_of_true rfl (by simp [Harmless]))
  | cons what rest =>
    have hreads := @keepsLists_iff_onlyReads ⟨.shows, what :: rest, throws⟩ s hs (by rintro ⟨⟩)
      (executeShow_onlyReads_or_undefined _ rest s)
    refine (hreads.trans (onlyReads_executeShow_iff (what.map Char.toLower) rest s)).trans ?_
    constructor
    · rintro h what' rest' heq
      obtain ⟨rfl, rfl⟩ := List.cons.inj heq
      exact h
    · exact fun h => h what rest rfl

/-- A command does what it should exactly if it is harmless. -/
lemma keepsLists_iff_harmless {s : NodeLists} (hs : s.Aligned) (call : ListCommand) :
    KeepsLists call s ↔ Harmless call s := by
  obtain ⟨command, args, throws⟩ := call
  cases command with
  | add => exact keepsLists_add hs
  | remove => exact keepsLists_remove hs
  | shows => exact keepsLists_shows hs
  | showSub what =>
    have hreads := @keepsLists_iff_onlyReads ⟨.showSub what, args, throws⟩ s hs (by rintro ⟨⟩)
      (executeShow_onlyReads_or_undefined _ args s)
    exact hreads.trans (onlyReads_executeShow_iff what args s)

/-! ## Runs -/

/-- A command that does what it should leaves the lists in line. -/
lemma KeepsLists.aligned {call : ListCommand} {s s' : NodeLists} (h : KeepsLists call s)
    (hs : s.Aligned) (hstep : call.step s = some s') : s'.Aligned := by
  unfold KeepsLists at h
  unfold step at hstep
  rcases hresult : call.execute s with t | ⟨what, t⟩ | _
  · rw [hresult] at h hstep
    obtain rfl := Option.some.inj hstep
    exact h.1
  · rw [hresult] at h hstep
    obtain rfl := Option.some.inj hstep
    obtain ⟨hnodes, hdhts⟩ : t.nodes = s.nodes ∧ t.dhts = s.dhts := h
    rw [NodeLists.Aligned, hnodes, hdhts]
    exact hs
  · rw [hresult] at h
    exact h.elim

/-- From lists in line, all commands of a run do what they should exactly if all are harmless: the
lists are in line as long as this is the case. -/
lemma meets_keepsLists_iff {s : NodeLists} (hs : s.Aligned) (calls : List ListCommand) :
    Run.Meets step KeepsLists calls s ↔ Run.Meets step Harmless calls s := by
  induction calls generalizing s with
  | nil =>
    refine iff_of_true ?_ ?_ <;> intro before call after t hsplit <;> simp at hsplit
  | cons call calls ih =>
    rw [Run.meets_cons, Run.meets_cons, ← keepsLists_iff_harmless hs call]
    refine and_congr_right fun hcall => forall_congr' fun t => ?_
    exact imp_congr_right fun hstep => ih (hcall.aligned hs hstep)

lemma aligned_start (p2pPort apiPort : UInt16) (nodeAmount : ℕ) :
    (NodeLists.start p2pPort apiPort nodeAmount).Aligned := by
  rw [NodeLists.Aligned, NodeLists.start, List.map_map, List.map_map]
  rfl

/-- **The node lists.**  Starting from any number of nodes, every command of a run leaves the two
vectors in line, is defined, leaves them as they were when it reports an error, and removes exactly the
range it is asked to remove, if and only if every command of the run is harmless. -/
theorem keepsLists_iff (p2pPort apiPort : UInt16) (nodeAmount : ℕ) (calls : List ListCommand) :
    Run.Meets step KeepsLists calls (NodeLists.start p2pPort apiPort nodeAmount) ↔
      Run.Meets step Harmless calls (NodeLists.start p2pPort apiPort nodeAmount) :=
  meets_keepsLists_iff (aligned_start p2pPort apiPort nodeAmount) calls

/-- The ways in which a command can go wrong: `add` without nodes, `add` when the port of the api is in
use, `remove 1 4294967295` with two nodes, `remove 0 2` with two nodes when the second thread cannot be
started, and `show data 0` without nodes. -/
theorem not_keepsLists :
    ¬ Run.Meets step KeepsLists [⟨.add, [], none⟩] (NodeLists.start 6002 7002 0) ∧
      ¬ Run.Meets step KeepsLists
        [⟨.add, ["6002".toList], some (.api, "bind: Address already in use")⟩]
        (NodeLists.start 6002 7002 1) ∧
      ¬ Run.Meets step KeepsLists [⟨.remove, ["1".toList, "4294967295".toList], none⟩]
        (NodeLists.start 6002 7002 2) ∧
      ¬ Run.Meets step KeepsLists
        [⟨.remove, ["0".toList, "2".toList],
          some (.deletion 1, "Resource temporarily unavailable")⟩]
        (NodeLists.start 6002 7002 2) ∧
      ¬ Run.Meets step KeepsLists [⟨.shows, ["data".toList, "0".toList], none⟩]
        (NodeLists.start 6002 7002 0) := by
  refine ⟨?_, ?_, ?_, ?_, ?_⟩
  · intro h
    exact h [] _ [] _ rfl rfl
  · intro h
    have hsame := (h [] _ [] _ rfl rfl).1
    simpa using congrArg List.length hsame
  · intro h
    exact h [] _ [] _ rfl rfl
  · intro h
    have hsame := (h [] _ [] _ rfl rfl).2
    cases hsame
  · intro h
    exact h [] _ [] _ rfl rfl

end ListCommand

end ChordPlusPlus
