import Docblock.Text.Basic

/-!
# Command lines

A command line names a command, followed by flags and values in any order.  Everything after `--`
is a value.  Arguments are looked at from left to right, and the first one that does not fit
decides what is wrong with the command line.  Whether a value is accepted is asked later, when a
flag follows it or nothing is left.
-/

namespace Docblock

/-- The shells for which completions can be asked. -/
inductive Shell where
  | bash
  | elvish
  | fish
  | powershell
  | zsh
  deriving DecidableEq, Repr

/-- The name of a shell. -/
def Shell.name : Shell → Text
  | .bash => "bash".toList
  | .elvish => "elvish".toList
  | .fish => "fish".toList
  | .powershell => "powershell".toList
  | .zsh => "zsh".toList

/-- The shell with a name. -/
def Shell.ofName? (s : Text) : Option Shell :=
  [Shell.bash, .elvish, .fish, .powershell, .zsh].find? (·.name = s)

/-- What the user asks for. -/
inductive Command where
  /-- Format files, or standard input if none are named. -/
  | format (paths : List Text) (inPlace : Bool)
  /-- Check files, or the sources of the project if none are named. -/
  | check (paths : List Text)
  /-- Show the tree of a comment, or of a type. -/
  | dump (path : Option Text) (asType : Bool)
  /-- Make a manifest. -/
  | init (path : Text) (overwrite : Bool)
  /-- Show completions for a shell. -/
  | completions (shell : Shell)
  deriving DecidableEq, Repr

/-- Why a command line is not carried out. -/
inductive UsageError where
  | noArguments
  | unknownCommand
  | unknownArgument
  | missingValue
  | invalidValue
  | valueForFlag
  | repeatedFlag
  | helpWanted
  | versionWanted
  deriving DecidableEq, Repr

namespace Arguments

/-- A flag: its long name and, if it has one, its letter. -/
structure Flag where
  long : Text
  short : Option Char
  deriving DecidableEq, Repr

/-- What may follow a command: its flags, the most values it takes, if there is a most, and which
values it accepts. -/
structure Form where
  flags : List Flag
  most : Option Nat
  accepts : Text → Bool

/-- What has been given: the long names of flags, and the values. -/
structure Given where
  flags : List Text
  values : List Text
  deriving DecidableEq, Repr

/-- Nothing. -/
def Given.none : Given := ⟨[], []⟩

/-- Look at the values that have been given. They are looked at when a flag comes after them or
when the command line ends, so that an argument that is not known counts first. -/
def Given.settle (form : Form) (g : Given) : Except UsageError Unit :=
  if g.values.all form.accepts then .ok () else .error .invalidValue

/-- Take in a value, if there is room for one. -/
def Given.addValue (form : Form) (g : Given) (value : Text) : Except UsageError Given :=
  if form.most.any (· ≤ g.values.length) then .error .unknownArgument
  else .ok { g with values := g.values ++ [value] }

/-- Take in a flag. A flag may be given once. -/
def Given.addFlag (form : Form) (g : Given) (long : Text) : Except UsageError Given := do
  g.settle form
  if long ∈ g.flags then .error .repeatedFlag else .ok { g with flags := g.flags ++ [long] }

/-- Help is wanted. -/
def Given.askHelp (form : Form) (g : Given) : Except UsageError Given := do
  g.settle form
  .error .helpWanted

/-- Take in letters of flags. -/
def addLetters (form : Form) (g : Given) : Text → Except UsageError Given
  | [] => .ok g
  | c :: rest =>
    if c = 'h' then g.askHelp form
    else match form.flags.find? (·.short = some c) with
      | some flag => do
        let g ← g.addFlag form flag.long
        addLetters form g rest
      | none => .error .unknownArgument

/-- Take in a long name. A flag has no value. -/
def addLong (form : Form) (g : Given) (arg : Text) : Except UsageError Given :=
  let name := arg.takeWhile (· != '=')
  let isHelp := name = "help".toList
  if !isHelp && form.flags.all (·.long ≠ name) then .error .unknownArgument
  else if name.length < arg.length then .error .valueForFlag
  else if isHelp then g.askHelp form
  else g.addFlag form name

/-- Take in what follows a command, one argument after the other. -/
def gather (form : Form) (g : Given) : List Text → Except UsageError Given
  | [] => .ok g
  | arg :: rest =>
    match arg with
    | ['-', '-'] => rest.foldlM (Given.addValue form) g
    | '-' :: '-' :: long => do
      let g ← addLong form g long
      gather form g rest
    | '-' :: c :: letters => do
      let g ← addLetters form g (c :: letters)
      gather form g rest
    | value => do
      let g ← g.addValue form value
      gather form g rest

/-- All of what follows a command. -/
def collect (form : Form) (args : List Text) : Except UsageError Given := do
  let g ← gather form .none args
  g.settle form
  return g

/-! ## The commands -/

/-- The flag that formats files in place. -/
def writeFlag : Flag := ⟨"write".toList, some 'w'⟩

/-- The flag that reads a type. -/
def typeFlag : Flag := ⟨"type".toList, none⟩

/-- The flag that overwrites a manifest. -/
def forceFlag : Flag := ⟨"force".toList, none⟩

/-- The names of the commands. -/
def commandNames : List Text :=
  ["fmt".toList, "check".toList, "dump".toList, "init".toList, "completions".toList,
   "help".toList]

/-- A path has at least one character. -/
def isPath (s : Text) : Bool :=
  !s.isEmpty

/-- Is this the name of a shell? -/
def isShell (s : Text) : Bool :=
  (Shell.ofName? s).isSome

/-- The command with a name, and what follows it. -/
def command (name : Text) (args : List Text) : Except UsageError Command :=
  if name = "fmt".toList then do
    let g ← collect ⟨[writeFlag], none, isPath⟩ args
    return .format g.values (writeFlag.long ∈ g.flags)
  else if name = "check".toList then do
    let g ← collect ⟨[], none, isPath⟩ args
    return .check g.values
  else if name = "dump".toList then do
    let g ← collect ⟨[typeFlag], some 1, isPath⟩ args
    return .dump g.values.head? (typeFlag.long ∈ g.flags)
  else if name = "init".toList then do
    let g ← collect ⟨[forceFlag], some 1, isPath⟩ args
    return .init (g.values.head?.getD ['.']) (forceFlag.long ∈ g.flags)
  else if name = "completions".toList then do
    let g ← collect ⟨[], some 1, isShell⟩ args
    match g.values.head?.bind Shell.ofName? with
    | some shell => return .completions shell
    | none => .error .missingValue
  else .error .unknownCommand

/-- The answer to `help` and the names after it: help on a command that exists. -/
def help : List Text → UsageError
  | [] => .helpWanted
  | [name] => if name ∈ commandNames then .helpWanted else .unknownCommand
  | _ => .unknownCommand

/-- The flags that may stand before a command. -/
def topForm : Form := ⟨[⟨"version".toList, some 'V'⟩], some 0, isPath⟩

/-- What flags in place of a command ask for. The first of several letters decides. -/
def topFlag (arg : Text) : UsageError :=
  let given := match arg with
    | '-' :: '-' :: long => addLong topForm .none long
    | letters => addLetters topForm .none (letters.drop 1 |>.take 1)
  match given with
  | .ok _ => .versionWanted
  | .error e => e

/-- The answer to values in place of a command: a command is not a value, and a value is not a
command. -/
def topValue : List Text → UsageError
  | [] => .noArguments
  | name :: _ => if name ∈ commandNames then .unknownArgument else .unknownCommand

/-- The command of a command line. -/
def parse : List Text → Except UsageError Command
  | [] => .error .noArguments
  | name :: args =>
    if name = "help".toList then .error (help args)
    else if name = "--".toList then .error (topValue args)
    else if name.head? = some '-' && 1 < name.length then .error (topFlag name)
    else command name args

end Arguments

end Docblock
