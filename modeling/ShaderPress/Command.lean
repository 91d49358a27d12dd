import ShaderPress.Job

/-! # The command line

Arguments are read from left to right: options with or without a value, short
options in clusters, and paths.  All arguments after a double hyphen are paths.  An
option that is not repeatable may come once.  A command ends with 0 when its job is
done, with 1 when it failed, and with 2 when its arguments make no command.
-/
namespace ShaderPress

structure OptionTable where
  /-- The long names of the options that take a value. -/
  values : List (List Char)
  /-- The long names of the switches, which may come once. -/
  switches : List (List Char)
  /-- Short names with the long ones they stand for. -/
  short : List (Char × List Char)
  maxPaths : Option Nat
deriving DecidableEq, Repr

namespace OptionTable

/-- The switch that may be repeated. -/
def verbose : List Char := "verbose".toList

def minify : OptionTable where
  values := ["outdir".toList, "rename-map".toList]
  switches := ["human-readable".toList, "strict".toList]
  short := [('o', "outdir".toList), ('H', "human-readable".toList), ('v', verbose)]
  maxPaths := none

def combinations : OptionTable where
  values := ["manifest".toList]
  switches := ["all".toList]
  short := [('m', "manifest".toList), ('v', verbose)]
  maxPaths := some 1

end OptionTable

structure Arguments where
  values : List (List Char × List Char)
  switches : List (List Char)
  paths : List (List Char)
deriving DecidableEq, Repr

inductive UsageError where
  | help
  | wrong
deriving DecidableEq, Repr

namespace Arguments

def addPath (t : OptionTable) (a : Arguments) (path : List Char) : Except UsageError Arguments :=
  if path = [] ∨ t.maxPaths = some a.paths.length then .error .wrong
  else .ok { a with paths := a.paths ++ [path] }

def addValue (a : Arguments) (name value : List Char) : Except UsageError Arguments :=
  if value = [] ∨ (a.values.lookup name).isSome then .error .wrong
  else .ok { a with values := (name, value) :: a.values }

def addSwitch (a : Arguments) (name : List Char) : Except UsageError Arguments :=
  if name ≠ OptionTable.verbose ∧ name ∈ a.switches then .error .wrong
  else .ok { a with switches := name :: a.switches }

/-- What an argument leaves open: nothing, or an option that waits for its value. -/
abbrev Step := Except UsageError (Arguments × Option (List Char))

def closed (a : Except UsageError Arguments) : Step := a.map (·, none)

def long (t : OptionTable) (a : Arguments) (name : List Char) (value : Option (List Char)) : Step :=
  if name ∈ t.values then
    match value with
    | some value => closed (a.addValue name value)
    | none => .ok (a, some name)
  else if value.isSome then .error .wrong
  else if name = "help".toList ∨ name = "version".toList then .error .help
  else if name ∈ t.switches ∨ name = OptionTable.verbose then closed (a.addSwitch name)
  else .error .wrong

/-- A cluster of short options; the first that takes a value takes the rest as its value. -/
def cluster (t : OptionTable) (a : Arguments) : List Char → Step
  | [] => .ok (a, none)
  | c :: cs =>
    match t.short.lookup c with
    | none => .error (if c = 'h' ∨ c = 'V' then .help else .wrong)
    | some name =>
      if name ∈ t.values then
        match cs with
        | [] => .ok (a, some name)
        | '=' :: value => closed (a.addValue name value)
        | value => closed (a.addValue name value)
      else
        match a.addSwitch name with
        | .error e => .error e
        | .ok next => cluster t next cs

/-- An argument that does not follow an option waiting for its value. -/
def add (t : OptionTable) (a : Arguments) : List Char → Step
  | '-' :: '-' :: s =>
    let name := s.takeWhile (· != '=')
    match s.drop name.length with
    | [] => a.long t name none
    | _ :: value => a.long t name (some value)
  | ['-'] => closed (a.addPath t ['-'])
  | '-' :: s => a.cluster t s
  | path => closed (a.addPath t path)

/-- An argument that cannot be the value of an option. -/
def looksLikeOption : List Char → Bool
  | '-' :: _ :: _ => true
  | _ => false

/-- Reads arguments; `waiting` is an option whose value comes next. -/
def read (t : OptionTable) (a : Arguments) (waiting : Option (List Char)) :
    List (List Char) → Except UsageError Arguments
  | [] => if waiting.isSome then .error .wrong else .ok a
  | arg :: args =>
    match waiting with
    | some name =>
      if looksLikeOption arg then .error .wrong
      else do read t (← a.addValue name arg) none args
    | none =>
      if arg = ['-', '-'] then args.foldlM (addPath t) a
      else do
        let (next, waiting) ← a.add t arg
        read t next waiting args

def ofList (t : OptionTable) (args : List (List Char)) : Except UsageError Arguments :=
  read t ⟨[], [], []⟩ none args

end Arguments

inductive Command where
  | minify (files : List (List Char)) (outdir : List Char) (options : MinifyOptions)
      (renameMap : Option (List Char))
  | combinations (output : List Char) (manifest : Option (List Char)) (all : Bool)
deriving DecidableEq, Repr

namespace Command

def minify? (args : List (List Char)) : Except UsageError Command := do
  let a ← Arguments.ofList .minify args
  match a.values.lookup "outdir".toList, a.paths with
  | none, _ | _, [] => .error .wrong
  | some outdir, files =>
    let options : MinifyOptions := {
      humanReadable := a.switches.contains "human-readable".toList
      unknown := if a.switches.contains "strict".toList then .reject else .pass }
    .ok (.minify files outdir options (a.values.lookup "rename-map".toList))

def combinations? (args : List (List Char)) : Except UsageError Command := do
  let a ← Arguments.ofList .combinations args
  match a.paths with
  | [output] =>
    .ok (.combinations output (a.values.lookup "manifest".toList)
      (a.switches.contains "all".toList))
  | _ => .error .wrong

def ofArguments (tool : List Char) (args : List (List Char)) : Except UsageError Command :=
  if tool = "minify".toList then minify? args
  else if tool = "generate_draw_combinations".toList then combinations? args
  else .error .wrong

variable {m : Type → Type} [Monad m] [Storage m]

def job : Command → Job m Unit
  | minify files outdir options renameMap => do
    let minified ← Job.minifyFiles files outdir options
    match renameMap with
    | some path => Job.writeRenameMap path minified
    | none => pure ()
  | combinations output manifest all => do
    let u ← Job.loadUniverse manifest
    let _ ← Job.generate u all output
    pure ()

/-- The exit status of a command line, with the failure of its job. -/
def run (tool : List Char) (args : List (List Char)) : m (Nat × Option JobError) :=
  match ofArguments tool args with
  | .error .help => pure (0, none)
  | .error .wrong => pure (2, none)
  | .ok command => do
    match ← (command.job : Job m Unit).run with
    | .ok () => pure (0, none)
    | .error e => pure (1, some e)

end Command

end ShaderPress
