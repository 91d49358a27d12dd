import ShaderPress.Command

/-! # The program

The first argument names the tool, `minify` or `generate_draw_combinations`; the
others are its arguments.  Files are those of the system.
-/
namespace ShaderPress

/-- A result of the system, with its failure as a fault. -/
def guarded {α : Type} (action : IO α) : IO (Except Fault α) := do
  match ← action.toBaseIO with
  | .ok a => pure (.ok a)
  | .error e => pure (.error (.other (toString e).toList))

instance : Storage IO where
  readText path := guarded do
    let text ← IO.FS.readFile (String.ofList path)
    pure text.toList
  createDirs path :=
    if path = [] then pure (.ok ()) else guarded (IO.FS.createDirAll (String.ofList path))
  writeText path text := guarded (IO.FS.writeFile (String.ofList path) (String.ofList text))

def runTool (tool : String) (args : List String) : IO UInt32 := do
  let (status, failure) ← (Command.run tool.toList (args.map String.toList) : IO _)
  match failure with
  | some e => IO.eprintln (String.ofList e.message)
  | none => pure ()
  pure (UInt32.ofNat status)

end ShaderPress

def main (args : List String) : IO UInt32 :=
  match args with
  | tool :: rest => ShaderPress.runTool tool rest
  | [] => pure 2
