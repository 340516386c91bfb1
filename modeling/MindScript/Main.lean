import MindScript.Host.Demo

/-- Run the demonstration with the arguments and variables of the process. -/
def main (args : List String) : IO UInt32 := do
  let values ← MindScript.Settings.variableNames.mapM fun name ↦ do
    return (name, ← IO.getEnv name)
  let output := MindScript.Demo.run .ample (fun name ↦ (values.lookup name).join) args
  IO.print output.out
  IO.eprint output.err
  return output.exit.toUInt32
