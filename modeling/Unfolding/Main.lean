import Unfolding.Sample

/-!
The command line: write the samples into the current directory.
-/

open Unfolding

def runStep (step : Sample.Step) : IO Unit := do
  for line in step.traced do
    IO.eprintln line
  IO.FS.writeFile step.file.name step.file.text
  IO.println step.notice

def main : IO UInt32 := do
  match Sample.steps with
  | .error fault =>
      IO.eprintln fault.message
      return 1
  | .ok steps =>
      for step in steps do
        runStep step
      return 0
