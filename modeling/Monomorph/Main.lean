import Monomorph.Inspect

/-!
# Main — the command line

`dump FILE` prints an assembly, `check FILE` checks its bodies, `config [FILE]` prints the
configuration in force.
-/

namespace Monomorph

/-- Show what an inspection says, and answer the exit code. -/
def report (i : Inspection) : IO UInt32 := do
  IO.print i.output
  match i.failure with
  | none => return 0
  | some f =>
      IO.eprintln ("Error: " ++ f.text)
      return 1

/-- Inspect the content of a file. -/
def inspectFile (path : String) (inspect : String → Inspection) : IO UInt32 := do
  match ← (IO.FS.readFile path).toBaseIO with
  | .ok content => report (inspect content)
  | .error e => report ⟨"", some (.io (path ++ ": " ++ e.toString))⟩

def usage : String :=
  "usage: dump FILE | check FILE | config [FILE]"

end Monomorph

open Monomorph in
def main (args : List String) : IO UInt32 := do
  match args with
  | ["dump", path] => inspectFile path Inspect.dump
  | ["check", path] => inspectFile path Inspect.check
  | ["config", path] => inspectFile path fun content => Inspect.config (some content)
  | ["config"] => report (Inspect.config none)
  | _ =>
      IO.eprintln usage
      return 2
