import Lintel.Process.Listing
import Lintel.Program

/-!
# Running the program

The arguments are those of the command line; the standard input describes the machine on which they
are carried out.
-/

partial def readText (input : IO.FS.Stream) (read : String) : IO String := do
  let line ← input.getLine
  if line.isEmpty then pure read else readText input (read ++ line)

def main (arguments : List String) : IO UInt32 := do
  let listing ← readText (← IO.getStdin) ""
  match Lintel.Machine.ofListing? listing.toList with
  | none =>
      IO.eprintln "error: the description of the machine cannot be read"
      pure 2
  | some m =>
      let display : Lintel.Display :=
        ⟨false, ← IO.getEnv "CLICOLOR", ← IO.getEnv "NO_COLOR", ← IO.getEnv "CLICOLOR_FORCE"⟩
      let e := Lintel.program m display (arguments.map Lintel.bytesOf)
      IO.print e.out
      IO.eprint e.err
      pure e.code.toUInt32
