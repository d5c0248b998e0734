import Throbac.Command.Bulk
import Throbac.Command.Rig
import Throbac.Command.SelfTest

/-!
# The command line

Without arguments the program translates the folder of sources. The word `rig` runs the test rig
with the arguments behind it, `check` the self-test, and `greet` says hello.
-/
namespace Throbac

/-- Writes what a command has printed and gives its exit code. -/
def finish (o : Outcome) : IO UInt32 := do
  (← IO.getStdout).putStr o.console.out
  (← IO.getStderr).putStr o.console.err
  match o.cause with
  | some cause =>
    IO.eprintln (Bulk.showCause cause)
    return 1
  | none => return UInt32.ofNat (o.exit.getD 0)

def bytesOf (content : ByteArray) : List Nat := content.toList.map UInt8.toNat

def readAll (folder : String) (names : List String) : IO (List (String × List Nat)) :=
  names.filterMapM fun (name : String) => do
    try
      return some (Paths.within folder name, bytesOf (← IO.FS.readBinFile name))
    catch _ => return none

def runRig (args : List String) : IO UInt32 := do
  let folder := toString (← IO.currentDir)
  let input ← if Rig.readsInput args then (← IO.getStdin).readToEnd else pure ""
  finish (Rig.run { program := "rig", folder, files := ← readAll folder args, input } args).run

def runBulk : IO UInt32 := do
  let here ← IO.currentDir
  let target := here / Bulk.targetFolder
  IO.FS.createDirAll target
  for f in ← target.readDir do
    if Bulk.isC f.fileName then IO.FS.removeFile f.path
  let sources ← (← (here / Bulk.sourceFolder).readDir).toList.mapM fun f => do
    return (f.fileName, bytesOf (← IO.FS.readBinFile f.path))
  match Bulk.run sources [] {} with
  | .ok files console =>
    for (name, c) in files do IO.FS.writeFile (target / name) c
    finish { console }
  | .error _ console => finish { console }

/-- A time in milliseconds as seconds with three places. -/
def showSeconds (ms : Nat) : String :=
  let rest := toString (ms % 1000)
  s!"{ms / 1000}." ++ String.ofList (List.replicate (3 - rest.length) '0') ++ rest ++ "s"

def runCheck : IO UInt32 := do
  let start ← IO.monoMsNow
  let failed ← IO.lazyPure fun _ => (SelfTest.failures samples).length
  let stop ← IO.monoMsNow
  finish (SelfTest.report failed (showSeconds (stop - start))).run

end Throbac

def main (args : List String) : IO UInt32 :=
  match args with
  | [] => Throbac.runBulk
  | "rig" :: rest => Throbac.runRig rest
  | "check" :: _ => Throbac.runCheck
  | "greet" :: name :: _ => Throbac.finish (Throbac.ConsoleM.write (Throbac.greeting name)).run
  | _ => do
    IO.eprintln "usage: throbac [rig ARGUMENTS | check | greet NAME]"
    return 2
