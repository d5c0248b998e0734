import Throbac.Program.Samples
import Throbac.Program.Translate
import Throbac.Command.Console

/-!
# The self-test

Translates the samples and compares each with the C text it should become. All samples make one
test, which fails once for every sample that differs.
-/
namespace Throbac.SelfTest

def passes (s : Sample) : Bool :=
  match noted (translate s.source s.rule) with
  | .ok c => c == s.c
  | .error _ => false

def failures (samples : List Sample) : List Sample := samples.filter (!passes ·)

/-- The report of a run with `n` failures that took the given time. -/
def report (n : Nat) (elapsed : String) : ConsoleM Unit := do
  let marks := if n = 0 then "." else String.ofList (List.replicate n 'F')
  let rule := String.ofList (List.replicate 70 '-')
  ConsoleM.complain (marks ++ "\n" ++ rule)
  ConsoleM.complain ("Ran 1 test in " ++ elapsed ++ "\n")
  ConsoleM.complain (if n = 0 then "OK" else s!"FAILED (failures={n})")
  ConsoleM.exit (if n = 0 then 0 else 1)

end Throbac.SelfTest
