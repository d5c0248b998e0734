import Throbac.Recognition

/-!
# What a command prints

A command writes to two channels and ends in one of three ways: it runs to its end, it leaves with
an exit code, or something interrupts it.
-/
namespace Throbac

structure Console where
  out : String := ""
  err : String := ""
  deriving DecidableEq, Repr, Inhabited

inductive Stop
  | exit (code : Nat)
  | interrupted (cause : Interruption)
  deriving Inhabited

abbrev ConsoleM := EStateM Stop Console

namespace ConsoleM

def write (s : String) : ConsoleM Unit := modify fun c => { c with out := c.out ++ s }

def print (s : String) : ConsoleM Unit := write (s ++ "\n")

def complain (s : String) : ConsoleM Unit := modify fun c => { c with err := c.err ++ s ++ "\n" }

def exit {α : Type} (code : Nat) : ConsoleM α := throw (.exit code)

end ConsoleM

structure Outcome where
  exit : Option Nat := none
  console : Console := {}
  cause : Option Interruption := none
  deriving Inhabited

def ConsoleM.run {α : Type} (m : ConsoleM α) : Outcome :=
  match m {} with
  | .ok _ console => { console }
  | .error (.exit code) console => { exit := some code, console }
  | .error (.interrupted cause) console => { console, cause := some cause }

def greeting (name : String) : String := "Hi, " ++ name ++ "\n"

end Throbac
