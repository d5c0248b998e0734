/-!
# Sources of a chosen size

Programs, expressions and faulty snippets on which the recognizers are measured. Each family grows
with a number and is otherwise fixed.
-/
namespace Throbac.Workload

/-- Four functions and the variables of the main part. -/
def declarations : String := "\n".intercalate [
  "// header comment",
  "APUD a : NUMERUS, b : NUMERUS DEFINITIO sum PRAEBET NUMERUS >",
  "    a ADDO b REDEO",
  "<",
  "APUD s : LOCUTIO, t : LOCUTIO DEFINITIO show >",
  "    r : LOCUTIO MUTABILIS",
  "    r s VALORUM",
  "    r LOCUTIO.IMPRIMO",
  "<",
  "APUD p : VERITAS DEFINITIO same PRAEBET VERITAS >",
  "    p VERITAS.IMPRIMO",
  "    p REDEO",
  "<",
  "DEFINITIO greet >",
  "    ^WELCOME^ LOCUTIO.IMPRIMO",
  "    REDEO",
  "<",
  "n : NUMERUS MUTABILIS",
  "text : LOCUTIO MUTABILIS",
  "ok : VERITAS MUTABILIS",
  ""]

/-- The statements that the main part goes through again and again. -/
def statements : Array String := #[
  "n .I.II.III. VALORUM",
  "text ^HELLO^ IUNGO ^WORLD^ VALORUM",
  "ok VERUM VALORUM",
  "text ^+^ VALORUM",
  "n ((n ADDO .III.) SUBTRAHO n) VALORUM",
  "ok DUM > n NUMERUS.IMPRIMO <",
  "VERUM SI > ^GOODBYE^ LOCUTIO.IMPRIMO <",
  "n NUMERUS.IMPRIMO",
  "^HELLO.WORLD^ LOCUTIO.IMPRIMO",
  "ok VERITAS.IMPRIMO"]

/-- The item of a family that is gone through again and again. -/
def cycle {α : Type} [Inhabited α] (items : Array α) (i : Nat) : α :=
  items.getD (i % items.size) default

/-- A program whose main part has `n` statements. -/
def script (n : Nat) : String :=
  declarations ++ "\n".intercalate ((List.range n).map (cycle statements)) ++ "\n"

def operators : Array String := #["ADDO", "SUBTRAHO", "CONGERO", "PARTIO", "IUNGO", "IDEM"]

/-- An expression with `n + 1` operators, each around the expression before. -/
def expression : Nat → String
  | 0 => "(.I.) " ++ cycle operators 0 ++ " .I.I."
  | n + 1 => "(" ++ expression n ++ ") " ++ cycle operators (n + 1) ++ " .I.I."

/-- Sources with errors and the rules that read them. -/
def faulty : Array (String × String) := #[
  ("x : VALORUM", "nameDef"),
  (".I. ADDO ADDO", "statement"),
  ("^UNCLOSED VERUM", "expr"),
  ("DEFINITIO > <", "funcDef"),
  ("@@@ ???", "script"),
  ("VERUM IDEM FALSUM SI", "statement"),
  ("APUD DEFINITIO f", "script"),
  ("DEFINITIO foo > counter : MUTABILIS <", "script")]

end Throbac.Workload
