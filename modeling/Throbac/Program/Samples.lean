/-!
# Samples

Short sources, the rules that read them, and the C text each becomes.
-/
namespace Throbac

structure Sample where
  source : String
  rule : String
  c : String
  deriving DecidableEq, Repr, Inhabited

def samples : List Sample := [
  ⟨".NIL.", "expr", "0"⟩,
  ⟨".NIL.NIL.VII.", "expr", "7"⟩,
  ⟨".I.II.III.IV.V.VI.VII.VIII.IX.NIL.", "expr", "1234567890"⟩,
  ⟨"^HELLO.WORLD^", "expr", "\"HELLO.WORLD\""⟩,
  ⟨"^^", "expr", "\"\""⟩,
  ⟨"^YO+YOYO++^", "expr", "\"YO\\nYOYO\\n\\n\""⟩,
  ⟨"VERUM", "expr", "1"⟩,
  ⟨"FALSUM", "expr", "0"⟩,
  ⟨"count", "expr", "count"⟩,
  ⟨"asdgefawfawda", "expr", "asdgefawfawda"⟩,
  ⟨"(.V.V.)", "expr", "(55)"⟩,
  ⟨"(.V.)", "expr", "(5)"⟩,
  ⟨".V. CONGERO (.I. ADDO .II.)", "expr", "5 * (1 + 2)"⟩,
  ⟨".I.INFRA.IDEM.V.", "expr", "1 <= 5"⟩,
  ⟨"^HELLO.^IUNGO^WORLD^", "expr", "__throbac_cat(\"HELLO.\",\"WORLD\")"⟩,
  ⟨"(.V. SUBTRAHO (.I. ADDO .II.))", "expr", "(5 - (1 + 2))"⟩,
  ⟨".V. CONGERO (.I. PARTIO .II.)", "expr", "5 * (1 / 2)"⟩,
  ⟨".I. SUBTRAHO .V. CONGERO (.I. PARTIO .II.)", "expr", "1 - 5 * (1 / 2)"⟩,
  ⟨"NI NI NI VERUM", "expr", "(-(-(-1)))"⟩,
  ⟨"APUD VERUM VOCO apple", "funcCall", "apple(1)"⟩,
  ⟨"APUD count VOCO apple", "funcCall", "apple(count)"⟩,
  ⟨"APUD count,VERUM VOCO apple", "expr", "apple(count,1)"⟩,
  ⟨"APUD count,VERUM,rotten VOCO apple", "statement", "apple(count,1,rotten);"⟩,
  ⟨"count .III.VII. VALORUM", "statement", "count = 37;"⟩,
  ⟨"count APUD something VOCO getnum VALORUM", "statement", "count = getnum(something);"⟩,
  ⟨".V. REDEO", "statement", "return 5;"⟩,
  ⟨".I. ADDO .III. CONGERO (.II. SUBTRAHO .I.) REDEO", "statement", "return 1 + 3 * (2 - 1);"⟩,
  ⟨".V.V. NUMERUS.IMPRIMO", "statement", "printf(\"%d\", 55);"⟩,
  ⟨"apples NUMERUS.IMPRIMO", "statement", "printf(\"%d\", apples);"⟩,
  ⟨" ^HELLO^ LOCUTIO.IMPRIMO", "statement", "printf(\"%s\", \"HELLO\");"⟩,
  ⟨"VERUM VERITAS.IMPRIMO", "statement", "printf(\"%s\", (1)?\"True\":\"False\");"⟩,
  ⟨"newint : NUMERUS", "nameDef", "int newint"⟩]

end Throbac
