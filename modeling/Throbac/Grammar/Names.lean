import Throbac.Vocabulary

/-!
# Names of symbols and rules

The lexer and the parser of the language number the symbols alike; the lexer's table of symbolic
names lists only the symbols without a literal.
-/
namespace Throbac.Grammar

def literalNames : Array String := #[
    "<INVALID>", "'APUD'", "','", "'DEFINITIO'", "'PRAEBET'", "'>'", "'<'", "'MUTABILIS'", "':'",
    "'VALORUM'", "'DUM'", "'SI'", "'ALUID'", "'NUMERUS.IMPRIMO'", "'LOCUTIO.IMPRIMO'",
    "'VERITAS.IMPRIMO'", "'REDEO'", "'('", "')'", "'NI'", "'NEGANS'", "'CONGERO'", "'PARTIO'",
    "'ADDO'", "'SUBTRAHO'", "'IUNGO'", "'IDEM'", "'NI.IDEM'", "'INFRA'", "'INFRA.IDEM'", "'SUPRA'",
    "'SUPRA.IDEM'", "'VOCO'"]

/-- The symbols that have a name rather than a literal, as the lexer lists them. -/
def lexerSymbolicNames : Array String := #[
    "<INVALID>", "NUMBER", "STRING", "BOOL", "TYPE", "ID", "WS", "COMMENT"]

/-- The symbolic names by symbol; those with a literal have none. -/
def symbolicNames : Array String :=
  Array.replicate 33 Vocabulary.unnamed ++ lexerSymbolicNames.extract 1 8

def vocabulary : Vocabulary := ⟨literalNames, symbolicNames⟩

def ruleNames : Array String := #[
    "script", "funcDef", "main", "body", "varDec", "nameDef", "varBlock", "block", "statement",
    "expr", "funcCall"]

def lexerRuleNames : Array String :=
  (Array.range 32).map (fun i : Nat => s!"T__{i}") ++
    #["NUMBER", "DIGIT", "STRING", "BOOL", "TYPE", "ID", "WS", "COMMENT"]

def pathSymbolicNames : Array String := #[
    "<INVALID>", "TOKEN_REF", "RULE_REF", "ANYWHERE", "ROOT", "WILDCARD", "BANG", "ID", "STRING"]

end Throbac.Grammar
