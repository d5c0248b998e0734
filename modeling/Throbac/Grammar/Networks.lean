import Throbac.Network.Decode
import Throbac.Grammar.LexerTable
import Throbac.Grammar.ParserTable
import Throbac.Grammar.PathTable

/-!
# The networks of the language

The three networks that the library itself uses, read from their tables.
-/
namespace Throbac.Grammar

def lexerNetwork : Network := (Network.decode lexerTable).toOption.getD {}

def parserNetwork : Network := (Network.decode parserTable).toOption.getD {}

def pathNetwork : Network := (Network.decode pathTable).toOption.getD {}

end Throbac.Grammar
