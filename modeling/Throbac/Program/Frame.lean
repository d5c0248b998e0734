import Throbac.Text.Lines

/-!
# The frame of a generated program

The text before the declarations of every generated program holds the string functions of the
language. The null character within it is written as it is.
-/
namespace Throbac.CText

/-- The text that every generated program starts with. -/
def opening : String := Text.unlines [
  "",
  "/*",
  "",
  "    Throbac Programming Language",
  "",
  "    This code is C transpiled version of the Throbac program.",
  "",
  "",
  "*/",
  "",
  "/*",
  "",
  "    STDLIB",
  "",
  "*/",
  "",
  "#include <stdio.h>",
  "#include <stdlib.h>",
  "#include <string.h>",
  "",
  "char *__throbac_cat(char *first, char *second) \x7b",
  "    size_t length = strlen(first) + strlen(second) + 1;",
  "    void *value = malloc(length);",
  "    if (value == 0) \x7b",
  "        abort();",
  "    \x7d",
  "    strcpy((char *) value, first);",
  "    return strcat((char *) value, second);",
  "\x7d",
  "",
  "int stringlength(char *str) \x7b",
  "    return (int)strlen(str);",
  "\x7d",
  "",
  "char *substring(char* str, int start, int length) \x7b",
  "    if (start < 0 ||  start > length || length > strlen(str) - 1 || start + length > strlen(str)) abort();",
  "    char *sub = malloc(length + 1);",
  "    if (!sub) abort();",
  "",
  "    strncpy(sub, str + start, length);",
  "    sub[length] = '\x00';",
  "",
  "    return sub;",
  "\x7d",
  "",
  "/*",
  "",
  "",
  "    Source",
  "",
  "",
  "*/",
  "",
  "",
  "/*",
  "",
  "    Function Declarations",
  "",
  "*/",
  ""]

def mainComment : String := Text.unlines [
  "",
  "/*",
  "",
  "    Main",
  "",
  "*/",
  ""]

def functionsComment : String := Text.unlines [
  "",
  "/*",
  "",
  "    Implementation",
  "",
  "*/",
  ""]

end Throbac.CText
