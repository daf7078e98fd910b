/-! Words for a POSIX shell. -/

namespace StageTree.Shell

/-- A quoted character: a single quote closes the quotes, stands escaped, and opens them again. -/
def quoteChar (c : Char) : List Char := if c = '\'' then ['\'', '\\', '\'', '\''] else [c]

/-- A text as one word between single quotes. -/
def quoteChars (cs : List Char) : List Char := '\'' :: cs.flatMap quoteChar ++ ['\'']

/-- A text as one word between single quotes. -/
def quote (s : String) : String := String.ofList (quoteChars s.toList)

end StageTree.Shell
