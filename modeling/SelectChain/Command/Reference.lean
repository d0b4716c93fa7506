/-!
# The grammar reference

The text that the `grammar` command shows.
-/

namespace SelectChain.Command

def referenceLines : List String :=
  ["RDD2DF GRAMMAR",
    "",
    "rdd2df translates one collection pipeline per file into a chain of",
    "column-expression calls.",
    "",
    "GRAMMAR",
    "",
    "  Program     := sc.range(<number>, <number>) MapOps .collect()",
    "  MapOps      := ( .map(UDF) )*",
    "  UDF         := <identifier> => Body",
    "  Body        := \x7b ComplexExpr \x7d | SimpleExpr",
    "  SimpleExpr  := ( PureExpr, PureExpr, ... ) | PureExpr",
    "  ComplexExpr := ( val <identifier> = PureExpr ; )* SimpleExpr",
    "  PureExpr    := <identifier> | <identifier>.<identifier> | <number>",
    "               | ( PureExpr )",
    "               | PureExpr Op PureExpr",
    "               | if ( PureExpr Comp PureExpr ) PureExpr else PureExpr",
    "  Op          := + | - | * | %",
    "  Comp        := == | != | < | > | <= | >=",
    "",
    "Comments start with # or // and run to the end of the line.",
    "",
    "TRANSLATION",
    "",
    "  sc                          spark",
    "  range(1,10)                 range(1,10).selectExpr(\x22id as _1\x22)",
    "  .map(x => x + 1)            .selectExpr(\x22_1 + 1 as _1\x22)",
    "  .map(x => (x, x * 2))       .selectExpr(\x22_1 as _1\x22, \x22_1 * 2 as _2\x22)",
    "  .map(p => p._1 + p._2)      .selectExpr(\x22_1 + _2 as _1\x22)",
    "  .map(x => \x7b val y = x % 3; y \x7d)",
    "                              .selectExpr(\x22_1 % 3 as _1\x22)",
    "  .map(x => if (x > 5) x else 0)",
    "                              .selectExpr(\x22if(_1 > 5, _1, 0) as _1\x22)",
    "  .collect()                  .collect()",
    "",
    "ERRORS",
    "",
    "  lexical   a line contains characters that form no token",
    "  syntax    the pipeline does not match the grammar",
    "  semantic  a name is used before declaration, bound twice, or a number",
    "            appears in a field access",
    "",
    "EXAMPLE",
    "",
    "  echo 'sc.range(0,100).map(x => x * 2).collect()' | rdd2df check"]

def reference : String :=
  String.join (referenceLines.map (· ++ "\n"))

end SelectChain.Command
