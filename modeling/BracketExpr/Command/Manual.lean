import BracketExpr.Command.Failure

/-!
# The manual

The reference of the statement language, as pages of lines: an overview, and one page for each
topic. Topics can be asked for under several names, in upper or lower case.
-/

namespace BracketExpr

namespace Command

namespace Manual

/-- The page that lists the topics. -/
def overviewPage : List String :=
  ["DSC EXPRESSION DOCUMENTATION",
   "",
   "Configuration string values are either plain text or a bracketed expression",
   "that an evaluator resolves at run time.",
   "",
   "DOCUMENTATION TOPICS",
   "",
   "  statements        Plain strings, expressions, and the [[ escape",
   "  functions         Function calls and argument kinds",
   "  strings           Quoted strings and the doubled-quote escape",
   "  accessors         Member access and indexing on call results",
   "",
   "QUICK REFERENCE",
   "",
   "  plain text                    String literal, used verbatim",
   "  [[text]                       Escaped literal, value is \"[text]\"",
   "  [name(args)]                  Expression",
   "  'it''s'                       Quoted string holding it's",
   "  .member   [0]   ['key']       Accessors",
   "",
   "Run 'dscexpr docs <topic>' for detailed documentation."]

/-- The page on how a configuration value is classified. -/
def statementsPage : List String :=
  ["STATEMENTS - How a String Value Is Classified",
   "",
   "The first characters decide, in this order:",
   "",
   "ESCAPED LITERAL",
   "  [[text]",
   "    Starts with two '['. The first '[' is dropped and the rest is kept as is,",
   "    whatever it contains.",
   "",
   "    Example:",
   "      Value:  [[resourceId('not', 'evaluated')]",
   "      Result: \"[resourceId('not', 'evaluated')]\"",
   "",
   "EXPRESSION",
   "  [expression]",
   "    Starts with a single '['. Everything up to a final ']' must be one",
   "    expression, and nothing may follow the ']'. A value that starts with '['",
   "    but isn't a valid expression is an error; it never falls back to text.",
   "",
   "    Example:",
   "      Value:  [parameters('location')]",
   "",
   "STRING LITERAL",
   "  anything else",
   "    Used verbatim, including leading and trailing whitespace. The empty",
   "    string is a string literal."]

/-- The page on calls and their arguments. -/
def functionsPage : List String :=
  ["FUNCTIONS - Calls and Arguments",
   "",
   "FUNCTION NAMES",
   "  name(...)   namespace.name(...)",
   "    A letter followed by letters or digits, with at most one dotted suffix.",
   "    Which names exist is up to the evaluator; the parser accepts any name of",
   "    this shape.",
   "",
   "ARGUMENTS",
   "  Separated by commas, in call order. Each argument is one of:",
   "",
   "    42, -1              integer",
   "    'text'              quoted string",
   "    true, false         boolean",
   "    other('x')          nested call, without brackets",
   "",
   "    Example:",
   "      [concat(parameters('prefix'), '-', string(3))]",
   "",
   "WHITESPACE",
   "  Spaces and line breaks may appear between tokens inside the brackets."]

/-- The page on quoted text. -/
def stringsPage : List String :=
  ["STRINGS - Quoted Strings",
   "",
   "  'text'",
   "    Single quotes only. A quote inside the text is written twice.",
   "",
   "    Example:",
   "      'it''s'           holds: it's",
   "      ''''              holds: '",
   "      ''                holds the empty string",
   "",
   "    Strings may span lines. A string with no closing quote is an error."]

/-- The page on member and index steps. -/
def accessorsPage : List String :=
  ["ACCESSORS - Reaching Into Call Results",
   "",
   "MEMBER ACCESS",
   "  call().member",
   "    Member names use letters, digits, '_' and '-'.",
   "",
   "    Example:",
   "      [parameters('config').servers.primary]",
   "",
   "INDEXING",
   "  call()[0]   call()['key']   call()[other('x')]",
   "    An index holds an integer, a quoted property name, or a nested call.",
   "",
   "    Example:",
   "      [variables('list')[variables('index')]]",
   "      [parameters('tags')['cost-center']]",
   "",
   "CHAINING",
   "  Any number of member and index steps may follow a call, in any order.",
   "",
   "    Example:",
   "      [parameters('config').servers[0].name]"]

/-- The topics that have a page. -/
inductive Topic where
  /-- How a configuration value is classified. -/
  | statements
  /-- Calls and their arguments. -/
  | functions
  /-- Quoted text. -/
  | strings
  /-- Member and index steps. -/
  | accessors
  deriving DecidableEq, Repr

namespace Topic

/-- The names under which a topic can be asked for, in lower case. -/
def names : Topic → List String
  | statements => ["statements", "statement", "escaping"]
  | functions => ["functions", "function", "calls", "arguments"]
  | strings => ["strings", "string", "quotes"]
  | accessors => ["accessors", "accessor", "members", "indexing"]

/-- The topic of the given name, in upper or lower case. Only ASCII letters have case here, which
is enough: no name has a letter that is the lower case of a character outside ASCII. -/
def ofName? (name : String) : Option Topic :=
  [statements, functions, strings, accessors].find? fun t => t.names.contains name.toLower

/-- The page of a topic. -/
def page : Topic → List String
  | statements => statementsPage
  | functions => functionsPage
  | strings => stringsPage
  | accessors => accessorsPage

end Topic

/-- The printed form of a page: each of its lines, ended by a line feed. -/
def print (page : List String) : String :=
  String.join (page.map (· ++ "\n"))

/-- The overview, in its printed form. -/
def overview : String :=
  print overviewPage

/-- The printed page of the topic of the given name. -/
def lookUp (name : String) : Except Failure String :=
  match Topic.ofName? name with
  | some topic => .ok (print topic.page)
  | none => .error (.unknownTopic name)

end Manual

end Command

end BracketExpr
