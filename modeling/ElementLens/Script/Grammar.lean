/-
The grammar of scripts.

The rules say how each construct is spelled. Where two readings of a text
fit, levels decide which operator binds tighter and sides how operators of
one level are grouped; what they leave open is read in both ways until one of
them fails, and ranks decide if none does.

* **`rules`** — the rules;
* **`grammar`** and **`table`** — the grammar and the table computed from it.
-/
import ElementLens.Grammar.Table
import ElementLens.Script.Kind

namespace ElementLens.Script

open Grammar (Rule)

/-- Rules of scripts. -/
abbrev ScriptRule := Rule (Terminal ⊕ Construct) Kind

instance : Coe String ScriptRule := ⟨fun s => .symbol (.inl (.literal s))⟩

instance : Coe Terminal ScriptRule := ⟨fun t => .symbol (.inl t)⟩

instance : Coe Construct ScriptRule := ⟨fun c => .symbol (.inr c)⟩

namespace ScriptRule

/-- A rule at a level. -/
def on (level : String) (r : ScriptRule) : ScriptRule := .level (some level) none r

/-- A rule at a level that groups from the left. -/
def leftOn (level : String) (r : ScriptRule) : ScriptRule := .level (some level) (some .left) r

/-- A rule at a level that groups from the right. -/
def rightOn (level : String) (r : ScriptRule) : ScriptRule := .level (some level) (some .right) r

/-- A rule that groups from the left. -/
def left (r : ScriptRule) : ScriptRule := .level none (some .left) r

/-- A rule that groups from the right. -/
def right (r : ScriptRule) : ScriptRule := .level none (some .right) r

/-- One or more times a rule, with commas between. -/
def commas1 (r : ScriptRule) : ScriptRule := .sepBy1 "," r

/-- Any number of times a rule, with commas between. -/
def commas (r : ScriptRule) : ScriptRule := .sepBy "," r

/-- A rule in braces. -/
def braces (r : ScriptRule) : ScriptRule := .seqOf ["\x7b", r, "\x7d"]

/-- A rule in parentheses. -/
def parens (r : ScriptRule) : ScriptRule := .seqOf ["(", r, ")"]

/-- A rule in brackets. -/
def brackets (r : ScriptRule) : ScriptRule := .seqOf ["[", r, "]"]

/-- A literal between two quotes, made of pieces. -/
def quoted (quote : String) (pieces : List ScriptRule) : ScriptRule :=
  .seqOf [quote, .many (.altOf pieces), quote]

end ScriptRule

open Grammar.Rule ScriptRule Construct

/-! ### Parts that several rules share -/

/-- Words that are reserved in some places and names in others. -/
def reservedName : ScriptRule :=
  altOf ["get", "set", "async", "static", "export", "let"]

/-- A name, also if it is a reserved word. -/
def anyName : ScriptRule := alt Terminal.name reservedName

/-- A reserved word, shown as a name. -/
def reservedAsName : ScriptRule := shown (.terminal .name) reservedName

/-- A name shown as that of a property. -/
def property : ScriptRule := shown .propertyName Terminal.name

/-- One expression, or several with commas between. -/
def expressions : ScriptRule := alt expression sequence

/-- The end of a statement. -/
def semicolon : ScriptRule := alt Terminal.impliedSemicolon ";"

/-- What may stand on the left of an assignment. -/
def target : ScriptRule :=
  altOf [member, subscript, "undefined", Terminal.name, reservedAsName, destructuring]

/-- A parameter of a function. -/
def parameter : ScriptRule := alt pattern assignmentPattern

/-- What a declaration introduces. -/
def binding : ScriptRule := alt Terminal.name destructuring

/-- Things in an array or in arguments; any of them may be left out. -/
def items : ScriptRule := commas (opt (alt expression spread))

/-- An element of markup, with content or without. -/
def jsxAny : ScriptRule := alt jsxElement jsxSelfClosingTag

/-- A plain name in markup, shown under a kind. -/
def jsxName (k : Kind) : ScriptRule := shown k (alt Terminal.hyphenName Terminal.name)

/-- The name of a tag. -/
def jsxTagName : ScriptRule :=
  altOf [jsxName (.terminal .name), nestedName, jsxNamespaceName]

/-- The attributes of a tag. -/
def jsxAttributes : ScriptRule := many (alt jsxAttribute jsxExpression)

/-- The operators that join two operands, with their levels. -/
def binaryOperators : List (String × String) :=
  [("&&", "and"), ("||", "or"), (">>", "shift"), (">>>", "shift"), ("<<", "shift"),
    ("&", "bitAnd"), ("^", "bitXor"), ("|", "bitOr"), ("+", "plus"), ("-", "plus"),
    ("*", "times"), ("/", "times"), ("%", "times"), ("**", "power"), ("<", "relation"),
    ("<=", "relation"), ("==", "equality"), ("===", "equality"), ("!=", "equality"),
    ("!==", "equality"), (">=", "relation"), (">", "relation"), ("??", "condition"),
    ("instanceof", "relation"), ("in", "relation")]

/-- The rule of an operator that joins two operands. -/
def binaryRule (operator level : String) : ScriptRule :=
  let first : ScriptRule := if operator = "in" then alt expression Terminal.privateName
    else expression
  let r : ScriptRule := seqOf [first, operator, expression]
  if operator = "**" then rightOn level r else leftOn level r

/-- The operators that change what they assign to. -/
def compoundOperators : List ScriptRule :=
  ["+=", "-=", "*=", "/=", "%=", "^=", "&=", "|=", ">>=", ">>>=", "<<=", "**=", "&&=", "||=",
    "??="]

/-! ### Rules -/

/-- Rules of modules. -/
def moduleRules : List (Construct × ScriptRule) :=
  [ (program, seq (opt Terminal.hashbang) (many statement)),
    (exportStatement, alt
      (seqOf ["export",
        altOf [seq "*" fromClause, seq namespaceExport fromClause, seq exportClause fromClause,
          exportClause],
        semicolon])
      (seqOf [many decorator, "export",
        alt declaration (seq "default" (alt declaration (seq expression semicolon)))])),
    (namespaceExport, seqOf ["*", "as", moduleExportName]),
    (exportClause, braces (seq (commas exportSpecifier) (opt ","))),
    (exportSpecifier, seq moduleExportName (opt (seq "as" moduleExportName))),
    (moduleExportName, alt Terminal.name string),
    (declaration, altOf [functionDeclaration, generatorDeclaration, classDeclaration,
      lexicalDeclaration, variableDeclaration]),
    (importWord, "import"),
    (importStatement, seqOf ["import", alt (seq importClause fromClause) string,
      opt importAttribute, semicolon]),
    (importClause, altOf [namespaceImport, namedImports,
      seq Terminal.name (opt (seq "," (alt namespaceImport namedImports)))]),
    (fromClause, seq "from" string),
    (namespaceImport, seqOf ["*", "as", Terminal.name]),
    (namedImports, braces (seq (commas importSpecifier) (opt ","))),
    (importSpecifier, alt Terminal.name
      (seqOf [alt moduleExportName (shown (.terminal .name) "default"), "as", Terminal.name])),
    (importAttribute, seq "with" object) ]

/-- Rules of statements. -/
def statementRules : List (Construct × ScriptRule) :=
  [ (statement, altOf [exportStatement, importStatement, debuggerStatement, expressionStatement,
      declaration, block, ifStatement, switchStatement, forStatement, forInStatement,
      whileStatement, doStatement, tryStatement, withStatement, breakStatement,
      continueStatement, returnStatement, throwStatement, emptyStatement, labeledStatement]),
    (expressionStatement, seq expressions semicolon),
    (variableDeclaration, seqOf ["var", commas1 declarator, semicolon]),
    (lexicalDeclaration, seqOf [alt "let" "const", commas1 declarator, semicolon]),
    (declarator, seq binding (opt initializer)),
    (block, right (seq (braces (many statement)) (opt Terminal.impliedSemicolon))),
    (elseClause, seq "else" statement),
    (ifStatement, right (seqOf ["if", parenthesized, statement, opt elseClause])),
    (switchStatement, seqOf ["switch", parenthesized, switchBody]),
    (forStatement, seqOf ["for", "(",
      altOf [lexicalDeclaration, variableDeclaration, seq expressions ";", emptyStatement],
      alt (seq expressions ";") emptyStatement, opt expressions, ")", statement]),
    (forInStatement, seqOf ["for", opt "await", forHeader, statement]),
    (forHeader, parens (seqOf [
      altOf [target, parenthesized,
        seqOf ["var", binding, opt initializer],
        seqOf [alt "let" "const", binding, opt Terminal.impliedSemicolon]],
      alt "in" "of", expressions])),
    (whileStatement, seqOf ["while", parenthesized, statement]),
    (doStatement, right (seqOf ["do", statement, "while", parenthesized, opt semicolon])),
    (tryStatement, seqOf ["try", block, opt catchClause, opt finallyClause]),
    (withStatement, seqOf ["with", parenthesized, statement]),
    (breakStatement, seqOf ["break", opt (shown .label Terminal.name), semicolon]),
    (continueStatement, seqOf ["continue", opt (shown .label Terminal.name), semicolon]),
    (debuggerStatement, seq "debugger" semicolon),
    (returnStatement, seqOf ["return", opt expressions, semicolon]),
    (throwStatement, seqOf ["throw", expressions, semicolon]),
    (emptyStatement, ";"),
    (labeledStatement, rank (-1) (seqOf [shown .label anyName, ":", statement])),
    (switchBody, braces (many (alt switchCase switchDefault))),
    (switchCase, seqOf ["case", expressions, ":", many statement]),
    (switchDefault, seqOf ["default", ":", many statement]),
    (catchClause, seqOf ["catch", opt (parens binding), block]),
    (finallyClause, seq "finally" block) ]

/-- Rules of expressions. -/
def expressionRules : List (Construct × ScriptRule) :=
  [ (parenthesized, parens expressions),
    (expression, altOf [primary, jsxElement, jsxSelfClosingTag, assignment, compoundAssignment,
      awaitExpression, unary, binary, ternary, update, newExpression, yieldExpression]),
    (primary, altOf [subscript, member, parenthesized, "undefined", Terminal.name, reservedAsName,
      "this", "super", Terminal.number, string, template, regex, "true", "false", "null", object,
      array, functionExpression, arrowFunction, generatorExpression, classExpression,
      metaProperty, call]),
    (yieldExpression, right (seq "yield" (alt (seq "*" expression) (opt expression)))),
    (object, on "object" (braces (commas (opt
      (altOf [pair, spread, method, shown .shorthand anyName]))))),
    (objectPattern, on "object" (braces (commas (opt
      (altOf [pairPattern, restPattern, shorthandDefault, shown .shorthandPattern anyName]))))),
    (assignmentPattern, seqOf [pattern, "=", expression]),
    (shorthandDefault, seqOf [alt (shown .shorthandPattern anyName) destructuring, "=",
      expression]),
    (array, brackets items),
    (arrayPattern, brackets (commas (opt parameter))) ]

/-- Rules of markup in scripts. -/
def jsxRules : List (Construct × ScriptRule) :=
  [ (jsxElement, seqOf [jsxOpeningTag,
      many (altOf [Terminal.jsxText, Terminal.reference, jsxAny, jsxExpression]),
      jsxClosingTag]),
    (jsxExpression, braces (opt (altOf [expression, sequence, spread]))),
    (jsxOpeningTag, rank (-1) (seqOf ["<", opt (seq jsxTagName jsxAttributes), ">"])),
    (nestedName, on "member" (seqOf [alt Terminal.name nestedName, ".", property])),
    (jsxNamespaceName, seqOf [jsxName (.terminal .name), ":", jsxName (.terminal .name)]),
    (jsxClosingTag, seqOf ["</", opt jsxTagName, ">"]),
    (jsxSelfClosingTag, seqOf ["<", jsxTagName, jsxAttributes, "/>"]),
    (jsxAttribute, seq (alt (jsxName .propertyName) jsxNamespaceName)
      (opt (seq "=" (altOf [jsxString, jsxExpression, jsxAny])))),
    (jsxString, alt
      (quoted "\"" [Terminal.jsxDoubleFragment, Terminal.reference])
      (quoted "'" [Terminal.jsxSingleFragment, Terminal.reference])) ]

/-- Rules of classes and functions. -/
def functionRules : List (Construct × ScriptRule) :=
  [ (classExpression, on "literal" (seqOf [many decorator, "class", opt Terminal.name,
      opt heritage, classBody])),
    (classDeclaration, on "declare" (seqOf [many decorator, "class", Terminal.name,
      opt heritage, classBody, opt Terminal.impliedSemicolon])),
    (heritage, seq "extends" expression),
    (functionExpression, on "literal" (seqOf [opt "async", "function", opt Terminal.name,
      parameters, block])),
    (functionDeclaration, rightOn "declare" (seqOf [opt "async", "function", Terminal.name,
      parameters, block, opt Terminal.impliedSemicolon])),
    (generatorExpression, on "literal" (seqOf [opt "async", "function", "*", opt Terminal.name,
      parameters, block])),
    (generatorDeclaration, rightOn "declare" (seqOf [opt "async", "function", "*", Terminal.name,
      parameters, block, opt Terminal.impliedSemicolon])),
    (arrowFunction, seqOf [opt "async", altOf [reservedAsName, Terminal.name, parameters], "=>",
      alt expression block]) ]

/-- Rules of operators. -/
def operatorRules : List (Construct × ScriptRule) :=
  [ (call, altOf [
      on "call" (seq (alt expression importWord) arguments),
      on "templateCall" (seq (alt primary newExpression) template),
      on "member" (seqOf [primary, "?.", arguments])]),
    (newExpression, rightOn "new" (seqOf ["new", alt primary newExpression,
      opt (rank 1 arguments)])),
    (awaitExpression, on "unary" (seq "await" expression)),
    (member, on "member" (seqOf [altOf [expression, primary, importWord], alt "." "?.",
      alt Terminal.privateName property])),
    (subscript, rightOn "member" (seqOf [alt expression primary, opt "?.",
      brackets expressions])),
    (assignment, rightOn "assign" (seqOf [alt parenthesized target, "=", expression])),
    (compoundTarget, altOf [member, subscript, reservedAsName, Terminal.name, parenthesized]),
    (compoundAssignment, rightOn "assign" (seqOf [compoundTarget, altOf compoundOperators,
      expression])),
    (initializer, seq "=" expression),
    (destructuring, alt objectPattern arrayPattern),
    (spread, seq "..." expression),
    (ternary, rightOn "condition" (seqOf [expression, Terminal.conditionMark, expression, ":",
      expression])),
    (binary, altOf (binaryOperators.map fun o => binaryRule o.1 o.2)),
    (unary, leftOn "unary" (seq (altOf ["!", "~", "-", "+", "typeof", "void", "delete"])
      expression)),
    (update, left (alt (seq expression (alt "++" "--")) (seq (alt "++" "--") expression))),
    (sequence, right (commas1 expression)) ]

/-- Rules of literals and of the parts of classes. -/
def memberRules : List (Construct × ScriptRule) :=
  [ (string, alt (quoted "\"" [Terminal.doubleFragment, Terminal.escape])
      (quoted "'" [Terminal.singleFragment, Terminal.escape])),
    (template, quoted "\x60" [Terminal.templateText, Terminal.escape, substitution]),
    (substitution, seqOf ["$\x7b", expressions, "\x7d"]),
    (regex, seqOf ["/", Terminal.regexBody, Terminal.regexEnd, opt Terminal.regexFlags]),
    (metaProperty, alt (seqOf ["new", ".", "target"]) (seqOf ["import", ".", "meta"])),
    (arguments, parens items),
    (decorator, seq "@" (altOf [Terminal.name, decoratorMember, decoratorCall])),
    (decoratorMember, on "member" (seqOf [alt Terminal.name decoratorMember, ".", property])),
    (decoratorCall, on "call" (seq (alt Terminal.name decoratorMember) arguments)),
    (classBody, braces (many (altOf [seq method (opt ";"), seq field semicolon, staticBlock,
      ";"]))),
    (field, seqOf [many decorator, opt "static", memberName, opt initializer]),
    (parameters, parens (opt (seq (commas1 parameter) (opt ",")))),
    (staticBlock, seq "static" block),
    (pattern, rank (-1) (alt target restPattern)),
    (restPattern, right (seq "..." target)),
    (method, seqOf [many decorator, opt (alt "static" Terminal.staticGet), opt "async",
      opt (altOf ["get", "set", "*"]), memberName, parameters, block]),
    (pair, seqOf [memberName, ":", expression]),
    (pairPattern, seqOf [memberName, ":", parameter]),
    (memberName, altOf [shown .propertyName anyName, Terminal.privateName, string,
      Terminal.number, computedName]),
    (computedName, brackets expression) ]

/-- All rules; that of a whole script comes first. -/
def rules : List (Construct × ScriptRule) :=
  moduleRules ++ statementRules ++ expressionRules ++ jsxRules ++ functionRules ++ operatorRules
    ++ memberRules

/-- The construct that a rule number belongs to. -/
def constructAt? : Nat → Option Construct :=
  let all := (rules.map Prod.fst).toArray
  fun i => all[i]?

/-- The literals of the rules, each once. -/
def literals : List String :=
  ((rules.flatMap fun r => r.2.symbols).filterMap fun
    | .inl (.literal text) => some text
    | _ => none).eraseDups

/-- All terminals: those that are not literals come first. -/
def terminals : List Terminal :=
  [.endOfText, .name, .number, .comment, .markupComment, .impliedSemicolon, .conditionMark,
    .templateText, .escape, .doubleFragment, .singleFragment, .regexBody, .regexEnd, .regexFlags,
    .privateName, .staticGet, .hashbang, .jsxText, .hyphenName, .reference, .jsxDoubleFragment,
    .jsxSingleFragment] ++ literals.map .literal

/-- The number of a terminal. -/
def Terminal.index (t : Terminal) : Nat := terminals.findIdx (· == t)

/-- The terminal with a number. -/
def terminalAt? : Nat → Option Terminal :=
  let all := terminals.toArray
  fun i => all[i]?

/-- The levels, from the one that binds tightest, and the constructs that
count as levels. -/
def order : List (List (String ⊕ Construct)) :=
  [ [.inl "member", .inl "templateCall", .inl "call", .inr update, .inl "unary", .inl "power",
      .inl "times", .inl "plus", .inl "shift", .inl "relation", .inl "equality", .inl "bitAnd",
      .inl "bitXor", .inl "bitOr", .inl "and", .inl "or", .inl "condition", .inr sequence,
      .inr arrowFunction],
    [.inl "assign", .inr primary],
    [.inl "member", .inl "templateCall", .inl "new", .inl "call", .inr expression],
    [.inl "declare", .inl "literal"],
    [.inr primary, .inr block, .inl "object"],
    [.inr metaProperty, .inr importWord],
    [.inr importStatement, .inr importWord],
    [.inr exportStatement, .inr primary],
    [.inr lexicalDeclaration, .inr primary] ]

/-- The grammar of scripts. -/
def grammar : Grammar.Ruleset Terminal Construct Kind where
  terminals := terminals
  rules := rules
  transparent := Construct.isTransparent
  order := order

/-- The table of the grammar. -/
def table : Grammar.Table Kind := Grammar.Table.ofRuleset grammar

end ElementLens.Script
