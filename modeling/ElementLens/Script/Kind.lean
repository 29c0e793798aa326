/-
Terminals, constructs and kinds of scripts.

The text of a script is divided into terminals: marks and words that are
always spelled the same, and names, numbers and pieces of literals that are
not. Two terminals may be empty or read off the context: the semicolon that a
line break implies, and the question mark of a condition, which is told apart
from other marks that begin with it.

Constructs are what the grammar spells with terminals. Some of them only
gather others and do not show in the tree.

The tree has a leaf for each terminal and a branch for each construct that
shows; a name may be shown as the role it plays.
-/

namespace ElementLens.Script

/-- What a text is divided into. Fragments are pieces of strings, a reference
is a character reference such as `&amp;`. -/
inductive Terminal where
  | endOfText | name | number | comment | markupComment
  | impliedSemicolon | conditionMark
  | templateText | escape | doubleFragment | singleFragment
  | regexBody | regexEnd | regexFlags
  | privateName | staticGet | hashbang
  | jsxText | hyphenName | reference | jsxDoubleFragment | jsxSingleFragment
  | literal (text : String)
deriving DecidableEq, Repr

/-- What the grammar spells. -/
inductive Construct where
  | program
  -- gathering others
  | statement | declaration | expression | primary | pattern
  | moduleExportName | fromClause | forHeader | jsxString | compoundTarget | initializer
  | destructuring | memberName
  -- modules
  | exportStatement | namespaceExport | exportClause | exportSpecifier
  | importWord | importStatement | importClause | namespaceImport | namedImports
  | importSpecifier | importAttribute
  -- statements
  | expressionStatement | variableDeclaration | lexicalDeclaration | declarator
  | block | elseClause | ifStatement | switchStatement | forStatement | forInStatement
  | whileStatement | doStatement | tryStatement | withStatement | breakStatement
  | continueStatement | debuggerStatement | returnStatement | throwStatement | emptyStatement
  | labeledStatement | switchBody | switchCase | switchDefault | catchClause | finallyClause
  -- expressions
  | parenthesized | yieldExpression | object | objectPattern | assignmentPattern
  | shorthandDefault | array | arrayPattern
  | call | newExpression | awaitExpression | member | subscript | assignment
  | compoundAssignment | spread | ternary | binary | unary | update | sequence
  | string | template | substitution | regex | metaProperty | arguments
  -- functions and classes
  | functionExpression | functionDeclaration | generatorExpression | generatorDeclaration
  | arrowFunction | parameters | restPattern
  | classExpression | classDeclaration | heritage | classBody | field | staticBlock | method
  | decorator | decoratorMember | decoratorCall
  | pair | pairPattern | computedName
  -- markup in scripts
  | jsxElement | jsxExpression | jsxOpeningTag | jsxClosingTag | jsxSelfClosingTag
  | jsxAttribute | jsxNamespaceName | nestedName
deriving DecidableEq, Repr

/-- What a leaf or branch of the tree of a script is. -/
inductive Kind where
  | blank
  | unreadable
  | terminal (t : Terminal)
  | construct (c : Construct)
  | propertyName
  | shorthand
  | shorthandPattern
  | label
deriving DecidableEq, Repr

instance : Inhabited Kind := ⟨.blank⟩

/-- The literals that are values or names by themselves. -/
def Terminal.namedLiterals : List String :=
  ["this", "super", "true", "false", "null", "undefined", "?."]

/-- Whether a terminal is a part of its construct, other than by marking its
structure. -/
def Terminal.isNamed : Terminal → Bool
  | endOfText | impliedSemicolon | conditionMark | regexEnd | staticGet => false
  | literal text => namedLiterals.contains text
  | _ => true

/-- Whether a construct shows in the tree, and does not only gather others. -/
def Construct.isShown : Construct → Bool
  | statement | declaration | expression | primary | pattern
  | moduleExportName | fromClause | forHeader | jsxString | compoundTarget | initializer
  | destructuring | memberName => false
  | _ => true

/-- Whether a construct is no more than another name for what it consists of
and has no say of its own in how a text is read. -/
def Construct.isTransparent : Construct → Bool
  | moduleExportName | fromClause | forHeader | jsxString | compoundTarget | initializer
  | destructuring | memberName => true
  | _ => false

namespace Kind

/-- Whether a child of this kind counts as a part of its construct. Comments
do. -/
def isNamed : Kind → Bool
  | blank => false
  | terminal t => t.isNamed
  | _ => true

/-- Whether a leaf of this kind stands between tokens. -/
def isTrivia : Kind → Bool
  | blank | terminal .comment | terminal .markupComment => true
  | _ => false

end Kind

end ElementLens.Script
