import ConfTree.Expr.Basic
import ConfTree.Expr.Token

/-!
# Grammar

The rules of the expression language, lowest precedence first. Two rules refer back to themselves,
`expression` inside brackets and branches and `unary` after a sign; each takes a unit before it
does, so the rules of a text are tied together no deeper than the text is long (`rules`).
-/
namespace ConfTree.Grammar

open Reader Token

/-- The rules that other rules refer back to. -/
structure Rules where
  expression : Reader Expr
  unary : Reader Expr

/-- What can follow a primary expression. -/
inductive Suffix where
  | call (args : List Argument)
  | slice (start stop step : Option Expr)
  | index (index : Expr)

def Suffix.attach (object : Expr) : Suffix → Expr
  | .call args => .call object args
  | .slice start stop step => .slice object start stop step
  | .index i => .index object i

variable (r : Rules)

/-! ## Sequences and operators -/

/-- A comma between blanks. -/
def comma : Reader Unit := do blanks; unit ','; blanks

/-- The rest of a comma-separated sequence after its first part; a comma may end it. -/
def more {α : Type} (part : Reader α) : Reader (List α) := do
  let rest ← many (do comma; part)
  discard (maybe (afterBlanks (unit ',')))
  return rest

/-- A comma-separated sequence of at least one part; a comma may end it. -/
def sequence {α : Type} (part : Reader α) : Reader (List α) := do
  let head ← part
  return head :: (← more part)

/-- A closing bracket after blanks. -/
def close (bracket : CodeUnit) : Reader Unit := afterBlanks (unit bracket)

/-- Three dots and an expression. -/
def spread : Reader Expr := do
  literal "..."
  blanks
  r.expression

def item : Reader Item := orElse (Item.spread <$> spread r) (Item.one <$> r.expression)

/-- The second half of a pair: a colon and an expression. -/
def colonValue : Reader Expr := do
  blanks
  unit ':'
  blanks
  r.expression

def pair : Reader Entry := do
  let key ← r.expression
  return .pair key (← colonValue r)

def entry : Reader Entry := orElse (Entry.spread <$> spread r) (pair r)

/-- Operands joined by operators, grouped to the left. -/
def leftAssociative {ω : Type} (operand : Reader Expr) (operator : Reader ω)
    (join : ω → Expr → Expr → Expr) : Reader Expr := do
  let head ← operand
  let tail ← many (do
    blanks
    let op ← operator
    blanks
    return (op,← operand))
  return tail.foldl (fun left next => join next.1 left next.2) head

/-- The operator `mark`, if the unit `not` does not follow it. -/
def operator {ω : Type} (op : ω) (mark : CodeUnit) (not : Option CodeUnit) : Reader ω := do
  unit mark
  notAhead fun u => some u == not
  return op

def multiplicative (unary : Reader Expr) : Reader Expr :=
  leftAssociative unary
    (orElse (operator .multiply '*' (some '*'))
      (orElse (operator .divide '/' none) (operator .modulo '%' none))) .binary

def additive (unary : Reader Expr) : Reader Expr :=
  leftAssociative (multiplicative unary) (orElse (operator .add '+' none) (operator .subtract '-' none)) .binary

/-- The first of the given operators that comes next. -/
def compareOperator : Reader CompareOp :=
  let mark (op : CompareOp) (sign : Text) : Reader CompareOp := do literal sign; return op
  orElse (mark .equal "==") <| orElse (mark .notEqual "!=") <| orElse (mark .lessEqual "<=") <|
  orElse (mark .greaterEqual ">=") <| orElse (mark .less "<") <| orElse (mark .greater ">") <|
  do word "in"; return .member

def comparison (unary : Reader Expr) : Reader Expr := do
  let first ← additive unary
  let rest ← many (do
    blanks
    let op ← compareOperator
    blanks
    return (op,← additive unary))
  return if rest.isEmpty then first else .compare first rest

def logicalAnd (unary : Reader Expr) : Reader Expr :=
  leftAssociative (comparison unary) (do literal "&&"; return .and) .logical

def logicalOr (unary : Reader Expr) : Reader Expr :=
  leftAssociative (logicalAnd unary) (do literal "||"; return .or) .logical

/-- A condition with its two branches, or what would have been the condition. -/
def conditional (unary : Reader Expr) : Reader Expr := do
  let test ← logicalOr unary
  let branches : Reader Expr := do
    blanks
    unit '?'
    blanks
    let consequent ← r.expression
    let alternate ← colonValue r
    return .conditional test consequent alternate
  orElse branches (pure test)

/-! ## Comprehensions and displays -/

def targets : Reader (List Text) :=
  let names : Reader (List Text) := do
    let head ← identifier
    return head :: (← many (do comma; identifier))
  let bracketed : Reader (List Text) := do
    unit '('
    blanks
    let all ← names
    close ')'
    return all
  orElse bracketed names

def eachClause (unary : Reader Expr) : Reader Clause := do
  word "for"
  blanks
  let names ← targets
  blanks
  word "in"
  blanks
  return .each names (← logicalOr unary)

def whenClause (unary : Reader Expr) : Reader Clause := do
  word "if"
  blanks
  return .when (← logicalOr unary)

/-- The clauses of a comprehension after blanks, the first one a `for`. -/
def clauses (unary : Reader Expr) : Reader (List Clause) := do
  blanks
  let head ← eachClause unary
  return head :: (← many (afterBlanks (orElse (eachClause unary) (whenClause unary))))

def listDisplay (unary : Reader Expr) : Reader Expr := do
  unit '['
  blanks
  match ← maybe r.expression with
  | some element =>
    let comprehension : Reader Expr := do
      let cs ← clauses unary
      close ']'
      return .comprehension .list element cs
    let display : Reader Expr := do
      let rest ← more (item r)
      close ']'
      return .list (.one element :: rest)
    orElse comprehension display
  | none =>
    let items ← maybe (sequence (item r))
    close ']'
    return .list (items.getD [])

/-- A display in braces that starts with an expression: a comprehension or display of a mapping if
a colon follows, of a set if not. -/
def braceDisplayFrom (unary : Reader Expr) (first : Expr) : Reader Expr := do
  match ← maybe (colonValue r) with
  | some value =>
    let comprehension : Reader Expr := do
      let cs ← clauses unary
      close '}'
      return .mappingComprehension first value cs
    let display : Reader Expr := do
      let rest ← more (entry r)
      close '}'
      return .mapping (.pair first value :: rest)
    orElse comprehension display
  | none =>
    let comprehension : Reader Expr := do
      let cs ← clauses unary
      close '}'
      return .comprehension .set first cs
    let display : Reader Expr := do
      let rest ← more (item r)
      close '}'
      return .set (.one first :: rest)
    orElse comprehension display

/-- A display in braces that starts with a spread: of a mapping if it can be one, else of a set. -/
def braceDisplayFromSpread : Reader Expr :=
  let mapping : Reader Expr := do
    let entries ← sequence (entry r)
    close '}'
    return .mapping entries
  let set : Reader Expr := do
    let items ← sequence (item r)
    close '}'
    return .set items
  orElse mapping set

def braceDisplay (unary : Reader Expr) : Reader Expr := do
  unit '{'
  blanks
  let empty : Reader Expr := do unit '}'; return .mapping []
  orElse empty do
    match ← maybe r.expression with
    | some first => braceDisplayFrom r unary first
    | none => braceDisplayFromSpread r

/-- A list in round brackets if a comma follows the first item, else an expression in brackets. -/
def parenthesized : Reader Expr := do
  unit '('
  blanks
  let empty : Reader Expr := do unit ')'; return .list []
  orElse empty do
    let head ← item r
    let list : Reader Expr := do
      comma
      let rest ← maybe (sequence (item r))
      close ')'
      return .list (head :: rest.getD [])
    let single : Reader Expr := match head with
      | .one e => do close ')'; return e
      | .spread _ => giveUp
    orElse list single

/-! ## Primaries and what follows them -/

def constant : Reader Expr :=
  let named (w : Text) (value : Literal) : Reader Expr := do word w; return .literal value
  orElse (named "true" (.bool true)) (orElse (named "false" (.bool false)) (named "null" .null))

def primary (unary : Reader Expr) : Reader Expr :=
  orElse ((fun n => .literal (.number n)) <$> number) <|
  orElse ((fun t => .literal (.text t)) <$> quoted) <|
  orElse constant <|
  orElse (Expr.name <$> identifier) <|
  orElse (listDisplay r unary) <|
  orElse (braceDisplay r unary) (parenthesized r)

def argument : Reader Argument :=
  let keyword : Reader Argument := do
    let name ← identifier
    blanks
    operator () '=' (some '=')
    blanks
    return .keyword name (← r.expression)
  orElse (Argument.spread <$> spread r) (orElse keyword (Argument.positional <$> r.expression))

def callSuffix : Reader Suffix := do
  unit '('
  blanks
  let args ← maybe (sequence (argument r))
  close ')'
  return .call (args.getD [])

/-- The step of a slice, if a second colon stands before it. -/
def sliceStep : Reader (Option Expr) := do
  unit ':'
  blanks
  let step ← maybe r.expression
  blanks
  return step

def bracketSuffix : Reader Suffix := do
  unit '['
  blanks
  let first ← maybe r.expression
  let slice : Reader Suffix := do
    blanks
    unit ':'
    blanks
    let stop ← maybe r.expression
    blanks
    let step ← maybe (sliceStep r)
    unit ']'
    return .slice first stop step.join
  let index : Reader Suffix := match first with
    | some i => do close ']'; return .index i
    | none => giveUp
  orElse slice index

def suffixed (unary : Reader Expr) : Reader Expr := do
  let head ← primary r unary
  let suffixes ← many (afterBlanks (orElse (callSuffix r) (bracketSuffix r)))
  return suffixes.foldl Suffix.attach head

/-- A power; its exponent may carry a sign, and it binds tighter than a sign before it. -/
def power (unary : Reader Expr) : Reader Expr := do
  let base ← suffixed r unary
  let raised : Reader Expr := do
    blanks
    literal "**"
    blanks
    return .binary .power base (← r.unary)
  orElse raised (pure base)

/-! ## The rules tied together -/

/-- A sign and an operand, or a power. -/
def signed (operand : Reader Expr) : Reader Expr := do
  let op ← orElse (operator .minus '-' none) (orElse (operator .plus '+' none) (operator .not '!' (some '=')))
  blanks
  return .unary op (← operand)

/-- The rules, with `fuel` levels of reference back. A display refers to operators of its own level
through the level below. -/
def rules : Nat → Rules
  | 0 => ⟨giveUp,giveUp⟩
  | fuel + 1 =>
    let below := rules fuel
    let unary := orElse (signed below.unary) (power below below.unary)
    ⟨conditional below unary,unary⟩

/-- Enough levels for a text, as each takes a unit. -/
def rulesFor (t : Text) : Rules := rules (t.length + 1)

/-- An expression and nothing else. -/
def parseExpression (t : Text) : Except Nat Expr :=
  runAll (do blanks; let e ← (rulesFor t).expression; blanks; return e) t

/-- Expressions separated by commas, perhaps none. -/
def parseList (t : Text) : Except Nat (List Expr) :=
  runAll (do
    blanks
    let es ← maybe (sequence (rulesFor t).expression)
    blanks
    return es.getD []) t

/-- A step of a target: a name or index after a point, or an index or quoted text in brackets. -/
def targetStep : Reader Text :=
  let dotted : Reader Text := do unit '.'; orElse identifier index
  let bracketed : Reader Text := do
    unit '['
    blanks
    let part ← orElse index quoted
    close ']'
    return part
  orElse dotted bracketed

/-- What an assignment sets, in canonical form: parts joined by points. -/
def target : Reader Text := do
  let head ← identifier
  return .join "." (head :: (← many targetStep))

/-- A target and nothing else. -/
def parseTarget (t : Text) : Except Nat Text :=
  runAll (do blanks; let t ← target; blanks; return t) t

def assignment : Reader Assignment := do
  let path ← target
  blanks
  operator () '=' (some '=')
  blanks
  let (e,source) ← withSource r.expression
  return ⟨path,e,source⟩

/-- What stands between two assignments: a semicolon or a line end, with blanks around. -/
def separator : Reader Unit := do
  discard (unitsOf fun u => u == ' ' || u == '\t')
  discard (unitOf fun u => u == ';' || u == '\r' || u == '\n')
  blanks

/-- Assignments, at least one, and nothing else. -/
def parseAssignments (t : Text) : Except Nat (List Assignment) :=
  runAll (do
    blanks
    let head ← assignment (rulesFor t)
    let rest ← many (do separator; assignment (rulesFor t))
    discard (maybe separator)
    blanks
    return head :: rest) t

end ConfTree.Grammar
