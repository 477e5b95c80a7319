import ConfTree.Number.Decimal

/-!
# What can go wrong in an expression

One case for each way an expression can be refused, read wrongly or fail, with the words of each.
-/
namespace ConfTree

/-- Why an expression has no value. -/
inductive EvalIssue where
  /-- the embedding program's own words -/
  | reported (message : Text) (expression identifier : Option Text) (column : Option Number)
  /-- the source is longer than allowed -/
  | tooLong (source : Text) (limit : Number)
  /-- the source is no expression; the column counts from one -/
  | malformed (source : Text) (column : Nat)
  /-- an error of the embedding program reached the evaluator -/
  | interrupted (source message : Text)
  /-- an error of the embedding program ended a call -/
  | callFailed (callee message : Text)
  | undefinedName (name : Text)
  | notCallable (callee type : Text)
  | repeatedKeyword (callee keyword : Text)
  | keyType (type : Text)
  | spreadIntoMapping (type : Text)
  | unpack (type : Text) (names : List Text)
  | operands (sign left right : Text)
  | unaryOperand (sign type : Text)
  | divisionByZero
  | moduloByZero
  | memberOfText (type : Text)
  | notContainer (type : Text)
  | notIterable (type : Text)
  | notSubscriptable (type : Text)
  | notSliceable (type : Text)
  | indexType (type : Text)
  | indexRange (index : Number) (length : Nat)
  | missingKey (key : Text)
  | sliceBound (bound type : Text)
  | zeroStride
  /-- a function takes some number of arguments by position -/
  | positionals (function : Text) (least most given : Nat)
  /-- a modifier or node function takes some number of arguments -/
  | arguments (function : Text) (least most given : Nat)
  /-- a function takes one argument and was given more of them -/
  | atMostOne (function : Text) (given : Nat)
  | singleArgument (function : Text) (given : Nat)
  | expectsNumber (function type : Text)
  | expectsInteger (function : Text)
  | expectsMapping (function type : Text)
  | expectsNode (function type : Text)
  | expectsLevels (function type : Text)
  | expectsAddress (function type : Text)
  | expectsText (function type : Text)
  | emptySequence (function : Text)
  | zeroRangeStep
  | noLength (type : Text)
  | separatorType (type : Text)
  | variableType (type : Text)
  | cast (target type display : Text)
  | expectsPairs (display : Text)
  | notOneChild (container : Text) (count : Nat)
  | childOf (type : Text)
  | rawValueOf (type : Text)
  | keywordsForNode
  | expectsCallable (type : Text)
  | expectsBase (type : Text)
  | variablesType (type : Text)
  | fallbackType (display : Text)
  | noOptions
  | tooManyOptions (given : Nat)

namespace EvalIssue

/-- Stands for the sentence that names what was expected in place of what was found. -/
def expectation : Text := "<syntax>"

/-- A number of arguments, or the two ends of a range of numbers. -/
def amount (least most : Nat) : Text :=
  if least = most then .ofNat least else .concat [.ofNat least," to ",.ofNat most]

def message : EvalIssue → Text
  | reported message .. => message
  | tooLong source limit =>
    .concat ["Expression of length ",.ofNat source.length," exceeds the maximum of ",limit.text]
  | malformed source column =>
    .concat ["Invalid expression '",source,"' at column ",.ofNat column,": ",expectation]
  | interrupted source message => .concat ["Error evaluating '",source,"': ",message]
  | callFailed callee message => .concat ["Call to ",callee,"() failed: ",message]
  | undefinedName name => .concat ["Name '",name,"' is not defined"]
  | notCallable callee type => .concat ["'",callee,"' of type ",type," is not callable"]
  | repeatedKeyword callee keyword =>
    .concat [callee,"() got multiple values for keyword argument '",keyword,"'"]
  | keyType type => .concat ["Mapping keys must be str, not ",type]
  | spreadIntoMapping type => .concat ["Cannot spread ",type," into a mapping"]
  | unpack type names =>
    .concat ["Cannot unpack ",type," into ",.ofNat names.length," names (",.join ", " names,")"]
  | operands sign left right =>
    .concat ["Unsupported operand types for ",sign,": ",left," and ",right]
  | unaryOperand sign type => .concat ["Bad operand type for unary ",sign,": ",type]
  | divisionByZero => "Division by zero"
  | moduloByZero => "Modulo by zero"
  | memberOfText type => .concat ["'in <str>' requires a str on the left, got ",type]
  | notContainer type => .concat ["Argument of type ",type," does not support 'in'"]
  | notIterable type => .concat ["Value of type ",type," is not iterable"]
  | notSubscriptable type => .concat ["Value of type ",type," is not subscriptable"]
  | notSliceable type => .concat ["Value of type ",type," cannot be sliced"]
  | indexType type => .concat ["Indices must be integers, not ",type]
  | indexRange index length =>
    .concat ["Index ",index.text," out of range for length ",.ofNat length]
  | missingKey key => .concat ["Key ",key," not found"]
  | sliceBound bound type => .concat ["Slice ",bound," must be an integer, not ",type]
  | zeroStride => "Slice step cannot be zero"
  | positionals function least most given =>
    .concat [function,"() takes ",amount least most," positional arguments but ",.ofNat given," were given"]
  | arguments function least most given =>
    .concat [function,"() takes ",amount least most," arguments but ",.ofNat given," were given"]
  | atMostOne function given => .concat [function,"() takes at most 1 argument (",.ofNat given," given)"]
  | singleArgument function given =>
    .concat [function,"() takes 1 argument but ",.ofNat given," were given"]
  | expectsNumber function type => .concat [function,"() expects a number, got ",type]
  | expectsInteger function => .concat [function,"() expects an int, got float"]
  | expectsMapping function type => .concat [function,"() expects a dict, got ",type]
  | expectsNode function type => .concat [function,"() expects a node, got ",type]
  | expectsLevels function type => .concat [function,"() levels must be a positive int, got ",type]
  | expectsAddress function type => .concat [function,"() expects a reference string, got ",type]
  | expectsText function type => .concat [function,"() expects a non-empty str, got ",type]
  | emptySequence function => .concat [function,"() arg is an empty sequence"]
  | zeroRangeStep => "range() arg 3 must not be zero"
  | noLength type => .concat ["Object of type ",type," has no len()"]
  | separatorType type => .concat ["join() separator must be str, got ",type]
  | variableType type => .concat ["env() expects a variable name, got ",type]
  | cast target type display => .concat ["Cannot convert ",type," ",display," to ",target]
  | expectsPairs display => .concat ["dict() expects [key, value] pairs with str keys, got ",display]
  | notOneChild container count =>
    .concat ["child() expects exactly one child, ",container," has ",.ofNat count]
  | childOf type => .concat ["child() expects a mapping or sequence node, got ",type]
  | rawValueOf type => .concat ["raw_value() expects a scalar node, got ",type]
  | keywordsForNode => "Nodes take no keyword arguments"
  | expectsCallable type => .concat ["cast() expects a callable, got ",type]
  | expectsBase type => .concat ["extends() expects a node or a reference string, got ",type]
  | variablesType type => .concat ["load() vars must be a dict, got ",type]
  | fallbackType display => .concat ["choices() default must be a str key, got ",display]
  | noOptions => "choices() needs at least one option"
  | tooManyOptions given =>
    .concat ["choices() with named options takes at most 2 arguments but ",.ofNat given," were given"]

/-- The source text that a report names. -/
def expression? : EvalIssue → Option Text
  | reported _ expression .. => expression
  | tooLong source _ => some (source.take 80)
  | malformed source _ | interrupted source _ => some source
  | _ => none

/-- The name that a report blames. -/
def identifier? : EvalIssue → Option Text
  | reported _ _ identifier _ => identifier
  | undefinedName name => some name
  | _ => none

/-- The column that a report points at. -/
def column? : EvalIssue → Option Number
  | reported _ _ _ column => column
  | malformed _ column => some (.ofNat column)
  | _ => none

end EvalIssue
end ConfTree
