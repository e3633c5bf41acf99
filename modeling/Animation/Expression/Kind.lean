/-!
The kinds of expression nodes. Thirty of the thirty-six kinds are operators of
three families; the other six have a shape of their own. Every kind has a tag,
the word that names it in documents and messages.
-/

namespace Animation

/-- Operators that fold two or more operands from the left. -/
inductive FoldOp where
  | add | sub | multiply | divide | pow | modulo | max | min | and | or
  deriving DecidableEq, Repr

/-- Functions of one operand. -/
inductive UnaryOp where
  | abs | sqrt | log | sin | cos | tan | acos | asin | atan | exp
  | round | ceil | floor | not
  deriving DecidableEq, Repr

/-- Comparisons of two operands. -/
inductive Comparison where
  | eq | neq | lessThan | greaterThan | lessOrEq | greaterOrEq
  deriving DecidableEq, Repr

inductive Kind where
  | binary (op : FoldOp)
  | unary (op : UnaryOp)
  | compare (op : Comparison)
  | cond | set | block | call | value | number
  deriving DecidableEq, Repr

def FoldOp.all : List FoldOp :=
  [.add, .sub, .multiply, .divide, .pow, .modulo, .max, .min, .and, .or]

def UnaryOp.all : List UnaryOp :=
  [.abs, .sqrt, .log, .sin, .cos, .tan, .acos, .asin, .atan, .exp,
    .round, .ceil, .floor, .not]

def Comparison.all : List Comparison :=
  [.eq, .neq, .lessThan, .greaterThan, .lessOrEq, .greaterOrEq]

/-- Every kind once, operators first. -/
def Kind.all : List Kind :=
  FoldOp.all.map .binary ++ UnaryOp.all.map .unary ++ Comparison.all.map .compare ++
    [.cond, .set, .block, .call, .value, .number]

def FoldOp.tag : FoldOp → String
  | .add => "add"
  | .sub => "sub"
  | .multiply => "multiply"
  | .divide => "divide"
  | .pow => "pow"
  | .modulo => "modulo"
  | .max => "max"
  | .min => "min"
  | .and => "and"
  | .or => "or"

def UnaryOp.tag : UnaryOp → String
  | .abs => "abs"
  | .sqrt => "sqrt"
  | .log => "log"
  | .sin => "sin"
  | .cos => "cos"
  | .tan => "tan"
  | .acos => "acos"
  | .asin => "asin"
  | .atan => "atan"
  | .exp => "exp"
  | .round => "round"
  | .ceil => "ceil"
  | .floor => "floor"
  | .not => "not"

def Comparison.tag : Comparison → String
  | .eq => "eq"
  | .neq => "neq"
  | .lessThan => "lessThan"
  | .greaterThan => "greaterThan"
  | .lessOrEq => "lessOrEq"
  | .greaterOrEq => "greaterOrEq"

def Kind.tag : Kind → String
  | .binary op => op.tag
  | .unary op => op.tag
  | .compare op => op.tag
  | .cond => "cond"
  | .set => "set"
  | .block => "block"
  | .call => "call"
  | .value => "value"
  | .number => "number"

/-- The kind with this tag. Tags are compared exactly, letter case included. -/
def Kind.ofTag? (text : String) : Option Kind :=
  Kind.all.find? fun kind => kind.tag == text

/-- The operand fields a node may require. -/
inductive Field where
  | a | b | v | left | right | expr | ifNode | source | value
  deriving DecidableEq, Repr

/-- The name of a field in documents and messages. -/
def Field.name : Field → String
  | .a => "a"
  | .b => "b"
  | .v => "v"
  | .left => "left"
  | .right => "right"
  | .expr => "expr"
  | .ifNode => "ifNode"
  | .source => "source"
  | .value => "value"

theorem Kind.mem_all (kind : Kind) : kind ∈ Kind.all := by
  cases kind with
  | binary op => cases op <;> decide
  | unary op => cases op <;> decide
  | compare op => cases op <;> decide
  | _ => decide

theorem Kind.nodup_all : Kind.all.Nodup := by decide

/-- Tags identify kinds, so a document can name every kind. -/
theorem Kind.ofTag?_tag (kind : Kind) : Kind.ofTag? kind.tag = some kind := by
  cases kind with
  | binary op => cases op <;> decide
  | unary op => cases op <;> decide
  | compare op => cases op <;> decide
  | _ => decide

end Animation
