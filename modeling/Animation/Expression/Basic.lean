import Animation.Callback
import Animation.Expression.Kind

/-!
Expression trees. A tree is made of numbers, readings of cells, and nodes of
nine families. Operands that a node cannot do without are optional here all
the same: a tree may be assembled piece by piece, and compiling it tells
what is missing.
-/

namespace Animation

inductive Expression where
  /-- A number, used as it stands. -/
  | literal (value : Float)
  /-- The reading of a cell. -/
  | external (source : Ref)
  /-- The operands `a`, `b` and the others, folded from the left. -/
  | binary (op : FoldOp) (a b : Option Expression) (others : List Expression)
  | unary (op : UnaryOp) (v : Option Expression)
  | compare (op : Comparison) (left right : Option Expression)
  /-- One of two branches. A missing `elseNode` stands for 0. -/
  | cond (expr ifNode elseNode : Option Expression)
  /-- Writes the source to the target, if there is one, and yields the source. -/
  | set (source : Option Expression) (target : Option Ref)
  /-- The nodes in order, yielding the last; 0 if there are none. -/
  | block (nodes : List Expression)
  /-- Hands the arguments to the callback, if there is one, and yields 0. -/
  | call (args : List Expression) (callback : Option Callback)
  /-- The reading of a cell, as a node. Without a source there is no reading. -/
  | value (source : Option Ref)
  /-- A number, as a node. -/
  | number (value : Float)

namespace Expression

/-- The kind of a node. Numbers and readings that are not nodes have none. -/
def kind? : Expression → Option Kind
  | .literal _ | .external _ => none
  | .binary op .. => some (.binary op)
  | .unary op _ => some (.unary op)
  | .compare op .. => some (.compare op)
  | .cond .. => some .cond
  | .set .. => some .set
  | .block _ => some .block
  | .call .. => some .call
  | .value _ => some .value
  | .number _ => some .number

/-- A fold of two operands and any number of others. -/
def fold (op : FoldOp) (a b : Expression) (others : List Expression) : Expression :=
  .binary op (some a) (some b) others

def apply (op : UnaryOp) (v : Expression) : Expression :=
  .unary op (some v)

def comparison (op : Comparison) (left right : Expression) : Expression :=
  .compare op (some left) (some right)

/-- A choice between two branches, the second of which may be left out. -/
def choice (expr ifNode : Expression) (elseNode : Option Expression) : Expression :=
  .cond (some expr) (some ifNode) elseNode

def store (source : Expression) (target : Ref) : Expression :=
  .set (some source) (some target)

/-- A function applied to `v`, `count` times over. -/
def iterate (op : UnaryOp) (count : Nat) (v : Expression) : Expression :=
  count.repeat (apply op) v

end Expression

end Animation
