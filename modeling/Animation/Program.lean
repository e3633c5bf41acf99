import Animation.Expression.Operator
import Animation.Pass

/-!
Programs are expressions that can be run: every required operand is there and
every name has been resolved. Running a program is one pass, which always has
a result; running it again makes another pass over whatever the store holds
by then.
-/

namespace Animation

inductive Program where
  | constant (value : Float)
  | read (source : Ref)
  | fold (op : FoldOp) (first : Program) (rest : List Program)
  | unary (op : UnaryOp) (v : Program)
  | compare (op : Comparison) (left right : Program)
  | cond (expr ifNode elseNode : Program)
  | set (source : Program) (target : Option Ref)
  | block (nodes : List Program)
  | call (args : List Program) (callback : Option Callback)

namespace Program

mutual

/-- One pass. Operands are evaluated from left to right, each exactly once,
but of the two branches of a choice only one. -/
def run : Program → Pass Float
  | .constant value => pure value
  | .read source => Pass.read source
  | .fold op first rest => do
    let start ← run first
    let values ← runAll rest
    pure (values.foldl op.apply start)
  | .unary op v => do
    let x ← run v
    pure (op.apply x)
  | .compare op left right => do
    let x ← run left
    let y ← run right
    pure (op.apply x y)
  | .cond expr ifNode elseNode => do
    let x ← run expr
    if Number.isTrue x then run ifNode else run elseNode
  | .set source target => do
    let x ← run source
    match target with
    | some cell => Pass.write cell x
    | none => pure ()
    pure x
  | .block nodes => do
    let values ← runAll nodes
    pure (values.getLastD 0)
  | .call args callback => do
    let values ← runAll args
    match callback with
    | some host => Pass.invoke host values
    | none => pure ()
    pure 0

def runAll : List Program → Pass (List Float)
  | [] => pure []
  | program :: rest => do
    let value ← run program
    (value :: ·) <$> runAll rest

end

/-- Makes `count` passes in a row and collects their results. -/
def runTimes (program : Program) : Nat → Pass (List Float)
  | 0 => pure []
  | count + 1 => do
    let value ← run program
    (value :: ·) <$> runTimes program count

end Program

end Animation
