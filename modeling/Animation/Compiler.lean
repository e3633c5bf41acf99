import Animation.Expression.Basic
import Animation.Fault
import Animation.Program

/-!
Compiling turns an expression into a program or finds the first fault in it.
Two things can be wrong: a node lacks a required operand, or nodes are nested
deeper than the compiler allows. Both branches of a choice are compiled, so a
program has no fault left in a branch that is rarely taken.

A compiler can be used again after any outcome: it counts the nodes it is
inside of, and it leaves a node also when it leaves with a fault.
-/

namespace Animation

structure Limits where
  /-- How many nodes may be nested inside each other. -/
  maxDepth : UInt64 := 256
  deriving DecidableEq, Repr

/-- A compiler; its `depth` is the number of nodes that it is inside of. -/
structure Compiler where
  limits : Limits := {}
  depth : UInt64 := 0
  deriving DecidableEq, Repr

namespace Compiler

/-- A computation of a compiler, which stays usable when there is a fault. -/
abbrev Action := ExceptT Fault (StateM Compiler)

/-- Does `body` one node further inside, if the limit allows. -/
def inside {α : Type} (body : Action α) : Action α := fun compiler =>
  if compiler.limits.maxDepth ≤ compiler.depth then
    (.error (.tooDeep compiler.limits.maxDepth), compiler)
  else
    let (result, after) := body { compiler with depth := compiler.depth + 1 }
    (result, { after with depth := after.depth - 1 })

mutual

/-- Fields are compiled in the order in which a node declares them, and the
first fault ends it. Numbers and readings outside of nodes are free. -/
def program : Expression → Action Program
  | .literal value => pure (.constant value)
  | .external source => pure (.read source)
  | .binary op a b others => inside do
    let first ← required (.binary op) .a a
    let second ← required (.binary op) .b b
    let rest ← programs others
    pure (.fold op first (second :: rest))
  | .unary op v => inside do
    let operand ← required (.unary op) .v v
    pure (.unary op operand)
  | .compare op left right => inside do
    let first ← required (.compare op) .left left
    let second ← required (.compare op) .right right
    pure (.compare op first second)
  | .cond expr ifNode elseNode => inside do
    let test ← required .cond .expr expr
    let positive ← required .cond .ifNode ifNode
    let negative ← orZero elseNode
    pure (.cond test positive negative)
  | .set source target => inside do
    let operand ← required .set .source source
    pure (.set operand target)
  | .block nodes => inside do
    let all ← programs nodes
    pure (.block all)
  | .call args callback => inside do
    let all ← programs args
    pure (.call all callback)
  | .value (some source) => inside (pure (.read source))
  | .value none => inside (pure (.constant Number.nan))
  | .number value => inside (pure (.constant value))

def required (kind : Kind) (field : Field) : Option Expression → Action Program
  | some operand => program operand
  | none => throw (.missingOperand kind field)

def orZero : Option Expression → Action Program
  | some operand => program operand
  | none => pure (.constant 0)

def programs : List Expression → Action (List Program)
  | [] => pure []
  | operand :: rest => do
    let first ← program operand
    let others ← programs rest
    pure (first :: others)

end

/-- Compiles an expression with this compiler, and gives the compiler back. -/
def compile (compiler : Compiler) (expression : Expression) :
    Except Fault Program × Compiler :=
  program expression compiler

end Compiler

/-- Compiles an expression on its own. -/
def Expression.compile (expression : Expression) (limits : Limits) :
    Except Fault Program :=
  (Compiler.compile { limits } expression).1

end Animation
