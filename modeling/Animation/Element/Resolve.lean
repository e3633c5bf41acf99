import Animation.Names
import Animation.Element.Basic
import Animation.Expression.Basic

/-!
Resolving an element replaces its names by what they are bound to. Only the
fields that a node's kind uses are looked at, in the order of declaration, so
whatever else a node carries cannot make it fail. Missing operands are not a
fault here: the expression lacks them just as the element does.
-/

namespace Animation

namespace Element

def valueOf? (names : Names) : Option String → Except Fault (Option Ref)
  | none => pure none
  | some name => some <$> names.value name

def callbackOf? (names : Names) : Option String → Except Fault (Option Callback)
  | none => pure none
  | some name => some <$> names.callback name

mutual

def resolve (names : Names) : Element → Except Fault Expression
  | .number value => pure (.literal value)
  | .ref name => .external <$> names.value name
  | .node ⟨none, _, _, _, _, _, _, _, _, _, _, _, _, _, _, _, _⟩ => throw .missingKind
  | .node ⟨some tag, a, b, others, v, left, right, expr, ifNode, elseNode, source,
      target, nodes, args, callback, name, value⟩ =>
    match Kind.ofTag? tag with
    | none => throw (.unknownKind tag)
    | some (.binary op) => do
      let first ← resolve? names a
      let second ← resolve? names b
      let rest ← resolveAll names others
      pure (.binary op first second rest)
    | some (.unary op) => do
      let operand ← resolve? names v
      pure (.unary op operand)
    | some (.compare op) => do
      let first ← resolve? names left
      let second ← resolve? names right
      pure (.compare op first second)
    | some .cond => do
      let test ← resolve? names expr
      let positive ← resolve? names ifNode
      let negative ← resolve? names elseNode
      pure (.cond test positive negative)
    | some .set => do
      let operand ← resolve? names source
      let cell ← valueOf? names target
      pure (.set operand cell)
    | some .block => do
      let all ← resolveAll names nodes
      pure (.block all)
    | some .call => do
      let all ← resolveAll names args
      let host ← callbackOf? names callback
      pure (.call all host)
    | some .value => do
      let cell ← valueOf? names name
      pure (.value cell)
    | some .number =>
      match value with
      | some literal => pure (.number literal)
      | none => throw (.missingOperand .number .value)

def resolve? (names : Names) : Option Element → Except Fault (Option Expression)
  | none => pure none
  | some element => some <$> resolve names element

def resolveAll (names : Names) : List Element → Except Fault (List Expression)
  | [] => pure []
  | element :: rest => do
    let first ← resolve names element
    let others ← resolveAll names rest
    pure (first :: others)

end

end Element

end Animation
