/-!
Elements are expressions as they are authored: cells and callbacks appear by
name and the kind of a node by its tag. A node carries every field that any
kind of node has; those that its own kind does not use are kept but ignored.
-/

namespace Animation

/-- The fields of an authored node, in the order in which they are declared.
`α` stands for the elements in operand places. -/
structure Fields (α : Type) where
  kind : Option String := none
  a : Option α := none
  b : Option α := none
  others : List α := []
  v : Option α := none
  left : Option α := none
  right : Option α := none
  expr : Option α := none
  ifNode : Option α := none
  elseNode : Option α := none
  source : Option α := none
  target : Option String := none
  nodes : List α := []
  args : List α := []
  callback : Option String := none
  name : Option String := none
  value : Option Float := none

inductive Element where
  | number (value : Float)
  /-- The cell of this name. -/
  | ref (name : String)
  | node (fields : Fields Element)

end Animation
