import Animation.Decimal.Layout
import Animation.Store

/-!
Descriptions of cells, for people who look into a store. Describing a cell is
not reading it: a derived cell does not count it, and its rule is not shown.
-/

namespace Animation.Store

def describe (store : Store) (ref : Ref) : String :=
  match store.cells[ref.index]? with
  | some (.slot none) => "AnimatedValue(None)"
  | some (.slot (some value)) => "AnimatedValue(Some(" ++ Layout.plain.write value ++ "))"
  | _ => "DerivedValue \x7b .. \x7d"

end Animation.Store
