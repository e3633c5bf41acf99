import Animation.Names

/-!
Which names stand for something, apart from what they stand for.
-/

namespace Animation.Names

def Binds (names : Names) (name : String) : Prop :=
  name ∈ names.values

def Hosts (names : Names) (name : String) : Prop :=
  name ∈ names.callbacks

theorem value_eq_ok {names : Names} {name : String} {cell : Ref} :
    names.value name = .ok cell ↔ names.values[name]? = some cell := by
  cases h : names.values[name]? <;> simp [value, h]

theorem value_eq_error {names : Names} {name : String} {fault : Fault} :
    names.value name = .error fault ↔ ¬ names.Binds name ∧ .unknownValue name = fault := by
  rw [Binds, Std.TreeMap.mem_iff_isSome_getElem?]
  cases h : names.values[name]? <;> simp [value, h]

theorem callback_eq_error {names : Names} {name : String} {fault : Fault} :
    names.callback name = .error fault ↔ ¬ names.Hosts name ∧ .unknownCallback name = fault := by
  rw [Hosts, Std.TreeMap.mem_iff_isSome_getElem?]
  cases h : names.callbacks[name]? <;> simp [callback, h]

theorem binds_iff {names : Names} {name : String} :
    names.Binds name ↔ ∃ cell, names.value name = .ok cell := by
  simp only [Binds, Std.TreeMap.mem_iff_isSome_getElem?, value_eq_ok, Option.isSome_iff_exists]

theorem binds_of_value {names : Names} {name : String} {cell : Ref}
    (h : names.value name = .ok cell) : names.Binds name :=
  binds_iff.mpr ⟨cell, h⟩

theorem containsValue_iff {names : Names} {name : String} :
    names.containsValue name = true ↔ names.Binds name :=
  Std.TreeMap.contains_iff_mem

theorem binds_insertValue {names : Names} {name other : String} {source : Ref} :
    (names.insertValue name source).Binds other ↔ name = other ∨ names.Binds other := by
  simp [Binds, insertValue, Std.TreeMap.mem_insert]

/-- Names that stand for something stand for the same among the `other`. -/
structure Extends (names other : Names) : Prop where
  values : ∀ name cell, names.value name = .ok cell → other.value name = .ok cell
  callbacks : other.callbacks = names.callbacks

theorem Extends.refl (names : Names) : names.Extends names where
  values _ _ h := h
  callbacks := rfl

theorem Extends.trans {names other last : Names} (hfirst : names.Extends other)
    (hsecond : other.Extends last) : names.Extends last where
  values name cell h := hsecond.values name cell (hfirst.values name cell h)
  callbacks := hsecond.callbacks.trans hfirst.callbacks

theorem Extends.callback {names other : Names} (h : names.Extends other) (name : String) :
    other.callback name = names.callback name := by
  simp only [Names.callback, h.callbacks]

theorem Extends.binds {names other : Names} (h : names.Extends other) {name : String}
    (hbound : names.Binds name) : other.Binds name := by
  obtain ⟨cell, hcell⟩ := binds_iff.mp hbound
  exact binds_of_value (h.values name cell hcell)

/-- Names are listed in order, so tables with the same names list them alike. -/
theorem keys_eq {α β : Type} {table : Std.TreeMap String α} {other : Std.TreeMap String β}
    (h : ∀ name, name ∈ table ↔ name ∈ other) : table.keys = other.keys := by
  have hmem : ∀ name, name ∈ table.keys ↔ name ∈ other.keys := by
    intro name
    rw [Std.TreeMap.mem_keys, Std.TreeMap.mem_keys]
    exact h name
  have hperm := (List.perm_ext_iff_of_nodup table.nodup_keys other.nodup_keys).mpr hmem
  apply hperm.eq_of_pairwise _ table.ordered_keys other.ordered_keys
  intro name twin _ _ hless hmore
  exact absurd hmore (Std.OrientedCmp.not_lt_of_lt hless)

end Animation.Names
