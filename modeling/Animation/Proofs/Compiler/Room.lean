import Animation.Proofs.Expression.Positions

/-!
How much room a tree needs. What compiles somewhere compiles wherever the limit
leaves as much room or more, and a node needs room for one level more than its
operands do. So whether a tree still compiles after a part of it has been
replaced is a question about that part.
-/

namespace Animation

namespace Compiler

/-- How many nodes may be nested inside each other from here on. -/
def room (compiler : Compiler) : Nat :=
  compiler.limits.maxDepth.toNat - compiler.depth.toNat

theorem room_pos_iff {compiler : Compiler} :
    0 < compiler.room ↔ compiler.depth < compiler.limits.maxDepth := by
  rw [room, UInt64.lt_iff_toNat_lt]
  omega

theorem room_deeper {compiler : Compiler} (h : 0 < compiler.room) :
    compiler.deeper.room + 1 = compiler.room := by
  have hdepth := depth_deeper (room_pos_iff.mp h)
  have hlimit : compiler.deeper.limits = compiler.limits := rfl
  simp only [room, hdepth, hlimit] at h ⊢
  omega

end Compiler

namespace Expression

variable {tree : Expression} {compiler : Compiler} {program : Program} {n : Nat}

/-- The tree compiles wherever there is this much room. -/
def CompilesIn (n : Nat) (tree : Expression) : Prop :=
  ∀ compiler : Compiler, n ≤ compiler.room →
    ∃ program, (compiler.compile tree).1 = .ok program

theorem CompilesIn.mono {m : Nat} (h : tree.CompilesIn m) (hle : m ≤ n) : tree.CompilesIn n :=
  fun compiler hroom => h compiler (Nat.le_trans hle hroom)

theorem compilesIn_leaf (h : tree.kind? = none) (n : Nat) : tree.CompilesIn n :=
  fun compiler _ => ⟨_, Compiler.compile_leaf h compiler⟩

/-- A node that lacks nothing needs one level more than its operands. -/
theorem compilesIn_node {operands : List Expression} (hplaces : tree.places = operands.map .filled)
    (h : ∀ operand ∈ operands, operand.CompilesIn n) : tree.CompilesIn (n + 1) := by
  cases hkind : tree.kind? with
  | none => exact compilesIn_leaf hkind _
  | some kind =>
      intro compiler hroom
      have hpos : 0 < compiler.room := by omega
      have hdeeper := Compiler.room_deeper hpos
      rw [Compiler.compile_node hkind, if_neg (UInt64.not_le.mpr (Compiler.room_pos_iff.mp hpos))]
      have hwalk : ∃ programs,
          tree.places.mapM (compiler.deeper.fillOutcome kind) = .ok programs := by
        rw [hplaces, Walk.exists_mapM_eq_ok, List.forall_mem_map]
        intro operand hoperand
        exact h operand hoperand compiler.deeper (by omega)
      obtain ⟨programs, hprograms⟩ := hwalk
      exact ⟨_, Walk.map_eq_ok.mpr ⟨programs, hprograms, rfl⟩⟩

/-- An operand of a tree that compiles has compiled one level further inside. -/
theorem exists_compile_operand (h : (compiler.compile tree).1 = .ok program)
    {operand : Expression} (hoperand : operand ∈ Tree.operands tree) :
    0 < compiler.room ∧ ∃ inner, (compiler.deeper.compile operand).1 = .ok inner := by
  cases hkind : tree.kind? with
  | none =>
      rw [operands_leaf hkind] at hoperand
      cases hoperand
  | some kind =>
      rw [Compiler.compile_node hkind] at h
      split at h
      · cases h
      · next hroom =>
          obtain ⟨programs, hwalk, -⟩ := Walk.map_eq_ok.mp h
          have hplace := Tree.mem_operands.mp hoperand
          exact ⟨Compiler.room_pos_iff.mpr (UInt64.not_le.mp hroom),
            Walk.exists_mapM_eq_ok.mp ⟨programs, hwalk⟩ _ hplace⟩

/-- What compiles somewhere compiles wherever there is as much room. -/
theorem compilesIn_of_compile (h : (compiler.compile tree).1 = .ok program) :
    tree.CompilesIn compiler.room := by
  induction tree using Tree.operand_induction generalizing compiler program with
  | step tree ih =>
      obtain ⟨hnone | hroom, operands, programs, hplaces, -⟩ := compile_eq_ok_iff.mp h
      · exact compilesIn_leaf hnone _
      · rw [← Compiler.room_deeper (Compiler.room_pos_iff.mpr hroom)]
        apply compilesIn_node hplaces
        intro operand hoperand
        rw [← operands_eq hplaces] at hoperand
        obtain ⟨-, inner, hinner⟩ := exists_compile_operand h hoperand
        exact ih operand hoperand hinner

/-- Operands of a tree get by with less room than the tree. -/
theorem compilesIn_operand (h : (compiler.compile tree).1 = .ok program) {operand : Expression}
    (hoperand : operand ∈ Tree.operands tree) :
    0 < compiler.room ∧ operand.CompilesIn (compiler.room - 1) := by
  obtain ⟨hpos, inner, hinner⟩ := exists_compile_operand h hoperand
  have hdeeper := Compiler.room_deeper hpos
  exact ⟨hpos, (compilesIn_of_compile hinner).mono (by omega)⟩

/-- A tree still compiles when a part of it has been replaced by something that
compiles wherever the part does. -/
theorem exists_compile_replace {part other : Expression} {path : List Nat}
    (hpart : tree.part? path = some part)
    (hother : ∀ inner inside, (Compiler.compile inner part).1 = .ok inside →
      ∃ changed, (inner.compile other).1 = .ok changed)
    (h : (compiler.compile tree).1 = .ok program) :
    ∃ changed, (compiler.compile (tree.replace path other)).1 = .ok changed := by
  induction path generalizing tree compiler program with
  | nil =>
      cases Option.some.inj hpart
      exact hother _ _ h
  | cons i path ih =>
      obtain ⟨operand, hplace, hrest⟩ := part?_cons hpart
      let inner := operand.replace path other
      have hreplace : tree.replace (i :: path) other =
          tree.withPlaces (tree.places.set i (.filled inner)) := by
        simp only [replace, hplace, Option.bind_some, Place.operand?, inner]
      obtain ⟨hkind, hplaces⟩ := withPlaces_fits (alike_set hplace inner)
      have hoperand := mem_operands_of_place hplace
      obtain ⟨hroom, program, hinside⟩ := exists_compile_operand h hoperand
      rw [hreplace]
      cases hnode : tree.kind? with
      | none =>
          rw [operands_leaf hnode] at hoperand
          cases hoperand
      | some kind =>
          have hfull := UInt64.not_le.mpr (Compiler.room_pos_iff.mp hroom)
          rw [Compiler.compile_node hnode, if_neg hfull] at h
          rw [Compiler.compile_node (hkind.trans hnode), if_neg hfull, hplaces]
          obtain ⟨programs, hwalk, -⟩ := Walk.map_eq_ok.mp h
          have hall := Walk.exists_mapM_eq_ok.mp ⟨programs, hwalk⟩
          have hchanged : ∃ others, (tree.places.set i (.filled inner)).mapM
              (compiler.deeper.fillOutcome kind) = .ok others := by
            rw [Walk.exists_mapM_eq_ok]
            intro place hmember
            rcases List.mem_or_eq_of_mem_set hmember with hold | rfl
            · exact hall place hold
            · exact ih hrest hinside
          obtain ⟨others, hothers⟩ := hchanged
          exact ⟨_, Walk.map_eq_ok.mpr ⟨others, hothers, rfl⟩⟩

end Expression

end Animation
