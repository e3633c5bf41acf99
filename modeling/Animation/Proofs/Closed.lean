import Animation.Proofs.Element.Likeness
import Animation.Proofs.World

/-!
A host can hold no cell that is not there yet. Its names stand for cells that
are there, its callbacks look at and store to such cells only, and a program
that comes out of all this has no others. What has been there before some
point is therefore all that matters to a pass of an older program.
-/

namespace Animation

/-- The callback looks at the first `bound` cells only, and stores to no
others. -/
structure Callback.Within (bound : Nat) (callback : Callback) : Prop where
  alike : ∀ args store other, (∀ i < bound, store.cells[i]? = other.cells[i]?) →
    callback.writes args store = callback.writes args other
  targets : ∀ args store, ∀ write ∈ callback.writes args store, write.1.index < bound

namespace Callback

theorem Within.mono {bound limit : Nat} {callback : Callback} (h : callback.Within bound)
    (hle : bound ≤ limit) : callback.Within limit where
  alike args store other hstores :=
    h.alike args store other fun i hi => hstores i (Nat.lt_of_lt_of_le hi hle)
  targets args store write hwrite := Nat.lt_of_lt_of_le (h.targets args store write hwrite) hle

theorem within_record (bound : Nat) (name : String) : (record name).Within bound where
  alike _ _ _ _ := rfl
  targets _ _ _ hwrite := nomatch hwrite

theorem within_store {bound : Nat} (name : String) {target : Ref} (h : target.index < bound) :
    (store name target).Within bound where
  alike _ _ _ _ := rfl
  targets args _ write hwrite := by
    obtain ⟨_, -, rfl⟩ := List.mem_map.mp hwrite
    exact h

end Callback

/-! ### Programs within the first cells of a store -/

namespace Likeness

/-- Everything stands for itself, as long as it has to do with the first
`bound` cells only. -/
def within (bound : Nat) : Likeness where
  reads source twin := source = twin ∧ source.index < bound
  writes target twin := target = twin ∧ target.index < bound
  calls callback twin := callback = twin ∧ callback.Within bound

theorem within_mono {bound limit : Nat} (hle : bound ≤ limit) :
    (within bound).Implies (within limit) where
  reads := fun ⟨hsame, hbound⟩ => ⟨hsame, Nat.lt_of_lt_of_le hbound hle⟩
  writes := fun ⟨hsame, hbound⟩ => ⟨hsame, Nat.lt_of_lt_of_le hbound hle⟩
  calls := fun ⟨hsame, hwithin⟩ => ⟨hsame, hwithin.mono hle⟩

theorem identical_within (bound : Nat) : (within bound).Identical where
  reads h := h.1
  writes h := h.1
  calls h := h.1

theorem preserves_within (bound : Nat) :
    (within bound).Preserves (Store.Agree fun ref => ref.index < bound) where
  read := by
    rintro source _ store other ⟨rfl, hbound⟩ hstores
    exact hstores.read hbound
  put := by
    rintro target _ store other ⟨rfl, -⟩ hstores content
    exact hstores.put target content
  call := by
    rintro callback _ store other ⟨rfl, hwithin⟩ hstores args
    have hwrites := hwithin.alike args store other fun i hi => hstores.same ⟨i⟩ hi
    rw [← hwrites, List.forall₂_same]
    intro write hwrite
    exact ⟨⟨rfl, hwithin.targets args store write hwrite⟩, rfl⟩

end Likeness

/-- The program has to do with the first `bound` cells only. -/
def Program.Within (bound : Nat) (program : Program) : Prop :=
  Program.Alike (.within bound) program program

theorem Program.Within.mono {bound limit : Nat} {program : Program} (h : program.Within bound)
    (hle : bound ≤ limit) : program.Within limit :=
  Alike.mono (Likeness.within_mono hle) h

/-- A pass of such a program is the same whatever else is in the store. -/
theorem Program.Within.run {bound : Nat} {program : Program} (h : program.Within bound)
    {store other : Store} (hstores : store.Agree (fun ref => ref.index < bound) other) :
    (program.run store).value = (program.run other).value ∧
      (program.run store).events = (program.run other).events ∧
      Store.Agree (fun ref => ref.index < bound) (program.run store).store
        (program.run other).store := by
  have halike := Alike.run (Likeness.preserves_within bound) h store other hstores
  exact ⟨halike.value, Event.events_eq (Likeness.identical_within bound) halike.events,
    halike.store⟩

def Expression.Within (bound : Nat) (expression : Expression) : Prop :=
  Expression.Alike (.within bound) expression expression

theorem Expression.Within.compile {bound : Nat} {expression : Expression}
    (h : expression.Within bound) {compiler : Compiler} {program : Program}
    (hcompile : (compiler.compile expression).1 = .ok program) : program.Within bound := by
  have halike := Compiler.alike_compile h compiler
  rw [hcompile] at halike
  cases halike with
  | ok hprogram => exact hprogram

/-! ### Closed worlds -/

/-- Names stand for cells that are there, and callbacks have to do with such
cells only. -/
structure World.Closed (world : World) : Prop where
  sound : world.Sound
  callbacks : ∀ name callback, world.names.callback name = .ok callback →
    callback.Within world.store.cells.size

namespace World

theorem closed_empty : World.Closed {} where
  sound name cell h := by simp [Names.value] at h
  callbacks name callback h := by simp [Names.callback] at h

theorem Closed.follows {before after : World} (h : before.Closed)
    (hfollows : before.Follows after) : after.Closed where
  sound := hfollows.sound h.sound
  callbacks name callback hcallback := by
    rw [hfollows.names.callback] at hcallback
    exact (h.callbacks name callback hcallback).mono hfollows.grows

theorem closed_declare {world : World} (h : world.Closed) (name : String)
    (content : Option Float) : (world.declare name content).2.Closed where
  sound := sound_declare h.sound name content
  callbacks other callback hcallback :=
    (h.callbacks other callback hcallback).mono (by simp [declare, Store.allocate])

theorem closed_derive {world : World} (h : world.Closed) (name : String)
    (derivation : Derivation) : (world.derive name derivation).2.Closed where
  sound := sound_derive h.sound name derivation
  callbacks other callback hcallback :=
    (h.callbacks other callback hcallback).mono (by simp [derive, Store.derive])

theorem closed_share {world : World} (h : world.Closed) (name other : String) :
    (world.share name other).2.Closed where
  sound := sound_share h.sound name other
  callbacks := by
    unfold share
    split
    · exact h.callbacks
    · exact h.callbacks

theorem closed_insertCallback {world : World} (h : world.Closed) (name : String)
    {callback : Callback} (hcallback : callback.Within world.store.cells.size) :
    World.Closed { world with names := world.names.insertCallback name callback } where
  sound := h.sound
  callbacks other found hfound := by
    rw [Names.callback_insertCallback] at hfound
    split at hfound
    · cases hfound
      exact hcallback
    · exact h.callbacks other found hfound

theorem Closed.alike {world : World} (h : world.Closed) :
    Names.Alike (.within world.store.cells.size) world.names world.names where
  value name := by
    cases hvalue : world.names.value name with
    | ok cell =>
        have hcell := h.sound name cell hvalue
        exact .ok ⟨⟨rfl, hcell⟩, rfl, hcell⟩
    | error fault => exact .error
  callback name := by
    cases hcallback : world.names.callback name with
    | ok callback => exact .ok ⟨rfl, h.callbacks name callback hcallback⟩
    | error fault => exact .error

/-- A document's program has to do with cells only that are there once it has
compiled. -/
theorem Closed.within_compile {world : World} (h : world.Closed) {document : Document}
    {program : Program} (hcompile : (document.compile world).1 = .ok program) :
    program.Within (document.compile world).2.store.cells.size := by
  have hstaged := h.follows (follows_declareValues document world)
  have halike := Document.alike_program hstaged.alike document
  rw [← Document.compile_fst, hcompile] at halike
  rw [Document.compile_snd, hcompile]
  cases halike with
  | ok hprogram => exact hprogram

end World

end Animation
