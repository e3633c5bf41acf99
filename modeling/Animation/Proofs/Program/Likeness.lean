import Animation.Proofs.Pass
import Mathlib.Data.List.Forall2

/-!
Two runs side by side. Programs are alike that differ at most in the cells and
callbacks they have; where reading, writing and calling do alike things to two
stores, alike programs make alike passes: the same value, the same events up
to cells and callbacks, and stores that are alike again.

Nothing is said here about which stores are alike. They may differ in cells
that are out of the programs' reach, or have the same contents in other places.
-/

namespace Animation

/-- Which cells and callbacks of one run stand for which of another. Cells
that are read and cells that are written to are told apart. -/
structure Likeness where
  reads : Ref → Ref → Prop
  writes : Ref → Ref → Prop
  calls : Callback → Callback → Prop

/-- A likeness that says no more than another one. -/
structure Likeness.Implies (like other : Likeness) : Prop where
  reads : ∀ {source twin}, like.reads source twin → other.reads source twin
  writes : ∀ {target twin}, like.writes target twin → other.writes target twin
  calls : ∀ {callback twin}, like.calls callback twin → other.calls callback twin

namespace Program

inductive Alike (like : Likeness) : Program → Program → Prop
  | constant {value} : Alike like (.constant value) (.constant value)
  | read {source twin} : like.reads source twin → Alike like (.read source) (.read twin)
  | fold {op first first' rest rest'} :
      Alike like first first' → List.Forall₂ (Alike like) rest rest' →
      Alike like (.fold op first rest) (.fold op first' rest')
  | unary {op v v'} : Alike like v v' → Alike like (.unary op v) (.unary op v')
  | compare {op left left' right right'} :
      Alike like left left' → Alike like right right' →
      Alike like (.compare op left right) (.compare op left' right')
  | cond {expr expr' ifNode ifNode' elseNode elseNode'} :
      Alike like expr expr' → Alike like ifNode ifNode' → Alike like elseNode elseNode' →
      Alike like (.cond expr ifNode elseNode) (.cond expr' ifNode' elseNode')
  | set {source source' target target'} :
      Alike like source source' → Option.Rel like.writes target target' →
      Alike like (.set source target) (.set source' target')
  | block {nodes nodes'} :
      List.Forall₂ (Alike like) nodes nodes' → Alike like (.block nodes) (.block nodes')
  | call {args args' callback callback'} :
      List.Forall₂ (Alike like) args args' → Option.Rel like.calls callback callback' →
      Alike like (.call args callback) (.call args' callback')

variable {like other : Likeness}

theorem option_rel_mono {α : Type} {related after : α → α → Prop}
    (himplies : ∀ {this that}, related this that → after this that) {slot slot' : Option α}
    (h : Option.Rel related slot slot') : Option.Rel after slot slot' := by
  cases h with
  | none => exact .none
  | some h => exact .some (himplies h)

mutual

theorem Alike.mono (himplies : like.Implies other) :
    ∀ {program twin : Program}, Alike like program twin → Alike other program twin
  | .constant _, _, .constant => .constant
  | .read _, _, .read hcells => .read (himplies.reads hcells)
  | .fold _ _ _, _, .fold hfirst hrest =>
    .fold (hfirst.mono himplies) (Alike.monoAll himplies hrest)
  | .unary _ _, _, .unary hv => .unary (hv.mono himplies)
  | .compare _ _ _, _, .compare hleft hright =>
    .compare (hleft.mono himplies) (hright.mono himplies)
  | .cond _ _ _, _, .cond hexpr hif helse =>
    .cond (hexpr.mono himplies) (hif.mono himplies) (helse.mono himplies)
  | .set _ _, _, .set hsource htarget =>
    .set (hsource.mono himplies) (option_rel_mono himplies.writes htarget)
  | .block _, _, .block hnodes => .block (Alike.monoAll himplies hnodes)
  | .call _ _, _, .call hargs hcallback =>
    .call (Alike.monoAll himplies hargs) (option_rel_mono himplies.calls hcallback)

theorem Alike.monoAll (himplies : like.Implies other) :
    ∀ {programs twins : List Program}, List.Forall₂ (Alike like) programs twins →
      List.Forall₂ (Alike other) programs twins
  | [], _, .nil => .nil
  | _ :: _, _, .cons hfirst hrest => .cons (hfirst.mono himplies) (Alike.monoAll himplies hrest)

end

end Program

inductive Event.Alike (like : Likeness) : Event → Event → Prop
  | read {source twin} : like.reads source twin → Alike like (.read source) (.read twin)
  | write {target twin value} :
      like.writes target twin → Alike like (.write target value) (.write twin value)
  | call {callback twin args} :
      like.calls callback twin → Alike like (.call callback args) (.call twin args)

/-- Nothing stands for anything but itself. -/
structure Likeness.Identical (like : Likeness) : Prop where
  reads : ∀ {source twin}, like.reads source twin → source = twin
  writes : ∀ {target twin}, like.writes target twin → target = twin
  calls : ∀ {callback twin}, like.calls callback twin → callback = twin

theorem Event.events_eq {like : Likeness} (hlike : like.Identical) {events twins : List Event}
    (h : List.Forall₂ (Event.Alike like) events twins) : events = twins := by
  rw [← List.forall₂_eq_eq_eq]
  refine h.imp fun event twin hevent => ?_
  cases hevent with
  | read hcells => rw [hlike.reads hcells]
  | write hcells => rw [hlike.writes hcells]
  | call hcalls => rw [hlike.calls hcalls]

structure Outcome.Alike {α : Type} (like : Likeness) (stores : Store → Store → Prop)
    (outcome other : Outcome α) : Prop where
  value : outcome.value = other.value
  store : stores outcome.store other.store
  events : List.Forall₂ (Event.Alike like) outcome.events other.events

/-- From stores that are alike the passes have outcomes that are alike. -/
def Pass.Alike {α : Type} (like : Likeness) (stores : Store → Store → Prop)
    (pass other : Pass α) : Prop :=
  ∀ store twin, stores store twin → (pass store).Alike like stores (other twin)

/-- Stores stay alike whatever single thing is done to both of them, and
answer alike. -/
structure Likeness.Preserves (like : Likeness) (stores : Store → Store → Prop) : Prop where
  read : ∀ {source twin store other}, like.reads source twin → stores store other →
    (store.read source).1 = (other.read twin).1 ∧
      stores (store.read source).2 (other.read twin).2
  put : ∀ {target twin store other}, like.writes target twin → stores store other →
    ∀ content, stores (store.put target content) (other.put twin content)
  call : ∀ {callback twin store other}, like.calls callback twin → stores store other →
    ∀ args, List.Forall₂ (fun write write' => like.writes write.1 write'.1 ∧ write.2 = write'.2)
      (callback.writes args store) (twin.writes args other)

namespace Pass

variable {α β : Type} {like : Likeness} {stores : Store → Store → Prop}

theorem alike_pure (value : α) : Alike like stores (pure value) (pure value) :=
  fun _ _ h => ⟨rfl, h, .nil⟩

theorem Alike.bind {first first' : Pass α} {next next' : α → Pass β}
    (hfirst : Alike like stores first first')
    (hnext : ∀ value, Alike like stores (next value) (next' value)) :
    Alike like stores (first >>= next) (first' >>= next') := by
  intro store twin h
  have hearly := hfirst store twin h
  have hlate : (next (first store).value (first store).store).Alike like stores
      (next' (first' twin).value (first' twin).store) := by
    rw [← hearly.value]
    exact hnext _ _ _ hearly.store
  rw [bind_apply, bind_apply]
  exact ⟨hlate.value, hlate.store, List.rel_append hearly.events hlate.events⟩

theorem Alike.map {pass other : Pass α} (h : Alike like stores pass other) (convert : α → β) :
    Alike like stores (convert <$> pass) (convert <$> other) := by
  rw [map_eq_pure_bind, map_eq_pure_bind]
  exact h.bind fun value => alike_pure (convert value)

theorem alike_read (h : like.Preserves stores) {source twin : Ref}
    (hcells : like.reads source twin) : Alike like stores (read source) (read twin) := by
  intro store other hstores
  obtain ⟨hreading, hafter⟩ := h.read hcells hstores
  exact ⟨congrArg (·.getD Number.nan) hreading, hafter, .cons (.read hcells) .nil⟩

theorem alike_write (h : like.Preserves stores) {target twin : Ref}
    (hcells : like.writes target twin) (value : Float) :
    Alike like stores (write target value) (write twin value) :=
  fun _ _ hstores => ⟨rfl, h.put hcells hstores (some value), .cons (.write hcells) .nil⟩

theorem alike_writeEach (h : like.Preserves stores) {writes writes' : List (Ref × Float)}
    (hwrites : List.Forall₂ (fun write write' => like.writes write.1 write'.1 ∧ write.2 = write'.2)
      writes writes') : Alike like stores (writeEach writes) (writeEach writes') := by
  induction hwrites with
  | nil => exact alike_pure ()
  | @cons write write' _ _ hwrite _ ih =>
      obtain ⟨target, value⟩ := write
      obtain ⟨twin, value'⟩ := write'
      obtain ⟨hcells, rfl⟩ := hwrite
      exact (alike_write h hcells value).bind fun _ => ih

theorem alike_invoke (h : like.Preserves stores) {callback twin : Callback}
    (hcalls : like.calls callback twin) (args : List Float) :
    Alike like stores (invoke callback args) (invoke twin args) := by
  apply Alike.bind
  · exact fun _ _ hstores => ⟨rfl, hstores, .cons (.call hcalls) .nil⟩
  · intro _ store other hstores
    exact alike_writeEach h (h.call hcalls hstores args) store other hstores

end Pass

namespace Program

open Pass

variable {like : Likeness} {stores : Store → Store → Prop}

mutual

theorem Alike.run (h : like.Preserves stores) :
    ∀ {program other : Program}, Program.Alike like program other →
      Pass.Alike like stores program.run other.run
  | .constant value, _, .constant => alike_pure value
  | .read _, _, .read hcells => alike_read h hcells
  | .fold _ _ _, _, .fold hfirst hrest =>
    (Alike.run h hfirst).bind fun _ => (Alike.runAll h hrest).bind fun _ => alike_pure _
  | .unary _ _, _, .unary hv => (Alike.run h hv).bind fun _ => alike_pure _
  | .compare _ _ _, _, .compare hleft hright =>
    (Alike.run h hleft).bind fun _ => (Alike.run h hright).bind fun _ => alike_pure _
  | .cond _ _ _, _, .cond hexpr hif helse => by
    refine (Alike.run h hexpr).bind fun test => ?_
    split
    · exact Alike.run h hif
    · exact Alike.run h helse
  | .set _ _, _, .set hsource htarget => by
    refine (Alike.run h hsource).bind fun value => ?_
    cases htarget with
    | none => exact alike_pure _
    | some hcells => exact (alike_write h hcells value).bind fun _ => alike_pure _
  | .block _, _, .block hnodes => (Alike.runAll h hnodes).bind fun _ => alike_pure _
  | .call _ _, _, .call hargs hcallback => by
    refine (Alike.runAll h hargs).bind fun values => ?_
    cases hcallback with
    | none => exact alike_pure _
    | some hcalls => exact (alike_invoke h hcalls values).bind fun _ => alike_pure _

theorem Alike.runAll (h : like.Preserves stores) :
    ∀ {programs others : List Program}, List.Forall₂ (Program.Alike like) programs others →
      Pass.Alike like stores (Program.runAll programs) (Program.runAll others)
  | [], _, .nil => alike_pure []
  | _ :: _, _, .cons hfirst hrest =>
    (Alike.run h hfirst).bind fun _ => (Alike.runAll h hrest).map _

end

end Program

end Animation
