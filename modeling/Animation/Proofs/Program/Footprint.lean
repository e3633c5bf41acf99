import Animation.Proofs.Program.Likeness
import Animation.Proofs.Store.Answers

/-!
What a program has to do with, found without running it: the cells it reads,
with everything that a derived one of them reads in turn, the cells it writes
to by itself or by a callback, and its callbacks. Both branches of a choice
count, and so do targets that take nothing. No pass does anything outside of
this footprint, and the part of it that is read is all that a pass depends on.
-/

namespace Animation

inductive Use where
  | read (source : Ref)
  | write (target : Ref)
  | call (callback : Callback)

namespace Callback

/-- What the callback stores is a matter of its arguments alone. -/
def Plain (callback : Callback) : Prop :=
  ∀ args store other, callback.writes args store = callback.writes args other

/-- There is an invocation that stores to this cell. -/
def StoresTo (callback : Callback) (target : Ref) : Prop :=
  ∃ args store value, (target, value) ∈ callback.writes args store

end Callback

namespace Program

mutual

/-- All that the program has to do with by itself, operands first. -/
def uses : Program → List Use
  | .constant _ => []
  | .read source => [.read source]
  | .fold _ first rest => uses first ++ usesAll rest
  | .unary _ v => uses v
  | .compare _ left right => uses left ++ uses right
  | .cond expr ifNode elseNode => uses expr ++ (uses ifNode ++ uses elseNode)
  | .set source target => uses source ++ target.toList.map .write
  | .block nodes => usesAll nodes
  | .call args callback => usesAll args ++ callback.toList.map .call

def usesAll : List Program → List Use
  | [] => []
  | program :: rest => uses program ++ usesAll rest

end

/-- The program reads this cell, or one whose reading goes through it. -/
def Reads (store : Store) (program : Program) (cell : Ref) : Prop :=
  ∃ source, .read source ∈ program.uses ∧ store.Reaches source cell

/-- The program has this cell as a target, or a callback that stores to it. -/
def Writes (program : Program) (cell : Ref) : Prop :=
  .write cell ∈ program.uses ∨ ∃ callback, .call callback ∈ program.uses ∧ callback.StoresTo cell

/-- Everything in the footprint stands for itself. -/
def footprint (store : Store) (program : Program) : Likeness where
  reads source twin := source = twin ∧ program.Reads store source
  writes target twin := target = twin ∧ program.Writes target
  calls callback twin := callback = twin ∧ .call callback ∈ program.uses

end Program

/-- What is used stands for itself. -/
def Use.Admitted (like : Likeness) : Use → Prop
  | .read source => like.reads source source
  | .write target => like.writes target target
  | .call callback => like.calls callback callback

namespace Program

variable {like : Likeness} {store : Store} {program : Program}

mutual

theorem alike_self : ∀ {program : Program}, (∀ use ∈ program.uses, use.Admitted like) →
    Alike like program program
  | .constant _, _ => .constant
  | .read _, h => .read (h _ (List.mem_singleton_self _))
  | .fold _ _ _, h => by
    obtain ⟨hfirst, hrest⟩ := List.forall_mem_append.mp h
    exact .fold (alike_self hfirst) (alike_selves hrest)
  | .unary _ _, h => .unary (alike_self h)
  | .compare _ _ _, h => by
    obtain ⟨hleft, hright⟩ := List.forall_mem_append.mp h
    exact .compare (alike_self hleft) (alike_self hright)
  | .cond _ _ _, h => by
    obtain ⟨hexpr, hbranches⟩ := List.forall_mem_append.mp h
    obtain ⟨hif, helse⟩ := List.forall_mem_append.mp hbranches
    exact .cond (alike_self hexpr) (alike_self hif) (alike_self helse)
  | .set _ none, h => by
    obtain ⟨hsource, -⟩ := List.forall_mem_append.mp h
    exact .set (alike_self hsource) .none
  | .set _ (some _), h => by
    obtain ⟨hsource, htarget⟩ := List.forall_mem_append.mp h
    exact .set (alike_self hsource) (.some (htarget _ (List.mem_singleton_self _)))
  | .block _, h => .block (alike_selves h)
  | .call _ none, h => by
    obtain ⟨hargs, -⟩ := List.forall_mem_append.mp h
    exact .call (alike_selves hargs) .none
  | .call _ (some _), h => by
    obtain ⟨hargs, hcallback⟩ := List.forall_mem_append.mp h
    exact .call (alike_selves hargs) (.some (hcallback _ (List.mem_singleton_self _)))

theorem alike_selves : ∀ {programs : List Program}, (∀ use ∈ usesAll programs, use.Admitted like) →
    List.Forall₂ (Alike like) programs programs
  | [], _ => .nil
  | _ :: _, h => by
    obtain ⟨hfirst, hrest⟩ := List.forall_mem_append.mp h
    exact .cons (alike_self hfirst) (alike_selves hrest)

end

theorem alike_footprint (store : Store) (program : Program) :
    Alike (program.footprint store) program program := by
  apply alike_self
  intro use huse
  cases use with
  | read source => exact ⟨rfl, source, huse, .refl⟩
  | write target => exact ⟨rfl, .inl huse⟩
  | call callback => exact ⟨rfl, huse⟩

theorem writes_of_mem {callback : Callback} (hcallback : .call callback ∈ program.uses)
    {args : List Float} {write : Ref × Float} (hwrite : write ∈ callback.writes args store) :
    program.Writes write.1 :=
  .inr ⟨callback, hcallback, args, store, write.2, hwrite⟩

/-! ### Inside of the footprint -/

theorem identical_footprint (store : Store) (program : Program) :
    (program.footprint store).Identical where
  reads h := h.1
  writes h := h.1
  calls h := h.1

theorem preserves_footprint_eq (store : Store) (program : Program) :
    (program.footprint store).Preserves Eq where
  read := by
    rintro source _ before _ ⟨rfl, -⟩ rfl
    exact ⟨rfl, rfl⟩
  put := by
    rintro target _ before _ ⟨rfl, -⟩ rfl content
    rfl
  call := by
    rintro callback _ before _ ⟨rfl, hcallback⟩ rfl args
    rw [List.forall₂_same]
    exact fun write hwrite => ⟨⟨rfl, writes_of_mem hcallback hwrite⟩, rfl⟩

/-- Every event of a pass is in the footprint, whatever the pass begins with. -/
theorem event_in_footprint (store before : Store) {event : Event}
    (h : event ∈ (program.run before).events) :
    Event.Alike (program.footprint store) event event := by
  have halike := Alike.run (preserves_footprint_eq store program) (alike_footprint store program)
    before before rfl
  exact List.forall₂_same.mp halike.events event h

theorem reads_of_mem_events (store : Store) {before : Store} {source : Ref}
    (h : .read source ∈ (program.run before).events) : program.Reads store source := by
  cases event_in_footprint store before h with
  | read hsource => exact hsource.2

theorem writes_of_mem_events {before : Store} {target : Ref} {value : Float}
    (h : .write target value ∈ (program.run before).events) : program.Writes target := by
  cases event_in_footprint before before h with
  | write htarget => exact htarget.2

theorem call_mem_uses {before : Store} {callback : Callback} {args : List Float}
    (h : .call callback args ∈ (program.run before).events) : .call callback ∈ program.uses := by
  cases event_in_footprint before before h with
  | call hcallback => exact hcallback.2

/-! ### All that a pass depends on -/

/-- The program has no callbacks but those that look at no cells. -/
def Plain (program : Program) : Prop :=
  ∀ callback, .call callback ∈ program.uses → callback.Plain

theorem reads_of_looksAt {cell input : Ref} (h : program.Reads store cell)
    (hlooks : store.LooksAt cell input) : program.Reads store input := by
  obtain ⟨source, hsource, hreaches⟩ := h
  exact ⟨source, hsource, hreaches.tail hlooks⟩

theorem preserves_footprint (hplain : program.Plain) {alike : Cell → Cell → Prop}
    (hlasting : Store.Lasting alike) :
    (program.footprint store).Preserves (Store.AgreeUpTo alike (program.Reads store)) where
  read := by
    rintro source _ before other ⟨rfl, hreads⟩ hstores
    exact hstores.read hlasting hreads
  put := by
    rintro target _ before other ⟨rfl, -⟩ hstores content
    exact hstores.put hlasting target content
  call := by
    rintro callback _ before other ⟨rfl, hcallback⟩ hstores args
    rw [hplain callback hcallback args before other, List.forall₂_same]
    exact fun write hwrite => ⟨⟨rfl, writes_of_mem hcallback hwrite⟩, rfl⟩

/-- From stores that agree on what the program reads, a pass has the same
result, does the same and leaves stores that agree again. -/
theorem Plain.run (hplain : program.Plain) {alike : Cell → Cell → Prop}
    (hlasting : Store.Lasting alike) {before other : Store}
    (h : before.AgreeUpTo alike (program.Reads store) other) :
    (program.run before).value = (program.run other).value ∧
      (program.run before).events = (program.run other).events ∧
      Store.AgreeUpTo alike (program.Reads store) (program.run before).store
        (program.run other).store := by
  have halike := Alike.run (preserves_footprint hplain hlasting) (alike_footprint store program)
    before other h
  exact ⟨halike.value, Event.events_eq (identical_footprint store program) halike.events,
    halike.store⟩

end Program

end Animation
