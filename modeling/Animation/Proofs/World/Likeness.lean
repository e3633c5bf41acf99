import Animation.Proofs.Element.Likeness
import Animation.World

/-!
Two worlds side by side. They are alike when their names have alike meanings
and their stores are alike; passes that are alike and snapshots leave them so,
and a host that sees readings only under names cannot tell them apart.
-/

namespace Animation

variable {like : Likeness} {stores : Store → Store → Prop}

namespace Names

variable {names other : Names}

theorem Alike.binds (h : names.Alike like other) (name : String) :
    names.Binds name ↔ other.Binds name := by
  have halike := h.value name
  rw [binds_iff, binds_iff]
  generalize names.value name = found, other.value name = twin at halike
  cases halike with
  | ok _ => simp
  | error => simp

/-- Both tables list the same names, each with alike cells. -/
theorem Alike.toList (h : names.Alike like other) :
    List.Forall₂ (fun entry twin => entry.1 = twin.1 ∧ like.reads entry.2 twin.2)
      names.values.toList other.values.toList := by
  have hkeys : names.values.keys = other.values.keys := keys_eq h.binds
  have hentries : List.Forall₂ (fun entry twin => entry.1 = twin.1)
      names.values.toList other.values.toList := by
    have hnames : List.Forall₂ (· = ·) (names.values.toList.map Prod.fst)
        (other.values.toList.map Prod.fst) := by
      rw [List.forall₂_eq_eq_eq, Std.TreeMap.map_fst_toList_eq_keys,
        Std.TreeMap.map_fst_toList_eq_keys, hkeys]
    rwa [List.forall₂_map_left_iff, List.forall₂_map_right_iff] at hnames
  refine (Walk.forall₂_mem (Walk.forall₂_mem hentries).flip).flip.imp ?_
  rintro ⟨name, cell⟩ ⟨_, twin⟩ ⟨htwin, hcell, rfl⟩
  rw [Std.TreeMap.mem_toList_iff_getElem?_eq_some, ← value_eq_ok] at hcell htwin
  have halike := h.value name
  rw [hcell, htwin] at halike
  cases halike with
  | ok hcells => exact ⟨rfl, hcells.1⟩

end Names

theorem Likeness.Preserves.readAll (h : like.Preserves stores) {refs twins : List Ref}
    (hrefs : List.Forall₂ like.reads refs twins) {store other : Store}
    (hstores : stores store other) :
    (store.readAll refs).1 = (other.readAll twins).1 ∧
      stores (store.readAll refs).2 (other.readAll twins).2 := by
  induction hrefs generalizing store other with
  | nil => exact ⟨rfl, hstores⟩
  | cons hcells _ ih =>
      obtain ⟨hreading, hmiddle⟩ := h.read hcells hstores
      obtain ⟨hreadings, hafter⟩ := ih hmiddle
      exact ⟨congrArg₂ List.cons hreading hreadings, hafter⟩

namespace World

structure Alike (like : Likeness) (stores : Store → Store → Prop) (world other : World) :
    Prop where
  names : world.names.Alike like other.names
  store : stores world.store other.store

variable {world other : World}

theorem Alike.perform {α : Type} (h : world.Alike like stores other) {pass twin : Pass α}
    (hpass : pass.Alike like stores twin) :
    (world.perform pass).1 = (other.perform twin).1 ∧
      List.Forall₂ (Event.Alike like) (world.perform pass).2.1 (other.perform twin).2.1 ∧
      (world.perform pass).2.2.Alike like stores (other.perform twin).2.2 := by
  have houtcome := hpass world.store other.store h.store
  exact ⟨houtcome.value, houtcome.events, h.names, houtcome.store⟩

/-- A snapshot shows the same in both worlds. -/
theorem Alike.snapshot (hpreserves : like.Preserves stores) (h : world.Alike like stores other) :
    world.snapshot.1 = other.snapshot.1 ∧ world.snapshot.2.Alike like stores other.snapshot.2 := by
  have hentries := h.names.toList
  have hnames : world.names.values.toList.map (·.1) = other.names.values.toList.map (·.1) := by
    rw [← List.forall₂_eq_eq_eq, List.forall₂_map_left_iff, List.forall₂_map_right_iff]
    exact hentries.imp fun _ _ hentry => hentry.1
  have hcells : List.Forall₂ like.reads (world.names.values.toList.map (·.2))
      (other.names.values.toList.map (·.2)) := by
    rw [List.forall₂_map_left_iff, List.forall₂_map_right_iff]
    exact hentries.imp fun _ _ hentry => hentry.2
  obtain ⟨hreadings, hafter⟩ := hpreserves.readAll hcells h.store
  exact ⟨congrArg₂ List.zip hnames hreadings, h.names, hafter⟩

end World

end Animation
