import Mathlib.Data.List.Forall2

/-!
Walks along a list that may fail at each item and end at the first failure.
Compiling and resolving are both such walks over the operands of a node, so
what is said here of one list is all that either pass needs to know about the
order in which it meets its faults.
-/

namespace Animation.Walk

variable {α β γ ε : Type}

theorem bind_eq_ok {first : Except ε α} {next : α → Except ε β} {result : β} :
    first >>= next = .ok result ↔ ∃ value, first = .ok value ∧ next value = .ok result := by
  cases first with
  | ok value => simp [bind, Except.bind]
  | error fault => simp [bind, Except.bind]

theorem bind_eq_error {first : Except ε α} {next : α → Except ε β} {fault : ε} :
    first >>= next = .error fault ↔
      first = .error fault ∨ ∃ value, first = .ok value ∧ next value = .error fault := by
  cases first with
  | ok value => simp [bind, Except.bind]
  | error fault => simp [bind, Except.bind]

theorem map_eq_ok {convert : α → β} {first : Except ε α} {result : β} :
    convert <$> first = .ok result ↔ ∃ value, first = .ok value ∧ convert value = result := by
  cases first with
  | ok value => simp [Functor.map, Except.map]
  | error fault => simp [Functor.map, Except.map]

theorem map_eq_error {convert : α → β} {first : Except ε α} {fault : ε} :
    convert <$> first = .error fault ↔ first = .error fault := by
  cases first with
  | ok value => simp [Functor.map, Except.map]
  | error fault => simp [Functor.map, Except.map]

/-- A walk that succeeds has succeeded at every item, with these results. -/
theorem mapM_eq_ok {visit : α → Except ε β} {items : List α} {results : List β} :
    items.mapM visit = .ok results ↔
      List.Forall₂ (fun item result => visit item = .ok result) items results := by
  induction items generalizing results with
  | nil =>
      rw [List.mapM_nil, List.forall₂_nil_left_iff]
      simp [pure, Except.pure, eq_comm]
  | cons item rest ih =>
      rw [List.mapM_cons, bind_eq_ok, List.forall₂_cons_left_iff]
      simp only [bind_eq_ok, ih, pure, Except.pure, Except.ok.injEq]
      constructor
      · rintro ⟨result, hitem, others, hrest, rfl⟩
        exact ⟨result, others, hitem, hrest, rfl⟩
      · rintro ⟨result, others, hitem, hrest, rfl⟩
        exact ⟨result, hitem, others, hrest, rfl⟩

theorem exists_mapM_eq_ok {visit : α → Except ε β} {items : List α} :
    (∃ results, items.mapM visit = .ok results) ↔
      ∀ item ∈ items, ∃ result, visit item = .ok result := by
  induction items with
  | nil => simp [pure, Except.pure]
  | cons item rest ih =>
      simp only [List.mapM_cons, bind_eq_ok, pure, Except.pure, List.forall_mem_cons, ← ih]
      constructor
      · rintro ⟨_, result, hitem, results, hrest, _⟩
        exact ⟨⟨result, hitem⟩, results, hrest⟩
      · rintro ⟨⟨result, hitem⟩, results, hrest⟩
        exact ⟨_, result, hitem, results, hrest, rfl⟩

/-- A walk fails with the fault of one item, and has succeeded at all items
before that one. -/
theorem mapM_eq_error {visit : α → Except ε β} {items : List α} {fault : ε} :
    items.mapM visit = .error fault ↔
      ∃ before item after, items = before ++ item :: after ∧
        (∀ earlier ∈ before, ∃ result, visit earlier = .ok result) ∧
        visit item = .error fault := by
  induction items with
  | nil => simp [pure, Except.pure]
  | cons item rest ih =>
      simp only [List.mapM_cons, bind_eq_error, ih, pure, Except.pure, reduceCtorEq, and_false,
        exists_false, or_false]
      constructor
      · rintro (hitem | ⟨result, hitem, before, bad, after, rfl, hbefore, hbad⟩)
        · exact ⟨[], item, rest, rfl, by simp, hitem⟩
        · refine ⟨item :: before, bad, after, rfl, ?_, hbad⟩
          exact List.forall_mem_cons.mpr ⟨⟨result, hitem⟩, hbefore⟩
      · rintro ⟨before, bad, after, hsplit, hbefore, hbad⟩
        cases before with
        | nil =>
            obtain ⟨rfl, rfl⟩ := List.cons.inj hsplit
            exact Or.inl hbad
        | cons first before =>
            obtain ⟨rfl, rfl⟩ := List.cons.inj hsplit
            obtain ⟨⟨result, hitem⟩, hbefore⟩ := List.forall_mem_cons.mp hbefore
            exact Or.inr ⟨result, hitem, before, bad, after, rfl, hbefore, hbad⟩

/-- The fault of something that may fail. -/
def fault? : Except ε α → Option ε
  | .ok _ => none
  | .error fault => some fault

theorem fault?_eq_some {outcome : Except ε α} {fault : ε} :
    fault? outcome = some fault ↔ outcome = .error fault := by
  cases outcome <;> simp [fault?]

theorem fault?_map (convert : α → β) (outcome : Except ε α) :
    fault? (convert <$> outcome) = fault? outcome := by
  cases outcome <;> rfl

/-- The fault of a walk is the first that there is at any item. -/
theorem fault?_mapM (visit : α → Except ε β) (items : List α) :
    fault? (items.mapM visit) = items.findSome? fun item => fault? (visit item) := by
  induction items with
  | nil => rfl
  | cons item rest ih =>
      rw [List.mapM_cons, List.findSome?_cons, ← ih]
      cases visit item with
      | error fault => rfl
      | ok result => cases rest.mapM visit <;> rfl

theorem findSome?_congr {look other : α → Option β} {items : List α}
    (h : ∀ item ∈ items, look item = other item) :
    items.findSome? look = items.findSome? other := by
  induction items with
  | nil => rfl
  | cons item rest ih =>
      obtain ⟨hitem, hrest⟩ := List.forall_mem_cons.mp h
      rw [List.findSome?_cons, List.findSome?_cons, hitem, ih hrest]

theorem findSome?_flatMap (parts : α → List β) (look : β → Option γ) (items : List α) :
    (items.flatMap parts).findSome? look =
      items.findSome? fun item => (parts item).findSome? look := by
  induction items with
  | nil => rfl
  | cons item rest ih =>
      rw [List.flatMap_cons, List.findSome?_append, List.findSome?_cons, ih]
      cases (parts item).findSome? look <;> rfl

/-- Whatever is made of the results, the fault of the second step counts only
where the first step has none. -/
theorem fault?_bind_map (first : Except ε α) (second : Except ε β) (convert : α → β → γ) :
    fault? (first >>= fun value => convert value <$> second) =
      (fault? first).or (fault? second) := by
  cases first with
  | error fault => rfl
  | ok value => exact fault?_map (convert value) second

theorem mapM_congr {visit other : α → Except ε β} {items : List α}
    (h : ∀ item ∈ items, visit item = other item) : items.mapM visit = items.mapM other := by
  induction items with
  | nil => rfl
  | cons item rest ih =>
      obtain ⟨hitem, hrest⟩ := List.forall_mem_cons.mp h
      rw [List.mapM_cons, List.mapM_cons, hitem, ih hrest]

/-- Where each item either has this fault or succeeds and fails as another
visit does, so does the walk. -/
theorem mapM_agrees {visit other : α → Except ε β} {items : List α} {fault : ε}
    (h : ∀ item ∈ items, visit item = .error fault ∨ other item = visit item) :
    items.mapM visit = .error fault ∨ items.mapM other = items.mapM visit := by
  induction items with
  | nil => exact Or.inr rfl
  | cons item rest ih =>
      obtain ⟨hitem, hrest⟩ := List.forall_mem_cons.mp h
      rw [List.mapM_cons, List.mapM_cons]
      rcases hitem with hfault | hagree
      · exact Or.inl (by rw [hfault]; rfl)
      · rw [hagree]
        rcases ih hrest with hfault | hagree
        · cases visit item with
          | ok result => exact Or.inl (by rw [hfault]; rfl)
          | error earlier => exact Or.inr rfl
        · exact Or.inr (by rw [hagree])

theorem forall₂_of_length_eq {these : List α} {those : List β}
    (h : these.length = those.length) : List.Forall₂ (fun _ _ => True) these those :=
  List.forall₂_iff_get.mpr ⟨h, fun _ _ _ => trivial⟩

/-- What goes together in two lists is in the lists. -/
theorem forall₂_mem {related : α → β → Prop} {these : List α} {those : List β}
    (h : List.Forall₂ related these those) :
    List.Forall₂ (fun this that => this ∈ these ∧ related this that) these those :=
  (List.forall₂_and_left _ _).mpr ⟨fun _ hmember => hmember, h⟩

theorem exists_of_forall₂ {related : α → β → Prop} {these : List α} {those : List β}
    (h : List.Forall₂ related these those) : ∀ this ∈ these, ∃ that ∈ those, related this that := by
  induction h with
  | nil => exact nofun
  | cons hhead _ ih =>
      refine List.forall_mem_cons.mpr ⟨⟨_, List.mem_cons_self, hhead⟩, fun this hthis => ?_⟩
      obtain ⟨that, hthat, hrelated⟩ := ih this hthis
      exact ⟨that, List.mem_cons_of_mem _ hthat, hrelated⟩

/-- Two lists that answer a question in pairs alike answer it alike. -/
theorem exists_iff_of_forall₂ {these : List α} {those : List β} {p : α → Prop} {q : β → Prop}
    (h : List.Forall₂ (fun this that => p this ↔ q that) these those) :
    (∃ this ∈ these, p this) ↔ ∃ that ∈ those, q that := by
  induction h with
  | nil => simp
  | cons hhead _ ih => simp [hhead, ih]

end Animation.Walk
