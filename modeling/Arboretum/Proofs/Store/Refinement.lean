import Arboretum.Proofs.Store.Memory
import Arboretum.Proofs.Store.Table
import Arboretum.Store.Storage

/-!
# Tables do what trees in memory do

A tree in memory and a space of a table keep the same kind of tree in different ways.  Each follows
the view of its tree call by call (`Follows`); since the views say everything about a call, two
stores that start empty go on alike through any run:

* `askMemory_follows`, `askTable_follows`: what one call does;
* `represents_askAll`: after equal calls the table represents the tree in memory;
* `table_refines_memory`: equal answers, and no trace of a call that fails.
-/

namespace Arboretum

/-! ## 1. Calls -/

/-- The path of a call is tidy, and a listing asks for everything. -/
def Call.IsTidy : Call → Prop
  | .list path hints => Path.Tidy path ∧ hints = []
  | .stat path => Path.Tidy path
  | .join _ => False
  | .read path => Path.Tidy path
  | .write path _ => Path.Tidy path
  | .makeDir path _ => Path.Tidy path
  | .remove path => Path.Tidy path

instance : (c : Call) → Decidable c.IsTidy
  | .list path hints => inferInstanceAs (Decidable (Path.Tidy path ∧ hints = []))
  | .stat path => inferInstanceAs (Decidable (Path.Tidy path))
  | .join _ => inferInstanceAs (Decidable False)
  | .read path => inferInstanceAs (Decidable (Path.Tidy path))
  | .write path _ => inferInstanceAs (Decidable (Path.Tidy path))
  | .makeDir path _ => inferInstanceAs (Decidable (Path.Tidy path))
  | .remove path => inferInstanceAs (Decidable (Path.Tidy path))

/-- **Two outcomes of a call are alike**: both succeed, with answers that say the same, or both
fail. -/
inductive Call.OutcomesAlike (c : Call) : Except Fault c.Answer → Except Fault c.Answer → Prop
  | answered {a b : c.Answer} (h : c.Alike a b) : OutcomesAlike c (.ok a) (.ok b)
  | refused (f g : Fault) : OutcomesAlike c (.error f) (.error g)

/-- **A call follows the view of a tree**: it succeeds exactly if the view allows it, with the
answer and the tree that the view foresees; when it fails, the state stays as it was. -/
structure View.Follows {σ : Type} (view : σ → View) (c : Call) (s : σ)
    (answer : Except Fault c.Answer) (s' : σ) : Prop where
  answered : (view s).Allows c → ∃ a, answer = .ok a ∧ (view s).Reports c a ∧
    view s' = (view s).after c
  refused : ¬ (view s).Allows c → (∃ f, answer = .error f) ∧ s' = s

/-- Two states with one view follow it with outcomes that are alike, to states with one view. -/
theorem View.Follows.alike {σ τ : Type} {view : σ → View} {view' : τ → View} {c : Call} {s s' : σ}
    {t t' : τ} {a b : Except Fault c.Answer} (hj : ∀ parts, c ≠ .join parts)
    (h : View.Follows view c s a s') (h' : View.Follows view' c t b t')
    (he : view' t = view s) : c.OutcomesAlike a b ∧ view' t' = view s' := by
  by_cases hal : (view s).Allows c
  · obtain ⟨x, rfl, hx, hs⟩ := h.answered hal
    obtain ⟨y, rfl, hy, ht⟩ := h'.answered (he ▸ hal)
    refine ⟨.answered (View.Reports.alike hj hx (he ▸ hy)), ?_⟩
    rw [ht, hs, he]
  · obtain ⟨⟨f, rfl⟩, hs⟩ := h.refused hal
    obtain ⟨⟨g, rfl⟩, ht⟩ := h'.refused (he ▸ hal)
    refine ⟨.refused f g, ?_⟩
    rw [hs, ht, he]

/-! ## 2. One call of a tree in memory -/

namespace Storage

variable {st : Storage} {s : Store} {number : Nat} {space : String}

theorem memory_setMemory (st : Storage) (id : Nat) (t : MemoryTree) :
    (st.setMemory id t).memory id = t := by
  rw [memory, setMemory, Numbered.get?_set, if_pos rfl]
  rfl

theorem table_setTable (st : Storage) (number : Nat) (t : Table) :
    (st.setTable number t).table number = t := by
  rw [table, setTable, Numbered.get?_set, if_pos rfl]
  rfl

theorem filter_passes_nil (entries : List Entry) :
    (entries.filter fun e => Pattern.Shell.passes [] e.name) = entries :=
  List.filter_eq_self.2 fun _ _ => rfl

theorem filter_like_passes_nil (entries : List Entry) :
    (entries.filter fun e => Pattern.Like.passes [] e.name) = entries :=
  List.filter_eq_self.2 fun _ _ => rfl

/-- A change that succeeds as the view foresees. -/
theorem follows_of_ok {σ : Type} {view : σ → View} {c : Call} {s s' : σ} {a : c.Answer}
    (hal : (view s).Allows c) (ha : (view s).Reports c a) (hs : view s' = (view s).after c) :
    View.Follows view c s (.ok a) s' :=
  ⟨fun _ => ⟨a, rfl, ha, hs⟩, fun h => absurd hal h⟩

/-- A call that fails where the view does not allow it. -/
theorem follows_of_error {σ : Type} {view : σ → View} {c : Call} {s : σ} {f : Fault}
    (hal : ¬ (view s).Allows c) : View.Follows view c s (.error f) s :=
  ⟨fun h => absurd h hal, fun _ => ⟨⟨f, rfl⟩, rfl⟩⟩

/-- **One call of a tree in memory** follows its view and keeps it orderly. -/
theorem askMemory_follows {c : Call} (hc : c.IsTidy) (ht : (st.memory s.id).Orderly) :
    View.Follows Forest.view c (st.memory s.id) (st.askMemory s c).1
        ((st.askMemory s c).2.memory s.id) ∧
      ((st.askMemory s c).2.memory s.id).Orderly := by
  generalize hm : st.memory s.id = t at ht
  cases c with
  | list path hints =>
    obtain ⟨-, rfl⟩ := hc
    simp only [askMemory, hm]
    refine ⟨?_, ht⟩
    by_cases hal : t.view (Path.names path) = some .directory
    · obtain ⟨entries, hl, he⟩ := MemoryTree.list_eq ht hal
      rw [he, filter_passes_nil]
      exact follows_of_ok hal hl rfl
    · obtain ⟨f, hf⟩ := MemoryTree.list_error hal []
      rw [hf]
      exact follows_of_error hal
  | stat path =>
    simp only [askMemory, hm]
    exact ⟨follows_of_ok trivial (MemoryTree.untimed_stat hc) rfl, ht⟩
  | join parts => exact absurd hc id
  | read path =>
    simp only [askMemory, hm]
    refine ⟨?_, ht⟩
    by_cases hal : ∃ data, t.view (Path.names path) = some (.file data)
    · obtain ⟨data, hd⟩ := hal
      rw [MemoryTree.read_eq hd]
      exact follows_of_ok ⟨data, hd⟩ hd rfl
    · obtain ⟨f, hf⟩ := MemoryTree.read_error fun data hd => hal ⟨data, hd⟩
      rw [hf]
      exact follows_of_error hal
  | write path data =>
    simp only [askMemory, askMemory.settle, hm, memory_setMemory]
    by_cases hal : t.view.CanWrite (Path.names path)
    · obtain ⟨t', h1, h2, h3⟩ := MemoryTree.write_eq ht hc hal data
      rw [h1]
      exact ⟨follows_of_ok hal trivial h3, h2⟩
    · obtain ⟨f, hf⟩ := MemoryTree.write_error hc hal data
      rw [hf]
      exact ⟨follows_of_error hal, ht⟩
  | makeDir path parents =>
    simp only [askMemory, askMemory.settle, hm, memory_setMemory]
    cases parents with
    | false =>
      by_cases hal : t.view.CanMake (Path.names path)
      · obtain ⟨t', h1, h2, h3⟩ := MemoryTree.makeDir_eq ht hc hal
        rw [h1]
        exact ⟨follows_of_ok hal trivial h3, h2⟩
      · obtain ⟨f, hf⟩ := MemoryTree.makeDir_error hc hal
        rw [hf]
        exact ⟨follows_of_error hal, ht⟩
    | true =>
      by_cases hal : t.view.CanMakeAll (Path.names path)
      · obtain ⟨t', h1, h2, h3⟩ := (MemoryTree.makeDir_parents ht hc).1 hal
        rw [h1]
        exact ⟨follows_of_ok hal trivial h3, h2⟩
      · obtain ⟨f, hf⟩ := (MemoryTree.makeDir_parents ht hc).2 hal
        rw [hf]
        exact ⟨follows_of_error hal, ht⟩
  | remove path =>
    simp only [askMemory, askMemory.settle, hm, memory_setMemory]
    by_cases hal : t.view.CanRemove (Path.names path)
    · obtain ⟨t', h1, h2, h3⟩ := MemoryTree.remove_eq ht hc hal
      rw [h1]
      exact ⟨follows_of_ok hal trivial h3, h2⟩
    · obtain ⟨f, hf⟩ := MemoryTree.remove_error hc hal
      rw [hf]
      exact ⟨follows_of_error hal, ht⟩

/-! ## 3. One call of a table -/

/-- **One call of a space of a table** follows its view and keeps it sound. -/
theorem askTable_follows {c : Call} (hc : c.IsTidy) (ht : (st.table number).Sound space) :
    View.Follows (fun t => Table.view t space) c (st.table number) (st.askTable s number space c).1
        ((st.askTable s number space c).2.table number) ∧
      ((st.askTable s number space c).2.table number).Sound space := by
  generalize hm : st.table number = t at ht
  cases c with
  | list path hints =>
    obtain ⟨hp, rfl⟩ := hc
    simp only [askTable, hm]
    refine ⟨?_, ht⟩
    by_cases hal : t.view space (Path.names path) = some .directory
    · obtain ⟨entries, hl, he⟩ := ht.list_eq hp hal
      rw [he, filter_like_passes_nil]
      exact follows_of_ok hal hl rfl
    · obtain ⟨f, hf⟩ := Table.list_error hp hal []
      rw [hf]
      exact follows_of_error hal
  | stat path =>
    simp only [askTable, hm]
    exact ⟨follows_of_ok trivial (ht.untimed_stat hc) rfl, ht⟩
  | join parts => exact absurd hc id
  | read path =>
    simp only [askTable, hm]
    refine ⟨?_, ht⟩
    by_cases hal : ∃ data, t.view space (Path.names path) = some (.file data)
    · obtain ⟨data, hd⟩ := hal
      rw [ht.read_eq hc hd]
      exact follows_of_ok ⟨data, hd⟩ hd rfl
    · obtain ⟨f, hf⟩ := ht.read_error hc fun data hd => hal ⟨data, hd⟩
      rw [hf]
      exact follows_of_error hal
  | write path data =>
    simp only [askTable, askTable.settle, hm, table_setTable]
    by_cases hal : (t.view space).CanWrite (Path.names path)
    · obtain ⟨t', h1, h2, h3⟩ := ht.write_eq hc hal data
      rw [h1]
      exact ⟨follows_of_ok hal trivial h3, h2⟩
    · obtain ⟨f, hf⟩ := Table.write_error hc hal data
      rw [hf]
      exact ⟨follows_of_error hal, ht⟩
  | makeDir path parents =>
    simp only [askTable, askTable.settle, hm, table_setTable]
    cases parents with
    | false =>
      by_cases hal : (t.view space).CanMake (Path.names path)
      · obtain ⟨t', h1, h2, h3⟩ := ht.makeDir_eq hc hal
        rw [h1]
        exact ⟨follows_of_ok hal trivial h3, h2⟩
      · obtain ⟨f, hf⟩ := Table.makeDir_error hc hal
        rw [hf]
        exact ⟨follows_of_error hal, ht⟩
    | true =>
      by_cases hal : (t.view space).CanMakeAll (Path.names path)
      · obtain ⟨t', h1, h2, h3⟩ := (ht.makeDir_parents hc).1 hal
        rw [h1]
        exact ⟨follows_of_ok hal trivial h3, h2⟩
      · obtain ⟨f, hf⟩ := (ht.makeDir_parents hc).2 hal
        rw [hf]
        exact ⟨follows_of_error hal, ht⟩
  | remove path =>
    simp only [askTable, askTable.settle, hm, table_setTable]
    by_cases hal : (t.view space).CanRemove (Path.names path)
    · obtain ⟨t', h1, h2, h3⟩ := ht.remove_eq hc hal
      rw [h1]
      exact ⟨follows_of_ok hal trivial h3, h2⟩
    · obtain ⟨f, hf⟩ := ht.remove_error hc hal
      rw [hf]
      exact ⟨follows_of_error hal, ht⟩

end Storage

/-! ## 4. Runs side by side -/

/-- **A space of a table represents a tree in memory**: both are in order, and the same stands at
every place. -/
structure Table.Represents (t : Table) (space : String) (f : MemoryTree) : Prop where
  sound : t.Sound space
  orderly : f.Orderly
  view_eq : t.view space = f.view

/-- Nothing represents nothing. -/
theorem Table.represents_empty {t : Table} {space : String} (h : ∀ row ∈ t, row.space ≠ space) :
    t.Represents space .empty where
  sound := sound_of_no_rows h
  orderly := trivial
  view_eq := by
    funext ns
    cases ns with
    | nil => rfl
    | cons n ns => exact view_of_no_rows h (List.cons_ne_nil n ns)

namespace Storage

variable {s d : Store} {number : Nat} {space : String}

/-- **The storage after a list of calls** of one store. -/
def askAll (st : Storage) (s : Store) : List Call → Storage
  | [] => st
  | c :: cs => (st.ask s c).2.askAll s cs

theorem ask_memory {st : Storage} (hs : s.kind = .memory) (c : Call) :
    st.ask s c = st.askMemory s c := by rw [ask, hs]

theorem ask_table {st : Storage} (hd : d.kind = .table number space) (c : Call) :
    st.ask d c = st.askTable d number space c := by rw [ask, hd]

/-- **One step side by side**: a call put to a tree in memory and to a space that represents it has
outcomes that are alike, and leaves the one representing the other. -/
theorem represents_ask {st₁ st₂ : Storage} (hs : s.kind = .memory) (hd : d.kind = .table number space)
    (h : (st₂.table number).Represents space (st₁.memory s.id)) {c : Call} (hc : c.IsTidy) :
    c.OutcomesAlike (st₁.ask s c).1 (st₂.ask d c).1 ∧
      ((st₂.ask d c).2.table number).Represents space ((st₁.ask s c).2.memory s.id) := by
  rw [ask_memory hs, ask_table hd]
  obtain ⟨hm, ho⟩ := askMemory_follows (s := s) hc h.orderly
  obtain ⟨ht, hsound⟩ := askTable_follows (s := d) hc h.sound
  have hj : ∀ parts, c ≠ .join parts := by
    rintro parts rfl
    exact hc
  obtain ⟨hout, hview⟩ := hm.alike hj ht h.view_eq
  exact ⟨hout, hsound, ho, hview⟩

/-- **After equal calls the space represents the tree in memory.** -/
theorem represents_askAll {st₁ st₂ : Storage} (hs : s.kind = .memory)
    (hd : d.kind = .table number space)
    (h : (st₂.table number).Represents space (st₁.memory s.id)) {cs : List Call}
    (hcs : ∀ c ∈ cs, c.IsTidy) :
    ((st₂.askAll d cs).table number).Represents space ((st₁.askAll s cs).memory s.id) := by
  induction cs generalizing st₁ st₂ with
  | nil => exact h
  | cons c cs ih =>
    have hstep := (represents_ask hs hd h (hcs c List.mem_cons_self)).2
    exact ih hstep fun b hb => hcs b (List.mem_cons_of_mem c hb)

/-- **Tables refine trees in memory.**  A tree in memory and a space of a table that start empty
and are put the same calls have outcomes that are alike at every call.  A call that succeeds makes
the change that the view foresees; one that fails leaves the tree and the table as they were.  All
along the space represents the tree. -/
theorem table_refines_memory {st₁ st₂ : Storage} (hs : s.kind = .memory)
    (hd : d.kind = .table number space) (hm : st₁.memory s.id = .empty)
    (ht : ∀ row ∈ st₂.table number, row.space ≠ space) {before : List Call} {c : Call}
    (hcs : ∀ b ∈ before ++ [c], b.IsTidy) :
    let m := st₁.askAll s before
    let t := st₂.askAll d before
    c.OutcomesAlike (m.ask s c).1 (t.ask d c).1 ∧
      (∀ a, (m.ask s c).1 = .ok a →
        ((m.ask s c).2.memory s.id).view = (m.memory s.id).view.after c) ∧
      (∀ f, (m.ask s c).1 = .error f →
        (m.ask s c).2.memory s.id = m.memory s.id ∧ (t.ask d c).2.table number = t.table number) ∧
      (t.table number).Represents space (m.memory s.id) ∧
      ((t.ask d c).2.table number).Represents space ((m.ask s c).2.memory s.id) := by
  intro m t
  have hc : c.IsTidy := hcs c (List.mem_append_right _ List.mem_cons_self)
  have hstart : (st₂.table number).Represents space (st₁.memory s.id) :=
    hm ▸ Table.represents_empty ht
  have hrun : (t.table number).Represents space (m.memory s.id) :=
    represents_askAll hs hd hstart fun b hb => hcs b (List.mem_append_left _ hb)
  obtain ⟨hout, hafter⟩ := represents_ask hs hd hrun hc
  have hfm := (askMemory_follows (s := s) hc hrun.orderly).1
  have hft := (askTable_follows (s := d) hc hrun.sound).1
  rw [← ask_memory hs] at hfm
  rw [← ask_table hd] at hft
  refine ⟨hout, fun a ha => ?_, fun f hf => ?_, hrun, hafter⟩
  · by_cases hal : (m.memory s.id).view.Allows c
    · obtain ⟨-, -, -, hview⟩ := hfm.answered hal
      exact hview
    · obtain ⟨⟨f, hf⟩, -⟩ := hfm.refused hal
      rw [hf] at ha
      cases ha
  · by_cases hal : (m.memory s.id).view.Allows c
    · obtain ⟨a, ha, -⟩ := hfm.answered hal
      rw [ha] at hf
      cases hf
    · refine ⟨(hfm.refused hal).2, (hft.refused ?_).2⟩
      rw [hrun.view_eq]
      exact hal

/-- A file is written below a directory that was made with its parents, beside the rows of another
space. -/
theorem table_refines_memory_write :
    let st₁ : Storage := ⟨[], [], ⟨.empty, []⟩⟩
    let st₂ : Storage := ⟨[], [(0, [⟨"other", "/a", "/", "a", false, .empty, 0⟩])], ⟨.empty, []⟩⟩
    let s : Store := ⟨2, "mem://m", .memory⟩
    let d : Store := ⟨3, "db://n", .table 0 "n"⟩
    let before : List Call := [.makeDir "/a//b/" true, .remove "/a"]
    let c : Call := .write "a/b/c" .empty
    c.OutcomesAlike ((st₁.askAll s before).ask s c).1 ((st₂.askAll d before).ask d c).1 :=
  (table_refines_memory rfl rfl rfl (by decide) (by decide)).1

end Storage

end Arboretum
