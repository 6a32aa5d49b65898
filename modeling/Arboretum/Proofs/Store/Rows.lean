import Arboretum.Proofs.Store.Building

/-!
# How the rows of a table hang together

Several stores may keep their spaces in one table, and none of them is asked to stay at tidy paths.
A table that started without rows and was changed by any calls (`Storage.Filled`) is **ordered**
all the same (`Filled.ordered`): a space has one row for a path, every row has the row of a
directory above it or hangs on the root, and a row's path is longer than the one above it.  So every
row is reached from the root through directories (`Ordered.reached`), and none is below a file.

What carries the proof is that a path and the path of its directory are cleaned a different number
of times, and that cleaning a rooted path never makes it longer (`Path.length_clean_le`).  A row
that is removed has no row below it, since a row's directory is found by the same text that its own
path is.  Whatever the stores are asked, a table changes in three ways only (`Table.Kept`), and what
these keep holds of every table that was filled (`Filled.keeps`).
-/

namespace Arboretum

/-! ## 1. Lengths of paths -/

namespace Path

variable {path : String}

/-- Cleaning a path that starts with a slash does not make it longer. -/
theorem length_clean_le (h : path.toList.head? = some '/') : (clean path).length ≤ path.length := by
  obtain ⟨rest, hrest⟩ : ∃ rest, path.toList = '/' :: rest := by
    cases hp : path.toList with
    | nil => rw [hp] at h; cases h
    | cons c rest =>
      rw [hp] at h
      exact ⟨rest, by rw [Option.some.inj h]⟩
  have hkept : keptFields path.toList = reduce true (fields (Text.trimEnd rest)) := by
    rw [keptFields, hrest, Text.trim_slash_cons_eq, fields_cons_slash, reduce_nil_cons]
  have hle := length_unfields_le (reduce_sublist true (fields (Text.trimEnd rest)))
  rw [unfields_fields] at hle
  have htrim : (Text.trimEnd rest).length ≤ rest.length := by
    unfold Text.trimEnd
    rw [List.length_reverse]
    exact (List.dropWhile_sublist _).length_le.trans_eq List.length_reverse
  calc (clean path).length
      = (unfields (keptFields path.toList)).length + 1 := by
        rw [clean, cleanChars_eq, ← String.length_toList, String.toList_ofList, List.length_cons]
    _ ≤ rest.length + 1 := by
        rw [hkept]
        omega
    _ = path.length := by rw [← String.length_toList, hrest, List.length_cons]

/-- A path with a name is longer than the path of its directory. -/
theorem length_parent_lt (h : name path ≠ "") : (parent path).length < (clean path).length := by
  rcases List.eq_nil_or_concat (names path) with hn | ⟨ns, n, hn⟩
  · exact absurd (name_of_names_nil hn) h
  · rw [List.concat_eq_append] at hn
    rw [parent_of_names hn, clean_eq_ofNames, hn, ← String.length_toList, ← String.length_toList,
      toList_ofNames, toList_ofNames, List.map_append, List.map_singleton, slash_unfields_append,
      List.length_append, List.length_cons, List.length_cons]
    have hmem : n ∈ names path := hn ▸ List.mem_append_right ns List.mem_cons_self
    have hfield := (isPlain_of_mem_names hmem).ne_nil
    have hpos := List.length_pos_iff.2 hfield
    by_cases hns : ns = []
    · subst hns
      simpa [unfields] using hpos
    · rw [if_neg (by simpa using hns), List.length_cons]
      omega

end Path

namespace Table

variable {t t' : Table} {space path above name : String} {row : Row}

/-! ## 2. Ordered tables -/

/-- **A row hangs** on a directory of its space: on the root, or on one whose row stands in the
table.  Its path is longer than the directory's, its size is that of its content, and a directory
has no content. -/
structure Hangs (t : Table) (row : Row) : Prop where
  shorter : row.parent.length < row.path.length
  held : row.parent = Path.root ∨
    ∃ above ∈ t, above.space = row.space ∧ above.path = row.parent ∧ above.isDirectory = true
  size : row.size = row.content.size
  empty : row.isDirectory = true → row.content = .empty

/-- **An ordered table**: a space has at most one row for a path, and every row hangs on a
directory. -/
structure Ordered (t : Table) : Prop where
  unique : t.Pairwise fun a b => a.space = b.space → a.path ≠ b.path
  hangs : ∀ row ∈ t, t.Hangs row

theorem ordered_nil : Ordered [] := ⟨.nil, fun _ hm => absurd hm List.not_mem_nil⟩

/-- A row keeps hanging while the rows of directories stay. -/
theorem Hangs.imp (h : t.Hangs row)
    (hrow : ∀ above ∈ t, above.space = row.space → above.path = row.parent →
      above.isDirectory = true → ∃ other ∈ t', other.space = above.space ∧
        other.path = above.path ∧ other.isDirectory = true) : t'.Hangs row := by
  refine { h with held := ?_ }
  rcases h.held with hroot | ⟨above, hm, hs, hp, hd⟩
  · exact .inl hroot
  · obtain ⟨other, hm', hs', hp', hd'⟩ := hrow above hm hs hp hd
    exact .inr ⟨other, hm', hs'.trans hs, hp'.trans hp, hd'⟩

/-- The row of a path in a space is the one. -/
theorem Ordered.eq_of_path (h : t.Ordered) {a b : Row} (ha : a ∈ t) (hb : b ∈ t)
    (hs : a.space = b.space) (hp : a.path = b.path) : a = b := by
  by_contra hne
  have hsymm : Std.Symm fun a b : Row => a.space = b.space → a.path ≠ b.path :=
    ⟨fun a b hab hs hp => hab hs.symm hp.symm⟩
  exact h.unique.forall ha hb hne hs hp

/-- **Every directory on the way to a row has a row**, up to the root: these are the rows that are
reached from the root. -/
inductive Reached (t : Table) (space : String) : String → Prop
  | root : Reached t space Path.root
  | through {row : Row} (hm : row ∈ t) (hs : row.space = space) (hd : row.isDirectory = true)
    (h : Reached t space row.parent) : Reached t space row.path

/-- **In an ordered table every row is reached from the root through directories.**  By induction
on the length of the path: the way up gets shorter. -/
theorem Ordered.reached (h : t.Ordered) (hm : row ∈ t) : t.Reached row.space row.parent := by
  generalize hn : row.path.length = n
  induction n using Nat.strong_induction_on generalizing row with
  | _ n ih =>
    obtain hroot | ⟨above, habove, hs, hp, hd⟩ := (h.hangs row hm).held
    · rw [hroot]
      exact .root
    · have hlt : above.path.length < n := by
        rw [hp, ← hn]
        exact (h.hangs row hm).shorter
      rw [← hs, ← hp]
      exact .through habove rfl hd (ih _ hlt habove rfl)

/-- What is reached is no shorter than the root. -/
theorem Ordered.length_pos_of_reached (h : t.Ordered) (hr : t.Reached space path) :
    Path.root.length ≤ path.length := by
  induction hr with
  | root => exact Nat.le_refl _
  | through hm _ _ _ ih => exact ih.trans (h.hangs _ hm).shorter.le

/-- **No row of an ordered table is below a file.** -/
theorem Ordered.isDirectory_of_parent (h : t.Ordered) {above : Row} (hm : row ∈ t) (ha : above ∈ t)
    (hs : above.space = row.space) (hp : above.path = row.parent) : above.isDirectory = true := by
  obtain hroot | ⟨other, hother, hs', hp', hd⟩ := (h.hangs row hm).held
  · have hlong := h.length_pos_of_reached (h.reached ha)
    have hshort := (h.hangs above ha).shorter
    rw [hp, hroot] at hshort
    omega
  · rwa [h.eq_of_path ha hother (hs.trans hs'.symm) (hp.trans hp'.symm)]

/-! ## 3. Changes -/

/-- **What holds a path**: its directory, which is the root or has a row, and its last name. -/
theorem of_holder {above : String} (h : t.holder space path = .ok (above, name)) :
    Path.split path = (above, name) ∧ name ≠ "" ∧ (above = Path.root ∨
      ∃ row ∈ t, row.space = space ∧ row.path = above ∧ row.isDirectory = true) := by
  change (if Path.name path = "" then _ else if Path.parent path = Path.root then _ else _) = _ at h
  split at h
  · cases h
  · next hn =>
    split at h
    · next hroot =>
      cases h
      exact ⟨rfl, hn, .inl hroot⟩
    · split at h
      · cases h
      · next row hrow =>
        obtain ⟨hm, hs, hp⟩ := of_find?_eq_some hrow
        split at h
        · next hd =>
          cases h
          exact ⟨rfl, hn, .inr ⟨row, hm, hs, hp, hd⟩⟩
        · cases h

/-- **A row that a table can get**: at the clean path of a text that has no row yet, on the directory
that holds it. -/
structure IsNew (t : Table) (row : Row) : Prop where
  clean : ∃ text, row.path = Path.clean text
  free : t.find? row.space row.path = none
  held : t.holder row.space row.path = .ok (row.parent, row.name)
  size : row.size = row.content.size
  empty : row.isDirectory = true → row.content = .empty

/-- **What every change of a table keeps**: a new row comes at the end, a file gets other content, and
a row goes that has no row below it. -/
structure Kept (P : Table → Prop) : Prop where
  nil : P []
  append : ∀ {t : Table} {row : Row}, P t → t.IsNew row → P (t ++ [row])
  refill : ∀ {t : Table} {space path : String} {row : Row} (data : ByteArray), P t →
    t.find? space path = some row → row.isDirectory = false → P (t.refill space path data)
  erase : ∀ {t : Table} {space path : String} {row : Row}, P t → t.find? space path = some row →
    (row.isDirectory = true → t.below space path = []) →
    P (t.filter fun row => !(row.space = space && row.path = path))

namespace Kept

variable {P : Table → Prop} (hP : Kept P)
include hP

/-- **Writing** keeps it, -/
theorem write (h : P t) {data : ByteArray} (hw : t.write space path data = .ok t') : P t' := by
  unfold Table.write at hw
  dsimp only at hw
  split at hw
  · cases hw
  · next above name hholder =>
    split at hw
    · next hfree =>
      obtain rfl := Except.ok.inj hw
      exact hP.append h ⟨⟨path, rfl⟩, hfree, hholder, rfl, fun hd => Bool.noConfusion hd⟩
    · next row hrow =>
      split at hw
      · cases hw
      · next hfile =>
        obtain rfl := Except.ok.inj hw
        exact hP.refill data h hrow (Bool.eq_false_iff.2 hfile)

theorem makeOne (h : P t) (hclean : ∃ text, path = Path.clean text)
    (hm : t.makeOne space path = .ok t') : P t' := by
  unfold Table.makeOne at hm
  split at hm
  · cases hm
  · split at hm
    · cases hm
    · next hfree =>
      split at hm
      · cases hm
      · next above name hholder =>
        obtain rfl := Except.ok.inj hm
        exact hP.append h ⟨hclean, Option.not_isSome_iff_eq_none.1 hfree, hholder, rfl, fun _ => rfl⟩

omit hP in
/-- A change that happens whole or not at all keeps what its success keeps. -/
theorem whole (h : P t) {result : Except Fault Table} (hr : ∀ t', result = .ok t' → P t') :
    P (Changed.whole t result).2 := by
  cases result with
  | ok t' => exact hr t' rfl
  | error f => exact h

theorem makeLevel (h : P t) (hclean : ∃ text, path = Path.clean text) :
    P (makeLevel space path t).2 := by
  unfold Table.makeLevel
  split
  · exact h
  · exact whole h fun t' hm => hP.makeOne h hclean hm

omit hP in
/-- Every level to make is a clean path. -/
theorem exists_clean_of_mem_missingLevels {depth : Nat} (hclean : ∃ text, path = Path.clean text)
    {level : String} (hl : level ∈ t.missingLevels space depth path) :
    ∃ text, level = Path.clean text := by
  have hlast : ∀ {path : String}, (∃ text, path = Path.clean text) → level ∈ [path] →
      ∃ text, level = Path.clean text := fun hclean hl => List.mem_singleton.1 hl ▸ hclean
  induction depth generalizing path with
  | zero => exact hlast hclean hl
  | succ depth ih =>
    rw [missingLevels] at hl
    split at hl
    · exact hlast hclean hl
    · dsimp only at hl
      split at hl
      · rcases List.mem_append.1 hl with hl | hl
        · exact ih ⟨_, rfl⟩ hl
        · exact hlast hclean hl
      · exact hlast hclean hl

/-- **making directories** does, though a level may stand when a later one fails, -/
theorem makeDir (h : P t) (space path : String) (parents : Bool) :
    P (t.makeDir space path parents).2 := by
  unfold Table.makeDir
  dsimp only
  split
  · refine Changed.inTurn_keeps (P := P) (fun level hl t ht next hnext => ?_) h rfl
    rw [← hnext]
    exact hP.makeLevel ht (exists_clean_of_mem_missingLevels ⟨path, rfl⟩ hl)
  · exact whole h fun t' hm => hP.makeOne h ⟨path, rfl⟩ hm

/-- **and removing** does: a directory goes only when no row is below it. -/
theorem remove (h : P t) (hr : t.remove space path = .ok t') : P t' := by
  unfold Table.remove at hr
  dsimp only at hr
  split at hr
  · cases hr
  · next row hrow =>
    split at hr
    · cases hr
    · next hempty =>
      obtain rfl := Except.ok.inj hr
      refine hP.erase h hrow fun hd => ?_
      rw [hd, Bool.true_and, Bool.not_eq_true, Bool.not_eq_false'] at hempty
      exact List.isEmpty_iff.1 hempty

end Kept

/-! ## 4. Changes of ordered tables -/

/-- A new row on a directory that is there, at a path without a row. -/
theorem Ordered.append (h : t.Ordered) (hfree : t.find? row.space row.path = none)
    (hrow : t.Hangs row) : Ordered (t ++ [row]) := by
  have hstays : ∀ {other : Row}, t.Hangs other → Hangs (t ++ [row]) other := fun ho =>
    ho.imp fun above hm _ _ hd => ⟨above, List.mem_append_left _ hm, rfl, rfl, hd⟩
  refine ⟨List.pairwise_append.2 ⟨h.unique, List.pairwise_singleton .., ?_⟩, fun other hm => ?_⟩
  · intro other hm last hlast hs
    obtain rfl := List.mem_singleton.1 hlast
    exact find?_eq_none_iff.1 hfree other hm hs
  · rcases List.mem_append.1 hm with hm | hm
    · exact hstays (h.hangs other hm)
    · rw [List.mem_singleton.1 hm]
      exact hstays hrow

/-- A file gets other content. -/
theorem Ordered.refill (h : t.Ordered) (hrow : t.find? space path = some row)
    (hfile : row.isDirectory = false) (data : ByteArray) : (t.refill space path data).Ordered := by
  obtain ⟨hm, rfl, rfl⟩ := of_find?_eq_some hrow
  let new (other : Row) : Row :=
    if other.space = row.space && other.path = row.path then
      { other with content := data, size := data.size }
    else other
  have hkeeps : ∀ other, (new other).space = other.space ∧ (new other).path = other.path ∧
      (new other).parent = other.parent ∧ (new other).isDirectory = other.isDirectory := by
    intro other
    dsimp only [new]
    split <;> exact ⟨rfl, rfl, rfl, rfl⟩
  have hsize : ∀ other ∈ t, (new other).size = (new other).content.size ∧
      (other.isDirectory = true → (new other).content = .empty) := by
    intro other ho
    dsimp only [new]
    split
    · next hsame =>
      rw [Bool.and_eq_true, decide_eq_true_eq, decide_eq_true_eq] at hsame
      rw [h.eq_of_path ho hm hsame.1 hsame.2, hfile]
      exact ⟨rfl, fun hd => Bool.noConfusion hd⟩
    · exact ⟨(h.hangs other ho).size, (h.hangs other ho).empty⟩
  change Ordered (t.map new)
  refine ⟨List.pairwise_map.2 (h.unique.imp fun hab => ?_), fun other ho => ?_⟩
  · rw [(hkeeps _).1, (hkeeps _).1, (hkeeps _).2.1, (hkeeps _).2.1]
    exact hab
  · obtain ⟨old, hold, rfl⟩ := List.mem_map.1 ho
    obtain ⟨hs, hp, hparent, hd⟩ := hkeeps old
    have hhangs : Hangs (t.map new) old := (h.hangs old hold).imp fun above habove _ _ hda =>
      ⟨new above, List.mem_map_of_mem habove, (hkeeps above).1, (hkeeps above).2.1,
        (hkeeps above).2.2.2.trans hda⟩
    refine ⟨?_, ?_, (hsize old hold).1, ?_⟩
    · rw [hparent, hp]
      exact hhangs.shorter
    · rw [hparent, hs]
      exact hhangs.held
    · rw [hd]
      exact (hsize old hold).2

/-- A row goes that has no row below it. -/
theorem Ordered.erase (h : t.Ordered)
    (hnone : ∀ row ∈ t, row.space = space → row.isDirectory = true → row.path = path →
      t.below space path = []) :
    Ordered (t.filter fun row => !(row.space = space && row.path = path)) := by
  refine ⟨h.unique.filter _, fun row hm => ?_⟩
  obtain ⟨hm, -⟩ := List.mem_filter.1 hm
  refine (h.hangs row hm).imp fun above ha hs hp hd =>
    ⟨above, List.mem_filter.2 ⟨ha, ?_⟩, rfl, rfl, hd⟩
  by_contra hgone
  rw [Bool.not_eq_true, Bool.not_eq_false', Bool.and_eq_true, decide_eq_true_eq,
    decide_eq_true_eq] at hgone
  obtain ⟨hspace, hpath⟩ := hgone
  -- The row would be listed below the directory that goes.
  have hbelow : row ∈ t.below space path := by
    refine List.mem_filter.2 ⟨hm, ?_⟩
    rw [decide_eq_true (hs.symm.trans hspace), decide_eq_true (hp.symm.trans hpath)]
    rfl
  rw [hnone above ha hspace hd hpath] at hbelow
  exact List.not_mem_nil hbelow

/-- **Every change keeps a table ordered.** -/
theorem kept_ordered : Kept Ordered where
  nil := ordered_nil
  append := by
    intro t row h hnew
    obtain ⟨text, htext⟩ := hnew.clean
    obtain ⟨hsplit, hnamed, hheld⟩ := of_holder hnew.held
    have hname : Path.name row.path = row.name := congrArg Prod.snd hsplit
    refine h.append hnew.free ⟨?_, hheld, hnew.size, hnew.empty⟩
    calc row.parent.length
        = (Path.parent row.path).length := by rw [Path.parent, hsplit]
      _ < (Path.clean row.path).length := Path.length_parent_lt (hname ▸ hnamed)
      _ ≤ row.path.length := Path.length_clean_le (htext ▸ Path.head?_clean text)
  refill data h hrow hfile := h.refill hrow hfile data
  erase := by
    intro t space path row h hrow hempty
    obtain ⟨hm, hs, hp⟩ := of_find?_eq_some hrow
    refine h.erase fun other ho hs' hd hp' => ?_
    obtain rfl := h.eq_of_path hm ho (hs.trans hs'.symm) (hp.trans hp'.symm)
    exact hempty hd

end Table

/-! ## 5. Stores -/

namespace Storage

variable {st : Storage} {number : Nat} {P : Table → Prop}

/-- **A table was filled**: it started without rows, and since then any stores got any calls, at
any paths and with any outcome. -/
inductive Filled (number : Nat) : Storage → Prop
  | bare {st : Storage} (h : st.table number = []) : Filled number st
  | ask {st : Storage} (h : Filled number st) (s : Store) (c : Call) : Filled number (st.ask s c).2

/-- No store of another table changes a table, whatever it is asked. -/
theorem table_ask (st : Storage) {s : Store} (hne : ∀ space, s.kind ≠ .table number space)
    (c : Call) : (st.ask s c).2.table number = st.table number := by
  cases hk : s.kind with
  | memory =>
    rw [ask_memory hk]
    rcases st.askMemory_storage s c with he | ⟨tree, he⟩
    · rw [he]
    · rw [he]
      rfl
  | table other space =>
    rw [ask_table hk]
    rcases st.askTable_storage s other space c with he | ⟨rows, he⟩
    · rw [he]
    · have hn : other ≠ number := fun hn => hne space (hn ▸ hk)
      rw [he, table_setTable_of_ne hn]
  | disk =>
    obtain ⟨disk, he⟩ := st.askDisk_storage s c
    have hask : (st.ask s c).2 = { st with disk } := by rw [ask, hk, ← he]
    rw [hask]
    rfl
  | void => rw [ask, hk]
  | outside label abilities => rw [ask, hk]

/-- A call of a store that keeps a space of the table. -/
theorem kept_askTable (hP : Table.Kept P) (h : P (st.table number)) (s : Store) (space : String)
    (c : Call) : P ((st.askTable s number space c).2.table number) := by
  cases c with
  | list path hints => exact h
  | stat path => exact h
  | join parts => exact h
  | read path => exact h
  | write path data =>
    simp only [askTable, askTable.settle, table_setTable]
    exact Table.Kept.whole h fun t' hw => hP.write h hw
  | makeDir path parents =>
    simp only [askTable, askTable.settle, table_setTable]
    exact hP.makeDir h space path parents
  | remove path =>
    simp only [askTable, askTable.settle, table_setTable]
    exact Table.Kept.whole h fun t' hr => hP.remove h hr

/-- **A table that was filled has what every change keeps.**  By induction on the calls: those of the
stores that keep a space of the table change it, and no others. -/
theorem Filled.keeps (h : Filled number st) (hP : Table.Kept P) : P (st.table number) := by
  induction h with
  | bare h =>
    rw [h]
    exact hP.nil
  | @ask st _ s c ih =>
    by_cases hk : ∃ space, s.kind = .table number space
    · obtain ⟨space, hk⟩ := hk
      rw [ask_table hk]
      exact kept_askTable hP ih s space c
    · rw [st.table_ask (fun space hs => hk ⟨space, hs⟩) c]
      exact ih

/-- **A table that was filled is ordered.** -/
theorem Filled.ordered (h : Filled number st) : (st.table number).Ordered :=
  h.keeps Table.kept_ordered

/-- **What holds of the rows of a table**, whatever calls its stores got: a space has one row for a
path; a row hangs on the root or on the row of a directory of its space, its path is longer than the
directory's, its size is that of its content, and a directory has none; so every row is reached from
the root through directories, and none is below a file.  The next call of any store leaves the rows
of every space that is not its own. -/
theorem rows_hang_together (h : Filled number st) :
    (st.table number).Ordered ∧
    (∀ row ∈ st.table number, (st.table number).Reached row.space row.parent ∧
      ∀ above ∈ st.table number, above.space = row.space → above.path = row.parent →
        above.isDirectory = true) ∧
    ∀ (s : Store) (c : Call) (space : String), s.kind ≠ .table number space →
      ((st.ask s c).2.table number).rows space = (st.table number).rows space :=
  ⟨h.ordered,
    fun _ hm => ⟨h.ordered.reached hm,
      fun _ ha hs hp => h.ordered.isDirectory_of_parent hm ha hs hp⟩,
    fun _ c _ hk => st.rows_ask hk c⟩

/-- Two spaces of a table: in one a directory whose name ends in a blank, and a file below it. -/
theorem rows_hang_together_blank :
    let one : Store := ⟨2, "db://a", .table 7 "a"⟩
    let other : Store := ⟨3, "db://b", .table 7 "b"⟩
    let st₀ : Storage := ⟨[], [], ⟨.empty, []⟩⟩
    let st₁ := (st₀.ask one (.makeDir "/d /." false)).2
    let st₂ := (st₁.ask one (.write "/d /x" .empty)).2
    let st₃ := (st₂.ask other (.makeDir "/d" true)).2
    (st₃.table 7).map (fun row => (row.space, row.parent, row.path)) =
        [("a", "/", "/d "), ("a", "/d ", "/d /x"), ("b", "/", "/d")] ∧
      (st₃.table 7).Ordered ∧
      ((st₃.ask one (.remove "/d ")).2.table 7).rows "b" = (st₃.table 7).rows "b" := by
  intro one other st₀ st₁ st₂ st₃
  have hfilled : Filled 7 st₃ := .ask (.ask (.ask (.bare rfl) one _) one _) other _
  obtain ⟨hordered, -, hkept⟩ := rows_hang_together hfilled
  exact ⟨by decide +kernel, hordered, hkept one (.remove "/d ") "b" (by decide)⟩

end Storage

end Arboretum
