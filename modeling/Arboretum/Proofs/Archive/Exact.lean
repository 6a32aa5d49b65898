import Arboretum.Proofs.Archive.Found

/-!
# An archive stores and finds all that it collects

The files that are collected from a directory are stored without a failure, each with the content that
it has on the disk; and what an archive tells about its patterns are the answers to its questions among
the files of the shelf: how many there are, and the first of them.  Two things only are in the way
(`archive_stores_and_finds`): a directory below whose path the host does not take, and a collected file
whose path cannot be encoded.  The two shelves share a table, each with a space of its own there, so
storing on the one leaves the other as it is (`fill_cases`).
-/

namespace Arboretum.Archive

variable {d : Disk} {directory : String}

/-! ## 1. The stores of an archive -/

/-- The store of a shelf in an archive before which no number was given. -/
def storeOf : Shelf → Store
  | .code => Shelf.code.store 3 2
  | .docs => Shelf.docs.store 4 2

/-- **The world that an archive fills**: the stores of both shelves are registered. -/
def ready (d : Disk) : World :=
  { World.initial d with
    registries := [(commonRegistry,
      (World.firstRegistry.register (storeOf .code)).register (storeOf .docs))]
    numbers := 5 }

/-- Both stores are open. -/
theorem isOpen_ready (d : Disk) (shelf : Shelf) : IsOpen (ready d) shelf (storeOf shelf) where
  kept := by
    have hfirst : World.firstRegistry.Reachable := .fresh (.inr ⟨rfl, rfl⟩) rfl
    exact ((hfirst.register (.table 3 2 "code")).register (.table 4 2 "docs")).sound.kept
  mounted := by
    cases shelf with
    | code => exact .table 3 2 "code"
    | docs => exact .table 4 2 "docs"
  mount := by cases shelf <;> rfl
  registered := by
    show _ ∈ ((World.firstRegistry.register (storeOf .code)).register (storeOf .docs)).mounts
    cases shelf <;> decide
  alone := by
    show ((World.firstRegistry.register (storeOf .code)).register (storeOf .docs)).Alone _
    cases shelf <;> decide
  ne_home := by
    show _ ≠ World.firstRegistry.home
    cases shelf <;> decide

/-- Nothing is stored yet. -/
theorem holds_ready (d : Disk) (shelf : Shelf) : (ready d).storage.Holds (storeOf shelf) .empty := by
  cases shelf with
  | code => exact (Storage.holds_table rfl).2 (Table.represents_empty (List.forall_mem_nil _))
  | docs => exact (Storage.holds_table rfl).2 (Table.represents_empty (List.forall_mem_nil _))

theorem shelved_empty (d : Disk) (directory : String) :
    Shelved d directory (Forest.empty : MemoryTree).view [] := by
  refine shelved_nil rfl fun ns hne => ?_
  cases ns with
  | nil => exact absurd rfl hne
  | cons n ns => rfl

/-- Shelves share no space. -/
theorem not_sharesTree_storeOf {shelf other : Shelf} (h : shelf ≠ other) :
    ¬ (storeOf shelf).SharesTree (storeOf other) := by
  rintro ⟨hkind, -⟩
  cases shelf <;> cases other
  · exact h rfl
  · exact absurd hkind (by decide)
  · exact absurd hkind (by decide)
  · exact h rfl

/-! ## 2. Filling -/

/-- **A world in which both shelves are full** of some files of the disk, and nothing else is
changed. -/
structure IsFull (d : Disk) (directory : String) (collected : Collected) (w : World) : Prop where
  unchanged : ∃ st, w = { ready d with storage := st }
  holds : ∀ shelf, ∃ f, w.storage.Holds (storeOf shelf) f ∧
    Shelved d directory f.view (collected.named shelf)

/-- **Storing both shelves** skips no file, or ends with the fault of a stray one. -/
theorem store_cases {collected : Collected}
    (h : ∀ shelf, Storable d directory (collected.on shelf)) :
    (collected.hasStray = false ∧ ∃ w₁ w₂,
      storeAll directory .code collected.code (ready d) = (.ok [], w₁) ∧
      storeAll directory .docs collected.docs w₁ = (.ok [], w₂) ∧ IsFull d directory collected w₂) ∨
    (collected.hasStray = true ∧ ∃ f w, fill directory collected (ready d) = (.error f, w) ∧
      f.label = "UnicodeEncodeError") := by
  unfold fill Collected.hasStray
  rcases (isOpen_ready d .code).storeAll_cases (holds_ready d .code) rfl (shelved_empty d directory)
    (h .code) with ⟨hnone, st₁, code, hcode, hholds, hshelved, hchanged⟩ | ⟨hsome, f, w, hcode, hlabel⟩
  · have hnone : Archive.hasStray collected.code = false := hnone
    have hcode : storeAll directory .code collected.code (ready d) = _ := hcode
    have hempty : st₁.Holds (storeOf .docs) .empty :=
      (holds_ready d .docs).of_changedOnly (not_sharesTree_storeOf (by decide)) hchanged
    have hdisk : st₁.disk = d := hchanged.disk_eq (isOpen_ready d .code).mounted
    rw [hnone, Bool.false_or, hcode]
    rcases ((isOpen_ready d .docs).with_storage st₁).storeAll_cases hempty hdisk
      (shelved_empty d directory) (h .docs) with
      ⟨hnone', st₂, docs, hdocs, hholds', hshelved', hchanged'⟩ | ⟨hsome, f, w, hdocs, hlabel⟩
    · refine .inl ⟨hnone', _, _, rfl, hdocs, ⟨st₂, rfl⟩, fun shelf => ?_⟩
      cases shelf with
      | code =>
        exact ⟨code, hholds.of_changedOnly (not_sharesTree_storeOf (by decide)) hchanged', hshelved⟩
      | docs => exact ⟨docs, hholds', hshelved'⟩
    · have hdocs : storeAll directory .docs collected.docs _ = _ := hdocs
      dsimp only
      rw [hdocs]
      exact .inr ⟨hsome, f, w, rfl, hlabel⟩
  · have hsome : Archive.hasStray collected.code = true := hsome
    have hcode : storeAll directory .code collected.code (ready d) = _ := hcode
    rw [hsome, hcode]
    exact .inr ⟨rfl, f, w, rfl, hlabel⟩

/-- What a question finds in a full archive. -/
def Question.found (q : Question) (collected : Collected) : String × List Match :=
  (q.text, (q.answers (collected.named q.shelf)).map q.matchOf)

/-- **Full shelves answer all questions**, one after the other. -/
theorem IsFull.each_findOne {collected : Collected} {w : World} (hfull : IsFull d directory collected w)
    {qs : List Question} (hqs : ∀ q ∈ qs, q.IsAsked) :
    each findOne (qs.map Question.text) w = (.ok (qs.map fun q => q.found collected), w) := by
  induction qs with
  | nil => rfl
  | cons q qs ih =>
    have hopen : IsOpen w q.shelf (storeOf q.shelf) := by
      obtain ⟨st, rfl⟩ := hfull.unchanged
      exact (isOpen_ready d q.shelf).with_storage st
    obtain ⟨f, hf, hshelved⟩ := hfull.holds q.shelf
    have hrun := run_globAll (hqs q List.mem_cons_self) hopen hf hshelved
    have hfind : findOne q.text w = (.ok (q.found collected), w) := by
      unfold findOne
      rw [hrun]
      rfl
    exact each_cons_of_ok hfind (ih fun q hm => hqs q (List.mem_cons_of_mem _ hm))

/-- **Filling an archive** skips no file and finds the answers to its questions, or ends with the fault
of a stray file. -/
theorem fill_cases {collected : Collected}
    (h : ∀ shelf, Storable d directory (collected.on shelf)) :
    (collected.hasStray = false ∧ ∃ w, fill directory collected (ready d) =
        (.ok ⟨collected, [], [], questions.map fun q => q.found collected⟩, w) ∧
      IsFull d directory collected w) ∨
    (collected.hasStray = true ∧ ∃ f w, fill directory collected (ready d) = (.error f, w) ∧
      f.label = "UnicodeEncodeError") := by
  rcases store_cases h with ⟨hnone, w₁, w₂, hcode, hdocs, hfull⟩ | hstray
  · refine .inl ⟨hnone, w₂, ?_, hfull⟩
    unfold fill
    rw [hcode]
    dsimp only
    rw [hdocs]
    dsimp only
    rw [← map_text_questions, hfull.each_findOne fun q hq => isAsked_of_mem hq]
  · exact .inr hstray

/-- Full shelves hold what the disk has. -/
theorem IsFull.read_eq {collected : Collected} {w : World} (hfull : IsFull d directory collected w)
    {shelf : Shelf} {names : List String} (hm : names ∈ collected.named shelf)
    (hn : Path.AreNames names) :
    ∃ data, d.read (pathBelow directory names) = .ok data ∧
      w.storage.ask (storeOf shelf) (.read (Path.ofNames names)) = (.ok data, w.storage) := by
  obtain ⟨f, hf, hshelved⟩ := hfull.holds shelf
  obtain ⟨data, hread, hfile⟩ := hshelved.stored names hm
  exact ⟨data, hread, hf.ask_read hn hfile⟩

/-! ## 3. The report -/

/-- The line about an answer. -/
def Question.line (q : Question) (names : List String) : String :=
  "    " ++ (q.shelf.mount ++ Path.ofNames names) ++ "  captures="
    ++ Text.quoteList (wildNames q.components names)

/-- What is told about a question: how many answers it has, and the first five of them. -/
def Question.report (q : Question) (files : List (List String)) : List String :=
  ("  " ++ q.text ++ ": " ++ toString (q.answers files).length ++ " match(es)")
    :: ((q.answers files).take 5).map q.line

/-- **What is told about an archive** in which all that was collected is stored and found. -/
def report (collected : Collected) (directory database : String) : List String :=
  ["Repo root:    " ++ directory, "SQLite path:  " ++ database, "",
    "Found " ++ toString collected.code.length ++ " code files, "
      ++ toString collected.docs.length ++ " doc files", ""]
    ++ Summary.headline "PHASE 1: Copying files"
    ++ ["  code: " ++ toString collected.code.length ++ " files",
      "  docs: " ++ toString collected.docs.length ++ " files", "  failed: 0", ""]
    ++ Summary.headline "PHASE 2: Globbing"
    ++ questions.flatMap fun q => q.report (collected.named q.shelf)

theorem patternLines_found (q : Question) (collected : Collected) :
    Summary.patternLines (q.found collected).1 (q.found collected).2 =
      q.report (collected.named q.shelf) := by
  rw [Summary.patternLines, Question.found, Question.report, List.length_map, List.map_take,
    List.map_map, Summary.shownMatches, List.map_take]
  rfl

theorem flatMap_patternLines (collected : Collected) :
    ((questions.map fun q => q.found collected).flatMap
      fun (pattern, found) => Summary.patternLines pattern found) =
      questions.flatMap fun q => q.report (collected.named q.shelf) := by
  rw [List.flatMap_map]
  exact congrArg (fun tell => questions.flatMap tell)
    (funext fun q => patternLines_found q collected)

/-- **The lines of a summary** with all answers and no failure. -/
theorem lines_eq_report (collected : Collected) (directory database : String) :
    Summary.lines ⟨collected, [], [], questions.map fun q => q.found collected⟩ directory database =
      report collected directory database := by
  have hshelf (shelf : Shelf) :
      Summary.shelfLines ⟨collected, [], [], questions.map fun q => q.found collected⟩ shelf =
        ["  " ++ shelf.name ++ ": " ++ toString (collected.on shelf).length ++ " files"] := by
    cases shelf <;> rfl
  have hcode : "  " ++ Shelf.code.name ++ ": " = "  code: " := by decide
  have hdocs : "  " ++ Shelf.docs.name ++ ": " = "  docs: " := by decide
  have hfailures :
      Summary.failures ⟨collected, [], [], questions.map fun q => q.found collected⟩ = 0 := rfl
  have hfailed : "  failed: " ++ toString 0 = "  failed: 0" := by decide
  rw [Summary.lines, report, flatMap_patternLines, hshelf, hshelf, hcode, hdocs, hfailures, hfailed]
  simp only [List.append_assoc, List.cons_append, List.nil_append]
  rfl

/-! ## 4. Archiving -/

/-- **An archive is the filling of the stores** that it registers with what it collects, with their
removal and that of the database's file behind it. -/
theorem archive_initial (d : Disk) (directory database : String) (strays : List Stray) :
    archive directory database strays (World.initial d) =
      match collect d strays directory with
      | .error f => (.error f, World.initial d)
      | .ok collected =>
        match fill directory collected (ready d) with
        | (outcome, w) =>
          let w := w.changeRegistry commonRegistry fun g =>
            (g.unregister (storeOf .code)).unregister (storeOf .docs)
          match outcome with
          | .error f => (.error f, w)
          | .ok summary => (.ok summary, dropFile database w) := rfl

/-- **An archive stores and finds all that it collects** from a directory below which no directory's
name ends in a blank, if the host takes the paths of all directories and the path of every collected
file can be encoded.

Otherwise it fails: before anything is done with the refusal of the first directory that cannot be
listed, or with the fault of a path that cannot be encoded.  If it does not fail, it has skipped
nothing; what it has found for each question are the answers among the collected files of the shelf
and the directories above them; what is printed tells how many they are, and the first of them; and
every collected file stands in its store with the content that it has on the disk. -/
theorem archive_stores_and_finds (d : Disk) (hd : d.Sound) (directory : String)
    {inside : Forest DiskLeaf}
    (hat : d.root.at? (Disk.start d.cwd directory ++ namesOn directory) = some (.folder inside))
    (hblank : inside.FolderNames fun name => Text.endsBlank name.toList = false)
    {strays : List Stray} (hstrays : ∀ place ∈ strays, place.IsIn inside) (database : String) :
    (¬ IsListable directory inside strays → ∃ f,
      archive directory database strays (World.initial d) = (.error f, World.initial d) ∧
        f.label = "OSError") ∧
    (IsListable directory inside strays → ∃ collected, collect d strays directory = .ok collected ∧
      (collected.hasStray = true → ∃ f w,
        archive directory database strays (World.initial d) = (.error f, w) ∧
          f.label = "UnicodeEncodeError") ∧
      (collected.hasStray = false → ∃ summary w,
        archive directory database strays (World.initial d) = (.ok summary, w) ∧
          summary.collected = collected ∧ summary.failures = 0 ∧
          summary.found = questions.map (fun q =>
            (q.text, (q.answers (collected.named q.shelf)).map q.matchOf)) ∧
          summary.lines directory database = report collected directory database ∧
          ∀ shelf, ∀ names ∈ collected.named shelf, ∃ data,
            d.read (pathBelow directory names) = .ok data ∧
            ((fill directory collected (ready d)).2.ask (storeOf shelf)
              (.read (Path.ofNames names))).1 = .ok data)) := by
  rw [archive_initial]
  rcases collect_cases hd hat strays with
    ⟨hlistable, collected, hcollect, hon⟩ | ⟨hrefused, f, hcollect, hlabel⟩
  · refine ⟨fun h => absurd hlistable h, fun _ => ⟨collected, hcollect, ?_⟩⟩
    have hstorable : ∀ shelf, Storable d directory (collected.on shelf) := fun shelf => by
      rw [hon]
      exact storable_filed (hd.rising.of_at? hat)
        (fun place hm => hstrays place (List.mem_filter.1 hm).1) (Forest.plain_of_at? hd.plain hat)
        hblank shelf
    rw [hcollect]
    dsimp only
    rcases fill_cases hstorable with ⟨hnone, w, hfill, hfull⟩ | ⟨hsome, f, w, hfill, hlabel⟩
    · rw [hfill]
      refine ⟨fun h => (by rw [hnone] at h; cases h), fun _ => ⟨_, _, rfl, rfl, rfl, rfl,
        lines_eq_report collected directory database, fun shelf names hm => ?_⟩⟩
      obtain ⟨item, hitem, hname⟩ := List.mem_filterMap.1 hm
      cases item with
      | stray place => cases hname
      | named ns =>
        cases hname
        obtain ⟨data, hread, hask⟩ := hfull.read_eq hm ((hstorable shelf).names _ hitem)
        exact ⟨data, hread, congrArg Prod.fst hask⟩
    · rw [hfill]
      exact ⟨fun _ => ⟨f, _, rfl, hlabel⟩, fun h => (by rw [hsome] at h; cases h)⟩
  · refine ⟨fun _ => ?_, fun h => absurd h hrefused⟩
    rw [hcollect]
    exact ⟨f, rfl, hlabel⟩

/-- A disk with files whose names look like the patterns in another case, and with a directory whose
name looks like that of a file. -/
def sources : Disk where
  root := .leaf "N.MD" (.file .empty) <| .leaf "README.md" (.file .empty) <|
    .folder "src" (.folder "x" (.leaf "W.PY" (.file .empty) <|
      .folder "fs" (.leaf "q.py" (.file .empty) .empty) <|
      .folder "y.py" (.leaf "z.py" (.file .empty) .empty) .empty) .empty) .empty
  cwd := []

/-- An empty file whose name has the byte of a Latin letter, which is no character by itself. -/
def strayFile : Stray := ⟨[signsOf "caf" ++ [.stray 0xE9] ++ signsOf ".py"], some 0, rfl⟩

/-- Directories in one another. -/
def tower : List String → Forest DiskLeaf
  | [] => .empty
  | name :: names => .folder name (tower names) .empty

/-- So many of them that the host does not take the path of the innermost. -/
def towering : List String := List.replicate 21 (String.ofList (List.replicate 200 'a'))

theorem at?_tower (names : List String) : (tower names).at? names = some (.folder .empty) := by
  induction names with
  | nil => rfl
  | cons name names ih =>
    rw [tower, Forest.at?_cons, Forest.find?, if_pos rfl]
    exact ih

theorem sound_tower {names : List String} (hp : Path.ArePlain names) :
    (⟨tower names, []⟩ : Disk).Sound := by
  induction names with
  | nil => exact ⟨.empty, .empty⟩
  | cons name names ih =>
    have hinside := ih fun n hn => hp n (List.mem_cons_of_mem name hn)
    exact ⟨.folder (hp name List.mem_cons_self) hinside.plain .empty,
      .folder (fun _ hm => absurd hm List.not_mem_nil) hinside.rising .empty⟩

theorem folderNames_tower {p : String → Prop} {names : List String} (h : ∀ n ∈ names, p n) :
    (tower names).FolderNames p := by
  induction names with
  | nil => trivial
  | cons name names ih =>
    exact ⟨h name List.mem_cons_self, ih fun n hn => h n (List.mem_cons_of_mem name hn), trivial⟩

/-- Of the files in a directory only those are found whose names are as the patterns have them, and a
directory is found like a file; a name that cannot be encoded ends the archive, and so does a directory
that lies too deep. -/
theorem archive_stores_and_finds_sources :
    (∃ summary w, archive "." "omnifs_repo.db" [] (World.initial sources) = (.ok summary, w) ∧
      summary.failures = 0 ∧ summary.lines "." "omnifs_repo.db" =
        ["Repo root:    .", "SQLite path:  omnifs_repo.db", "",
          "Found 3 code files, 2 doc files", ""] ++ Summary.headline "PHASE 1: Copying files"
        ++ ["  code: 3 files", "  docs: 2 files", "  failed: 0", ""]
        ++ Summary.headline "PHASE 2: Globbing"
        ++ ["  db://code/src/*/*.py: 1 match(es)", "    db://code/src/x/y.py  captures=['x', 'y.py']",
          "  db://code/src/*/fs/*.py: 1 match(es)",
          "    db://code/src/x/fs/q.py  captures=['x', 'q.py']", "  db://docs/*.md: 1 match(es)",
          "    db://docs/README.md  captures=['README.md']"]) ∧
    (∃ f w, archive "." "omnifs_repo.db" [strayFile] (World.initial sources) = (.error f, w) ∧
      f.label = "UnicodeEncodeError") ∧
    ∃ f, archive "." "omnifs_repo.db" [] (World.initial ⟨tower towering, []⟩) =
        (.error f, World.initial ⟨tower towering, []⟩) ∧ f.label = "OSError" := by
  have hd : sources.Sound := {
    plain := .leaf (by decide) (.leaf (by decide) (.folder (by decide) (.folder (by decide)
      (.leaf (by decide) (.folder (by decide) (.leaf (by decide) .empty)
        (.folder (by decide) (.leaf (by decide) .empty) .empty))) .empty) .empty))
    rising := .leaf (by decide) (.leaf (by decide) (.folder (by decide) (.folder (by decide)
      (.leaf (by decide) (.folder (by decide) (.leaf (by decide) .empty)
        (.folder (by decide) (.leaf (by decide) .empty) .empty))) .empty) .empty)) }
  have hblank : sources.root.FolderNames fun name => Text.endsBlank name.toList = false :=
    ⟨by decide, ⟨by decide, ⟨by decide, trivial, by decide, trivial, trivial⟩, trivial⟩, trivial⟩
  have hstray : ∀ place ∈ [strayFile], place.IsIn sources.root := by
    intro place hm
    obtain rfl := List.mem_singleton.1 hm
    have hnames : ∀ n ∈ strayFile.shownNames, Path.IsPlain n.toList := by decide
    exact ⟨hnames, by decide, fun _ => ⟨sources.root, rfl⟩⟩
  have hplain : Path.ArePlain towering := fun n hn => by
    rw [List.eq_of_mem_replicate hn]
    decide +kernel
  refine ⟨?_, ?_, ?_⟩
  · obtain ⟨collected, hcollect, -, hstores⟩ := (archive_stores_and_finds sources hd "." rfl hblank
      (List.forall_mem_nil _) "omnifs_repo.db").2 ((isListable_iff hd rfl).2 (by decide +kernel))
    cases hcollect.symm.trans (show collect sources [] "." = .ok
      ⟨[.named ["src", "x", "W.PY"], .named ["src", "x", "fs", "q.py"],
        .named ["src", "x", "y.py", "z.py"]], [.named ["N.MD"], .named ["README.md"]]⟩ from rfl)
    obtain ⟨summary, w, harchive, -, hfailures, -, hlines, -⟩ := hstores rfl
    exact ⟨summary, w, harchive, hfailures, hlines.trans (by decide +kernel)⟩
  · obtain ⟨collected, hcollect, hstray, -⟩ := (archive_stores_and_finds sources hd "." rfl hblank
      hstray "omnifs_repo.db").2 ((isListable_iff hd rfl).2 (by decide +kernel))
    cases hcollect.symm.trans (show collect sources [strayFile] "." = .ok
      ⟨[.stray strayFile, .named ["src", "x", "W.PY"], .named ["src", "x", "fs", "q.py"],
        .named ["src", "x", "y.py", "z.py"]], [.named ["N.MD"], .named ["README.md"]]⟩ from rfl)
    exact hstray rfl
  · refine (archive_stores_and_finds ⟨tower towering, []⟩ (sound_tower hplain) "." rfl
      (folderNames_tower fun n hn => ?_) (List.forall_mem_nil _) "omnifs_repo.db").1 fun h => ?_
    · rw [List.eq_of_mem_replicate hn]
      decide +kernel
    · exact h.named towering .empty (at?_tower towering) (by decide +kernel)

end Arboretum.Archive
