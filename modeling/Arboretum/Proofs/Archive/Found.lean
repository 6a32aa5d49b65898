import Mathlib.Data.List.Dedup
import Mathlib.Data.List.Sort
import Arboretum.Proofs.Archive.Stored
import Arboretum.Proofs.Glob.Rooted

/-!
# What is stored is found

The patterns that an archive globs are questions about a shelf: a list of components, each of which
asks for one name, for any name, or for a name with a certain end.  The answers are said without a
run (`Question.answers`): among the places of the collected files and of the directories above them,
those that fit component by component, each of them once, in the order of their components.  On a
shelf that holds the files, the segments of a question reach exactly its answers (`reach_eq`), so a
glob finds them (`run_globAll`).
-/

namespace Arboretum.Archive

open Glob (Reached standsFor standForAll captured capturesOf reach)
open Pattern (Segment IsCut)

/-! ## 1. Questions -/

/-- What a component of a question asks for. -/
inductive Component where
  | exactly (name : String)
  | any
  | ending (suffix : String)
deriving DecidableEq, Repr

namespace Component

/-- A name fits a component, in the case of its letters too. -/
def fits : Component → String → Bool
  | .exactly wanted, name => wanted = name
  | .any, _ => true
  | .ending suffix, name => suffix.toList.isSuffixOf name.toList

/-- A component that leaves names open. -/
def isWild : Component → Bool
  | .exactly _ => false
  | .any => true
  | .ending _ => true

/-- How a component is written in a pattern. -/
def text : Component → String
  | .exactly name => name
  | .any => "*"
  | .ending suffix => "*" ++ suffix

end Component

/-- **Names fit components**, one by one. -/
def fitAll : List Component → List String → Bool
  | [], [] => true
  | c :: components, name :: names => c.fits name && fitAll components names
  | _, _ => false

/-- The names among those that fit components that wild ones left open. -/
def wildNames : List Component → List String → List String
  | c :: components, name :: names =>
    if c.isWild then name :: wildNames components names else wildNames components names
  | _, _ => []

/-- A question about a shelf. -/
structure Question where
  shelf : Shelf
  components : List Component
deriving DecidableEq, Repr

/-- The places of files and of all directories above them. -/
def placesOf (files : List (List String)) : List (List String) := files.flatMap List.inits

namespace Question

/-- The pattern of a question below the mount of its shelf. -/
def below (q : Question) : String := "/".intercalate (q.components.map Component.text)

/-- The pattern of a question. -/
def text (q : Question) : String := q.shelf.mount ++ "/" ++ q.below

/-- **The answers to a question** among the places of some files and of the directories above them:
those that fit, each of them once, in the order of their components. -/
def answers (q : Question) (files : List (List String)) : List (List String) :=
  ((placesOf files).filter (fitAll q.components)).dedup.insertionSort fun a b => ¬ b < a

/-- The match of an answer. -/
def matchOf (q : Question) (names : List String) : Match :=
  ⟨⟨q.shelf.mount ++ Path.ofNames names, some commonRegistry⟩, wildNames q.components names⟩

end Question

/-- The questions that an archive asks. -/
def questions : List Question :=
  [⟨.code, [.exactly "src", .any, .ending ".py"]⟩,
    ⟨.code, [.exactly "src", .any, .exactly "fs", .ending ".py"]⟩, ⟨.docs, [.ending ".md"]⟩]

/-- They are asked by the patterns. -/
theorem map_text_questions : questions.map Question.text = patterns := by decide +kernel

/-! ## 2. Answers -/

theorem mem_placesOf {files : List (List String)} {names : List String} :
    names ∈ placesOf files ↔ ∃ file ∈ files, names <+: file := by
  simp only [placesOf, List.mem_flatMap, List.mem_inits]

namespace Question

variable {q : Question} {files : List (List String)}

/-- **The answers** are the places that fit. -/
theorem mem_answers {names : List String} : names ∈ q.answers files ↔
    fitAll q.components names = true ∧ ∃ file ∈ files, names <+: file := by
  rw [answers, List.mem_insertionSort, List.mem_dedup, List.mem_filter, mem_placesOf, and_comm]

/-- They rise from first to last. -/
theorem pairwise_answers (q : Question) (files : List (List String)) :
    (q.answers files).Pairwise (· < ·) := by
  have htotal : Std.Total fun a b : List String => ¬ b < a :=
    ⟨fun a b => (em (b < a)).elim (fun h => .inr (List.lt_asymm h)) .inl⟩
  have htrans : IsTrans (List String) fun a b => ¬ b < a :=
    ⟨fun _ _ _ hab hbc => List.le_trans hab hbc⟩
  have hnodup : (q.answers files).Nodup :=
    (List.perm_insertionSort _ _).nodup_iff.2 (List.nodup_dedup _)
  refine ((List.pairwise_insertionSort _ _).and hnodup).imp fun {a b} h => ?_
  by_contra hlt
  exact h.2 (List.le_antisymm h.1 hlt)

end Question

/-! ## 3. Segments -/

/-- The segment of a component. -/
def Component.segment : Component → Segment
  | .exactly name => .verbatim name
  | .any => ⟨"*", [.anyRun]⟩
  | .ending suffix => ⟨"*" ++ suffix, .anyRun :: suffix.toList.map .char⟩

/-- A component that asks for one name asks for one that a tree can have. -/
def Component.IsProper : Component → Prop
  | .exactly name => Path.IsName name
  | _ => True

instance : (c : Component) → Decidable c.IsProper
  | .exactly name => inferInstanceAs (Decidable (Path.IsName name))
  | .any => inferInstanceAs (Decidable True)
  | .ending _ => inferInstanceAs (Decidable True)

theorem literal?_anyRun (text : String) (items : List Pattern.Item) :
    (⟨text, .anyRun :: items⟩ : Segment).literal? = none := by
  rw [Segment.literal?, List.mapM_cons]
  rfl

/-- Plain items are cut for their own characters only. -/
theorem isCut_map_char {cs ds : List Char} :
    IsCut Pattern.Item.Covers (cs.map .char) ds ↔ ds = cs := by
  induction cs generalizing ds with
  | nil => exact Pattern.isCut_nil
  | cons c cs ih =>
    rw [List.map_cons, Pattern.isCut_cons]
    constructor
    · rintro ⟨piece, rest, rfl, ⟨⟩, hrest⟩
      rw [ih.1 hrest]
      rfl
    · rintro rfl
      exact ⟨[c], cs, rfl, .char c, ih.2 rfl⟩

/-- **A segment stands for the names that fit its component.** -/
theorem standsFor_segment {c : Component} (hc : c.IsProper) (name : String) :
    standsFor c.segment name = c.fits name := by
  cases c with
  | exactly wanted =>
    have hclimb : wanted ≠ Pattern.climbing := fun he =>
      hc.1.ne_above (congrArg String.toList he)
    unfold standsFor Component.segment Component.fits
    rw [Segment.literal?_verbatim]
    simp [hclimb]
  | any =>
    rw [standsFor, Component.segment, literal?_anyRun]
    refine (Pattern.covers_iff_isCut [.anyRun] name.toList).2 ?_
    exact Pattern.isCut_cons.2 ⟨name.toList, [], (List.append_nil _).symm, .anyRun _,
      Pattern.isCut_nil.2 rfl⟩
  | ending suffix =>
    rw [standsFor, Component.segment, literal?_anyRun, Bool.eq_iff_iff]
    refine (Pattern.covers_iff_isCut _ _).trans ?_
    rw [Component.fits, List.isSuffixOf_iff_suffix, Pattern.isCut_cons]
    constructor
    · rintro ⟨piece, rest, he, -, hrest⟩
      rw [isCut_map_char.1 hrest] at he
      exact ⟨piece, he.symm⟩
    · rintro ⟨piece, he⟩
      exact ⟨piece, _, he.symm, .anyRun piece, isCut_map_char.2 rfl⟩

theorem captured_segment (c : Component) (name : String) :
    captured c.segment name = if c.isWild then [name] else [] := by
  cases c with
  | exactly wanted =>
    unfold captured Component.segment
    rw [Segment.literal?_verbatim]
    rfl
  | any =>
    unfold captured Component.segment
    rw [literal?_anyRun]
    rfl
  | ending suffix =>
    unfold captured Component.segment
    rw [literal?_anyRun]
    rfl

theorem standForAll_segments {components : List Component} (hc : ∀ c ∈ components, c.IsProper)
    (names : List String) :
    standForAll (components.map Component.segment) names = fitAll components names := by
  induction components generalizing names with
  | nil => cases names <;> rfl
  | cons c components ih =>
    cases names with
    | nil => rfl
    | cons name names =>
      rw [List.map_cons, standForAll, fitAll, standsFor_segment (hc c List.mem_cons_self),
        ih fun c hm => hc c (List.mem_cons_of_mem _ hm)]

theorem capturesOf_segments (components : List Component) (names : List String) :
    capturesOf (components.map Component.segment) names = wildNames components names := by
  induction components generalizing names with
  | nil => cases names <;> rfl
  | cons c components ih =>
    cases names with
    | nil => rfl
    | cons name names =>
      rw [List.map_cons, capturesOf, wildNames, captured_segment, ih]
      split <;> rfl

/-! ## 4. Questions put to a shelf -/

/-- **A question that its pattern asks**: read behind the mount and alone, the text has the segments
of the components. -/
structure Question.IsAsked (q : Question) : Prop where
  proper : ∀ c ∈ q.components, c.IsProper
  ne_nil : q.components ≠ []
  alone : Pattern.read q.below =
    .ok ⟨q.below, q.components.map Component.segment, false, none⟩
  behind : Pattern.read q.text =
    .ok ⟨q.text, .verbatim q.shelf.name :: q.components.map Component.segment, false,
      some Store.tableScheme⟩

/-- The questions of an archive are asked so. -/
theorem isAsked_of_mem {q : Question} (h : q ∈ questions) : q.IsAsked where
  proper := by
    revert q
    decide
  ne_nil := by
    revert q
    decide
  alone := by
    revert q
    decide +kernel
  behind := by
    revert q
    decide +kernel

variable {q : Question} {d : Disk} {directory : String} {f : MemoryTree} {files : List (List String)}

/-- **The segments of a question reach its answers**, in their order, with the wild names as
captures. -/
theorem reach_eq (hq : q.IsAsked) (ho : f.Orderly) (h : Shelved d directory f.view files) :
    reach false (q.components.map Component.segment) (.folder f) =
      (q.answers files).map fun names => ⟨names, wildNames q.components names⟩ := by
  have hnode : (Node.folder f).Orderly := ho
  have hmem : ∀ r, r ∈ reach false (q.components.map Component.segment) (.folder f) ↔
      r.names ∈ q.answers files ∧ r.captures = wildNames q.components r.names := by
    intro r
    have hview : (∃ x, (Node.folder f).view r.names = some x ∧
        (false = true → x.isDirectory = true)) ↔ f.view r.names ≠ none := by
      rw [Option.ne_none_iff_exists']
      exact exists_congr fun x => and_iff_left fun h => absurd h Bool.false_ne_true
    rw [Glob.mem_reach_iff hnode, standForAll_segments hq.proper,
      capturesOf_segments, hview, h.ne_none_iff, Question.mem_answers]
    constructor
    · rintro ⟨hfit, hcaptures, hnil | hthere⟩
      · -- The root does not fit, as there are components.
        rw [hnil] at hfit
        cases hcomponents : q.components with
        | nil => exact absurd hcomponents hq.ne_nil
        | cons c components =>
          rw [hcomponents] at hfit
          cases hfit
      · exact ⟨⟨hfit, hthere⟩, hcaptures⟩
    · rintro ⟨⟨hfit, hthere⟩, hcaptures⟩
      exact ⟨hfit, hcaptures, .inr hthere⟩
  have hnames : (reach false (q.components.map Component.segment) (.folder f)).map Reached.names =
      q.answers files := by
    refine (Glob.pairwise_reach hnode).eq_of_mem_iff
      (q.pairwise_answers files) fun names => ?_
    constructor
    · intro hm
      obtain ⟨r, hr, rfl⟩ := List.mem_map.1 hm
      exact ((hmem r).1 hr).1
    · intro hm
      exact List.mem_map.2 ⟨⟨names, wildNames q.components names⟩, (hmem _).2 ⟨hm, rfl⟩, rfl⟩
  rw [← hnames, List.map_map]
  refine ((List.map_congr_left fun r hr => ?_).trans (List.map_id _)).symm
  show (⟨r.names, wildNames q.components r.names⟩ : Reached) = r
  rw [← ((hmem r).1 hr).2]

/-! ## 5. Globbing -/

variable {w : World} {s : Store}

/-- **The glob of a question finds its answers**, and changes nothing. -/
theorem run_globAll (hq : q.IsAsked) (hopen : IsOpen w q.shelf s) (hf : w.storage.Holds s f)
    (h : Shelved d directory f.view files) :
    w.run none (globAll q.text) = (.finished ((q.answers files).map q.matchOf, ()), w) := by
  have hfollow : Glob.Followable (q.components.map Component.segment) := by
    intro segment hm name hl
    obtain ⟨c, hc, rfl⟩ := List.mem_map.1 hm
    cases c with
    | exactly wanted =>
      rw [Component.segment, Segment.literal?_verbatim, Option.some.injEq] at hl
      exact .inr (hl ▸ hq.proper _ hc)
    | any =>
      rw [Component.segment, literal?_anyRun] at hl
      cases hl
    | ending suffix =>
      rw [Component.segment, literal?_anyRun] at hl
      cases hl
  have hname : Path.IsPlain q.shelf.name.toList := by
    cases q.shelf <;> decide
  have hmount : s.mount = Store.tableScheme ++ q.shelf.name := hopen.mount
  have hbehind : Pattern.read (s.mount ++ "/" ++ q.below) =
      .ok ⟨q.text, .verbatim q.shelf.name :: q.components.map Component.segment, false,
        some Store.tableScheme⟩ := by
    rw [hopen.mount]
    exact hq.behind
  have hbind : w.record none ((Base.handle ⟨"", none⟩).bind none : Traversal Match (Handle × Nat)) =
      ⟨.finished (⟨"", none⟩, commonRegistry), [], w⟩ := rfl
  have hrecord : w.record none (Glob.ofText (.handle ⟨"", none⟩) (s.mount ++ "/" ++ q.below)
      none true) = _ :=
    Glob.record_absolute (p := ⟨q.below, q.components.map Component.segment, false, none⟩) rfl
      hopen.kept hopen.alone hopen.mounted hopen.registered hf hfollow hq.alone hbind (by decide)
      hmount hname hbehind rfl rfl true
  rw [hopen.mount] at hrecord
  have hfound : Glob.Settings.matches ⟨commonRegistry, (w.registry commonRegistry).home, true, false⟩
      s [] [] (reach false (q.components.map Component.segment) (.folder f)) =
      (q.answers files).map q.matchOf := by
    rw [reach_eq hq hf.orderly h, Glob.Settings.matches, List.map_map]
    refine List.map_congr_left fun names _ => ?_
    simp only [Function.comp, List.nil_append, Glob.Settings.matchAt, Glob.Settings.handle,
      if_neg hopen.ne_home, hopen.mount]
    rfl
  rw [World.run_eq_of_record]
  have hrun : w.record none (globAll q.text) = ⟨.finished (), (q.answers files).map q.matchOf, w⟩ := by
    rw [← hfound]
    exact hrecord
  rw [hrun]

end Arboretum.Archive
