import Arboretum.Proofs.Pattern.Reading
import Arboretum.Store.Identity

/-!
# Patterns with a mount in front

A pattern may start with the mount of a store and go on with a pattern of its own.  Its text is read
as the mount's name in a segment of its own, without wild items, and behind it the segments of the
other pattern (`read_behind_mount`).  The names that a pattern starts with are the names of its
first segments, up to the first that is wild or climbs (`exists_literals`).
-/

namespace Arboretum.Pattern

/-! ## 1. Texts without wild items -/

/-- **A text that stands for itself**: none of its characters is wild or an escape. -/
def IsVerbatim (text : String) : Prop := hasWildChar text = false ∧ '\\' ∉ text.toList

instance (text : String) : Decidable (IsVerbatim text) := inferInstanceAs (Decidable (_ ∧ _))

/-- The segment of a text that stands for itself. -/
def Segment.verbatim (text : String) : Segment := ⟨text, text.toList.map .char⟩

theorem stepOutside_of_verbatim {text : String} (h : IsVerbatim text) {c : Char}
    (hc : c ∈ text.toList) : stepOutside c = (some (.char c), .outside) := by
  have hwild : (c = '*' || c = '?' || c = '[') = false := by
    have hall := List.any_eq_false.1 h.1 c hc
    exact Bool.eq_false_iff.2 hall
  rw [Bool.or_eq_false_iff, Bool.or_eq_false_iff, decide_eq_false_iff_not, decide_eq_false_iff_not,
    decide_eq_false_iff_not] at hwild
  have hescape : c ≠ '\\' := fun he => h.2 (he ▸ hc)
  unfold stepOutside
  rw [if_neg hescape, if_neg hwild.1.1, if_neg hwild.1.2, if_neg hwild.2]

/-- **A text that stands for itself is read** character by character. -/
theorem Segment.read_verbatim {text : String} (h : IsVerbatim text) :
    Segment.read text = .ok (.verbatim text) := by
  have hscan : ∀ cs : List Char, (∀ c ∈ cs, c ∈ text.toList) →
      scan .outside cs = .ok (cs.map .char) := by
    intro cs
    induction cs with
    | nil => exact fun _ => rfl
    | cons c cs ih =>
      intro hcs
      have hstep : Place.outside.step c = .ok (some (.char c), .outside) :=
        congrArg _ (stepOutside_of_verbatim h (hcs c List.mem_cons_self))
      rw [scan, hstep]
      dsimp only
      rw [ih fun d hd => hcs d (List.mem_cons_of_mem c hd)]
      rfl
  unfold Segment.read
  rw [hscan text.toList fun _ hc => hc]
  rfl

/-- It is a literal segment, for the text itself. -/
theorem Segment.literal?_verbatim (text : String) :
    (Segment.verbatim text).literal? = some text := by
  have hplain : ∀ cs : List Char, (cs.map Item.char).mapM Item.plain? = some cs := by
    intro cs
    induction cs with
    | nil => rfl
    | cons c cs ih =>
      rw [List.map_cons, List.mapM_cons, ih]
      rfl
  unfold literal? verbatim
  rw [hplain, Option.map_some, String.ofList_toList]

/-! ## 2. A mount in front -/

/-- The text of a pattern behind the mount of a store. -/
def behindMount (mount text : String) : String := mount ++ "/" ++ text

/-- The first scheme mark of a memory store's mount is the one of its scheme. -/
theorem split_memoryScheme (rest : String) :
    Address.split (Store.memoryScheme ++ rest) = (Store.memoryScheme, rest) := by
  have hcut : Address.cut? (Store.memoryScheme ++ rest).toList =
      some (Store.memoryScheme.toList, rest.toList) := by
    rw [String.toList_append]
    rfl
  unfold Address.split
  rw [hcut]
  dsimp only
  rw [String.ofList_toList, String.ofList_toList]

/-- A text without a scheme mark is all rest. -/
theorem split_of_no_scheme {text : String} (h : Address.hasScheme text = false) :
    Address.split text = ("", text) := by
  have hcut : Address.cut? text.toList = none :=
    Option.not_isSome_iff_eq_none.1 (Bool.eq_false_iff.1 h)
  unfold Address.split
  rw [hcut]

/-- A name in front of a text is its first segment. -/
theorem segmentTexts_behind {name : String} (hn : Path.IsPlain name.toList) (text : String) :
    segmentTexts (name ++ "/" ++ text) = name :: segmentTexts text := by
  have hlist : (name ++ "/" ++ text).toList = name.toList ++ '/' :: text.toList := by
    simp
  have hname : Path.fields name.toList = [name.toList] := by
    have hback := Path.fields_unfields (List.cons_ne_nil name.toList [])
      (by simpa using hn.no_slash)
    simpa [Path.unfields] using hback
  have hkeep : name.toList ≠ [] ∧ name.toList ≠ Path.here := ⟨hn.ne_nil, hn.ne_here⟩
  unfold segmentTexts
  rw [hlist, Path.fields_append_slash, hname, List.singleton_append,
    List.filter_cons_of_pos (by simpa using hkeep), List.map_cons, String.ofList_toList]

/-- The root of a pattern behind a scheme is the scheme, if no slash follows. -/
theorem rootOf_behind {scheme name : String} (hscheme : scheme ≠ "")
    (hn : Path.IsPlain name.toList) (text : String) :
    rootOf scheme (name ++ "/" ++ text) = some scheme := by
  have hhead : (name ++ "/" ++ text).toList.head? ≠ some '/' := by
    have hlist : (name ++ "/" ++ text).toList = name.toList ++ '/' :: text.toList := by
      simp
    rw [hlist]
    cases hc : name.toList with
    | nil => exact absurd hc hn.ne_nil
    | cons c cs =>
      intro he
      exact hn.no_slash (hc ▸ Option.some.inj he ▸ List.mem_cons_self)
  unfold rootOf
  rw [if_pos hscheme, if_neg hhead, String.append_empty]

/-- A pattern without a scheme has no root, or a lone slash. -/
theorem rootOf_of_no_scheme (text : String) : rootOf "" text = none ∨ rootOf "" text = some "/" := by
  unfold rootOf
  rw [if_neg (by simp)]
  split
  · exact .inr rfl
  · exact .inl rfl

/-- A text that has a segment has a last character, and a text with it behind ends in it. -/
theorem getLast?_behind (name : String) {text : String} (h : segmentTexts text ≠ []) :
    (name ++ "/" ++ text).toList.getLast? = text.toList.getLast? := by
  have hlist : (name ++ "/" ++ text).toList = name.toList ++ '/' :: text.toList := by
    simp
  have htext : text.toList ≠ [] := by
    intro he
    refine h ?_
    unfold segmentTexts
    rw [he]
    rfl
  rw [hlist, List.getLast?_append, List.getLast?_cons]
  cases hl : text.toList.getLast? with
  | none => exact absurd (List.getLast?_eq_none_iff.1 hl) htext
  | some c => rfl

/-- **A pattern behind the mount of a memory store** has the same flaw, or it is the pattern with
the name of the store in front of its segments. -/
theorem read_behind_mount {name : String} (hn : Path.IsPlain name.toList) (hv : IsVerbatim name)
    {text : String} (ht : Address.hasScheme text = false) :
    (∀ flaw, read text = .error flaw →
      read (behindMount (Store.memoryScheme ++ name) text) = .error flaw) ∧
    ∀ p, read text = .ok p → (p.root = none ∨ p.root = some "/") ∧
      ∃ q, read (behindMount (Store.memoryScheme ++ name) text) = .ok q ∧
        q.root = some Store.memoryScheme ∧ q.segments = .verbatim name :: p.segments ∧
        (p.segments ≠ [] → q.directoriesOnly = p.directoriesOnly) := by
  have hlong : Address.split (behindMount (Store.memoryScheme ++ name) text) =
      (Store.memoryScheme, name ++ "/" ++ text) := by
    have happend : behindMount (Store.memoryScheme ++ name) text =
        Store.memoryScheme ++ (name ++ "/" ++ text) := by
      unfold behindMount
      rw [String.append_assoc, String.append_assoc, String.append_assoc]
    rw [happend, split_memoryScheme]
  unfold read
  rw [hlong, split_of_no_scheme ht]
  dsimp only
  rw [segmentTexts_behind hn, readAll, Segment.read_verbatim hv, rootOf_behind (by decide) hn]
  dsimp only
  cases hr : readAll (segmentTexts text) with
  | error flaw =>
    refine ⟨fun flaw' he => ?_, fun p hp => by cases hp⟩
    rw [Except.error.inj he]
  | ok segments =>
    refine ⟨fun flaw he => absurd he (by simp), fun p hp => ?_⟩
    obtain rfl := Except.ok.inj hp
    refine ⟨rootOf_of_no_scheme text, _, rfl, rfl, rfl, fun hne => ?_⟩
    have htexts : segmentTexts text ≠ [] := by
      intro he
      rw [he] at hr
      exact hne (Except.ok.inj hr).symm
    dsimp only
    rw [getLast?_behind name htexts, List.isEmpty_eq_false_iff.2 htexts]
    rfl

/-! ## 3. The names in front -/

/-- A literal segment that does not climb adds its name in front. -/
theorem literalHead_of_cons {p q : Pattern} {segment : Segment} {name : String}
    (hq : q.segments = segment :: p.segments) (hl : segment.literal? = some name)
    (hne : name ≠ climbing) : q.literalHead = name :: p.literalHead := by
  unfold literalHead
  rw [hq, List.map_cons, hl, List.takeWhile_cons, if_pos (by simp [hne])]
  rfl

/-- **The segments of a pattern**: literal ones for the names that it starts with, and the rest. -/
theorem exists_literals (p : Pattern) : ∃ literals,
    p.segments = literals ++ p.segments.drop p.literalHead.length ∧
      literals.map Segment.literal? = p.literalHead.map some ∧ climbing ∉ p.literalHead := by
  unfold literalHead
  induction p.segments with
  | nil => exact ⟨[], rfl, rfl, List.not_mem_nil⟩
  | cons segment segments ih =>
    obtain ⟨literals, happ, hmap, hclimb⟩ := ih
    rw [List.map_cons, List.takeWhile_cons]
    cases hl : segment.literal? with
    | none => exact ⟨[], rfl, rfl, List.not_mem_nil⟩
    | some name =>
      by_cases hname : name = climbing
      · rw [if_neg (by simp [hname])]
        exact ⟨[], rfl, rfl, List.not_mem_nil⟩
      · rw [if_pos (by simp [hname])]
        refine ⟨segment :: literals, congrArg _ happ, ?_, ?_⟩
        · rw [List.map_cons, hl, hmap]
          rfl
        · exact List.not_mem_cons_of_ne_of_not_mem (Ne.symm hname) hclimb

end Arboretum.Pattern
