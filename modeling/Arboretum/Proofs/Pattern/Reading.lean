import Arboretum.Pattern.Basic
import Arboretum.Proofs.Path.Clean

/-!
# What was read when a pattern is read

The scanner of segments goes character by character.  A text that is read to its end is taken
apart again by `scan_cons_eq_ok`; a plain item comes from a character of the text
(`mem_of_scan`), and a text with a character in it leaves an item (`ne_nil_of_scan`).  So a literal
segment of a path pattern stands for a name, unless it stands for `.` or climbs or ends in a blank
(`isName_of_literal?`).
-/

namespace Arboretum.Pattern

/-! ## 1. Scanning -/

/-- One character of a text that is read to its end. -/
theorem scan_cons_eq_ok {place : Place} {c : Char} {cs : List Char} {items : List Item}
    (h : scan place (c :: cs) = .ok items) : ∃ item next tail, place.step c = .ok (item, next) ∧
      scan next cs = .ok tail ∧ items = item.toList ++ tail := by
  rw [scan] at h
  cases hs : place.step c with
  | error flaw => rw [hs] at h; cases h
  | ok step =>
    obtain ⟨item, next⟩ := step
    rw [hs] at h
    dsimp only at h
    cases ht : scan next cs with
    | error flaw => rw [ht] at h; cases h
    | ok tail =>
      rw [ht] at h
      exact ⟨item, next, tail, rfl, ht, (Except.ok.inj h).symm⟩

/-- A text that is read to its end does not end within a class. -/
theorem scan_nil_eq_ok {place : Place} {items : List Item} (h : scan place [] = .ok items) :
    place = .outside ∧ items = [] := by
  cases place with
  | outside => exact ⟨rfl, (Except.ok.inj h).symm⟩
  | _ => cases h

/-- **What a character may do**: as long as no item is finished the reader stands inside of one,
and a plain item is the character itself. -/
structure Step.Comes (step : Step) (c : Char) : Prop where
  inside : step.1 = none → step.2 ≠ .outside
  plain : ∀ d, step.1 = some (.char d) → d = c

theorem comes_stepFirst (draft : OpenClass) (c : Char) : (stepFirst draft c).Comes c := by
  unfold stepFirst
  split <;> exact ⟨nofun, nofun⟩

theorem comes_stepMember (draft : OpenClass) (c : Char) : (stepMember draft c).Comes c := by
  unfold stepMember
  split
  · exact ⟨nofun, nofun⟩
  · exact comes_stepFirst draft c

theorem comes_stepOutside (c : Char) : (stepOutside c).Comes c := by
  unfold stepOutside
  split
  · exact ⟨nofun, nofun⟩
  · split
    · exact ⟨nofun, nofun⟩
    · split
      · exact ⟨nofun, nofun⟩
      · split
        · exact ⟨nofun, nofun⟩
        · exact ⟨nofun, fun d h => (Item.char.inj (Option.some.inj h)).symm⟩

theorem comes_stepHigh {draft : OpenClass} {low c : Char} {step : Step}
    (h : stepHigh draft low c = .ok step) : step.Comes c := by
  unfold stepHigh at h
  split at h
  · cases h
  · obtain rfl := Except.ok.inj h
    exact ⟨nofun, nofun⟩

/-- **Every step of the scanner** comes from its character. -/
theorem comes_of_step {place : Place} {c : Char} {step : Step} (h : place.step c = .ok step) :
    step.Comes c := by
  cases place with
  | outside => exact Except.ok.inj h ▸ comes_stepOutside c
  | escape =>
    obtain rfl := Except.ok.inj h
    exact ⟨nofun, fun d hd => (Item.char.inj (Option.some.inj hd)).symm⟩
  | opening =>
    obtain rfl := Except.ok.inj h
    split
    · exact ⟨nofun, nofun⟩
    · split
      · exact ⟨nofun, nofun⟩
      · exact comes_stepFirst _ c
  | first draft => exact Except.ok.inj h ▸ comes_stepFirst draft c
  | member draft => exact Except.ok.inj h ▸ comes_stepMember draft c
  | lowEscape draft =>
    obtain rfl := Except.ok.inj h
    exact ⟨nofun, nofun⟩
  | low draft start =>
    obtain rfl := Except.ok.inj h
    split
    · exact ⟨nofun, nofun⟩
    · exact comes_stepMember _ c
  | hyphen draft start =>
    simp only [Place.step] at h
    split at h
    · exact Except.ok.inj h ▸ comes_stepMember _ c
    · split at h
      · obtain rfl := Except.ok.inj h
        exact ⟨nofun, nofun⟩
      · exact comes_stepHigh h
  | highEscape draft start => exact comes_stepHigh h

/-- A plain item is a character of the text. -/
theorem mem_of_scan {place : Place} {cs : List Char} {items : List Item}
    (h : scan place cs = .ok items) {d : Char} (hd : Item.char d ∈ items) : d ∈ cs := by
  induction cs generalizing place items with
  | nil =>
    rw [(scan_nil_eq_ok h).2] at hd
    exact absurd hd List.not_mem_nil
  | cons c cs ih =>
    obtain ⟨item, next, tail, hstep, htail, rfl⟩ := scan_cons_eq_ok h
    rcases List.mem_append.1 hd with hd | hd
    · have hitem : item = some (.char d) := Option.mem_toList.1 hd
      rw [(comes_of_step hstep).plain d hitem]
      exact List.mem_cons_self
    · exact List.mem_cons_of_mem c (ih htail hd)

/-- A text that is read leaves an item, unless it is empty. -/
theorem ne_nil_of_scan {place : Place} {cs : List Char} {items : List Item}
    (h : scan place cs = .ok items) (hne : place ≠ .outside ∨ cs ≠ []) : items ≠ [] := by
  induction cs generalizing place items with
  | nil =>
    have hplace := hne.resolve_right fun hcs => hcs rfl
    exact absurd (scan_nil_eq_ok h).1 hplace
  | cons c cs ih =>
    obtain ⟨item, next, tail, hstep, htail, rfl⟩ := scan_cons_eq_ok h
    cases item with
    | some item => exact List.cons_ne_nil item tail
    | none => exact ih htail (.inl ((comes_of_step hstep).inside rfl))

/-! ## 2. Segments -/

/-- The parts of a segment that is read. -/
theorem Segment.of_read {text : String} {segment : Segment} (h : Segment.read text = .ok segment) :
    segment.text = text ∧ scan .outside text.toList = .ok segment.items := by
  unfold Segment.read at h
  cases hs : scan .outside text.toList with
  | error flaw => rw [hs] at h; cases h
  | ok items =>
    rw [hs] at h
    cases h
    exact ⟨rfl, rfl⟩

/-- Plain items are made of characters. -/
theorem eq_map_char_of_mapM {items : List Item} {cs : List Char}
    (h : items.mapM Item.plain? = some cs) : items = cs.map .char := by
  induction items generalizing cs with
  | nil =>
    obtain rfl := Option.some.inj h
    rfl
  | cons item items ih =>
    rw [List.mapM_cons] at h
    cases item with
    | char c =>
      cases hm : items.mapM Item.plain? with
      | none => rw [hm] at h; cases h
      | some tail =>
        rw [hm] at h
        obtain rfl := Option.some.inj h
        rw [List.map_cons, ih hm]
    | anyOne => cases h
    | anyRun => cases h
    | oneOf cls => cases h

/-- **A literal segment** stands for a name made of characters of its text, at least one if the
text has any. -/
theorem Segment.of_literal? {text name : String} {segment : Segment}
    (h : Segment.read text = .ok segment) (hl : segment.literal? = some name) :
    (text ≠ "" → name ≠ "") ∧ ∀ c ∈ name.toList, c ∈ text.toList := by
  have hscan := (Segment.of_read h).2
  obtain ⟨cs, hcs, rfl⟩ := Option.map_eq_some_iff.1 hl
  have hitems := eq_map_char_of_mapM hcs
  rw [String.toList_ofList]
  constructor
  · intro ht he
    have htext : text.toList ≠ [] := fun hnil => ht (String.toList_inj.1 hnil)
    have hnil : cs = [] := by
      have hl := congrArg String.toList he
      rwa [String.toList_ofList] at hl
    rw [hnil] at hitems
    exact ne_nil_of_scan hscan (.inr htext) hitems
  · intro c hc
    refine mem_of_scan hscan ?_
    rw [hitems]
    exact List.mem_map_of_mem hc

/-! ## 3. Path patterns -/

/-- Every segment of texts that are read is read from one of them. -/
theorem read_of_readAll {texts : List String} {segments : List Segment}
    (h : readAll texts = .ok segments) {segment : Segment} (hm : segment ∈ segments) :
    ∃ text ∈ texts, Segment.read text = .ok segment := by
  induction texts generalizing segments with
  | nil =>
    cases Except.ok.inj h
    exact absurd hm List.not_mem_nil
  | cons text texts ih =>
    rw [readAll] at h
    cases hr : Segment.read text with
    | error flaw => rw [hr] at h; cases h
    | ok first =>
      cases hs : readAll texts with
      | error flaw => rw [hr, hs] at h; cases h
      | ok others =>
        rw [hr, hs] at h
        cases Except.ok.inj h
        rcases List.mem_cons.1 hm with rfl | hm
        · exact ⟨text, List.mem_cons_self, hr⟩
        · obtain ⟨t, ht, hrt⟩ := ih hs hm
          exact ⟨t, List.mem_cons_of_mem text ht, hrt⟩

/-- The segments of a pattern are read from the texts of its segments. -/
theorem read_of_read {text : String} {p : Pattern} (h : Pattern.read text = .ok p)
    {segment : Segment} (hm : segment ∈ p.segments) :
    ∃ t ∈ segmentTexts (Address.split text).2, Segment.read t = .ok segment := by
  unfold Pattern.read at h
  dsimp only at h
  cases hr : readAll (segmentTexts (Address.split text).2) with
  | error flaw => rw [hr] at h; cases h
  | ok segments =>
    rw [hr] at h
    cases Except.ok.inj h
    exact read_of_readAll hr hm

/-- Every segment of a pattern was read from some text. -/
theorem exists_text_of_read {text : String} {p : Pattern} (h : Pattern.read text = .ok p) :
    ∀ segment ∈ p.segments, ∃ t, Segment.read t = .ok segment := by
  intro segment hm
  obtain ⟨t, -, ht⟩ := read_of_read h hm
  exact ⟨t, ht⟩

/-- The texts of segments are not empty, and no slash stands in them. -/
theorem of_mem_segmentTexts {rest text : String} (h : text ∈ segmentTexts rest) :
    text ≠ "" ∧ '/' ∉ text.toList := by
  obtain ⟨f, hf, rfl⟩ := List.mem_map.1 h
  obtain ⟨hf, hne⟩ := List.mem_filter.1 hf
  have hne := (of_decide_eq_true hne).1
  rw [String.toList_ofList]
  refine ⟨fun he => hne ?_, Path.no_slash_of_mem_fields hf⟩
  have hl := congrArg String.toList he
  rwa [String.toList_ofList] at hl

/-- **A literal segment of a path pattern is plain**, unless it stands for `.` or climbs. -/
theorem isPlain_of_literal? {text name : String} {p : Pattern} (h : Pattern.read text = .ok p)
    {segment : Segment} (hm : segment ∈ p.segments) (hl : segment.literal? = some name)
    (hhere : name ≠ ".") (hclimb : name ≠ climbing) : Path.IsPlain name.toList := by
  obtain ⟨t, ht, hr⟩ := read_of_read h hm
  obtain ⟨hne, hslash⟩ := of_mem_segmentTexts ht
  obtain ⟨hname, hmem⟩ := Segment.of_literal? hr hl
  refine ⟨fun he => ?_, fun he => ?_, fun he => ?_, fun hs => hslash (hmem _ hs)⟩
  · exact hname hne (String.toList_inj.1 he)
  · exact hhere (String.toList_inj.1 he)
  · exact hclimb (String.toList_inj.1 he)

/-- **It stands for a name**, unless it ends in a blank. -/
theorem isName_of_literal? {text name : String} {p : Pattern} (h : Pattern.read text = .ok p)
    {segment : Segment} (hm : segment ∈ p.segments) (hl : segment.literal? = some name)
    (hhere : name ≠ ".") (hclimb : name ≠ climbing) (hb : Text.endsBlank name.toList = false) :
    Path.IsName name := ⟨isPlain_of_literal? h hm hl hhere hclimb, hb⟩

end Arboretum.Pattern
