import Arboretum.Proofs.Pattern.Meaning

/-!
# Which texts are patterns

A text is read as a pattern exactly if each of its fields, behind the scheme if it names one, spells
items by the grammar of segments; empty fields and `.` count for nothing.  Each segment is what the
grammar says: it has a matcher, it is literal if it has plain and escaped characters only, and then
it stands for its text with the escapes removed (`read_accepts_spelled`).
-/

namespace Arboretum

/-! ## 1. Behind the scheme -/

namespace Address

/-- **The rest of an address**: what follows the first scheme mark in it, or all of it where no mark
stands in it. -/
def IsRest (cs rest : List Char) : Prop :=
  (∃ front, cs = front ++ mark ++ rest ∧
    ∀ earlier, earlier ++ mark <+: cs → front.length ≤ earlier.length) ∨
  (¬ mark <:+: cs ∧ rest = cs)

/-- A text is cut behind the first mark in it. -/
theorem first_of_cut? {cs scheme rest : List Char} (h : cut? cs = some (scheme, rest)) :
    ∃ front, scheme = front ++ mark ∧
      ∀ earlier, earlier ++ mark <+: cs → front.length ≤ earlier.length := by
  induction cs generalizing scheme with
  | nil => cases h
  | cons c cs ih =>
    rw [cut?] at h
    cases ha : Path.after? mark (c :: cs) with
    | some behind =>
      rw [ha] at h
      obtain ⟨rfl, rfl⟩ := Prod.mk.inj (Option.some.inj h)
      exact ⟨[], rfl, fun earlier _ => Nat.zero_le earlier.length⟩
    | none =>
      rw [ha] at h
      obtain ⟨⟨scheme', rest'⟩, hcut, he⟩ := Option.map_eq_some_iff.1 h
      obtain ⟨rfl, rfl⟩ := Prod.mk.inj he
      obtain ⟨front, rfl, hfirst⟩ := ih hcut
      refine ⟨c :: front, rfl, fun earlier hearlier => ?_⟩
      cases earlier with
      | nil =>
        obtain ⟨behind, hbehind⟩ := hearlier
        rw [List.nil_append] at hbehind
        rw [Path.after?_eq_some_iff.2 hbehind.symm] at ha
        cases ha
      | cons d earlier =>
        have htail := (List.cons_prefix_cons.1 hearlier).2
        exact Nat.succ_le_succ (hfirst earlier htail)

theorem isRest_split (text : String) : IsRest text.toList (split text).2.toList := by
  unfold split
  cases hc : cut? text.toList with
  | some cut =>
    obtain ⟨scheme, rest⟩ := cut
    obtain ⟨front, rfl, hfirst⟩ := first_of_cut? hc
    dsimp only
    rw [String.toList_ofList]
    exact .inl ⟨front, append_of_cut? hc, hfirst⟩
  | none =>
    refine .inr ⟨fun hm => ?_, rfl⟩
    obtain ⟨front, rest, he⟩ := hm
    have hsome := isSome_cut?_iff.2 ⟨front, rest, he.symm⟩
    rw [hc] at hsome
    cases hsome

/-- A text has one rest: two marks that both come first are the same. -/
theorem IsRest.unique {cs rest rest' : List Char} (h : IsRest cs rest) (h' : IsRest cs rest') :
    rest' = rest := by
  rcases h with ⟨front, hf, hfirst⟩ | ⟨hnone, rfl⟩ <;>
    rcases h' with ⟨front', hf', hfirst'⟩ | ⟨hnone', rfl⟩
  · have hle := hfirst front' ⟨rest', hf'.symm⟩
    have hge := hfirst' front ⟨rest, hf.symm⟩
    have hlength : (front' ++ mark).length = (front ++ mark).length := by
      rw [List.length_append, List.length_append, Nat.le_antisymm hge hle]
    exact List.append_inj_right (hf'.symm.trans hf) hlength
  · exact absurd ⟨front, rest, hf.symm⟩ hnone'
  · exact absurd ⟨front', rest', hf'.symm⟩ hnone
  · rfl

theorem isRest_iff {text : String} {rest : List Char} :
    IsRest text.toList rest ↔ rest = (split text).2.toList :=
  ⟨(isRest_split text).unique, fun h => h ▸ isRest_split text⟩

end Address

namespace Pattern

open Grammar

/-! ## 2. Segments -/

/-- **What a field is compiled to**: the field spells one list of items, the segment has a matcher, and
it is literal just if all items are plain; then it stands for the field with the escapes removed. -/
structure Segment.IsOf (segment : Segment) (field : List Char) : Prop where
  text : segment.text.toList = field
  matcher : segment.matcher?.isSome = true
  items : ∃ items, (∀ items', Spells field items' ↔ items' = items) ∧
    (segment.literal?.isSome = true ↔ ∀ item ∈ items, ∃ c, item = .char c)
  literal : ∀ name, segment.literal? = some name → name.toList = unescaped field

theorem Segment.IsOf.exists_spells {segment : Segment} {field : List Char} (h : segment.IsOf field) :
    ∃ items, Spells field items := by
  obtain ⟨items, hitems, -⟩ := h.items
  exact ⟨items, (hitems items).2 rfl⟩

theorem isSome_literal?_iff (segment : Segment) :
    segment.literal?.isSome = true ↔ ∀ item ∈ segment.items, ∃ c, item = .char c := by
  unfold Segment.literal?
  rw [Option.isSome_map]
  induction segment.items with
  | nil => exact ⟨fun _ => nofun, fun _ => rfl⟩
  | cons item items ih =>
    rw [List.forall_mem_cons, ← ih, List.mapM_cons]
    cases item with
    | char c =>
      cases hm : items.mapM Item.plain? with
      | none => exact ⟨nofun, fun h => h.2⟩
      | some cs => exact ⟨fun _ => ⟨⟨c, rfl⟩, rfl⟩, fun _ => rfl⟩
    | anyOne => exact ⟨nofun, fun ⟨⟨_, h⟩, _⟩ => nomatch h⟩
    | anyRun => exact ⟨nofun, fun ⟨⟨_, h⟩, _⟩ => nomatch h⟩
    | oneOf cls => exact ⟨nofun, fun ⟨⟨_, h⟩, _⟩ => nomatch h⟩

/-- A segment that is read is what its text is compiled to. -/
theorem isOf_of_read {text : String} {segment : Segment} (h : Segment.read text = .ok segment) :
    segment.IsOf text.toList := by
  refine ⟨congrArg _ (Segment.of_read h).1, isSome_matcher? h,
    ⟨segment.items, fun _ => spells_iff_of_read h, isSome_literal?_iff segment⟩, fun name hl => ?_⟩
  obtain ⟨cs, hcs, rfl⟩ := Option.map_eq_some_iff.1 hl
  rw [String.toList_ofList]
  exact eq_unescaped_of_spells ((spells_iff_of_read h).2 rfl) (eq_map_char_of_mapM hcs)

/-! ## 3. Patterns -/

theorem readAll_of_ok {texts : List String} {segments : List Segment}
    (h : readAll texts = .ok segments) :
    List.Forall₂ (fun text segment => Segment.read text = .ok segment) texts segments := by
  induction texts generalizing segments with
  | nil => exact Except.ok.inj h ▸ .nil
  | cons text texts ih =>
    rw [readAll] at h
    cases hr : Segment.read text with
    | error flaw => rw [hr] at h; cases h
    | ok segment =>
      cases hs : readAll texts with
      | error flaw => rw [hr, hs] at h; cases h
      | ok segments =>
        rw [hr, hs] at h
        exact Except.ok.inj h ▸ .cons hr (ih hs)

theorem readAll_of_error {texts : List String} {flaw : Flaw} (h : readAll texts = .error flaw) :
    ∃ text ∈ texts, Segment.read text = .error flaw := by
  induction texts with
  | nil => cases h
  | cons text texts ih =>
    rw [readAll] at h
    cases hr : Segment.read text with
    | error flaw' =>
      rw [hr] at h
      cases Except.error.inj h
      exact ⟨text, List.mem_cons_self, hr⟩
    | ok segment =>
      cases hs : readAll texts with
      | error flaw' =>
        rw [hr, hs] at h
        obtain ⟨text', hm, ht⟩ := ih (hs.trans h)
        exact ⟨text', List.mem_cons_of_mem text hm, ht⟩
      | ok segments => rw [hr, hs] at h; cases h

theorem readAll_of_read_ok {text : String} {p : Pattern} (h : read text = .ok p) :
    readAll (segmentTexts (Address.split text).2) = .ok p.segments := by
  unfold read at h
  dsimp only at h
  cases hr : readAll (segmentTexts (Address.split text).2) with
  | error flaw => rw [hr] at h; cases h
  | ok segments =>
    rw [hr] at h
    cases Except.ok.inj h
    rfl

theorem readAll_of_read_error {text : String} {flaw : Flaw} (h : read text = .error flaw) :
    readAll (segmentTexts (Address.split text).2) = .error flaw := by
  unfold read at h
  dsimp only at h
  cases hr : readAll (segmentTexts (Address.split text).2) with
  | error flaw' =>
    rw [hr] at h
    exact congrArg _ (Except.error.inj h)
  | ok segments => rw [hr] at h; cases h

/-- The segments of a pattern are what the fields of its text are compiled to, in order. -/
theorem segments_of_read {text : String} {p : Pattern} (h : read text = .ok p) :
    List.Forall₂ (fun field segment => Segment.IsOf segment field)
      ((Path.fields (Address.split text).2.toList).filter fun field =>
        field ≠ [] ∧ field ≠ Path.here) p.segments := by
  have hread := readAll_of_ok (readAll_of_read_ok h)
  unfold segmentTexts at hread
  refine (List.forall₂_map_left_iff.1 hread).imp fun field segment hs => ?_
  have hof := isOf_of_read hs
  rwa [String.toList_ofList] at hof

/-- **The texts that are patterns.**  The rest of a text behind its scheme is read field by field, and
empty fields and `.` do not count.  The text has a flaw, and no other error is there to have, exactly
if some field that counts spells no items; and the segments of a pattern are, in order, what its
fields are compiled to. -/
theorem read_accepts_spelled (text : String) :
    ∃ rest, (∀ rest', Address.IsRest text.toList rest' ↔ rest' = rest) ∧
    ((∃ flaw, read text = .error flaw) ↔
      ∃ field ∈ Path.fields rest, field ≠ [] ∧ field ≠ Path.here ∧ ∀ items, ¬ Spells field items) ∧
    ∀ p, read text = .ok p →
      List.Forall₂ (fun field segment => Segment.IsOf segment field)
        ((Path.fields rest).filter fun field => field ≠ [] ∧ field ≠ Path.here) p.segments := by
  refine ⟨(Address.split text).2.toList, fun _ => Address.isRest_iff, ⟨?_, ?_⟩,
    fun _ => segments_of_read⟩
  · rintro ⟨flaw, h⟩
    obtain ⟨t, ht, hflaw⟩ := readAll_of_error (readAll_of_read_error h)
    obtain ⟨field, hf, rfl⟩ := List.mem_map.1 ht
    obtain ⟨hfield, hcounts⟩ := List.mem_filter.1 hf
    obtain ⟨hne, hhere⟩ := of_decide_eq_true hcounts
    have hnone := not_spells_of_read hflaw
    rw [String.toList_ofList] at hnone
    exact ⟨field, hfield, hne, hhere, hnone⟩
  · rintro ⟨field, hfield, hne, hhere, hnone⟩
    cases h : read text with
    | error flaw => exact ⟨flaw, rfl⟩
    | ok p =>
      have hspelled := ((List.forall₂_and_left _ _).1 ((segments_of_read h).imp
        fun field segment hs => ⟨hs.exists_spells, hs⟩)).1
      obtain ⟨items, hitems⟩ := hspelled field (List.mem_filter.2 ⟨hfield, by simp [hne, hhere]⟩)
      exact absurd hitems (hnone items)

/-- A span whose end lies below its start is no member, so a field with it spells nothing; a class with
a bracket and a hyphen in it is one, and an escaped star is a plain item. -/
theorem read_accepts_spelled_small :
    (∃ rest, Address.IsRest "mem://a/[z-a]".toList rest ∧
      ∃ field ∈ Path.fields rest, ∀ items, ¬ Spells field items) ∧
    ∃ p rest, read "mem://./a\\*/[]-]" = .ok p ∧ Address.IsRest "mem://./a\\*/[]-]".toList rest ∧
      List.Forall₂ (fun field segment => Segment.IsOf segment field)
        ((Path.fields rest).filter fun field => field ≠ [] ∧ field ≠ Path.here) p.segments ∧
      p.segments.map Segment.literal? = [some "a*", none] := by
  have hflaw : read "mem://a/[z-a]" = .error (.reversedSpan 'z' 'a') := by decide +kernel
  have hread : read "mem://./a\\*/[]-]" = .ok ⟨"mem://./a\\*/[]-]",
      [⟨"a\\*", [.char 'a', .char '*']⟩, ⟨"[]-]", [.oneOf ⟨.unmarked, [.single ']', .single '-']⟩]⟩],
      false, some "mem://"⟩ := by decide +kernel
  obtain ⟨rest, hrest, hiff, -⟩ := read_accepts_spelled "mem://a/[z-a]"
  obtain ⟨field, hfield, -, -, hnone⟩ := hiff.1 ⟨_, hflaw⟩
  obtain ⟨rest', hrest', -, hsegments⟩ := read_accepts_spelled "mem://./a\\*/[]-]"
  exact ⟨⟨rest, (hrest rest).2 rfl, field, hfield, hnone⟩, _, rest', hread, (hrest' rest').2 rfl,
    hsegments _ hread, rfl⟩

end Pattern

end Arboretum
