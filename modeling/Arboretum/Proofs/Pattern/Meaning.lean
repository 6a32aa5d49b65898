import Mathlib.Data.List.Forall2
import Mathlib.Data.List.Infix
import Arboretum.Proofs.Pattern.Expression
import Arboretum.Proofs.Pattern.Grammar

/-!
# What matching means

A segment matches a name that can be cut into consecutive pieces, one for each item in order, so that
every item covers its piece (`IsCut`, `Item.Covers`).  A `*` leaves open where to cut, and the matcher
tries the places one after the other: it finds a cut if there is one (`covers_iff_isCut`).  A regular
expression is matched in full by cutting the name as well (`Regex.covers_iff_isCut`), and its parts
cover what the items cover.  So both ways of matching a segment mean what its grammar says
(`covers_iff_cut`).
-/

namespace Arboretum.Pattern

/-! ## 1. Cuts -/

/-- **What an item covers**: a character itself, `?` one character, `*` any stretch, and a class one
character, by code point, which is in one of its spans just if the class has no mark. -/
inductive Item.Covers : Item → List Char → Prop
  | char (c : Char) : Covers (.char c) [c]
  | anyOne (c : Char) : Covers .anyOne [c]
  | anyRun (cs : List Char) : Covers .anyRun cs
  | oneOf {cls : CharClass} {c : Char} (h : cls.negation = .unmarked ↔
    ∃ s ∈ cls.spans, s.low.toNat ≤ c.toNat ∧ c.toNat ≤ s.high.toNat) : Covers (.oneOf cls) [c]

/-- **A text can be cut** into consecutive pieces, one for each thing of a list. -/
def IsCut {α : Type} (R : α → List Char → Prop) (xs : List α) (cs : List Char) : Prop :=
  ∃ pieces : List (List Char), List.Forall₂ R xs pieces ∧ cs = pieces.flatten

section IsCut

variable {α β : Type} {R : α → List Char → Prop} {x : α} {xs ys : List α} {cs : List Char}

theorem isCut_nil : IsCut R [] cs ↔ cs = [] := by
  constructor
  · rintro ⟨pieces, hp, rfl⟩
    cases hp
    rfl
  · rintro rfl
    exact ⟨[], .nil, rfl⟩

theorem isCut_cons : IsCut R (x :: xs) cs ↔
    ∃ piece rest, cs = piece ++ rest ∧ R x piece ∧ IsCut R xs rest := by
  constructor
  · rintro ⟨pieces, hp, rfl⟩
    cases hp with
    | @cons _ piece _ pieces hx hxs => exact ⟨piece, pieces.flatten, rfl, hx, pieces, hxs, rfl⟩
  · rintro ⟨piece, rest, rfl, hx, pieces, hxs, rfl⟩
    exact ⟨piece :: pieces, .cons hx hxs, rfl⟩

/-- A text is cut for two lists in turn where it is cut in two and each part for one of them. -/
theorem isCut_append : IsCut R (xs ++ ys) cs ↔
    ∃ front back, cs = front ++ back ∧ IsCut R xs front ∧ IsCut R ys back := by
  induction xs generalizing cs with
  | nil =>
    constructor
    · exact fun h => ⟨[], cs, rfl, isCut_nil.2 rfl, h⟩
    · rintro ⟨front, back, rfl, hfront, hback⟩
      obtain rfl := isCut_nil.1 hfront
      exact hback
  | cons x xs ih =>
    rw [List.cons_append, isCut_cons]
    constructor
    · rintro ⟨piece, rest, rfl, hx, hrest⟩
      obtain ⟨front, back, rfl, hfront, hback⟩ := ih.1 hrest
      exact ⟨piece ++ front, back, (List.append_assoc _ _ _).symm,
        isCut_cons.2 ⟨piece, front, rfl, hx, hfront⟩, hback⟩
    · rintro ⟨front, back, rfl, hfront, hback⟩
      obtain ⟨piece, rest, rfl, hx, hrest⟩ := isCut_cons.1 hfront
      exact ⟨piece, rest ++ back, List.append_assoc _ _ _, hx, ih.2 ⟨rest, back, rfl, hrest, hback⟩⟩

/-- Things that cover the same pieces cut the same texts. -/
theorem isCut_map {R' : β → List Char → Prop} {f : α → β}
    (h : ∀ x piece, R' (f x) piece ↔ R x piece) : IsCut R' (xs.map f) cs ↔ IsCut R xs cs := by
  have hsame : (fun x => R' (f x)) = R := by
    funext x piece
    exact propext (h x piece)
  unfold IsCut
  simp only [List.forall₂_map_left_iff, hsame]

/-- A cut text is cut when its characters are changed, for things that cover the changed pieces. -/
theorem IsCut.map {R' : β → List Char → Prop} {f : α → β} {how : Char → Char}
    (h : ∀ x piece, R x piece → R' (f x) (piece.map how)) (hc : IsCut R xs cs) :
    IsCut R' (xs.map f) (cs.map how) := by
  obtain ⟨pieces, hp, rfl⟩ := hc
  refine ⟨pieces.map (List.map how), ?_, List.map_flatten⟩
  exact List.rel_map h hp

end IsCut

/-! ## 2. Items -/

theorem tails_eq (cs : List Char) : tails cs = cs.tails := by
  induction cs with
  | nil => rfl
  | cons c cs ih => rw [tails, ih, List.tails]

/-- A class covers what its grammar says. -/
theorem CharClass.covers_iff {cls : CharClass} {c : Char} : cls.covers c = true ↔
    (cls.negation = .unmarked ↔ ∃ s ∈ cls.spans, s.low.toNat ≤ c.toNat ∧ c.toNat ≤ s.high.toNat) := by
  have hspans : cls.spans.any (·.covers c) = true ↔
      ∃ s ∈ cls.spans, s.low.toNat ≤ c.toNat ∧ c.toNat ≤ s.high.toNat := by
    rw [List.any_eq_true]
    simp only [Span.covers, Bool.and_eq_true, decide_eq_true_eq]
  rw [← hspans]
  unfold covers
  cases cls.spans.any (·.covers c) <;> cases cls.negation <;> decide

/-- An item that is not repeated covers the single characters that its atom covers. -/
theorem Item.covers_iff_of_single {item : Item} (h : item.part.repeated = false)
    {piece : List Char} : item.Covers piece ↔ ∃ c, piece = [c] ∧ item.part.atom.covers c = true := by
  constructor
  · intro hp
    cases hp with
    | char c => exact ⟨c, rfl, beq_self_eq_true c⟩
    | anyOne c => exact ⟨c, rfl, rfl⟩
    | anyRun => cases h
    | @oneOf cls c hc => exact ⟨c, rfl, CharClass.covers_iff.2 hc⟩
  · rintro ⟨c, rfl, hc⟩
    cases item with
    | char d => exact eq_of_beq hc ▸ .char d
    | anyOne => exact .anyOne c
    | anyRun => cases h
    | oneOf cls => exact .oneOf (CharClass.covers_iff.1 hc)

/-- Such an item in front of others. -/
theorem covers_cons_iff {item : Item} {items : List Item} (h : item.part.repeated = false)
    (ih : ∀ cs, covers items cs = true ↔ IsCut Item.Covers items cs) (cs : List Char) :
    covers (item :: items) cs = true ↔ IsCut Item.Covers (item :: items) cs := by
  rw [isCut_cons]
  cases cs with
  | nil =>
    have hnil : covers (item :: items) [] = false := by
      cases item with
      | anyRun => cases h
      | _ => rfl
    rw [hnil]
    refine ⟨nofun, ?_⟩
    rintro ⟨piece, rest, he, hp, -⟩
    obtain ⟨c, rfl, -⟩ := (Item.covers_iff_of_single h).1 hp
    cases he
  | cons c cs =>
    have hcons : covers (item :: items) (c :: cs) =
        (item.part.atom.covers c && covers items cs) := by
      cases item with
      | anyRun => cases h
      | _ => rfl
    rw [hcons, Bool.and_eq_true, ih]
    constructor
    · rintro ⟨hc, hcs⟩
      exact ⟨[c], cs, rfl, (Item.covers_iff_of_single h).2 ⟨c, rfl, hc⟩, hcs⟩
    · rintro ⟨piece, rest, he, hp, hrest⟩
      obtain ⟨d, rfl, hd⟩ := (Item.covers_iff_of_single h).1 hp
      obtain ⟨rfl, rfl⟩ := List.cons.inj he
      exact ⟨hd, hrest⟩

/-- **Matching finds a cut if there is one.**  By induction on the items. -/
theorem covers_iff_isCut (items : List Item) (cs : List Char) :
    covers items cs = true ↔ IsCut Item.Covers items cs := by
  induction items generalizing cs with
  | nil =>
    rw [isCut_nil]
    cases cs with
    | nil => exact ⟨fun _ => rfl, fun _ => rfl⟩
    | cons c cs => exact ⟨nofun, nofun⟩
  | cons item items ih =>
    cases item with
    | char d => exact covers_cons_iff rfl ih cs
    | anyOne => exact covers_cons_iff rfl ih cs
    | oneOf cls => exact covers_cons_iff rfl ih cs
    | anyRun =>
      rw [isCut_cons, covers, List.any_eq_true, tails_eq]
      constructor
      · rintro ⟨rest, hm, hrest⟩
        obtain ⟨piece, rfl⟩ := (List.mem_tails rest cs).1 hm
        exact ⟨piece, rest, rfl, .anyRun piece, (ih rest).1 hrest⟩
      · rintro ⟨piece, rest, rfl, -, hrest⟩
        exact ⟨rest, (List.mem_tails rest _).2 ⟨piece, rfl⟩, (ih rest).2 hrest⟩

/-! ## 3. Parts -/

/-- **A full match finds a cut if there is one.**  By induction on the parts. -/
theorem Regex.covers_iff_isCut (parts : List Regex.Part) (cs : List Char) :
    Regex.covers parts cs = true ↔ IsCut (fun part piece => part.covers piece = true) parts cs := by
  induction parts generalizing cs with
  | nil => rw [isCut_nil, covers, List.isEmpty_iff]
  | cons part parts ih =>
    rw [isCut_cons, covers, List.any_eq_true]
    simp only [Bool.and_eq_true, ih]
    constructor
    · rintro ⟨n, -, hpiece, hrest⟩
      exact ⟨cs.take n, cs.drop n, (List.take_append_drop n cs).symm, hpiece, hrest⟩
    · rintro ⟨piece, rest, rfl, hpiece, hrest⟩
      refine ⟨piece.length, List.mem_range.2 ?_, ?_, ?_⟩
      · rw [List.length_append]
        omega
      · rwa [List.take_left]
      · rwa [List.drop_left]

/-- A part that is not repeated covers single characters. -/
theorem Regex.Part.covers_iff_of_single {part : Regex.Part} (h : part.repeated = false)
    {piece : List Char} : part.covers piece = true ↔ ∃ c, piece = [c] ∧ part.atom.covers c = true := by
  unfold covers
  rw [h, if_neg Bool.false_ne_true]
  constructor
  · intro hc
    match piece with
    | [] => cases hc
    | [c] => exact ⟨c, rfl, hc⟩
    | _ :: _ :: _ => cases hc
  · rintro ⟨c, rfl, hc⟩
    exact hc

/-- **An item covers what the part covers that it is written as.** -/
theorem Item.part_covers_iff (item : Item) (piece : List Char) :
    item.part.covers piece = true ↔ item.Covers piece := by
  cases hr : item.part.repeated with
  | false => exact (Regex.Part.covers_iff_of_single hr).trans (covers_iff_of_single hr).symm
  | true =>
    cases item with
    | anyRun => exact ⟨fun _ => .anyRun piece, fun _ => List.all_eq_true.2 fun _ _ => rfl⟩
    | _ => cases hr

/-! ## 4. Segments -/

/-- A literal segment matches its name. -/
theorem Segment.covers_iff_of_literal? {segment : Segment} {expected : String}
    (h : segment.literal? = some expected) (name : String) :
    segment.covers name = true ↔ expected = name := by
  obtain ⟨cs, hcs, rfl⟩ := Option.map_eq_some_iff.1 h
  have hitems := eq_map_char_of_mapM hcs
  have hchars : ∀ cs ds : List Char, Pattern.covers (cs.map .char) ds = true ↔ cs = ds := by
    intro cs
    induction cs with
    | nil => intro ds; cases ds <;> simp [Pattern.covers]
    | cons c cs ih => intro ds; cases ds <;> simp [Pattern.covers, ih]
  unfold covers
  rw [hitems, hchars, ← String.toList_inj, String.toList_ofList]

/-- **The matcher of a segment matches what the segment does.** -/
theorem Segment.matcher?_covers {text : String} {segment : Segment}
    (h : Segment.read text = .ok segment) : ∃ matcher, segment.matcher? = some matcher ∧
      ∀ name, matcher.covers name = true ↔ segment.covers name = true := by
  unfold matcher?
  cases hl : segment.literal? with
  | some expected =>
    refine ⟨_, rfl, fun name => ?_⟩
    rw [covers_iff_of_literal? hl]
    exact beq_iff_eq
  | none =>
    rw [read_expression h]
    refine ⟨_, rfl, fun name => ?_⟩
    show Regex.covers _ name.toList = true ↔ Pattern.covers _ name.toList = true
    rw [Regex.covers_iff_isCut, covers_iff_isCut]
    exact isCut_map Item.part_covers_iff

/-- **A segment matches what its grammar says.**  The text of a segment spells one list of items, and a
name matches, by the matcher that the segment is compiled to as by the segment itself, exactly if
it can be cut into consecutive pieces that the items cover in order. -/
theorem covers_iff_cut {text : String} {segment : Segment} (h : Segment.read text = .ok segment) :
    ∃ items, (∀ items', Grammar.Spells text.toList items' ↔ items' = items) ∧
      ∃ matcher, segment.matcher? = some matcher ∧ ∀ name : String,
        (matcher.covers name = true ↔ IsCut Item.Covers items name.toList) ∧
        (segment.covers name = true ↔ IsCut Item.Covers items name.toList) := by
  obtain ⟨matcher, hmatcher, hcovers⟩ := Segment.matcher?_covers h
  refine ⟨segment.items, fun _ => spells_iff_of_read h, matcher, hmatcher, fun name => ?_⟩
  have hcut := covers_iff_isCut segment.items name.toList
  exact ⟨(hcovers name).trans hcut, hcut⟩

/-- A class, an escaped star and a star: the name with a line break is cut into three pieces, and a name
that starts with a character of the negated class is not cut. -/
theorem covers_iff_cut_small : ∃ segment items, Segment.read "[!a-c]\\**" = .ok segment ∧
    Grammar.Spells "[!a-c]\\**".toList items ∧ IsCut Item.Covers items "x*\n".toList ∧
      ¬ IsCut Item.Covers items "b*\n".toList := by
  have hread : Segment.read "[!a-c]\\**" = .ok ⟨"[!a-c]\\**",
      [.oneOf ⟨.bang, [⟨'a', 'c'⟩]⟩, .char '*', .anyRun]⟩ := by decide +kernel
  obtain ⟨items, hitems, matcher, -, hcut⟩ := covers_iff_cut hread
  refine ⟨_, items, hread, (hitems items).2 rfl, (hcut "x*\n").2.1 (by decide +kernel), fun h => ?_⟩
  have hcovers := (hcut "b*\n").2.2 h
  revert hcovers
  decide +kernel

end Arboretum.Pattern
