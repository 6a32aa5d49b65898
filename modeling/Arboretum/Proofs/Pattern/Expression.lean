import Arboretum.Pattern.Regex
import Arboretum.Proofs.Pattern.Reading

/-!
# What the expression of a segment says

The expression of a segment is written while its text is read.  Reading the expression again runs
along with that: wherever the one reader stands, the other stands at a place that fits (`Fits`), and
what one character of the text makes of it keeps that up and finishes the token of the same item
(`follows_writes`).  The start of a member is held back in the text's reader and a finished member in
the expression's, which waits for a hyphen; so a place of the expression fits a draft when a
character taken for itself starts the next member there (`Ready`).  Hence the expression of every
text that is read is one, and its parts are the items of the segment (`read_expression`).
-/

namespace Arboretum.Pattern

open Regex (OpenSet operators setOperators)

/-! ## 1. Characters for themselves -/

theorem special_of_mem_operators {c : Char} (h : c ∈ operators) : c ∈ special := by
  have hall : operators.all (· ∈ special) = true := by decide
  exact of_decide_eq_true (List.all_eq_true.1 hall c h)

theorem special_of_mem_setOperators {c : Char} (h : c ∈ setOperators) : c ∈ special := by
  have hall : setOperators.all (· ∈ special) = true := by decide
  exact of_decide_eq_true (List.all_eq_true.1 hall c h)

theorem isEscapable_of_special {c : Char} (h : c ∈ special) : Regex.isEscapable c = true := by
  have hall : special.all Regex.isEscapable = true := by decide
  exact List.all_eq_true.1 hall c h

namespace Regex

variable {place next : Place} {c : Char} {cs : List Char}

theorem scan_of_none (h : place.step c = some (none, next)) : scan place (c :: cs) = scan next cs := by
  rw [scan, h]
  dsimp only
  cases scan next cs <;> rfl

theorem scan_of_some {token : Token} (h : place.step c = some (some token, next)) :
    scan place (c :: cs) = (scan next cs).map (token :: ·) := by
  rw [scan, h]
  rfl

/-- Outside of sets a character written for itself is read as itself. -/
theorem scan_escaped (c : Char) (rest : List Char) :
    scan .outside (escaped c ++ rest) = (scan .outside rest).map (.atom (.char c) :: ·) := by
  unfold escaped
  by_cases hc : c ∈ special
  · rw [if_pos hc]
    have hback : Place.outside.step '\\' = some (none, .escape) := rfl
    have hstep : Place.escape.step c = some (some (.atom (.char c)), .outside) :=
      if_pos (isEscapable_of_special hc)
    exact (scan_of_none hback).trans (scan_of_some hstep)
  · rw [if_neg hc]
    have hne : ∀ d ∈ special, c ≠ d := fun d hd he => hc (he ▸ hd)
    refine scan_of_some ?_
    rw [Place.step, if_neg (hne '\\' (by decide)), if_neg (hne '.' (by decide)),
      if_neg (hne '*' (by decide)), if_neg (hne '[' (by decide)),
      if_neg fun ho => hc (special_of_mem_operators ho)]

end Regex

/-! ## 2. Sets -/

/-- The set that a draft of a class is written as. -/
def OpenClass.asSet (draft : OpenClass) : OpenSet := ⟨draft.negation != .unmarked, draft.spans⟩

/-- **The next member may start**: a character taken for itself does so, and behind other members the
set may be closed. -/
structure Ready (place : Regex.Place) (draft : OpenClass) : Prop where
  bare : ∀ c, c ∉ setOperators → place.step c = some (none, .low draft.asSet c)
  escape : place.step '\\' = some (none, .lowEscape draft.asSet)
  close : draft.spans ≠ [] → place.step ']' = some (some draft.asSet.close, .outside)

section Ready

variable {place : Regex.Place} {draft : OpenClass}

theorem stepMember_of_bare {set : OpenSet} {c : Char} (h : c ∉ setOperators) :
    Regex.stepMember set c = some (none, .low set c) := by
  have hne : ∀ d ∈ setOperators, c ≠ d := fun d hd he => h (he ▸ hd)
  rw [Regex.stepMember, if_neg (hne ']' (by decide)), if_neg (hne '\\' (by decide)), if_neg h]

theorem ready_member (draft : OpenClass) : Ready (.member draft.asSet) draft where
  bare _ hc := stepMember_of_bare hc
  escape := rfl
  close hne := by
    show Regex.stepMember draft.asSet ']' = _
    rw [Regex.stepMember, if_pos rfl]
    exact if_neg hne

/-- Behind the bracket a set is open that is not negated. -/
theorem ready_opening : Ready .opening ⟨.unmarked, []⟩ where
  bare c hc := by
    have hcaret : c ≠ '^' := fun he => hc (he ▸ by decide)
    exact (if_neg hcaret).trans (stepMember_of_bare hc)
  escape := rfl
  close hne := absurd rfl hne

/-- Behind a character without a hyphen that character was a member. -/
theorem ready_low (draft : OpenClass) (start : Char) :
    Ready (.low draft.asSet start) (draft.add (.single start)) where
  bare c hc := by
    have hhyphen : c ≠ '-' := fun he => hc (he ▸ by decide)
    exact (if_neg hhyphen).trans (stepMember_of_bare hc)
  escape := rfl
  close _ := rfl

/-- A character that is written for itself starts a member. -/
theorem Ready.scan_escaped (h : Ready place draft) (c : Char) (rest : List Char) :
    Regex.scan place (escaped c ++ rest) = Regex.scan (.low draft.asSet c) rest := by
  unfold escaped
  by_cases hc : c ∈ special
  · rw [if_pos hc]
    have hstep : (Regex.Place.lowEscape draft.asSet).step c = some (none, .low draft.asSet c) :=
      if_pos (isEscapable_of_special hc)
    exact (Regex.scan_of_none h.escape).trans (Regex.scan_of_none hstep)
  · rw [if_neg hc]
    exact Regex.scan_of_none (h.bare c fun ho => hc (special_of_mem_setOperators ho))

/-- Two of them with a hyphen between them are a span. -/
theorem Ready.scan_span (h : Ready place draft) {low high : Char} (hle : low.toNat ≤ high.toNat)
    (rest : List Char) : Regex.scan place (escaped low ++ '-' :: escaped high ++ rest) =
      Regex.scan (.member (draft.add ⟨low, high⟩).asSet) rest := by
  have hhyphen : (Regex.Place.low draft.asSet low).step '-' =
      some (none, .hyphen draft.asSet low) := rfl
  have hhigh : Regex.stepHigh draft.asSet low high =
      some (none, .member (draft.add ⟨low, high⟩).asSet) := if_neg (Nat.not_lt.2 hle)
  rw [List.append_assoc, h.scan_escaped, List.cons_append, Regex.scan_of_none hhyphen]
  unfold escaped
  by_cases hc : high ∈ special
  · rw [if_pos hc]
    have hback : (Regex.Place.hyphen draft.asSet low).step '\\' =
        some (none, .highEscape draft.asSet low) := rfl
    have hstep : (Regex.Place.highEscape draft.asSet low).step high =
        Regex.stepHigh draft.asSet low high := if_pos (isEscapable_of_special hc)
    exact (Regex.scan_of_none hback).trans (Regex.scan_of_none (hstep.trans hhigh))
  · rw [if_neg hc]
    have hback : high ≠ '\\' := fun he => hc (he ▸ by decide)
    have hstep : (Regex.Place.hyphen draft.asSet low).step high =
        Regex.stepHigh draft.asSet low high :=
      (if_neg hback).trans (if_neg fun ho => hc (special_of_mem_setOperators ho))
    exact Regex.scan_of_none (hstep.trans hhigh)

end Ready

/-! ## 3. Both readers -/

/-- The tokens that an item is written as. -/
def Item.tokens : Item → List Regex.Token
  | .char c => [.atom (.char c)]
  | .anyOne => [.atom .anyOne]
  | .anyRun => [.atom .anyOne, .star]
  | .oneOf cls => [.atom (.set (cls.negation != .unmarked) cls.spans)]

/-- **The place of the reader of an expression fits** that of the reader of the text.  A member that
has only started is not written yet. -/
inductive Fits : Place → Regex.Place → Prop
  | outside : Fits .outside .outside
  | escape : Fits .escape .outside
  | opening : Fits .opening .opening
  | first {place : Regex.Place} {draft : OpenClass} (h : Ready place draft) : Fits (.first draft) place
  | member {place : Regex.Place} {draft : OpenClass} (h : Ready place draft)
    (hne : draft.spans ≠ []) : Fits (.member draft) place
  | lowEscape {place : Regex.Place} {draft : OpenClass} (h : Ready place draft) :
    Fits (.lowEscape draft) place
  | low {place : Regex.Place} {draft : OpenClass} (h : Ready place draft) (start : Char) :
    Fits (.low draft start) place
  | hyphen {place : Regex.Place} {draft : OpenClass} (h : Ready place draft) (start : Char) :
    Fits (.hyphen draft start) place
  | highEscape {place : Regex.Place} {draft : OpenClass} (h : Ready place draft) (start : Char) :
    Fits (.highEscape draft start) place

/-- **What is written takes the reader of the expression along**: to a place that fits the next one,
by the token of the item that is finished. -/
def Follows (place : Regex.Place) (written : List Char) (step : Step) : Prop :=
  ∃ behind, Fits step.2 behind ∧ ∀ rest, Regex.scan place (written ++ rest) =
    (Regex.scan behind rest).map (step.1.toList.flatMap Item.tokens ++ ·)

section Follows

variable {place : Regex.Place} {draft : OpenClass} {step : Step} {written : List Char}

/-- No item is finished and what is written leads to a place that fits. -/
theorem follows_of_scan {next : Place} {behind : Regex.Place} (hf : Fits next behind)
    (h : ∀ rest, Regex.scan place (written ++ rest) = Regex.scan behind rest) :
    Follows place written (none, next) := by
  refine ⟨behind, hf, fun rest => ?_⟩
  rw [h rest]
  show _ = (Regex.scan behind rest).map fun tokens => tokens
  rw [Option.map_id']

theorem follows_stepFirst (h : Ready place draft) (c : Char) :
    Follows place [] (stepFirst draft c) := by
  unfold stepFirst
  split
  · exact follows_of_scan (.lowEscape h) fun _ => rfl
  · exact follows_of_scan (.low h c) fun _ => rfl

/-- A member starts, or the class is closed. -/
theorem follows_stepMember (h : Ready place draft) (hne : draft.spans ≠ []) (c : Char) :
    Follows place (if c = ']' then [']'] else []) (stepMember draft c) := by
  unfold stepMember
  by_cases hc : c = ']'
  · rw [if_pos hc, if_pos hc]
    refine ⟨.outside, .outside, fun rest => ?_⟩
    exact Regex.scan_of_some (h.close hne)
  · rw [if_neg hc, if_neg hc]
    exact follows_stepFirst h c

/-- A character that is written in front. -/
theorem Follows.behind_escaped (h : Ready place draft) (start : Char)
    (hf : Follows (.low draft.asSet start) written step) :
    Follows place (escaped start ++ written) step := by
  obtain ⟨behind, hfits, hscan⟩ := hf
  refine ⟨behind, hfits, fun rest => ?_⟩
  rw [List.append_assoc, h.scan_escaped, hscan]

/-- The end of a span. -/
theorem follows_stepHigh (h : Ready place draft) {low high : Char}
    (hs : stepHigh draft low high = .ok step) :
    Follows place (escaped low ++ '-' :: escaped high) step := by
  unfold stepHigh at hs
  split at hs
  · cases hs
  · next hrev =>
    obtain rfl := Except.ok.inj hs
    exact follows_of_scan (.member (ready_member _) (List.cons_ne_nil _ _)) fun rest =>
      h.scan_span (Nat.not_lt.1 hrev) rest

/-- A character outside of classes. -/
theorem follows_stepOutside (c : Char) :
    Follows .outside (Place.outside.writes c) (stepOutside c) := by
  unfold stepOutside
  show Follows _ (if c = '\\' then [] else _) _
  by_cases hescape : c = '\\'
  · rw [if_pos hescape, if_pos hescape]
    exact follows_of_scan .escape fun _ => rfl
  rw [if_neg hescape, if_neg hescape]
  by_cases hstar : c = '*'
  · rw [if_pos hstar, if_pos hstar]
    refine ⟨.outside, .outside, fun rest => ?_⟩
    have hdot : Regex.Place.outside.step '.' = some (some (.atom .anyOne), .outside) := rfl
    have hrun : Regex.Place.outside.step '*' = some (some .star, .outside) := rfl
    show Regex.scan .outside ('.' :: '*' :: rest) = _
    rw [Regex.scan_of_some hdot, Regex.scan_of_some hrun, Option.map_map]
    rfl
  rw [if_neg hstar, if_neg hstar]
  by_cases hone : c = '?'
  · rw [if_pos hone, if_pos hone]
    exact ⟨.outside, .outside, fun rest => Regex.scan_of_some rfl⟩
  rw [if_neg hone, if_neg hone]
  by_cases hopen : c = '['
  · rw [if_pos hopen, if_pos hopen]
    exact follows_of_scan .opening fun _ => Regex.scan_of_none rfl
  rw [if_neg hopen, if_neg hopen]
  exact ⟨.outside, .outside, fun rest => Regex.scan_escaped c rest⟩

/-- **One character of the text**: what is written for it takes the reader of the expression along.
One case for each place. -/
theorem follows_writes {place : Place} {behind : Regex.Place} (hf : Fits place behind) {c : Char}
    (hs : place.step c = .ok step) : Follows behind (place.writes c) step := by
  cases hf with
  | outside => exact Except.ok.inj hs ▸ follows_stepOutside c
  | escape =>
    obtain rfl := Except.ok.inj hs
    exact ⟨.outside, .outside, fun rest => Regex.scan_escaped c rest⟩
  | opening =>
    obtain rfl := Except.ok.inj hs
    have hcaret : ∀ rest, Regex.scan .opening ('^' :: rest) = Regex.scan (.member ⟨true, []⟩) rest :=
      fun rest => Regex.scan_of_none rfl
    rw [Place.writes]
    by_cases hbang : c = '!'
    · rw [if_pos hbang, if_pos (.inl hbang)]
      exact follows_of_scan (.first (ready_member ⟨.bang, []⟩)) hcaret
    · by_cases hc : c = '^'
      · rw [if_neg hbang, if_pos hc, if_pos (.inr hc)]
        exact follows_of_scan (.first (ready_member ⟨.caret, []⟩)) hcaret
      · rw [if_neg hbang, if_neg hc, if_neg fun h => h.elim hbang hc]
        exact follows_stepFirst ready_opening c
  | first h => exact Except.ok.inj hs ▸ follows_stepFirst h c
  | member h hne => exact Except.ok.inj hs ▸ follows_stepMember h hne c
  | lowEscape h =>
    obtain rfl := Except.ok.inj hs
    exact follows_of_scan (.low h c) fun _ => rfl
  | @low _ draft h start =>
    obtain rfl := Except.ok.inj hs
    rw [Place.writes]
    by_cases hc : c = '-'
    · rw [if_pos hc, if_pos hc]
      exact follows_of_scan (.hyphen h start) fun _ => rfl
    · rw [if_neg hc, if_neg hc]
      exact .behind_escaped h start
        (follows_stepMember (ready_low draft start) (List.cons_ne_nil _ _) c)
  | @hyphen _ draft h start =>
    rw [Place.step] at hs
    rw [Place.writes]
    by_cases hc : c = ']'
    · rw [if_pos hc] at hs ⊢
      obtain rfl := Except.ok.inj hs
      rw [List.append_assoc]
      refine .behind_escaped h start (.behind_escaped (ready_low draft start) '-' ?_)
      have hclose := follows_stepMember (ready_low (draft.add (.single start)) '-')
        (List.cons_ne_nil _ _) c
      rwa [if_pos hc] at hclose
    rw [if_neg hc] at hs ⊢
    by_cases hback : c = '\\'
    · rw [if_pos hback] at hs ⊢
      obtain rfl := Except.ok.inj hs
      exact follows_of_scan (.highEscape h start) fun _ => rfl
    · rw [if_neg hback] at hs ⊢
      exact follows_stepHigh h hs
  | highEscape h start => exact follows_stepHigh h hs

end Follows

/-- **The rest of a text**: its expression is read to the tokens of its items.  By induction on the
text. -/
theorem scan_expressionFrom {cs : List Char} {place : Place} {behind : Regex.Place}
    {items : List Item} (hf : Fits place behind) (h : scan place cs = .ok items) :
    Regex.scan behind (expressionFrom place cs) = some (items.flatMap Item.tokens) := by
  induction cs generalizing place behind items with
  | nil =>
    obtain ⟨rfl, rfl⟩ := scan_nil_eq_ok h
    cases hf
    rfl
  | cons c cs ih =>
    obtain ⟨item, next, tail, hs, ht, rfl⟩ := scan_cons_eq_ok h
    obtain ⟨behind', hf', hscan⟩ := follows_writes hf hs
    rw [expressionFrom, hs]
    dsimp only
    rw [hscan, ih hf' ht, List.flatMap_append]
    rfl

/-! ## 4. Parts -/

/-- The part of an expression that an item is. -/
def Item.part : Item → Regex.Part
  | .char c => ⟨.char c, false⟩
  | .anyOne => ⟨.anyOne, false⟩
  | .anyRun => ⟨.anyOne, true⟩
  | .oneOf cls => ⟨.set (cls.negation != .unmarked) cls.spans, false⟩

/-- An atom in front of tokens which do not start with a star is a part by itself. -/
theorem parts_atom (a : Regex.Atom) {tokens : List Regex.Token} (h : tokens.head? ≠ some .star) :
    Regex.parts (.atom a :: tokens) = (Regex.parts tokens).map (⟨a, false⟩ :: ·) := by
  rw [Regex.parts]
  rintro rest rfl
  exact h rfl

/-- **The tokens of items are their parts.** -/
theorem parts_tokens (items : List Item) :
    Regex.parts (items.flatMap Item.tokens) = some (items.map Item.part) := by
  induction items with
  | nil => rfl
  | cons item items ih =>
    have hhead : (items.flatMap Item.tokens).head? ≠ some .star := by
      cases items with
      | nil => exact nofun
      | cons item items => cases item <;> exact nofun
    rw [List.flatMap_cons, List.map_cons]
    cases item with
    | char c => exact (parts_atom _ hhead).trans (congrArg (Option.map _) ih)
    | anyOne => exact (parts_atom _ hhead).trans (congrArg (Option.map _) ih)
    | oneOf cls => exact (parts_atom _ hhead).trans (congrArg (Option.map _) ih)
    | anyRun =>
      have hstar : ∀ tokens, Regex.parts (.atom .anyOne :: .star :: tokens) =
          (Regex.parts tokens).map (⟨.anyOne, true⟩ :: ·) := fun tokens => by rw [Regex.parts]
      exact (hstar _).trans (congrArg (Option.map _) ih)

/-- **The expression of a segment is one**, and its parts are the segment's items. -/
theorem read_expression {text : String} {segment : Segment} (h : Segment.read text = .ok segment) :
    Regex.read segment.expression = some (segment.items.map Item.part) := by
  obtain ⟨htext, hscan⟩ := Segment.of_read h
  unfold Segment.expression Regex.read
  rw [htext, scan_expressionFrom .outside hscan]
  exact parts_tokens segment.items

/-- So a segment that is read has a matcher. -/
theorem isSome_matcher? {text : String} {segment : Segment} (h : Segment.read text = .ok segment) :
    segment.matcher?.isSome = true := by
  unfold Segment.matcher?
  cases segment.literal? with
  | some name => rfl
  | none => rw [read_expression h]; rfl

end Arboretum.Pattern
