import Arboretum.Proofs.Pattern.Reading

/-!
# The grammar of segments

What texts are segments is said here without the scanner: a segment is a sequence of items, and the
members of a class are read from left to right, each as far as it goes (`Spells`, `Members`).  The
scanner looks at one character at a time and keeps in mind what it may be part of; `scan_low_single`
and `scan_low_span` say what that comes to where a hyphen follows a member.  So a text is read to its end
exactly if the grammar has items for it, and then to these items (`scan_eq_ok_iff`).
-/

namespace Arboretum.Pattern

/-! ## 1. The grammar -/

namespace Grammar

/-- **A character of a class** at the start of a text, as it is or behind a backslash, and the text
that follows it. -/
inductive Letter : List Char → Char → List Char → Prop
  | bare {c : Char} (cs : List Char) (h : c ≠ '\\') : Letter (c :: cs) c cs
  | escaped (c : Char) (cs : List Char) : Letter ('\\' :: c :: cs) c cs

/-- A span goes on: a hyphen follows, and a character other than `]` behind it. -/
def GoesOn (cs : List Char) : Prop := ∃ c rest, cs = '-' :: c :: rest ∧ c ≠ ']'

/-- **The members of a class** at the start of a text, up to the bracket that closes the class, and
the text that follows it.  In first place the bracket is a member. -/
inductive Members : (first : Bool) → List Char → List Span → List Char → Prop
  | close (rest : List Char) : Members false (']' :: rest) [] rest
  | single {first : Bool} {cs behind rest : List Char} {c : Char} {spans : List Span}
    (hplace : first = true ∨ cs.head? ≠ some ']') (hc : Letter cs c behind)
    (hend : ¬ GoesOn behind) (ht : Members false behind spans rest) :
    Members first cs (.single c :: spans) rest
  | span {first : Bool} {cs hyphened behind rest : List Char} {low high : Char} {spans : List Span}
    (hplace : first = true ∨ cs.head? ≠ some ']') (hlow : Letter cs low ('-' :: hyphened))
    (hon : hyphened.head? ≠ some ']') (hhigh : Letter hyphened high behind)
    (hle : low.toNat ≤ high.toNat) (ht : Members false behind spans rest) :
    Members first cs (⟨low, high⟩ :: spans) rest

/-- The mark of a negation at the start of a text, if there is one, and the text that follows it. -/
inductive Mark : List Char → Negation → List Char → Prop
  | bang (cs : List Char) : Mark ('!' :: cs) .bang cs
  | caret (cs : List Char) : Mark ('^' :: cs) .caret cs
  | unmarked {cs : List Char} (hbang : cs.head? ≠ some '!') (hcaret : cs.head? ≠ some '^') :
    Mark cs .unmarked cs

/-- **A text spells items.** -/
inductive Spells : List Char → List Item → Prop
  | nil : Spells [] []
  | plain {c : Char} {cs : List Char} {items : List Item}
    (hc : c ≠ '\\' ∧ c ≠ '*' ∧ c ≠ '?' ∧ c ≠ '[') (ht : Spells cs items) :
    Spells (c :: cs) (.char c :: items)
  | escaped {c : Char} {cs : List Char} {items : List Item} (ht : Spells cs items) :
    Spells ('\\' :: c :: cs) (.char c :: items)
  | anyRun {cs : List Char} {items : List Item} (ht : Spells cs items) :
    Spells ('*' :: cs) (.anyRun :: items)
  | anyOne {cs : List Char} {items : List Item} (ht : Spells cs items) :
    Spells ('?' :: cs) (.anyOne :: items)
  | oneOf {negation : Negation} {cs inside rest : List Char} {spans : List Span} {items : List Item}
    (hm : Mark cs negation inside) (hs : Members true inside spans rest) (ht : Spells rest items) :
    Spells ('[' :: cs) (.oneOf ⟨negation, spans⟩ :: items)

/-- A text with its escapes removed. -/
def unescaped : List Char → List Char
  | [] => []
  | '\\' :: c :: cs => c :: unescaped cs
  | c :: cs => c :: unescaped cs

end Grammar

open Grammar

/-! ## 2. One character -/

section Scanning

variable {place next : Place} {c : Char} {cs behind rest : List Char} {items tail : List Item}
  {draft : OpenClass} {spans : List Span}

theorem scan_of_none (h : place.step c = .ok (none, next)) : scan place (c :: cs) = scan next cs := by
  rw [scan, h]
  dsimp only
  cases scan next cs <;> rfl

theorem scan_of_some {item : Item} (h : place.step c = .ok (some item, next))
    (ht : scan next cs = .ok tail) : scan place (c :: cs) = .ok (item :: tail) := by
  rw [scan, h]
  dsimp only
  rw [ht]
  rfl

/-- Places at which a character does the same read alike from there on. -/
theorem scan_congr {place' : Place} (h : place.step c = place'.step c) :
    scan place (c :: cs) = scan place' (c :: cs) := by
  rw [scan, scan, h]

/-! ## 3. Members -/

/-- Where the reader stands in a class. -/
def inClass : Bool → OpenClass → Place
  | true, draft => .first draft
  | false, draft => .member draft

/-- Without a closing bracket a member starts, in first place or later. -/
theorem scan_inClass {first : Bool} (h : first = true ∨ cs.head? ≠ some ']') :
    scan (inClass first draft) cs = scan (.first draft) cs := by
  cases first with
  | true => rfl
  | false =>
    cases cs with
    | nil => rfl
    | cons c cs =>
      have hc : c ≠ ']' := fun he => (h.resolve_left Bool.false_ne_true) (congrArg some he)
      have hstep : stepMember draft c = stepFirst draft c := if_neg hc
      exact scan_congr (congrArg Except.ok hstep)

/-- The character that a member starts with. -/
theorem scan_letter (h : Letter cs c behind) : scan (.first draft) cs = scan (.low draft c) behind := by
  cases h with
  | bare _ hc =>
    have hstep : stepFirst draft c = (none, .low draft c) := if_neg hc
    exact scan_of_none (congrArg Except.ok hstep)
  | escaped =>
    have hstep : (Place.first draft).step '\\' = .ok (none, .lowEscape draft) := rfl
    rw [scan_of_none hstep]
    exact scan_of_none rfl

/-- Where the text must not end yet, neither as it is nor behind a backslash, a character is read. -/
theorem exists_letter {flaw flaw' : Flaw} (hend : scan place [] = .error flaw)
    (hback : scan place ['\\'] = .error flaw') (h : scan place cs = .ok items) :
    ∃ c behind, Letter cs c behind := by
  cases cs with
  | nil => cases hend.symm.trans h
  | cons c cs =>
    by_cases hc : c = '\\'
    · subst hc
      cases cs with
      | nil => cases hback.symm.trans h
      | cons d cs => exact ⟨d, cs, .escaped d cs⟩
    · exact ⟨c, cs, .bare cs hc⟩

/-- **A member by itself.**  The hyphen in front of a closing bracket is the next member. -/
theorem scan_low_single {start : Char} (h : ¬ GoesOn cs) :
    scan (.low draft start) cs = scan (.member (draft.add (.single start))) cs := by
  cases cs with
  | nil => rfl
  | cons c cs =>
    by_cases hc : c = '-'
    · subst hc
      cases cs with
      | nil => rfl
      | cons d cs =>
        have hd : d = ']' := Classical.byContradiction fun hd => h ⟨d, cs, rfl, hd⟩
        subst hd
        rfl
    · have hstep : (Place.low draft start).step c = .ok (stepMember (draft.add (.single start)) c) :=
        congrArg Except.ok (if_neg hc)
      exact scan_congr hstep

/-- **A span**, or its flaw. -/
theorem scan_low_span {low high : Char} (hon : cs.head? ≠ some ']') (h : Letter cs high behind) :
    scan (.low draft low) ('-' :: cs) =
      if high.toNat < low.toNat then .error (.reversedSpan low high)
      else scan (.member (draft.add ⟨low, high⟩)) behind := by
  -- Whatever place the end of the span is read at, it does this.
  have hhigh : ∀ {place : Place}, place.step high = stepHigh draft low high →
      scan place (high :: behind) = if high.toNat < low.toNat then .error (.reversedSpan low high)
        else scan (.member (draft.add ⟨low, high⟩)) behind := by
    intro place hstep
    rw [stepHigh] at hstep
    split at hstep
    · next hrev => rw [scan, hstep, if_pos hrev]
    · next hrev => rw [scan_of_none hstep, if_neg hrev]
  have hfirst : scan (.low draft low) ('-' :: cs) = scan (.hyphen draft low) cs := scan_of_none rfl
  rw [hfirst]
  cases h with
  | bare _ hc =>
    have hb : high ≠ ']' := fun he => hon (congrArg some he)
    refine hhigh ?_
    rw [Place.step, if_neg hb, if_neg hc]
  | escaped =>
    have hstep : scan (.hyphen draft low) ('\\' :: high :: behind) =
        scan (.highEscape draft low) (high :: behind) := scan_of_none rfl
    rw [hstep]
    exact hhigh rfl

/-- The class that a draft becomes with some more spans. -/
def OpenClass.closeWith (draft : OpenClass) (spans : List Span) : CharClass :=
  ⟨draft.negation, draft.spans.reverse ++ spans⟩

theorem OpenClass.closeWith_cons (draft : OpenClass) (s : Span) (spans : List Span) :
    draft.closeWith (s :: spans) = (draft.add s).closeWith spans := by
  simp [closeWith, add]

/-- **Members of the grammar are read.**  By induction on them. -/
theorem scan_of_members {first : Bool} (h : Members first cs spans rest)
    (ht : scan .outside rest = .ok tail) (draft : OpenClass) :
    scan (inClass first draft) cs = .ok (.oneOf (draft.closeWith spans) :: tail) := by
  induction h generalizing draft with
  | close rest =>
    have hclose : draft.closeWith [] = draft.close := by
      rw [OpenClass.closeWith, List.append_nil]
      rfl
    rw [hclose]
    exact scan_of_some rfl ht
  | single hplace hc hend _ ih =>
    rw [scan_inClass hplace, scan_letter hc, scan_low_single hend, OpenClass.closeWith_cons]
    exact ih ht _
  | span hplace hlow hon hhigh hle _ ih =>
    rw [scan_inClass hplace, scan_letter hlow, scan_low_span hon hhigh, if_neg (Nat.not_lt.2 hle),
      OpenClass.closeWith_cons]
    exact ih ht _

theorem Grammar.Letter.length_lt (h : Letter cs c behind) : behind.length < cs.length := by
  cases h with
  | bare => exact Nat.lt_succ_self _
  | escaped => exact Nat.lt_of_succ_lt (Nat.lt_succ_self _)

/-- **What is read in a class are members of the grammar.**  By induction on the length of the text:
each member leaves a shorter one. -/
theorem members_of_scan (n : Nat) {first : Bool} (hn : cs.length ≤ n)
    (h : scan (inClass first draft) cs = .ok items) :
    ∃ spans rest tail, Members first cs spans rest ∧ rest.length < cs.length ∧
      scan .outside rest = .ok tail ∧ items = .oneOf (draft.closeWith spans) :: tail := by
  induction n generalizing first cs draft with
  | zero =>
    obtain rfl := List.length_eq_zero_iff.1 (Nat.le_zero.1 hn)
    cases first <;> cases h
  | succ n ih =>
    by_cases hclose : first = false ∧ cs.head? = some ']'
    · obtain ⟨rfl, hhead⟩ := hclose
      cases cs with
      | nil => cases hhead
      | cons c cs =>
        obtain rfl := Option.some.inj hhead
        obtain ⟨item, next, tail, hs, ht, rfl⟩ := scan_cons_eq_ok h
        obtain ⟨rfl, rfl⟩ := Prod.mk.inj (Except.ok.inj hs)
        refine ⟨[], cs, tail, .close cs, Nat.lt_succ_self _, ht, ?_⟩
        rw [OpenClass.closeWith, List.append_nil]
        rfl
    · have hplace : first = true ∨ cs.head? ≠ some ']' := by
        rcases Bool.eq_false_or_eq_true first with hf | hf
        · exact .inl hf
        · exact .inr fun hh => hclose ⟨hf, hh⟩
      rw [scan_inClass hplace] at h
      obtain ⟨c, behind, hc⟩ := exists_letter rfl rfl h
      rw [scan_letter hc] at h
      have hlt := hc.length_lt
      -- What is left behind the member is a shorter text.
      have hrest : ∀ {left : List Char} {s : Span}, left.length ≤ behind.length →
          (∀ spans rest, Members false left spans rest → Members first cs (s :: spans) rest) →
          scan (inClass false (draft.add s)) left = .ok items →
          ∃ spans rest tail, Members first cs spans rest ∧ rest.length < cs.length ∧
            scan .outside rest = .ok tail ∧ items = .oneOf (draft.closeWith spans) :: tail := by
        intro left s hle hmembers hscan
        obtain ⟨spans, rest, tail, hm, hl, ht, hi⟩ := ih (by omega) hscan
        refine ⟨s :: spans, rest, tail, hmembers spans rest hm, by omega, ht, ?_⟩
        rw [OpenClass.closeWith_cons]
        exact hi
      by_cases hon : GoesOn behind
      · obtain ⟨high, more, rfl, hne⟩ := hon
        have hhead : (high :: more).head? ≠ some ']' := fun hh => hne (Option.some.inj hh)
        have hhyphen : scan (.low draft c) ('-' :: high :: more) =
          scan (.hyphen draft c) (high :: more) := scan_of_none rfl
        obtain ⟨d, left, hd⟩ := exists_letter rfl rfl (hhyphen.symm.trans h)
        rw [scan_low_span hhead hd] at h
        split at h
        · cases h
        · next hrev =>
          have hl := hd.length_lt
          have hle := Nat.le_of_lt (Nat.lt_trans hl (Nat.lt_succ_self _))
          exact hrest hle (fun _ _ => .span hplace hc hhead hd (Nat.not_lt.1 hrev)) h
      · rw [scan_low_single hon] at h
        exact hrest (Nat.le_refl _) (fun _ _ => .single hplace hc hon) h

/-! ## 4. Whole texts -/

theorem exists_mark (cs : List Char) : ∃ negation inside, Mark cs negation inside := by
  cases cs with
  | nil => exact ⟨.unmarked, [], .unmarked nofun nofun⟩
  | cons c cs =>
    by_cases hbang : c = '!'
    · exact ⟨.bang, cs, hbang ▸ .bang cs⟩
    · by_cases hcaret : c = '^'
      · exact ⟨.caret, cs, hcaret ▸ .caret cs⟩
      · exact ⟨.unmarked, c :: cs, .unmarked (fun h => hbang (Option.some.inj h))
          fun h => hcaret (Option.some.inj h)⟩

theorem length_le_of_mark {negation : Negation} {inside : List Char}
    (h : Mark cs negation inside) : inside.length ≤ cs.length := by
  cases h with
  | bang => exact Nat.le_succ _
  | caret => exact Nat.le_succ _
  | unmarked => exact Nat.le_refl _

/-- The first member of a class comes behind its mark. -/
theorem scan_mark {negation : Negation} {inside : List Char} (h : Mark cs negation inside) :
    scan .opening cs = scan (inClass true ⟨negation, []⟩) inside := by
  cases h with
  | bang => exact scan_of_none rfl
  | caret => exact scan_of_none rfl
  | unmarked hbang hcaret =>
    cases cs with
    | nil => rfl
    | cons c cs =>
      have hb : c ≠ '!' := fun he => hbang (congrArg some he)
      have hc : c ≠ '^' := fun he => hcaret (congrArg some he)
      refine scan_congr ?_
      rw [Place.step, if_neg hb, if_neg hc]
      rfl

/-- **Texts that spell items are read** to these items.  By induction on the grammar. -/
theorem scan_of_spells (h : Spells cs items) : scan .outside cs = .ok items := by
  induction h with
  | nil => rfl
  | @plain c cs items hc _ ih =>
    have hstep : stepOutside c = (some (.char c), .outside) := by
      rw [stepOutside, if_neg hc.1, if_neg hc.2.1, if_neg hc.2.2.1, if_neg hc.2.2.2]
    exact scan_of_some (congrArg Except.ok hstep) ih
  | @escaped c cs items _ ih =>
    have hstep : Place.outside.step '\\' = .ok (none, .escape) := rfl
    rw [scan_of_none hstep]
    exact scan_of_some rfl ih
  | anyRun _ ih => exact scan_of_some rfl ih
  | anyOne _ ih => exact scan_of_some rfl ih
  | @oneOf negation cs inside rest spans items hm hs _ ih =>
    have hstep : Place.outside.step '[' = .ok (none, .opening) := rfl
    rw [scan_of_none hstep, scan_mark hm]
    exact scan_of_members hs ih ⟨negation, []⟩

/-- **What is read spells its items.**  By induction on the length of the text. -/
theorem spells_of_scan (n : Nat) (hn : cs.length ≤ n) (h : scan .outside cs = .ok items) :
    Spells cs items := by
  induction n generalizing cs items with
  | zero =>
    obtain rfl := List.length_eq_zero_iff.1 (Nat.le_zero.1 hn)
    rw [(scan_nil_eq_ok h).2]
    exact .nil
  | succ n ih =>
    cases cs with
    | nil =>
      rw [(scan_nil_eq_ok h).2]
      exact .nil
    | cons c cs =>
      rw [List.length_cons] at hn
      obtain ⟨item, next, tail, hs, ht, rfl⟩ := scan_cons_eq_ok h
      rw [Place.step, stepOutside] at hs
      have hs := Except.ok.inj hs
      by_cases hescape : c = '\\'
      · rw [if_pos hescape] at hs
        obtain ⟨rfl, rfl⟩ := Prod.mk.inj hs
        subst hescape
        cases cs with
        | nil => cases ht
        | cons d cs =>
          obtain ⟨item, next, tail, hs, ht, rfl⟩ := scan_cons_eq_ok ht
          obtain ⟨rfl, rfl⟩ := Prod.mk.inj (Except.ok.inj hs)
          exact .escaped (ih (Nat.le_of_succ_le (Nat.le_of_succ_le_succ hn)) ht)
      rw [if_neg hescape] at hs
      by_cases hstar : c = '*'
      · rw [if_pos hstar] at hs
        obtain ⟨rfl, rfl⟩ := Prod.mk.inj hs
        exact hstar ▸ .anyRun (ih (Nat.le_of_succ_le_succ hn) ht)
      rw [if_neg hstar] at hs
      by_cases hone : c = '?'
      · rw [if_pos hone] at hs
        obtain ⟨rfl, rfl⟩ := Prod.mk.inj hs
        exact hone ▸ .anyOne (ih (Nat.le_of_succ_le_succ hn) ht)
      rw [if_neg hone] at hs
      by_cases hopen : c = '['
      · rw [if_pos hopen] at hs
        obtain ⟨rfl, rfl⟩ := Prod.mk.inj hs
        obtain ⟨negation, inside, hm⟩ := exists_mark cs
        rw [scan_mark hm] at ht
        obtain ⟨spans, rest, tail, hmembers, hlt, hrest, rfl⟩ :=
          members_of_scan inside.length (Nat.le_refl _) ht
        have hle := length_le_of_mark hm
        exact hopen ▸ .oneOf hm hmembers (ih (by omega) hrest)
      · rw [if_neg hopen] at hs
        obtain ⟨rfl, rfl⟩ := Prod.mk.inj hs
        exact .plain ⟨hescape, hstar, hone, hopen⟩ (ih (Nat.le_of_succ_le_succ hn) ht)

/-- **The scanner reads just what the grammar spells**, and to the same items. -/
theorem scan_eq_ok_iff : scan .outside cs = .ok items ↔ Spells cs items :=
  ⟨spells_of_scan cs.length (Nat.le_refl _), scan_of_spells⟩

end Scanning

/-- **A segment's text spells its items**, and nothing else. -/
theorem spells_iff_of_read {text : String} {segment : Segment} (h : Segment.read text = .ok segment)
    {items : List Item} : Spells text.toList items ↔ items = segment.items := by
  rw [← scan_eq_ok_iff, (Segment.of_read h).2]
  exact ⟨fun he => (Except.ok.inj he).symm, fun he => congrArg _ he.symm⟩

/-- A text that is no segment spells nothing. -/
theorem not_spells_of_read {text : String} {flaw : Flaw} (h : Segment.read text = .error flaw)
    (items : List Item) : ¬ Spells text.toList items := by
  intro hs
  unfold Segment.read at h
  rw [scan_eq_ok_iff.2 hs] at h
  cases h

/-! ## 5. Literal texts -/

/-- A text of plain and escaped characters spells them without the backslashes. -/
theorem eq_unescaped_of_spells {cs : List Char} {items : List Item} (h : Spells cs items)
    {name : List Char} (hitems : items = name.map .char) : name = unescaped cs := by
  induction h generalizing name with
  | nil => exact List.map_eq_nil_iff.1 hitems.symm
  | @plain c cs items hc _ ih =>
    cases name with
    | nil => cases hitems
    | cons d name =>
      obtain ⟨hd, ht⟩ := List.cons.inj hitems
      obtain rfl := Item.char.inj hd
      rw [ih ht, unescaped]
      exact fun _ _ he _ => hc.1 he
  | @escaped c cs items _ ih =>
    cases name with
    | nil => cases hitems
    | cons d name =>
      obtain ⟨hd, ht⟩ := List.cons.inj hitems
      obtain rfl := Item.char.inj hd
      rw [ih ht]
      rfl
  | anyRun => cases name <;> cases hitems
  | anyOne => cases name <;> cases hitems
  | oneOf => cases name <;> cases hitems

end Arboretum.Pattern
