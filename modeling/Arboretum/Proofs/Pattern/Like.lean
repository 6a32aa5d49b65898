import Arboretum.Pattern.Like
import Arboretum.Proofs.Pattern.Meaning
import Arboretum.Proofs.Pattern.Shell

/-!
# The names that a `LIKE` text covers

The `LIKE` text of a pattern covers exactly the names that the pattern matches when the letters of
ASCII are in lower case in both (`Like.coversChars_eq_covers`, `like_iff_covers_folded`): folding the
case leaves the wild characters wild and the others different from them.  A pattern in two parts
covers a text in two parts (`Like.coversChars_append`), so `%` and `_` in a pattern stand for
themselves.  In particular a table that narrows a listing by the `LIKE` text of a hint loses no match
of the hint (`like_passes_of_covers`).
-/

namespace Arboretum.Pattern

/-! ## 1. Plain texts -/

/-- What a character of a text without classes and escapes stands for. -/
def itemOf (c : Char) : Item := if c = '*' then .anyRun else if c = '?' then .anyOne else .char c

/-- **Reading a text without classes and escapes.** -/
theorem scan_plain {cs : List Char} (hopen : '[' ∉ cs) (hesc : '\\' ∉ cs) :
    scan .outside cs = .ok (cs.map itemOf) := by
  induction cs with
  | nil => rfl
  | cons c cs ih =>
    have hc : c ≠ '[' := fun he => hopen (he ▸ List.mem_cons_self)
    obtain ⟨hb, hesc⟩ := no_escape_cons hesc
    have ih := ih (fun hm => hopen (List.mem_cons_of_mem c hm)) hesc
    have hstep : Place.outside.step c = .ok (some (itemOf c), .outside) := by
      rw [Place.step, stepOutside, if_neg hb, if_neg hc, itemOf]
      split
      · rfl
      · split <;> rfl
    rw [scan, hstep]
    dsimp only
    rw [ih]
    rfl

/-- The shell reads such a text alike, whatever the escapes in it. -/
theorem itemsFrom_plain {cs : List Char} (hopen : '[' ∉ cs) :
    Shell.itemsFrom 0 cs = cs.map itemOf := by
  induction cs with
  | nil => rfl
  | cons c cs ih =>
    have hc : c ≠ '[' := fun he => hopen (he ▸ List.mem_cons_self)
    have ih := ih fun hm => hopen (List.mem_cons_of_mem c hm)
    rw [Shell.itemsFrom, if_neg hc, List.map_cons, itemOf, ih]
    split
    · rfl
    · split <;> rfl

namespace Like

/-! ## 2. The case of letters -/

/-- The letters are two runs of characters. -/
theorem isAlpha_eq_false_iff {c : Char} : c.isAlpha = false ↔
    ¬ (65 ≤ c.toNat ∧ c.toNat ≤ 90) ∧ ¬ (97 ≤ c.toNat ∧ c.toNat ≤ 122) := by
  have hval : c.toNat = c.val.toNat := rfl
  have hends : 'A'.val.toNat = 65 ∧ 'Z'.val.toNat = 90 ∧ 'a'.val.toNat = 97 ∧ 'z'.val.toNat = 122 := by
    decide
  delta Char.isAlpha Char.isUpper Char.isLower
  simp only [Bool.or_eq_false_iff, Bool.and_eq_false_imp, decide_eq_true_eq,
    decide_eq_false_iff_not, UInt32.le_iff_toNat_le, ge_iff_le]
  omega

/-- Folding gives and takes letters only. -/
theorem foldCase_eq_iff {c d : Char} (h : d.isAlpha = false) : foldCase c = d ↔ c = d := by
  unfold foldCase Char.toLower
  split
  · next hu =>
    have hends : 'A'.val.toNat = 65 ∧ 'Z'.val.toNat = 90 := by decide
    have hdiff : ('a'.val - 'A'.val).toNat = 32 := by decide
    have hlow := UInt32.le_iff_toNat_le.1 hu.1
    have hhigh := UInt32.le_iff_toNat_le.1 hu.2
    have hlower : (c.val + ('a'.val - 'A'.val)).toNat = c.val.toNat + 32 := by
      rw [UInt32.toNat_add, hdiff, Nat.mod_eq_of_lt (by omega)]
    obtain ⟨hnoUpper, hnoLower⟩ := isAlpha_eq_false_iff.1 h
    have hval : c.toNat = c.val.toNat := rfl
    constructor
    · intro he
      have hd : d.toNat = c.val.toNat + 32 := by
        rw [← he]
        exact hlower
      omega
    · rintro rfl
      omega
  · exact Iff.rfl

/-- A text with the letters of ASCII in lower case. -/
def fold (s : String) : String := String.ofList (s.toList.map foldCase)

theorem toList_fold (s : String) : (fold s).toList = s.toList.map foldCase := String.toList_ofList

/-- A character that is no letter does not come about by folding. -/
theorem not_mem_map_foldCase {d : Char} (h : d.isAlpha = false) {cs : List Char} (hd : d ∉ cs) :
    d ∉ cs.map foldCase := by
  intro hm
  obtain ⟨c, hc, he⟩ := List.mem_map.1 hm
  exact hd ((foldCase_eq_iff h).1 he ▸ hc)

/-- Folding leaves the wild characters wild. -/
theorem itemOf_foldCase (c : Char) : itemOf (foldCase c) =
    if c = '*' then .anyRun else if c = '?' then .anyOne else .char (foldCase c) := by
  unfold itemOf
  simp only [foldCase_eq_iff (d := '*') (by decide), foldCase_eq_iff (d := '?') (by decide)]

/-! ## 3. Covering -/

/-- A plain character of a `LIKE` text. -/
theorem coversChars_plain {d : Char} (h1 : d ≠ '%') (h2 : d ≠ '\\') (h3 : d ≠ '_')
    (like : List Char) (c : Char) (cs : List Char) :
    coversChars (d :: like) (c :: cs) = (foldCase d == foldCase c && coversChars like cs) := by
  rw [coversChars]
  · exact fun he => absurd he h1
  · exact fun _ _ he _ => absurd he h2
  · exact fun he => absurd he h2
  · exact fun he => absurd he h3

/-- An escaped character of a `LIKE` text. -/
theorem coversChars_escaped (d : Char) (like : List Char) (c : Char) (cs : List Char) :
    coversChars ('\\' :: d :: like) (c :: cs) = (foldCase d == foldCase c && coversChars like cs) :=
  rfl

/-- Only `%` covers the empty text. -/
theorem coversChars_nil {d : Char} (h : d ≠ '%') (like : List Char) :
    coversChars (d :: like) [] = false := by
  unfold coversChars
  split <;> simp_all

/-- **The `LIKE` text of a character that is not wild** asks for the character, in either case. -/
theorem coversChars_textOfChar {c : Char} (hstar : c ≠ '*') (hone : c ≠ '?') (hesc : c ≠ '\\')
    (like name : List Char) : coversChars (textOfChar c ++ like) name =
      match name with
      | [] => false
      | d :: name => foldCase c == foldCase d && coversChars like name := by
  unfold textOfChar
  rw [if_neg hstar, if_neg hone]
  split
  · cases name with
    | nil => rfl
    | cons d name => exact coversChars_escaped c like d name
  · next hspecial =>
    obtain ⟨h1, h3⟩ := not_or.1 hspecial
    cases name with
    | nil => exact coversChars_nil h1 like
    | cons d name => exact coversChars_plain h1 hesc h3 like d name

/-- **A `LIKE` text covers a text** exactly if the pattern covers it when the case of letters is
folded in both.  By induction on the pattern, one character at a time. -/
theorem coversChars_eq_covers {cs : List Char} (hesc : '\\' ∉ cs) (name : List Char) :
    coversChars (cs.flatMap textOfChar) name =
      Pattern.covers ((cs.map foldCase).map itemOf) (name.map foldCase) := by
  induction cs generalizing name with
  | nil => cases name <;> rfl
  | cons c cs ih =>
    obtain ⟨hb, hbs⟩ := no_escape_cons hesc
    have ih := ih hbs
    rw [List.flatMap_cons, List.map_cons, List.map_cons, itemOf_foldCase]
    by_cases hstar : c = '*'
    · rw [if_pos hstar, hstar]
      show (tails name).any (coversChars (cs.flatMap textOfChar)) =
        (tails (name.map foldCase)).any (Pattern.covers ((cs.map foldCase).map itemOf))
      rw [tails_eq, tails_eq, List.map_tails, List.any_map]
      exact congrArg (List.any name.tails) (funext ih)
    rw [if_neg hstar]
    by_cases hone : c = '?'
    · rw [if_pos hone, hone]
      cases name with
      | nil => rfl
      | cons d name => exact ih name
    · rw [if_neg hone, coversChars_textOfChar hstar hone hb]
      cases name with
      | nil => rfl
      | cons d name => exact congrArg (foldCase c == foldCase d && ·) (ih name)

/-- **A pattern in two parts** covers a text in two parts. -/
theorem coversChars_append {as bs : List Char} (ha : '\\' ∉ as) (hb : '\\' ∉ bs) (name : List Char) :
    coversChars ((as ++ bs).flatMap textOfChar) name = true ↔
      ∃ front back, name = front ++ back ∧ coversChars (as.flatMap textOfChar) front = true ∧
        coversChars (bs.flatMap textOfChar) back = true := by
  have hab : '\\' ∉ as ++ bs := fun hm => (List.mem_append.1 hm).elim ha hb
  simp only [coversChars_eq_covers hab, coversChars_eq_covers ha, coversChars_eq_covers hb,
    covers_iff_isCut, List.map_append, isCut_append]
  constructor
  · rintro ⟨front, back, he, hfront, hback⟩
    obtain ⟨left, right, rfl, rfl, rfl⟩ := List.map_eq_append_iff.1 he
    exact ⟨left, right, rfl, hfront, hback⟩
  · rintro ⟨front, back, rfl, hfront, hback⟩
    exact ⟨_, _, List.map_append, hfront, hback⟩

/-- A character that is neither wild nor a letter covers itself and nothing else. -/
theorem coversChars_self {c : Char} (hstar : c ≠ '*') (hone : c ≠ '?') (hesc : c ≠ '\\')
    (hletter : c.isAlpha = false) (name : List Char) :
    coversChars (textOfChar c) name = true ↔ name = [c] := by
  rw [← List.append_nil (textOfChar c), coversChars_textOfChar hstar hone hesc]
  have hfold : foldCase c = c := (foldCase_eq_iff hletter).2 rfl
  cases name with
  | nil => exact ⟨nofun, nofun⟩
  | cons d name =>
    have hsame : (foldCase c == foldCase d) = true ↔ d = c := by
      rw [hfold, beq_iff_eq, eq_comm, foldCase_eq_iff hletter]
    cases name with
    | nil => simp [hsame, coversChars]
    | cons e name => simp [coversChars]

/-- **The characters `%` and `_` of a pattern** cover themselves, what is in front of one and what is
behind it cover the rest. -/
theorem coversChars_around {c : Char} (hc : c = '%' ∨ c = '_') {as bs : List Char} (ha : '\\' ∉ as)
    (hb : '\\' ∉ bs) (name : List Char) :
    coversChars ((as ++ c :: bs).flatMap textOfChar) name = true ↔
      ∃ left right, name = left ++ c :: right ∧ coversChars (as.flatMap textOfChar) left = true ∧
        coversChars (bs.flatMap textOfChar) right = true := by
  have hself : ∀ name, coversChars (textOfChar c) name = true ↔ name = [c] := by
    rcases hc with rfl | rfl
    · exact coversChars_self (by decide) (by decide) (by decide) (by decide)
    · exact coversChars_self (by decide) (by decide) (by decide) (by decide)
  have hesc : '\\' ∉ [c] := by rcases hc with rfl | rfl <;> decide
  have hone : [c].flatMap textOfChar = textOfChar c := List.append_nil _
  have hrest : '\\' ∉ c :: bs := fun hm =>
    (List.mem_cons.1 hm).elim (fun he => hesc (List.mem_singleton.2 he)) hb
  rw [coversChars_append ha hrest]
  constructor
  · rintro ⟨left, rest, rfl, hleft, hrest⟩
    obtain ⟨mid, right, rfl, hmid, hright⟩ := (coversChars_append hesc hb rest).1 hrest
    rw [hone, hself] at hmid
    exact ⟨left, right, by rw [hmid]; rfl, hleft, hright⟩
  · rintro ⟨left, right, rfl, hleft, hright⟩
    refine ⟨left, c :: right, rfl, hleft, (coversChars_append hesc hb _).2 ⟨[c], right, rfl, ?_, hright⟩⟩
    rw [hone, hself]

/-- What a pattern covers it covers when the case of letters is folded in both. -/
theorem covers_fold {cs name : List Char} (h : Pattern.covers (cs.map itemOf) name = true) :
    Pattern.covers ((cs.map foldCase).map itemOf) (name.map foldCase) = true := by
  rw [covers_iff_isCut] at h ⊢
  have hcut := (isCut_map fun c piece => Iff.rfl).1 h
  rw [List.map_map]
  refine hcut.map fun c piece hp => ?_
  show (itemOf (foldCase c)).Covers (piece.map foldCase)
  rw [itemOf_foldCase]
  unfold itemOf at hp
  split at hp
  · next hstar =>
    rw [if_pos hstar]
    exact .anyRun _
  · next hstar =>
    rw [if_neg hstar]
    split at hp
    · next hone =>
      rw [if_pos hone]
      cases hp
      exact .anyOne _
    · next hone =>
      rw [if_neg hone]
      cases hp
      exact .char _

/-- **The `LIKE` text of a hint covers what the hint matches.** -/
theorem coversChars_of_covers {cs : List Char} (hopen : '[' ∉ cs) (hesc : '\\' ∉ cs)
    {name : List Char} (h : Pattern.covers (Shell.itemsFrom 0 cs) name = true) :
    coversChars (cs.flatMap textOfChar) name = true := by
  rw [itemsFrom_plain hopen] at h
  rw [coversChars_eq_covers hesc]
  exact covers_fold h

/-! ## 4. Whole patterns -/

/-- A pattern without classes and escapes has a `LIKE` text, -/
theorem textOf?_plain {pattern : String} (hopen : '[' ∉ pattern.toList)
    (hesc : '\\' ∉ pattern.toList) :
    textOf? pattern = some (String.ofList (pattern.toList.flatMap textOfChar)) :=
  if_neg fun h => h.elim hopen hesc

/-- which covers what the `LIKE` texts of its characters cover. -/
theorem covers_ofList (cs : List Char) (name : String) :
    covers (String.ofList (cs.flatMap textOfChar)) name =
      coversChars (cs.flatMap textOfChar) name.toList := by
  rw [covers, String.toList_ofList]

end Like

/-- Reading such a pattern, without separators, as the pattern of one name. -/
theorem readName_plain {pattern : String} (hslash : '/' ∉ pattern.toList)
    (hopen : '[' ∉ pattern.toList) (hesc : '\\' ∉ pattern.toList) :
    Segment.readName pattern = .ok ⟨pattern, pattern.toList.map itemOf⟩ := by
  rw [Segment.readName, if_neg hslash, Segment.read, scan_plain hopen hesc]

/-! ## 5. Hints -/

/-- **A name that a segment matches passes its hint** in a table. -/
theorem like_passes_of_covers {text hint : String} {segment : Segment}
    (h : Segment.read text = .ok segment) (hh : segment.hint? = some hint) {name : String}
    (hc : segment.covers name = true) : Like.passes [hint] name = true := by
  rw [← covers_hint h hh name] at hc
  unfold Like.passes Like.filter? Like.textOf?
  by_cases hplain : '[' ∈ hint.toList ∨ '\\' ∈ hint.toList
  · simp [hplain]
  · obtain ⟨hopen, hesc⟩ := not_or.1 hplain
    have hlike := Like.coversChars_of_covers hopen hesc hc
    simp [hplain, Like.covers, hlike]

/-- A name that a segment matches passes its hint for the shell. -/
theorem shell_passes_of_covers {text hint : String} {segment : Segment}
    (h : Segment.read text = .ok segment) (hh : segment.hint? = some hint) {name : String}
    (hc : segment.covers name = true) : Shell.passes [hint] name = true := by
  rw [← covers_hint h hh name] at hc
  unfold Shell.passes
  simp [hc]

/-! ## 6. Folding the case -/

/-- **The `LIKE` text of a pattern** without separators, classes and escapes covers a name exactly if
the pattern matches it with the letters of ASCII in lower case in both.  So every name that the
pattern matches passes the filter, and a `%` or `_` of the pattern stands for itself alone: what is in
front of it and what is behind it cover the rest of the name. -/
theorem like_iff_covers_folded {pattern : String} (hslash : '/' ∉ pattern.toList)
    (hopen : '[' ∉ pattern.toList) (hesc : '\\' ∉ pattern.toList) :
    ∃ (like : String) (segment folded : Segment), Like.textOf? pattern = some like ∧
      Segment.readName pattern = .ok segment ∧ Segment.readName (Like.fold pattern) = .ok folded ∧
      (∀ name, Like.covers like name = true ↔ folded.covers (Like.fold name) = true) ∧
      (∀ name, segment.covers name = true → Like.passes [pattern] name = true) ∧
      (∀ (front back : String) (c : Char), c = '%' ∨ c = '_' →
        pattern = front ++ String.singleton c ++ back → ∃ likeFront likeBack,
          Like.textOf? front = some likeFront ∧ Like.textOf? back = some likeBack ∧
          ∀ name, Like.covers like name = true ↔ ∃ left right,
            name = left ++ String.singleton c ++ right ∧
              Like.covers likeFront left = true ∧ Like.covers likeBack right = true) := by
  have hkeeps : ∀ {d : Char}, d.isAlpha = false → d ∉ pattern.toList →
      d ∉ (Like.fold pattern).toList := fun hd hm =>
    Like.toList_fold pattern ▸ Like.not_mem_map_foldCase hd hm
  have hlike := Like.textOf?_plain hopen hesc
  have hcovers : ∀ name : String,
      Like.covers (String.ofList (pattern.toList.flatMap Like.textOfChar)) name =
        Pattern.covers ((Like.fold pattern).toList.map itemOf) (Like.fold name).toList := by
    intro name
    rw [Like.covers_ofList, Like.coversChars_eq_covers hesc, Like.toList_fold, Like.toList_fold]
  refine ⟨_, _, _, hlike, readName_plain hslash hopen hesc,
    readName_plain (hkeeps (by decide) hslash) (hkeeps (by decide) hopen) (hkeeps (by decide) hesc),
    fun name => ?_, fun name hname => ?_, fun front back c hc he => ?_⟩
  · rw [hcovers]
    exact Iff.rfl
  · have hcovered := hcovers name
    rw [Like.toList_fold, Like.toList_fold, Like.covers_fold hname] at hcovered
    simp [Like.passes, Like.filter?, hlike, hcovered]
  · have hchars : pattern.toList = front.toList ++ c :: back.toList := by
      rw [he, String.toList_append, String.toList_append, String.toList_singleton, List.append_assoc]
      rfl
    have hmem : ∀ {d : Char}, d ∉ pattern.toList → d ∉ front.toList ∧ d ∉ back.toList := by
      intro d hd
      rw [hchars, List.mem_append, List.mem_cons, not_or, not_or] at hd
      exact ⟨hd.1, hd.2.2⟩
    refine ⟨_, _, Like.textOf?_plain (hmem hopen).1 (hmem hesc).1,
      Like.textOf?_plain (hmem hopen).2 (hmem hesc).2, fun name => ?_⟩
    simp only [Like.covers_ofList]
    rw [hchars, Like.coversChars_around hc (hmem hesc).1 (hmem hesc).2]
    constructor
    · rintro ⟨left, right, hname, hleft, hright⟩
      refine ⟨String.ofList left, String.ofList right, ?_, by simpa using hleft, by simpa using hright⟩
      rw [← String.toList_inj]
      simp [hname]
    · rintro ⟨left, right, rfl, hleft, hright⟩
      exact ⟨left.toList, right.toList, by simp, hleft, hright⟩

/-- Letters of either case, a `%` and a `_` between wild characters: the name is covered, and without
the `%` it is not. -/
theorem like_iff_covers_folded_small :
    '/' ∉ "a*%?_".toList ∧ '[' ∉ "a*%?_".toList ∧ '\\' ∉ "a*%?_".toList ∧ ∃ like,
      Like.textOf? "a*%?_" = some like ∧ Like.covers like "Axy%Z_" = true ∧
        Like.covers like "AxyzZ_" = false := by
  have hslash : '/' ∉ "a*%?_".toList := by decide
  have hopen : '[' ∉ "a*%?_".toList := by decide
  have hesc : '\\' ∉ "a*%?_".toList := by decide
  have hlower : Segment.readName (Like.fold "a*%?_") =
      .ok ⟨"a*%?_", [.char 'a', .anyRun, .char '%', .anyOne, .char '_']⟩ := by decide +kernel
  obtain ⟨like, segment, folded, hlike, hread, hfolded, hcovers, -, hself⟩ :=
    like_iff_covers_folded hslash hopen hesc
  obtain rfl := Except.ok.inj (hlower.symm.trans hfolded)
  refine ⟨hslash, hopen, hesc, like, hlike, (hcovers _).2 (by decide +kernel), ?_⟩
  obtain ⟨likeFront, likeBack, -, -, haround⟩ := hself "a*" "?_" '%' (.inl rfl) (by decide +kernel)
  rw [Bool.eq_false_iff, Ne, haround]
  rintro ⟨left, right, hname, -, -⟩
  have hmem : '%' ∈ "AxyzZ_".toList := by
    rw [hname]
    simp
  revert hmem
  decide

end Arboretum.Pattern
