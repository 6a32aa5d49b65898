import Arboretum.Proofs.Path.Back

/-!
# Cleaning and joining once more

A store cleans paths that are clean already, and joins parts to paths that were joined before.  As
cleaning trims before it resolves, a clean path may end in a blank that the next cleaning takes
away, and a part that ends (or, as the first one, starts) in a blank is read differently when the
parts in front of it are joined first.

`join_rejoined` says exactly when this happens: parts are **joinable** in two steps when no blank
stands at the seam, and then both ways of joining agree; for a list of names behind the seam they
agree only then (`join_rejoined_iff`).
-/

namespace Arboretum

/-! ## 1. Trimming at a slash and at the last field -/

/-- In front of a slash a text is trimmed alone. -/
theorem Text.trimStart_append_slash (as bs : List Char) :
    trimStart (as ++ '/' :: bs) = trimStart as ++ '/' :: bs := by
  unfold trimStart
  rw [List.dropWhile_append]
  split
  · next hempty =>
    rw [List.dropWhile_cons_of_neg (by simp [isBlank_slash]), List.isEmpty_iff.1 hempty]
    rfl
  · rfl

/-- Two texts with a slash between them are trimmed at their outer ends. -/
theorem Text.trim_append_slash (as bs : List Char) :
    trim (as ++ '/' :: bs) = trimStart as ++ '/' :: trimEnd bs := by
  rw [trim, trimStart_append_slash, trimEnd_append_slash]

namespace Path

/-- Cutting blanks off at the end cuts them off the last field. -/
theorem fields_trimEnd (cs : List Char) : ∃ gs f, '/' ∉ f ∧ cs = unfields (gs ++ [f]) ∧
    fields cs = gs ++ [f] ∧ fields (Text.trimEnd cs) = gs ++ [Text.trimEnd f] := by
  rcases List.eq_nil_or_concat (fields cs) with hnil | ⟨gs, f, hfields⟩
  · exact absurd hnil (fields_ne_nil cs)
  rw [List.concat_eq_append] at hfields
  have hslash : ∀ g ∈ gs ++ [f], '/' ∉ g := fun g hg => no_slash_of_mem_fields (hfields ▸ hg)
  have hlast : '/' ∉ f := hslash f (List.mem_append_right _ List.mem_cons_self)
  have htext : cs = unfields (gs ++ [f]) := by rw [← hfields, unfields_fields]
  have hkept : '/' ∉ Text.trimEnd f := fun hm => hlast (Text.mem_of_mem_trimEnd hm)
  have hread : ∀ g ∈ gs ++ [Text.trimEnd f], '/' ∉ g := by
    intro g hg
    rcases List.mem_append.1 hg with hg | hg
    · exact hslash g (List.mem_append_left _ hg)
    · exact List.mem_singleton.1 hg ▸ hkept
  refine ⟨gs, f, hlast, htext, hfields, ?_⟩
  rw [← fields_unfields (by simp) hread, htext]
  by_cases hgs : gs = []
  · subst hgs
    simp [unfields]
  · rw [unfields_append_singleton hgs, unfields_append_singleton hgs, Text.trimEnd_append_slash]

/-- The last field of a text that ends in a blank is a name that ends in it. -/
theorem isPlain_of_endsBlank {gs : List (List Char)} {f : List Char} (hslash : '/' ∉ f)
    (hb : Text.endsBlank (unfields (gs ++ [f])) = true) : IsPlain f ∧ Text.endsBlank f = true := by
  have hblank : Text.endsBlank f = true := by
    by_cases hgs : gs = []
    · rw [hgs] at hb
      simpa [unfields] using hb
    · rw [unfields_append_singleton hgs, Text.endsBlank_append_of_ne_nil (List.cons_ne_nil _ _)] at hb
      rcases f with _ | ⟨c, cs⟩
      · exact absurd hb (by decide)
      · rwa [Text.endsBlank_cons_of_ne_nil (List.cons_ne_nil _ _)] at hb
  refine ⟨⟨?_, ?_, ?_, hslash⟩, hblank⟩ <;> rintro rfl <;> exact absurd hblank (by decide)

/-- What a field leaves on the stack ends in that field only: another field goes on the stack itself,
takes a field off it, or does nothing. -/
theorem eq_of_reverse_push {gs : List (List Char)} {f m : List Char} (hp : ∀ g ∈ gs, IsPlain g)
    (hpushed : (push true gs.reverse m).reverse = gs ++ [f]) : m = f := by
  rw [reverse_push_of_plain hp] at hpushed
  have hlen := congrArg List.length hpushed
  rw [List.length_append, List.length_singleton] at hlen
  split at hpushed
  · next habove =>
    rw [if_pos habove, List.length_dropLast] at hlen
    omega
  · next habove =>
    rw [if_neg habove] at hlen
    split at hpushed
    · next hnone =>
      rw [if_pos hnone] at hlen
      omega
    · exact List.singleton_inj.1 (List.append_cancel_left hpushed)

/-- **A blank at the end counts**: the fields of a text that ends in a blank are reduced to others
when the blank is trimmed. -/
theorem reduce_fields_trimEnd_iff (cs : List Char) :
    reduce true (fields (Text.trimEnd cs)) = reduce true (fields cs) ↔
      Text.endsBlank cs = false := by
  constructor
  · intro hsame
    obtain ⟨gs, f, hslash, htext, hfields, htrimmed⟩ := fields_trimEnd cs
    refine Bool.eq_false_iff.2 fun hb => ?_
    rw [htext] at hb
    obtain ⟨hplain, hblank⟩ := isPlain_of_endsBlank hslash hb
    have hfront : ∀ g ∈ reduce true gs, IsPlain g := fun g hg =>
      isPlain_of_mem_reduce (fun k hk => no_slash_of_mem_fields
        (hfields ▸ List.mem_append_left [f] hk)) hg
    have hwhole : reduce true (gs ++ [f]) = reduce true gs ++ [f] :=
      reduce_append_of_isPlain (fun g hg => List.mem_singleton.1 hg ▸ hplain) true gs
    rw [hfields, htrimmed, hwhole, reduce_append] at hsame
    have hlast : Text.trimEnd f = f := eq_of_reverse_push hfront hsame
    exact Nat.ne_of_lt (Text.length_trimEnd_lt hblank) (congrArg List.length hlast)
  · intro hb
    rw [Text.trimEnd_of_not_endsBlank hb]

/-! ## 2. The text of joined parts -/

variable {a b rel : List String}

/-- Two lists of fields, written one behind the other. -/
theorem unfields_append {fs gs : List (List Char)} (hf : fs ≠ []) (hg : gs ≠ []) :
    unfields (fs ++ gs) = unfields fs ++ '/' :: unfields gs := by
  induction fs with
  | nil => exact absurd rfl hf
  | cons f fs ih =>
    rw [List.cons_append]
    by_cases hfs : fs = []
    · subst hfs
      rw [List.nil_append, unfields_cons hg]
      simp [unfields]
    · rw [unfields_cons (by simp [hfs]), ih hfs, unfields_cons hfs, List.append_assoc,
        List.cons_append]

/-- The characters of the joined text. -/
def jointChars (parts : List String) : List Char := (jointText parts).toList

theorem jointChars_eq (parts : List String) :
    jointChars parts = unfields ((parts.map String.toList).filter (· ≠ [])) := by
  rw [jointChars, jointText, String.toList_ofList]

/-- Parts join to the same path exactly if the same fields are kept. -/
theorem join_eq_join_iff {parts others : List String} :
    join parts = join others ↔ keptFields (jointChars parts) = keptFields (jointChars others) := by
  have hnames : ∀ list : List String,
      (names (jointText list)).map String.toList = keptFields (jointChars list) :=
    fun list => map_toList_names (jointText list)
  rw [join_eq_clean, join_eq_clean, clean_eq_ofNames, clean_eq_ofNames (jointText others),
    ofNames_inj_of_plain (arePlain_names _) (arePlain_names _), ← hnames, ← hnames]
  exact (List.map_inj_right fun _ _ => String.toList_inj.1).symm

/-- Parts join to nothing exactly if all of them are empty. -/
theorem jointChars_eq_nil_iff (parts : List String) :
    jointChars parts = [] ↔ (parts.map String.toList).filter (· ≠ []) = [] := by
  rw [jointChars_eq]
  constructor
  · intro hnil
    cases hf : (parts.map String.toList).filter (· ≠ []) with
    | nil => rfl
    | cons f fs =>
      have hne : f ≠ [] := by
        have hm : f ∈ (parts.map String.toList).filter (· ≠ []) := hf ▸ List.mem_cons_self
        simpa using (List.mem_filter.1 hm).2
      rw [hf] at hnil
      by_cases hfs : fs = []
      · subst hfs
        exact absurd (by simpa [unfields] using hnil) hne
      · rw [unfields_cons hfs] at hnil
        exact absurd hnil (by simp)
  · intro hnil
    rw [hnil]
    rfl

/-- **The text of two lists of parts**: their texts, with a slash between them if both say
something. -/
theorem jointChars_append (a b : List String) : jointChars (a ++ b) =
    if jointChars a = [] then jointChars b
    else if jointChars b = [] then jointChars a
    else jointChars a ++ '/' :: jointChars b := by
  have hsplit : ((a ++ b).map String.toList).filter (· ≠ []) =
      (a.map String.toList).filter (· ≠ []) ++ (b.map String.toList).filter (· ≠ []) := by
    rw [List.map_append, List.filter_append]
  by_cases ha : jointChars a = []
  · rw [if_pos ha, jointChars_eq, hsplit, (jointChars_eq_nil_iff a).1 ha, List.nil_append,
      jointChars_eq]
  · rw [if_neg ha]
    by_cases hb : jointChars b = []
    · rw [if_pos hb, jointChars_eq, hsplit, (jointChars_eq_nil_iff b).1 hb, List.append_nil,
        jointChars_eq]
    · rw [if_neg hb, jointChars_eq, hsplit,
        unfields_append (fun h => ha ((jointChars_eq_nil_iff a).2 h))
          (fun h => hb ((jointChars_eq_nil_iff b).2 h)), jointChars_eq, jointChars_eq]

/-- The text of a joined path and what is joined to it. -/
theorem jointChars_join_cons (a b : List String) : jointChars (join a :: b) =
    if jointChars b = [] then (join a).toList else (join a).toList ++ '/' :: jointChars b := by
  have hone : jointChars [join a] = (join a).toList := by
    rw [join, joinChars, cleanChars_eq, jointChars_eq, List.map_singleton, String.toList_ofList,
      List.filter_cons_of_pos (by simp)]
    simp [unfields]
  have hne : jointChars [join a] ≠ [] := by
    rw [hone, join, joinChars, cleanChars_eq, String.toList_ofList]
    exact List.cons_ne_nil _ _
  rw [← List.singleton_append, jointChars_append, if_neg hne, hone]

/-! ## 3. What is kept -/

/-- The fields of the clean path of a text, before its end is trimmed again. -/
theorem reduce_fields_join (a : List String) :
    reduce true (fields (join a).toList) = keptFields (jointChars a) := by
  rw [join_eq_clean, clean, String.toList_ofList, cleanChars_eq, fields_cons_slash, reduce_nil_cons,
    reduce_fields_unfields fun f hf => isPlain_of_mem_keptFields hf]
  rfl

/-- What is kept of parts that are joined to a joined path. -/
theorem keptFields_join_cons (hb : jointChars b ≠ []) : keptFields (jointChars (join a :: b)) =
    reduce true (fields (Text.trim (jointChars a)) ++ fields (Text.trimEnd (jointChars b))) := by
  have hstart : Text.trimStart (join a).toList = (join a).toList := by
    rw [join, joinChars, cleanChars_eq, String.toList_ofList]
    exact Text.trimStart_cons_of_not_blank Text.isBlank_slash _
  rw [jointChars_join_cons, if_neg hb, keptFields, Text.trim_append_slash, hstart,
    fields_append_slash, reduce_append, reduce_fields_join, keptFields, ← reduce_append]

/-- What is kept of all parts, joined at once. -/
theorem keptFields_append (ha : jointChars a ≠ []) (hb : jointChars b ≠ []) :
    keptFields (jointChars (a ++ b)) = reduce true
      (fields (Text.trimStart (jointChars a)) ++ fields (Text.trimEnd (jointChars b))) := by
  rw [jointChars_append, if_neg ha, if_neg hb, keptFields, Text.trim_append_slash,
    fields_append_slash]

/-! ## 4. Joining in two steps -/

/-- **The parts can be joined in two steps**: no blank stands where the first step trims and
joining all at once does not, or the other way round. -/
structure Joinable (a b : List String) : Prop where
  /-- Behind nothing, the other parts do not start with a blank. -/
  start : jointChars a = [] → Text.trimStart (jointChars b) = jointChars b
  /-- In front of nothing, the joined path does not end in a blank. -/
  stop : jointChars b = [] → Text.endsBlank (join a).toList = false
  /-- In front of other parts, the first ones do not end in a blank, unless they are blank. -/
  seam : jointChars a ≠ [] → jointChars b ≠ [] →
    Text.endsBlank (Text.trimStart (jointChars a)) = false

instance (a b : List String) : Decidable (Joinable a b) :=
  decidable_of_iff
    ((jointChars a = [] → Text.trimStart (jointChars b) = jointChars b) ∧
      (jointChars b = [] → Text.endsBlank (join a).toList = false) ∧
      (jointChars a ≠ [] → jointChars b ≠ [] →
        Text.endsBlank (Text.trimStart (jointChars a)) = false))
    ⟨fun ⟨h1, h2, h3⟩ => ⟨h1, h2, h3⟩, fun h => ⟨h.1, h.2, h.3⟩⟩

/-- In front of nothing, joining again is cleaning again. -/
theorem join_cons_of_nil (hb : jointChars b = []) : join (join a :: b) = clean (join a) := by
  have htext : jointText (join a :: b) = join a := by
    rw [← String.toList_inj]
    exact (jointChars_join_cons a b).trans (if_pos hb)
  rw [join_eq_clean, htext]

theorem join_append_of_nil (hb : jointChars b = []) : join (a ++ b) = join a := by
  refine join_eq_join_iff.2 (congrArg keptFields ?_)
  rw [jointChars_append]
  by_cases ha : jointChars a = []
  · rw [if_pos ha, hb, ha]
  · rw [if_neg ha, if_pos hb]

/-- **Joining in two steps is joining at once**, where no blank stands at the seam. -/
theorem join_rejoined (h : Joinable a b) : join (join a :: b) = join (a ++ b) := by
  by_cases hb : jointChars b = []
  · rw [join_cons_of_nil hb, join_append_of_nil hb, join_eq_clean a]
    refine (clean_clean_iff _).2 ?_
    rw [← join_eq_clean]
    exact h.stop hb
  · refine join_eq_join_iff.2 ?_
    rw [keptFields_join_cons hb]
    by_cases ha : jointChars a = []
    · have hwhole : Text.trim (jointChars b) = Text.trimEnd (jointChars b) :=
        congrArg Text.trimEnd (h.start ha)
      rw [jointChars_append, if_pos ha, ha, keptFields, hwhole]
      exact reduce_nil_cons true _
    · rw [keptFields_append ha hb, Text.trim, Text.trimEnd_of_not_endsBlank (h.seam ha hb)]

/-- The text of a list of names. -/
theorem jointChars_of_areNames (hr : AreNames rel) :
    jointChars rel = unfields (rel.map String.toList) := by
  rw [jointChars_eq, List.filter_eq_self.2]
  intro f hf
  simpa using (isPlain_of_mem_map (arePlain_of_areNames hr) f hf).ne_nil

/-- A list of names does not end in a blank. -/
theorem endsBlank_jointChars (hr : AreNames rel) : Text.endsBlank (jointChars rel) = false := by
  by_cases hnil : jointChars rel = []
  · rw [hnil]
    rfl
  · rw [jointChars_of_areNames hr] at hnil ⊢
    rw [← Text.endsBlank_cons_of_ne_nil hnil '/']
    refine endsBlank_unfields fun f hf => ?_
    obtain ⟨n, hn, rfl⟩ := List.mem_map.1 (List.mem_of_getLast? hf)
    exact hr n hn

/-- Names behind nothing may be joined in two steps only if the first does not start with a
blank. -/
theorem trimStart_of_rejoined (hr : AreNames rel)
    (hsame : reduce true (fields (Text.trim (jointChars rel))) = rel.map String.toList) :
    Text.trimStart (jointChars rel) = jointChars rel := by
  have hle := length_unfields_le (reduce_sublist true (fields (Text.trim (jointChars rel))))
  rw [hsame, ← jointChars_of_areNames hr, unfields_fields, Text.trim] at hle
  have hend : (Text.trimEnd (Text.trimStart (jointChars rel))).length ≤
      (Text.trimStart (jointChars rel)).length := by
    cases hb : Text.endsBlank (Text.trimStart (jointChars rel)) with
    | false => exact Nat.le_of_eq (congrArg _ (Text.trimEnd_of_not_endsBlank hb))
    | true => exact Nat.le_of_lt (Text.length_trimEnd_lt hb)
  exact (List.dropWhile_suffix _).eq_of_length_le (Nat.le_trans hle hend)

/-- **Names are joined to a joined path as they are joined at once** exactly if no blank stands at
the seam. -/
theorem join_rejoined_iff (hr : AreNames rel) :
    join (join a :: rel) = join (a ++ rel) ↔ Joinable a rel := by
  refine ⟨fun hsame => ?_, join_rejoined⟩
  have hplain := isPlain_of_mem_map (arePlain_of_areNames hr)
  have hread : reduce true (fields (jointChars rel)) = rel.map String.toList := by
    rw [jointChars_of_areNames hr, reduce_fields_unfields hplain]
  by_cases hb : jointChars rel = []
  · refine ⟨fun _ => by rw [hb]; rfl, fun _ => ?_, fun _ hne => absurd hb hne⟩
    rw [join_cons_of_nil hb, join_append_of_nil hb, join_eq_clean a] at hsame
    rw [join_eq_clean a]
    exact (clean_clean_iff _).1 hsame
  · have hrel : fields (jointChars rel) = rel.map String.toList := by
      have hne : rel.map String.toList ≠ [] := fun hnil =>
        hb (by rw [jointChars_of_areNames hr, hnil]; rfl)
      rw [jointChars_of_areNames hr, fields_unfields hne fun f hf => (hplain f hf).no_slash]
    have hkept := join_eq_join_iff.1 hsame
    rw [keptFields_join_cons hb, Text.trimEnd_of_not_endsBlank (endsBlank_jointChars hr), hrel,
      reduce_append_of_isPlain hplain] at hkept
    refine ⟨fun ha => ?_, fun hnil => absurd hnil hb, fun ha _ => ?_⟩
    · rw [jointChars_append, if_pos ha, ha] at hkept
      exact trimStart_of_rejoined hr hkept.symm
    · rw [keptFields_append ha hb, Text.trimEnd_of_not_endsBlank (endsBlank_jointChars hr), hrel,
        reduce_append_of_isPlain hplain] at hkept
      exact (reduce_fields_trimEnd_iff _).1 (List.append_cancel_right hkept)

/-! ## 5. Once more -/

/-- **Cleaning and joining once more** changes nothing exactly where no blank is exposed: a clean
path is clean again unless it ends in a blank; parts are joined in two steps as they are joined at
once when no blank stands at the seam, and names behind the seam are joined so only then. -/
theorem clean_and_join_again (path : String) (a b : List String) :
    (clean (clean path) = clean path ↔ Text.endsBlank (clean path).toList = false) ∧
    (Joinable a b → join (join a :: b) = join (a ++ b)) ∧
    (AreNames b → (join (join a :: b) = join (a ++ b) ↔ Joinable a b)) :=
  ⟨clean_clean_iff path, join_rejoined, join_rejoined_iff⟩

/-- The path of a `.` behind a blank is not clean, and a blank at the seam is trimmed in the first
step. -/
theorem clean_and_join_again_blank :
    clean (clean "/a /.") ≠ clean "/a /." ∧ join [join ["/x "], "y"] ≠ join ["/x ", "y"] ∧
    join [join ["/x"], "y", " z/../w"] = join ["/x", "y", " z/../w"] := by
  have hblank := clean_and_join_again "/a /." ["/x "] ["y"]
  have htidy := clean_and_join_again "" ["/x"] ["y", " z/../w"]
  refine ⟨fun h => absurd (hblank.1.1 h) (by decide), fun h => absurd ((hblank.2.2 (by decide)).1 h) ?_,
    htidy.2.1 (by decide)⟩
  decide

end Path

end Arboretum
