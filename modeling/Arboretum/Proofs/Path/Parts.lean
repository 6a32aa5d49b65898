import Arboretum.Proofs.Path.Clean

/-!
# Taking paths apart and putting them together

What `split`, `parent`, `name` and `join` do, said by names: the directory of a path is the path of
all its names but the last, and joining a name to a path of names adds it at the end.  The root
is its own directory.
-/

namespace Arboretum.Path

/-! ## 1. The last slash -/

theorem lastField_append {f : List Char} (h : '/' ∉ f) (cs : List Char) :
    lastField (cs ++ '/' :: f) = f := by
  have hf : ∀ c ∈ f.reverse, (c != '/') = true := by
    intro c hc
    have : c ≠ '/' := fun e => h (e ▸ List.mem_reverse.1 hc)
    simpa using this
  rw [lastField, List.reverse_append, List.reverse_cons, List.append_assoc,
    List.takeWhile_append_of_pos hf]
  simp

/-- What stands in front of the last slash, with the slash. -/
theorem front_append {f : List Char} (h : '/' ∉ f) (cs : List Char) :
    ((cs ++ '/' :: f).reverse.dropWhile (· != '/')).reverse = cs ++ ['/'] := by
  have hf : ∀ c ∈ f.reverse, (c != '/') = true := by
    intro c hc
    have : c ≠ '/' := fun e => h (e ▸ List.mem_reverse.1 hc)
    simpa using this
  rw [List.reverse_append, List.reverse_cons, List.append_assoc, List.dropWhile_append_of_pos hf]
  simp

/-- A text that does not end in a slash keeps its end when slashes behind it are trimmed. -/
theorem trimSlashes_append_slash {cs : List Char} (h : cs.getLast? ≠ some '/') :
    trimSlashes (cs ++ ['/']) = cs := by
  rw [trimSlashes, List.reverse_append, List.reverse_singleton, List.singleton_append,
    List.dropWhile_cons_of_pos (by simp)]
  cases hr : cs.reverse with
  | nil => rw [List.reverse_eq_nil_iff.1 hr]; rfl
  | cons c rest =>
    have hc : c ≠ '/' := by
      intro he
      rw [← List.head?_reverse, hr, he] at h
      exact h rfl
    rw [List.dropWhile_cons_of_neg (by simpa using hc), ← hr, List.reverse_reverse]

/-- A path of plain fields does not end in a slash. -/
theorem getLast?_unfields_ne_slash {fs : List (List Char)} (h : ∀ f ∈ fs, IsPlain f) :
    (unfields fs).getLast? ≠ some '/' := by
  have plain : ∀ {f : List Char}, IsPlain f → f.getLast? ≠ some '/' := fun hf he =>
    hf.no_slash (List.mem_of_getLast? he)
  rcases List.eq_nil_or_concat fs with rfl | ⟨gs, f, rfl⟩
  · simp [unfields]
  · have hf : IsPlain f := h f (by simp)
    cases gs with
    | nil => simpa [unfields] using plain hf
    | cons g gs =>
      rw [List.concat_eq_append, unfields_append_singleton (List.cons_ne_nil g gs),
        List.append_cons, List.getLast?_append]
      cases hl : f.getLast? with
      | none => exact absurd (List.getLast?_eq_none_iff.1 hl) hf.ne_nil
      | some c => simpa [hl] using plain hf

/-! ## 2. Splitting -/

/-- A clean path of plain fields, cut before its last field. -/
theorem slash_unfields_append {fs : List (List Char)} (f : List Char) :
    '/' :: unfields (fs ++ [f]) = (if fs = [] then [] else '/' :: unfields fs) ++ '/' :: f := by
  split
  · next h => subst h; simp [unfields]
  · next h => rw [unfields_append_singleton h]; rfl

theorem beforeLast_clean {fs : List (List Char)} {f : List Char} (hs : ∀ g ∈ fs, IsPlain g)
    (hf : IsPlain f) : beforeLast ('/' :: unfields (fs ++ [f])) = '/' :: unfields fs := by
  rw [slash_unfields_append, beforeLast, front_append hf.no_slash]
  by_cases h : fs = []
  · subst h
    rfl
  · rw [if_neg h, trimSlashes_append_slash]
    intro he
    cases hu : unfields fs with
    | nil =>
      have hne := (hs _ (List.head_mem h)).ne_nil
      have hi := filter_fields_unfields hs
      rw [hu] at hi
      exact h hi.symm
    | cons c cs =>
      have hl := getLast?_unfields_ne_slash hs
      rw [hu] at he hl
      exact hl (by simpa using he)

/-- The root is its own directory, and its name is empty. -/
theorem split_of_names_nil {path : String} (h : names path = []) : split path = (root, "") := by
  have hk : keptFields path.toList = [] := by rw [← map_toList_names, h]; rfl
  have hc : cleanChars path.toList = ['/'] := by rw [cleanChars_eq, hk]; rfl
  simp [split, hc]

/-- **The directory of a path is the path of all its names but the last.** -/
theorem split_of_names {path : String} {ns : List String} {n : String} (h : names path = ns ++ [n]) :
    split path = (ofNames ns, n) := by
  have hk : keptFields path.toList = ns.map String.toList ++ [n.toList] := by
    rw [← map_toList_names, h, List.map_append]
    rfl
  have hp : ∀ f ∈ keptFields path.toList, IsPlain f := fun f hf => isPlain_of_mem_keptFields hf
  rw [hk] at hp
  have hn : IsPlain n.toList := hp _ (by simp)
  have hs : ∀ f ∈ ns.map String.toList, IsPlain f := fun f hf => hp f (List.mem_append_left _ hf)
  have hc : cleanChars path.toList = '/' :: unfields (ns.map String.toList ++ [n.toList]) := by
    rw [cleanChars_eq, hk]
  have hb := beforeLast_clean hs hn
  have hl : lastField ('/' :: unfields (ns.map String.toList ++ [n.toList])) = n.toList := by
    rw [slash_unfields_append, lastField_append hn.no_slash]
  have hne : '/' :: unfields (ns.map String.toList ++ [n.toList]) ≠ ['/'] := by
    intro he
    rw [he] at hl
    exact hn.ne_nil hl.symm
  simp only [split, hc, if_neg hne, hb, hl, String.ofList_toList]
  rfl

theorem parent_of_names {path : String} {ns : List String} {n : String}
    (h : names path = ns ++ [n]) : parent path = ofNames ns := by
  rw [parent, split_of_names h]

theorem parent_of_names_nil {path : String} (h : names path = []) : parent path = root := by
  rw [parent, split_of_names_nil h]

/-- The directory of a tidy path has a tidy path. -/
theorem tidy_parent {path : String} (h : Tidy path) : Tidy (parent path) := by
  have hn := areNames_names h
  rcases List.eq_nil_or_concat (names path) with he | ⟨ns, n, he⟩
  · rw [parent_of_names_nil he]
    decide
  · rw [List.concat_eq_append] at he
    rw [he] at hn
    rw [parent_of_names he]
    exact tidy_ofNames (areNames_append.1 hn).1

theorem name_of_names {path : String} {ns : List String} {n : String}
    (h : names path = ns ++ [n]) : name path = n := by
  rw [name, split_of_names h]

theorem name_of_names_nil {path : String} (h : names path = []) : name path = "" := by
  rw [name, split_of_names_nil h]

/-! ## 3. Joining -/

/-- **Joining names to a path of plain names adds them at the end.** -/
theorem join_names {ns rel : List String} (hns : ArePlain ns) (hr : AreNames rel) (hne : rel ≠ []) :
    join (ofNames ns :: rel) = ofNames (ns ++ rel) := by
  have hp := isPlain_of_mem_map hns
  have hq := isPlain_of_mem_map (arePlain_of_areNames hr)
  have hne' : rel.map String.toList ≠ [] := by simpa using hne
  have hall : ∀ f ∈ (ofNames ns :: rel).map String.toList, f ≠ [] := by
    intro f hf
    rcases List.mem_cons.1 hf with rfl | hf
    · rw [toList_ofNames]
      exact List.cons_ne_nil _ _
    · exact (hq f hf).ne_nil
  have hf : ((ofNames ns :: rel).map String.toList).filter (· ≠ []) =
      (ofNames ns :: rel).map String.toList :=
    List.filter_eq_self.2 fun f hf => decide_eq_true (hall f hf)
  have ht : unfields ((ofNames ns :: rel).map String.toList) =
      '/' :: (unfields (ns.map String.toList) ++ '/' :: unfields (rel.map String.toList)) := by
    rw [List.map_cons, unfields_cons hne', toList_ofNames]
    rfl
  have hlast : ∀ f ∈ (rel.map String.toList).getLast?, IsPlain f ∧ Text.endsBlank f = false := by
    intro f hf
    rw [List.getLast?_map] at hf
    obtain ⟨m, hm, rfl⟩ := Option.map_eq_some_iff.1 hf
    exact hr m (List.mem_of_getLast? hm)
  have hb : Text.endsBlank
      ('/' :: (unfields (ns.map String.toList) ++ '/' :: unfields (rel.map String.toList))) = false := by
    rw [← List.cons_append, Text.endsBlank_append_of_ne_nil (List.cons_ne_nil _ _)]
    exact endsBlank_unfields hlast
  have hk : keptFields
      ('/' :: (unfields (ns.map String.toList) ++ '/' :: unfields (rel.map String.toList))) =
      (ns ++ rel).map String.toList := by
    rw [keptFields, Text.trim_slash_cons hb, fields_cons_slash, reduce_nil_cons,
      fields_append_slash, fields_unfields hne' fun f hf => (hq f hf).no_slash,
      reduce_append_of_isPlain hq, reduce_fields_unfields hp, List.map_append]
  rw [join, joinChars, hf, ht, cleanChars_eq, hk, ofNames]

/-- **Joining two dots to a path of plain names** takes the last name away; the root stays. -/
theorem join_above {ns : List String} (hns : ArePlain ns) :
    join [ofNames ns, ".."] = ofNames ns.dropLast := by
  have hp := isPlain_of_mem_map hns
  have ht : unfields (([ofNames ns, ".."].map String.toList).filter (· ≠ [])) =
      '/' :: (unfields (ns.map String.toList) ++ '/' :: above) := by
    rw [List.map_cons, toList_ofNames]
    rfl
  have hk : keptFields ('/' :: (unfields (ns.map String.toList) ++ '/' :: above)) =
      ns.dropLast.map String.toList := by
    have hdots : fields (Text.trimEnd above) = [above] := by decide
    have hstack : ∀ f ∈ (ns.map String.toList).reverse, IsPlain f :=
      fun f hf => hp f (List.mem_reverse.1 hf)
    rw [keptFields_below hp, hdots, List.foldl_cons, List.foldl_nil, push_above hstack,
      List.tail_reverse, List.reverse_reverse, List.map_dropLast]
  rw [join, joinChars, ht, cleanChars_eq, hk, ofNames]

/-- The text that several parts make before it is cleaned. -/
def jointText (parts : List String) : String :=
  String.ofList (unfields ((parts.map String.toList).filter (· ≠ [])))

theorem join_eq_clean (parts : List String) : join parts = clean (jointText parts) := by
  rw [join, clean, joinChars, jointText, String.toList_ofList]

/-- Joining a single part is cleaning it. -/
theorem join_singleton (path : String) : join [path] = clean path := by
  have htext : jointText [path] = path := by
    unfold jointText
    by_cases h : path.toList = []
    · rw [String.toList_eq_nil_iff.1 h]
      rfl
    · rw [List.map_singleton, List.filter_cons_of_pos (by simpa using h), List.filter_nil]
      show String.ofList (unfields [path.toList]) = path
      simp [unfields]
  rw [join_eq_clean, htext]

/-- Only characters of the parts and slashes make up the joined text. -/
theorem mem_jointText {parts : List String} {c : Char} (h : c ∈ (jointText parts).toList) :
    c = '/' ∨ ∃ p ∈ parts, c ∈ p.toList := by
  rw [jointText, String.toList_ofList] at h
  suffices H : ∀ fs : List (List Char), c ∈ unfields fs → c = '/' ∨ ∃ f ∈ fs, c ∈ f by
    rcases H _ h with h | ⟨f, hf, hc⟩
    · exact .inl h
    · obtain ⟨p, hp, rfl⟩ := List.mem_map.1 (List.mem_filter.1 hf).1
      exact .inr ⟨p, hp, hc⟩
  intro fs
  induction fs with
  | nil => simp [unfields]
  | cons f gs ih =>
    cases gs with
    | nil => exact fun hc => .inr ⟨f, by simp, by simpa [unfields] using hc⟩
    | cons g gs =>
      intro hc
      rw [unfields_cons (List.cons_ne_nil g gs)] at hc
      rcases List.mem_append.1 hc with hc | hc
      · exact .inr ⟨f, List.mem_cons_self, hc⟩
      · rcases List.mem_cons.1 hc with rfl | hc
        · exact .inl rfl
        · rcases ih hc with h | ⟨k, hk, hc⟩
          · exact .inl h
          · exact .inr ⟨k, List.mem_cons_of_mem _ hk, hc⟩

/-- A clean path that is tidy is a path of names. -/
theorem areNames_of_tidy_clean {path : String} (h : Tidy (clean path)) : AreNames (names path) := by
  intro n hn
  refine ⟨isPlain_of_mem_names hn, h _ ?_⟩
  have hp : ∀ f ∈ keptFields path.toList, IsPlain f := fun f hf => isPlain_of_mem_keptFields hf
  have hm : n.toList ∈ keptFields path.toList := map_toList_names path ▸ List.mem_map_of_mem hn
  rw [clean, String.toList_ofList, cleanChars_eq, fields_cons_slash]
  refine List.mem_cons_of_mem _ ?_
  rwa [fields_unfields (List.ne_nil_of_mem hm) fun f hf => (hp f hf).no_slash]

/-- A path has at least as many characters as names. -/
theorem length_le_length_ofNames {ns : List String} (h : AreNames ns) :
    ns.length ≤ (ofNames ns).length := by
  rw [← String.length_toList, toList_ofNames]
  induction ns with
  | nil => exact Nat.zero_le _
  | cons n ns ih =>
    have hn : n.toList ≠ [] := (h n List.mem_cons_self).1.ne_nil
    have hl : 0 < n.toList.length := List.length_pos_iff.2 hn
    have ih := ih fun m hm => h m (List.mem_cons_of_mem _ hm)
    cases ns with
    | nil => simp [unfields]
    | cons m ns =>
      rw [List.map_cons, unfields_cons (by simp)]
      simp only [List.length_cons, List.length_append] at ih ⊢
      omega

end Arboretum.Path
