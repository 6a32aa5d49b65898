import Arboretum.Path.Virtual
import Arboretum.Proofs.Path.Fields

/-!
# Clean paths

The clean path of a text is a slash and the reduced fields of the trimmed text, with slashes
between them (`cleanChars_eq`).  So a clean path and the list of names on the way to it say the
same: `ofNames` writes the path of a list of names, `clean_eq_ofNames` reads every clean path so,
and `names_ofNames` reads the names back.

Reading back needs the last name not to end in a blank, since cleaning trims.  A path is **tidy**
when none of its fields ends in a blank, and a **name** is a plain field that does not.  On tidy
paths and lists of names, cleaning a second time changes nothing, and the directory, the last name
and the joined path are what the list of names says.
-/

namespace Arboretum

/-! ## 1. Trimming -/

/-- The text ends in a blank. -/
def Text.endsBlank (cs : List Char) : Bool := cs.getLast?.any Text.isBlank

namespace Text

theorem endsBlank_append_of_ne_nil {bs : List Char} (h : bs ≠ []) (as : List Char) :
    endsBlank (as ++ bs) = endsBlank bs := by
  obtain ⟨c, hc⟩ := Option.isSome_iff_exists.1 (List.getLast?_isSome.2 h)
  rw [endsBlank, endsBlank, List.getLast?_append, hc, Option.some_or]

theorem endsBlank_cons_of_ne_nil {cs : List Char} (h : cs ≠ []) (c : Char) :
    endsBlank (c :: cs) = endsBlank cs := endsBlank_append_of_ne_nil h [c]

/-- Without a blank at the end only the start is trimmed. -/
theorem trimEnd_of_not_endsBlank {cs : List Char} (h : endsBlank cs = false) : trimEnd cs = cs := by
  unfold trimEnd
  unfold endsBlank at h
  cases hr : cs.reverse with
  | nil => rw [List.reverse_eq_nil_iff.1 hr]; rfl
  | cons c rest =>
    have hl : cs.getLast? = some c := by rw [← List.head?_reverse, hr]; rfl
    rw [hl] at h
    rw [List.dropWhile_cons_of_neg (by simpa using h), ← hr, List.reverse_reverse]

/-- A text whose first character is not blank keeps its start. -/
theorem trimStart_cons_of_not_blank {c : Char} (h : isBlank c = false) (cs : List Char) :
    trimStart (c :: cs) = c :: cs := List.dropWhile_cons_of_neg (by simp [h])

/-- A path from the root that does not end in a blank is not trimmed. -/
theorem trim_slash_cons {cs : List Char} (h : endsBlank ('/' :: cs) = false) :
    trim ('/' :: cs) = '/' :: cs := by
  rw [trim, trimStart_cons_of_not_blank isBlank_slash, trimEnd_of_not_endsBlank h]

/-- A path from the root is trimmed at its end only, and keeps its first slash. -/
theorem trim_slash_cons_eq (cs : List Char) : trim ('/' :: cs) = '/' :: trimEnd cs := by
  have hslash : ['/'].dropWhile isBlank = ['/'] := trimStart_cons_of_not_blank isBlank_slash []
  rw [trim, trimStart_cons_of_not_blank isBlank_slash]
  unfold trimEnd
  rw [List.reverse_cons, List.dropWhile_append]
  split
  · next he =>
    rw [List.isEmpty_iff.1 he, hslash]
    rfl
  · rw [List.reverse_append]
    rfl

/-- Behind a slash a text is trimmed alone. -/
theorem trimEnd_append_slash (as bs : List Char) :
    trimEnd (as ++ '/' :: bs) = as ++ '/' :: trimEnd bs := by
  have hslash : ∀ cs : List Char, ('/' :: cs).dropWhile isBlank = '/' :: cs :=
    fun cs => List.dropWhile_cons_of_neg (by simp [isBlank_slash])
  unfold trimEnd
  rw [List.reverse_append, List.reverse_cons, List.append_assoc, List.singleton_append,
    List.dropWhile_append]
  split
  · next hempty =>
    rw [hslash, List.isEmpty_iff.1 hempty]
    simp
  · simp

/-- A text that ends in a blank gets shorter. -/
theorem length_trimEnd_lt {cs : List Char} (h : endsBlank cs = true) :
    (trimEnd cs).length < cs.length := by
  unfold endsBlank at h
  obtain ⟨c, hc, hb⟩ := (Option.any_eq_true _ _).1 h
  rw [← List.head?_reverse] at hc
  cases hr : cs.reverse with
  | nil => rw [hr] at hc; cases hc
  | cons d rest =>
    rw [hr] at hc
    obtain rfl : d = c := Option.some.inj hc
    have hlen : cs.length = rest.length + 1 := by rw [← List.length_reverse, hr, List.length_cons]
    have hle := (List.dropWhile_sublist (l := rest) isBlank).length_le
    unfold trimEnd
    rw [hr, List.dropWhile_cons_of_pos hb, List.length_reverse, hlen]
    omega

end Text

namespace Path

/-! ## 2. The shape of a clean path -/

/-- The fields that a text keeps when it is cleaned. -/
def keptFields (cs : List Char) : List (List Char) := reduce true (fields (Text.trim cs))

theorem isPlain_of_mem_keptFields {cs f : List Char} (h : f ∈ keptFields cs) : IsPlain f :=
  isPlain_of_mem_reduce (fun _ hg => no_slash_of_mem_fields hg) h

/-- Putting a slash in front keeps the fields that count. -/
theorem reduce_fields_rooted (cs : List Char) :
    reduce true (fields (rooted cs)) = reduce true (fields cs) := by
  unfold rooted
  split
  · rfl
  · rw [fields_cons_slash, reduce_nil_cons]

theorem exists_rooted (cs : List Char) : ∃ rest, rooted cs = '/' :: rest := by
  unfold rooted
  split
  · exact ⟨_, rfl⟩
  · exact ⟨cs, rfl⟩

theorem leadingSlashes_rooted (cs : List Char) :
    leadingSlashes (rooted cs) = 1 ∨ leadingSlashes (rooted cs) = 2 := by
  obtain ⟨rest, hr⟩ := exists_rooted cs
  rw [hr]
  unfold leadingSlashes
  split
  · exact .inl rfl
  · exact .inr rfl
  · exact .inl rfl
  · next h => exact absurd rfl (h rest)

/-- One slash in front of a path of plain fields is kept. -/
theorem singleSlash_one {fs : List (List Char)} (h : ∀ f ∈ fs, IsPlain f) :
    singleSlash ('/' :: unfields fs) = '/' :: unfields fs := by
  have hh := head?_unfields_ne_slash h
  cases hu : unfields fs with
  | nil => rfl
  | cons c cs =>
    rw [hu] at hh
    unfold singleSlash
    split
    · next heq =>
      simp only [List.cons.injEq, true_and] at heq
      exact absurd (by rw [heq.1]; rfl) hh
    · rfl

/-- Two slashes in front of a path of plain fields become one. -/
theorem singleSlash_two {fs : List (List Char)} (h : ∀ f ∈ fs, IsPlain f) :
    singleSlash ('/' :: '/' :: unfields fs) = '/' :: unfields fs := by
  have hh := head?_unfields_ne_slash h
  cases hu : unfields fs with
  | nil => rfl
  | cons c cs =>
    rw [hu] at hh
    have hc : c ≠ '/' := by simpa using hh
    simp [singleSlash, hc]

/-- **A clean path is a slash and the kept fields.** -/
theorem cleanChars_eq (cs : List Char) : cleanChars cs = '/' :: unfields (keptFields cs) := by
  have hp : ∀ f ∈ keptFields cs, IsPlain f := fun f hf => isPlain_of_mem_keptFields hf
  have hk : reduce true (fields (rooted (Text.trim cs))) = keptFields cs := reduce_fields_rooted _
  unfold cleanChars normal
  rcases leadingSlashes_rooted (Text.trim cs) with h | h
  · rw [h]
    simpa [hk] using singleSlash_one hp
  · rw [h]
    simpa [hk, List.replicate] using singleSlash_two hp

/-! ## 3. Names -/

/-- A clean path starts with a slash. -/
theorem head?_clean (path : String) : (clean path).toList.head? = some '/' := by
  rw [clean, String.toList_ofList, cleanChars_eq]
  rfl

/-- **A name** as tidy trees have them: a plain field that does not end in a blank. -/
def IsName (name : String) : Prop := IsPlain name.toList ∧ Text.endsBlank name.toList = false

instance (name : String) : Decidable (IsName name) := inferInstanceAs (Decidable (_ ∧ _))

/-- All of them are names. -/
def AreNames (ns : List String) : Prop := ∀ n ∈ ns, IsName n

instance (ns : List String) : Decidable (AreNames ns) := inferInstanceAs (Decidable (∀ _ ∈ _, _))

theorem areNames_nil : AreNames [] := fun _ h => absurd h List.not_mem_nil

theorem areNames_append {ns ms : List String} : AreNames (ns ++ ms) ↔ AreNames ns ∧ AreNames ms :=
  List.forall_mem_append

theorem areNames_singleton {n : String} : AreNames [n] ↔ IsName n := by simp [AreNames]

theorem areNames_append_singleton {ns : List String} {n : String} :
    AreNames (ns ++ [n]) ↔ AreNames ns ∧ IsName n := by
  rw [areNames_append, areNames_singleton]

/-- All texts of a list are plain: names that may end in a blank. -/
def ArePlain (ns : List String) : Prop := ∀ n ∈ ns, IsPlain n.toList

theorem arePlain_of_areNames {ns : List String} (h : AreNames ns) : ArePlain ns :=
  fun n hn => (h n hn).1

theorem arePlain_nil : ArePlain [] := fun _ h => absurd h List.not_mem_nil

/-- The texts of plain names are plain fields. -/
theorem isPlain_of_mem_map {ns : List String} (h : ArePlain ns) :
    ∀ f ∈ ns.map String.toList, IsPlain f := List.forall_mem_map.2 h

/-- Names are read back from their characters. -/
theorem map_ofList_toList (ns : List String) : (ns.map String.toList).map String.ofList = ns := by
  rw [List.map_map, String.ofList_comp_toList, List.map_id]

/-- **The path of a list of names.** -/
def ofNames (ns : List String) : String := String.ofList ('/' :: unfields (ns.map String.toList))

theorem ofNames_nil : ofNames [] = root := rfl

theorem toList_ofNames (ns : List String) :
    (ofNames ns).toList = '/' :: unfields (ns.map String.toList) := String.toList_ofList

/-- The names on the way to a clean path are its kept fields. -/
theorem names_eq (path : String) : names path = (keptFields path.toList).map String.ofList := by
  have hp : ∀ f ∈ keptFields path.toList, IsPlain f := fun f hf => isPlain_of_mem_keptFields hf
  rw [names, cleanChars_eq, fields_cons_slash, List.filter_cons_of_neg (by simp),
    filter_fields_unfields hp]

theorem map_toList_names (path : String) :
    (names path).map String.toList = keptFields path.toList := by
  rw [names_eq, List.map_map]
  simp [Function.comp_def]

/-- **A clean path is the path of its names.** -/
theorem clean_eq_ofNames (path : String) : clean path = ofNames (names path) := by
  rw [clean, cleanChars_eq, ofNames, map_toList_names]

theorem isPlain_of_mem_names {path n : String} (h : n ∈ names path) : IsPlain n.toList :=
  isPlain_of_mem_keptFields (map_toList_names path ▸ List.mem_map_of_mem h)

theorem arePlain_names (path : String) : ArePlain (names path) := fun _ => isPlain_of_mem_names

/-! ## 4. Reading names back -/

/-- A path of plain fields ends in a blank only if its last field does. -/
theorem endsBlank_unfields {fs : List (List Char)}
    (h : ∀ f ∈ fs.getLast?, IsPlain f ∧ Text.endsBlank f = false) :
    Text.endsBlank ('/' :: unfields fs) = false := by
  rcases List.eq_nil_or_concat fs with rfl | ⟨gs, f, rfl⟩
  · rfl
  · obtain ⟨hf, hb⟩ := h f (by simp)
    cases gs with
    | nil =>
      rw [show unfields ([].concat f) = f by simp [unfields], Text.endsBlank_cons_of_ne_nil hf.ne_nil]
      exact hb
    | cons g gs =>
      rw [List.concat_eq_append, unfields_append_singleton (List.cons_ne_nil g gs), ← List.cons_append,
        Text.endsBlank_append_of_ne_nil (List.cons_ne_nil _ _),
        Text.endsBlank_cons_of_ne_nil hf.ne_nil]
      exact hb

/-- The fields of a path of plain fields, as they are kept. -/
theorem keptFields_unfields {fs : List (List Char)} (hp : ∀ f ∈ fs, IsPlain f)
    (h : ∀ f ∈ fs.getLast?, Text.endsBlank f = false) :
    keptFields ('/' :: unfields fs) = fs := by
  have hb : Text.endsBlank ('/' :: unfields fs) = false :=
    endsBlank_unfields fun f hf => ⟨hp f (List.mem_of_getLast? hf), h f hf⟩
  rw [keptFields, Text.trim_slash_cons hb, fields_cons_slash, reduce_nil_cons,
    reduce_fields_unfields hp]

/-- What is kept of a path of plain fields with more behind it: the stack goes on from there. -/
theorem keptFields_below {fs : List (List Char)} (hp : ∀ f ∈ fs, IsPlain f) (cs : List Char) :
    keptFields ('/' :: (unfields fs ++ '/' :: cs)) =
      ((fields (Text.trimEnd cs)).foldl (push true) fs.reverse).reverse := by
  rw [keptFields, Text.trim_slash_cons_eq, Text.trimEnd_append_slash, fields_cons_slash,
    reduce_nil_cons, fields_append_slash, reduce_append, reduce_fields_unfields hp]

/-- Plain names of which the last is a name are read back from their path. -/
theorem names_ofNames_of_last {ns : List String} (hp : ArePlain ns)
    (h : ∀ n ∈ ns.getLast?, IsName n) : names (ofNames ns) = ns := by
  have hlast : ∀ f ∈ (ns.map String.toList).getLast?, Text.endsBlank f = false := by
    intro f hf
    rw [List.getLast?_map] at hf
    obtain ⟨n, hn, rfl⟩ := Option.map_eq_some_iff.1 hf
    exact (h n hn).2
  rw [names_eq, toList_ofNames, keptFields_unfields (isPlain_of_mem_map hp) hlast,
    map_ofList_toList]

/-- Names behind plain names are read back with them. -/
theorem names_ofNames_append {ns rel : List String} (hp : ArePlain ns) (hr : AreNames rel)
    (hne : rel ≠ []) : names (ofNames (ns ++ rel)) = ns ++ rel := by
  refine names_ofNames_of_last (fun m hm => ?_) fun m hm => ?_
  · rcases List.mem_append.1 hm with hm | hm
    · exact hp m hm
    · exact (hr m hm).1
  · rw [List.getLast?_append, Option.or_of_isSome (List.getLast?_isSome.2 hne)] at hm
    exact hr m (List.mem_of_getLast? hm)

/-- **Names are read back from their path.** -/
theorem names_ofNames {ns : List String} (h : AreNames ns) : names (ofNames ns) = ns :=
  names_ofNames_of_last (arePlain_of_areNames h) fun n hn => h n (List.mem_of_getLast? hn)

/-- **A place below plain names**, if it consists of names, is below the place of the plain names. -/
theorem names_ofNames_below {ns rel : List String} (hp : ArePlain ns) (hr : AreNames rel)
    (hn : AreNames (names (ofNames (ns ++ rel)))) :
    names (ofNames (ns ++ rel)) = names (ofNames ns) ++ rel := by
  by_cases hne : rel = []
  · rw [hne, List.append_nil, List.append_nil]
  · rw [names_ofNames_append hp hr hne] at hn ⊢
    rw [names_ofNames (areNames_append.1 hn).1]

/-- The path of a list of names is clean. -/
theorem clean_ofNames {ns : List String} (h : AreNames ns) : clean (ofNames ns) = ofNames ns := by
  rw [clean_eq_ofNames, names_ofNames h]

/-- Different lists of names have different paths. -/
theorem ofNames_inj {ns ms : List String} (hn : AreNames ns) (hm : AreNames ms) :
    ofNames ns = ofNames ms ↔ ns = ms :=
  ⟨fun h => by rw [← names_ofNames hn, h, names_ofNames hm], fun h => h ▸ rfl⟩

/-- So have different lists of plain names. -/
theorem ofNames_inj_of_plain {ns ms : List String} (hn : ArePlain ns) (hm : ArePlain ms) :
    ofNames ns = ofNames ms ↔ ns = ms := by
  have hread : ∀ {ns : List String}, ArePlain ns →
      ((fields (unfields (ns.map String.toList))).filter (· ≠ [])).map String.ofList = ns := by
    intro ns hn
    rw [filter_fields_unfields (isPlain_of_mem_map hn), map_ofList_toList]
  refine ⟨fun h => ?_, fun h => h ▸ rfl⟩
  have htail := (List.cons.inj ((toList_ofNames ns).symm.trans
    ((congrArg String.toList h).trans (toList_ofNames ms)))).2
  rw [← hread hn, ← hread hm, htail]

theorem ofNames_eq_root_iff {ns : List String} (h : AreNames ns) : ofNames ns = root ↔ ns = [] := by
  rw [← ofNames_nil, ofNames_inj h areNames_nil]

/-- Only the root cleans to the root. -/
theorem names_eq_nil_of_clean {path : String} (h : clean path = root) : names path = [] := by
  rw [clean_eq_ofNames, ← ofNames_nil] at h
  exact (ofNames_inj_of_plain (arePlain_names path) fun _ hn => absurd hn List.not_mem_nil).1 h

/-! ## 5. Tidy paths -/

/-- **A tidy path**: none of its fields ends in a blank. -/
def Tidy (path : String) : Prop := ∀ f ∈ fields path.toList, Text.endsBlank f = false

instance (path : String) : Decidable (Tidy path) := inferInstanceAs (Decidable (∀ _ ∈ _, _))

/-- A path without blanks is tidy. -/
theorem tidy_of_no_blank {path : String} (h : ∀ c ∈ path.toList, Text.isBlank c = false) :
    Tidy path := by
  suffices H : ∀ cs : List Char, (∀ c ∈ cs, Text.isBlank c = false) →
      ∀ f ∈ fields cs, ∀ c ∈ f, Text.isBlank c = false by
    intro f hf
    unfold Text.endsBlank
    cases hl : f.getLast? with
    | none => rfl
    | some c => exact H _ h f hf c (List.mem_of_getLast? hl)
  intro cs
  induction cs with
  | nil =>
    intro _ f hf
    obtain rfl := List.mem_singleton.1 hf
    exact fun c hc => absurd hc List.not_mem_nil
  | cons c cs ih =>
    intro hb f hf
    have ih := ih fun d hd => hb d (List.mem_cons_of_mem _ hd)
    by_cases hc : c = '/'
    · subst hc
      rw [fields_cons_slash] at hf
      rcases List.mem_cons.1 hf with rfl | hf
      · exact fun c hc => absurd hc List.not_mem_nil
      · exact ih f hf
    · rw [fields_cons_of_ne hc] at hf
      cases hcs : fields cs with
      | nil => exact absurd hcs (fields_ne_nil cs)
      | cons first others =>
        rw [hcs] at hf ih
        rcases List.mem_cons.1 hf with rfl | hf
        · intro d hd
          rcases List.mem_cons.1 hd with rfl | hd
          · exact hb d List.mem_cons_self
          · exact ih first List.mem_cons_self d hd
        · exact ih f (List.mem_cons_of_mem _ hf)

/-- The last field ends where the path ends. -/
theorem endsBlank_of_forall_fields {cs : List Char}
    (h : ∀ f ∈ fields cs, Text.endsBlank f = false) : Text.endsBlank cs = false := by
  rcases List.eq_nil_or_concat (fields cs) with hn | ⟨gs, f, hc⟩
  · exact absurd hn (fields_ne_nil cs)
  · have hf := h f (by simp [hc])
    rw [← unfields_fields cs, hc, List.concat_eq_append]
    cases gs with
    | nil => simpa [unfields] using hf
    | cons g gs =>
      rw [unfields_append_singleton (List.cons_ne_nil g gs),
        Text.endsBlank_append_of_ne_nil (List.cons_ne_nil _ _)]
      by_cases hfn : f = []
      · subst hfn
        rfl
      · rw [Text.endsBlank_cons_of_ne_nil hfn]
        exact hf

/-- Trimming the start of a path touches only its first field, and not that field's end. -/
theorem forall_fields_trimStart {cs : List Char}
    (h : ∀ f ∈ fields cs, Text.endsBlank f = false) :
    ∀ f ∈ fields (Text.trimStart cs), Text.endsBlank f = false := by
  induction cs with
  | nil => exact h
  | cons c cs ih =>
    cases hb : Text.isBlank c with
    | false => rwa [Text.trimStart_cons_of_not_blank hb]
    | true =>
      have hc : c ≠ '/' := fun he => by rw [he, Text.isBlank_slash] at hb; cases hb
      rw [Text.trimStart, List.dropWhile_cons_of_pos hb]
      refine ih fun f hf => ?_
      rw [fields_cons_of_ne hc] at h
      cases hcs : fields cs with
      | nil => exact absurd hcs (fields_ne_nil cs)
      | cons first others =>
        rw [hcs] at h hf
        rcases List.mem_cons.1 hf with rfl | hf
        · cases f with
          | nil => rfl
          | cons d ds =>
            rw [← Text.endsBlank_cons_of_ne_nil (List.cons_ne_nil d ds) c]
            exact h _ List.mem_cons_self
        · exact h f (List.mem_cons_of_mem _ hf)

/-- **The names of a tidy path are names.** -/
theorem areNames_names {path : String} (h : Tidy path) : AreNames (names path) := by
  intro n hn
  refine ⟨isPlain_of_mem_names hn, ?_⟩
  have hs := forall_fields_trimStart h
  have ht : Text.trim path.toList = Text.trimStart path.toList :=
    Text.trimEnd_of_not_endsBlank (endsBlank_of_forall_fields hs)
  have hm : n.toList ∈ keptFields path.toList := map_toList_names path ▸ List.mem_map_of_mem hn
  rw [keptFields, ht] at hm
  exact hs _ (mem_of_mem_reduce hm)

/-- **Cleaning a tidy path twice is cleaning it once.** -/
theorem clean_clean {path : String} (h : Tidy path) : clean (clean path) = clean path := by
  rw [clean_eq_ofNames path, clean_ofNames (areNames_names h)]

theorem names_clean {path : String} (h : Tidy path) : names (clean path) = names path := by
  rw [clean_eq_ofNames, names_ofNames (areNames_names h)]

/-- **Plain names are read back from their path** exactly if the path does not end in a blank: a
blank at the end is trimmed, and what is left is shorter. -/
theorem names_ofNames_iff {ns : List String} (hp : ArePlain ns) :
    names (ofNames ns) = ns ↔ Text.endsBlank (ofNames ns).toList = false := by
  obtain ⟨fs, hfs⟩ : ∃ fs, fs = ns.map String.toList := ⟨_, rfl⟩
  have hplain : ∀ f ∈ fs, IsPlain f := hfs ▸ isPlain_of_mem_map hp
  have hagain : (names (ofNames ns)).map String.toList =
      reduce true (fields (Text.trimEnd (unfields fs))) := by
    rw [map_toList_names, toList_ofNames, ← hfs, keptFields, Text.trim_slash_cons_eq,
      fields_cons_slash, reduce_nil_cons]
  have hread : names (ofNames ns) = ns ↔ reduce true (fields (Text.trimEnd (unfields fs))) = fs := by
    rw [← hagain, hfs]
    refine ⟨congrArg _, fun h => ?_⟩
    have hback := congrArg (List.map String.ofList) h
    rwa [map_ofList_toList, map_ofList_toList] at hback
  rw [hread, toList_ofNames, ← hfs]
  constructor
  · intro hsame
    cases hb : Text.endsBlank ('/' :: unfields fs) with
    | false => rfl
    | true =>
      have hne : unfields fs ≠ [] := by
        intro he
        rw [he] at hb
        exact absurd hb (by decide)
      rw [Text.endsBlank_cons_of_ne_nil hne] at hb
      have hshort := Text.length_trimEnd_lt hb
      have hle := length_unfields_le (reduce_sublist true (fields (Text.trimEnd (unfields fs))))
      rw [unfields_fields, hsame] at hle
      omega
  · intro hb
    have htrim : Text.trimEnd (unfields fs) = unfields fs := by
      have hall := Text.trim_slash_cons hb
      rw [Text.trim_slash_cons_eq] at hall
      exact (List.cons.inj hall).2
    rw [htrim, reduce_fields_unfields hplain]

/-- The path of plain names, whatever they end in, is the clean path of some text: a `.` behind it
keeps its last name from being trimmed. -/
theorem exists_clean_eq_ofNames {ns : List String} (hp : ArePlain ns) :
    ∃ path, clean path = ofNames ns := by
  refine ⟨String.ofList ('/' :: (unfields (ns.map String.toList) ++ '/' :: here)), ?_⟩
  have hdot : fields (Text.trimEnd here) = [here] := by decide
  rw [clean, String.toList_ofList, cleanChars_eq, keptFields_below (isPlain_of_mem_map hp), hdot,
    ofNames]
  simp [push]

/-- **Cleaning twice is cleaning once** exactly if the clean path does not end in a blank. -/
theorem clean_clean_iff (path : String) :
    clean (clean path) = clean path ↔ Text.endsBlank (clean path).toList = false := by
  rw [clean_eq_ofNames path, clean_eq_ofNames (ofNames _),
    ofNames_inj_of_plain (arePlain_names _) (arePlain_names path)]
  exact names_ofNames_iff (arePlain_names path)

/-- The path of a list of names is tidy. -/
theorem tidy_ofNames {ns : List String} (h : AreNames ns) : Tidy (ofNames ns) := by
  intro f hf
  rw [toList_ofNames, fields_cons_slash] at hf
  rcases List.mem_cons.1 hf with rfl | hf
  · rfl
  · cases ns with
    | nil => rw [List.mem_singleton.1 hf]; rfl
    | cons n ns =>
      rw [List.map_cons, fields_unfields (List.cons_ne_nil _ _)] at hf
      · rw [← List.map_cons] at hf
        obtain ⟨m, hm, rfl⟩ := List.mem_map.1 hf
        exact (h m hm).2
      · intro g hg
        rw [← List.map_cons] at hg
        obtain ⟨m, hm, rfl⟩ := List.mem_map.1 hg
        exact (h m hm).1.no_slash

end Path

end Arboretum
