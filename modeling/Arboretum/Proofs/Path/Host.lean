import Arboretum.Address
import Arboretum.Proofs.Path.Clean

/-!
# Normal host paths

Joining on the host ends in a **normal path**: a slash with plain fields, or a relative path whose
fields are plain behind some `..`, or a lone dot.  A normal path is left alone by joining
(`hostJoin_hostJoin`), and no scheme can be read into it (`hasScheme_hostJoin`), since no two
slashes of it stand side by side.

What a host path says is whether it starts at the root and which fields are left of it (`reading`).
The normal form says the same (`reading_normal`) and depends on nothing else (`singleSlash_normal`),
and a part behind a path goes on from what the path says (`reading_append`).  So parts may be joined
in steps (`hostJoin_join`).
-/

namespace Arboretum.Path

/-! ## 1. Relative fields -/

/-- The fields of a reduced relative path: some `..`, then plain fields. -/
def IsRelative (fs : List (List Char)) : Prop :=
  ∃ k ps, fs = List.replicate k above ++ ps ∧ ∀ p ∈ ps, IsPlain p

/-- One more field keeps a stack relative. -/
theorem isRelative_push {stack : List (List Char)} {f : List Char} (h : IsRelative stack.reverse)
    (hf : '/' ∉ f) : IsRelative (push false stack f).reverse := by
  obtain ⟨k, ps, hs, hp⟩ := h
  have hstack : stack = ps.reverse ++ List.replicate k above := by
    rw [← List.reverse_reverse stack, hs, List.reverse_append, List.reverse_replicate]
  unfold push
  split
  · exact ⟨k, ps, hs, hp⟩
  · next hne =>
    split
    · rcases List.eq_nil_or_concat ps with rfl | ⟨qs, q, rfl⟩
      · rw [List.reverse_nil, List.nil_append] at hstack
        rw [hstack]
        cases k with
        | zero => exact ⟨1, [], rfl, by simp⟩
        | succ k =>
          refine ⟨k + 2, [], ?_, by simp⟩
          show (List.replicate (k + 2) above).reverse = _
          rw [List.reverse_replicate, List.append_nil]
      · rw [List.concat_eq_append] at hp hstack
        have hq : q ≠ above := (hp q (by simp)).ne_above
        rw [hstack, List.reverse_append, List.reverse_singleton, List.singleton_append,
          List.cons_append]
        dsimp only
        rw [if_neg hq]
        refine ⟨k, qs, by simp, fun p hm => hp p (List.mem_append_left _ hm)⟩
    · next hab =>
      refine ⟨k, ps ++ [f], by rw [List.reverse_cons, hs, List.append_assoc], fun p hm => ?_⟩
      rcases List.mem_append.1 hm with hm | hm
      · exact hp p hm
      · obtain rfl := List.mem_singleton.1 hm
        exact ⟨fun e => hne (.inl e), fun e => hne (.inr e), hab, hf⟩

/-- **Reducing a relative path** leaves some `..` and plain fields. -/
theorem isRelative_reduce {fs : List (List Char)} (h : ∀ f ∈ fs, '/' ∉ f) :
    IsRelative (reduce false fs) := by
  suffices H : ∀ gs stack : List (List Char), (∀ g ∈ gs, '/' ∉ g) → IsRelative stack.reverse →
      IsRelative (gs.foldl (push false) stack).reverse from
    H fs [] h ⟨0, [], rfl, by simp⟩
  intro gs
  induction gs with
  | nil => exact fun _ _ hs => hs
  | cons g gs ih =>
    intro stack hg hs
    exact ih _ (fun f hf => hg f (List.mem_cons_of_mem g hf))
      (isRelative_push hs (hg g List.mem_cons_self))

/-- Such fields are reduced already. -/
theorem reduce_of_isRelative {fs : List (List Char)} (h : IsRelative fs) : reduce false fs = fs := by
  obtain ⟨k, ps, rfl, hp⟩ := h
  have hup : reduce false (List.replicate k above) = List.replicate k above := by
    induction k with
    | zero => rfl
    | succ k ih =>
      rw [List.replicate_succ', reduce_append, ih, List.reverse_replicate]
      cases k with
      | zero => rfl
      | succ k =>
        show (List.replicate (k + 2) above).reverse = _
        rw [List.reverse_replicate, ← List.replicate_succ']
  rw [reduce_append_of_isPlain hp, hup]

/-- None of them is empty, and no slash stands in them. -/
theorem of_mem_isRelative {fs : List (List Char)} (h : IsRelative fs) {f : List Char} (hf : f ∈ fs) :
    f ≠ [] ∧ '/' ∉ f := by
  obtain ⟨k, ps, rfl, hp⟩ := h
  rcases List.mem_append.1 hf with hf | hf
  · rw [List.eq_of_mem_replicate hf]
    decide
  · exact ⟨(hp f hf).ne_nil, (hp f hf).no_slash⟩

/-! ## 2. Normal paths -/

/-- **A normal path** of the host. -/
inductive IsNormal : List Char → Prop
  | rooted {fs : List (List Char)} (h : ∀ f ∈ fs, IsPlain f) : IsNormal ('/' :: unfields fs)
  | relative {fs : List (List Char)} (hne : fs ≠ []) (h : IsRelative fs) : IsNormal (unfields fs)
  | here : IsNormal here

/-- A path of fields that are not empty starts with the first character of the first one. -/
theorem exists_unfields_eq_cons {fs : List (List Char)} (hne : fs ≠ [])
    (h : ∀ f ∈ fs, f ≠ [] ∧ '/' ∉ f) : ∃ c cs, unfields fs = c :: cs ∧ c ≠ '/' := by
  cases fs with
  | nil => exact absurd rfl hne
  | cons f gs =>
    obtain ⟨hf, hs⟩ := h f List.mem_cons_self
    cases f with
    | nil => exact absurd rfl hf
    | cons c cs =>
      have hc : c ≠ '/' := fun he => hs (he ▸ List.mem_cons_self)
      cases gs with
      | nil => exact ⟨c, cs, by simp [unfields], hc⟩
      | cons g gs =>
        exact ⟨c, cs ++ '/' :: unfields (g :: gs), unfields_cons (List.cons_ne_nil g gs) _, hc⟩

theorem leadingSlashes_of_ne {c : Char} (hc : c ≠ '/') (cs : List Char) :
    leadingSlashes (c :: cs) = 0 := by
  unfold leadingSlashes
  split
  · next he => exact absurd (List.cons.inj he).1 hc
  · next he => exact absurd (List.cons.inj he).1 hc
  · next he => exact absurd (List.cons.inj he).1 hc
  · rfl

theorem singleSlash_of_ne {c : Char} (hc : c ≠ '/') (cs : List Char) :
    singleSlash (c :: cs) = c :: cs := by
  unfold singleSlash
  split
  · next he => exact absurd (List.cons.inj he).1 hc
  · rfl

/-- The normal form of a rooted path. -/
theorem normal_of_rooted {cs : List Char} (h : leadingSlashes cs = 1 ∨ leadingSlashes cs = 2) :
    singleSlash (normal cs) = '/' :: unfields (reduce true (fields cs)) := by
  have hp : ∀ f ∈ reduce true (fields cs), IsPlain f := fun f hf =>
    isPlain_of_mem_reduce (fun _ hg => no_slash_of_mem_fields hg) hf
  unfold normal
  rcases h with h | h
  · rw [h]
    exact singleSlash_one hp
  · rw [h]
    exact singleSlash_two hp

theorem leadingSlashes_cases (cs : List Char) :
    (leadingSlashes cs = 1 ∨ leadingSlashes cs = 2) ∨ leadingSlashes cs = 0 := by
  unfold leadingSlashes
  split
  · exact .inl (.inl rfl)
  · exact .inl (.inr rfl)
  · exact .inl (.inl rfl)
  · exact .inr rfl

/-- The normal form of a relative path. -/
theorem normal_of_relative {cs : List Char} (h : leadingSlashes cs = 0) :
    normal cs = if reduce false (fields cs) = [] then here else unfields (reduce false (fields cs))
    := by
  have hr : IsRelative (reduce false (fields cs)) :=
    isRelative_reduce fun f hf => no_slash_of_mem_fields hf
  unfold normal
  rw [h]
  by_cases he : reduce false (fields cs) = []
  · rw [if_pos he]
    simp [he, unfields]
  · rw [if_neg he]
    obtain ⟨c, rest, hc, -⟩ := exists_unfields_eq_cons he fun f hf => of_mem_isRelative hr hf
    simp [hc]

/-- **What a host path says**: whether it starts at the root, and the fields that are left of it. -/
def reading (cs : List Char) : Bool × List (List Char) :=
  (leadingSlashes cs != 0, reduce (leadingSlashes cs != 0) (fields cs))

/-- The normal path that says it. -/
def written : Bool × List (List Char) → List Char
  | (true, fs) => '/' :: unfields fs
  | (false, fs) => if fs = [] then here else unfields fs

/-- **The normal form is written from what the path says.** -/
theorem singleSlash_normal (cs : List Char) : singleSlash (normal cs) = written (reading cs) := by
  rcases leadingSlashes_cases cs with h | h
  · have hrooted : (leadingSlashes cs != 0) = true := by rcases h with h | h <;> rw [h] <;> rfl
    rw [normal_of_rooted h, reading, hrooted]
    rfl
  · have hrelative : (leadingSlashes cs != 0) = false := by rw [h]; rfl
    rw [normal_of_relative h, reading, hrelative]
    have hr : IsRelative (reduce false (fields cs)) :=
      isRelative_reduce fun f hf => no_slash_of_mem_fields hf
    rw [written]
    split
    · rfl
    · next hne =>
      obtain ⟨c, rest, hc, hs⟩ := exists_unfields_eq_cons hne fun f hf => of_mem_isRelative hr hf
      rw [hc]
      exact singleSlash_of_ne hs rest

/-- Plain fields behind a slash are read back, -/
theorem reading_rooted {fs : List (List Char)} (h : ∀ f ∈ fs, IsPlain f) :
    reading ('/' :: unfields fs) = (true, fs) := by
  have hone : leadingSlashes ('/' :: unfields fs) = 1 := by
    have hh := head?_unfields_ne_slash h
    unfold leadingSlashes
    split
    · rfl
    · next he =>
      rw [(List.cons.inj he).2] at hh
      exact absurd rfl hh
    · rfl
    · next hn => exact absurd rfl (hn (unfields fs))
  have hfields : reduce true (fields ('/' :: unfields fs)) = fs := by
    rw [fields_cons_slash, reduce_nil_cons, reduce_fields_unfields h]
  rw [reading, hone]
  exact congrArg (Prod.mk true) hfields

/-- and so are the fields of a reduced relative path. -/
theorem reading_relative {fs : List (List Char)} (hne : fs ≠ []) (h : IsRelative fs) :
    reading (unfields fs) = (false, fs) := by
  obtain ⟨c, rest, hc, hs⟩ := exists_unfields_eq_cons hne fun f hf => of_mem_isRelative h hf
  have hzero : leadingSlashes (unfields fs) = 0 := hc ▸ leadingSlashes_of_ne hs rest
  have hfields : reduce false (fields (unfields fs)) = fs := by
    rw [fields_unfields hne fun f hf => (of_mem_isRelative h hf).2, reduce_of_isRelative h]
  rw [reading, hzero]
  exact congrArg (Prod.mk false) hfields

theorem reading_here : reading here = (false, []) := by decide

/-- **What a path says**: plain fields at the root, or some `..` and plain fields. -/
theorem reading_cases (cs : List Char) :
    (∃ fs, reading cs = (true, fs) ∧ ∀ f ∈ fs, IsPlain f) ∨
      ∃ fs, reading cs = (false, fs) ∧ IsRelative fs := by
  have hs : ∀ f ∈ fields cs, '/' ∉ f := fun f hf => no_slash_of_mem_fields hf
  unfold reading
  cases leadingSlashes cs != 0 with
  | true => exact .inl ⟨_, rfl, fun f hf => isPlain_of_mem_reduce hs hf⟩
  | false => exact .inr ⟨_, rfl, isRelative_reduce hs⟩

/-- **The normal form is normal.** -/
theorem isNormal_normal (cs : List Char) : IsNormal (singleSlash (normal cs)) := by
  rw [singleSlash_normal]
  rcases reading_cases cs with ⟨fs, h, hp⟩ | ⟨fs, h, hr⟩
  · rw [h]
    exact .rooted hp
  · rw [h, written]
    split
    · exact .here
    · next hne => exact .relative hne hr

/-- The normal form says what the path says. -/
theorem reading_normal (cs : List Char) : reading (singleSlash (normal cs)) = reading cs := by
  rw [singleSlash_normal]
  rcases reading_cases cs with ⟨fs, h, hp⟩ | ⟨fs, h, hr⟩
  · rw [h]
    exact reading_rooted hp
  · rw [h, written]
    split
    · next hnil => rw [hnil, reading_here]
    · next hne => exact reading_relative hne hr

/-- **A normal path is its own normal form.** -/
theorem IsNormal.normal_eq {cs : List Char} (h : IsNormal cs) : singleSlash (normal cs) = cs := by
  rw [singleSlash_normal]
  cases h with
  | rooted h => rw [reading_rooted h]; rfl
  | relative hne h => rw [reading_relative hne h, written, if_neg hne]
  | here => rw [reading_here]; rfl

/-- A clean path is normal for the host, too. -/
theorem isNormal_clean (path : String) : IsNormal (clean path).toList := by
  rw [clean, String.toList_ofList, cleanChars_eq]
  exact .rooted fun f hf => isPlain_of_mem_keptFields hf

/-- **Two slashes never stand side by side in a normal path**: they would have an empty field between
them. -/
theorem IsNormal.no_double_slash {cs : List Char} (h : IsNormal cs) (front rest : List Char) :
    cs ≠ front ++ '/' :: '/' :: rest := by
  intro he
  have hfields : fields cs = fields front ++ ([] :: fields rest) := by
    rw [he, fields_append_slash, fields_cons_slash]
  have hfirst := fields_ne_nil front
  have hlast := fields_ne_nil rest
  cases h with
  | @rooted fs h =>
    rw [fields_cons_slash] at hfields
    cases hfront : fields front with
    | nil => exact hfirst hfront
    | cons f others =>
      rw [hfront] at hfields
      have htail := (List.cons.inj hfields).2
      have hmem : [] ∈ fields (unfields fs) := by
        rw [htail]
        exact List.mem_append_right _ List.mem_cons_self
      cases fs with
      | nil =>
        have hlen : (fields (unfields ([] : List (List Char)))).length =
            (others ++ ([] :: fields rest)).length := congrArg List.length htail
        have hpos := List.length_pos_iff.2 hlast
        have hone : (fields (unfields ([] : List (List Char)))).length = 1 := rfl
        rw [hone, List.length_append, List.length_cons] at hlen
        omega
      | cons g gs =>
        rw [fields_unfields (List.cons_ne_nil g gs) fun k hk => (h k hk).no_slash] at hmem
        exact (h [] hmem).ne_nil rfl
  | @relative fs hne h =>
    rw [fields_unfields hne fun f hf => (of_mem_isRelative h hf).2] at hfields
    have hmem : [] ∈ fs := by
      rw [hfields]
      exact List.mem_append_right _ List.mem_cons_self
    exact (of_mem_isRelative h hmem).1 rfl
  | here =>
    have hlen := congrArg List.length hfields
    have hpos := List.length_pos_iff.2 hlast
    have hpos' := List.length_pos_iff.2 hfirst
    have hone : (fields Path.here).length = 1 := rfl
    rw [hone, List.length_append, List.length_cons] at hlen
    omega

/-- **No scheme stands in a normal path.** -/
theorem IsNormal.no_mark {cs : List Char} (h : IsNormal cs) (front rest : List Char) :
    cs ≠ front ++ Address.mark ++ rest := by
  intro he
  refine h.no_double_slash (front ++ [':']) rest (he.trans ?_)
  simp [Address.mark]

/-! ## 3. Joining on the host -/

/-- What joining ends with: nothing, or a normal path. -/
theorem hostJoinChars_cases (parts : List (List Char)) :
    hostJoinChars parts = [] ∨ IsNormal (hostJoinChars parts) := by
  unfold hostJoinChars
  split
  · exact .inl rfl
  · exact .inr (isNormal_normal _)

/-- A normal path is not empty, -/
theorem IsNormal.ne_nil {cs : List Char} (h : IsNormal cs) : cs ≠ [] := by
  cases h with
  | rooted h => exact List.cons_ne_nil _ _
  | @relative fs hne h =>
    obtain ⟨c, rest, hc, -⟩ := exists_unfields_eq_cons hne fun f hf => of_mem_isRelative h hf
    rw [hc]
    exact List.cons_ne_nil c rest
  | here => exact List.cons_ne_nil _ _

/-- and no address text stands in front of it. -/
theorem IsNormal.withoutMount_eq {cs : List Char} (h : IsNormal cs) : withoutMount cs = cs := by
  have hnone : after? hostMount.toList cs = none := by
    cases ha : after? hostMount.toList cs with
    | none => rfl
    | some rest =>
      exact absurd (after?_eq_some_iff.1 ha) (h.no_mark ['f', 'i', 'l', 'e'] rest)
  rw [withoutMount, hnone]

/-- A normal path is left alone. -/
theorem hostJoinChars_of_isNormal {cs : List Char} (h : IsNormal cs) : hostJoinChars [cs] = cs := by
  have hfilter : [cs].filter (fun f => decide (f ≠ [])) = [cs] := by simp [h.ne_nil]
  rw [hostJoinChars, hfilter]
  show singleSlash (normal (withoutMount cs)) = cs
  rw [h.withoutMount_eq, h.normal_eq]

/-- **Joining twice is joining once.** -/
theorem hostJoin_hostJoin (parts : List String) : hostJoin [hostJoin parts] = hostJoin parts := by
  unfold hostJoin
  rw [List.map_singleton, String.toList_ofList]
  rcases hostJoinChars_cases (parts.map String.toList) with h | h
  · rw [h]
    rfl
  · rw [hostJoinChars_of_isNormal h]

/-- **In a joined path no two slashes stand side by side**, -/
theorem no_double_slash_hostJoin (parts : List String) :
    ¬ ['/', '/'] <:+: (hostJoin parts).toList := by
  rintro ⟨front, rest, h⟩
  unfold hostJoin at h
  rw [String.toList_ofList] at h
  rcases hostJoinChars_cases (parts.map String.toList) with he | hn
  · rw [he] at h
    simp at h
  · exact hn.no_double_slash front rest (by rw [← h, List.append_assoc]; rfl)

/-- so it names no scheme. -/
theorem hasScheme_hostJoin (parts : List String) : Address.hasScheme (hostJoin parts) = false := by
  rw [Bool.eq_false_iff, Ne, Address.hasScheme_iff]
  rintro ⟨front, rest, h⟩
  refine no_double_slash_hostJoin parts ⟨front ++ [':'], rest, ?_⟩
  rw [h]
  simp [Address.mark]

/-- Something put together ends in a normal path, -/
theorem isNormal_hostJoinChars {first : List Char} (h : first ≠ []) (others : List (List Char)) :
    IsNormal (hostJoinChars (first :: others)) := by
  rw [hostJoinChars, List.filter_cons_of_pos (by simpa using h)]
  exact isNormal_normal _

/-- so a text that is not empty is not joined to an empty one. -/
theorem hostJoin_cons_ne_empty {u : String} (h : u ≠ "") (others : List String) :
    hostJoin (u :: others) ≠ "" := by
  have hu : u.toList ≠ [] := fun he => h (String.toList_inj.1 he)
  have hn := isNormal_hostJoinChars hu (others.map String.toList)
  intro he
  refine hn.ne_nil ?_
  have hl := congrArg String.toList he
  rwa [hostJoin, String.toList_ofList] at hl

theorem hostJoin_ne_empty {u : String} (h : u ≠ "") : hostJoin [u] ≠ "" :=
  hostJoin_cons_ne_empty h []

/-! ## 4. Joining in steps -/

/-- A path starts at the root exactly if a slash is in front. -/
theorem leadingSlashes_bne_zero (cs : List Char) :
    (leadingSlashes cs != 0) = (cs.head? == some '/') := by
  cases cs with
  | nil => rfl
  | cons c cs =>
    by_cases hc : c = '/'
    · subst hc
      rcases leadingSlashes_cases ('/' :: cs) with (h | h) | h
      · rw [h]; rfl
      · rw [h]; rfl
      · unfold leadingSlashes at h
        split at h
        · cases h
        · cases h
        · cases h
        · next hn => exact absurd rfl (hn cs)
    · rw [leadingSlashes_of_ne hc]
      simp [hc]

/-- A part that does not start at the root goes on with the fields of the path, -/
theorem reduce_append_part (rooted : Bool) (cs part : List Char) (h : part.head? ≠ some '/') :
    reduce rooted (fields (append cs part)) = reduce rooted (fields cs ++ fields part) := by
  unfold append
  rw [if_neg h]
  split
  · next hend =>
    rcases List.eq_nil_or_concat cs with rfl | ⟨ds, d, rfl⟩
    · exact (reduce_nil_cons rooted (fields part)).symm
    · obtain rfl : d = '/' := by simpa using hend
      rw [List.concat_eq_append]
      have hcs : fields (ds ++ ['/']) = fields ds ++ [[]] := fields_append_slash ds []
      rw [List.append_assoc, List.singleton_append, fields_append_slash, hcs, List.append_assoc,
        reduce_append, reduce_append]
      rfl
  · rw [fields_append_slash]

/-- and the path starts at the root as before. -/
theorem rooted_append (cs part : List Char) (h : part.head? ≠ some '/') :
    (leadingSlashes (append cs part) != 0) = (leadingSlashes cs != 0) := by
  rw [leadingSlashes_bne_zero, leadingSlashes_bne_zero]
  unfold append
  rw [if_neg h]
  cases cs with
  | nil =>
    rw [if_pos (.inl rfl), List.nil_append]
    exact beq_eq_false_iff_ne.2 h
  | cons c cs => split <;> rfl

/-- **What a path with a part behind it says**: what the part says, if that starts at the root; else
what the path says, with the fields of the part read on. -/
theorem reading_append (cs part : List Char) : reading (append cs part) =
    if part.head? = some '/' then reading part
    else ((reading cs).1, ((fields part).foldl (push (reading cs).1) (reading cs).2.reverse).reverse)
    := by
  split
  · next hpart =>
    have hsame : append cs part = part := if_pos hpart
    rw [hsame]
  · next hpart =>
    rw [reading, rooted_append cs part hpart, reduce_append_part _ cs part hpart, reduce_append]
    rfl

/-- **Parts go on from what the path says.** -/
theorem reading_foldl_append {cs ds : List Char} (h : reading cs = reading ds)
    (parts : List (List Char)) :
    reading (parts.foldl append cs) = reading (parts.foldl append ds) := by
  induction parts generalizing cs ds with
  | nil => exact h
  | cons part parts ih => exact ih (by rw [reading_append, reading_append, h])

/-- Empty parts say nothing. -/
theorem hostJoinChars_filter (parts : List (List Char)) :
    hostJoinChars (parts.filter (· ≠ [])) = hostJoinChars parts := by
  rw [hostJoinChars, hostJoinChars, List.filter_filter]
  simp only [Bool.and_self]

/-- The first part that is not empty starts, and the others follow it. -/
theorem hostJoinChars_of_filter {parts others : List (List Char)} {first : List Char}
    (h : parts.filter (· ≠ []) = first :: others) :
    hostJoinChars parts = singleSlash (normal (others.foldl append (withoutMount first))) := by
  rw [hostJoinChars, h]

/-- **Parts may be joined in steps.** -/
theorem hostJoinChars_join (as bs : List (List Char)) :
    hostJoinChars (hostJoinChars as :: bs) = hostJoinChars (as ++ bs) := by
  cases has : as.filter (· ≠ []) with
  | nil =>
    have hnil : hostJoinChars as = [] := by rw [hostJoinChars, has]
    rw [hnil, ← hostJoinChars_filter (as ++ bs), List.filter_append, has, List.nil_append,
      hostJoinChars_filter]
    rfl
  | cons first others =>
    have hstep := hostJoinChars_of_filter has
    have hn : IsNormal (hostJoinChars as) := hstep ▸ isNormal_normal _
    have hread : reading (hostJoinChars as) =
        reading (others.foldl append (withoutMount first)) := by rw [hstep, reading_normal]
    have hfirst : (hostJoinChars as :: bs).filter (· ≠ []) =
        hostJoinChars as :: bs.filter (· ≠ []) :=
      List.filter_cons_of_pos (by simpa using hn.ne_nil)
    have hall : (as ++ bs).filter (· ≠ []) = first :: (others ++ bs.filter (· ≠ [])) := by
      rw [List.filter_append, has, List.cons_append]
    rw [hostJoinChars_of_filter hfirst, hn.withoutMount_eq, hostJoinChars_of_filter hall,
      List.foldl_append, singleSlash_normal, singleSlash_normal, reading_foldl_append hread]

/-- **Host parts may be joined in steps**: joining some parts and then others behind the result is
joining all of them at once. -/
theorem hostJoin_join (as bs : List String) :
    hostJoin (hostJoin as :: bs) = hostJoin (as ++ bs) := by
  unfold hostJoin
  rw [List.map_cons, String.toList_ofList, hostJoinChars_join, List.map_append]

end Arboretum.Path
