import Arboretum.Proofs.Path.Host
import Arboretum.Proofs.Path.Parts

/-!
# One name further down on the host

The **steps** of a path are the fields that lead somewhere: all but empty ones and dots.  Joining a
plain name to a normal host path adds one step at its end and keeps where the path starts from
(`steps_hostJoin`): nothing of the path is taken back.
-/

namespace Arboretum.Path

variable {cs n : List Char} {fs : List (List Char)}

/-- The fields of a path that lead somewhere. -/
def steps (cs : List Char) : List (List Char) := (fields cs).filter fun f => f ≠ [] ∧ f ≠ here

/-- The steps of fields, each of which leads somewhere. -/
theorem steps_unfields (h : ∀ f ∈ fs, f ≠ [] ∧ f ≠ here ∧ '/' ∉ f) : steps (unfields fs) = fs := by
  unfold steps
  cases fs with
  | nil => rfl
  | cons f gs =>
    rw [fields_unfields (List.cons_ne_nil f gs) fun g hg => (h g hg).2.2]
    exact List.filter_eq_self.2 fun g hg => decide_eq_true ⟨(h g hg).1, (h g hg).2.1⟩

theorem steps_cons_slash (cs : List Char) : steps ('/' :: cs) = steps cs := by
  unfold steps
  rw [fields_cons_slash]
  rfl

theorem steps_append_slashes (k : Nat) (cs : List Char) :
    steps (List.replicate k '/' ++ cs) = steps cs := by
  induction k with
  | zero => rfl
  | succ k ih => rw [List.replicate_succ, List.cons_append, steps_cons_slash, ih]

theorem steps_rooted (h : ∀ f ∈ fs, IsPlain f) : steps ('/' :: unfields fs) = fs := by
  rw [steps_cons_slash]
  exact steps_unfields fun f hf => ⟨(h f hf).ne_nil, (h f hf).ne_here, (h f hf).no_slash⟩

theorem steps_relative (h : IsRelative fs) : steps (unfields fs) = fs := by
  obtain ⟨k, ps, rfl, hp⟩ := h
  refine steps_unfields fun f hf => ?_
  rcases List.mem_append.1 hf with hf | hf
  · rw [List.eq_of_mem_replicate hf]
    decide
  · exact ⟨(hp f hf).ne_nil, (hp f hf).ne_here, (hp f hf).no_slash⟩

/-- One more plain field behind a relative path. -/
theorem IsRelative.append (h : IsRelative fs) (hn : IsPlain n) : IsRelative (fs ++ [n]) := by
  obtain ⟨k, ps, rfl, hp⟩ := h
  refine ⟨k, ps ++ [n], List.append_assoc _ _ _, fun p hm => ?_⟩
  rcases List.mem_append.1 hm with hm | hm
  · exact hp p hm
  · rwa [List.mem_singleton.1 hm]

/-- Fields without slashes do not end in one. -/
theorem getLast?_unfields_of_no_slash (hne : fs ≠ []) (h : ∀ f ∈ fs, f ≠ [] ∧ '/' ∉ f) :
    (unfields fs).getLast? ≠ some '/' := by
  obtain ⟨gs, f, rfl⟩ : ∃ gs f, fs = gs ++ [f] := by
    obtain ⟨gs, f, hgs⟩ := (List.eq_nil_or_concat fs).resolve_left hne
    exact ⟨gs, f, hgs.trans List.concat_eq_append⟩
  obtain ⟨hf, hs⟩ := h f (List.mem_append_right _ (List.mem_singleton_self f))
  have hlast : (unfields (gs ++ [f])).getLast? = f.getLast? := by
    cases gs with
    | nil => simp [unfields]
    | cons g gs =>
      obtain ⟨c, hc⟩ := Option.ne_none_iff_exists'.1 fun he => hf (List.getLast?_eq_none_iff.1 he)
      rw [unfields_append_singleton (List.cons_ne_nil g gs), List.append_cons, List.getLast?_append,
        hc]
      rfl
  rw [hlast]
  exact fun he => hs (List.mem_of_getLast? he)

/-- **Appending a plain name** to a normal path that has a field. -/
theorem append_unfields (hne : fs ≠ []) (h : ∀ f ∈ fs, f ≠ [] ∧ '/' ∉ f) (hn : IsPlain n) :
    append (unfields fs) n = unfields (fs ++ [n]) := by
  have hhead : n.head? ≠ some '/' := fun he => hn.no_slash (List.mem_of_head? he)
  obtain ⟨c, rest, hc, -⟩ := exists_unfields_eq_cons hne h
  have hopen : ¬ (unfields fs = [] ∨ (unfields fs).getLast? = some '/') := by
    rintro (hnil | hlast)
    · rw [hc] at hnil
      cases hnil
    · exact getLast?_unfields_of_no_slash hne h hlast
  rw [append, if_neg hhead, if_neg hopen, unfields_append_singleton hne]

theorem append_rooted (h : ∀ f ∈ fs, IsPlain f) (hn : IsPlain n) :
    append ('/' :: unfields fs) n = '/' :: unfields (fs ++ [n]) := by
  have hhead : n.head? ≠ some '/' := fun he => hn.no_slash (List.mem_of_head? he)
  by_cases hne : fs = []
  · subst hne
    rw [append, if_neg hhead, if_pos (.inr rfl)]
    simp [unfields]
  · have hfields : ∀ f ∈ fs, f ≠ [] ∧ '/' ∉ f := fun f hf => ⟨(h f hf).ne_nil, (h f hf).no_slash⟩
    obtain ⟨c, rest, hc, -⟩ := exists_unfields_eq_cons hne hfields
    have hopen : ¬ ('/' :: unfields fs = [] ∨ ('/' :: unfields fs).getLast? = some '/') := by
      rintro (hnil | hlast)
      · cases hnil
      · have hlast' := getLast?_unfields_of_no_slash hne hfields
        rw [hc] at hlast hlast'
        exact hlast' (by rwa [List.getLast?_cons_cons] at hlast)
    rw [append, if_neg hhead, if_neg hopen, unfields_append_singleton hne]
    rfl

/-- A dot with a plain name behind it is the name. -/
theorem normal_append_here (hn : IsPlain n) :
    singleSlash (normal (append here n)) = unfields [n] := by
  have hrel : IsRelative [n] := ⟨0, [n], rfl, fun p hp => List.mem_singleton.1 hp ▸ hn⟩
  have hhead : n.head? ≠ some '/' := fun he => hn.no_slash (List.mem_of_head? he)
  have happend : append here n = '.' :: '/' :: n := by
    rw [append, if_neg hhead, if_neg (by decide)]
    rfl
  have hfields : fields ('.' :: '/' :: n) = [here] ++ [n] := by
    have hread : fields n = [n] := by
      have hread := fields_unfields (List.cons_ne_nil n []) fun f hf =>
        List.mem_singleton.1 hf ▸ hn.no_slash
      rwa [unfields, List.intercalate_singleton] at hread
    rw [← hread]
    exact fields_append_slash ['.'] n
  have hreduce : reduce false ([here] ++ [n]) = [n] := by
    rw [reduce_append_of_isPlain fun g hg => List.mem_singleton.1 hg ▸ hn]
    rfl
  obtain ⟨c, rest, hc, hslash⟩ := exists_unfields_eq_cons (List.cons_ne_nil n [])
    fun f hf => of_mem_isRelative hrel hf
  rw [happend, normal_of_relative (leadingSlashes_of_ne (by decide) _), hfields, hreduce,
    if_neg (List.cons_ne_nil _ _), hc]
  exact singleSlash_of_ne hslash rest

/-- A relative path does not start with a slash. -/
theorem IsRelative.head?_ne (h : IsRelative fs) (hne : fs ≠ []) :
    (unfields fs).head? ≠ some '/' := by
  obtain ⟨c, rest, hc, hslash⟩ := exists_unfields_eq_cons hne fun f hf => of_mem_isRelative h hf
  rw [hc]
  exact fun he => hslash (Option.some.inj he)

/-- A path that is one name below another: it has one step more, and starts where the other does. -/
structure IsNameBelow (n below cs : List Char) : Prop where
  normal : IsNormal below
  steps_eq : steps below = steps cs ++ [n]
  rooted_iff : below.head? = some '/' ↔ cs.head? = some '/'

/-- A normal path and a plain name are joined by putting the one behind the other. -/
theorem hostJoinChars_pair (h : IsNormal cs) (hn : IsPlain n) :
    hostJoinChars [cs, n] = singleSlash (normal (append cs n)) := by
  have hfilter : [cs, n].filter (fun f => decide (f ≠ [])) = [cs, n] := by
    simp [h.ne_nil, hn.ne_nil]
  rw [hostJoinChars, hfilter]
  show singleSlash (normal (append (withoutMount cs) n)) = _
  rw [h.withoutMount_eq]

/-- **Joining a plain name to a normal path** goes one name down. -/
theorem hostJoinChars_name (h : IsNormal cs) (hn : IsPlain n) :
    IsNameBelow n (hostJoinChars [cs, n]) cs := by
  rw [hostJoinChars_pair h hn]
  cases h with
  | @rooted fs h =>
    have hall : ∀ f ∈ fs ++ [n], IsPlain f := fun f hf =>
      (List.mem_append.1 hf).elim (h f) fun hf => List.mem_singleton.1 hf ▸ hn
    rw [append_rooted h hn, (IsNormal.rooted hall).normal_eq]
    exact ⟨.rooted hall, by rw [steps_rooted hall, steps_rooted h], Iff.rfl⟩
  | @relative fs hne h =>
    have hall : IsRelative (fs ++ [n]) := h.append hn
    have hne' : fs ++ [n] ≠ [] := List.append_ne_nil_of_right_ne_nil _ (List.cons_ne_nil _ _)
    rw [append_unfields hne (fun f hf => of_mem_isRelative h hf) hn,
      (IsNormal.relative hne' hall).normal_eq]
    exact ⟨.relative hne' hall, by rw [steps_relative hall, steps_relative h],
      iff_of_false (hall.head?_ne hne') (h.head?_ne hne)⟩
  | here =>
    have hrel : IsRelative [n] := ⟨0, [n], rfl, fun p hp => List.mem_singleton.1 hp ▸ hn⟩
    have hne : [n] ≠ [] := List.cons_ne_nil _ _
    rw [normal_append_here hn]
    exact ⟨.relative hne hrel, steps_relative hrel, iff_of_false (hrel.head?_ne hne) (by decide)⟩

/-- The same for the texts of paths. -/
theorem hostJoin_name {path name : String} (h : IsNormal path.toList)
    (hn : IsPlain name.toList) :
    IsNameBelow name.toList (hostJoin [path, name]).toList path.toList := by
  rw [hostJoin, String.toList_ofList]
  exact hostJoinChars_name h hn

end Arboretum.Path
