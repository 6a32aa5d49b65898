import Arboretum.Path.Lexical

/-!
# Fields and their reduction

What is kept when the fields of a path are reduced.  A **plain** field is one that a reduced path
at the root is made of: neither empty nor `.` nor `..`, and without a slash.

* `isPlain_of_mem_reduce`: at the root, reducing leaves plain fields only;
* `reduce_of_isPlain`: plain fields are left alone, in both worlds;
* `reduce_append`: reducing a path that goes on is going on from what the first part was reduced
  to;
* `reduce_sublist`: what is kept stood in the path before.
-/

namespace Arboretum.Path

/-! ## 1. Fields -/

/-- A slash in front adds an empty field in front. -/
theorem fields_cons_slash (cs : List Char) : fields ('/' :: cs) = [] :: fields cs :=
  List.splitOn_append_cons_self [] cs

/-- A slash between two paths separates their fields. -/
theorem fields_append_slash (as bs : List Char) : fields (as ++ '/' :: bs) = fields as ++ fields bs :=
  List.splitOn_append_cons_self as bs

theorem fields_ne_nil (cs : List Char) : fields cs ≠ [] := List.splitOn_ne_nil '/' cs

/-- A character other than the slash goes to the first field. -/
theorem fields_cons_of_ne {c : Char} (h : c ≠ '/') (cs : List Char) :
    fields (c :: cs) = (fields cs).modifyHead (c :: ·) := by
  rw [fields, List.splitOn_cons_eq_if_modifyHead, if_neg (by simpa using h)]
  rfl

theorem no_slash_of_mem_fields {f cs : List Char} (h : f ∈ fields cs) : '/' ∉ f := by
  induction cs generalizing f with
  | nil =>
    obtain rfl := List.mem_singleton.1 h
    exact List.not_mem_nil
  | cons c cs ih =>
    by_cases hc : c = '/'
    · subst hc
      rw [fields_cons_slash] at h
      rcases List.mem_cons.1 h with rfl | h
      · exact List.not_mem_nil
      · exact ih h
    · rw [fields_cons_of_ne hc] at h
      cases hf : fields cs with
      | nil => exact absurd hf (fields_ne_nil cs)
      | cons first others =>
        rw [hf] at h ih
        rcases List.mem_cons.1 h with rfl | h
        · simpa [Ne.symm hc] using ih List.mem_cons_self
        · exact ih (List.mem_cons_of_mem _ h)

/-- One more field behind a path of fields. -/
theorem unfields_append_singleton {fs : List (List Char)} (h : fs ≠ []) (f : List Char) :
    unfields (fs ++ [f]) = unfields fs ++ '/' :: f := by
  induction fs with
  | nil => exact absurd rfl h
  | cons g gs ih =>
    cases gs with
    | nil => simp [unfields]
    | cons g' gs =>
      have ih := ih (List.cons_ne_nil _ _)
      simp only [unfields, List.cons_append, List.intercalate_cons_cons] at ih ⊢
      rw [ih]
      simp

/-- One more field in front of a path of fields. -/
theorem unfields_cons {fs : List (List Char)} (h : fs ≠ []) (f : List Char) :
    unfields (f :: fs) = f ++ '/' :: unfields fs := by
  rw [unfields, List.intercalate_cons_of_ne_nil h]
  simp [unfields]

/-! ## 2. Plain fields -/

/-- A field that reducing leaves alone. -/
structure IsPlain (f : List Char) : Prop where
  ne_nil : f ≠ []
  ne_here : f ≠ here
  ne_above : f ≠ above
  no_slash : '/' ∉ f

instance (f : List Char) : Decidable (IsPlain f) :=
  decidable_of_iff (f ≠ [] ∧ f ≠ here ∧ f ≠ above ∧ '/' ∉ f)
    ⟨fun ⟨h1, h2, h3, h4⟩ => ⟨h1, h2, h3, h4⟩, fun h => ⟨h.1, h.2, h.3, h.4⟩⟩

/-- Plain fields are read back from their path; no field at all is written as one empty field. -/
theorem filter_fields_unfields {fs : List (List Char)} (h : ∀ f ∈ fs, IsPlain f) :
    (fields (unfields fs)).filter (· ≠ []) = fs := by
  cases fs with
  | nil => rfl
  | cons f gs =>
    rw [fields_unfields (List.cons_ne_nil f gs) fun g hg => (h g hg).no_slash]
    exact List.filter_eq_self.2 fun g hg => by simpa using (h g hg).ne_nil

/-- A path of plain fields does not start with a slash. -/
theorem head?_unfields_ne_slash {fs : List (List Char)} (h : ∀ f ∈ fs, IsPlain f) :
    (unfields fs).head? ≠ some '/' := by
  cases fs with
  | nil => simp [unfields]
  | cons f gs =>
    have hf : IsPlain f := h f List.mem_cons_self
    cases hc : f with
    | nil => exact absurd hc hf.ne_nil
    | cons c cs =>
      have hne : c ≠ '/' := fun he => hf.no_slash (by rw [hc, he]; exact List.mem_cons_self)
      cases gs with
      | nil => simpa [unfields] using hne
      | cons g gs => simpa [unfields_cons (List.cons_ne_nil g gs)] using hne

/-! ## 3. One step -/

/-- A plain field goes on the stack. -/
theorem push_of_isPlain {f : List Char} (h : IsPlain f) (rooted : Bool)
    (stack : List (List Char)) : push rooted stack f = f :: stack := by
  unfold push
  rw [if_neg (by simp [h.ne_nil, h.ne_here]), if_neg h.ne_above]

/-- At the root a `..` takes a plain field back, if there is one. -/
theorem push_above {stack : List (List Char)} (h : ∀ f ∈ stack, IsPlain f) :
    push true stack above = stack.tail := by
  cases stack with
  | nil => rfl
  | cons top below => exact if_neg (h top List.mem_cons_self).ne_above

/-- **At the root the stack holds plain fields only.** -/
theorem isPlain_of_mem_push {stack : List (List Char)} {f g : List Char}
    (hs : ∀ f ∈ stack, IsPlain f) (hg : '/' ∉ g) (h : f ∈ push true stack g) : IsPlain f := by
  by_cases hab : g = above
  · rw [hab, push_above hs] at h
    exact hs f (List.mem_of_mem_tail h)
  · unfold push at h
    rw [if_neg hab] at h
    split at h
    · exact hs f h
    · next hne =>
      cases List.mem_cons.1 h with
      | inl hf => exact hf ▸ ⟨fun e => hne (.inl e), fun e => hne (.inr e), hab, hg⟩
      | inr hf => exact hs f hf

/-- One more field leaves a part of the fields read so far, in their order. -/
theorem push_sublist (rooted : Bool) (stack : List (List Char)) (f : List Char) :
    (push rooted stack f).reverse.Sublist (stack.reverse ++ [f]) := by
  unfold push
  split
  · exact List.sublist_append_left stack.reverse [f]
  · split
    · next hab =>
      cases stack with
      | nil =>
        cases rooted with
        | true => exact List.nil_sublist [f]
        | false => rw [hab]; exact List.Sublist.refl [above]
      | cons top below =>
        dsimp only
        split
        · simp [hab]
        · have hbelow : below.reverse.Sublist (top :: below).reverse := by
            rw [List.reverse_cons]
            exact List.sublist_append_left below.reverse [top]
          exact hbelow.trans (List.sublist_append_left (top :: below).reverse [f])
    · simp

/-! ## 4. Whole paths -/

/-- **Reducing a path that goes on** is going on from what its first part was reduced to. -/
theorem reduce_append (rooted : Bool) (fs gs : List (List Char)) :
    reduce rooted (fs ++ gs) = (gs.foldl (push rooted) (reduce rooted fs).reverse).reverse := by
  simp [reduce]

/-- An empty field in front says nothing. -/
theorem reduce_nil_cons (rooted : Bool) (fs : List (List Char)) :
    reduce rooted ([] :: fs) = reduce rooted fs := rfl

theorem foldl_push_of_isPlain {gs : List (List Char)} (h : ∀ g ∈ gs, IsPlain g) (rooted : Bool)
    (stack : List (List Char)) : gs.foldl (push rooted) stack = gs.reverse ++ stack := by
  induction gs generalizing stack with
  | nil => rfl
  | cons g gs ih =>
    rw [List.foldl_cons, push_of_isPlain (h g List.mem_cons_self),
      ih fun f hf => h f (List.mem_cons_of_mem _ hf)]
    simp

/-- Plain fields at the end stay as they are. -/
theorem reduce_append_of_isPlain {gs : List (List Char)} (h : ∀ g ∈ gs, IsPlain g) (rooted : Bool)
    (fs : List (List Char)) : reduce rooted (fs ++ gs) = reduce rooted fs ++ gs := by
  rw [reduce_append, foldl_push_of_isPlain h]
  simp

/-- **Plain fields are reduced already.** -/
theorem reduce_of_isPlain {fs : List (List Char)} (h : ∀ f ∈ fs, IsPlain f) (rooted : Bool) :
    reduce rooted fs = fs := reduce_append_of_isPlain h rooted []

/-- **At the root, reducing leaves plain fields only.** -/
theorem isPlain_of_mem_reduce {fs : List (List Char)} (hs : ∀ f ∈ fs, '/' ∉ f) {f : List Char}
    (h : f ∈ reduce true fs) : IsPlain f := by
  suffices H : ∀ (gs stack : List (List Char)), (∀ g ∈ gs, '/' ∉ g) → (∀ g ∈ stack, IsPlain g) →
      ∀ g ∈ gs.foldl (push true) stack, IsPlain g from
    H fs [] hs (fun _ hg => absurd hg List.not_mem_nil) f (List.mem_reverse.1 h)
  intro gs
  induction gs with
  | nil => exact fun stack _ h2 => h2
  | cons g gs ih =>
    intro stack h1 h2
    exact ih _ (fun k hk => h1 k (List.mem_cons_of_mem _ hk)) fun k hk =>
      isPlain_of_mem_push h2 (h1 g List.mem_cons_self) hk

/-- **Reducing leaves a part of the fields**, in their order. -/
theorem reduce_sublist (rooted : Bool) (fs : List (List Char)) : (reduce rooted fs).Sublist fs := by
  suffices H : ∀ gs stack : List (List Char),
      (gs.foldl (push rooted) stack).reverse.Sublist (stack.reverse ++ gs) from H fs []
  intro gs
  induction gs with
  | nil =>
    intro stack
    rw [List.append_nil]
    exact List.Sublist.refl stack.reverse
  | cons g gs ih =>
    intro stack
    have hstep : ((push rooted stack g).reverse ++ gs).Sublist ((stack.reverse ++ [g]) ++ gs) :=
      (push_sublist rooted stack g).append_right gs
    rw [List.append_assoc] at hstep
    exact (ih (push rooted stack g)).trans hstep

/-- Reducing adds no field. -/
theorem mem_of_mem_reduce {rooted : Bool} {fs : List (List Char)} {f : List Char}
    (h : f ∈ reduce rooted fs) : f ∈ fs := (reduce_sublist rooted fs).subset h

/-- Fewer fields make no longer path. -/
theorem length_unfields_le {fs gs : List (List Char)} (h : fs.Sublist gs) :
    (unfields fs).length ≤ (unfields gs).length := by
  induction h with
  | slnil => exact Nat.le_refl _
  | @cons fs gs g h ih =>
    cases gs with
    | nil =>
      have hnil : fs = [] := List.sublist_nil.1 h
      rw [hnil]
      exact Nat.zero_le _
    | cons k gs =>
      rw [unfields_cons (List.cons_ne_nil k gs), List.length_append, List.length_cons]
      omega
  | @cons_cons fs gs g h ih =>
    cases fs with
    | nil =>
      cases gs with
      | nil => exact Nat.le_refl _
      | cons k gs =>
        have hone : unfields [g] = g := by simp [unfields]
        rw [hone, unfields_cons (List.cons_ne_nil k gs), List.length_append]
        omega
    | cons f fs =>
      have hne : gs ≠ [] := List.ne_nil_of_mem (h.subset List.mem_cons_self)
      rw [unfields_cons (List.cons_ne_nil f fs), unfields_cons hne, List.length_append,
        List.length_append, List.length_cons, List.length_cons]
      omega

/-- Plain fields are read back, and left alone, at the root. -/
theorem reduce_fields_unfields {fs : List (List Char)} (h : ∀ f ∈ fs, IsPlain f) :
    reduce true (fields (unfields fs)) = fs := by
  cases fs with
  | nil => rfl
  | cons f gs =>
    rw [fields_unfields (List.cons_ne_nil f gs) fun g hg => (h g hg).no_slash, reduce_of_isPlain h]

end Arboretum.Path
