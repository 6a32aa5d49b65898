import Arboretum.Proofs.Path.Descent
import Arboretum.Proofs.Tree.Outline
import Arboretum.Store.Disk

/-!
# Where paths lead on a disk

Following a path on a disk is bounded: in the links it may lead through, in the length of names, in
the length of the path.  `Disk.Leads` says where a path leads to a directory without any of these
bounds, one rule for each kind of field.  Whatever the host finds is found this way
(`leads_of_follow`), and the relation has what the bounded search has not: a path leads on from where
its beginning leads (`Leads.exists_between`), empty fields and dots do not matter (`Leads.congr`), and
a disk that has lost entries leads nowhere else (`Leads.reflect`).  Without links on its way a path
leads to the place that its fields spell (`Leads.eq_placeOf`).
-/

namespace Arboretum

namespace Disk

variable {d d' : Disk} {here dir fs gs : List String} {path name : String}

/-! ## 1. Leading somewhere -/

/-- The field names an entry of a directory. -/
def Names (field : String) : Prop := field ≠ "" ∧ field ≠ "." ∧ field ≠ ".."

instance (field : String) : Decidable (Names field) := inferInstanceAs (Decidable (_ ∧ _))

/-- **Fields lead from a real directory to a real directory**, links followed. -/
inductive Leads (d : Disk) : List String → List String → List String → Prop
  /-- no field leads nowhere else -/
  | arrive (here : List String) : Leads d here [] here
  /-- an empty field or a dot stays -/
  | stay {here rest dir : List String} {field : String} (hf : field = "" ∨ field = ".")
    (h : Leads d here rest dir) : Leads d here (field :: rest) dir
  /-- two dots go to the directory above -/
  | climb {here rest dir : List String} (h : Leads d here.dropLast rest dir) :
    Leads d here (".." :: rest) dir
  /-- the name of a directory goes there -/
  | enter {here rest dir : List String} {field : String} (hf : Names field)
    (hat : d.root.outline (here ++ [field]) = some none) (h : Leads d (here ++ [field]) rest dir) :
    Leads d here (field :: rest) dir
  /-- the name of a link goes where its target leads -/
  | jump {here rest dir : List String} {field target : String} (hf : Names field)
    (hat : d.root.outline (here ++ [field]) = some (some (.link target)))
    (h : Leads d (start here target) (fieldsOf target ++ rest) dir) :
    Leads d here (field :: rest) dir

/-- One pass leads where the relation does, if the links that it meets do. -/
theorem leads_of_pass {saving : Bool}
    {onLink : List String → List String → Except HostRefusal Found}
    (hlink : ∀ here fs, onLink here fs = .ok (.directory dir) → d.Leads here fs dir)
    (h : d.pass saving onLink here fs = .ok (.directory dir)) : d.Leads here fs dir := by
  induction fs generalizing here with
  | nil =>
    cases h
    exact .arrive _
  | cons field rest ih =>
    rw [pass] at h
    by_cases hstay : field = "" ∨ field = "."
    · rw [if_pos hstay] at h
      exact .stay hstay (ih h)
    · rw [if_neg hstay] at h
      by_cases hclimb : field = ".."
      · rw [if_pos hclimb] at h
        exact hclimb ▸ .climb (ih h)
      · rw [if_neg hclimb] at h
        have hname : Names field := ⟨fun he => hstay (.inl he), fun he => hstay (.inr he), hclimb⟩
        split at h
        · cases h
        · split at h
          · cases h
          · split at h
            · next inside hat => exact .enter hname (Forest.outline_of_at? hat) (ih h)
            · split at h <;> cases h
            · next target hat => exact .jump hname (Forest.outline_of_at? hat) (hlink _ _ h)
            · split at h <;> cases h

/-- **Whatever the host finds is found so.** -/
theorem leads_of_follow {saving : Bool} {links : Nat}
    (h : d.follow saving links here fs = .ok (.directory dir)) : d.Leads here fs dir := by
  induction links generalizing here fs with
  | zero =>
    have hnone : ∀ here fs, (.error .linkLoop : Except HostRefusal Found) = .ok (.directory dir) →
        d.Leads here fs dir := nofun
    exact leads_of_pass hnone h
  | succ links ih => exact leads_of_pass (fun _ _ h => ih h) h

/-- **The name of an entry** leads to the directory of that name, or where the link of that name
leads. -/
theorem Leads.of_name (hname : Names name) (h : d.Leads here [name] dir) :
    d.root.outline (here ++ [name]) = some none ∧ dir = here ++ [name] ∨
      ∃ target, d.root.outline (here ++ [name]) = some (some (.link target)) ∧
        d.Leads (start here target) (fieldsOf target) dir := by
  cases h with
  | stay hf h => exact (hf.elim hname.1 hname.2.1).elim
  | climb h => exact absurd rfl hname.2.2
  | enter hf hat h =>
    cases h
    exact .inl ⟨hat, rfl⟩
  | jump hf hat h =>
    rw [List.append_nil] at h
    exact .inr ⟨_, hat, h⟩

/-! ## 2. Parts of paths -/

/-- **A path leads on from where its beginning leads.** -/
theorem Leads.exists_between (h : d.Leads here (fs ++ gs) dir) :
    ∃ between, d.Leads here fs between ∧ d.Leads between gs dir := by
  generalize hall : fs ++ gs = all at h
  induction h generalizing fs with
  | arrive here =>
    obtain ⟨rfl, rfl⟩ := List.append_eq_nil_iff.1 hall
    exact ⟨here, .arrive here, .arrive here⟩
  | @stay here rest dir field hf h ih =>
    rcases List.append_eq_cons_iff.1 hall with ⟨rfl, rfl⟩ | ⟨more, rfl, rfl⟩
    · exact ⟨here, .arrive here, .stay hf h⟩
    · obtain ⟨between, hmore, hgs⟩ := ih rfl
      exact ⟨between, .stay hf hmore, hgs⟩
  | @climb here rest dir h ih =>
    rcases List.append_eq_cons_iff.1 hall with ⟨rfl, rfl⟩ | ⟨more, rfl, rfl⟩
    · exact ⟨here, .arrive here, .climb h⟩
    · obtain ⟨between, hmore, hgs⟩ := ih rfl
      exact ⟨between, .climb hmore, hgs⟩
  | @enter here rest dir field hf hat h ih =>
    rcases List.append_eq_cons_iff.1 hall with ⟨rfl, rfl⟩ | ⟨more, rfl, rfl⟩
    · exact ⟨here, .arrive here, .enter hf hat h⟩
    · obtain ⟨between, hmore, hgs⟩ := ih rfl
      exact ⟨between, .enter hf hat hmore, hgs⟩
  | @jump here rest dir field target hf hat h ih =>
    rcases List.append_eq_cons_iff.1 hall with ⟨rfl, rfl⟩ | ⟨more, rfl, rfl⟩
    · exact ⟨here, .arrive here, .jump hf hat h⟩
    · obtain ⟨between, hmore, hgs⟩ := ih (List.append_assoc (fieldsOf target) more gs)
      exact ⟨between, .jump hf hat hmore, hgs⟩

/-- The fields that lead somewhere. -/
def moves (fs : List String) : List String := fs.filter fun f => f ≠ "" ∧ f ≠ "."

theorem moves_append (fs gs : List String) : moves (fs ++ gs) = moves fs ++ moves gs :=
  List.filter_append fs gs

theorem moves_cons_of_stay {field : String} (hf : field = "" ∨ field = ".") (fs : List String) :
    moves (field :: fs) = moves fs := by
  refine List.filter_cons_of_neg ?_
  rcases hf with rfl | rfl <;> decide

theorem moves_cons_of_ne {field : String} (he : field ≠ "") (hd : field ≠ ".") (fs : List String) :
    moves (field :: fs) = field :: moves fs :=
  List.filter_cons_of_pos (decide_eq_true ⟨he, hd⟩)

/-- Fields that stay may stand in front. -/
theorem Leads.behind (hgs : ∀ g ∈ gs, g = "" ∨ g = ".") (h : d.Leads here fs dir) :
    d.Leads here (gs ++ fs) dir := by
  induction gs with
  | nil => exact h
  | cons g gs ih =>
    exact .stay (hgs g List.mem_cons_self) (ih fun x hx => hgs x (List.mem_cons_of_mem g hx))

/-- Fields that move alike start with fields that stay and the same move. -/
theorem exists_of_moves_cons {field : String} (h : moves gs = field :: fs) :
    ∃ before after, gs = before ++ field :: after ∧ (∀ g ∈ before, g = "" ∨ g = ".") ∧
      moves after = fs := by
  obtain ⟨before, after, rfl, hbefore, -, hafter⟩ := List.filter_eq_cons_iff.1 h
  refine ⟨before, after, rfl, fun g hg => ?_, hafter⟩
  by_contra hne
  exact hbefore g hg (decide_eq_true ⟨fun he => hne (.inl he), fun he => hne (.inr he)⟩)

/-- **Empty fields and dots do not matter.** -/
theorem Leads.congr (h : d.Leads here fs dir) (hsame : moves gs = moves fs) :
    d.Leads here gs dir := by
  induction h generalizing gs with
  | arrive here =>
    have hstay : ∀ g ∈ gs, g = "" ∨ g = "." := by
      intro g hg
      by_contra hne
      exact List.filter_eq_nil_iff.1 hsame g hg
        (decide_eq_true ⟨fun he => hne (.inl he), fun he => hne (.inr he)⟩)
    rw [← List.append_nil gs]
    exact (Leads.arrive here).behind hstay
  | stay hf h ih =>
    rw [moves_cons_of_stay hf] at hsame
    exact ih hsame
  | climb h ih =>
    rw [moves_cons_of_ne (by decide) (by decide)] at hsame
    obtain ⟨before, after, rfl, hbefore, hafter⟩ := exists_of_moves_cons hsame
    exact (Leads.climb (ih hafter)).behind hbefore
  | enter hf hat h ih =>
    rw [moves_cons_of_ne hf.1 hf.2.1] at hsame
    obtain ⟨before, after, rfl, hbefore, hafter⟩ := exists_of_moves_cons hsame
    exact (Leads.enter hf hat (ih hafter)).behind hbefore
  | jump hf hat h ih =>
    rw [moves_cons_of_ne hf.1 hf.2.1] at hsame
    obtain ⟨before, after, rfl, hbefore, hafter⟩ := exists_of_moves_cons hsame
    refine (Leads.jump hf hat (ih ?_)).behind hbefore
    rw [moves_append, moves_append, hafter]

/-- **A disk that has only lost entries leads nowhere else.** -/
theorem Leads.reflect (h : d'.Leads here fs dir)
    (hlost : ∀ ns, d'.root.outline ns = d.root.outline ns ∨ d'.root.outline ns = none) :
    d.Leads here fs dir := by
  have hthere : ∀ {ns x}, d'.root.outline ns = some x → d.root.outline ns = some x := by
    intro ns x hx
    rcases hlost ns with he | hnone
    · rw [← he, hx]
    · rw [hnone] at hx
      cases hx
  induction h with
  | arrive here => exact .arrive here
  | stay hf h ih => exact .stay hf ih
  | climb h ih => exact .climb ih
  | enter hf hat h ih => exact .enter hf (hthere hat) ih
  | jump hf hat h ih => exact .jump hf (hthere hat) ih

/-! ## 3. Paths without links -/

/-- One field further, as it is spelled. -/
def onto (here : List String) (field : String) : List String :=
  if field = "" ∨ field = "." then here
  else if field = ".." then here.dropLast
  else here ++ [field]

/-- **The place that a path spells**: the real names on the way to it when no link is on the way. -/
def placeOf (d : Disk) (path : String) : List String :=
  (fieldsOf path).foldl onto (start d.cwd path)

/-- A link stands at a place. -/
def IsLinkAt (d : Disk) (ns : List String) : Prop :=
  ∃ target, d.root.outline ns = some (some (.link target))

theorem foldl_onto_moves (here fs : List String) :
    (moves fs).foldl onto here = fs.foldl onto here := by
  induction fs generalizing here with
  | nil => rfl
  | cons field rest ih =>
    by_cases hstay : field = "" ∨ field = "."
    · rw [moves_cons_of_stay hstay, List.foldl_cons, ih, onto, if_pos hstay]
    · rw [moves_cons_of_ne (fun he => hstay (.inl he)) (fun he => hstay (.inr he)),
        List.foldl_cons, List.foldl_cons, ih]

theorem onto_of_names {field : String} (hf : Names field) (here : List String) :
    onto here field = here ++ [field] := by
  rw [onto, if_neg (not_or.2 ⟨hf.1, hf.2.1⟩), if_neg hf.2.2]

theorem foldl_onto_names (hfs : ∀ f ∈ fs, Names f) (here : List String) :
    fs.foldl onto here = here ++ fs := by
  induction fs generalizing here with
  | nil => exact (List.append_nil here).symm
  | cons field rest ih =>
    rw [List.foldl_cons, onto_of_names (hfs field List.mem_cons_self),
      ih fun f hf => hfs f (List.mem_cons_of_mem field hf), List.append_assoc]
    rfl

/-- Climbing leads where it is spelled, -/
theorem Leads.of_climbs {k : Nat} (h : d.Leads here (List.replicate k ".." ++ fs) dir) :
    d.Leads ((List.replicate k "..").foldl onto here) fs dir := by
  induction k generalizing here with
  | zero => exact h
  | succ k ih =>
    rw [List.replicate_succ, List.cons_append] at h
    rw [List.replicate_succ, List.foldl_cons]
    cases h with
    | stay hf h => exact absurd hf (by decide)
    | climb h => exact ih h
    | enter hf hat h => exact absurd rfl hf.2.2
    | jump hf hat h => exact absurd rfl hf.2.2

/-- and so do names that are no links. -/
theorem Leads.of_names (hfs : ∀ f ∈ fs, Names f)
    (hfree : ∀ ns, ns <+: here ++ fs → ¬ d.IsLinkAt ns) (h : d.Leads here fs dir) :
    dir = here ++ fs := by
  induction fs generalizing here with
  | nil =>
    cases h
    exact (List.append_nil _).symm
  | cons field rest ih =>
    have hname := hfs field List.mem_cons_self
    have hall : here ++ field :: rest = (here ++ [field]) ++ rest := by
      rw [List.append_assoc]
      rfl
    rw [hall] at hfree ⊢
    cases h with
    | stay hf h => exact (hf.elim hname.1 hname.2.1).elim
    | climb h => exact absurd rfl hname.2.2
    | enter hf hat h => exact ih (fun f hf => hfs f (List.mem_cons_of_mem field hf)) hfree h
    | jump hf hat h => exact absurd ⟨_, hat⟩ (hfree _ (List.prefix_append _ rest))

/-- The steps of a path are its fields that lead somewhere. -/
theorem moves_fieldsOf (path : String) :
    moves (fieldsOf path) = (Path.steps path.toList).map String.ofList := by
  unfold moves fieldsOf Path.steps
  rw [List.filter_map]
  refine congrArg _ (List.filter_congr fun f _ => ?_)
  have hnil : String.ofList f = "" ↔ f = [] := String.ofList_eq_empty_iff
  have hdot : "." = String.ofList Path.here := rfl
  have hhere : String.ofList f = "." ↔ f = Path.here := by rw [hdot, String.ofList_inj]
  simp [hnil, hhere]

/-- A plain name names an entry. -/
theorem names_of_isPlain (h : Path.IsPlain name.toList) : Names name :=
  ⟨fun he => h.ne_nil (congrArg String.toList he), fun he => h.ne_here (congrArg String.toList he),
    fun he => h.ne_above (congrArg String.toList he)⟩

/-- **A normal path climbs first**, and names entries then. -/
theorem moves_of_isNormal (hn : Path.IsNormal path.toList) :
    ∃ k ps, moves (fieldsOf path) = List.replicate k ".." ++ ps ∧ ∀ p ∈ ps, Names p := by
  have hplain : ∀ {fs : List (List Char)}, (∀ f ∈ fs, Path.IsPlain f) →
      ∀ p ∈ fs.map String.ofList, Names p := by
    intro fs hfs p hp
    obtain ⟨f, hf, rfl⟩ := List.mem_map.1 hp
    exact names_of_isPlain (by rw [String.toList_ofList]; exact hfs f hf)
  rw [moves_fieldsOf]
  generalize path.toList = cs at hn
  cases hn with
  | @rooted fs h =>
    rw [Path.steps_rooted h]
    exact ⟨0, _, rfl, hplain h⟩
  | @relative fs hne h =>
    obtain ⟨k, ps, rfl, hps⟩ := id h
    rw [Path.steps_relative h, List.map_append, List.map_replicate]
    exact ⟨k, _, rfl, hplain hps⟩
  | here => exact ⟨0, [], rfl, fun _ hp => absurd hp List.not_mem_nil⟩

/-- **A normal path without links leads to the place that it spells.** -/
theorem Leads.eq_placeOf (hn : Path.IsNormal path.toList)
    (hfree : ∀ ns, ns <+: d.placeOf path → ¬ d.IsLinkAt ns)
    (h : d.Leads (start d.cwd path) (moves (fieldsOf path)) dir) : dir = d.placeOf path := by
  obtain ⟨k, ps, hmoves, hps⟩ := moves_of_isNormal hn
  have hplace : d.placeOf path =
      (List.replicate k "..").foldl onto (start d.cwd path) ++ ps := by
    rw [placeOf, ← foldl_onto_moves, hmoves, List.foldl_append, foldl_onto_names hps]
  rw [hplace] at hfree ⊢
  rw [hmoves] at h
  exact h.of_climbs.of_names hps hfree

/-- The directory of its last name is the one above that place. -/
theorem Leads.eq_placeOf_above (hn : Path.IsNormal path.toList)
    (hfree : ∀ ns, ns <+: d.placeOf path → ¬ d.IsLinkAt ns)
    (hmoves : moves (fieldsOf path) = fs ++ [name]) (hname : Names name)
    (h : d.Leads (start d.cwd path) fs dir) : dir ++ [name] = d.placeOf path := by
  obtain ⟨k, ps, hnormal, hps⟩ := moves_of_isNormal hn
  obtain ⟨qs, rfl, rfl⟩ : ∃ qs, ps = qs ++ [name] ∧ fs = List.replicate k ".." ++ qs := by
    rw [hmoves] at hnormal
    rcases List.eq_nil_or_concat ps with rfl | ⟨qs, q, rfl⟩
    · rw [List.append_nil] at hnormal
      have hmem : name ∈ List.replicate k ".." :=
        hnormal ▸ List.mem_append_right fs (List.mem_singleton_self name)
      exact absurd (List.eq_of_mem_replicate hmem) hname.2.2
    · rw [List.concat_eq_append, ← List.append_assoc] at hnormal
      obtain ⟨hfs, hq⟩ := List.append_inj' hnormal rfl
      obtain rfl := (List.cons.inj hq).1
      exact ⟨qs, List.concat_eq_append, hfs⟩
  have hplace : d.placeOf path =
      ((List.replicate k "..").foldl onto (start d.cwd path) ++ qs) ++ [name] := by
    rw [placeOf, ← foldl_onto_moves, hmoves, List.foldl_append, List.foldl_append,
      foldl_onto_names fun q hq => hps q (List.mem_append_left _ hq)]
    exact onto_of_names hname _
  rw [hplace] at hfree ⊢
  rw [h.of_climbs.of_names (fun q hq => hps q (List.mem_append_left _ hq)) fun ns hns =>
    hfree ns (hns.trans (List.prefix_append _ _))]

end Disk

end Arboretum
