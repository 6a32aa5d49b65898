import Arboretum.Proofs.Registry.Places
import Arboretum.Proofs.Store.Changing
import Arboretum.Proofs.Walk.Looking

/-!
# What removing leaves alone

Wherever a removal stops, by a fault, out of budget or cancelled, it has changed one tree at most:
all calls that remove go to the store of its handle (`along_removeAll_only`).  Within that tree it
has emptied places at and below the path of the handle only, as long as no longer mount lies over an
entry below the path: then every handle that the walk hands out leads back to the entry it was made
for (`along_removeAll_framed`).  A mount over such an entry leads the handle to another store, and
the path there is removed from the store of the handle (`not_framed_overlaid`).
-/

namespace Arboretum

/-! ## 1. Lost entries -/

namespace View

variable {v v' v'' : View} {region : List String}

/-- **A view has lost entries at and below a place only.** -/
def Shrinks (v v' : View) (region : List String) : Prop :=
  ∀ ns, v' ns = v ns ∨ region <+: ns ∧ v' ns = none

theorem Shrinks.refl (v : View) (region : List String) : v.Shrinks v region := fun _ => .inl rfl

theorem Shrinks.trans (h : v.Shrinks v' region) (h' : v'.Shrinks v'' region) :
    v.Shrinks v'' region := by
  intro ns
  rcases h' ns with he | hlost
  · rw [he]
    exact h ns
  · exact .inr hlost

/-- What is there was there. -/
theorem Shrinks.there (h : v.Shrinks v' region) {ns : List String} (hn : v' ns ≠ none) :
    v ns ≠ none := by
  rcases h ns with he | ⟨-, hnone⟩
  · rwa [← he]
  · exact absurd hnone hn

/-- Emptying a place in the region. -/
theorem Shrinks.put (h : v.Shrinks v' region) {place : List String} (hp : region <+: place) :
    v.Shrinks (v'.put place none) region := by
  intro ns
  by_cases he : ns = place
  · exact .inr ⟨he ▸ hp, by rw [he, put_self]⟩
  · rw [put_of_ne v' he]
    exact h ns

end View

namespace Removal

variable {Out : Type} {J : Out → Prop} {w w' : World} {h : Handle} {s : Store} {f f' : MemoryTree}
  {path : String} {ns region : List String}

/-- **Only one tree may have changed** since a world. -/
structure OnlyChanged (w : World) (s : Store) (w' : World) : Prop where
  registries : w'.registries = w.registries
  storage : Storage.ChangedOnly s w.storage w'.storage

theorem OnlyChanged.refl (w : World) (s : Store) : OnlyChanged w s w := ⟨rfl, .refl s w.storage⟩

theorem OnlyChanged.trans {w'' : World} (h : OnlyChanged w s w') (h' : OnlyChanged w' s w'') :
    OnlyChanged w s w'' := ⟨h'.registries.trans h.registries, h.storage.trans h'.storage⟩

theorem OnlyChanged.registry (h : OnlyChanged w s w') (number : Nat) :
    w'.registry number = w.registry number := by
  unfold World.registry
  rw [h.registries]

theorem OnlyChanged.ask (h : OnlyChanged w s w') (c : Call) : OnlyChanged w s (w'.ask s c).2 :=
  ⟨h.registries, h.storage.trans (w'.storage.changedOnly_ask s c)⟩

/-- **Everything outside a region of one tree is as it was** in a world: no other tree has changed,
and the tree has lost entries of the region only. -/
structure Framed (w : World) (s : Store) (f : MemoryTree) (region : List String) (w' : World) :
    Prop extends OnlyChanged w s w' where
  tree : ∃ f', w'.storage.Holds s f' ∧ f.view.Shrinks f'.view region

theorem Framed.refl (hf : w.storage.Holds s f) (region : List String) : Framed w s f region w :=
  ⟨.refl w s, f, hf, .refl _ _⟩

/-- What is framed since a later world is framed since the earlier one. -/
theorem Framed.trans {w'' : World} (honly : OnlyChanged w s w') (hshrinks : f.view.Shrinks f'.view region)
    (h : Framed w' s f' region w'') : Framed w s f region w'' := by
  obtain ⟨f'', hf'', hs⟩ := h.tree
  exact ⟨honly.trans h.toOnlyChanged, f'', hf'', hshrinks.trans hs⟩

/-- **Removing keeps the frame** when the place that the path leads to is in the region. -/
theorem Framed.remove (h : Framed w s f region w')
    (hin : ∀ above name, Path.names path = above ++ [name] →
      f.view (Path.placeIn above name) ≠ none → region <+: Path.placeIn above name) :
    Framed w s f region (w'.ask s (.remove path)).2 := by
  obtain ⟨f', hf', hshrinks⟩ := h.tree
  obtain ⟨f'', hf'', hview⟩ := hf'.ask_remove path
  refine ⟨h.toOnlyChanged.ask _, f'', hf'', ?_⟩
  rcases hview with hsame | ⟨above, name, hns, hthere, hput⟩
  · rwa [hsame]
  · rw [hput]
    exact hshrinks.put (hin above name hns (hshrinks.there hthere))

/-! ## 2. Along a removal -/

/-- The call that removes at a path keeps what removing keeps. -/
theorem along_remove {K : World → Prop} (hK : K w) (hstep : K (w.ask s (.remove path)).2) :
    (Traversal.call s path (.remove path) : Traversal Out Unit).Along K J (fun _ => K) w :=
  Traversal.along_call hK (fun _ _ => hstep) hstep

/-- **Along a removal of everything** an invariant holds if removing at the places that the walk
meets keeps it, and removing at the path itself when something is there. -/
theorem along_removeAll {K : World → Prop} (Good : String → Prop)
    (hg : (w.registry h.registryNumber).Sound)
    (hplace : (w.registry h.registryNumber).place h.uri = (s, path)) (hK : K w)
    (hbase : ∀ below, Walk.Meets w s path below → Good below)
    (hgood : ∀ path, Good path → ∀ below, Walk.Meets w s path below → Good below)
    (hchild : ∀ path, Good path → ∀ w', K w' →
      (removeThrough s ⟨(w.registry h.registryNumber).address s path, some h.registryNumber⟩ :
        Traversal Out Unit).Along K J (fun _ => K) w')
    (hself : ∀ info, (w.ask s (.stat path)).1 = .ok (some info) → ∀ w', K w' →
      K (w'.ask s (.remove path)).2) (budget : Nat) :
    (removeAll budget h : Traversal Out Unit).Along K J (fun _ => K) w := by
  unfold removeAll
  refine (Handle.along_resolve (Q := fun place w' => place = (s, path) ∧ w = w') hg
    ⟨hplace, rfl⟩).bind ?_
  rintro _ _ ⟨rfl, rfl⟩
  dsimp only
  unfold Handle.require
  split
  · refine (Traversal.along_look (Q := fun info w' =>
      (w.ask s (.stat path)).1 = .ok info ∧ w = w') rfl hK fun a ha => ⟨ha, rfl⟩).bind ?_
    rintro (_ | info) _ ⟨hstat, rfl⟩
    · exact hK
    · have hlast : ∀ w', K w' →
          (Traversal.call s path (.remove path) : Traversal Out Unit).Along K J (fun _ => K) w' :=
        fun w' hw' => along_remove hw' (hself info hstat w' hw')
      dsimp only
      split
      · have hwalk := (Walk.along_run hg hplace hbase hgood budget h.registryNumber [] true).gather
          [] (fun _ hv => absurd hv List.not_mem_nil) J
        refine (hwalk.mono (fun w' hw' => hw' ▸ hK) (fun _ hx => hx) fun _ _ hx => hx).bind ?_
        rintro ⟨found, _⟩ _ ⟨hfound, rfl⟩
        refine (Traversal.along_forEach hK fun v hv w' hw' => ?_).bind fun _ w' hw' => hlast w' hw'
        obtain ⟨q, hq, hhandle⟩ := hfound v hv
        rw [hhandle]
        exact hchild q hq w' hw'
      · exact hlast w hK
  · exact hK

/-! ## 3. One tree only -/

/-- Removing through a store changes the tree of the store only, wherever the handle leads. -/
theorem along_removeThrough_only (hg : (w.registry h.registryNumber).Sound)
    (honly : OnlyChanged w s w') :
    (removeThrough s h : Traversal Out Unit).Along (OnlyChanged w s) J (fun _ => OnlyChanged w s)
      w' := by
  have hg' : (w'.registry h.registryNumber).Sound := by rwa [honly.registry]
  refine (Handle.along_resolve (Q := fun _ => Eq w') hg' rfl).bind ?_
  rintro ⟨_, path⟩ _ rfl
  exact along_remove honly (honly.ask _)

/-- **Removing everything changes one tree only**: that of the store of the handle. -/
theorem along_removeAll_only (hg : (w.registry h.registryNumber).Sound)
    (hplace : (w.registry h.registryNumber).place h.uri = (s, path)) (budget : Nat) :
    (removeAll budget h : Traversal Out Unit).Along (OnlyChanged w s) J (fun _ => OnlyChanged w s)
      w :=
  along_removeAll (fun _ => True) hg hplace (.refl w s) (fun _ _ => trivial)
    (fun _ _ _ _ => trivial) (fun _ _ _ hw' => along_removeThrough_only hg hw')
    (fun _ _ _ hw' => hw'.ask _) budget

/-! ## 4. One region of the tree -/

/-- **A path of an entry below plain names**: names lead there, and something stands below the place
of the plain names. -/
def IsEntryBelow (f : MemoryTree) (ns : List String) (path : String) : Prop :=
  ∃ rel, rel ≠ [] ∧ Path.AreNames rel ∧ path = Path.ofNames (ns ++ rel) ∧
    f.view (Path.names (Path.ofNames ns) ++ rel) ≠ none

/-- **What a walk meets below plain names** are paths of entries. -/
theorem isEntryBelow_of_meets (hs : s.IsMounted) (hf : w.storage.Holds s f)
    (hp : Path.ArePlain ns) {rel : List String} (hr : Path.AreNames rel) {below : String}
    (hm : Walk.Meets w s (Path.ofNames (ns ++ rel)) below) : IsEntryBelow f ns below := by
  obtain ⟨entries, hlist, e, he, hjoin⟩ := hm
  have hthere := hf.of_list hlist he
  obtain ⟨hn, hname⟩ := Path.areNames_append_singleton.1 (Forest.areNames_of_view hf.orderly hthere)
  have hplain : Path.ArePlain (ns ++ rel) := fun n hn =>
    (List.mem_append.1 hn).elim (hp n) (Path.arePlain_of_areNames hr n)
  rw [Store.IsHome.ask_join w (.inl hs), hs.joined_name hplain hname] at hjoin
  rw [Path.names_ofNames_below hp hr hn] at hthere
  refine ⟨rel ++ [e.name], by simp, Path.areNames_append_singleton.2 ⟨hr, hname⟩, ?_, ?_⟩
  · rw [← List.append_assoc]
    exact (Except.ok.inj hjoin).symm
  · rwa [← List.append_assoc]

/-- **A handle of an entry leads back to it**, unless a longer mount lies over it. -/
theorem place_of_isEntryBelow {g : Registry} (hg : g.Sound) (hknows : g.Knows s) (hs : s.IsMounted)
    (hp : Path.ArePlain ns) {rel : List String} (hr : Path.AreNames rel) (hne : rel ≠ [])
    (hnot : ¬ g.Overlaid s (Path.ofNames (ns ++ rel))) :
    g.place (g.address s (Path.ofNames (ns ++ rel))) = (s, Path.ofNames (ns ++ rel)) := by
  have hpath : s.IsPath (Path.ofNames (ns ++ rel)) := by
    rw [← hs.joined_names hp hr hne]
    exact hs.isPath _
  rw [hg.kept.place_address hknows (.inl hs) hpath hnot, hs.joined_singleton hpath, Path.clean_eq_ofNames,
    Path.names_ofNames_append hp hr hne]

/-- Removing at the path of an entry below plain names empties a place below theirs. -/
theorem prefix_placeIn (ho : f.Orderly) (hp : Path.ArePlain ns) {rel above : List String}
    {name : String} (hr : Path.AreNames rel) (hne : rel ≠ [])
    (hns : Path.names (Path.ofNames (ns ++ rel)) = above ++ [name])
    (hthere : f.view (Path.placeIn above name) ≠ none) :
    Path.names (Path.ofNames ns) <+: Path.placeIn above name := by
  rw [Path.names_ofNames_append hp hr hne] at hns
  obtain ⟨before, last, rfl⟩ : ∃ before last, rel = before ++ [last] := by
    rcases List.eq_nil_or_concat rel with rfl | ⟨before, last, rfl⟩
    · exact absurd rfl hne
    · exact ⟨before, last, List.concat_eq_append⟩
  rw [← List.append_assoc] at hns
  obtain ⟨rfl, hlast⟩ := List.append_inj' hns rfl
  have hn := Forest.areNames_of_view ho hthere
  unfold Path.placeIn at hn ⊢
  rw [Path.names_ofNames_below hp (Path.areNames_append.1 hr).1 (Path.areNames_append.1 hn).1,
    List.append_assoc]
  exact List.prefix_append _ _

/-- Removing at a path where something is known to stand empties the place of the path. -/
theorem placeIn_eq_names (ho : f.Orderly) {above : List String} {name : String}
    (hclean : f.view (Path.names (Path.clean path)) ≠ none)
    (hns : Path.names path = above ++ [name])
    (hthere : f.view (Path.placeIn above name) ≠ none) :
    Path.placeIn above name = Path.names path := by
  have hplain : Path.ArePlain above := fun n hn =>
    Path.arePlain_names path n (hns ▸ List.mem_append_left _ hn)
  have hname := (Path.areNames_append_singleton.1 (Forest.areNames_of_view ho hthere)).2
  rw [Path.clean_eq_ofNames, hns, Path.names_ofNames_append hplain
    (Path.areNames_singleton.2 hname) (List.cons_ne_nil _ _)] at hclean
  have habove := (Path.areNames_append.1 (Forest.areNames_of_view ho hclean)).1
  rw [Path.placeIn, Path.names_ofNames habove, hns]

/-- **Removing everything stays in a region**: the places at and below the path of the handle are in
the region, if there are any, and no longer mount lies over an entry below the path. -/
theorem along_removeAll_framed (region : List String)
    (hg : (w.registry h.registryNumber).Sound) (hs : s.IsMounted)
    (hp : Path.ArePlain ns)
    (hplace : (w.registry h.registryNumber).place h.uri = (s, Path.ofNames ns))
    (hf : w.storage.Holds s f)
    (hregion : f.view (Path.names (Path.ofNames ns)) ≠ none →
      region <+: Path.names (Path.ofNames ns))
    (hnot : ∀ rel, rel ≠ [] → f.view (Path.names (Path.ofNames ns) ++ rel) ≠ none →
      ¬ (w.registry h.registryNumber).Overlaid s (Path.ofNames (ns ++ rel))) (budget : Nat) :
    (removeAll budget h : Traversal Out Unit).Along (Framed w s f region) J
      (fun _ => Framed w s f region) w := by
  have hknows := hg.kept.knows_of_place hplace hs
  refine along_removeAll (IsEntryBelow f ns) hg hplace (.refl hf region) ?_ ?_ ?_ ?_ budget
  · intro below hm
    rw [← List.append_nil ns] at hm
    exact isEntryBelow_of_meets hs hf hp Path.areNames_nil hm
  · rintro _ ⟨rel, -, hr, rfl, -⟩ below hm
    exact isEntryBelow_of_meets hs hf hp hr hm
  · rintro _ ⟨rel, hne, hr, rfl, hthere⟩ w' hw'
    have hback := place_of_isEntryBelow hg hknows hs hp hr hne (hnot rel hne hthere)
    have hg' : (w'.registry h.registryNumber).Sound := by rwa [hw'.registry]
    have hback' : (w'.registry h.registryNumber).place
        ((w.registry h.registryNumber).address s (Path.ofNames (ns ++ rel))) =
        (s, Path.ofNames (ns ++ rel)) := by rw [hw'.registry, hback]
    refine (Handle.along_resolve (Q := fun place w'' => place = (s, Path.ofNames (ns ++ rel)) ∧
      w' = w'') (h := ⟨_, some h.registryNumber⟩) hg' ⟨hback', rfl⟩).bind ?_
    rintro _ _ ⟨rfl, rfl⟩
    refine along_remove hw' (hw'.remove fun above name hns hgone => ?_)
    have hbelow := prefix_placeIn hf.orderly hp hr hne hns hgone
    refine (hregion fun hnone => ?_).trans hbelow
    exact hgone (f.isTree_view.none_of_prefix hbelow hnone)
  · intro info hstat w' hw'
    refine hw'.remove fun above name hns hgone => ?_
    have hself := placeIn_eq_names hf.orderly (hf.of_stat hstat) hns hgone
    rw [hself] at hgone ⊢
    exact hregion hgone

/-! ## 5. The entries of a directory -/

/-- **Removing entries of a directory stays below it**, as long as no longer mount lies over an
entry below the path of the handle. -/
theorem along_removeEntries_framed (hg : (w.registry h.registryNumber).Sound) (hs : s.IsMounted)
    (hp : Path.ArePlain ns)
    (hplace : (w.registry h.registryNumber).place h.uri = (s, Path.ofNames ns))
    (hf : w.storage.Holds s f)
    (hnot : ∀ rel, rel ≠ [] → f.view (Path.names (Path.ofNames ns) ++ rel) ≠ none →
      ¬ (w.registry h.registryNumber).Overlaid s (Path.ofNames (ns ++ rel))) (budget : Nat)
    (patterns : List String) :
    (removeEntries budget h patterns : Traversal Out Unit).Along
      (Framed w s f (Path.names (Path.ofNames ns))) J
      (fun _ => Framed w s f (Path.names (Path.ofNames ns))) w := by
  have hstart : Framed w s f (Path.names (Path.ofNames ns)) w := .refl hf _
  have hknows := hg.kept.knows_of_place hplace hs
  unfold removeEntries
  refine (Listing.along_bounded (Q := fun kept w' => w = w' ∧ ∀ e ∈ kept,
    f.view (Path.names (Path.ofNames ns) ++ [e.name]) ≠ none) hstart hg hplace patterns
    fun _ _ _ hlist hkept => ⟨rfl, fun e he => hf.of_list hlist (hkept e he)⟩).bind ?_
  rintro kept _ ⟨rfl, hkept⟩
  refine Traversal.along_forEach hstart fun e he w' hw' => ?_
  have hthere := hkept e he
  have hname := (Path.areNames_append_singleton.1 (Forest.areNames_of_view hf.orderly hthere)).2
  have hnames := Path.areNames_singleton.2 hname
  have hne : [e.name] ≠ [] := List.cons_ne_nil _ _
  have hback := place_of_isEntryBelow hg hknows hs hp hnames hne (hnot [e.name] hne hthere)
  have hg' : (w'.registry h.registryNumber).Sound := by rwa [hw'.registry]
  have hplace' : (w'.registry h.registryNumber).place h.uri = (s, Path.ofNames ns) := by
    rwa [hw'.registry]
  refine (Handle.along_join (Q := fun child w'' => child =
    ⟨(w'.registry h.registryNumber).address s (Path.ofNames (ns ++ [e.name])), h.registry⟩ ∧
      w' = w'') hg' (.inl hs) hplace' [e.name] ⟨?_, rfl⟩).bind ?_
  · rw [hs.joined_name hp hname]
  · rintro _ _ ⟨rfl, rfl⟩
    obtain ⟨f', hf', hshrinks⟩ := hw'.tree
    have hplain : Path.ArePlain (ns ++ [e.name]) := fun n hn =>
      (List.mem_append.1 hn).elim (hp n) (Path.arePlain_of_areNames hnames n)
    -- Whatever stands below the entry stands below the directory.
    have hbelow : ∀ rel, f'.view (Path.names (Path.ofNames (ns ++ [e.name])) ++ rel) ≠ none →
        Path.names (Path.ofNames (ns ++ [e.name])) = Path.names (Path.ofNames ns) ++ [e.name] :=
      fun rel hrel => Path.names_ofNames_below hp hnames
        (Path.areNames_append.1 (Forest.areNames_of_view hf'.orderly hrel)).1
    have hback' : (w'.registry h.registryNumber).place
        ((w'.registry h.registryNumber).address s (Path.ofNames (ns ++ [e.name]))) =
        (s, Path.ofNames (ns ++ [e.name])) := by
      rw [hw'.registry]
      exact hback
    refine (along_removeAll_framed (Path.names (Path.ofNames ns))
      (h := ⟨(w'.registry h.registryNumber).address s (Path.ofNames (ns ++ [e.name])), h.registry⟩)
      hg' hs hplain hback' hf' (fun hrel => ?_)
      (fun rel hrel hsome => ?_) budget).mono (fun _ => .trans hw'.toOnlyChanged hshrinks)
      (fun _ hx => hx) fun _ _ => .trans hw'.toOnlyChanged hshrinks
    · rw [hbelow [] (by rwa [List.append_nil])]
      exact List.prefix_append _ _
    · have hfirst := hshrinks.there hsome
      rw [hbelow rel hsome, List.append_assoc] at hfirst
      rw [List.append_assoc]
      have hfree := hnot ([e.name] ++ rel) (by simp) hfirst
      rwa [← hw'.registry] at hfree

/-! ## 6. Whole removals -/

/-- **What removing leaves alone**, wherever the run is stopped.  A handle resolves to a store and a
path, in a registry that came about by registering.  Removing everything at the handle changes no
tree but that of the store.  If the store keeps a tree in memory or in a table that was built at tidy
paths, and no longer mount lies over an entry below the path, then removing everything at the handle,
and removing the entries of its directory whose names pass any patterns, change no other tree, and
this tree loses entries at and below the path only. -/
theorem removal_framed (w : World) (token : Option Nat) (h : Handle)
    (hg : (w.registry h.registryNumber).Reachable) (s : Store) (path : String)
    (hresolve : w.record token (h.resolve : Traversal Out (Store × String)) =
      ⟨.finished (s, path), [], w⟩) (budget : Nat) (stops : Nat → Option String) :
    Storage.ChangedOnly s w.storage
      (w.interrupted stops (removeAll budget h : Traversal Out Unit)).storage ∧
    (s.IsMounted → w.storage.Built s → ∃ f, w.storage.Holds s f ∧
      ((∀ rel, rel ≠ [] → f.view (Path.names path ++ rel) ≠ none →
          ¬ (w.registry h.registryNumber).Overlaid s (s.joined (path :: rel))) →
        Framed w s f (Path.names path)
          (w.interrupted stops (removeAll budget h : Traversal Out Unit)) ∧
        ∀ patterns, Framed w s f (Path.names path)
          (w.interrupted stops (removeEntries budget h patterns : Traversal Out Unit)))) := by
  have hsound := hg.sound
  have hresolved : w.record token ((w.registry h.registryNumber).resolve h.uri :
      Traversal Out (Store × String)) = ⟨.finished (s, path), [], w⟩ := hresolve
  rw [h.record_resolve w token hsound, Record.finished_eq_iff] at hresolve
  have honly : (removeAll budget h : Traversal Out Unit).Along (OnlyChanged w s) (fun _ => True)
      (fun _ => OnlyChanged w s) w := along_removeAll_only hsound hresolve budget
  refine ⟨(honly.interrupted (fun _ _ hw => hw) stops).storage, fun hs hb => ?_⟩
  obtain ⟨-, parts, hparts, -⟩ := Registry.of_record_resolve hsound.void hs hresolved
  obtain ⟨text, htext⟩ := hs.exists_clean (hs.isPath parts)
  have hpath : path = Path.ofNames (Path.names text) := by
    rw [hparts, htext, Path.clean_eq_ofNames]
  have hp := Path.arePlain_names text
  generalize Path.names text = ns at hpath hp
  subst hpath
  obtain ⟨f, hf⟩ := hb.exists_holds
  refine ⟨f, hf, fun hfree => ?_⟩
  have hnot : ∀ rel, rel ≠ [] → f.view (Path.names (Path.ofNames ns) ++ rel) ≠ none →
      ¬ (w.registry h.registryNumber).Overlaid s (Path.ofNames (ns ++ rel)) := by
    intro rel hne hthere
    have hr := (Path.areNames_append.1 (Forest.areNames_of_view hf.orderly hthere)).2
    rw [← hs.joined_names hp hr hne]
    exact hfree rel hne hthere
  refine ⟨?_, fun patterns => ?_⟩
  · have halong : (removeAll budget h : Traversal Out Unit).Along _ (fun _ => True) _ w :=
      along_removeAll_framed _ hsound hs hp hresolve hf (fun _ => List.prefix_refl _) hnot budget
    exact halong.interrupted (fun _ _ hw => hw) stops
  · have halong : (removeEntries budget h patterns : Traversal Out Unit).Along _ (fun _ => True) _ w :=
      along_removeEntries_framed hsound hs hp hresolve hf hnot budget patterns
    exact halong.interrupted (fun _ _ hw => hw) stops

/-- A removal that is stopped at its fourth check leaves the root and everything outside the
directory. -/
theorem removal_framed_small :
    let stops : Nat → Option String := fun checks => if checks = 3 then some "stopped" else none
    ∃ f, World.small.storage.Holds ⟨2, "mem://a", .memory⟩ f ∧
      Framed World.small ⟨2, "mem://a", .memory⟩ f ["b"]
        (World.small.interrupted stops (removeAll 2 ⟨"mem://a/b", none⟩ : Traversal Empty Unit)) ∧
      Framed World.small ⟨2, "mem://a", .memory⟩ f ["b"]
        (World.small.interrupted stops
          (removeEntries 2 ⟨"mem://a/b", none⟩ ["x*"] : Traversal Empty Unit)) := by
  intro stops
  have hs : Store.IsMounted ⟨2, "mem://a", .memory⟩ := .memory 2 "a"
  have hplace : (World.small.registry commonRegistry).place "mem://a/b" =
      (⟨2, "mem://a", .memory⟩, "/b") := by decide +kernel
  have hnames : Path.names "/b" = ["b"] := by decide +kernel
  have halone : (World.small.registry commonRegistry).Alone ⟨2, "mem://a", .memory⟩ := by
    decide +kernel
  obtain ⟨f, hf, hframed⟩ := (@removal_framed Empty World.small none ⟨"mem://a/b", none⟩
    World.reachable_small ⟨2, "mem://a", .memory⟩ "/b" (World.record_resolve_small hplace) 2
    stops).2 hs World.built_small
  obtain ⟨hall, hentries⟩ := hframed fun rel _ _ => halone.not_overlaid hs (hs.isPath _)
  rw [hnames] at hall hentries
  exact ⟨f, hf, hall, hentries ["x*"]⟩

end Removal

/-- Two stores in memory, the mount of one over a directory of the other. -/
def World.overlaid : World :=
  let s : Store := ⟨2, "mem://a", .memory⟩
  let t : Store := ⟨3, "mem://a/d/e", .memory⟩
  let w := (World.initial ⟨.empty, []⟩).changeRegistry commonRegistry (·.register s)
  let w := (w.ask s (.makeDir "/d/e" true)).2
  let w := (w.ask s (.write "/d/e/x" .empty)).2
  let w := (w.ask s (.write "/x" .empty)).2
  w.changeRegistry commonRegistry (·.register t)

/-- **Under a mount the frame does not hold**: the handle of an entry of the directory leads to the
other store, and the path there is removed from the first one, outside the directory. -/
theorem Removal.not_framed_overlaid :
    let tree := World.overlaid.storage.memory 2
    let after := World.overlaid.run none (removeAll 9 ⟨"mem://a/d", none⟩ : Traversal Empty Unit)
    (World.overlaid.registry commonRegistry).place "mem://a/d" = (⟨2, "mem://a", .memory⟩, "/d") ∧
      (tree.view ["x"]).isSome = true ∧ ((after.2.storage.memory 2).view ["x"]).isNone = true := by
  refine ⟨?_, ?_, ?_⟩
  · decide +kernel
  · decide +kernel
  · decide +kernel

end Arboretum
