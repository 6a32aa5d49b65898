import Arboretum.Proofs.Glob.Conduct
import Arboretum.Proofs.Glob.Exact
import Arboretum.Proofs.Pattern.Rooted
import Arboretum.Proofs.Store.Growing

/-!
# A glob by address finds what a glob from the root finds

A pattern may be given behind the mount of a memory store, and then it does not matter where the run
is based; or it may be given alone, to a run from the root of the store.  The first run takes the
names that the pattern starts with in one step: it makes an address of them, resolves it, and looks
there once.  The second goes from segment to segment.  Both hand out the same
(`absolute_eq_relative`), since literal segments in front of a pattern lead to one node or to none
(`reach_literals`).
-/

namespace Arboretum

/-! ## 1. Binding a base -/

namespace Base

variable {Out : Type} {w : World} {token : Option Nat}

/-- The number of the registry that a run from a base goes by. -/
def registryNumber : Base → Option Nat → Nat
  | .address _, registry => registry.getD commonRegistry
  | .handle h, none => h.registryNumber
  | .handle _, some number => number

/-- **A base is bound** in every registry that came about by registering, and nothing changes. -/
theorem record_bind (base : Base) (registry : Option Nat)
    (hg : (w.registry (base.registryNumber registry)).Sound) :
    ∃ h, w.record token (base.bind registry : Traversal Out (Handle × Nat)) =
      ⟨.finished (h, base.registryNumber registry), [], w⟩ := by
  have hmade : ∀ (uri : String) (number : Nat), (w.registry number).Sound →
      ∃ h, w.record token (do return (← Handle.ofAddress uri (some number), number) :
          Traversal Out (Handle × Nat)) = ⟨.finished (h, number), [], w⟩ := by
    intro uri number hg
    have hmade : w.record token (Handle.ofAddress uri (some number) : Traversal Out Handle) = _ :=
      Handle.record_ofAddress w token (some number) hg uri
    exact ⟨_, World.record_bind_of_finished w token hmade _⟩
  match base, registry, hg with
  | .address uri, registry, hg => exact hmade uri _ hg
  | .handle h, none, _ => exact ⟨h, rfl⟩
  | .handle h, some number, hg =>
    unfold bind
    dsimp only
    split
    · exact ⟨h, rfl⟩
    · exact hmade h.uri number hg

end Base

/-- What a match shows: the address of its handle, the registry it goes by, and the captures. -/
def Match.shown (m : Match) : String × Nat × List String :=
  (m.handle.uri, m.handle.registryNumber, m.captures)

namespace Glob

open Pattern (Segment)

variable {w : World} {token : Option Nat}

/-! ## 2. Literal segments in front -/

theorem moves_of_literal {segment : Segment} {name : String} (hl : segment.literal? = some name)
    (hne : name ≠ Pattern.climbing) (inside : Forest ByteArray) :
    moves segment inside = ((inside.find? name).map fun node => (name, node)).toList := by
  unfold moves
  rw [hl]
  exact if_neg hne

theorem captured_of_literal {segment : Segment} {name : String}
    (hl : segment.literal? = some name) (entry : String) : captured segment entry = [] := by
  unfold captured
  rw [hl]
  rfl

/-- **A literal segment leads to the entry of its name**, if the entry may be gone on from. -/
theorem reach_literal_cons {directoriesOnly : Bool} {segment : Segment} {name : String}
    (hl : segment.literal? = some name) (hne : name ≠ Pattern.climbing) (rest : List Segment)
    (inside : Forest ByteArray) :
    reach directoriesOnly (segment :: rest) (.folder inside) =
      match inside.find? name with
      | none => []
      | some node =>
        if rest.isEmpty || node.isFolder then
          (reach directoriesOnly rest node).map (Reached.andThen ⟨[name], []⟩)
        else [] := by
  rw [reach, moves_of_literal hl hne]
  cases inside.find? name with
  | none => rfl
  | some node =>
    rw [Option.map_some, Option.toList_some, List.filter_cons, List.filter_nil]
    dsimp only
    split
    · rw [List.flatMap_singleton, captured_of_literal hl]
      rfl
    · rfl

/-- **Literal segments lead to one node or to none**, from which the rest goes on.  By induction on
the segments. -/
theorem reach_literals {directoriesOnly : Bool} {literals rest : List Segment} {names : List String}
    (hl : literals.map Segment.literal? = names.map some) (hc : Pattern.climbing ∉ names)
    (inside : Forest ByteArray) :
    reach directoriesOnly (literals ++ rest) (.folder inside) =
      match inside.at? names with
      | none => []
      | some node =>
        if rest.isEmpty || node.isFolder then
          (reach directoriesOnly rest node).map (Reached.andThen ⟨names, []⟩)
        else [] := by
  induction literals generalizing names inside with
  | nil =>
    obtain rfl := List.map_eq_nil_iff.1 hl.symm
    have hsame : Reached.andThen ⟨[], []⟩ = id := funext fun r => rfl
    rw [Forest.at?_nil]
    dsimp only
    rw [hsame, List.map_id, Node.isFolder, Bool.or_true, if_pos rfl]
    rfl
  | cons segment literals ih =>
    obtain ⟨name, names, rfl, hname, hl⟩ : ∃ name more, names = name :: more ∧
        segment.literal? = some name ∧ literals.map Segment.literal? = more.map some := by
      cases names with
      | nil => cases hl
      | cons name more =>
        rw [List.map_cons, List.map_cons] at hl
        exact ⟨name, more, rfl, List.cons.inj hl⟩
    have hne : name ≠ Pattern.climbing := fun he => hc (he ▸ List.mem_cons_self)
    have hc : Pattern.climbing ∉ names := fun hm => hc (List.mem_cons_of_mem name hm)
    rw [List.cons_append, reach_literal_cons hname hne, Forest.at?_cons]
    cases hf : inside.find? name with
    | none => rfl
    | some node =>
      cases node with
      | folder deeper =>
        dsimp only
        rw [Node.isFolder, Bool.or_true, if_pos rfl, ih hl hc]
        cases deeper.at? names with
        | none => rfl
        | some node =>
          dsimp only
          cases rest.isEmpty || node.isFolder with
          | true =>
            rw [if_pos rfl, if_pos rfl, List.map_map]
            rfl
          | false => rfl
      | leaf data =>
        -- A file is the end: no segment may be left.
        cases literals with
        | nil =>
          obtain rfl := List.map_eq_nil_iff.1 hl.symm
          rfl
        | cons first others =>
          cases names with
          | nil => cases hl
          | cons m ms => rfl

/-! ## 3. Starting at the root of a pattern -/

/-- Names behind a first one, written with slashes between them. -/
theorem intercalate_cons (name : String) (names : List String) :
    "/".intercalate (name :: names) = name ++ if names = [] then "" else Path.ofNames names := by
  apply String.toList_inj.1
  have hunfields : ("/".intercalate (name :: names)).toList =
      Path.unfields (name.toList :: names.map String.toList) := String.toList_intercalate
  rw [hunfields, String.toList_append]
  split
  · next hn =>
    subst hn
    simp [Path.unfields]
  · next hn =>
    rw [Path.unfields_cons (by simpa using hn), Path.toList_ofNames]

variable {s : Store} {f : MemoryTree} {settings : Settings} {g : Registry} {p q : Pattern}

/-- The names that a pattern starts with are names of a tree. -/
theorem areNames_literalHead (hfollow : Followable p.segments) : Path.AreNames p.literalHead := by
  obtain ⟨literals, hsegments, hliterals, hclimb⟩ := p.exists_literals
  intro n hn
  have hmem : some n ∈ literals.map Segment.literal? := hliterals ▸ List.mem_map_of_mem hn
  obtain ⟨segment, hm, hl⟩ := List.mem_map.1 hmem
  have hm : segment ∈ p.segments := hsegments ▸ List.mem_append_left _ hm
  exact (hfollow segment hm n hl).resolve_left fun he => hclimb (he ▸ hn)

/-- The address of the mount with names behind it leads to the place of the names. -/
theorem place_intercalate (hg : g.Filed) (ha : g.Alone s) (hs : s.IsMounted)
    (hm : (s.mount, s) ∈ g.mounts) {scheme name : String} (hmount : s.mount = scheme ++ name)
    {names : List String} (hn : Path.AreNames names) :
    g.place (scheme ++ "/".intercalate (name :: names)) = (s, Path.ofNames names) := by
  rw [intercalate_cons, ← String.append_assoc, ← hmount]
  split
  · next hnil =>
    subst hnil
    rw [String.append_empty]
    exact hg.place_mount hs hm
  · exact ha.place_mount_append hg hs hm hn

/-- **A run that starts at the root of its pattern**, a store's mount with some names behind it,
hands out what the segments behind the mount reach from the root of the store. -/
theorem record_fromRoot (hc : w.cancelled token = none) (hg : g.Kept) (hs : s.IsMounted)
    (hf : w.storage.Holds s f) (hfollow : Followable p.segments)
    (hread : ∀ segment ∈ p.segments, ∃ text, Segment.read text = .ok segment)
    {first : Segment} {name : String} (hq : q.segments = first :: p.segments)
    (hfirst : first.literal? = some name) (hname : name ≠ Pattern.climbing)
    (hplace : g.place (q.root.getD "" ++ "/".intercalate q.literalHead) =
      (s, Path.ofNames p.literalHead)) :
    w.record token (fromRoot settings g q) =
      ⟨.finished (), settings.matches s [] []
        (reach settings.directoriesOnly p.segments (.folder f)), w⟩ := by
  obtain ⟨literals, hsegments, hliterals, hclimb⟩ := p.exists_literals
  have hhead := Pattern.literalHead_of_cons hq hfirst hname
  have hn := areNames_literalHead hfollow
  generalize hrest : p.segments.drop p.literalHead.length = rest at hsegments
  have hdrop : q.segments.drop q.literalHead.length = rest := by
    rw [hq, hhead, List.length_cons, List.drop_succ_cons, hrest]
  have hlonger : decide (q.literalHead.length < q.segments.length) = !rest.isEmpty := by
    have hlength : literals.length = p.literalHead.length := by
      have hl := congrArg List.length hliterals
      rwa [List.length_map, List.length_map] at hl
    rw [hq, hhead, hsegments, List.length_cons, List.length_cons, List.length_append, hlength]
    cases rest <;> simp
  have hresolve : w.record token (g.resolve (q.root.getD "" ++ "/".intercalate q.literalHead) :
      Traversal Match (Store × String)) = ⟨.finished (s, Path.ofNames p.literalHead), [], w⟩ :=
    Registry.record_resolve_of_place w token hplace (.inl hs)
  obtain ⟨info, hask, hinfo⟩ := hf.ask_stat hn
  unfold fromRoot
  refine (World.record_bind_of_finished w token hresolve _).trans ?_
  rw [Record.behind_nil]
  dsimp only
  rw [if_neg (hg.ne_void (.inl hs))]
  refine (World.record_call_of_ok hc (World.ask_of_storage hask) _).trans ?_
  rw [hsegments, reach_literals hliterals hclimb]
  cases hat : f.at? p.literalHead with
  | none =>
    rw [hat] at hinfo
    obtain rfl := Option.map_eq_none_iff.1 hinfo
    rfl
  | some node =>
    rw [hat] at hinfo
    obtain ⟨info, rfl, hdir⟩ := Option.map_eq_some_iff.1 hinfo
    have hgate : (decide (q.literalHead.length < q.segments.length) && !info.isDirectory) =
        !(rest.isEmpty || node.isFolder) := by
      rw [hlonger, hdir]
      exact (Bool.not_or _ _).symm
    dsimp only
    rw [hgate, hdrop]
    cases hgo : rest.isEmpty || node.isFolder with
    | false => rfl
    | true =>
      have hfolder : rest ≠ [] → node.isFolder = true := by
        intro hne
        rwa [List.isEmpty_eq_false_iff.2 hne, Bool.false_or] at hgo
      have hmem : ∀ segment ∈ rest, segment ∈ p.segments := fun segment hm =>
        List.mem_of_mem_drop (hrest ▸ hm)
      refine (record_expand hc hs hf (fun segment hm => hfollow segment (hmem segment hm))
        (fun segment hm => hread segment (hmem segment hm)) hn hat hfolder []).trans ?_
      unfold Settings.matches
      rw [if_pos rfl, List.map_map]
      rfl

/-- A run of a pattern whose root is no lone slash starts there, whatever its base. -/
theorem record_run_rooted (hc : w.cancelled token = none) {root : String}
    (hroot : q.root = some root) (hslash : root ≠ "/") (number : Nat) (hinting : Bool)
    (h : Handle) : w.record token (run number hinting h q) =
      w.record token (fromRoot ⟨number, (w.registry number).home, hinting, q.directoriesOnly⟩
        (w.registry number) q) := by
  have hrooted : (isRooted h q : Traversal Match Bool) = .done true := by
    have hno : ¬ q.root = some "/" := fun he => hslash (Option.some.inj (hroot.symm.trans he))
    have hyes : q.isRooted = true := by
      unfold Pattern.isRooted
      rw [hroot]
      rfl
    unfold isRooted
    rw [if_neg hno, hyes]
    rfl
  unfold run
  refine (World.record_checked_of_none hc _).trans ?_
  refine (World.record_routes w token number _).trans ?_
  dsimp only
  rw [hrooted]
  rfl

/-! ## 4. Both globs -/

/-- Without a climbing literal segment that stands for `.` or ends in a blank, the segments of a
pattern may be followed. -/
theorem followable_of_read {text : String} (hp : Pattern.read text = .ok p)
    (hlit : ∀ segment ∈ p.segments, ∀ n, segment.literal? = some n →
      n ≠ "." ∧ Text.endsBlank n.toList = false) : Followable p.segments := by
  intro segment hm n hl
  obtain ⟨hhere, hblank⟩ := hlit segment hm n hl
  by_cases hclimb : n = Pattern.climbing
  · exact .inl hclimb
  · exact .inr (Pattern.isName_of_literal? hp hm hl hhere hclimb hblank)

/-- **Both runs of a pattern hand out the same**: what the segments of the one, behind the mount of
the store, reach from its root, and what the other has there. -/
theorem shown_matches (hdirs : p.segments ≠ [] → q.directoriesOnly = p.directoriesOnly)
    {h : Handle} {number : Nat} (hnumber : h.registryNumber = number)
    (hu : h.uri = g.address s Path.root) (hinting : Bool) :
    (Settings.matches ⟨number, g.home, hinting, q.directoriesOnly⟩ s [] []
      (reach q.directoriesOnly p.segments (.folder f))).map Match.shown =
      (expected g h s [] p f).map Match.shown := by
  subst hnumber
  unfold expected Settings.matches
  by_cases hsegments : p.segments = []
  · rw [if_pos hsegments, hsegments, reach, Node.isFolder, Bool.not_true, Bool.and_false,
      if_neg Bool.false_ne_true]
    simp only [List.map_cons, List.map_nil, Match.shown, hu]
    rfl
  · rw [if_neg hsegments, hdirs hsegments, List.map_map, List.map_map]
    rfl

section Registered

variable {name text : String} {number : Nat} (hc : w.cancelled token = none)
  (hg : (w.registry number).Kept) (ha : (w.registry number).Alone s) (hs : s.IsMounted)
  (hm : (s.mount, s) ∈ (w.registry number).mounts) (hf : w.storage.Holds s f)
  (hfollow : Followable p.segments) (hp : Pattern.read text = .ok p)
include hc hg ha hs hm hf hfollow hp

/-- The pattern behind the mount, from any base that can be bound. -/
theorem record_absolute {base : Base} {registry : Option Nat} {scheme : String} {bound : Handle}
    (hbind : w.record token (base.bind registry : Traversal Match (Handle × Nat)) =
      ⟨.finished (bound, number), [], w⟩) (hscheme : scheme ≠ "/")
    (hmount : s.mount = scheme ++ name) (hn : Path.IsPlain name.toList)
    (hq : Pattern.read (s.mount ++ "/" ++ text) = .ok q) (hroot : q.root = some scheme)
    (hsegments : q.segments = .verbatim name :: p.segments) (hinting : Bool) :
    w.record token (ofText base (s.mount ++ "/" ++ text) registry hinting) =
      ⟨.finished (), Settings.matches
        ⟨number, (w.registry number).home, hinting, q.directoriesOnly⟩ s [] []
        (reach q.directoriesOnly p.segments (.folder f)), w⟩ := by
  have hclimb : name ≠ Pattern.climbing := fun he => hn.ne_above (congrArg String.toList he)
  have hhead := Pattern.literalHead_of_cons hsegments (Segment.literal?_verbatim name) hclimb
  have hplace : (w.registry number).place (q.root.getD "" ++ "/".intercalate q.literalHead) =
      (s, Path.ofNames p.literalHead) := by
    rw [hroot, hhead]
    exact place_intercalate hg.toFiled ha hs hm hmount (areNames_literalHead hfollow)
  rw [ofText_eq_ofPattern hq]
  refine (World.record_bind_of_finished w token hbind _).trans ?_
  rw [Record.behind_nil]
  refine (record_run_rooted hc hroot hscheme number hinting bound).trans ?_
  exact record_fromRoot hc hg hs hf hfollow (Pattern.exists_text_of_read hp) hsegments
    (Segment.literal?_verbatim name) hclimb hplace

/-- The pattern alone, from the handle of the root. -/
theorem record_relative {h : Handle} (hnumber : h.registryNumber = number)
    (hu : h.uri = (w.registry number).address s Path.root)
    (hroot : p.root = none ∨ p.root = some "/") (hinting : Bool) :
    w.record token (ofText (.handle h) text none hinting) =
      ⟨.finished (), expected (w.registry number) h s [] p f, w⟩ := by
  have hpath := hs.isPath_root
  have hback := hg.place_address (.inr ⟨hm, hs⟩) (.inl hs) hpath (ha.not_overlaid hs hpath)
  subst hnumber
  have hresolve : w.record token (h.resolve : Traversal Match (Store × String)) =
      ⟨.finished (s, Path.root), [], w⟩ := by
    refine h.record_resolve_of_place w token ?_ (.inl hs)
    rw [hu, hback, hs.joined_root]
  have hnames : Path.names Path.root = [] := by
    rw [← Path.ofNames_nil]
    exact Path.names_ofNames Path.areNames_nil
  have hat : f.at? (Path.names Path.root) = some (.folder f) := by rw [hnames, Forest.at?_nil]
  have hrun : w.record token (run h.registryNumber hinting h p) = _ :=
    record_run_expected hc hg.void hs hresolve (by decide) hf hat hfollow
      (Pattern.exists_text_of_read hp) hroot
  rw [hnames] at hrun
  rw [ofText_eq_ofPattern hp]
  exact hrun

end Registered

/-- **Absolute and relative globs agree.**  A store in memory is registered under a name without
slashes, wild characters and escapes, with no mount below its own, among stores of any kind; its
tree came about in any way, but no name in it ends in a blank.  A pattern is given behind the mount
of the store, to a run from any base that can be bound, and alone, to a run from the handle of the
store's root.  It names no scheme of its own, and its literal segments neither stand for `.` nor end
in a blank.  Then the handle is made, and both runs end well with the same addresses and captures in
the same order, and change nothing; or the pattern has a flaw, and both report it.

Only a store from outside the library can refuse to bind a base (`Base.record_bind`). -/
theorem absolute_eq_relative (w : World) (token : Option Nat) (hc : w.cancelled token = none)
    (base : Base) (registry own : Option Nat)
    (hown : own.getD commonRegistry = base.registryNumber registry)
    (hbind : ∃ bound, w.record token (base.bind registry : Traversal Match (Handle × Nat)) =
      ⟨.finished (bound, base.registryNumber registry), [], w⟩)
    (hg : (w.registry (base.registryNumber registry)).Grown) (s : Store) (name : String)
    (hmount : s.mount = Store.memoryScheme ++ name) (hk : s.kind = .memory)
    (hn : Path.IsPlain name.toList) (hv : Pattern.IsVerbatim name)
    (hknown : (w.registry (base.registryNumber registry)).get? s.mount = some s)
    (halone : (w.registry (base.registryNumber registry)).Alone s) (hgrown : w.storage.Grown s)
    (hb : ∀ ns, ((w.storage.memory s.id).at? ns).isSome = true →
      ∀ n ∈ ns, Text.endsBlank n.toList = false)
    (text : String) (ht : Address.hasScheme text = false)
    (hlit : ∀ p, Pattern.read text = .ok p → ∀ segment ∈ p.segments, ∀ n,
      segment.literal? = some n → n ≠ "." ∧ Text.endsBlank n.toList = false)
    (hinting hinting' : Bool) :
    ∃ h, w.record token (Handle.ofAddress (s.mount ++ "/") own : Traversal Match Handle) =
        ⟨.finished h, [], w⟩ ∧
      let absolute := w.run token (ofText base (s.mount ++ "/" ++ text) registry hinting)
      let relative := w.run token (ofText (.handle h) text none hinting')
      match Pattern.read text with
      | .error flaw => absolute = (.failed (.invalidPattern (s.mount ++ "/" ++ text) flaw), w) ∧
          relative = (.failed (.invalidPattern text flaw), w)
      | .ok _ => ∃ found found' : List Match,
          absolute = (.finished (found, ()), w) ∧ relative = (.finished (found', ()), w) ∧
            found.map Match.shown = found'.map Match.shown := by
  have hs : s.IsMounted := by
    obtain ⟨id, mount, kind⟩ := s
    obtain rfl : mount = Store.memoryScheme ++ name := hmount
    obtain rfl : kind = .memory := hk
    exact .memory id name
  have hf := hgrown.holds hk hb
  generalize hnumber : base.registryNumber registry = number at *
  obtain ⟨bound, hbind⟩ := hbind
  have hkept := hg.kept
  have hm := Registry.mem_of_get? hknown
  have hplace : (w.registry number).place (s.mount ++ "/") = (s, Path.root) :=
    halone.place_mount_append hkept.toFiled hs hm Path.areNames_nil
  have hcanonical : (w.registry number).canonicalText (s.mount ++ "/") =
      (w.registry number).address s Path.root := by
    unfold Registry.canonicalText
    rw [hplace, if_neg (hkept.ne_void (.inl hs))]
  let h : Handle := ⟨(w.registry number).address s Path.root, own⟩
  have hhandle : h.registryNumber = number := hown
  refine ⟨h, ?_, ?_⟩
  · have hresolve : w.record token ((w.registry number).resolve (s.mount ++ "/") :
        Traversal Match (Store × String)) =
          ⟨.finished ((w.registry number).place (s.mount ++ "/")), [], w⟩ := by
      rw [hplace]
      exact Registry.record_resolve_of_place w token hplace (.inl hs)
    rw [← hown] at hresolve
    rw [Handle.record_ofAddress_of_resolve w token own hresolve, hown, hcanonical]
  obtain ⟨hflaw, hpattern⟩ := Pattern.read_behind_mount hn hv ht
  have htext : Pattern.behindMount (Store.memoryScheme ++ name) text = s.mount ++ "/" ++ text := by
    rw [← hmount]
    rfl
  rw [htext] at hflaw hpattern
  dsimp only
  rw [World.run_eq_of_record, World.run_eq_of_record]
  cases hp : Pattern.read text with
  | error flaw =>
    rw [ofText_of_error hp, ofText_of_error (hflaw flaw hp)]
    exact ⟨rfl, rfl⟩
  | ok p =>
    obtain ⟨hroot, q, hq, hqroot, hsegments, hdirs⟩ := hpattern p hp
    have hfollow := followable_of_read hp (hlit p hp)
    rw [record_absolute hc hkept halone hs hm hf hfollow hp hbind (by decide) hmount hn hq hqroot
        hsegments,
      record_relative hc hkept halone hs hm hf hfollow hp hhandle rfl hroot]
    exact ⟨_, _, rfl, rfl, shown_matches hdirs hhandle rfl hinting⟩

/-- A wild segment and a literal one, behind the mount and alone. -/
theorem absolute_eq_relative_small :
    ∃ h, World.small.record none (Handle.ofAddress "mem://a/" none : Traversal Match Handle) =
        ⟨.finished h, [], World.small⟩ ∧
      ∃ found found' : List Match,
        World.small.run none (ofText (.address "") "mem://a/*/x" none true) =
          (.finished (found, ()), World.small) ∧
        World.small.run none (ofText (.handle h) "*/x" none false) =
          (.finished (found', ()), World.small) ∧
        found.map Match.shown = found'.map Match.shown := by
  let p : Pattern := ⟨"*/x", [⟨"*", [.anyRun]⟩, ⟨"x", [.char 'x']⟩], false, none⟩
  have hread : Pattern.read "*/x" = .ok p := by decide +kernel
  obtain ⟨f, hf⟩ := World.built_small.exists_holds
  have hnames : ∀ ns, ((World.small.storage.memory 2).at? ns).isSome = true →
      ∀ n ∈ ns, Text.endsBlank n.toList = false := by
    obtain rfl : World.small.storage.memory 2 = f := hf.1
    intro ns hs n hn
    have hv : (World.small.storage.memory 2).view ns ≠ none := by
      rw [Ne, Forest.view_eq_none_iff]
      exact Option.isSome_iff_ne_none.1 hs
    exact (Forest.areNames_of_view hf.orderly hv n hn).2
  obtain ⟨h, hmade, hboth⟩ := absolute_eq_relative World.small none rfl (.address "") none none rfl
    (Base.record_bind (.address "") none World.reachable_small.sound) World.reachable_small.grown
    ⟨2, "mem://a", .memory⟩ "a" rfl rfl (by decide) (by decide) (by decide +kernel)
    (by decide +kernel) World.built_small.grown hnames "*/x" (by decide +kernel)
    (by
      intro q hq segment hm n hl
      obtain rfl := Except.ok.inj (hread.symm.trans hq)
      rcases List.mem_cons.1 hm with rfl | hm
      · cases hl
      · obtain rfl := List.mem_singleton.1 hm
        obtain rfl := Option.some.inj hl
        decide +kernel) true false
  rw [hread] at hboth
  exact ⟨h, hmade, hboth⟩

end Glob

end Arboretum
