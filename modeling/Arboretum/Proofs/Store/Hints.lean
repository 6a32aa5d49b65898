import Arboretum.Proofs.Pattern.Meaning
import Arboretum.Proofs.Pattern.Shell
import Arboretum.Proofs.Store.Building
import Arboretum.Proofs.Traversal.Recording

/-!
# Hints narrow listings and nothing else

Whatever keeps a tree, the listing of a directory with hints is the listing without them, narrowed
to the names that pass (`ask_list`).  A directory is narrowed before links are followed and before
entries are sorted; neither makes a difference.  A tree in memory and the disk read a hint as the shell
does, and so as the segment that it is the hint of: their listings lose nothing that the segment
matches, and hold nothing else (`list_of_hint`).
-/

namespace Arboretum

/-- **A name passes the hints** of a listing, by the rules of the store; a store without a tree has
none. -/
def Store.passes (s : Store) (hints : List String) (name : String) : Bool :=
  match s.kind with
  | .memory => Pattern.Shell.passes hints name
  | .disk => Pattern.Shell.passes hints name
  | .table _ _ => Pattern.Like.passes hints name
  | .void => true
  | .outside _ _ => true

theorem MemoryTree.list_filter (t : MemoryTree) (path : String) (hints : List String) :
    t.list path hints = (t.list path []).map
      (List.filter fun e => Pattern.Shell.passes hints e.name) := by
  have hall : ∀ es : List Entry, (es.filter fun e => Pattern.Shell.passes [] e.name) = es :=
    fun es => List.filter_eq_self.2 fun _ _ => rfl
  unfold MemoryTree.list
  split
  · rfl
  · rfl
  · rw [hall]
    rfl

namespace Disk

variable (d : Disk) (path : String)

/-- Settling an offer keeps its name. -/
theorem name_of_settle {offer : Offer} {e : Entry} (h : d.settle path offer = some e) :
    e.name = offer.name := by
  cases offer with
  | known entry =>
    cases Option.some.inj h
    rfl
  | link name =>
    unfold settle at h
    dsimp only at h
    split at h
    · cases Option.some.inj h
      rfl
    · cases Option.some.inj h
      rfl
    · cases Option.some.inj h
      rfl
    · cases h

/-- Offers may be narrowed before or after they are settled. -/
theorem filterMap_settle (p : String → Bool) (offers : List Offer) :
    (offers.filter fun offer => p offer.name).filterMap (d.settle path) =
      (offers.filterMap (d.settle path)).filter fun e => p e.name := by
  induction offers with
  | nil => rfl
  | cons offer offers ih =>
    cases hs : d.settle path offer with
    | none =>
      rw [List.filterMap_cons_none hs, ← ih]
      cases hp : p offer.name with
      | true =>
        rw [List.filter_cons_of_pos (p := fun o : Offer => p o.name) hp, List.filterMap_cons_none hs]
      | false => rw [List.filter_cons_of_neg (by simp [hp])]
    | some e =>
      have hname := name_of_settle d path hs
      rw [List.filterMap_cons_some hs]
      cases hp : p offer.name with
      | true =>
        have hpe : p e.name = true := hname ▸ hp
        rw [List.filter_cons_of_pos (p := fun o : Offer => p o.name) hp,
          List.filterMap_cons_some hs, ih, List.filter_cons_of_pos (p := fun e : Entry => p e.name) hpe]
      | false =>
        have hpe : p e.name = false := hname ▸ hp
        rw [List.filter_cons_of_neg (by simp [hp]), ih, List.filter_cons_of_neg (by simp [hpe])]

/-- What a directory offers with hints. -/
theorem offers_filter (hints : List String) :
    d.offers path hints = (d.offers path []).map
      (List.filter fun offer => Pattern.Shell.passes hints offer.name) := by
  have hall : ∀ os : List Offer, (os.filter fun o => Pattern.Shell.passes [] o.name) = os :=
    fun os => List.filter_eq_self.2 fun _ _ => rfl
  unfold offers
  dsimp only
  split
  · rfl
  · rfl
  · rfl
  · split
    · rw [hall]
      rfl
    · rfl

theorem list_filter (hints : List String) :
    d.list path hints = (d.list path []).map
      (List.filter fun e => Pattern.Shell.passes hints e.name) := by
  unfold list
  rw [offers_filter]
  cases d.offers path [] with
  | error f => rfl
  | ok offers =>
    show Except.ok _ = Except.ok _
    rw [filterMap_settle]

end Disk

namespace World

variable (w : World) (s : Store) (path : String) (hints : List String)

/-- A call that only looks leaves the world as it is. -/
theorem world_of_look {c : Call} (hc : c.changes = false) : (w.ask s c).2 = w := by
  have hstorage : (w.storage.ask s c).2 = w.storage := w.storage.ask_of_look s hc
  unfold ask
  show { w with storage := (w.storage.ask s c).2 } = w
  rw [hstorage]

/-- **A listing with hints** is the one without them, narrowed. -/
theorem ask_list : ((w.ask s (.list path hints)).1 : Except Fault (List Entry)) =
    ((w.ask s (.list path [])).1 : Except Fault (List Entry)).map
      (List.filter fun e => s.passes hints e.name) := by
  have hask : ∀ hs, (w.ask s (.list path hs)).1 = (w.storage.ask s (.list path hs)).1 := fun _ => rfl
  rw [hask, hask]
  cases hk : s.kind with
  | memory =>
    have hpass : s.passes hints = Pattern.Shell.passes hints := by
      funext name
      rw [Store.passes, hk]
    simp only [Storage.ask, hk, hpass, Storage.askMemory]
    rw [MemoryTree.list_filter]
  | table number space =>
    have hpass : s.passes hints = Pattern.Like.passes hints := by
      funext name
      rw [Store.passes, hk]
    simp only [Storage.ask, hk, hpass, Storage.askTable]
    rw [Table.list_filter]
  | disk =>
    have hpass : s.passes hints = Pattern.Shell.passes hints := by
      funext name
      rw [Store.passes, hk]
    simp only [Storage.ask, hk, hpass, Storage.askDisk]
    rw [Disk.list_filter]
  | void =>
    rw [Storage.ask, Storage.ask, hk]
    rfl
  | outside label abilities =>
    rw [Storage.ask, Storage.ask, hk]
    rfl

variable (token : Option Nat) {Out β : Type}

/-- Listing a directory in a run, and going on. -/
theorem record_all (next : List Entry → Traversal Out β) :
    w.record token ((Listing.all s path hints).bind next) = match w.cancelled token with
      | some reason => ⟨.failed (.cancelled reason), [], w⟩
      | none => match ((w.ask s (.list path [])).1 : Except Fault (List Entry)) with
        | .ok entries => w.record token (next (entries.filter fun e => s.passes hints e.name))
        | .error f => ⟨.failed (f.reported .list s path), [], w⟩ := by
  have hall : (Listing.all s path hints : Traversal Out _).bind next =
      (Traversal.call s path (.list path hints)).bind fun entries =>
        Traversal.checked.bind fun _ => next entries :=
    Traversal.bind_assoc _ _ _
  rw [hall, record_call]
  cases hc : w.cancelled token with
  | some reason => rfl
  | none =>
    dsimp only
    rw [w.world_of_look s rfl, ask_list]
    cases ((w.ask s (.list path [])).1 : Except Fault (List Entry)) with
    | error f => rfl
    | ok entries =>
      show w.record token (Traversal.checked.bind fun _ => next _) = _
      rw [record_checked, hc]

/-- **A hint is exact.**  The shell's reading of a segment's hint matches what the matcher of the segment
does, and the segment itself; so in memory and on disk the listing of a directory with the hint is
the listing of it all, narrowed to the names that the segment matches. -/
theorem list_of_hint {text hint : String} {segment : Pattern.Segment}
    (h : Pattern.Segment.read text = .ok segment) (hh : segment.hint? = some hint) :
    (∃ matcher, segment.matcher? = some matcher ∧ ∀ name,
      (Pattern.Shell.covers hint name = true ↔ matcher.covers name = true) ∧
      (Pattern.Shell.covers hint name = true ↔ segment.covers name = true)) ∧
    ∀ (w : World) (s : Store) (path : String), s.kind = .memory ∨ s.kind = .disk →
      ((w.ask s (.list path [hint])).1 : Except Fault (List Entry)) =
        ((w.ask s (.list path [])).1 : Except Fault (List Entry)).map
          (List.filter fun e => segment.covers e.name) := by
  have hcovers : ∀ name, Pattern.Shell.covers hint name = segment.covers name :=
    Pattern.covers_hint h hh
  obtain ⟨matcher, hmatcher, hsame⟩ := Pattern.Segment.matcher?_covers h
  refine ⟨⟨matcher, hmatcher, fun name => ?_⟩, fun w s path hk => ?_⟩
  · rw [hcovers, hsame]
    exact ⟨Iff.rfl, Iff.rfl⟩
  · have hshell : ∀ name, Pattern.Shell.passes [hint] name = segment.covers name := by
      intro name
      rw [← hcovers name]
      exact Bool.or_false _
    have hpass : s.passes [hint] = segment.covers := by
      funext name
      rw [← hshell name]
      unfold Store.passes
      rcases hk with hk | hk <;> rw [hk]
    rw [ask_list, hpass]

/-- A class of a span that starts with a bracket, an exclamation mark and a hyphen: in a listing with that
hint are the names that start with one of them. -/
theorem list_of_hint_class :
    let s : Store := ⟨2, "mem://a", .memory⟩
    let marked := ((initial ⟨.empty, []⟩).ask s (.write "/^" .empty)).2
    let w := ((marked.ask s (.write "/-c" .empty)).2.ask s (.write "/b-" .empty)).2
    ∃ segment, Pattern.Segment.read "[]-a!-]*" = .ok segment ∧ segment.hint? = some "[]-a!-]*" ∧
      Pattern.Shell.covers "[]-a!-]*" "b-" = false ∧
      ((w.ask s (.list "/" ["[]-a!-]*"])).1 : Except Fault (List Entry)) =
        .ok [⟨"-c", false⟩, ⟨"^", false⟩] := by
  intro s marked w
  have hread : Pattern.Segment.read "[]-a!-]*" = .ok ⟨"[]-a!-]*",
      [.oneOf ⟨.unmarked, [⟨']', 'a'⟩, .single '!', .single '-']⟩, .anyRun]⟩ := by decide +kernel
  have hhint : (⟨"[]-a!-]*", [.oneOf ⟨.unmarked, [⟨']', 'a'⟩, .single '!', .single '-']⟩,
      .anyRun]⟩ : Pattern.Segment).hint? = some "[]-a!-]*" := by decide +kernel
  obtain ⟨⟨matcher, -, hcovers⟩, hlist⟩ := list_of_hint hread hhint
  refine ⟨_, hread, hhint, ?_, ?_⟩
  · rw [Bool.eq_false_iff, ne_eq, (hcovers "b-").2]
    decide +kernel
  · rw [hlist w s "/" (.inl rfl)]
    decide +kernel

end World

end Arboretum
