import Arboretum.Proofs.Pattern.Like
import Arboretum.Proofs.Registry.Places
import Arboretum.Proofs.Store.Hints
import Arboretum.Proofs.Store.Listed

/-!
# What a listing keeps

The hints of a list of name patterns never hide a name that passes the patterns (`passes_hints`):
either every pattern has a hint, and then the one that the name matches lets it pass, or no hint is
given at all.  The visitor looks at every name again and stops when it has enough; so what it keeps
is the first of the entries whose names pass, as many as asked for (`offer_keep`), and nothing is
offered to it afterwards (`noted_keep`).

An unbounded listing thus keeps exactly the entries whose names pass (`record_bounded`), a bounded
one the first of them (`bounded_exact`), whatever the store does with hints.
-/

namespace Arboretum

/-! ## 1. Hints of several patterns -/

/-- Every element has its image in the result. -/
theorem exists_of_mapM_eq_some {α β : Type} {f : α → Option β} {xs : List α} {ys : List β}
    (h : xs.mapM f = some ys) {x : α} (hx : x ∈ xs) : ∃ y ∈ ys, f x = some y := by
  induction xs generalizing ys with
  | nil => exact absurd hx List.not_mem_nil
  | cons first xs ih =>
    rw [List.mapM_cons] at h
    cases hf : f first with
    | none =>
      rw [hf] at h
      cases h
    | some y =>
      cases hm : xs.mapM f with
      | none =>
        rw [hf, hm] at h
        cases h
      | some others =>
        rw [hf, hm] at h
        obtain rfl := Option.some.inj h
        rcases List.mem_cons.1 hx with rfl | hx
        · exact ⟨y, List.mem_cons_self, hf⟩
        · obtain ⟨z, hz, hfz⟩ := ih hm hx
          exact ⟨z, List.mem_cons_of_mem y hz, hfz⟩

namespace Pattern

/-- A name that passes one of several hints passes them all together, for the shell, -/
theorem Shell.passes_of_mem {hints : List String} {hint name : String} (hm : hint ∈ hints)
    (h : Shell.passes [hint] name = true) : Shell.passes hints name = true := by
  have hcovers : Shell.covers hint name = true := by simpa [Shell.passes] using h
  unfold Shell.passes
  rw [Bool.or_eq_true, List.any_eq_true]
  exact .inr ⟨hint, hm, hcovers⟩

/-- and in a table. -/
theorem Like.passes_of_mem {hints : List String} {hint name : String} (hm : hint ∈ hints)
    (h : Like.passes [hint] name = true) : Like.passes hints name = true := by
  have hne : hints.isEmpty = false := List.isEmpty_eq_false_iff.2 (List.ne_nil_of_mem hm)
  unfold Like.passes Like.filter?
  rw [hne, if_neg Bool.false_ne_true]
  cases hlikes : hints.mapM Like.textOf? with
  | none => rfl
  | some likes =>
    obtain ⟨like, hlike, htext⟩ := exists_of_mapM_eq_some hlikes hm
    have hcovers : Like.covers like name = true := by
      simpa [Like.passes, Like.filter?, htext] using h
    exact List.any_eq_true.2 ⟨like, hlike, hcovers⟩

end Pattern

namespace Listing

/-- Name patterns that can be read are read as segments. -/
theorem exists_read_of_readNames {patterns : List String} {segments : List Pattern.Segment}
    (h : readNames patterns = .ok segments) {segment : Pattern.Segment} (hm : segment ∈ segments) :
    ∃ text, Pattern.Segment.read text = .ok segment := by
  induction patterns generalizing segments with
  | nil =>
    obtain rfl := Except.ok.inj h
    exact absurd hm List.not_mem_nil
  | cons text patterns ih =>
    rw [readNames] at h
    cases hr : Pattern.Segment.readName text with
    | error flaw =>
      rw [hr] at h
      cases h
    | ok first =>
      cases hs : readNames patterns with
      | error fault =>
        rw [hr, hs] at h
        cases h
      | ok others =>
        rw [hr, hs] at h
        obtain rfl := Except.ok.inj h
        rcases List.mem_cons.1 hm with rfl | hm
        · unfold Pattern.Segment.readName at hr
          split at hr
          · cases hr
          · exact ⟨text, hr⟩
        · exact ih hs hm

/-- **A name that passes the patterns passes their hints**, in every store. -/
theorem passes_hints {patterns : List String} {segments : List Pattern.Segment}
    (hp : readNames patterns = .ok segments) (s : Store) {name : String}
    (h : Pattern.passes segments name = true) : s.passes (hints segments) name = true := by
  have hnone : s.passes [] name = true := by
    unfold Store.passes
    cases s.kind <;> rfl
  unfold hints
  cases hall : segments.mapM Pattern.Segment.hint? with
  | none => exact hnone
  | some given =>
    rcases (Bool.or_eq_true _ _).mp h with hempty | hany
    · obtain rfl := List.isEmpty_iff.1 hempty
      obtain rfl := Option.some.inj hall
      exact hnone
    · obtain ⟨segment, hm, hcovers⟩ := List.any_eq_true.1 hany
      obtain ⟨text, hread⟩ := exists_read_of_readNames hp hm
      obtain ⟨hint, hgiven, hhint⟩ := exists_of_mapM_eq_some hall hm
      have hshell := Pattern.Shell.passes_of_mem hgiven
        (Pattern.shell_passes_of_covers hread hhint hcovers)
      unfold Store.passes
      cases s.kind with
      | memory => exact hshell
      | disk => exact hshell
      | table number space =>
        exact Pattern.Like.passes_of_mem hgiven (Pattern.like_passes_of_covers hread hhint hcovers)
      | void => rfl
      | outside label abilities => rfl

/-! ## 2. The visitor -/

/-- **The first `bound` of some entries**; a negative bound leaves them all. -/
def cut (bound : Int) (entries : List Entry) : List Entry :=
  if bound < 0 then entries else entries.take bound.toNat

/-- What fits is left whole. -/
theorem cut_of_room {bound : Int} {entries : List Entry}
    (h : bound < 0 ∨ (entries.length : Int) ≤ bound) : cut bound entries = entries := by
  unfold cut
  split
  · rfl
  · next hneg => exact List.take_of_length_le (by omega)

/-- What fills the bound is all that is left. -/
theorem cut_append {bound : Int} {entries more : List Entry}
    (h : (entries.length : Int) = bound) : cut bound (entries ++ more) = entries := by
  have hlength : bound.toNat = entries.length := by omega
  unfold cut
  rw [if_neg (by omega), hlength, List.take_left]

/-- **The visitor keeps the first entries that pass**, as many as there is room for.  By induction on
the entries: it goes on exactly while there is room. -/
theorem offer_keep {bound : Int} (segments : List Pattern.Segment) (entries : List Entry)
    {kept : List Entry} (hroom : bound < 0 ∨ (kept.length : Int) < bound) :
    (offer (keep bound segments) entries kept).reverse =
      cut bound (kept.reverse ++ entries.filter fun e => Pattern.passes segments e.name) := by
  induction entries generalizing kept with
  | nil =>
    rw [List.filter_nil, List.append_nil, cut_of_room (by rw [List.length_reverse]; omega)]
    rfl
  | cons entry entries ih =>
    unfold offer keep
    dsimp only
    cases hp : Pattern.passes segments entry.name with
    | false =>
      have hmore : (decide (bound < 0) || decide ((kept.length : Int) < bound)) = true := by
        simpa using hroom
      rw [if_neg Bool.false_ne_true, hmore, List.filter_cons_of_neg (by simp [hp])]
      exact ih hroom
    | true =>
      rw [if_pos rfl, List.filter_cons_of_pos (by simpa using hp)]
      cases hmore : decide (bound < 0) || decide (((entry :: kept).length : Int) < bound) with
      | true =>
        have hstill : bound < 0 ∨ ((entry :: kept).length : Int) < bound := by simpa using hmore
        refine (ih hstill).trans ?_
        rw [List.reverse_cons, List.append_assoc]
        rfl
      | false =>
        obtain ⟨hpos, hfull⟩ : ¬ bound < 0 ∧ ¬ ((entry :: kept).length : Int) < bound := by
          simpa using hmore
        rw [List.length_cons] at hfull
        rw [List.append_cons, cut_append]
        · simp
        · rw [List.length_append, List.length_reverse, List.length_singleton]
          omega

/-- The visitor that also notes the entries which it is shown. -/
def noting {σ : Type} (visit : σ → Entry → σ × Bool) (seen : σ × List Entry) (entry : Entry) :
    (σ × List Entry) × Bool :=
  (((visit seen.1 entry).1, seen.2 ++ [entry]), (visit seen.1 entry).2)

/-- Noting makes no difference. -/
theorem fst_offer_noting {σ : Type} (visit : σ → Entry → σ × Bool) (entries : List Entry)
    (seen : σ) (notes : List Entry) :
    (offer (noting visit) entries (seen, notes)).1 = offer visit entries seen := by
  induction entries generalizing seen notes with
  | nil => rfl
  | cons entry entries ih =>
    unfold offer noting
    dsimp only
    rcases visit seen entry with ⟨next, _ | _⟩
    · rfl
    · exact ih next _

/-- **Nothing is shown behind the entry that fills the bound.**  By induction on the entries before
it. -/
theorem noted_keep {bound : Int} (segments : List Pattern.Segment) {earlier later kept notes : List Entry}
    {e : Entry} (he : Pattern.passes segments e.name = true)
    (hfull : (kept.length : Int) +
      (earlier.filter fun e => Pattern.passes segments e.name).length + 1 = bound) :
    (offer (noting (keep bound segments)) (earlier ++ e :: later) (kept, notes)).2 =
      notes ++ (earlier ++ [e]) := by
  induction earlier generalizing kept notes with
  | nil =>
    rw [List.filter_nil, List.length_nil] at hfull
    have hstop : (decide (bound < 0) || decide (((e :: kept).length : Int) < bound)) = false := by
      rw [List.length_cons, Bool.or_eq_false_iff, decide_eq_false_iff_not, decide_eq_false_iff_not]
      omega
    rw [List.nil_append]
    unfold offer noting keep
    dsimp only
    rw [he, if_pos rfl, hstop]
    rfl
  | cons first earlier ih =>
    rw [List.cons_append]
    unfold offer noting keep
    dsimp only
    cases hp : Pattern.passes segments first.name with
    | false =>
      rw [List.filter_cons_of_neg (by simp [hp])] at hfull
      have hmore : (decide (bound < 0) || decide ((kept.length : Int) < bound)) = true := by
        rw [Bool.or_eq_true, decide_eq_true_eq, decide_eq_true_eq]
        omega
      rw [if_neg Bool.false_ne_true, hmore]
      refine (ih hfull).trans ?_
      rw [List.append_assoc]
      rfl
    | true =>
      rw [List.filter_cons_of_pos (by simpa using hp), List.length_cons] at hfull
      have hmore : (decide (bound < 0) || decide (((first :: kept).length : Int) < bound)) = true := by
        rw [List.length_cons, Bool.or_eq_true, decide_eq_true_eq, decide_eq_true_eq]
        omega
      rw [if_pos rfl, hmore]
      refine (ih (by rw [List.length_cons]; omega)).trans ?_
      rw [List.append_assoc]
      rfl

/-! ## 3. Listings -/

variable {Out : Type} {w : World} {token : Option Nat} {h : Handle} {s : Store} {f : MemoryTree}
  {place : List String} {inside : Forest ByteArray} {patterns : List String}
  {segments : List Pattern.Segment} {path : String} {entries : List Entry}

/-- What passes the patterns passes their hints, so these narrow nothing away from it. -/
theorem filter_hints (hp : readNames patterns = .ok segments) (s : Store) (entries : List Entry) :
    (entries.filter fun e => s.passes (hints segments) e.name).filter
        (fun e => Pattern.passes segments e.name) =
      entries.filter fun e => Pattern.passes segments e.name := by
  rw [List.filter_filter]
  refine List.filter_congr fun e _ => ?_
  cases he : Pattern.passes segments e.name with
  | true => rw [passes_hints hp s he]; rfl
  | false => rfl

/-- **A listing with a bound** of a directory that its store can list: the first of the entries that
pass. -/
theorem record_bounded_of_list (hc : w.cancelled token = none)
    (hresolve : w.record token (h.resolve : Traversal Out (Store × String)) =
      ⟨.finished (s, path), [], w⟩) (hp : readNames patterns = .ok segments)
    (hlist : (w.ask s (.list path [])).1 = .ok entries) (bound : Int) :
    w.record token (bounded h bound patterns : Traversal Out (List Entry)) =
      ⟨.finished (cut bound (entries.filter fun e => Pattern.passes segments e.name)), [], w⟩ := by
  have hasked : w.ask s (.list path (hints segments)) =
      (.ok (entries.filter fun e => s.passes (hints segments) e.name), w) := by
    refine Prod.ext ?_ (w.world_of_look s rfl)
    rw [World.ask_list, hlist]
    rfl
  unfold bounded
  rw [hp]
  refine (World.record_bind_of_finished w token hresolve _).trans ?_
  rw [Record.behind_nil]
  by_cases hzero : bound = 0
  · subst hzero
    rfl
  · dsimp only
    rw [if_neg hzero]
    refine (World.record_call_of_ok hc hasked _).trans ?_
    refine (World.record_checked_of_none hc _).trans ?_
    rw [offer_keep segments _ (by rw [List.length_nil]; omega), List.reverse_nil, List.nil_append,
      filter_hints hp]
    rfl

/-- **An unbounded listing** of a directory of a tree keeps the entries whose names pass. -/
theorem record_bounded (hc : w.cancelled token = none) (hl : h.LeadsTo w s place)
    (hf : w.storage.Holds s f) (hat : f.at? place = some (.folder inside))
    (hp : readNames patterns = .ok segments) :
    w.record token (bounded h (-1) patterns : Traversal Out (List Entry)) =
      ⟨.finished ((Storage.entriesOf inside).filter fun e => Pattern.passes segments e.name), [],
        w⟩ := by
  have hlist := World.ask_of_storage (hf.ask_list hl.names hat)
  exact record_bounded_of_list hc hl.record_resolve hp (congrArg Prod.fst hlist) (-1)

/-- **A bounded listing is the start of the full one.**  A handle resolves to a path that its store can
list, and the name patterns can be read.  The full listing is in name order; a listing with a bound
brings the entries of it whose names match one of the patterns, or all without patterns, and of
these the first `bound`, unless the bound is negative.  The hints narrow what is offered to the
visitor; and for a positive bound the visitor sees nothing behind the entry that fills it. -/
theorem bounded_exact (w : World) (token : Option Nat) (hc : w.cancelled token = none) (h : Handle)
    (s : Store) (path : String)
    (hresolve : w.record token (h.resolve : Traversal Out (Store × String)) =
      ⟨.finished (s, path), [], w⟩)
    (hproper : w.storage.Proper s) (entries : List Entry)
    (hlist : (w.ask s (.list path [])).1 = .ok entries) (patterns : List String)
    (segments : List Pattern.Segment) (hp : readNames patterns = .ok segments) (bound : Int) :
    let kept := entries.filter fun e => Pattern.passes segments e.name
    entries.Pairwise (fun a b => a.name ≤ b.name) ∧
    w.record token (bounded h bound patterns : Traversal Out (List Entry)) =
      ⟨.finished (if 0 ≤ bound then kept.take bound.toNat else kept), [], w⟩ ∧
    ∃ offered, (w.ask s (.list path (hints segments))).1 = .ok offered ∧
      (offered.filter fun e => Pattern.passes segments e.name) = kept ∧
      (offer (noting (keep bound segments)) offered ([], [])).1 =
        offer (keep bound segments) offered [] ∧
      (0 < bound → ∀ earlier e later, offered = earlier ++ e :: later →
        Pattern.passes segments e.name = true →
        ((earlier.filter fun e => Pattern.passes segments e.name).length : Int) + 1 = bound →
        (offer (noting (keep bound segments)) offered ([], [])).2 = earlier ++ [e]) := by
  intro kept
  have hcut : cut bound kept = if 0 ≤ bound then kept.take bound.toNat else kept := by
    unfold cut
    by_cases hneg : bound < 0
    · rw [if_pos hneg, if_neg (by omega)]
    · rw [if_neg hneg, if_pos (by omega)]
  refine ⟨hproper.ordered_list hlist, ?_, entries.filter fun e => s.passes (hints segments) e.name, ?_,
    filter_hints hp s entries, fst_offer_noting _ _ _ _, ?_⟩
  · rw [← hcut]
    exact record_bounded_of_list hc hresolve hp hlist bound
  · rw [World.ask_list, hlist]
    rfl
  · rintro - earlier e later he hpass hfull
    rw [he, noted_keep segments hpass (by rw [List.length_nil]; omega), List.nil_append]

/-- Three files and a directory; one of two patterns has no hint, and with the bound 2 the directory is
not shown to the visitor. -/
theorem bounded_exact_small :
    let s : Store := ⟨2, "mem://a", .memory⟩
    let w₁ := (World.small.ask s (.write "/ac" .empty)).2
    let w₂ := (w₁.ask s (.write "/aa" .empty)).2
    let w := (w₂.ask s (.write "/ab" .empty)).2
    let segments : List Pattern.Segment :=
      [⟨"a[c]", [.char 'a', .oneOf ⟨.unmarked, [.single 'c']⟩]⟩, ⟨"\\aa", [.char 'a', .char 'a']⟩]
    readNames ["a[c]", "\\aa"] = .ok segments ∧
    w.record none (bounded ⟨"mem://a/", none⟩ 2 ["a[c]", "\\aa"] : Traversal Empty (List Entry)) =
      ⟨.finished [⟨"aa", false⟩, ⟨"ac", false⟩], [], w⟩ ∧
    ∃ offered, (w.ask s (.list "/" (hints segments))).1 = .ok offered ∧
      offered = [⟨"aa", false⟩, ⟨"ab", false⟩, ⟨"ac", false⟩, ⟨"b", true⟩] ∧
      (offer (noting (keep 2 segments)) offered ([], [])).2 =
        [⟨"aa", false⟩, ⟨"ab", false⟩, ⟨"ac", false⟩] := by
  intro s w₁ w₂ w segments
  have hplace : (w.registry commonRegistry).place "mem://a/" = (s, "/") := by decide +kernel
  have hresolve : w.record none ((⟨"mem://a/", none⟩ : Handle).resolve :
      Traversal Empty (Store × String)) = ⟨.finished (s, "/"), [], w⟩ := by
    rw [← hplace]
    exact Handle.record_resolve w none World.reachable_small.sound
  have hgrown : w.storage.Grown s :=
    ((World.built_small.grown.ask s (.write "/ac" .empty)).ask s (.write "/aa" .empty)).ask s
      (.write "/ab" .empty)
  have hproper : w.storage.Proper s := ⟨fun _ => hgrown, nofun, nofun⟩
  have hread : readNames ["a[c]", "\\aa"] = .ok segments := by decide +kernel
  let entries : List Entry := [⟨"aa", false⟩, ⟨"ab", false⟩, ⟨"ac", false⟩, ⟨"b", true⟩]
  have hlist : (w.ask s (.list "/" [])).1 = .ok entries := by decide +kernel
  have hhinted : (w.ask s (.list "/" (hints segments))).1 = .ok entries := by decide +kernel
  obtain ⟨-, hrun, offered, hoffered, -, -, hnoted⟩ := bounded_exact w none rfl ⟨"mem://a/", none⟩ s
    "/" hresolve hproper entries hlist ["a[c]", "\\aa"] segments hread 2
  have hkept : (entries.filter fun e => Pattern.passes segments e.name).take 2 =
      [⟨"aa", false⟩, ⟨"ac", false⟩] := by decide +kernel
  obtain rfl := Except.ok.inj (hhinted.symm.trans hoffered)
  refine ⟨hread, hrun.trans (congrArg (Record.mk · [] w) (congrArg _ hkept)), entries, hhinted, rfl, ?_⟩
  exact hnoted (by decide) [⟨"aa", false⟩, ⟨"ab", false⟩] ⟨"ac", false⟩ [⟨"b", true⟩] rfl
    (by decide +kernel) (by decide +kernel)

end Listing

end Arboretum
