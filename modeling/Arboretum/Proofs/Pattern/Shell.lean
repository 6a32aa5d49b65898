import Mathlib.Data.List.Forall2
import Arboretum.Pattern.Shell
import Arboretum.Proofs.Pattern.Reading

/-!
# The shell reads hints alike

A segment gives its text away as a hint only when the text has neither escapes nor a caret in front
of a class.  On such texts the shell's reading and the segment's own agree: `covers_hint`.  The two
take a class apart in different ways (character by character against hyphen by hyphen), so the work
is in the classes: `scan_low` follows both through one class, from the start of a member on.
-/

namespace Arboretum.Pattern

/-! ## 1. Items that cover alike -/

/-- Two items cover the same pieces of a text. -/
def Item.Alike : Item → Item → Prop
  | .oneOf cls, .oneOf cls' => ∀ c, cls.covers c = cls'.covers c
  | item, item' => item = item'

theorem Item.Alike.refl (item : Item) : item.Alike item := by
  cases item with
  | oneOf cls => exact fun _ => rfl
  | char c => exact rfl
  | anyOne => exact rfl
  | anyRun => exact rfl

/-- **Lists of items that cover alike** match the same texts. -/
theorem covers_congr {items items' : List Item} (h : List.Forall₂ Item.Alike items items')
    (cs : List Char) : covers items cs = covers items' cs := by
  induction h generalizing cs with
  | nil => rfl
  | @cons item item' items items' hi _ ih =>
    have hall : covers items = covers items' := funext ih
    cases item with
    | char d =>
      have he : item' = .char d := by cases item' <;> exact hi.symm
      subst he
      cases cs with
      | nil => rfl
      | cons c cs => simp only [covers, hall]
    | anyOne =>
      have he : item' = .anyOne := by cases item' <;> exact hi.symm
      subst he
      cases cs with
      | nil => rfl
      | cons c cs => simp only [covers, hall]
    | anyRun =>
      have he : item' = .anyRun := by cases item' <;> exact hi.symm
      subst he
      simp only [covers, hall]
    | oneOf cls =>
      cases item' with
      | oneOf cls' =>
        have hc : ∀ c, cls.covers c = cls'.covers c := hi
        cases cs with
        | nil => rfl
        | cons c cs => simp only [covers, hall, hc]
      | char d => cases hi
      | anyOne => cases hi
      | anyRun => cases hi

/-! ## 2. Chunks -/

namespace Shell

/-- Characters in front of a chunk stay in front of it. -/
theorem chunksFrom_append (skip : Nat) (chunk front cs : List Char) :
    ∃ h t, chunksFrom skip chunk cs = h :: t ∧
      chunksFrom skip (chunk ++ front) cs = (front.reverse ++ h) :: t := by
  induction cs generalizing skip chunk with
  | nil =>
    refine ⟨chunk.reverse, [], ?_, ?_⟩
    · cases skip <;> rfl
    · cases skip <;> simp [chunksFrom]
  | cons c cs ih =>
    cases skip with
    | succ skip => exact ih skip (c :: chunk)
    | zero =>
      by_cases hc : c = '-'
      · refine ⟨chunk.reverse, chunksFrom 2 [] cs, ?_, ?_⟩
        · rw [chunksFrom, if_pos hc]
        · rw [chunksFrom, if_pos hc, List.reverse_append]
      · obtain ⟨h, t, h1, h2⟩ := ih 0 (c :: chunk)
        refine ⟨h, t, ?_, ?_⟩
        · rw [chunksFrom, if_neg hc, h1]
        · rw [chunksFrom, if_neg hc]
          exact h2

/-- Mending the end of a list of chunks leaves the start of the first one. -/
theorem mendLast_append (front h : List Char) (t : List (List Char)) :
    ∃ k t', mendLast (h :: t) = (h ++ k) :: t' ∧ mendLast ((front ++ h) :: t) = (front ++ h ++ k) :: t'
    := by
  match t with
  | [] => exact ⟨[], [], by simp [mendLast], by simp [mendLast]⟩
  | [[]] => exact ⟨['-'], [], by simp [mendLast], by simp [mendLast]⟩
  | (c :: chunk) :: t =>
    exact ⟨[], mendLast ((c :: chunk) :: t), by simp [mendLast], by simp [mendLast]⟩
  | [] :: chunk :: t =>
    exact ⟨[], mendLast ([] :: chunk :: t), by simp [mendLast], by simp [mendLast]⟩

/-- The chunks from the first character of a member on. -/
def chunksAt (start : Char) (cs : List Char) : List (List Char) := mendLast (chunksFrom 0 [start] cs)

/-- The chunks start with that character, whatever stands in front of it. -/
theorem chunksAt_append (start : Char) (front cs : List Char) :
    ∃ k t, chunksAt start cs = (start :: k) :: t ∧
      mendLast (chunksFrom 0 (start :: front) cs) = (front.reverse ++ start :: k) :: t := by
  obtain ⟨h, t, h1, h2⟩ := chunksFrom_append 0 [] [start] cs
  obtain ⟨h', t', h1', h2'⟩ := chunksFrom_append 0 [start] front cs
  have hstart : chunksFrom 0 [start] cs = (start :: h) :: t := h2
  rw [hstart] at h1'
  obtain ⟨rfl, rfl⟩ := List.cons.inj h1'
  obtain ⟨k, t', hk, hk'⟩ := mendLast_append front.reverse (start :: h) t
  refine ⟨h ++ k, t', ?_, ?_⟩
  · rw [chunksAt, hstart, hk]
    rfl
  · rw [show start :: front = [start] ++ front from rfl, h2', hk', List.append_assoc]
    rfl

/-- A member by itself goes into the chunk of the next one. -/
theorem chunksAt_cons (start : Char) {c : Char} (hc : c ≠ '-') (cs : List Char) :
    ∃ k t, chunksAt c cs = (c :: k) :: t ∧ chunksAt start (c :: cs) = (start :: c :: k) :: t := by
  obtain ⟨k, t, h1, h2⟩ := chunksAt_append c [start] cs
  refine ⟨k, t, h1, ?_⟩
  rw [chunksAt, chunksFrom, if_neg hc, h2]
  rfl

/-- A span ends one chunk and starts the next one. -/
theorem chunksAt_span_cons (low high c : Char) (cs : List Char) :
    ∃ k t, chunksAt c cs = (c :: k) :: t ∧
      chunksAt low ('-' :: high :: c :: cs) = [low] :: (high :: c :: k) :: t := by
  obtain ⟨k, t, h1, h2⟩ := chunksAt_append c [high] cs
  refine ⟨k, t, h1, ?_⟩
  have hcut : chunksAt low ('-' :: high :: c :: cs) =
      mendLast ([low] :: chunksFrom 0 [c, high] cs) := rfl
  have hmend : mendLast ([low] :: chunksFrom 0 [c, high] cs) =
      [low] :: mendLast (chunksFrom 0 [c, high] cs) := by
    obtain ⟨h', t'', -, h4⟩ := chunksFrom_append 0 [] [c, high] cs
    have hne : chunksFrom 0 [c, high] cs = (high :: c :: h') :: t'' := h4
    rw [hne, mendLast]
    simp
  rw [hcut, hmend, h2]
  rfl

/-! ## 3. Spans of chunks -/

/-- A cut between two chunks whose span is not reversed. -/
def Rises (chunk next : List Char) : Prop :=
  ∀ low ∈ chunk.getLast?, ∀ high ∈ next.head?, low.toNat ≤ high.toNat

/-- Without reversed spans nothing is taken out. -/
theorem dropReversed_of_rises {chunks : List (List Char)} (h : chunks.IsChain Rises) :
    dropReversed chunks = chunks := by
  induction chunks with
  | nil => rfl
  | cons chunk chunks ih =>
    rw [dropReversed]
    cases chunks with
    | nil => rfl
    | cons next rest =>
      obtain ⟨hrise, hrest⟩ := List.isChain_cons_cons.1 h
      rw [ih hrest]
      dsimp only
      split
      · next low high hl hh => rw [if_neg (Nat.not_lt.2 (hrise low hl high hh))]
      · rfl

/-- A character in front of a chunk is a span of its own. -/
theorem spans_cons (a c : Char) (k : List Char) (t : List (List Char)) :
    spans ((a :: c :: k) :: t) = .single a :: spans ((c :: k) :: t) := by
  cases t with
  | nil => rfl
  | cons next rest =>
    rw [spans, spans, List.getLast?_cons_cons]
    split <;> rfl

theorem isChain_cons (a c : Char) (k : List Char) (t : List (List Char)) :
    List.IsChain Rises ((a :: c :: k) :: t) ↔ List.IsChain Rises ((c :: k) :: t) := by
  cases t with
  | nil => simp
  | cons next rest =>
    rw [List.isChain_cons_cons, List.isChain_cons_cons, Rises, Rises, List.getLast?_cons_cons]

end Shell

/-! ## 4. One class, both ways -/

open Shell (chunksAt spans Rises)

/-- Some span of a list covers a character. -/
def anyCovers (ss : List Span) (c : Char) : Bool := ss.any (·.covers c)

theorem anyCovers_cons (s : Span) (ss : List Span) (c : Char) :
    anyCovers (s :: ss) c = (s.covers c || anyCovers ss c) := rfl

theorem anyCovers_reverse (ss : List Span) (c : Char) : anyCovers ss.reverse c = anyCovers ss c := by
  simp [anyCovers, List.any_reverse]

theorem single_covers (a c : Char) : (Span.single a).covers c = (a == c) := by
  unfold Span.covers Span.single
  dsimp only
  by_cases h : a = c
  · simp [h]
  · have hne : a.toNat ≠ c.toNat := fun he => h (Char.toNat_inj.1 he)
    have hf : (a == c) = false := by simpa using h
    rw [hf, Bool.and_eq_false_iff, decide_eq_false_iff_not, decide_eq_false_iff_not]
    omega

/-- The ends of a span that is not reversed are in it. -/
theorem span_covers_ends {low high : Char} (h : low.toNat ≤ high.toNat) (c : Char) :
    ((low == c) || ((⟨low, high⟩ : Span).covers c || (high == c))) = (⟨low, high⟩ : Span).covers c := by
  unfold Span.covers
  dsimp only
  by_cases hl : low = c
  · subst hl
    simp [h]
  · by_cases hh : high = c
    · subst hh
      simp [h]
    · have h1 : (low == c) = false := by simpa using hl
      have h2 : (high == c) = false := by simpa using hh
      rw [h1, h2, Bool.false_or, Bool.or_false]

/-- **A class read to its end**: where it ends, the item it is, and that the shell finds the same
characters in it from a member on that starts with `start`. -/
structure ReadsClass (draft : OpenClass) (start : Char) (cs : List Char) (items : List Item)
    (inside rest : List Char) (cls : CharClass) (tail : List Item) : Prop where
  text : cs = inside ++ ']' :: rest
  no_bracket : ']' ∉ inside
  items : items = .oneOf cls :: tail
  tail : scan .outside rest = .ok tail
  negation : cls.negation = draft.negation
  rises : (chunksAt start inside).IsChain Rises
  covers : ∀ c, anyCovers cls.spans c =
    (anyCovers draft.spans c || anyCovers (spans (chunksAt start inside)) c)

section ReadsClass

variable {draft : OpenClass} {start : Char} {cs inside rest : List Char} {items tail : List Item}
  {cls : CharClass}

/-- The class ends behind the first character of its last member, -/
theorem readsClass_last (draft : OpenClass) (start : Char) (ht : scan .outside rest = .ok tail) :
    ReadsClass draft start (']' :: rest) (.oneOf (draft.add (.single start)).close :: tail) [] rest
      (draft.add (.single start)).close tail where
  text := rfl
  no_bracket := List.not_mem_nil
  items := rfl
  tail := ht
  negation := rfl
  rises := .singleton _
  covers c := by
    have hadd : anyCovers (draft.add (.single start)).spans c =
      ((Span.single start).covers c || anyCovers draft.spans c) := rfl
    have hspans : anyCovers (spans (chunksAt start [])) c = ((Span.single start).covers c || false) :=
      rfl
    rw [OpenClass.close, anyCovers_reverse, hadd, hspans, Bool.or_false, Bool.or_comm]

/-- or behind a hyphen, which then is a member, -/
theorem readsClass_hyphen (draft : OpenClass) (start : Char) (ht : scan .outside rest = .ok tail) :
    ReadsClass draft start ('-' :: ']' :: rest)
      (.oneOf ((draft.add (.single start)).add (.single '-')).close :: tail) ['-'] rest
      ((draft.add (.single start)).add (.single '-')).close tail where
  text := rfl
  no_bracket := by decide
  items := rfl
  tail := ht
  negation := rfl
  rises := .singleton _
  covers c := by
    have hadd : anyCovers ((draft.add (.single start)).add (.single '-')).spans c =
      ((Span.single '-').covers c || ((Span.single start).covers c || anyCovers draft.spans c)) := rfl
    have hspans : anyCovers (spans (chunksAt start ['-'])) c =
      ((Span.single start).covers c || ((Span.single '-').covers c || false)) := rfl
    rw [OpenClass.close, anyCovers_reverse, hadd, hspans, Bool.or_false, ← Bool.or_assoc,
      Bool.or_comm, Bool.or_comm ((Span.single '-').covers c)]

/-- A span that is not reversed rises. -/
theorem rises_of_le {low high : Char} (h : low.toNat ≤ high.toNat) (k : List Char) :
    Rises [low] (high :: k) := by
  intro l hl r hr
  cases Option.some.inj hl
  cases Option.some.inj hr
  exact h

/-- or behind a span. -/
theorem readsClass_span (draft : OpenClass) {start d : Char} (hle : start.toNat ≤ d.toNat)
    (hd : d ≠ ']') (ht : scan .outside rest = .ok tail) :
    ReadsClass draft start ('-' :: d :: ']' :: rest) (.oneOf (draft.add ⟨start, d⟩).close :: tail)
      ['-', d] rest (draft.add ⟨start, d⟩).close tail where
  text := rfl
  no_bracket := by simpa using Ne.symm hd
  items := rfl
  tail := ht
  negation := rfl
  rises := List.isChain_cons_cons.2 ⟨rises_of_le hle [], .singleton _⟩
  covers c := by
    have hadd : anyCovers (draft.add ⟨start, d⟩).spans c =
      ((⟨start, d⟩ : Span).covers c || anyCovers draft.spans c) := rfl
    have hspans : anyCovers (spans (chunksAt start ['-', d])) c = ((Span.single start).covers c ||
      ((⟨start, d⟩ : Span).covers c || ((Span.single d).covers c || false))) := rfl
    rw [OpenClass.close, anyCovers_reverse, hadd, hspans, Bool.or_false, single_covers,
      single_covers, span_covers_ends hle, Bool.or_comm]

/-- **A member by itself** in front of a class that is read alike. -/
theorem ReadsClass.member {c : Char} (h : ReadsClass (draft.add (.single start)) c cs items inside
    rest cls tail) (hc : c ≠ '-') (hb : c ≠ ']') :
    ReadsClass draft start (c :: cs) items (c :: inside) rest cls tail := by
  obtain ⟨k, t, h1, h2⟩ := Shell.chunksAt_cons start hc inside
  refine ⟨by rw [h.text]; rfl, ?_, h.items, h.tail, h.negation, ?_, fun x => ?_⟩
  · exact List.not_mem_cons_of_ne_of_not_mem (Ne.symm hb) h.no_bracket
  · rw [h2, Shell.isChain_cons, ← h1]
    exact h.rises
  · have hadd : anyCovers (draft.add (.single start)).spans x =
      ((Span.single start).covers x || anyCovers draft.spans x) := rfl
    rw [h.covers x, h2, Shell.spans_cons, ← h1, anyCovers_cons, hadd,
      Bool.or_comm ((Span.single start).covers x), Bool.or_assoc]

/-- **A span** in front of a class that is read alike. -/
theorem ReadsClass.span {d e : Char} (h : ReadsClass (draft.add ⟨start, d⟩) e cs items inside rest
    cls tail) (hle : start.toNat ≤ d.toNat) (hd : d ≠ ']') (he : e ≠ ']') :
    ReadsClass draft start ('-' :: d :: e :: cs) items ('-' :: d :: e :: inside) rest cls tail := by
  obtain ⟨k, t, h1, h2⟩ := Shell.chunksAt_span_cons start d e inside
  refine ⟨by rw [h.text]; rfl, ?_, h.items, h.tail, h.negation, ?_, fun x => ?_⟩
  · refine List.not_mem_cons_of_ne_of_not_mem (by decide) ?_
    refine List.not_mem_cons_of_ne_of_not_mem (Ne.symm hd) ?_
    exact List.not_mem_cons_of_ne_of_not_mem (Ne.symm he) h.no_bracket
  · rw [h2, List.isChain_cons_cons, Shell.isChain_cons, ← h1]
    exact ⟨rises_of_le hle (e :: k), h.rises⟩
  · have hadd : anyCovers (draft.add ⟨start, d⟩).spans x =
      ((⟨start, d⟩ : Span).covers x || anyCovers draft.spans x) := rfl
    have hspans : anyCovers (spans ([start] :: (d :: e :: k) :: t)) x =
      ((Span.single start).covers x || ((⟨start, d⟩ : Span).covers x ||
        anyCovers (spans ((d :: e :: k) :: t)) x)) := rfl
    rw [h.covers x, h2, hadd, hspans, Shell.spans_cons, ← h1, anyCovers_cons, single_covers,
      single_covers, ← span_covers_ends hle x]
    cases start == x <;> cases (⟨start, d⟩ : Span).covers x <;> cases d == x <;>
      cases anyCovers draft.spans x <;> rfl

end ReadsClass

/-- A text without backslashes, one character in. -/
theorem no_escape_cons {c : Char} {cs : List Char} (h : '\\' ∉ c :: cs) : c ≠ '\\' ∧ '\\' ∉ cs :=
  ⟨fun he => h (he ▸ List.mem_cons_self), fun hm => h (List.mem_cons_of_mem c hm)⟩

/-- A member that starts, or the end of the class. -/
theorem stepMember_cases {draft : OpenClass} {c : Char} {step : Step} (hb : c ≠ '\\')
    (h : stepMember draft c = step) :
    (c = ']' ∧ step = (some (.oneOf draft.close), .outside)) ∨
      (c ≠ ']' ∧ step = (none, .low draft c)) := by
  unfold stepMember stepFirst at h
  by_cases hc : c = ']'
  · rw [if_pos hc] at h
    exact .inl ⟨hc, h.symm⟩
  · rw [if_neg hc, if_neg hb] at h
    exact .inr ⟨hc, h.symm⟩

/-- **Behind a hyphen** the class ends, or a span does; then the class goes on with another
member, which is known to be read. -/
theorem scan_hyphen {n : Nat} (hmember : ∀ {draft : OpenClass} {start : Char} {cs : List Char}
      {items : List Item}, cs.length ≤ n → scan (.low draft start) cs = .ok items → '\\' ∉ cs →
      ∃ inside rest cls tail, ReadsClass draft start cs items inside rest cls tail)
    {draft : OpenClass} {start : Char} {cs : List Char} {items : List Item} (hlen : cs.length ≤ n)
    (h : scan (.hyphen draft start) cs = .ok items) (hb : '\\' ∉ cs) :
    ∃ inside rest cls tail, ReadsClass draft start ('-' :: cs) items inside rest cls tail := by
  cases cs with
  | nil => cases (scan_nil_eq_ok h).1
  | cons d cs =>
    obtain ⟨hbd, hbs⟩ := no_escape_cons hb
    rw [List.length_cons] at hlen
    obtain ⟨item, next, tail, hs, ht, rfl⟩ := scan_cons_eq_ok h
    rw [Place.step] at hs
    by_cases hd : d = ']'
    · subst hd
      rw [if_pos rfl, stepMember, if_pos rfl] at hs
      obtain ⟨rfl, rfl⟩ := Prod.mk.inj (Except.ok.inj hs)
      exact ⟨_, _, _, _, readsClass_hyphen draft start ht⟩
    · rw [if_neg hd, if_neg hbd, stepHigh] at hs
      by_cases hrev : d.toNat < start.toNat
      · rw [if_pos hrev] at hs
        cases hs
      · have hle : start.toNat ≤ d.toNat := Nat.not_lt.1 hrev
        rw [if_neg hrev] at hs
        obtain ⟨rfl, rfl⟩ := Prod.mk.inj (Except.ok.inj hs)
        cases cs with
        | nil => cases (scan_nil_eq_ok ht).1
        | cons e cs =>
          obtain ⟨hbe, hbs⟩ := no_escape_cons hbs
          rw [List.length_cons] at hlen
          obtain ⟨item, next, tail, hs, ht, rfl⟩ := scan_cons_eq_ok ht
          rw [Place.step] at hs
          rcases stepMember_cases hbe (Except.ok.inj hs) with ⟨rfl, he⟩ | ⟨hend, he⟩
          · obtain ⟨rfl, rfl⟩ := Prod.mk.inj he
            exact ⟨_, _, _, _, readsClass_span draft hle hd ht⟩
          · obtain ⟨rfl, rfl⟩ := Prod.mk.inj he
            obtain ⟨inside, rest, cls, tail', hr⟩ := hmember (by omega) ht hbs
            exact ⟨_, _, _, _, hr.span hle hd hend⟩

/-- **Both readings of a class**, from behind the first character of a member.  By induction on
the length of the text: a member by itself goes into the shell's chunk, a span cuts it. -/
theorem scan_low (n : Nat) {draft : OpenClass} {start : Char} {cs : List Char} {items : List Item}
    (hlen : cs.length ≤ n) (h : scan (.low draft start) cs = .ok items) (hb : '\\' ∉ cs) :
    ∃ inside rest cls tail, ReadsClass draft start cs items inside rest cls tail := by
  induction n generalizing draft start cs items with
  | zero =>
    obtain rfl := List.length_eq_zero_iff.1 (Nat.le_zero.1 hlen)
    cases (scan_nil_eq_ok h).1
  | succ n ih =>
    cases cs with
    | nil => cases (scan_nil_eq_ok h).1
    | cons c cs =>
      obtain ⟨hbc, hbs⟩ := no_escape_cons hb
      rw [List.length_cons] at hlen
      obtain ⟨item, next, tail, hs, ht, rfl⟩ := scan_cons_eq_ok h
      rw [Place.step] at hs
      have hs := Except.ok.inj hs
      by_cases hc : c = '-'
      · subst hc
        rw [if_pos rfl] at hs
        obtain ⟨rfl, rfl⟩ := Prod.mk.inj hs
        exact scan_hyphen ih (by omega) ht hbs
      · rw [if_neg hc] at hs
        rcases stepMember_cases hbc hs with ⟨rfl, he⟩ | ⟨hend, he⟩
        · obtain ⟨rfl, rfl⟩ := Prod.mk.inj he
          exact ⟨_, _, _, _, readsClass_last draft start ht⟩
        · obtain ⟨rfl, rfl⟩ := Prod.mk.inj he
          obtain ⟨inside, rest, cls, tail', hr⟩ := ih (by omega) ht hbs
          exact ⟨_, _, _, _, hr.member hc hend⟩

/-! ## 5. Whole classes -/

/-- What stands in front of the first closing bracket. -/
theorem takeWhile_bracket {xs : List Char} (h : ']' ∉ xs) (rest : List Char) :
    (xs ++ ']' :: rest).takeWhile (· != ']') = xs := by
  have hall : ∀ x ∈ xs, (x != ']') = true := by
    intro x hx
    have hne : x ≠ ']' := fun he => h (he ▸ hx)
    simpa using hne
  rw [List.takeWhile_append_of_pos hall, List.takeWhile_cons_of_neg (by simp), List.append_nil]

/-- The shell finds the end of a class behind its first member, -/
theorem inside?_unmarked {c : Char} (hc : c ≠ '!') {inside : List Char} (h : ']' ∉ inside)
    (rest : List Char) : Shell.inside? (c :: inside ++ ']' :: rest) = some (c :: inside) := by
  have hmem : ∀ xs : List Char, ']' ∈ xs ++ ']' :: rest := fun xs =>
    List.mem_append_right xs List.mem_cons_self
  have htake := takeWhile_bracket h rest
  unfold Shell.inside?
  by_cases hb : c = ']'
  · subst hb
    simp [hmem, htake]
  · have hne : (c != ']') = true := by simpa using hb
    simp [hc, hb, hne, hmem, htake]

/-- also when it is negated. -/
theorem inside?_bang (c : Char) {inside : List Char} (h : ']' ∉ inside) (rest : List Char) :
    Shell.inside? ('!' :: c :: inside ++ ']' :: rest) = some ('!' :: c :: inside) := by
  have hmem : ∀ xs : List Char, ']' ∈ xs ++ ']' :: rest := fun xs =>
    List.mem_append_right xs List.mem_cons_self
  have htake := takeWhile_bracket h rest
  unfold Shell.inside?
  by_cases hb : c = ']'
  · subst hb
    simp [hmem, htake]
  · have hne : (c != ']') = true := by simpa using hb
    simp [hb, hne, hmem, htake]

/-- The shell's item for a class that is not negated, -/
theorem classItem_unmarked {c : Char} (hc : c ≠ '!') {inside : List Char}
    (h : (chunksAt c inside).IsChain Rises) :
    Shell.classItem (c :: inside) = .oneOf ⟨.unmarked, spans (chunksAt c inside)⟩ := by
  have hchunks : Shell.chunks (c :: inside) = chunksAt c inside := by
    have hhead : ¬ (c :: inside).head? = some '!' := fun he => hc (Option.some.inj he)
    rw [Shell.chunks, if_neg hhead]
    rfl
  obtain ⟨k, t, h1, -⟩ := Shell.chunksAt_append c [] inside
  rw [Shell.classItem, hchunks, Shell.dropReversed_of_rises h, h1]
  split
  · next he => exact absurd (List.cons.inj (List.cons.inj he).1).1 hc
  · next he => exact absurd (List.cons.inj (List.cons.inj he).1).1 hc
  · rfl

/-- and for one that is. -/
theorem classItem_bang (c : Char) {inside : List Char} (h : (chunksAt c inside).IsChain Rises) :
    Shell.classItem ('!' :: c :: inside) = .oneOf ⟨.bang, spans (chunksAt c inside)⟩ := by
  obtain ⟨k, t, h1, h2⟩ := Shell.chunksAt_append c ['!'] inside
  have hchunks : Shell.chunks ('!' :: c :: inside) = ('!' :: c :: k) :: t := h2
  rw [h1] at h ⊢
  have hrises : List.IsChain Rises (('!' :: c :: k) :: t) := (Shell.isChain_cons '!' c k t).2 h
  rw [Shell.classItem, hchunks, Shell.dropReversed_of_rises hrises]
  cases t <;> rfl

/-- Two classes of one negation cover alike when their spans do. -/
theorem alike_of_spans {cls cls' : CharClass} (hn : cls.negation = cls'.negation)
    (h : ∀ c, anyCovers cls.spans c = anyCovers cls'.spans c) :
    (Item.oneOf cls).Alike (.oneOf cls') := by
  intro c
  have hc : cls.spans.any (·.covers c) = cls'.spans.any (·.covers c) := h c
  rw [CharClass.covers, CharClass.covers, hn, hc]

/-- **A class, from its opening bracket on**, is the same for the shell. -/
theorem scan_opening {cs : List Char} {items : List Item} (h : scan .opening cs = .ok items)
    (hb : '\\' ∉ cs) (hcaret : ∀ cls, Item.oneOf cls ∈ items → cls.negation ≠ .caret) :
    ∃ inside rest cls tail, cs = inside ++ ']' :: rest ∧ Shell.inside? cs = some inside ∧
      items = .oneOf cls :: tail ∧ scan .outside rest = .ok tail ∧
      (Item.oneOf cls).Alike (Shell.classItem inside) := by
  cases cs with
  | nil => cases (scan_nil_eq_ok h).1
  | cons c cs =>
    obtain ⟨hbc, hbs⟩ := no_escape_cons hb
    obtain ⟨item, next, tail, hs, ht, rfl⟩ := scan_cons_eq_ok h
    rw [Place.step] at hs
    have hs := Except.ok.inj hs
    -- Behind a negation mark the first member is still to come.
    have hfirst : ∀ {draft : OpenClass}, scan (.first draft) cs = .ok tail →
        ∃ d ds, cs = d :: ds ∧ ∃ inside rest cls tail',
          ReadsClass draft d ds tail inside rest cls tail' := by
      intro draft ht
      cases cs with
      | nil => cases (scan_nil_eq_ok ht).1
      | cons d ds =>
        obtain ⟨hbd, hbs⟩ := no_escape_cons hbs
        obtain ⟨item, next, tail, hs, ht, rfl⟩ := scan_cons_eq_ok ht
        rw [Place.step, stepFirst, if_neg hbd] at hs
        obtain ⟨rfl, rfl⟩ := Prod.mk.inj (Except.ok.inj hs)
        exact ⟨d, ds, rfl, scan_low ds.length (Nat.le_refl _) ht hbs⟩
    by_cases hbang : c = '!'
    · subst hbang
      rw [if_pos rfl] at hs
      obtain ⟨rfl, rfl⟩ := Prod.mk.inj hs
      obtain ⟨d, ds, rfl, inside, rest, cls, tail', hr⟩ := hfirst ht
      refine ⟨'!' :: d :: inside, rest, cls, tail', by rw [hr.text]; rfl, ?_, hr.items, hr.tail, ?_⟩
      · rw [hr.text]
        exact inside?_bang d hr.no_bracket rest
      · rw [classItem_bang d hr.rises]
        exact alike_of_spans hr.negation fun x => hr.covers x
    · rw [if_neg hbang] at hs
      by_cases hc : c = '^'
      · rw [if_pos hc] at hs
        obtain ⟨rfl, rfl⟩ := Prod.mk.inj hs
        obtain ⟨d, ds, rfl, inside, rest, cls, tail', hr⟩ := hfirst ht
        have hm : Item.oneOf cls ∈ tail := hr.items ▸ List.mem_cons_self
        exact absurd hr.negation (hcaret cls hm)
      · rw [if_neg hc, stepFirst, if_neg hbc] at hs
        obtain ⟨rfl, rfl⟩ := Prod.mk.inj hs
        obtain ⟨inside, rest, cls, tail', hr⟩ := scan_low cs.length (Nat.le_refl _) ht hbs
        refine ⟨c :: inside, rest, cls, tail', by rw [hr.text]; rfl, ?_, hr.items, hr.tail, ?_⟩
        · rw [hr.text]
          exact inside?_unmarked hbang hr.no_bracket rest
        · rw [classItem_unmarked hbang hr.rises]
          exact alike_of_spans hr.negation fun x => hr.covers x

/-! ## 6. Whole texts -/

/-- Characters that are read already are passed over. -/
theorem itemsFrom_skip (xs ys : List Char) :
    Shell.itemsFrom xs.length (xs ++ ys) = Shell.itemsFrom 0 ys := by
  induction xs with
  | nil => rfl
  | cons x xs ih =>
    rw [List.length_cons, List.cons_append, Shell.itemsFrom]
    exact ih

/-- **Both readings of a text** without escapes and carets, item by item. -/
theorem alike_itemsFrom (n : Nat) {cs : List Char} {items : List Item} (hlen : cs.length ≤ n)
    (h : scan .outside cs = .ok items) (hb : '\\' ∉ cs)
    (hcaret : ∀ cls, Item.oneOf cls ∈ items → cls.negation ≠ .caret) :
    List.Forall₂ Item.Alike items (Shell.itemsFrom 0 cs) := by
  induction n generalizing cs items with
  | zero =>
    obtain rfl := List.length_eq_zero_iff.1 (Nat.le_zero.1 hlen)
    rw [(scan_nil_eq_ok h).2]
    exact .nil
  | succ n ih =>
    cases cs with
    | nil =>
      rw [(scan_nil_eq_ok h).2]
      exact .nil
    | cons c cs =>
      obtain ⟨hbc, hbs⟩ := no_escape_cons hb
      rw [List.length_cons] at hlen
      obtain ⟨item, next, tail, hs, ht, rfl⟩ := scan_cons_eq_ok h
      have htail : ∀ cls, Item.oneOf cls ∈ tail → cls.negation ≠ .caret := fun cls hm =>
        hcaret cls (List.mem_append_right _ hm)
      rw [Place.step, stepOutside, if_neg hbc] at hs
      have hs := Except.ok.inj hs
      rw [Shell.itemsFrom]
      by_cases hstar : c = '*'
      · rw [if_pos hstar] at hs ⊢
        obtain ⟨rfl, rfl⟩ := Prod.mk.inj hs
        exact .cons (Item.Alike.refl .anyRun) (ih (by omega) ht hbs htail)
      rw [if_neg hstar] at hs ⊢
      by_cases hone : c = '?'
      · rw [if_pos hone] at hs ⊢
        obtain ⟨rfl, rfl⟩ := Prod.mk.inj hs
        exact .cons (Item.Alike.refl .anyOne) (ih (by omega) ht hbs htail)
      rw [if_neg hone] at hs ⊢
      by_cases hopen : c = '['
      · rw [if_pos hopen] at hs ⊢
        obtain ⟨rfl, rfl⟩ := Prod.mk.inj hs
        obtain ⟨inside, rest, cls, tail', htext, hin, rfl, htr, halike⟩ := scan_opening ht hbs htail
        rw [hin]
        dsimp only
        have hbr : '\\' ∉ rest := fun hm =>
          hbs (htext ▸ List.mem_append_right _ (List.mem_cons_of_mem _ hm))
        have hrest : Shell.itemsFrom (inside.length + 1) cs = Shell.itemsFrom 0 rest := by
          have hskip := itemsFrom_skip (inside ++ [']']) rest
          rw [List.length_append, List.append_assoc] at hskip
          rw [htext]
          exact hskip
        have hlen' : rest.length ≤ n := by
          have hl := congrArg List.length htext
          rw [List.length_append, List.length_cons] at hl
          omega
        rw [hrest]
        exact .cons halike (ih hlen' htr hbr fun cls' hm => htail cls' (List.mem_cons_of_mem _ hm))
      · rw [if_neg hopen] at hs ⊢
        obtain ⟨rfl, rfl⟩ := Prod.mk.inj hs
        exact .cons (Item.Alike.refl (.char c)) (ih (by omega) ht hbs htail)

/-- A hint is the text of a wild segment without escapes and carets. -/
theorem Segment.of_hint? {segment : Segment} {hint : String} (h : segment.hint? = some hint) :
    hint = segment.text ∧ '\\' ∉ segment.text.toList ∧
      ∀ cls, Item.oneOf cls ∈ segment.items → cls.negation ≠ .caret := by
  unfold Segment.hint? at h
  split at h
  · next hw =>
    have hplain := (Bool.and_eq_true _ _ ▸ hw).2
    unfold Segment.isPlainShell at hplain
    rw [Bool.and_eq_true, decide_eq_true_eq, List.all_eq_true] at hplain
    refine ⟨(Option.some.inj h).symm, hplain.1, fun cls hm => ?_⟩
    simpa using hplain.2 (.oneOf cls) hm
  · cases h

/-- **The shell reads a hint as the segment does.** -/
theorem covers_hint {text hint : String} {segment : Segment}
    (h : Segment.read text = .ok segment) (hh : segment.hint? = some hint) (name : String) :
    Shell.covers hint name = segment.covers name := by
  obtain ⟨htext, hscan⟩ := Segment.of_read h
  obtain ⟨rfl, hb, hcaret⟩ := Segment.of_hint? hh
  rw [htext] at hb ⊢
  have halike := alike_itemsFrom text.toList.length (Nat.le_refl _) hscan hb hcaret
  exact (covers_congr halike name.toList).symm

end Arboretum.Pattern
