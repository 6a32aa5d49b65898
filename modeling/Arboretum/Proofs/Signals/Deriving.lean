import Mathlib.Logic.Relation
import Arboretum.Proofs.Traversal.Recording

/-!
# Tokens and the tokens derived from them

A **chronicle** is what has become of the signals after some acts, in any order: time went by, events
and tokens were made, events raised, tokens derived from tokens and cancelled.  It also notes which
token was derived from which, and with what reason each of them was cancelled.

A derived token listens to the event of the one that it comes from, and its deadline is no later
(`Token.IsHeir`); no act takes that back (`Chronicle.kept_of`).  So where a token is cancelled, all
that were derived from it are cancelled as well.  The reason is the token's own: what was said when
*this* token was cancelled (`Chronicle.word`), whatever was said to the one that it comes from
(`Chronicle.derived_cancelled`).
-/

namespace Arboretum

/-! ## 1. Heirs -/

/-- **A token comes from another one**: it has its event, and its deadline is no later. -/
structure Token.IsHeir (old new : Token) : Prop where
  event : new.event = old.event
  deadline : ∀ time, old.deadline = some time → ∃ time', new.deadline = some time' ∧ time' ≤ time

namespace Token.IsHeir

variable {a b c : Token}

theorem refl (a : Token) : a.IsHeir a := ⟨rfl, fun time h => ⟨time, h, Int.le_refl time⟩⟩

theorem trans (h : a.IsHeir b) (h' : b.IsHeir c) : a.IsHeir c := by
  refine ⟨h'.event.trans h.event, fun time ha => ?_⟩
  obtain ⟨time', hb, hle⟩ := h.deadline time ha
  obtain ⟨time'', hc, hle'⟩ := h'.deadline time' hb
  exact ⟨time'', hc, Int.le_trans hle' hle⟩

/-- The reasons do not matter. -/
theorem with_reasons (h : a.IsHeir b) (reason reason' : String) :
    Token.IsHeir { a with reason } { b with reason := reason' } := ⟨h.event, h.deadline⟩

/-- The deadline of an heir has come when that of the first one has. -/
theorem isLate (h : a.IsHeir b) {now : Int} (ha : Signals.isLate now a = true) :
    Signals.isLate now b = true := by
  unfold Signals.isLate at ha ⊢
  cases hd : a.deadline with
  | none =>
    rw [hd] at ha
    cases ha
  | some time =>
    rw [hd] at ha
    obtain ⟨time', hb, hle⟩ := h.deadline time hd
    rw [hb]
    exact decide_eq_true (Int.le_trans hle (of_decide_eq_true ha))

theorem isRaised_eq (h : a.IsHeir b) (s : Signals) : s.isRaised b = s.isRaised a := by
  unfold Signals.isRaised
  rw [h.event]

end Token.IsHeir

/-! ## 2. What an act does to the tokens -/

namespace Signals

variable {s : Signals}

/-- A token with the earlier of a deadline and that of a token comes from the token. -/
theorem isHeir_earlier (old : Token) (time : Int) (reason : String) :
    old.IsHeir ⟨old.event, earlier (some time) old.deadline, reason⟩ := by
  refine ⟨rfl, fun time' h => ⟨min time time', ?_, Int.min_le_right time time'⟩⟩
  rw [h]
  rfl

/-- **A run either listens to a token that there is, or to a new one**: the new one comes last, is
not cancelled with a reason yet, and comes from the token that the run was told to listen to. -/
theorem token_cases (s : Signals) (now : Int) (source : Listening) (timeout : Option Int) :
    (∃ n, source = .token n ∧ s.token now source timeout = (n, s)) ∨
    ∃ new : Token, new.reason = "" ∧ (s.token now source timeout).1 = s.tokens.length ∧
      (s.token now source timeout).2.tokens = s.tokens ++ [new] ∧
      ∀ n, source = .token n → ∃ old, s.tokens[n]? = some old ∧ old.IsHeir new := by
  cases source with
  | nothing =>
    exact .inr ⟨⟨s.events, deadlineAfter now timeout, ""⟩, rfl, rfl, rfl, fun _ h => by cases h⟩
  | event event =>
    exact .inr ⟨⟨event, deadlineAfter now timeout, ""⟩, rfl, rfl, rfl, fun _ h => by cases h⟩
  | token n =>
    cases timeout with
    | none => exact .inl ⟨n, rfl, rfl⟩
    | some t =>
      cases hn : s.tokens[n]? with
      | none =>
        refine .inl ⟨n, rfl, ?_⟩
        unfold token
        dsimp only
        rw [hn]
      | some old =>
        have hmade : s.token now (.token n) (some t) =
            s.listen old.event (earlier (deadlineAfter now (some t)) old.deadline) := by
          unfold token
          dsimp only
          rw [hn]
        rw [hmade]
        refine .inr ⟨_, rfl, rfl, rfl, fun n' h => ?_⟩
        cases h
        exact ⟨old, hn, isHeir_earlier old _ ""⟩

/-- **All tokens stay**, with their events and deadlines. -/
def Stay (s s' : Signals) : Prop :=
  ∀ (n : Nat) (t : Token), s.tokens[n]? = some t → ∃ reason, s'.tokens[n]? = some { t with reason }

/-- Tokens stay when none is touched. -/
theorem Stay.of_eq {s' : Signals} (h : s'.tokens = s.tokens) : s.Stay s' := by
  intro n t ht
  rw [← h] at ht
  exact ⟨t.reason, ht⟩

theorem stay_token (s : Signals) (now : Int) (source : Listening) (timeout : Option Int) :
    s.Stay (s.token now source timeout).2 := by
  rcases s.token_cases now source timeout with ⟨n, -, h⟩ | ⟨new, -, -, h, -⟩
  · rw [h]
    exact Stay.of_eq rfl
  · intro n t ht
    rw [h, List.getElem?_append_left (List.getElem?_eq_some_iff.1 ht).1]
    exact ⟨t.reason, ht⟩

/-- The tokens after one of them is cancelled: that one has the reason. -/
theorem tokens_cancel (s : Signals) (n : Nat) (reason : String) (m : Nat) :
    (s.cancel n reason).tokens[m]? =
      if m = n then (s.tokens[m]?).map fun t => { t with reason } else s.tokens[m]? := by
  unfold cancel
  by_cases hm : m = n
  · subst hm
    rw [if_pos rfl]
    cases hn : s.tokens[m]? with
    | none => exact hn
    | some t =>
      exact List.getElem?_set_self (List.getElem?_eq_some_iff.1 hn).1
  · rw [if_neg hm]
    cases hn : s.tokens[n]? with
    | none => rfl
    | some t => exact List.getElem?_set_ne (Ne.symm hm)

theorem stay_cancel (s : Signals) (n : Nat) (reason : String) : s.Stay (s.cancel n reason) := by
  intro m t ht
  rw [tokens_cancel, ht]
  by_cases hm : m = n
  · rw [if_pos hm]
    exact ⟨reason, rfl⟩
  · rw [if_neg hm]
    exact ⟨t.reason, rfl⟩

end Signals

/-! ## 3. Chronicles -/

/-- What can be done with signals, by anyone. -/
inductive Signals.Act where
  | wait (time : Nat)
  | newEvent
  | raise (event : Nat)
  | token (source : Listening) (timeout : Option Int)
  | cancel (token : Nat) (reason : String)

/-- The time and the signals, which token was derived from which, and what was said to the tokens that
were cancelled, the latest first. -/
structure Chronicle where
  now : Int
  signals : Signals
  derived : List (Nat × Nat)
  said : List (Nat × String)

namespace Chronicle

/-- Nothing has happened yet. -/
def start (now : Int) : Chronicle := ⟨now, .initial, [], []⟩

/-- The chronicle after one more act. -/
def after (c : Chronicle) : Signals.Act → Chronicle
  | .wait time => { c with now := c.now + time }
  | .newEvent => { c with signals := c.signals.newEvent.2 }
  | .raise event => { c with signals := c.signals.raise event }
  | .token source timeout =>
    let made := c.signals.token c.now source timeout
    { c with
      signals := made.2
      derived := match source with
        | .token old => (old, made.1) :: c.derived
        | _ => c.derived }
  | .cancel n reason =>
    { c with
      signals := c.signals.cancel n reason
      said := if n < c.signals.tokens.length then (n, reason) :: c.said else c.said }

/-- **The chronicle of some acts.** -/
def of (now : Int) (acts : List Signals.Act) : Chronicle := acts.foldl after (start now)

/-- **The second token was derived from the first**, over any number of tokens in between. -/
def Derives (c : Chronicle) : Nat → Nat → Prop := Relation.ReflTransGen fun a d => (a, d) ∈ c.derived

/-- What was said last when a token was cancelled; nothing if it never was. -/
def lastSaid (c : Chronicle) (n : Nat) : String := (c.said.lookup n).getD ""

/-- **The word of a token**: what was said last when it was cancelled, a general reason if that is
nothing. -/
def word (c : Chronicle) (n : Nat) : String :=
  if c.lastSaid n = "" then "operation cancelled" else c.lastSaid n

/-- The event of a token is raised. -/
def IsRaised (c : Chronicle) (n : Nat) : Prop :=
  (c.signals.tokens[n]?).any c.signals.isRaised = true

/-! ## 4. What every chronicle keeps -/

/-- Each derived token comes from the one that it was derived from, and the reason of each token is
what was said to it. -/
structure Kept (c : Chronicle) : Prop where
  heirs : ∀ a d, (a, d) ∈ c.derived → a = d ∨
    ∃ old new, c.signals.tokens[a]? = some old ∧ c.signals.tokens[d]? = some new ∧ old.IsHeir new
  reasons : ∀ n, ((c.signals.tokens[n]?).map Token.reason).getD "" = c.lastSaid n

variable {c : Chronicle}

/-- Heirs stay heirs while all tokens stay. -/
theorem Kept.heirs_of_stay (hc : c.Kept) {s : Signals} (hs : c.signals.Stay s) (a d : Nat)
    (h : (a, d) ∈ c.derived) : a = d ∨
      ∃ old new, s.tokens[a]? = some old ∧ s.tokens[d]? = some new ∧ old.IsHeir new := by
  rcases hc.heirs a d h with heq | ⟨old, new, hold, hnew, hheir⟩
  · exact .inl heq
  · obtain ⟨reason, hold'⟩ := hs a old hold
    obtain ⟨reason', hnew'⟩ := hs d new hnew
    exact .inr ⟨_, _, hold', hnew', hheir.with_reasons reason reason'⟩

/-- A step that leaves the tokens, and what was derived and said. -/
theorem Kept.of_tokens_eq (hc : c.Kept) {now : Int} {s : Signals}
    (hs : s.tokens = c.signals.tokens) : Kept ⟨now, s, c.derived, c.said⟩ := by
  refine ⟨hc.heirs_of_stay (Signals.Stay.of_eq hs), fun n => ?_⟩
  dsimp only
  rw [hs]
  exact hc.reasons n

/-- **A derived token comes from the one that it is derived from.** -/
theorem Kept.after_token (hc : c.Kept) (source : Listening) (timeout : Option Int) :
    (c.after (.token source timeout)).Kept := by
  have hstay := c.signals.stay_token c.now source timeout
  rcases c.signals.token_cases c.now source timeout with
    ⟨n, rfl, hsame⟩ | ⟨new, hreason, hlast, htokens, hheir⟩
  · have hafter : c.after (.token (.token n) timeout) =
        ⟨c.now, c.signals, (n, n) :: c.derived, c.said⟩ := by
      unfold after
      dsimp only
      rw [hsame]
    rw [hafter]
    refine ⟨fun a d h => ?_, hc.reasons⟩
    rcases List.mem_cons.1 h with h | h
    · cases h
      exact .inl rfl
    · exact hc.heirs a d h
  · have hnew : (c.signals.token c.now source timeout).2.tokens[c.signals.tokens.length]? =
        some new := by
      rw [htokens]
      exact List.getElem?_concat_length
    refine ⟨fun a d h => ?_, fun n => ?_⟩
    · unfold after at h
      cases source with
      | nothing => exact hc.heirs_of_stay hstay a d h
      | event event => exact hc.heirs_of_stay hstay a d h
      | token n =>
        rcases List.mem_cons.1 h with h | h
        · obtain ⟨rfl, rfl⟩ := Prod.mk.inj h
          obtain ⟨old, hold, hnewer⟩ := hheir _ rfl
          obtain ⟨reason, hold'⟩ := hstay _ old hold
          refine .inr ⟨_, new, hold', ?_, hnewer.with_reasons reason new.reason⟩
          rw [hlast]
          exact hnew
        · exact hc.heirs_of_stay hstay a d h
    · show (((c.signals.token c.now source timeout).2.tokens[n]?).map Token.reason).getD "" =
        c.lastSaid n
      rw [← hc.reasons n, htokens]
      rcases Nat.lt_trichotomy n c.signals.tokens.length with hn | rfl | hn
      · rw [List.getElem?_append_left hn]
      · -- the new token: nothing was said to it
        rw [List.getElem?_concat_length, List.getElem?_eq_none (Nat.le_refl _)]
        exact hreason
      · rw [List.getElem?_eq_none (Nat.le_of_lt hn), List.getElem?_eq_none]
        rw [List.length_append]
        exact hn

/-- **A token that is cancelled has the reason that it is given**, and no other token has. -/
theorem Kept.after_cancel (hc : c.Kept) (n : Nat) (reason : String) :
    (c.after (.cancel n reason)).Kept := by
  refine ⟨hc.heirs_of_stay (c.signals.stay_cancel n reason), fun m => ?_⟩
  have hm := hc.reasons m
  show (((c.signals.cancel n reason).tokens[m]?).map Token.reason).getD "" =
    ((if n < c.signals.tokens.length then (n, reason) :: c.said else c.said).lookup m).getD ""
  rw [Signals.tokens_cancel]
  by_cases hn : n < c.signals.tokens.length
  · rw [if_pos hn, List.lookup_cons]
    by_cases hmn : m = n
    · subst hmn
      rw [if_pos rfl, List.getElem?_eq_getElem hn, beq_self_eq_true]
      rfl
    · rw [if_neg hmn, beq_eq_false_iff_ne.2 hmn]
      exact hm
  · rw [if_neg hn]
    by_cases hmn : m = n
    · subst hmn
      rw [if_pos rfl]
      rw [List.getElem?_eq_none (Nat.not_lt.1 hn)] at hm ⊢
      exact hm
    · rw [if_neg hmn]
      exact hm

/-- **Every act keeps it.** -/
theorem Kept.after (hc : c.Kept) (act : Signals.Act) : (c.after act).Kept := by
  cases act with
  | wait time => exact hc.of_tokens_eq rfl
  | newEvent => exact hc.of_tokens_eq rfl
  | raise event => exact hc.of_tokens_eq rfl
  | token source timeout => exact hc.after_token source timeout
  | cancel n reason => exact hc.after_cancel n reason

/-- **Every chronicle keeps it**, by induction on the acts. -/
theorem kept_of (now : Int) (acts : List Signals.Act) : (of now acts).Kept := by
  have hfold : ∀ (acts : List Signals.Act) (c : Chronicle), c.Kept →
      (acts.foldl Chronicle.after c).Kept := by
    intro acts
    induction acts with
    | nil => exact fun _ hc => hc
    | cons act acts ih => exact fun c hc => ih (c.after act) (hc.after act)
  exact hfold acts (start now) ⟨fun _ _ h => absurd h List.not_mem_nil, fun _ => rfl⟩

/-- **A token that was derived from another one comes from it.** -/
theorem Kept.isHeir (hc : c.Kept) {a d : Nat} (hd : c.Derives a d) {old : Token}
    (hold : c.signals.tokens[a]? = some old) :
    ∃ new, c.signals.tokens[d]? = some new ∧ old.IsHeir new := by
  induction hd with
  | refl => exact ⟨old, hold, .refl old⟩
  | @tail b d _ hstep ih =>
    obtain ⟨mid, hmid, hheir⟩ := ih
    rcases hc.heirs b d hstep with rfl | ⟨mid', new, hmid', hnew, hheir'⟩
    · exact ⟨mid, hmid, hheir⟩
    · rw [hmid] at hmid'
      cases hmid'
      exact ⟨new, hnew, hheir.trans hheir'⟩

/-! ## 5. Reasons -/

/-- A token is cancelled by its event or its deadline. -/
theorem exists_token_of_isCancelled {n : Nat} (h : c.signals.isCancelled c.now n = true) :
    ∃ t, c.signals.tokens[n]? = some t ∧
      (c.signals.isRaised t || Signals.isLate c.now t) = true := by
  unfold Signals.isCancelled at h
  cases ht : c.signals.tokens[n]? with
  | none =>
    rw [ht] at h
    cases h
  | some t =>
    rw [ht] at h
    exact ⟨t, rfl, h⟩

theorem isRaised_iff {n : Nat} {t : Token} (ht : c.signals.tokens[n]? = some t) :
    c.IsRaised n ↔ c.signals.isRaised t = true := by
  unfold IsRaised
  rw [ht]
  rfl

/-- **The reason of a token whose event is raised is its own word.** -/
theorem Kept.reason_eq_word (hc : c.Kept) {n : Nat} (h : c.IsRaised n) :
    c.signals.reason c.now n = c.word n := by
  have hown := hc.reasons n
  cases ht : c.signals.tokens[n]? with
  | none =>
    unfold IsRaised at h
    rw [ht] at h
    cases h
  | some t =>
    rw [ht] at hown
    unfold Signals.reason word
    rw [ht, ← hown]
    dsimp only
    rw [if_pos ((isRaised_iff ht).1 h)]
    rfl

/-- The reason of a token that is cancelled by its deadline alone. -/
theorem reason_eq_late {n : Nat} (h : ¬ c.IsRaised n) (hc : c.signals.isCancelled c.now n = true) :
    c.signals.reason c.now n = "deadline exceeded" := by
  obtain ⟨t, ht, hor⟩ := exists_token_of_isCancelled hc
  have hraised : c.signals.isRaised t = false :=
    Bool.eq_false_iff.2 fun hr => h ((isRaised_iff ht).2 hr)
  rw [hraised, Bool.false_or] at hor
  unfold Signals.reason
  rw [ht]
  dsimp only
  rw [hraised, if_neg Bool.false_ne_true, if_pos hor]

/-- **Cancellation reaches every derived token, but not its reason.**  After any acts, where a token is
cancelled, by its event or by its deadline, each token that was derived from it is cancelled, and a
run that listens to it stops at its next check.  If the deadline alone has come, both say so; if
the event is raised, each gives its own word: what was said last when this very token was cancelled,
and the general reason if nothing was.  So the derived token reports the reason of the first one just
where their words agree. -/
theorem derived_cancelled (now : Int) (acts : List Signals.Act) (a d : Nat) :
    let c := of now acts
    c.Derives a d → c.signals.isCancelled c.now a = true →
      c.signals.isCancelled c.now d = true ∧
      (¬ c.IsRaised a → c.signals.reason c.now a = "deadline exceeded" ∧
        c.signals.reason c.now d = "deadline exceeded") ∧
      (c.IsRaised a → c.signals.reason c.now a = c.word a ∧ c.signals.reason c.now d = c.word d) ∧
      (c.signals.reason c.now d = c.signals.reason c.now a ↔ (c.IsRaised a → c.word d = c.word a)) ∧
      ∀ (w : World), w.signals = c.signals → w.now = c.now →
        ∀ {Out α : Type} (next : Traversal Out α), w.record (some d) (.check next) =
          ⟨.failed (.cancelled (c.signals.reason c.now d)), [], w⟩ := by
  intro c hd ha
  have hc : c.Kept := kept_of now acts
  obtain ⟨old, hold, hor⟩ := exists_token_of_isCancelled ha
  obtain ⟨new, hnew, hheir⟩ := hc.isHeir hd hold
  have hraised : c.IsRaised d ↔ c.IsRaised a := by
    rw [isRaised_iff hnew, isRaised_iff hold, hheir.isRaised_eq]
  have hcancelled : c.signals.isCancelled c.now d = true := by
    unfold Signals.isCancelled
    rw [hnew]
    dsimp only
    rw [hheir.isRaised_eq]
    rcases (Bool.or_eq_true _ _).mp hor with h | h
    · rw [h, Bool.true_or]
    · rw [hheir.isLate h, Bool.or_true]
  have hlate : ¬ c.IsRaised a → c.signals.reason c.now a = "deadline exceeded" ∧
      c.signals.reason c.now d = "deadline exceeded" :=
    fun h => ⟨reason_eq_late h ha, reason_eq_late (mt hraised.1 h) hcancelled⟩
  have hword : c.IsRaised a →
      c.signals.reason c.now a = c.word a ∧ c.signals.reason c.now d = c.word d :=
    fun h => ⟨hc.reason_eq_word h, hc.reason_eq_word (hraised.2 h)⟩
  refine ⟨hcancelled, hlate, hword, ⟨fun h hr => ?_, fun h => ?_⟩, fun w hsignals hnow _ _ next => ?_⟩
  · rw [← (hword hr).1, ← (hword hr).2]
    exact h
  · by_cases hr : c.IsRaised a
    · rw [(hword hr).1, (hword hr).2]
      exact h hr
    · rw [(hlate hr).1, (hlate hr).2]
  · have hw : w.cancelled (some d) = some (c.signals.reason c.now d) := by
      unfold World.cancelled
      dsimp only
      rw [hsignals, hnow, if_pos hcancelled]
    rw [World.record_check, hw]

/-- A token, one derived from it with a time limit, and the first one cancelled with a reason: the
derived one is cancelled, and gives the general reason. -/
theorem derived_cancelled_general :
    let acts : List Signals.Act :=
      [.token .nothing none, .token (.token 0) (some 1000), .cancel 0 "stop"]
    let c := of 0 acts
    c.Derives 0 1 ∧ c.signals.isCancelled c.now 0 = true ∧
      c.signals.isCancelled c.now 1 = true ∧ c.signals.reason c.now 0 = "stop" ∧
      c.signals.reason c.now 1 = "operation cancelled" := by
  intro acts c
  have hd : c.Derives 0 1 := .single (by decide)
  have ha : c.signals.isCancelled c.now 0 = true := by decide
  obtain ⟨hcancelled, -, hword, -, -⟩ := derived_cancelled 0 acts 0 1 hd ha
  obtain ⟨h0, h1⟩ := hword (by show _ = true; decide)
  exact ⟨hd, ha, hcancelled, h0.trans (by decide), h1.trans (by decide)⟩

end Chronicle

end Arboretum
