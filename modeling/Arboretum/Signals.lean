/-!
# Signals

A run can be cancelled from outside.  A **token** stands for the right to do so: it listens to an
event that other tokens may share, and it may have a deadline.  It is cancelled once its event is
raised or its deadline has come, and it gives a reason: the one it was cancelled with, a general
one if its event was raised elsewhere or without a reason, or that the deadline has passed.
-/

namespace Arboretum

/-- A token: the number of its event, its deadline and the reason it was cancelled with. -/
structure Token where
  event : Nat
  deadline : Option Int
  reason : String
deriving DecidableEq, Repr

/-- All tokens by number, the number of events so far, and which events are raised. -/
structure Signals where
  tokens : List Token
  events : Nat
  raised : List Nat
deriving Repr

/-- What a run is told to listen to. -/
inductive Listening where
  | nothing
  | event (event : Nat)
  | token (token : Nat)
deriving DecidableEq, Repr

namespace Signals

/-- No tokens and no events. -/
def initial : Signals := ⟨[], 0, []⟩

/-- The deadline of a token with a time to live; a negative time counts as none left. -/
def deadlineAfter (now : Int) (timeout : Option Int) : Option Int :=
  timeout.map fun t => now + max 0 t

/-- A new event. -/
def newEvent (s : Signals) : Nat × Signals := (s.events, { s with events := s.events + 1 })

/-- A new token on an event. -/
def listen (s : Signals) (event : Nat) (deadline : Option Int) : Nat × Signals :=
  (s.tokens.length, { s with tokens := s.tokens ++ [⟨event, deadline, ""⟩] })

/-- The earlier of two deadlines, where there are any. -/
def earlier : Option Int → Option Int → Option Int
  | some a, some b => some (min a b)
  | some a, _ => some a
  | _, _ => none

/-- **The token for what a run is told to listen to.**  A token without a new time limit serves as
it is; with one, a new token shares its event and takes the earlier deadline. -/
def token (s : Signals) (now : Int) (source : Listening) (timeout : Option Int) : Nat × Signals :=
  match source with
  | .nothing =>
    let (event, s) := s.newEvent
    s.listen event (deadlineAfter now timeout)
  | .event event => s.listen event (deadlineAfter now timeout)
  | .token n =>
    match timeout, s.tokens[n]? with
    | some t, some old => s.listen old.event (earlier (deadlineAfter now (some t)) old.deadline)
    | _, _ => (n, s)

/-- Raising an event. -/
def raise (s : Signals) (event : Nat) : Signals := { s with raised := event :: s.raised }

/-- **Cancelling** a token, for a reason or none. -/
def cancel (s : Signals) (n : Nat) (reason : String) : Signals :=
  match s.tokens[n]? with
  | some t => { s with tokens := s.tokens.set n { t with reason } }.raise t.event
  | none => s

/-- The event of a token is raised. -/
def isRaised (s : Signals) (t : Token) : Bool := s.raised.contains t.event

/-- The deadline of a token has come. -/
def isLate (now : Int) (t : Token) : Bool := t.deadline.any (· ≤ now)

/-- **A token is cancelled.** -/
def isCancelled (s : Signals) (now : Int) (n : Nat) : Bool :=
  match s.tokens[n]? with
  | some t => s.isRaised t || isLate now t
  | none => false

/-- The reason of a token, empty while it is not cancelled. -/
def reason (s : Signals) (now : Int) (n : Nat) : String :=
  match s.tokens[n]? with
  | some t =>
    if s.isRaised t then (if t.reason = "" then "operation cancelled" else t.reason)
    else if isLate now t then "deadline exceeded"
    else ""
  | none => ""

end Signals

end Arboretum
