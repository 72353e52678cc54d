import CarSlice.Event.Log

/-!
# The event bus

A bus delivers every published event to its subscribers in the order in which
they subscribed. Who subscribes during a delivery gets the next event. An event
that is published from inside a subscriber is delivered to no one, and the
console is told. A subscriber that raises an exception ends the delivery.

The first subscriber of a new bus is the default logger.
-/

namespace CarSlice

mutual

/-- One thing that a subscriber does. -/
inductive Action where
  /-- It raises an exception. -/
  | raise (message : Text)
  /-- It publishes another event. -/
  | publish (event : Event)
  /-- It subscribes another subscriber. -/
  | subscribe (subscriber : Subscriber)

/-- What a subscriber does when it is called. -/
inductive Reaction where
  /-- It does these things in order, depending on the event and on the turn: how many
  calls there were before. So it need not do the same each time. -/
  | ofActions (actions : Nat → Event → List Action)

/-- A subscriber. -/
inductive Subscriber where
  /-- The default logger. -/
  | logger
  | named (name : Text) (reaction : Reaction)
  /-- No one: it is passed over. -/
  | absent

end

namespace Reaction

/-- What a subscriber does about an event at a turn. -/
def actions : Reaction → Nat → Event → List Action
  | .ofActions actions => actions

/-- It only takes note of events. -/
def record : Reaction :=
  .ofActions fun _ _ => []

/-- It raises an exception at every event. -/
def raise : Reaction :=
  .ofActions fun _ _ => [.raise (utf8 "subscriber failed")]

/-- It publishes another event at every event. -/
def publish (other : Event) : Reaction :=
  .ofActions fun _ _ => [.publish other]

/-- It subscribes another subscriber, which only takes note, at every event. -/
def subscribe (name : Text) : Reaction :=
  .ofActions fun _ _ => [.subscribe (.named name record)]

end Reaction

/-- Note that a subscriber took of an event. -/
structure Delivery where
  subscriber : Text
  eventId : Text
  deriving Repr, DecidableEq

namespace Bus

/-- A call of a subscriber with an event. -/
structure Call where
  subscriber : Subscriber
  event : Event

/-- The note that is taken at a call; the logger takes none. -/
def Call.note? (c : Call) : Option Delivery :=
  match c.subscriber with
  | .named name _ => some { subscriber := name, eventId := c.event.id }
  | .logger | .absent => none

end Bus

/-- An exception that a subscriber raised. -/
structure Raised where
  message : Text
  deriving Repr, DecidableEq

/-- A bus and what came of it. -/
structure Bus where
  logger : Logger
  subscribers : List Subscriber := [.logger]
  /-- Whether a delivery is going on. -/
  publishing : Bool := false
  /-- How many calls were made, those included whose record is gone. -/
  turn : Nat := 0
  /-- The calls that were made, the last one first. -/
  calls : List Bus.Call := []
  /-- The lines that were logged, the last one first. -/
  lines : List LogLine := []

namespace Bus

/-- The calls that were made, in order. -/
def called (b : Bus) : List Call :=
  b.calls.reverse

/-- The notes that were taken, in order. -/
def delivered (b : Bus) : List Delivery :=
  b.called.filterMap Call.note?

/-- The lines that were logged, in order. -/
def logged (b : Bus) : List LogLine :=
  b.lines.reverse

/-- A bus that goes on without the record of what came of it so far. -/
def forget (b : Bus) : Bus :=
  { b with calls := [], lines := [] }

/-- What the console is told of an event that was published from inside a
subscriber. -/
def suppression : Text :=
  utf8 "\x7b\"event\":\"event_bus_reentrancy\",\"message\":\"recursive publish suppressed\"\x7d"

/-- Adds a subscriber. -/
def subscribe (b : Bus) (subscriber : Subscriber) : Bus :=
  { b with subscribers := b.subscribers ++ [subscriber] }

/-- A new bus in place of this one; what came of the old one is kept. -/
def reset (b : Bus) : Bus :=
  { b with subscribers := [.logger] }

/-- Does not deliver an event. -/
def suppress (b : Bus) : Bus :=
  { b with lines := .console suppression :: b.lines }

/-- Lets the default logger write an event. -/
def log (b : Bus) (timestamp : Text) (e : Event) : Bus :=
  let written := b.logger.log timestamp timestamp e
  { b with logger := written.2, lines := written.1.reverse ++ b.lines }

/-- Notes that a subscriber is called with an event. -/
def note (b : Bus) (subscriber : Subscriber) (e : Event) : Bus :=
  { b with turn := b.turn + 1, calls := { subscriber, event := e } :: b.calls }

/-- A bus that is delivering an event. -/
structure Busy where
  bus : Bus
  publishing : bus.publishing = true

namespace Busy

/-- Publishes an event during a delivery. -/
def publish (b : Busy) (_ : Event) : Busy :=
  ⟨b.bus.suppress, b.publishing⟩

/-- Does what a subscriber does, up to the first exception. -/
def act (b : Busy) : List Action → Except Raised Unit × Busy
  | [] => (.ok (), b)
  | .raise message :: _ => (.error { message }, b)
  | .publish other :: rest => (b.publish other).act rest
  | .subscribe subscriber :: rest => act ⟨b.bus.subscribe subscriber, b.publishing⟩ rest

/-- Calls a subscriber with an event. -/
def call (b : Busy) (timestamp : Text) (e : Event) (subscriber : Subscriber) :
    Except Raised Unit × Busy :=
  match subscriber with
  | .absent => (.ok (), b)
  | .logger => (.ok (), ⟨(b.bus.note subscriber e).log timestamp e, b.publishing⟩)
  | .named _ reaction =>
    act ⟨b.bus.note subscriber e, b.publishing⟩ (reaction.actions b.bus.turn e)

/-- Delivers an event to some subscribers in order, up to the first that raises
an exception. -/
def deliver (b : Busy) (timestamp : Text) (e : Event) :
    List Subscriber → Except Raised Unit × Busy
  | [] => (.ok (), b)
  | subscriber :: rest =>
    match b.call timestamp e subscriber with
    | (.error raised, b) => (.error raised, b)
    | (.ok (), b) => b.deliver timestamp e rest

end Busy

/-- Publishes an event to those who are subscribed now. -/
def publish (b : Bus) (timestamp : Text) (e : Event) : Except Raised Unit × Bus :=
  if h : b.publishing = true then (.ok (), (Busy.publish ⟨b, h⟩ e).bus)
  else
    match Busy.deliver ⟨{ b with publishing := true }, rfl⟩ timestamp e b.subscribers with
    | (result, b) => (result, { b.bus with publishing := false })

/-- What a subscriber publishes takes the way that every publication takes. -/
theorem publish_of_busy (b : Busy) (timestamp : Text) (e : Event) :
    b.bus.publish timestamp e = (.ok (), (b.publish e).bus) :=
  dif_pos b.publishing

end Bus

end CarSlice
