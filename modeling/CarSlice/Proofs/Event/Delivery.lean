import CarSlice.Event.Bus

/-!
# Who gets an event

A bus is used from outside by subscribing and publishing, while its subscribers do on their part
what they like: take note, publish, subscribe others, raise an exception.  They need not do the same
each time.  What that comes to is said here on lists of subscribers alone.

* `Subscriber.raised?` and `Subscriber.subscribed` say how a subscriber's actions end and whom they
  subscribe before that.
* An `Audience` is who is subscribed, with the turn of the next call.  `Audience.reached`, `outcome`
  and `joined` say who of it is called with an event, with which result, and who is subscribed
  meanwhile.  `audienceAfter` is the audience behind a row of operations.
* `Busy.Leads` relates a bus to a later one of the same delivery.  It holds of a subscriber's
  actions (`leads_act`), of a call (`leads_call`) and of a whole delivery (`leads_deliver`).
* `publish_of_idle` is one publication and `idle_after` a row of operations.
* `publications_reach_subscribers` puts these together.
-/

namespace CarSlice

/-! ## What subscribers do -/

namespace Action

/-- The exception that an action raises, if it raises one. -/
def raised? : Action → Option Raised
  | .raise message => some { message }
  | .publish _ | .subscribe _ => none

/-- The subscriber that an action adds, if it adds one. -/
def subscribed? : Action → Option Subscriber
  | .subscribe subscriber => some subscriber
  | .raise _ | .publish _ => none

/-- Whom a row of actions subscribes before the first exception. -/
def subscribed (actions : List Action) : List Subscriber :=
  (actions.takeWhile fun action => action.raised?.isNone).filterMap subscribed?

end Action

namespace Subscriber

/-- Whether there is someone to call. -/
def isPresent : Subscriber → Bool
  | .logger | .named _ _ => true
  | .absent => false

/-- What a subscriber does to the bus about an event at a turn. -/
def actions (turn : Nat) (e : Event) : Subscriber → List Action
  | .named _ reaction => reaction.actions turn e
  | .logger | .absent => []

/-- The exception that a subscriber raises about an event at a turn, if it raises one. -/
def raised? (turn : Nat) (e : Event) (s : Subscriber) : Option Raised :=
  (s.actions turn e).findSome? Action.raised?

/-- Whom a subscriber subscribes about an event at a turn. -/
def subscribed (turn : Nat) (e : Event) (s : Subscriber) : List Subscriber :=
  Action.subscribed (s.actions turn e)

end Subscriber

/-! ## Who is called -/

/-- Some subscribers, and the turn of the next call. -/
@[ext] structure Audience where
  subscribers : List Subscriber := [.logger]
  turn : Nat := 0

namespace Audience

/-- Who is present, in order, each with the turn at which it is called if no one before it raises an
exception. -/
def present (a : Audience) : List (Subscriber × Nat) :=
  (a.subscribers.filter Subscriber.isPresent).zipIdx a.turn

/-- Who is called with an event: those who are present, up to and including the first who raises an
exception. -/
def reached (a : Audience) (e : Event) : List (Subscriber × Nat) :=
  a.present.take (a.present.findIdx (fun p => (p.1.raised? p.2 e).isSome) + 1)

/-- The calls with an event. -/
def calls (a : Audience) (e : Event) : List Bus.Call :=
  (a.reached e).map fun p => { subscriber := p.1, event := e }

/-- The result of delivering an event: the first exception, if there is one. -/
def outcome (a : Audience) (e : Event) : Except Raised Unit :=
  match a.present.findSome? fun p => p.1.raised? p.2 e with
  | some raised => .error raised
  | none => .ok ()

/-- Who joins while an event is delivered. -/
def joined (a : Audience) (e : Event) : List Subscriber :=
  (a.reached e).flatMap fun p => p.1.subscribed p.2 e

section

variable {s : Subscriber} (rest : List Subscriber) {turn : Nat} {e : Event}

theorem present_cons (hs : s.isPresent = true) :
    present { subscribers := s :: rest, turn } =
      (s, turn) :: present { subscribers := rest, turn := turn + 1 } := by
  rw [present, List.filter_cons_of_pos hs, List.zipIdx_cons, present]

theorem reached_raising (hs : s.isPresent = true) (hraised : (s.raised? turn e).isSome = true) :
    reached { subscribers := s :: rest, turn } e = [(s, turn)] := by
  simp [reached, present_cons rest hs, List.findIdx_cons, hraised]

theorem reached_silent (hs : s.isPresent = true) (hraised : s.raised? turn e = none) :
    reached { subscribers := s :: rest, turn } e =
      (s, turn) :: reached { subscribers := rest, turn := turn + 1 } e := by
  simp [reached, present_cons rest hs, List.findIdx_cons, hraised]

end

end Audience

namespace Bus

/-- Who hears the next event. -/
def audience (b : Bus) : Audience :=
  { subscribers := b.subscribers, turn := b.turn }

/-! ## One delivery -/

namespace Busy

/-- A later bus of the same delivery: the calls that were made and the subscribers that were added
in between. -/
structure Leads (b b' : Busy) (calls : List Call) (added : List Subscriber) : Prop where
  called : b'.bus.called = b.bus.called ++ calls
  turn : b'.bus.turn = b.bus.turn + calls.length
  subscribers : b'.bus.subscribers = b.bus.subscribers ++ added

section

variable {b b₁ b₂ : Busy} {calls more : List Call} {added further : List Subscriber}

theorem Leads.refl (b : Busy) : b.Leads b [] [] :=
  ⟨(List.append_nil _).symm, rfl, (List.append_nil _).symm⟩

theorem Leads.trans (h : b.Leads b₁ calls added) (h' : b₁.Leads b₂ more further) :
    b.Leads b₂ (calls ++ more) (added ++ further) :=
  ⟨by rw [h'.called, h.called, List.append_assoc],
    by rw [h'.turn, h.turn, List.length_append, Nat.add_assoc],
    by rw [h'.subscribers, h.subscribers, List.append_assoc]⟩

end

/-- What is published during a delivery is delivered to no one. -/
theorem leads_publish (b : Busy) (other : Event) : b.Leads (b.publish other) [] [] :=
  ⟨(List.append_nil _).symm, rfl, (List.append_nil _).symm⟩

theorem leads_note (b : Busy) (s : Subscriber) (e : Event) :
    b.Leads ⟨b.bus.note s e, b.publishing⟩ [{ subscriber := s, event := e }] [] :=
  ⟨List.reverse_cons, rfl, (List.append_nil _).symm⟩

/-- Actions end with the first exception among them.  No one is called because of them. -/
theorem leads_act (b : Busy) (actions : List Action) :
    (b.act actions).1 = (match actions.findSome? Action.raised? with
      | some raised => .error raised
      | none => .ok ()) ∧
      b.Leads (b.act actions).2 [] (Action.subscribed actions) := by
  induction actions generalizing b with
  | nil => exact ⟨rfl, .refl b⟩
  | cons action rest ih =>
    cases action with
    | raise message => exact ⟨rfl, .refl b⟩
    | publish other =>
      obtain ⟨hresult, hleads⟩ := ih (b.publish other)
      exact ⟨hresult, (b.leads_publish other).trans hleads⟩
    | subscribe s =>
      obtain ⟨hresult, hleads⟩ := ih ⟨b.bus.subscribe s, b.publishing⟩
      have hsubscribe : b.Leads ⟨b.bus.subscribe s, b.publishing⟩ [] [s] :=
        ⟨(List.append_nil _).symm, rfl, rfl⟩
      exact ⟨hresult, hsubscribe.trans hleads⟩

/-- A call comes to what the actions of the subscriber come to at its turn. -/
theorem leads_call (b : Busy) (timestamp : Text) (e : Event) {s : Subscriber}
    (hs : s.isPresent = true) :
    (b.call timestamp e s).1 = (match s.raised? b.bus.turn e with
      | some raised => .error raised
      | none => .ok ()) ∧
      b.Leads (b.call timestamp e s).2 [{ subscriber := s, event := e }]
        (s.subscribed b.bus.turn e) := by
  cases s with
  | absent => cases hs
  | logger =>
    have hnote := b.leads_note .logger e
    exact ⟨rfl, hnote.called, hnote.turn, hnote.subscribers⟩
  | named name reaction =>
    obtain ⟨hresult, hleads⟩ := leads_act ⟨b.bus.note (.named name reaction) e, b.publishing⟩
      (reaction.actions b.bus.turn e)
    exact ⟨hresult, (b.leads_note _ e).trans hleads⟩

/-- Each subscriber who is reached is called once, in order, and no one else is called. -/
theorem leads_deliver (b : Busy) (timestamp : Text) (e : Event) (subscribers : List Subscriber) :
    let a : Audience := { subscribers, turn := b.bus.turn }
    (b.deliver timestamp e subscribers).1 = a.outcome e ∧
      b.Leads (b.deliver timestamp e subscribers).2 (a.calls e) (a.joined e) := by
  induction subscribers generalizing b with
  | nil => exact ⟨rfl, .refl b⟩
  | cons s rest ih =>
    cases hs : s.isPresent with
    | false =>
      cases s with
      | absent => exact ih b
      | logger | named _ _ => cases hs
    | true =>
      obtain ⟨hresult, hleads⟩ := b.leads_call timestamp e hs
      rw [deliver]
      generalize b.call timestamp e s = result at hresult hleads ⊢
      obtain ⟨result, b'⟩ := result
      cases hraised : s.raised? b.bus.turn e with
      | some raised =>
        simp only [hraised] at hresult
        subst hresult
        have hreached := Audience.reached_raising rest hs (Option.isSome_of_eq_some hraised)
        refine ⟨?_, ?_⟩
        · simp [Audience.outcome, Audience.present_cons rest hs, hraised]
        · simpa [Audience.calls, Audience.joined, hreached] using hleads
      | none =>
        simp only [hraised] at hresult
        subst hresult
        obtain ⟨hrest, hleadsRest⟩ := ih b'
        rw [hleads.turn] at hrest hleadsRest
        refine ⟨?_, ?_⟩
        · simpa [Audience.outcome, Audience.present_cons rest hs, hraised] using hrest
        · have hreached := Audience.reached_silent rest hs hraised
          simpa [Audience.calls, Audience.joined, hreached] using hleads.trans hleadsRest

end Busy

/-- A publication on a bus on which no delivery goes on. -/
theorem publish_of_idle {b : Bus} (hidle : b.publishing = false) (timestamp : Text) (e : Event) :
    let published := b.publish timestamp e
    published.1 = b.audience.outcome e ∧
      published.2.called = b.called ++ b.audience.calls e ∧
      published.2.audience =
        { subscribers := b.subscribers ++ b.audience.joined e
          turn := b.turn + (b.audience.calls e).length } ∧
      published.2.publishing = false := by
  obtain ⟨hresult, hleads⟩ :=
    Busy.leads_deliver ⟨{ b with publishing := true }, rfl⟩ timestamp e b.subscribers
  intro published
  simp only [published]
  rw [publish, dif_neg (by simp [hidle])]
  exact ⟨hresult, hleads.called, Audience.ext hleads.subscribers hleads.turn, rfl⟩

/-! ## Rows of operations -/

/-- What is done to a bus from outside. -/
inductive Operation where
  | subscribe (subscriber : Subscriber)
  | publish (timestamp : Text) (e : Event)
  | reset

/-- A bus behind an operation. -/
def operate (b : Bus) : Operation → Bus
  | .subscribe subscriber => b.subscribe subscriber
  | .publish timestamp e => (b.publish timestamp e).2
  | .reset => b.reset

/-- A new bus behind a row of operations. -/
def after (logger : Logger) (row : List Operation) : Bus :=
  row.foldl operate { logger }

/-- Who is subscribed behind an operation, if these were before. -/
def audienceBehind (a : Audience) : Operation → Audience
  | .subscribe subscriber => { a with subscribers := a.subscribers ++ [subscriber] }
  | .publish _ e =>
    { subscribers := a.subscribers ++ a.joined e, turn := a.turn + (a.calls e).length }
  | .reset => { a with subscribers := [.logger] }

/-- Who is subscribed behind a row of operations on a new bus. -/
def audienceAfter (row : List Operation) : Audience :=
  row.foldl audienceBehind {}

/-- An operation leaves no delivery going on, whatever its result. -/
theorem idle_operate {b : Bus} (hidle : b.publishing = false) (operation : Operation) :
    (b.operate operation).publishing = false ∧
      (b.operate operation).audience = audienceBehind b.audience operation := by
  cases operation with
  | subscribe _ | reset => exact ⟨hidle, rfl⟩
  | publish timestamp e =>
    obtain ⟨-, -, haudience, hpublished⟩ := publish_of_idle hidle timestamp e
    exact ⟨hpublished, haudience⟩

theorem idle_foldl_operate {b : Bus} (hidle : b.publishing = false) (row : List Operation) :
    (row.foldl operate b).publishing = false ∧
      (row.foldl operate b).audience = row.foldl audienceBehind b.audience := by
  induction row generalizing b with
  | nil => exact ⟨hidle, rfl⟩
  | cons operation row ih =>
    obtain ⟨hnext, haudience⟩ := idle_operate hidle operation
    rw [List.foldl_cons, List.foldl_cons, ← haudience]
    exact ih hnext

theorem idle_after (logger : Logger) (row : List Operation) :
    (after logger row).publishing = false ∧ (after logger row).audience = audienceAfter row :=
  idle_foldl_operate rfl row

/-- Behind every row of subscriptions and publications, whatever the subscribers did meanwhile,
those are subscribed whom the row and its subscribers subscribed, in this order.  The next event
calls those who are present of them, in their order and each once, up to and including the first who
raises an exception, and that exception is the result.  No other call is made: an event that a
subscriber publishes takes the same way and is delivered to no one.  Behind it, with an exception or
without, no delivery goes on, so the event after it is delivered just so. -/
theorem publications_reach_subscribers (logger : Logger) (row : List Operation) (timestamp : Text)
    (e : Event) :
    let b := after logger row
    let published := b.publish timestamp e
    b.audience = audienceAfter row ∧ published.1 = b.audience.outcome e ∧
      published.2.called = b.called ++ b.audience.calls e ∧
      b.publishing = false ∧ published.2.publishing = false ∧
      ∀ (during : Busy) (now : Text) (other : Event),
        during.bus.publish now other = (.ok (), (during.publish other).bus) ∧
          (during.publish other).bus.called = during.bus.called := by
  intro b published
  obtain ⟨hidle, haudience⟩ := idle_after logger row
  obtain ⟨hresult, hcalled, -, hpublished⟩ := publish_of_idle hidle timestamp e
  exact ⟨haudience, hresult, hcalled, hidle, hpublished,
    fun during now other => ⟨publish_of_busy during now other, rfl⟩⟩

/-- The second of three subscribers publishes an event of its own and raises an exception until five
calls were made.  The first event reaches the first two of them and the second event all. -/
example :
    let reaction : Reaction :=
      .ofActions fun turn _ => .publish {} :: if turn < 5 then [.raise (utf8 "full")] else []
    let b := after { threshold := .critical }
      [.subscribe (.named (utf8 "a") .record), .subscribe (.named (utf8 "b") reaction),
        .subscribe (.named (utf8 "c") .record)]
    let first := b.publish [] { id := utf8 "ping" }
    let second := first.2.forget.publish [] { id := utf8 "ping" }
    first.1 = .error { message := utf8 "full" } ∧
      first.2.delivered.map (·.subscriber) = [utf8 "a", utf8 "b"] ∧
      second.1 = .ok () ∧
      second.2.delivered.map (·.subscriber) = [utf8 "a", utf8 "b", utf8 "c"] :=
  ⟨rfl, rfl, rfl, rfl⟩

end Bus

end CarSlice
