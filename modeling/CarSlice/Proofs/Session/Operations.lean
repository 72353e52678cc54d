import CarSlice.Proofs.Session.Coverage

/-!
# Rows of operations

A caller may start a session, step it and cancel it in any order.  `Session.perform` does a
row of such operations, and `Session.Succeeds` says that none of them fails.

* `Effect` lists what one operation can do: nothing, take note of a cancellation, end a
  session that was cancelled, handle the root, or handle the next block.
* `keeps_perform` is the induction on a row: what every operation keeps holds behind all of them.
* `Sound` is kept by every operation (`Sound.perform`): the session is consistent with the blocks
  that were handled, and only a session that has begun is finished.  `Sound.keeps` is the same
  induction for what is kept by operations on such sessions.
* `View.Moves` lists what an operation makes of the view (`Sound.moves`).  What no move breaks
  (`View.Invariant`) holds behind every row of operations (`Sound.invariant`).
-/

namespace CarSlice

open Archive (Block Header ReaderOptions)

namespace Session

/-! ## Operations -/

/-- Everything a caller can do to a session.  A start handles header and root, even where
the session was cancelled before it began. -/
inductive Operation where
  | start
  | call (c : Call)
  deriving Repr, DecidableEq

/-- The blocks that an operation handles, and the session behind it. -/
def operate (s : Session) : Operation → List Handled × Session
  | .start => (s.opening, s.start.2)
  | .call c => s.call c

/-- Whether an operation fails. -/
def outcome (s : Session) : Operation → Except Error Unit
  | .start => s.start.1
  | .call .step => s.step.1.map fun _ => ()
  | .call .cancel => .ok ()

/-- A row of operations and the blocks that they handle. -/
def perform (s : Session) : List Operation → List Handled × Session
  | [] => ([], s)
  | op :: ops =>
    ((s.operate op).1 ++ ((s.operate op).2.perform ops).1, ((s.operate op).2.perform ops).2)

/-- No operation of a row fails. -/
def Succeeds (s : Session) : List Operation → Prop
  | [] => True
  | op :: ops => s.outcome op = .ok () ∧ (s.operate op).2.Succeeds ops

theorem perform_append (s : Session) (first second : List Operation) :
    s.perform (first ++ second) =
      ((s.perform first).1 ++ ((s.perform first).2.perform second).1,
        ((s.perform first).2.perform second).2) := by
  induction first generalizing s with
  | nil => rfl
  | cons op ops ih => simp [perform, ih, List.append_assoc]

/-- What every operation keeps, with the blocks that it handles behind those before, holds behind
every row of operations. -/
theorem keeps_perform {P : Session → List Handled → Prop}
    (hP : ∀ {s : Session} {entries : List Handled}, P s entries →
      ∀ op, P (s.operate op).2 (entries ++ (s.operate op).1))
    {s : Session} {entries : List Handled} (h : P s entries) (ops : List Operation) :
    P (s.perform ops).2 (entries ++ (s.perform ops).1) := by
  induction ops generalizing s entries with
  | nil =>
    show P s (entries ++ [])
    rw [List.append_nil]
    exact h
  | cons op ops ih =>
    show P ((s.operate op).2.perform ops).2
      (entries ++ ((s.operate op).1 ++ ((s.operate op).2.perform ops).1))
    rw [← List.append_assoc]
    exact ih (hP h op)

/-- An operation that reads header and root: a start, or a first step of a session that was not
cancelled before. -/
def Opens (s : Session) (op : Operation) : Prop :=
  s.started = false ∧ (op = .start ∨ op = .call .step ∧ s.cancelRequested = false)

/-- What one operation can do. -/
inductive Effect (s : Session) (op : Operation) :
    List Handled × Session → Except Error Unit → Prop where
  | idle : Effect s op ([], s) (.ok ())
  | cancelled (hop : op = .call .cancel) : Effect s op ([], s.cancel) (.ok ())
  | stopped (hf : s.finished = false) (hc : s.cancelRequested = true) :
      Effect s op (s.handled, s.step.2) (s.step.1.map fun _ => ())
  | opened (hf : s.finished = false) (hop : s.Opens op) :
      Effect s op (s.opening, s.start.2) s.start.1
  | advanced (hf : s.finished = false) (hc : s.cancelRequested = false) (hs : s.started = true) :
      Effect s op (s.handled, s.step.2) (s.step.1.map fun _ => ())

/-- An operation that opens a session does what a start does. -/
theorem Opens.operate_eq {s : Session} {op : Operation} (h : s.Opens op)
    (hf : s.finished = false) :
    s.operate op = (s.opening, s.start.2) ∧ s.outcome op = s.start.1 := by
  rcases h with ⟨hs, rfl | ⟨rfl, hc⟩⟩
  · exact ⟨rfl, rfl⟩
  · obtain ⟨hstep, hhandled⟩ := step_eq_start hf hc hs
    constructor
    · show (s.handled, s.step.2) = _
      rw [hstep, hhandled]
    · show s.step.1.map _ = _
      rw [start_of_not_started hs, step_of_not_started hf hc hs, map_concluded]

theorem effect_operate {s : Session} (hbegun : s.finished = true → s.started = true)
    (op : Operation) : s.Effect op (s.operate op) (s.outcome op) := by
  have hopened (hop : s.Opens op) : s.Effect op (s.operate op) (s.outcome op) := by
    have hf : s.finished = false := by
      by_contra hf
      have hs := hop.1
      rw [hbegun (by simpa using hf)] at hs
      cases hs
    rw [(hop.operate_eq hf).1, (hop.operate_eq hf).2]
    exact .opened hf hop
  cases op with
  | start =>
    cases hs : s.started with
    | false => exact hopened ⟨hs, Or.inl rfl⟩
    | true =>
      have hidle : s.operate .start = ([], s) ∧ s.outcome .start = .ok () := by
        simp [operate, outcome, opening, start, hs]
      rw [hidle.1, hidle.2]
      exact .idle
  | call c =>
    cases c with
    | cancel => exact .cancelled rfl
    | step =>
      cases hf : s.finished with
      | true =>
        rcases step_of_finished hf with ⟨hnone, hsame⟩
        have hidle : s.operate (.call .step) = ([], s) := by
          show (s.handled, s.step.2) = _
          rw [hnone, hsame]
        have hok : s.outcome (.call .step) = .ok () := by
          simp [outcome, step, hf, Except.map]
        rw [hidle, hok]
        exact .idle
      | false =>
        cases hc : s.cancelRequested with
        | true => exact .stopped hf hc
        | false =>
          cases hs : s.started with
          | true => exact .advanced hf hc hs
          | false => exact hopened ⟨hs, Or.inr ⟨rfl, hc⟩⟩

/-! ## What every row keeps -/

/-- What holds of a session that started with the view `v₀` and has handled `entries`. -/
structure Sound (v₀ : View) (s : Session) (entries : List Handled) : Prop
    extends Consistent v₀ s entries where
  begun : s.finished = true → s.started = true

theorem sound_new (source : Source) (sink : Sink) (request : ByteRange) (options : ReaderOptions)
    (retains : Bool) :
    Sound (new source sink request options retains).view (new source sink request options retains)
      [] :=
  ⟨consistent_refl (initial_new source sink request options retains), fun hf => by cases hf⟩

/-- A session that has not begun has the view it was made with. -/
theorem Sound.view_of_not_started {v₀ : View} {s : Session} {entries : List Handled}
    (h : Sound v₀ s entries) (hf : s.finished = false) (hs : s.started = false) :
    entries = [] ∧ s.view = { v₀ with cancelRequested := s.cancelRequested } := by
  rcases h.goesOn hf with hnew | hready
  · exact hnew
  · have hstarted : s.started = true := hready.started
    rw [hs] at hstarted
    cases hstarted

theorem Sound.not_headerWritten {v₀ : View} (hv₀ : v₀.Initial) {s : Session}
    {entries : List Handled} (h : Sound v₀ s entries) (hf : s.finished = false)
    (hs : s.started = false) : s.view.headerWritten = false :=
  (congrArg View.headerWritten (h.view_of_not_started hf hs).2).trans hv₀.headerWritten

/-- A session that has begun and goes on is ready for the next block. -/
theorem Sound.ready {v₀ : View} (hv₀ : v₀.Initial) {s : Session} {entries : List Handled}
    (h : Sound v₀ s entries) (hf : s.finished = false) (hs : s.started = true) :
    s.view.Ready := by
  rcases h.goesOn hf with ⟨-, hview⟩ | hready
  · have hstarted : s.started = v₀.started := congrArg View.started hview
    rw [hs, hv₀.started] at hstarted
    cases hstarted
  · exact hready

/-- An explicit start, also of a session that was cancelled. -/
theorem Consistent.start {v₀ : View} (hv₀ : v₀.Initial) {s : Session} (h : Consistent v₀ s [])
    (hf : s.finished = false)
    (hview : s.view = { v₀ with cancelRequested := s.cancelRequested }) :
    Consistent v₀ s.start.2 s.opening := by
  have hs : s.started = false := (congrArg View.started hview).trans hv₀.started
  have hheader : s.view.headerWritten = false :=
    (congrArg View.headerWritten hview).trans hv₀.headerWritten
  exact h.opened hv₀ hf hview (start_rootTurn hf hs hheader)

theorem started_start {s : Session} (hf : s.finished = false) (hs : s.started = false)
    (hheader : s.view.headerWritten = false) : s.start.2.started = true := by
  rcases start_rootTurn hf hs hheader with ⟨-, hended, -⟩ | ⟨header, block, fate, -, hturn, -⟩
  · exact hended.keeps.started
  · exact hturn.keeps.started

theorem started_step {s : Session} (hf : s.finished = false) (hc : s.cancelRequested = false)
    (hready : s.view.Ready) : s.step.2.started = true := by
  rcases step_turn hf hc hready with ⟨-, hview, -⟩ | ⟨block, fate, -, hturn, -⟩
  · exact (congrArg View.started hview).trans hready.started
  · exact hturn.keeps.started.trans hready.started

/-- An operation begins the session, or it leaves it alone but for a cancellation. -/
theorem Sound.started_or_eq {v₀ : View} (hv₀ : v₀.Initial) {s : Session}
    {entries : List Handled} (h : Sound v₀ s entries) (op : Operation) :
    (s.operate op).2.started = true ∨ ∃ c, (s.operate op).2 = { s with cancelRequested := c } := by
  have heffect := effect_operate h.begun op
  generalize s.operate op = after at heffect
  generalize s.outcome op = result at heffect
  cases heffect with
  | idle => exact Or.inr ⟨s.cancelRequested, rfl⟩
  | cancelled => exact Or.inr ⟨true, rfl⟩
  | stopped hf hc => exact Or.inl (congrArg View.started (step_of_cancelled hf hc).2.1)
  | opened hf hop =>
    exact Or.inl (started_start hf hop.1 (h.not_headerWritten hv₀ hf hop.1))
  | advanced hf hc hs => exact Or.inl (started_step hf hc (h.ready hv₀ hf hs))

theorem Sound.consistent_operate {v₀ : View} (hv₀ : v₀.Initial) {s : Session}
    {entries : List Handled} (h : Sound v₀ s entries) (op : Operation) :
    Consistent v₀ (s.operate op).2 (entries ++ (s.operate op).1) := by
  have heffect := effect_operate h.begun op
  generalize s.operate op = after at heffect
  generalize s.outcome op = result at heffect
  cases heffect with
  | idle =>
    rw [List.append_nil]
    exact h.toConsistent
  | cancelled =>
    rw [List.append_nil]
    exact h.toConsistent.cancel
  | stopped hf hc => exact h.toConsistent.step hv₀
  | opened hf hop =>
    obtain ⟨rfl, hview⟩ := h.view_of_not_started hf hop.1
    exact h.toConsistent.start hv₀ hf hview
  | advanced hf hc hs => exact h.toConsistent.step hv₀

theorem Sound.operate {v₀ : View} (hv₀ : v₀.Initial) {s : Session} {entries : List Handled}
    (h : Sound v₀ s entries) (op : Operation) :
    Sound v₀ (s.operate op).2 (entries ++ (s.operate op).1) := by
  refine ⟨h.consistent_operate hv₀ op, ?_⟩
  rcases h.started_or_eq hv₀ op with hstarted | ⟨c, hkept⟩
  · exact fun _ => hstarted
  · rw [hkept]
    exact h.begun

theorem Sound.perform {v₀ : View} (hv₀ : v₀.Initial) {s : Session} {entries : List Handled}
    (h : Sound v₀ s entries) (ops : List Operation) :
    Sound v₀ (s.perform ops).2 (entries ++ (s.perform ops).1) :=
  keeps_perform (P := Sound v₀) (fun h op => h.operate hv₀ op) h ops

/-- What is kept by every operation on sessions that are sound holds behind every row of them. -/
theorem Sound.keeps {v₀ : View} (hv₀ : v₀.Initial) {P : Session → List Handled → Prop}
    (hP : ∀ {s : Session} {entries : List Handled}, Sound v₀ s entries → P s entries →
      ∀ op, P (s.operate op).2 (entries ++ (s.operate op).1))
    {s : Session} {entries : List Handled} (h : Sound v₀ s entries) (hp : P s entries)
    (ops : List Operation) : P (s.perform ops).2 (entries ++ (s.perform ops).1) := by
  have hboth := keeps_perform (P := fun s entries => Sound v₀ s entries ∧ P s entries)
    (fun h op => ⟨h.1.operate hv₀ op, hP h.1 h.2 op⟩) ⟨h, hp⟩ ops
  exact hboth.2

/-! ## What becomes of the view -/

/-- What one operation makes of the view, with the blocks that it handles. -/
inductive View.Moves (v : View) : List Handled → View → Prop where
  /-- The session was told to end, ended, or was left alone. -/
  | flags (started cancelRequested : Bool) :
      Moves v [] { v with started := started, cancelRequested := cancelRequested }
  /-- There was no root. -/
  | ended (v' : View) (hfresh : v.layout.stage = .fresh) (hselection : v.selection = none)
      (h : View.Ended { v with started := true } v') : Moves v [] v'
  | root (header : Header) (block : Block) (fate : Fate) (v' : View) (hlayout : v.layout.Valid)
      (hfresh : v.layout.stage = .fresh) (hselection : v.selection = none)
      (h : View.RootTurn { v with started := true } header block fate v') :
      Moves v [⟨block, some (v.placeRoot header block).1, fate⟩] v'
  | turn (block : Block) (p : Option Placement) (fate : Fate) (v' : View)
      (hlayout : v.layout.Valid) (h : v.Turn block p fate v') : Moves v [⟨block, p, fate⟩] v'

theorem Sound.moves {v₀ : View} (hv₀ : v₀.Initial) {s : Session} {entries : List Handled}
    (h : Sound v₀ s entries) (op : Operation) :
    s.view.Moves (s.operate op).1 (s.operate op).2.view := by
  have heffect := effect_operate h.begun op
  generalize s.operate op = after at heffect
  generalize s.outcome op = result at heffect
  cases heffect with
  | idle => exact .flags s.started s.cancelRequested
  | cancelled => exact .flags s.started true
  | stopped hf hc =>
    obtain ⟨hnone, hview, -⟩ := step_of_cancelled hf hc
    rw [hnone, hview]
    exact .flags true s.cancelRequested
  | opened hf hop =>
    have hs := hop.1
    have hheader := h.not_headerWritten hv₀ hf hs
    obtain ⟨rfl, hview⟩ := h.view_of_not_started hf hs
    have hselection : s.view.selection = none :=
      (congrArg View.selection hview).trans hv₀.selection
    have hfresh : s.view.layout.stage = .fresh := by
      rcases hv₀.layout with ⟨retains, hlayout⟩
      rw [congrArg View.layout hview]
      show v₀.layout.stage = .fresh
      rw [hlayout]
    show s.view.Moves s.opening s.start.2.view
    rcases start_rootTurn hf hs hheader with
      ⟨hnone, hended, -⟩ | ⟨header, block, fate, hsome, hturn, -⟩
    · rw [hnone]
      exact .ended _ hfresh hselection hended
    · rw [hsome]
      exact .root header block fate _ h.placed.layout hfresh hselection hturn
  | advanced hf hc hs =>
    show s.view.Moves s.handled s.step.2.view
    rcases step_turn hf hc (h.ready hv₀ hf hs) with
      ⟨hnone, hview, -⟩ | ⟨block, fate, hsome, hturn, -⟩
    · rw [hnone, hview]
      exact .flags s.started s.cancelRequested
    · rw [hsome]
      exact .turn block _ fate _ h.placed.layout hturn

/-- What no operation breaks. -/
def View.Invariant (P : View → List Handled → Prop) : Prop :=
  ∀ (v v' : View) (entries handled : List Handled), v.Moves handled v' → P v entries →
    P v' (entries ++ handled)

/-- An invariant that holds of a session holds behind every row of operations. -/
theorem Sound.invariant {v₀ : View} (hv₀ : v₀.Initial) {P : View → List Handled → Prop}
    (hP : View.Invariant P) {s : Session} {entries : List Handled} (h : Sound v₀ s entries)
    (hp : P s.view entries) (ops : List Operation) :
    P (s.perform ops).2.view (entries ++ (s.perform ops).1) :=
  h.keeps hv₀ (P := fun s entries => P s.view entries)
    (fun h hp op => hP _ _ _ _ (h.moves hv₀ op) hp) hp ops

end Session

end CarSlice
