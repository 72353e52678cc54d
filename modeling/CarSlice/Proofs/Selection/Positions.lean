import CarSlice.Proofs.Selection.Offsets

/-!
# Selections that know their position

A selection counts down what is left before the start and before the end of its range.  An
`OffsetSelection` does not count down: it keeps the range as it is, and adds up how many bytes the
blocks have spanned that it looked at.  This sum is not limited to 64 bits.  What becomes of a
block is said by comparing the two.

* `Agrees` relates the two: each count is the distance from the position to its end of the range,
  or zero behind it.
* `Agrees.span`: a block that spans bytes of the file keeps this, whichever side of the start and
  of the end it lies on.  `Agrees.tell` says so of every call.
* `counts_as_by_position`: no row of calls can tell the two apart.
-/

namespace CarSlice

/-! ## Selecting by position -/

/-- A range that is being selected by position. -/
structure OffsetSelection where
  start : Nat
  stop : Nat
  fileSize : Option Nat
  /-- How many bytes the blocks have spanned that were looked at. -/
  passed : Nat := 0
  phase : Phase := .awaitingStructure
  /-- Whether a mismatch came after the selection had begun. -/
  lateMismatch : Bool := false
  deriving Repr, DecidableEq

namespace OffsetSelection

/-- The selection of a range in a file whose size may be known. -/
def ofRange (start stop : Nat) (fileSize : Option Nat) : OffsetSelection :=
  { start, stop, fileSize }

/-- Whether a block of the given length lies before the range. -/
def isBefore (s : OffsetSelection) (length : Nat) : Bool :=
  s.passed < s.start && s.passed + length ≤ s.start

/-- Whether the range ends with a block of the given length.  A range that ends where the file
does is ended by no block. -/
def isLast (s : OffsetSelection) (length : Nat) : Bool :=
  s.stop ≤ s.passed + length && s.fileSize != some s.stop

/-- The phase behind a block of the range. -/
def phaseInRange (s : OffsetSelection) (length : Nat) : Phase :=
  if s.isLast length then .satisfied else .emitting

/-- The phase behind a block that spans so many bytes. -/
def phaseBehind (s : OffsetSelection) (length : Nat) (isStructural : Bool) : Phase :=
  if s.phase = .emitting then s.phaseInRange length
  else if isStructural then
    if s.isBefore length || length == 0 then s.phase else s.phaseInRange length
  else if s.isBefore length then .discarding
  else s.phaseInRange length

/-- Only leaves are dropped, and only before the range has begun. -/
def drops (s : OffsetSelection) (length : Nat) (isStructural : Bool) : Bool :=
  s.phase != .emitting && !isStructural && s.isBefore length

/-- Decides on a block that spans so many bytes. -/
def span (s : OffsetSelection) (length : Nat) (isStructural : Bool) :
    Decision × OffsetSelection :=
  (if s.drops length isStructural then .drop else .emit,
    { s with passed := s.passed + length, phase := s.phaseBehind length isStructural })

/-- Decides on a placement. -/
def decide (s : OffsetSelection) (placement : Placement) : Decision × OffsetSelection :=
  match s.phase with
  | .passthrough => (.emit, s)
  | .satisfied => (.drop, s)
  | .awaitingStructure | .discarding | .emitting =>
    match placement with
    | .mismatch .. =>
      (.emit, { s with
        phase := .passthrough
        lateMismatch := s.phase == .discarding || s.phase == .emitting })
    | .detached _ => (.drop, s)
    | .structural i => s.span i.length true
    | .leaf i => s.span i.length false

/-- Keeps everything from here on. -/
def passThrough (s : OffsetSelection) : OffsetSelection :=
  { s with phase := .passthrough }

/-- The tree of the file is complete. -/
def fileComplete (s : OffsetSelection) : OffsetSelection :=
  { s with phase := if s.phase = .passthrough then .passthrough else .satisfied }

/-! ### What becomes of a block -/

section

variable {s : OffsetSelection} {length : Nat}

/-- A leaf before the range. -/
theorem span_leaf_before (hphase : s.phase ≠ .emitting) (hbefore : s.isBefore length = true) :
    s.span length false =
      (.drop, { s with passed := s.passed + length, phase := .discarding }) := by
  simp [span, drops, phaseBehind, hphase, hbefore]

/-- A node with children before the range, or one without bytes of its own. -/
theorem span_structural_before (hphase : s.phase ≠ .emitting)
    (hbefore : (s.isBefore length || length == 0) = true) :
    s.span length true = (.emit, { s with passed := s.passed + length }) := by
  simp [span, drops, phaseBehind, hphase, hbefore]

/-- A block of the range, or the first one that reaches into it. -/
theorem span_in_range {isStructural : Bool}
    (h : s.phase = .emitting ∨
      s.isBefore length = false ∧ (isStructural && length == 0) = false) :
    s.span length isStructural =
      (.emit, { s with passed := s.passed + length, phase := s.phaseInRange length }) := by
  rcases h with hphase | ⟨hbefore, hbytes⟩
  · simp [span, drops, phaseBehind, hphase]
  · cases isStructural with
    | true =>
      have hbytes : (length == 0) = false := hbytes
      simp [span, drops, phaseBehind, hbefore, hbytes]
    | false => simp [span, drops, phaseBehind, hbefore]

end

end OffsetSelection

/-! ## Calls -/

namespace Selection

/-- What a selection may be told. -/
inductive Call where
  | decide (placement : Placement)
  | fileComplete
  | passThrough
  deriving Repr, DecidableEq

/-- What a caller sees behind a call. -/
structure Seen where
  /-- What becomes of the block, if the call was about one. -/
  decision : Option Decision
  phase : Phase
  lateMismatch : Bool
  isSatisfied : Bool
  exitsEarly : Bool
  deriving Repr, DecidableEq

/-- What is seen of a selection. -/
def seen (s : Selection) (decision : Option Decision) : Seen :=
  { decision
    phase := s.phase
    lateMismatch := s.lateMismatch
    isSatisfied := s.isSatisfied
    exitsEarly := s.exitsEarly }

/-- Tells a selection something. -/
def tell (s : Selection) : Call → Seen × Selection
  | .decide placement =>
    ((s.decide placement).2.seen (s.decide placement).1, (s.decide placement).2)
  | .fileComplete => (s.fileComplete.seen none, s.fileComplete)
  | .passThrough => (s.passThrough.seen none, s.passThrough)

/-- What is seen behind each of a row of calls, and what is left behind the last, given what one
call does. -/
def observe {α : Type} (tell : α → Call → Seen × α) (s : α) : List Call → List Seen × α
  | [] => ([], s)
  | c :: calls =>
    ((tell s c).1 :: (observe tell (tell s c).2 calls).1, (observe tell (tell s c).2 calls).2)

end Selection

namespace OffsetSelection

open Selection (Call Seen)

/-- What is seen of a selection by position: it is satisfied in the phase of that name, and the
end of the range ends the work unless everything is kept. -/
def seen (s : OffsetSelection) (decision : Option Decision) : Seen :=
  { decision
    phase := s.phase
    lateMismatch := s.lateMismatch
    isSatisfied := s.phase == .satisfied
    exitsEarly := s.phase != .passthrough }

/-- Tells a selection by position something. -/
def tell (s : OffsetSelection) : Call → Seen × OffsetSelection
  | .decide placement =>
    ((s.decide placement).2.seen (s.decide placement).1, (s.decide placement).2)
  | .fileComplete => (s.fileComplete.seen none, s.fileComplete)
  | .passThrough => (s.passThrough.seen none, s.passThrough)

end OffsetSelection

namespace Selection

/-! ## The two agree -/

/-- A selection that has counted down to the position of another one, which stands in the same
phase. -/
structure Agrees (s : Selection) (r : OffsetSelection) : Prop where
  startRemaining : s.startRemaining = r.start - r.passed
  endRemaining : s.endRemaining = r.stop - r.passed
  endsWithFile : s.endsWithFile = (r.fileSize == some r.stop)
  phase : s.phase = r.phase
  lateMismatch : s.lateMismatch = r.lateMismatch

theorem agrees_ofRange (start stop : Nat) (fileSize : Option Nat) :
    (ofRange start stop fileSize).Agrees (.ofRange start stop fileSize) :=
  ⟨rfl, rfl, rfl, rfl, rfl⟩

section

variable {s : Selection} {r : OffsetSelection} (h : s.Agrees r)

include h

theorem Agrees.isBefore (length : Nat) : s.isBefore length = r.isBefore length := by
  have hstart := h.startRemaining
  rw [Bool.eq_iff_iff]
  simp only [Selection.isBefore, OffsetSelection.isBefore, Bool.and_eq_true, decide_eq_true_eq]
  omega

/-- Taking a length off both counts moves the position by it. -/
theorem Agrees.consume (length : Nat) (phase : Phase) :
    ({ s with phase := phase }.consume length).Agrees
      { r with passed := r.passed + length, phase := phase } := by
  have hstart := h.startRemaining
  have hend := h.endRemaining
  refine ⟨?_, ?_, h.endsWithFile, rfl, h.lateMismatch⟩
  · show s.startRemaining - length = r.start - (r.passed + length)
    omega
  · show s.endRemaining - length = r.stop - (r.passed + length)
    omega

/-- The count to the end of the range runs out with the block that reaches it. -/
theorem Agrees.isLast (length : Nat) :
    r.isLast length = true ↔ s.endsWithFile = false ∧ s.endRemaining ≤ length := by
  have hend := h.endRemaining
  have hfile := h.endsWithFile
  have hreach : r.stop ≤ r.passed + length ↔ s.endRemaining ≤ length := by omega
  rw [OffsetSelection.isLast, Bool.and_eq_true, decide_eq_true_eq, hreach, hfile, and_comm]
  simp [bne]

/-- A block of the range. -/
theorem Agrees.emitSpan (length : Nat) :
    ({ s with phase := .emitting }.emitSpan length).Agrees
      { r with passed := r.passed + length, phase := r.phaseInRange length } := by
  have hphase : r.phaseInRange length =
      if s.endsWithFile = false ∧ s.endRemaining ≤ length then .satisfied else .emitting := by
    rw [OffsetSelection.phaseInRange, if_congr (h.isLast length) rfl rfl]
  rw [emitSpan_eq, hphase]
  exact h.consume length _

/-- Before the range has begun, a leaf that lies before it is dropped. -/
theorem Agrees.span_leaf_before (hearly : s.phase = .awaitingStructure ∨ s.phase = .discarding)
    (hphase : r.phase ≠ .emitting) {length : Nat} (hbefore : r.isBefore length = true) :
    (s.decideSpan length false).1 = (r.span length false).1 ∧
      (s.decideSpan length false).2.Agrees (r.span length false).2 := by
  have hcounted : s.isBefore length = true := (h.isBefore length).trans hbefore
  rw [OffsetSelection.span_leaf_before hphase hbefore, decideSpan, if_pos hearly, if_pos hcounted]
  exact ⟨rfl, h.consume length .discarding⟩

/-- Before the range has begun, a node with children is kept that lies before it or has no bytes
of its own. -/
theorem Agrees.span_structural_before
    (hearly : s.phase = .awaitingStructure ∨ s.phase = .discarding) (hphase : r.phase ≠ .emitting)
    {length : Nat} (hbefore : (r.isBefore length || length == 0) = true) :
    (s.decideSpan length true).1 = (r.span length true).1 ∧
      (s.decideSpan length true).2.Agrees (r.span length true).2 := by
  have hcounted : s.isBefore length = r.isBefore length := h.isBefore length
  have hconsume : (s.consume length).Agrees
      { r with passed := r.passed + length, phase := s.phase } := h.consume length s.phase
  rw [h.phase] at hconsume
  rw [OffsetSelection.span_structural_before hphase hbefore, decideSpan, if_pos hearly, hcounted]
  cases hb : r.isBefore length with
  | true => exact ⟨rfl, hconsume⟩
  | false =>
    rw [hb] at hbefore
    obtain rfl : length = 0 := by simpa using hbefore
    exact ⟨rfl, h⟩

/-- Whatever a block spans, both selections make the same of it. -/
theorem Agrees.span (hopen : s.phase.isOpen = true) (length : Nat) (isStructural : Bool) :
    (s.decideSpan length isStructural).1 = (r.span length isStructural).1 ∧
      (s.decideSpan length isStructural).2.Agrees (r.span length isStructural).2 := by
  have hinRange (hreached : r.phase = .emitting ∨
      r.isBefore length = false ∧ (isStructural && length == 0) = false) :
      (s.decideSpan length isStructural).1 = (r.span length isStructural).1 ∧
        (s.decideSpan length isStructural).2.Agrees (r.span length isStructural).2 := by
    rw [OffsetSelection.span_in_range hreached]
    rw [← h.phase, ← h.isBefore length] at hreached
    rw [decideSpan_emitting hopen hreached]
    exact ⟨rfl, h.emitSpan length⟩
  by_cases hphase : r.phase = .emitting
  · exact hinRange (Or.inl hphase)
  have hearly : s.phase = .awaitingStructure ∨ s.phase = .discarding := by
    rw [← h.phase] at hphase
    cases hp : s.phase <;> simp_all [Phase.isOpen]
  cases isStructural with
  | true =>
    cases hbefore : r.isBefore length || length == 0 with
    | true => exact h.span_structural_before hearly hphase hbefore
    | false =>
      rw [Bool.or_eq_false_iff] at hbefore
      exact hinRange (Or.inr hbefore)
  | false =>
    cases hbefore : r.isBefore length with
    | true => exact h.span_leaf_before hearly hphase hbefore
    | false => exact hinRange (Or.inr ⟨hbefore, rfl⟩)

/-- Whatever is placed, both selections make the same of it. -/
theorem Agrees.decide (placement : Placement) :
    (s.decide placement).1 = (r.decide placement).1 ∧
      (s.decide placement).2.Agrees (r.decide placement).2 := by
  have hphase := h.phase
  have hspan (hopen : s.phase.isOpen = true) (length : Nat) (isStructural : Bool) :=
    h.span hopen length isStructural
  unfold Selection.decide OffsetSelection.decide
  rw [← hphase]
  cases hp : s.phase with
  | passthrough => exact ⟨rfl, h⟩
  | satisfied => exact ⟨rfl, h⟩
  | awaitingStructure | discarding | emitting =>
    cases placement with
    | mismatch offset reason =>
      exact ⟨rfl, h.startRemaining, h.endRemaining, h.endsWithFile, rfl, rfl⟩
    | detached offset => exact ⟨rfl, h⟩
    | structural i => exact hspan (by rw [hp]; rfl) i.length true
    | leaf i => exact hspan (by rw [hp]; rfl) i.length false

theorem Agrees.seen (decision : Option Decision) : s.seen decision = r.seen decision := by
  simp only [Selection.seen, OffsetSelection.seen, isSatisfied, exitsEarly, h.phase, h.lateMismatch]

theorem Agrees.passThrough : s.passThrough.Agrees r.passThrough :=
  ⟨h.startRemaining, h.endRemaining, h.endsWithFile, rfl, h.lateMismatch⟩

theorem Agrees.fileComplete : s.fileComplete.Agrees r.fileComplete := by
  unfold Selection.fileComplete OffsetSelection.fileComplete
  rw [← h.phase]
  split
  · next hpass => exact ⟨h.startRemaining, h.endRemaining, h.endsWithFile, hpass, h.lateMismatch⟩
  · exact ⟨h.startRemaining, h.endRemaining, h.endsWithFile, rfl, h.lateMismatch⟩

theorem Agrees.tell (c : Call) :
    (s.tell c).1 = (r.tell c).1 ∧ (s.tell c).2.Agrees (r.tell c).2 := by
  cases c with
  | decide placement =>
    obtain ⟨hdecision, hagrees⟩ := h.decide placement
    refine ⟨?_, hagrees⟩
    show (s.decide placement).2.seen (some (s.decide placement).1) = _
    rw [hdecision]
    exact hagrees.seen _
  | fileComplete => exact ⟨h.fileComplete.seen none, h.fileComplete⟩
  | passThrough => exact ⟨h.passThrough.seen none, h.passThrough⟩

theorem Agrees.observe (calls : List Call) :
    (observe Selection.tell s calls).1 = (observe OffsetSelection.tell r calls).1 ∧
      (observe Selection.tell s calls).2.Agrees (observe OffsetSelection.tell r calls).2 := by
  induction calls generalizing s r with
  | nil => exact ⟨rfl, h⟩
  | cons c calls ih =>
    obtain ⟨hseen, hagrees⟩ := h.tell c
    obtain ⟨hrest, hlast⟩ := ih hagrees
    exact ⟨congrArg₂ List.cons hseen hrest, hlast⟩

end

/-- No row of calls can tell a selection from one by position: behind every call the decision, the
phase and the flags are the same, and both counts are the distances from the position to the ends
of the range, or zero behind them. -/
theorem counts_as_by_position (start stop : Nat) (fileSize : Option Nat) (calls : List Call) :
    let counted := observe Selection.tell (.ofRange start stop fileSize) calls
    let placed := observe OffsetSelection.tell (.ofRange start stop fileSize) calls
    counted.1 = placed.1 ∧ counted.2.Agrees placed.2 :=
  (agrees_ofRange start stop fileSize).observe calls

/-- A leaf that ends at the start is dropped, a node without bytes there begins nothing, and the
leaf behind it ends the range. -/
example :
    (observe Selection.tell (.ofRange 4 6 (some 9))
        [.decide (.leaf ⟨0, 4, true⟩), .decide (.structural ⟨4, 4, false⟩),
          .decide (.leaf ⟨4, 6, true⟩)]).1.map (fun seen => (seen.decision, seen.phase)) =
      [(some .drop, .discarding), (some .emit, .discarding), (some .emit, .satisfied)] := by
  decide

end Selection

end CarSlice
