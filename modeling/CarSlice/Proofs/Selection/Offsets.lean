import CarSlice.ByteRange
import CarSlice.Proofs.Layout.Tiling
import CarSlice.Selection

/-!
# Selections by offset

A selection knows no offsets: it counts down what is left before the start and the
end of its range.  As long as it is told of every interval of a tiling, both counts
are the distance from the cursor, or zero behind it (`Selection.Tracks`), and its
decisions can be said by offset:

* a block is kept if it is wanted (`Interval.isWanted`), that is unless it is a leaf
  that stops at or before the start;
* the range is complete behind the first block that ends it (`Interval.endsRange`),
  unless the range ends with the file.

`decide_ofInterval` is the step.  `decide_place` says what becomes of any block that a
layout places, be it a mismatch or not.
-/

namespace CarSlice

namespace Interval

/-- Whether a block is needed for a range from `start` on.  Nodes with children are
needed for verification wherever they lie. -/
def isWanted (i : Interval) (start : Nat) : Bool :=
  !i.isData || start ≤ i.start || start < i.stop

/-- Whether the range from `start` to `stop` ends with a block.  A node with children
and without bytes of its own ends nothing. -/
def endsRange (i : Interval) (start stop : Nat) : Bool :=
  stop ≤ i.stop && (start < i.stop || start ≤ i.start) && (i.isData || i.start < i.stop)

theorem length_eq {i : Interval} (hle : i.start ≤ i.stop) (hmax : i.stop ≤ maxCount) :
    i.length = i.stop - i.start := by
  have hwords : wordValues = maxCount + 1 := rfl
  rw [length, show i.stop + wordValues - i.start = (i.stop - i.start) + wordValues by omega,
    Nat.add_mod_right, Nat.mod_eq_of_lt (by omega)]

end Interval

/-- A range that is accepted lies in the file. -/
theorem ByteRange.resolve_le {range : ByteRange} {size stop : Nat}
    (h : range.resolve size = .ok stop) : range.start ≤ stop ∧ stop ≤ size := by
  unfold resolve at h
  dsimp only at h
  split at h
  · next hlies =>
    simp only [liesIn, Bool.and_eq_true, decide_eq_true_eq] at hlies
    obtain rfl := Except.ok.inj h
    exact ⟨hlies.2, hlies.1.2⟩
  · cases h

/-- A range that is accepted begins in the file, or at its beginning if it is empty. -/
theorem ByteRange.start_of_resolve {range : ByteRange} {size stop : Nat}
    (h : range.resolve size = .ok stop) : range.start < size ∨ range.start = 0 := by
  unfold resolve at h
  dsimp only at h
  split at h
  · next hlies =>
    simp only [liesIn, Bool.and_eq_true, Bool.or_eq_true, decide_eq_true_eq, beq_iff_eq] at hlies
    exact hlies.1.1.imp_right fun hempty => hempty.2
  · cases h

/-- The phases in which placements are still looked at. -/
def Phase.isOpen : Phase → Bool
  | .awaitingStructure | .discarding | .emitting => true
  | .satisfied | .passthrough => false

namespace Selection

/-- The counts are the distances from the cursor to the ends of the range.  In the
range itself the cursor lies between them, unless only the end of the file ends the
range. -/
structure Tracks (s : Selection) (start stop cursor : Nat) : Prop where
  startRemaining : s.startRemaining = start - cursor
  endRemaining : s.endRemaining = stop - cursor
  emitting : s.phase = .emitting → start ≤ cursor ∧ (s.endsWithFile = true ∨ cursor < stop)

theorem tracks_ofRange (start stop : Nat) (size : Option Nat) :
    (ofRange start stop size).Tracks start stop 0 := by
  constructor <;> simp [ofRange]

theorem decide_ofInterval_eq {s : Selection} (hopen : s.phase.isOpen = true) (i : Interval) :
    s.decide (.ofInterval i) = s.decideSpan i.length (!i.isData) := by
  cases hdata : i.isData <;> cases hphase : s.phase <;>
    simp_all [decide, Placement.ofInterval, Phase.isOpen]

/-- The first block that lies neither before the range nor is a node without bytes
begins it, and in the range every block counts. -/
theorem decideSpan_emitting {s : Selection} (hopen : s.phase.isOpen = true) {length : Nat}
    {isStructural : Bool}
    (h : s.phase = .emitting ∨
      s.isBefore length = false ∧ (isStructural && length == 0) = false) :
    s.decideSpan length isStructural =
      (.emit, { s with phase := .emitting }.emitSpan length) := by
  by_cases hphase : s.phase = .emitting
  · simp [decideSpan, hphase]
    rw [← hphase]
  · obtain ⟨hbefore, hquiet⟩ := h.resolve_left hphase
    have hearly : s.phase = .awaitingStructure ∨ s.phase = .discarding := by
      cases hp : s.phase <;> simp_all [Phase.isOpen]
    rw [decideSpan, if_pos hearly, hbefore, hquiet]
    rfl

theorem emitSpan_eq (s : Selection) (length : Nat) :
    s.emitSpan length =
      { s with
        phase := if s.endsWithFile = false ∧ s.endRemaining ≤ length then .satisfied
          else s.phase }.consume length := by
  by_cases h : s.endsWithFile = false ∧ s.endRemaining ≤ length
  · rw [if_pos h, emitSpan]
    simp [h]
  · rw [if_neg h, emitSpan]
    have hnot : (!s.endsWithFile && Decidable.decide (s.endRemaining ≤ length)) = false := by
      simpa using h
    simp [hnot]

/-- Taking the length of an interval off both counts moves the cursor behind it. -/
theorem Tracks.consume {s : Selection} {start stop : Nat} {i : Interval}
    (h : s.Tracks start stop i.start) (hle : i.start ≤ i.stop) (phase : Phase)
    (hemitting : phase = .emitting →
      start ≤ i.stop ∧ (s.endsWithFile = true ∨ i.stop < stop)) :
    ({ s with phase := phase }.consume (i.stop - i.start)).Tracks start stop i.stop := by
  have hstart := h.startRemaining
  have hend := h.endRemaining
  constructor
  · show s.startRemaining - (i.stop - i.start) = start - i.stop
    omega
  · show s.endRemaining - (i.stop - i.start) = stop - i.stop
    omega
  · exact hemitting

/-- What a selection makes of the next interval of a tiling. -/
structure Follows (s : Selection) (decision : Decision) (s' : Selection) (start stop : Nat)
    (i : Interval) : Prop where
  decision : decision = if i.isWanted start then .emit else .drop
  tracks : s'.Tracks start stop i.stop
  endsWithFile : s'.endsWithFile = s.endsWithFile
  lateMismatch : s'.lateMismatch = s.lateMismatch
  phase : if s.endsWithFile = false ∧ i.endsRange start stop = true then s'.phase = .satisfied
    else s'.phase.isOpen = true

/-- A selection that is satisfied has seen the end of the range. -/
theorem Follows.stop_le {s s' : Selection} {decision : Decision} {start stop : Nat} {i : Interval}
    (h : s.Follows decision s' start stop i) (hsatisfied : s'.phase = .satisfied) :
    stop ≤ i.stop := by
  have hphase := h.phase
  split_ifs at hphase with hends
  · have hends := hends.2
    simp only [Interval.endsRange, Bool.and_eq_true, decide_eq_true_eq] at hends
    exact hends.1.1
  · rw [hsatisfied] at hphase
    simp [Phase.isOpen] at hphase

/-- What is dropped is a leaf before the range. -/
theorem Follows.of_drop {s s' : Selection} {start stop : Nat} {i : Interval}
    (h : s.Follows .drop s' start stop i) : i.isData = true ∧ i.stop ≤ start := by
  have hwanted : i.isWanted start = false := by
    by_contra hwanted
    have hdecision := h.decision
    simp [hwanted] at hdecision
  simp only [Interval.isWanted, Bool.or_eq_false_iff, decide_eq_false_iff_not,
    Bool.not_eq_false'] at hwanted
  rcases hwanted with ⟨⟨hdata, -⟩, hbefore⟩
  exact ⟨hdata, by omega⟩

section

variable {s : Selection} {start stop : Nat} {i : Interval} (h : s.Tracks start stop i.start)
  (hopen : s.phase.isOpen = true) (hle : i.start ≤ i.stop)

include h hopen

include hle in
/-- A block before the range is dropped if it is a leaf. -/
theorem follows_before (hphase : s.phase ≠ .emitting) (hstart : i.start < start)
    (hstop : i.stop ≤ start) :
    s.Follows (s.decideSpan (i.stop - i.start) (!i.isData)).1
      (s.decideSpan (i.stop - i.start) (!i.isData)).2 start stop i := by
  have hremaining := h.startRemaining
  have hearly : s.phase = .awaitingStructure ∨ s.phase = .discarding := by
    cases hp : s.phase <;> simp_all [Phase.isOpen]
  have hbefore : s.isBefore (i.stop - i.start) = true := by
    simp only [isBefore, Bool.and_eq_true, decide_eq_true_eq]
    omega
  have hnot : i.endsRange start stop = false := by
    simp only [Interval.endsRange, Bool.and_eq_false_iff, Bool.or_eq_false_iff,
      decide_eq_false_iff_not]
    omega
  have hwanted : i.isWanted start = !i.isData := by
    simp only [Interval.isWanted, decide_eq_false (show ¬start ≤ i.start by omega),
      decide_eq_false (show ¬start < i.stop by omega), Bool.or_false]
  rw [decideSpan, if_pos hearly, if_pos hbefore]
  cases hdata : i.isData with
  | false =>
    have hkeep := h.consume hle s.phase (fun hp => absurd hp hphase)
    refine ⟨by simp [hwanted, hdata], hkeep, rfl, rfl, ?_⟩
    simpa [hnot, Selection.consume] using hopen
  | true =>
    have hkeep := h.consume hle .discarding (by simp)
    refine ⟨by simp [hwanted, hdata], hkeep, rfl, rfl, ?_⟩
    simp [hnot, Selection.consume, Phase.isOpen]

/-- A node without bytes of its own changes nothing before the first block of the
range. -/
theorem follows_quiet (hphase : s.phase ≠ .emitting) (hstart : start ≤ i.start)
    (hdata : i.isData = false) (hempty : i.start = i.stop) :
    s.Follows (s.decideSpan (i.stop - i.start) (!i.isData)).1
      (s.decideSpan (i.stop - i.start) (!i.isData)).2 start stop i := by
  have hremaining := h.startRemaining
  have hearly : s.phase = .awaitingStructure ∨ s.phase = .discarding := by
    cases hp : s.phase <;> simp_all [Phase.isOpen]
  have hbefore : s.isBefore (i.stop - i.start) = false := by
    simp only [isBefore, Bool.and_eq_false_iff, decide_eq_false_iff_not]
    omega
  have hstep : s.decideSpan (i.stop - i.start) (!i.isData) = (.emit, s) := by
    rw [decideSpan, if_pos hearly, hbefore]
    simp [hdata, hempty]
  rw [hstep]
  refine ⟨by simp [Interval.isWanted, hdata], hempty ▸ h, rfl, rfl, ?_⟩
  simpa [Interval.endsRange, hdata, hempty] using hopen

include hle in
/-- A block in the range, or the first one that reaches into it, is kept and may end the
range. -/
theorem follows_emitting (hwanted : start ≤ i.start ∨ start < i.stop)
    (hbegin : s.phase = .emitting ∨ i.isData = true ∨ i.start < i.stop) :
    s.Follows (s.decideSpan (i.stop - i.start) (!i.isData)).1
      (s.decideSpan (i.stop - i.start) (!i.isData)).2 start stop i := by
  have hstart := h.startRemaining
  have hend := h.endRemaining
  have hemitting := h.emitting
  have hstep : s.decideSpan (i.stop - i.start) (!i.isData) =
      (.emit, { s with phase := .emitting }.emitSpan (i.stop - i.start)) := by
    refine decideSpan_emitting hopen (hbegin.imp_right fun hbegin => ⟨?_, ?_⟩)
    · simp only [isBefore, Bool.and_eq_false_iff, decide_eq_false_iff_not]
      omega
    · rcases hbegin with hdata | hlt
      · simp [hdata]
      · have hne : i.stop - i.start ≠ 0 := by omega
        simp [hne]
  have hends : s.endsWithFile = false →
      (i.endsRange start stop = true ↔ s.endRemaining ≤ i.stop - i.start) := by
    intro hfile
    have hbytes : stop ≤ i.stop → i.isData = true ∨ i.start < i.stop := by
      intro hstop
      rcases hbegin with hphase | hbegin
      · rcases (hemitting hphase).2 with hfile' | hlt
        · rw [hfile] at hfile'
          cases hfile'
        · exact Or.inr (by omega)
      · exact hbegin
    simp only [Interval.endsRange, Bool.and_eq_true, Bool.or_eq_true, decide_eq_true_eq]
    constructor
    · intro h
      rcases h with ⟨⟨hstop, -⟩, -⟩
      omega
    · intro hle'
      have hstop : stop ≤ i.stop := by omega
      exact ⟨⟨hstop, by omega⟩, hbytes hstop⟩
  rw [hstep, emitSpan_eq]
  refine ⟨?_, h.consume hle _ ?_, rfl, rfl, ?_⟩
  · have : i.isWanted start = true := by
      simp only [Interval.isWanted, Bool.or_eq_true, decide_eq_true_eq]
      omega
    simp [this]
  · intro hphase
    split_ifs at hphase with hcond
    refine ⟨by omega, ?_⟩
    cases hfile : s.endsWithFile
    · have hnot : ¬s.endRemaining ≤ i.stop - i.start := fun hle' => hcond ⟨hfile, hle'⟩
      exact Or.inr (by omega)
    · exact Or.inl rfl
  · by_cases hcond : s.endsWithFile = false ∧ s.endRemaining ≤ i.stop - i.start
    · rw [if_pos ⟨hcond.1, (hends hcond.1).2 hcond.2⟩]
      simp [Selection.consume, hcond]
    · rw [if_neg fun hc => hcond ⟨hc.1, (hends hc.1).1 hc.2⟩]
      simp [Selection.consume, hcond, Phase.isOpen]

end

/-- One interval further, a selection still tracks the cursor.  It keeps the block if it
is wanted and is satisfied if the range ends with it. -/
theorem decide_ofInterval {s : Selection} {start stop : Nat} {i : Interval}
    (h : s.Tracks start stop i.start) (hopen : s.phase.isOpen = true) (hle : i.start ≤ i.stop)
    (hmax : i.stop ≤ maxCount) :
    s.Follows (s.decide (.ofInterval i)).1 (s.decide (.ofInterval i)).2 start stop i := by
  rw [decide_ofInterval_eq hopen, i.length_eq hle hmax]
  by_cases hphase : s.phase = .emitting
  · exact follows_emitting h hopen hle (Or.inl (h.emitting hphase).1) (Or.inl hphase)
  by_cases hbefore : i.start < start ∧ i.stop ≤ start
  · exact follows_before h hopen hle hphase hbefore.1 hbefore.2
  by_cases hquiet : i.isData = false ∧ i.start = i.stop
  · have hempty := hquiet.2
    exact follows_quiet h hopen hphase (by omega) hquiet.1 hempty
  · refine follows_emitting h hopen hle (by omega) (Or.inr ?_)
    cases hdata : i.isData
    · right
      have hne : i.start ≠ i.stop := fun heq => hquiet ⟨hdata, heq⟩
      omega
    · exact Or.inl rfl

theorem decide_mismatch {s : Selection} (hopen : s.phase.isOpen = true) (offset : Nat)
    (reason : Mismatch) :
    (s.decide (.mismatch offset reason)).1 = .emit ∧
      (s.decide (.mismatch offset reason)).2.phase = .passthrough := by
  cases hphase : s.phase <;> simp_all [decide, Phase.isOpen]

theorem emitSpan_phase (s : Selection) (length : Nat) :
    (s.emitSpan length).phase = s.phase ∨ (s.emitSpan length).phase = .satisfied := by
  rw [emitSpan_eq, Selection.consume]
  split_ifs
  · exact Or.inr rfl
  · exact Or.inl rfl

/-- What is dropped leaves the selection discarding.  What is kept moves it nowhere but into
the range or to its end. -/
theorem decideSpan_phase (s : Selection) (length : Nat) (isStructural : Bool) :
    (s.decideSpan length isStructural).1 = .drop ∧
        (s.decideSpan length isStructural).2.phase = .discarding ∨
      (s.decideSpan length isStructural).1 = .emit ∧
        ((s.decideSpan length isStructural).2.phase = s.phase ∨
          (s.decideSpan length isStructural).2.phase = .emitting ∨
          (s.decideSpan length isStructural).2.phase = .satisfied) := by
  rw [decideSpan]
  split_ifs
  · exact Or.inr ⟨rfl, Or.inl rfl⟩
  · exact Or.inl ⟨rfl, rfl⟩
  · exact Or.inr ⟨rfl, Or.inl rfl⟩
  · exact Or.inr ⟨rfl, Or.inr (emitSpan_phase _ length)⟩
  · exact Or.inr ⟨rfl, (s.emitSpan_phase length).imp_right Or.inr⟩

/-- A block that a layout does not take is a mismatch, behind which everything is kept.
Any other block is decided on by its interval. -/
theorem decide_place {l : Layout} (hl : l.Valid) (hstage : l.stage ≠ .complete)
    {s : Selection} {start stop : Nat} (h : s.Tracks start stop l.cursor)
    (hopen : s.phase.isOpen = true) (c : UnixFs.Content) :
    (l.slotsAfter? c = none ∧ (∃ offset reason, (l.place c).1 = .mismatch offset reason) ∧
        (s.decide (l.place c).1).1 = .emit ∧
        (s.decide (l.place c).1).2.phase = .passthrough) ∨
      (l.slotsAfter? c).isSome = true ∧ (l.place c).1 = .ofInterval (l.span c) ∧
        s.Follows (s.decide (l.place c).1).1 (s.decide (l.place c).1).2 start stop
          (l.span c) := by
  cases hslots : l.slotsAfter? c with
  | none =>
    left
    rcases Layout.place_refused hl hslots with ⟨reason, hplace⟩ | ⟨hcomplete, -⟩
    · have hmismatch : (l.place c).1 = .mismatch l.cursor reason := by rw [hplace]; rfl
      rw [hmismatch]
      exact ⟨rfl, ⟨_, _, rfl⟩, decide_mismatch hopen _ _⟩
    · exact absurd hcomplete hstage
  | some slots =>
    right
    obtain ⟨frames, -, -, hplace⟩ := Layout.place_taken hl hslots
    have hinterval : (l.place c).1 = .ofInterval (l.span c) := by rw [hplace]
    have hmax : (l.span c).stop ≤ maxCount := Nat.min_le_right _ _
    rw [hinterval]
    exact ⟨rfl, rfl, decide_ofInterval h hopen (hl.span_start_le c) hmax⟩

/-- How a block that a layout places moves the phase: a mismatch turns to passing everything
through, and nothing else does. -/
theorem decide_place_phase {l : Layout} (hl : l.Valid) (hstage : l.stage ≠ .complete)
    {s : Selection} (hopen : s.phase.isOpen = true) (c : UnixFs.Content) :
    ((∃ reason, l.place c = l.fail reason) ∧
        s.decide (l.place c).1 =
          (.emit, { s with
            lateMismatch := s.phase != .awaitingStructure, phase := .passthrough })) ∨
      (l.place c).1 = .ofInterval (l.span c) ∧
        ((s.decide (l.place c).1).1 = .drop ∧ (s.decide (l.place c).1).2.phase = .discarding ∨
          (s.decide (l.place c).1).1 = .emit ∧
            ((s.decide (l.place c).1).2.phase = s.phase ∨
              (s.decide (l.place c).1).2.phase = .emitting ∨
              (s.decide (l.place c).1).2.phase = .satisfied)) := by
  rcases Layout.place_cases hl c with ⟨frames, hplace⟩ | ⟨reason, hplace⟩ | ⟨hcomplete, -⟩
  · right
    have hinterval : (l.place c).1 = .ofInterval (l.span c) := by rw [hplace]
    rw [hinterval, decide_ofInterval_eq hopen]
    exact ⟨rfl, decideSpan_phase s _ _⟩
  · left
    refine ⟨⟨reason, hplace⟩, ?_⟩
    rw [hplace]
    cases hphase : s.phase <;> simp_all [Layout.fail, decide, Phase.isOpen]
  · exact absurd hcomplete hstage

end Selection

end CarSlice
