import CarSlice.Proofs.Layout.Failures

/-!
# Frames never run out

A layout looks at the innermost frame and at the present slot of that frame without asking
whether they are there, and takes what is filled of a slot off its size.  Here it is shown that
it may, whatever blocks come.

* Bytes.  `Layout.Accounted` keeps the number of bytes that all blocks taken so far hold,
  which no sum cuts off.  The cursor is that number, and with what the frames still want it
  makes up the size of the file, until the layout fails.
* Reasons.  A mismatch is always the fault of a block (`Mismatch.ofBlock`).  That the last
  slot is filled elsewhere than at the end of the file is a reason that is never given
  (`place_ofBlock`).
* `frames_never_run_out` says both of every row of blocks, and in which state it leaves the layout.
-/

namespace CarSlice

open UnixFs (Content Node)

/-- How many bytes the blocks of a row hold that were given an interval. -/
def ownSizes (row : List (Content × Placement)) : Nat :=
  (row.filterMap fun (c, p) => p.interval?.map fun _ => c.ownSize).sum

/-- How many bytes a block adds to a row. -/
def ownSizeIn (c : Content) (p : Placement) : Nat :=
  if p.interval?.isSome then c.ownSize else 0

theorem ownSizes_cons (c : Content) (p : Placement) (row : List (Content × Placement)) :
    ownSizes ((c, p) :: row) = ownSizeIn c p + ownSizes row := by
  cases h : p.interval? <;> simp [ownSizes, ownSizeIn, h]

namespace Layout

/-! ## Bytes -/

/-- A layout whose blocks hold so many bytes. -/
structure Accounted (l : Layout) (held : Nat) : Prop where
  cursor : l.cursor = min held maxCount
  size : l.hasFailed = false → ∀ size ∈ l.fileSize,
    min size maxCount = min (held + l.pending.sum) maxCount

theorem accounted_new (retains : Bool) : (new retains).Accounted 0 :=
  ⟨rfl, by simp⟩

/-- A block that is not taken adds nothing. -/
theorem Accounted.refused {l : Layout} (hl : l.Valid) {held : Nat} (h : l.Accounted held)
    {c : Content} (hslots : l.slotsAfter? c = none) :
    (l.place c).2.Accounted (held + ownSizeIn c (l.place c).1) := by
  have hnone : ownSizeIn c (l.place c).1 = 0 := by
    rw [ownSizeIn, (place_refused_keeps hl hslots).1]
    rfl
  rw [hnone, Nat.add_zero]
  obtain ⟨reason, hplace⟩ | ⟨-, hplace⟩ := place_refused hl hslots
  · rw [hplace]
    exact ⟨h.cursor, fun hok => by cases hok⟩
  · rw [hplace]
    exact h

theorem Accounted.place {l : Layout} (hl : l.Valid) {held : Nat} (h : l.Accounted held)
    (c : Content) : (l.place c).2.Accounted (held + ownSizeIn c (l.place c).1) := by
  cases hslots : l.slotsAfter? c with
  | none => exact h.refused hl hslots
  | some slots =>
    obtain ⟨frames, -, hframes, hplace⟩ := place_taken hl hslots
    have hown : ownSizeIn c (l.place c).1 = c.ownSize := by
      rw [ownSizeIn, hplace, Placement.interval?_ofInterval]
      rfl
    have hcursor := h.cursor
    rw [hown, hplace]
    constructor
    · show satAdd l.cursor c.ownSize = _
      rw [satAdd]
      omega
    · intro _ size hsize
      obtain rfl := Option.some.inj hsize
      show _ = min (held + c.ownSize + (pendingOf frames).sum) maxCount
      rw [hframes]
      cases hstage : l.stage with
      | fresh =>
        simp only [slotsAfter?, hstage] at hslots
        have hzero : held = 0 := by
          rw [hl.unsized (hl.fresh hstage)] at hcursor
          have hpos : 0 < maxCount := by decide
          omega
        rw [hl.fresh hstage, hzero, Nat.zero_add]
        exact rootSlots?_sum hslots
      | underway =>
        simp only [slotsAfter?, hstage] at hslots
        obtain ⟨_, size, hsize, -⟩ := hl.exists_reached hstage
        have hok : l.hasFailed = false := by
          rw [hasFailed, hstage]
        have hsum := h.size hok size hsize
        have hfill := fill?_sum hslots
        rw [hsize, Option.getD_some]
        omega
      | complete => simp [slotsAfter?, hstage] at hslots
      | failed reason => simp [slotsAfter?, hstage] at hslots

theorem Accounted.placeAll {l : Layout} (hl : l.Valid) {held : Nat} (h : l.Accounted held)
    (contents : List Content) :
    (l.placeAll contents).2.Accounted
      (held + ownSizes (contents.zip (l.placeAll contents).1)) := by
  induction contents generalizing l held with
  | nil => exact h
  | cons c contents ih =>
    rw [placeAll_cons, List.zip_cons_cons, ownSizes_cons, ← Nat.add_assoc]
    exact ih (hl.place c) (h.place hl c)

end Layout

/-! ## Reasons -/

/-- Whether a mismatch is the fault of a block, not of the offset at which the file ends. -/
def Mismatch.ofBlock : Mismatch → Bool
  | .endsElsewhere _ _ => false
  | _ => true

/-- Whatever went wrong with a layout is the fault of a block. -/
def Stage.Blames : Stage → Prop
  | .failed reason => reason.ofBlock = true
  | _ => True

namespace Layout

theorem placeRoot_ofBlock {l : Layout} {c : Content} {offset : Nat} {reason : Mismatch}
    (h : (l.placeRoot c).1 = .mismatch offset reason) : reason.ofBlock = true := by
  cases c with
  | bytes size =>
    cases h
    rfl
  | node node =>
    simp only [placeRoot] at h
    split_ifs at h
    · cases h
      rfl
    · cases h
      rfl
    · cases h
      rfl
    · cases h

theorem placeNode_ofBlock {l : Layout} {frame : Frame} {outer : List Frame} {node : Node}
    (hinline : node.isInlineLeaf = false) {offset : Nat} {reason : Mismatch}
    (h : (l.placeNode frame outer node).1 = .mismatch offset reason) : reason.ofBlock = true := by
  simp only [placeNode, hinline, Bool.false_eq_true, if_false] at h
  split_ifs at h
  · cases h
    rfl
  · cases h
    rfl
  · cases h
    rfl
  · cases h

/-- A mismatch is the fault of the block.  Where the check behind the last slot stands, a block
was taken, and then the check has passed. -/
theorem place_ofBlock {l : Layout} (hl : l.Valid) (hstage : l.stage.Blames) {c : Content}
    {offset : Nat} {reason : Mismatch} (h : (l.place c).1 = .mismatch offset reason) :
    reason.ofBlock = true := by
  cases hslots : l.slotsAfter? c with
  | some slots =>
    obtain ⟨frames, -, -, hplace⟩ := place_taken hl hslots
    rw [hplace, Placement.ofInterval] at h
    split at h
    · cases h
    · cases h
  | none =>
    cases hs : l.stage with
    | fresh =>
      simp only [place, hs] at h
      exact placeRoot_ofBlock h
    | underway =>
      simp only [slotsAfter?, hs] at hslots
      cases hframes : l.frames with
      | nil => exact absurd hframes (hl.underway.1 hs)
      | cons frame outer =>
        rw [pending_cons hframes] at hslots
        cases hleaf : c.leafSize? with
        | some m =>
          rw [fill?_of_leafSize? hleaf] at hslots
          have hover : frame.slot - frame.filled < m := by
            split_ifs at hslots
            omega
          rw [place_of_leafSize? hs hframes hleaf, placeLeaf, if_pos hover] at h
          cases h
          rfl
        | none =>
          cases c with
          | bytes size => cases hleaf
          | node node =>
            have hinline : node.isInlineLeaf = false := by
              simpa [Content.leafSize?] using hleaf
            rw [place_of_node hs hframes] at h
            exact placeNode_ofBlock hinline h
    | complete =>
      simp only [place, hs] at h
      cases h
    | failed reason' =>
      simp only [place, hs] at h
      cases h
      rw [hs] at hstage
      exact hstage

theorem blames_place {l : Layout} (hl : l.Valid) (hstage : l.stage.Blames) (c : Content) :
    (l.place c).2.stage.Blames := by
  cases hslots : l.slotsAfter? c with
  | some slots =>
    obtain ⟨frames, -, -, hplace⟩ := place_taken hl hslots
    rw [hplace]
    by_cases hf : frames = []
    · simp [taken, hf, Stage.Blames]
    · simp [taken, hf, Stage.Blames]
  | none =>
    obtain ⟨reason, hplace⟩ | ⟨-, hplace⟩ := place_refused hl hslots
    · have hblame : reason.ofBlock = true := by
        apply place_ofBlock hl hstage
        rw [hplace]
        rfl
      rw [hplace]
      exact hblame
    · rw [hplace]
      exact hstage

theorem placeAll_ofBlock {l : Layout} (hl : l.Valid) (hstage : l.stage.Blames)
    {contents : List Content} {offset : Nat} {reason : Mismatch}
    (h : .mismatch offset reason ∈ (l.placeAll contents).1) : reason.ofBlock = true := by
  induction contents generalizing l with
  | nil => cases h
  | cons c contents ih =>
    rw [placeAll_cons, List.mem_cons] at h
    rcases h with h | h
    · exact place_ofBlock hl hstage h.symm
    · exact ih (hl.place c) (blames_place hl hstage c) h

/-! ## Every row of blocks -/

/-- Whatever blocks a layout was given, it is in exactly one of four states: not started, with
slots left to fill, complete, or failed.  It has started exactly if it was given a block, and
failed exactly if one of them was a mismatch.  Frames are open exactly while slots are left.  Each
of them has a present slot, of which no more is filled than there is, so a block that comes
then finds a frame to go to, and only a complete layout calls a block detached.

The cursor is the number of bytes in the blocks so far, cut off at the largest count.  Once a
root was taken, and as long as nothing failed since, this number and what the open frames
still want make up the size of the file, cut off in the same way.  Only that the size of the
root's own bytes is a 64-bit word has to be assumed for this.  So no file is ever found to end
elsewhere than where it should. -/
theorem frames_never_run_out (retains : Bool) (contents : List Content) :
    let placements := ((new retains).placeAll contents).1
    let l := ((new retains).placeAll contents).2
    let held := ownSizes (contents.zip placements)
    [!l.started, l.isIncomplete, l.isComplete, l.hasFailed].count true = 1 ∧
      (l.started = true ↔ contents ≠ []) ∧
      (l.hasFailed = true ↔ ∃ offset reason, .mismatch offset reason ∈ placements) ∧
      (l.frames ≠ [] ↔ l.isIncomplete = true) ∧
      (∀ f ∈ l.frames, f.slots ≠ [] ∧ f.filled ≤ f.slot) ∧
      (∀ c offset, (l.place c).1 = .detached offset → l.isComplete = true) ∧
      l.cursor = min held maxCount ∧
      ((∀ root ∈ contents.head?, root.ownSize ≤ maxCount) → l.hasFailed = false →
        ∀ size, l.fileSize = some size → size = min (held + l.pending.sum) maxCount) ∧
      ∀ offset reached size, .mismatch offset (.endsElsewhere reached size) ∉ placements := by
  intro placements l held
  have hnew := valid_new retains
  have hl : l.Valid := hnew.placeAll contents
  have haccounted : l.Accounted held := by
    have hall := (accounted_new retains).placeAll hnew contents
    rwa [Nat.zero_add] at hall
  refine ⟨?_, ?_, ?_, ?_, ?_, ?_, haccounted.cursor, ?_, ?_⟩
  · cases h : l.stage <;> simp [started, isIncomplete, isComplete, hasFailed, h]
  · rw [started_placeAll hnew]
    simp [started]
  · rw [hasFailed_placeAll_iff hnew]
    exact or_iff_right Bool.false_ne_true
  · rw [← hl.underway]
    simp [isIncomplete]
  · intro f hf
    exact ⟨(hl.frames f hf).slots, (hl.frames f hf).filled⟩
  · intro c offset hdetached
    by_contra hnot
    have hstage : l.stage ≠ .complete := by
      simpa [isComplete] using hnot
    exact place_not_detached hl hstage c offset hdetached
  · intro hroot hok size hsize
    have hle := placeAll_fileSize_le hnew (by simp) (fun _ => hroot) size hsize
    have hsum := haccounted.size hok size hsize
    omega
  · intro offset reached size hmem
    have hblame := placeAll_ofBlock hnew trivial hmem
    cases hblame

/-- A layout that failed has dropped its frames but still knows the size of the file. -/
theorem failed_layout_wants_nothing :
    let root : Node := { kind := .file, childSizes := [5], linkCount := 1, inlineSize := 0,
                         filesize := none }
    let contents : List Content := [.node root, .bytes 6]
    let placements := ((new false).placeAll contents).1
    let l := ((new false).placeAll contents).2
    l.fileSize = some 5 ∧ l.hasFailed = true ∧
      min (ownSizes (contents.zip placements) + l.pending.sum) maxCount ≠ 5 := by
  decide +kernel

end Layout

end CarSlice
