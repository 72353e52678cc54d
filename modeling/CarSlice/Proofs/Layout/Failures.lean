import CarSlice.Proofs.Layout.Tiling

/-!
# What a mismatch leaves behind

A layout gives up because of a block either before it has done anything with it, or, where the last
slot was filled at the wrong offset, when the block has already moved the cursor.  The second way is
closed in every layout that started empty, so that a mismatch changes nothing but the stage and the
open frames.

* `place_of_mismatch`: a block that is a mismatch is refused on the spot.
* `Rests` says of a layout that every block gets the same answer and changes nothing.  A layout that
  has failed rests (`rests_of_failed`), and so does a complete one (`rests_of_complete`).
* `started_placeAll` and `hasFailed_placeAll_iff` say of a row of blocks when the layout behind it
  has started, and when it has failed.
* `exists_fileSize`: a root that is no mismatch fixes the size of the file.
* `mismatches_are_atomic_and_final` puts these together for every row of blocks.
-/

namespace CarSlice

open UnixFs (Content Node)

namespace Layout

/-- Every block gets the same answer and changes nothing. -/
def Rests (l : Layout) (answer : Placement) : Prop :=
  ∀ c, l.place c = (answer, l)

theorem rests_of_failed {l : Layout} {reason : Mismatch} (h : l.stage = .failed reason) :
    l.Rests (.mismatch l.cursor reason) := by
  intro c
  simp only [place, h]

theorem rests_of_complete {l : Layout} (h : l.stage = .complete) :
    l.Rests (.detached l.cursor) := by
  intro c
  simp only [place, h]

theorem Rests.placeAll {l : Layout} {answer : Placement} (h : l.Rests answer)
    (contents : List Content) :
    l.placeAll contents = (List.replicate contents.length answer, l) := by
  induction contents with
  | nil => rfl
  | cons c contents ih => rw [placeAll_cons, h c, ih, List.length_cons, List.replicate_succ]

/-- A mismatch is found before anything is done with the block.  The check behind the last slot
comes later than that, but a block that gets there fits its slot, and then the check passes. -/
theorem place_of_mismatch {l : Layout} (hl : l.Valid) {c : Content} {offset : Nat}
    {reason : Mismatch} (h : (l.place c).1 = .mismatch offset reason) :
    l.place c = l.fail reason := by
  rcases place_cases hl c with ⟨frames, hplace⟩ | ⟨reason', hplace⟩ | ⟨-, hplace⟩
  · have hinterval : (l.place c).1.interval? = some (l.span c) := by
      rw [hplace, Placement.interval?_ofInterval]
    rw [h] at hinterval
    cases hinterval
  · rw [hplace] at h
    cases h
    exact hplace
  · rw [hplace] at h
    cases h

/-- Whatever becomes of the first block, the layout has started. -/
theorem started_place {l : Layout} (hl : l.Valid) (c : Content) : (l.place c).2.started = true := by
  rcases place_cases hl c with ⟨frames, hplace⟩ | ⟨reason, hplace⟩ | ⟨hcomplete, hplace⟩
  · rw [hplace]
    by_cases hf : frames = [] <;> simp [taken, started, hf]
  · rw [hplace]
    rfl
  · rw [hplace]
    simp [started, hcomplete]

theorem started_placeAll {l : Layout} (hl : l.Valid) (contents : List Content) :
    (l.placeAll contents).2.started = (l.started || !contents.isEmpty) := by
  induction contents generalizing l with
  | nil => simp
  | cons c contents ih =>
    rw [placeAll_cons, ih (hl.place c), started_place hl c]
    simp

/-- A layout has failed if it had before, or does so on a mismatch. -/
theorem hasFailed_place_iff {l : Layout} (hl : l.Valid) (c : Content) :
    (l.place c).2.hasFailed = true ↔
      l.hasFailed = true ∨ ∃ offset reason, (l.place c).1 = .mismatch offset reason := by
  by_cases hfailed : l.hasFailed = true
  · obtain ⟨reason, hstage⟩ : ∃ reason, l.stage = .failed reason := by
      unfold hasFailed at hfailed
      split at hfailed
      · next reason hstage => exact ⟨reason, hstage⟩
      · cases hfailed
    simp [rests_of_failed hstage c, hfailed]
  · rcases place_cases hl c with ⟨frames, hplace⟩ | ⟨reason, hplace⟩ | ⟨-, hplace⟩
    · have htaken : (l.taken c frames).hasFailed = false := by
        by_cases hf : frames = [] <;> simp [taken, hasFailed, hf]
      rw [hplace, htaken, Placement.ofInterval]
      split <;> simp [hfailed]
    · rw [hplace]
      simp [fail, hasFailed]
    · rw [hplace]
      simp [hfailed]

/-- So one that started empty has failed exactly if some block was a mismatch. -/
theorem hasFailed_placeAll_iff {l : Layout} (hl : l.Valid) (contents : List Content) :
    (l.placeAll contents).2.hasFailed = true ↔
      l.hasFailed = true ∨ ∃ offset reason, .mismatch offset reason ∈ (l.placeAll contents).1 := by
  induction contents generalizing l with
  | nil => simp
  | cons c contents ih =>
    rw [placeAll_cons, ih (hl.place c), hasFailed_place_iff hl c]
    simp only [List.mem_cons, exists_or, or_assoc, @eq_comm _ (Placement.mismatch _ _)]

/-- The first block says how large the file is, unless it is a mismatch. -/
theorem exists_fileSize {l : Layout} (hl : l.Valid) (hfresh : l.stage = .fresh) {c : Content}
    (h : ∀ offset reason, (l.place c).1 ≠ .mismatch offset reason) :
    ∃ size, (l.place c).2.fileSize = some size := by
  rcases place_cases hl c with ⟨frames, htaken⟩ | ⟨reason, hfail⟩ | ⟨hcomplete, -⟩
  · rw [htaken]
    exact ⟨_, rfl⟩
  · rw [hfail] at h
    exact absurd rfl (h _ reason)
  · rw [hfresh] at hcomplete
    cases hcomplete

/-- Whatever blocks a layout was given, also if it has failed before: a block that is a mismatch
leaves the cursor, the size of the file, the last interval and the intervals that are kept as they
were, closes all frames, and leaves the layout failed and not complete.  Every block behind it is a
mismatch for the same reason, without bytes and at the same cursor, and changes nothing at all.  In
the same way every block behind a complete file is detached at the cursor and changes nothing. -/
theorem mismatches_are_atomic_and_final (retains : Bool) (contents : List Content) :
    let l := ((new retains).placeAll contents).2
    (∀ c offset reason, (l.place c).1 = .mismatch offset reason →
      let l' := (l.place c).2
      (l.place c).1.interval = .empty l.cursor ∧
        l'.cursor = l.cursor ∧ l'.fileSize = l.fileSize ∧ l'.last = l.last ∧
        l'.intervals? = l.intervals? ∧ l'.depth = 0 ∧ l'.hasFailed = true ∧
        l'.isComplete = false ∧
        (∀ later, l'.placeAll later =
          (List.replicate later.length (.mismatch l.cursor reason), l')) ∧
        (Placement.mismatch l.cursor reason).interval = .empty l.cursor) ∧
      (l.isComplete = true →
        (∀ later, l.placeAll later = (List.replicate later.length (.detached l.cursor), l)) ∧
          (Placement.detached l.cursor).interval = .empty l.cursor) := by
  intro l
  have hl : l.Valid := (valid_new retains).placeAll contents
  refine ⟨fun c offset reason hmismatch => ?_, fun hcomplete => ?_⟩
  · have hfail := place_of_mismatch hl hmismatch
    have hrests : (l.fail reason).2.Rests (.mismatch l.cursor reason) := rests_of_failed rfl
    rw [hfail]
    exact ⟨rfl, rfl, rfl, rfl, rfl, rfl, rfl, rfl, hrests.placeAll, rfl⟩
  · have hstage : l.stage = .complete := by simpa [isComplete] using hcomplete
    exact ⟨(rests_of_complete hstage).placeAll, rfl⟩

/-- A leaf that is too large for what is left of its slot fails the layout, and then so does one
that would have had room. -/
example :
    let root : Node := { kind := .file, childSizes := [5], linkCount := 1, inlineSize := 0,
                         filesize := none }
    ((new true).placeAll [.node root, .bytes 3, .bytes 3, .bytes 2]).1 =
      [.structural (.empty 0), .leaf ⟨0, 3, true⟩, .mismatch 3 .overrun, .mismatch 3 .overrun] := by
  decide

end Layout

end CarSlice
