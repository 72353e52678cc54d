import CarSlice.Proofs.Layout.FileTree
import CarSlice.Proofs.Selection.Offsets

/-!
# A selection along a whole file

While the blocks of a file come one after the other, a layout takes each of them and a
selection decides on it by its interval (`Seeks.next`).  If the range ends before the
file, there is a block that ends it (`exists_endsRange`).
-/

namespace CarSlice

open UnixFs (Content Node)

/-! ## The block that ends the range -/

theorem tiles_spansFrom (start : Nat) (contents : List Content) :
    Tiles start (spansFrom start contents) (start + (contents.map Content.ownSize).sum) := by
  induction contents generalizing start with
  | nil => rfl
  | cons c rest ih =>
    refine ⟨rfl, Nat.le_add_right _ _, ?_⟩
    have h := ih (start + c.ownSize)
    rw [List.map_cons, List.sum_cons, ← Nat.add_assoc]
    exact h

/-- A range that ends before the file does ends with a block: the one that holds its last
byte, or for a range without bytes the one that holds the byte at its offset. -/
theorem Tiles.exists_endsRange {intervals : List Interval} {start stop size : Nat}
    (h : Tiles 0 intervals size) (hle : start ≤ stop) (hlt : stop < size) :
    ∃ i ∈ intervals, i.endsRange start stop = true := by
  by_cases hempty : start = stop
  · obtain ⟨i, hi, hlo, hhi⟩ := h.exists_mem (Nat.zero_le stop) hlt
    refine ⟨i, hi, ?_⟩
    simp only [Interval.endsRange, Bool.and_eq_true, Bool.or_eq_true, decide_eq_true_eq]
    omega
  · obtain ⟨i, hi, hlo, hhi⟩ := h.exists_mem (Nat.zero_le (stop - 1)) (by omega)
    refine ⟨i, hi, ?_⟩
    simp only [Interval.endsRange, Bool.and_eq_true, Bool.or_eq_true, decide_eq_true_eq]
    omega

/-- The block of a file that ends a range, by its number.  A range that ends with the file
ends with the last block. -/
def FileTree.endIndex (tree : FileTree) (start stop : Nat) : Nat :=
  if stop = tree.size then tree.contents.length - 1
  else (tree.intervals 0).findIdx fun i => i.endsRange start stop

/-- A range that was accepted ends with one of the blocks. -/
theorem FileTree.IsFile.endIndex_lt {tree : FileTree} (hfile : tree.IsFile)
    (hsize : tree.size ≤ maxCount) {range : ByteRange} {stop : Nat}
    (hstop : range.resolve tree.size = .ok stop) :
    tree.endIndex range.start stop < tree.contents.length := by
  obtain ⟨hle, hstopSize⟩ := ByteRange.resolve_le hstop
  unfold endIndex
  split
  · obtain ⟨root, bs, hcontents, -⟩ := hfile.exists_root hsize
    simp [hcontents]
  · next hne =>
    have htiles := tiles_spansFrom 0 tree.contents
    rw [Nat.zero_add, sum_contents, ← intervals_eq hfile.wellFormed] at htiles
    have hends := htiles.exists_endsRange hle (by omega)
    rw [← hfile.wellFormed.length_intervals 0]
    exact List.findIdx_lt_length_of_exists hends

/-- The root is wanted wherever the range lies. -/
theorem isWanted_root {root : Node} (hfile : root.IsFile) {range : ByteRange} {stop : Nat}
    (h : range.resolve root.contentSize = .ok stop) {i : Interval}
    (hi : i = { start := 0, stop := root.inlineSize,
                isData := (Content.node root).leafSize?.isSome }) :
    i.isWanted range.start = true := by
  cases hinline : root.isInlineLeaf with
  | false => simp [hi, Interval.isWanted, Content.leafSize?, hinline]
  | true =>
    have hlinks : root.linkCount = 0 := by
      simp only [Node.isInlineLeaf, Bool.and_eq_true, beq_iff_eq] at hinline
      exact hinline.1
    have hnil : root.childSizes = [] := by
      rw [← List.length_eq_zero_iff, hfile.sizes, hlinks]
    have hsize : root.contentSize = root.inlineSize := by
      simp [Node.contentSize, hnil]
    have hstart := ByteRange.start_of_resolve h
    rw [hsize] at hstart
    simp only [hi, Interval.isWanted, Bool.or_eq_true, decide_eq_true_eq]
    omega

/-! ## Along the file -/

namespace Selection

/-- The blocks to come complete the layout without being cut off, and the selection still
looks at them. -/
structure Seeks (s : Selection) (l : Layout) (start stop : Nat) (contents : List Content) :
    Prop where
  valid : l.Valid
  completes : l.CompletesWith contents
  fits : l.cursor + (contents.map Content.ownSize).sum ≤ maxCount
  isOpen : s.phase.isOpen = true
  tracks : s.Tracks start stop l.cursor

/-- At its beginning, a selection looks at the whole file. -/
theorem seeks_new {tree : FileTree} (hfile : tree.IsFile) (hsize : tree.size ≤ maxCount)
    (start stop : Nat) (retains : Bool) :
    (Selection.ofRange start stop (some tree.size)).Seeks (Layout.new retains) start stop
      tree.contents := by
  refine ⟨Layout.valid_new retains, hfile.completesWith hsize retains, ?_, rfl, ⟨rfl, rfl, ?_⟩⟩
  · rw [FileTree.sum_contents]
    show 0 + tree.size ≤ maxCount
    omega
  · intro hphase
    cases hphase

/-- The next block gets the interval that its size says, and is decided on by it.  Unless
the range ends with it, the same holds of the blocks behind it. -/
theorem Seeks.next {s : Selection} {l : Layout} {start stop : Nat} {c : Content}
    {rest : List Content} (h : s.Seeks l start stop (c :: rest)) {i : Interval}
    (hi : i = { start := l.cursor, stop := l.cursor + c.ownSize, isData := c.leafSize?.isSome }) :
    (l.place c).1 = .ofInterval i ∧ (l.place c).2.cursor = i.stop ∧
      s.Follows (s.decide (l.place c).1).1 (s.decide (l.place c).1).2 start stop i ∧
      (¬(s.endsWithFile = false ∧ i.endsRange start stop = true) →
        (s.decide (l.place c).1).2.Seeks (l.place c).2 start stop rest) := by
  obtain ⟨hnot, hcompletes⟩ := Layout.completesWith_cons.1 h.completes
  have hstage : l.stage ≠ .complete := by simpa [Layout.isComplete] using hnot
  have hfits := h.fits
  rw [List.map_cons, List.sum_cons] at hfits
  have hspan : l.span c = i := by
    have hstop : satAdd l.cursor c.ownSize = l.cursor + c.ownSize := by
      rw [satAdd]
      omega
    rw [hi, Layout.span, Layout.nextInterval, hstop]
  rcases decide_place h.valid hstage h.tracks h.isOpen c with
    ⟨hrefused, -⟩ | ⟨hslots, hplaced, hfollows⟩
  · exact absurd h.completes (Layout.not_completesWith_cons_of_refused h.valid rest hrefused)
  · obtain ⟨slots, hslots⟩ := Option.isSome_iff_exists.1 hslots
    obtain ⟨frames, -, -, htaken⟩ := Layout.place_taken h.valid hslots
    have hcursor : (l.place c).2.cursor = i.stop := by
      rw [htaken, ← hspan]
      rfl
    rw [hspan] at hplaced hfollows
    refine ⟨hplaced, hcursor, hfollows, fun hgoes => ?_⟩
    have hphase := hfollows.phase
    rw [if_neg hgoes] at hphase
    have hstop : i.stop = l.cursor + c.ownSize := by rw [hi]
    refine ⟨h.valid.place c, hcompletes, by omega, hphase, ?_⟩
    rw [hcursor]
    exact hfollows.tracks

end Selection

end CarSlice
