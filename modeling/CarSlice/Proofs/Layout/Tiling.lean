import CarSlice.Proofs.Layout.Slots
import Mathlib.Algebra.Order.BigOperators.Group.List
import Mathlib.Algebra.Order.Group.Nat

/-!
# The intervals of a layout tile the file

Every block that a layout takes gets the interval from the cursor on, and the
cursor moves behind it.  So the intervals of any row of blocks follow one another
without gap and without overlap, from the beginning of the file to the cursor.

* `Tiles` is the relation between two offsets and a row of intervals, with the
  lemmas that join two rows and find the interval of an offset.
* `placeAll_tiles`, `placeAll_kept` and `placeAll_isData` follow the layout over a
  row of blocks.
* `Layout.Exact` is the invariant under which no sum is cut off, so that an interval
  is as long as its block.  A slot of the largest count is the one that breaks it: a
  node may stand in that slot whose own sum was cut off.
-/

namespace CarSlice

open UnixFs (Content Node)

/-! ## Tilings -/

/-- The intervals lead from one offset to another, each beginning where the one
before it stops. -/
def Tiles : Nat → List Interval → Nat → Prop
  | lo, [], hi => lo = hi
  | lo, i :: rest, hi => i.start = lo ∧ i.start ≤ i.stop ∧ Tiles i.stop rest hi

theorem Tiles.le {lo hi : Nat} {intervals : List Interval} (h : Tiles lo intervals hi) :
    lo ≤ hi := by
  induction intervals generalizing lo with
  | nil => exact Nat.le_of_eq h
  | cons i rest ih =>
    rcases h with ⟨rfl, hle, hrest⟩
    exact Nat.le_trans hle (ih hrest)

theorem Tiles.append {lo mid hi : Nat} {first second : List Interval}
    (hfirst : Tiles lo first mid) (hsecond : Tiles mid second hi) :
    Tiles lo (first ++ second) hi := by
  induction first generalizing lo with
  | nil =>
    obtain rfl : lo = mid := hfirst
    exact hsecond
  | cons i rest ih =>
    rcases hfirst with ⟨hstart, hle, hrest⟩
    exact ⟨hstart, hle, ih hrest⟩

/-- Every offset between the two ends lies in an interval. -/
theorem Tiles.exists_mem {lo hi offset : Nat} {intervals : List Interval}
    (h : Tiles lo intervals hi) (hlo : lo ≤ offset) (hhi : offset < hi) :
    ∃ i ∈ intervals, i.start ≤ offset ∧ offset < i.stop := by
  induction intervals generalizing lo with
  | nil =>
    obtain rfl : lo = hi := h
    omega
  | cons i rest ih =>
    rcases h with ⟨rfl, hle, hrest⟩
    by_cases hoffset : offset < i.stop
    · exact ⟨i, by simp, hlo, hoffset⟩
    · obtain ⟨j, hj, hmem⟩ := ih hrest (by omega)
      exact ⟨j, by simp [hj], hmem⟩

/-! ## Intervals of placements -/

namespace Placement

/-- The interval of a block that the layout took. -/
def interval? : Placement → Option Interval
  | .structural i => some i
  | .leaf i => some i
  | .mismatch .. | .detached _ => none

@[simp] theorem interval?_ofInterval (i : Interval) : (ofInterval i).interval? = some i := by
  unfold ofInterval
  split_ifs <;> rfl

end Placement

/-- The intervals of the blocks that the layout took, in order. -/
def intervalsOf (placements : List Placement) : List Interval :=
  placements.filterMap Placement.interval?

theorem intervalsOf_cons (p : Placement) (placements : List Placement) :
    intervalsOf (p :: placements) = p.interval?.toList ++ intervalsOf placements := by
  cases h : p.interval? <;> simp [intervalsOf, h]

namespace Layout

/-! ## One block -/

/-- A block that is not taken has no interval and moves nothing. -/
theorem place_refused_keeps {l : Layout} (hl : l.Valid) {c : Content}
    (h : l.slotsAfter? c = none) :
    (l.place c).1.interval? = none ∧ (l.place c).2.cursor = l.cursor ∧
      (l.place c).2.kept = l.kept ∧ (l.place c).2.retains = l.retains ∧
      (l.place c).2.stage ≠ .underway ∧ (l.place c).2.stage ≠ .fresh := by
  obtain ⟨reason, hplace⟩ | ⟨hstage, hplace⟩ := place_refused hl h
  · simp [hplace, fail, Placement.interval?]
  · simp [hplace, hstage, Placement.interval?]

theorem span_start (l : Layout) (c : Content) : (l.span c).start = l.cursor := rfl

theorem span_stop (l : Layout) (c : Content) : (l.span c).stop = satAdd l.cursor c.ownSize := rfl

theorem Valid.span_start_le {l : Layout} (hl : l.Valid) (c : Content) :
    (l.span c).start ≤ (l.span c).stop := by
  have := hl.cursor_le
  rw [span_start, span_stop, satAdd]
  omega

/-- The interval of a block leads from the cursor before it to the cursor behind
it. -/
theorem place_tiles {l : Layout} (hl : l.Valid) (c : Content) :
    Tiles l.cursor (l.place c).1.interval?.toList (l.place c).2.cursor := by
  cases h : l.slotsAfter? c with
  | some slots =>
    obtain ⟨frames, -, -, hplace⟩ := place_taken hl h
    rw [hplace, Placement.interval?_ofInterval]
    exact ⟨rfl, hl.span_start_le c, rfl⟩
  | none =>
    obtain ⟨hnone, hcursor, -⟩ := place_refused_keeps hl h
    rw [hnone]
    exact hcursor.symm

/-- If intervals are kept, the interval of a block is kept with it. -/
theorem place_kept {l : Layout} (hl : l.Valid) (c : Content) :
    (l.place c).2.retains = l.retains ∧
      (l.place c).2.kept =
        (if l.retains then (l.place c).1.interval?.toList else []) ++ l.kept := by
  cases h : l.slotsAfter? c with
  | some slots =>
    obtain ⟨frames, -, -, hplace⟩ := place_taken hl h
    cases hretains : l.retains <;> simp [hplace, taken, record, hretains]
  | none =>
    obtain ⟨hnone, -, hkept, hretains, -⟩ := place_refused_keeps hl h
    simp [hnone, hkept, hretains]

/-- Leaves and no other blocks hold data. -/
theorem place_isData {l : Layout} (hl : l.Valid) (c : Content) :
    (∀ i, (l.place c).1 = .leaf i → i.isData = true) ∧
      ∀ i, (l.place c).1 = .structural i → i.isData = false := by
  cases h : l.slotsAfter? c with
  | some slots =>
    obtain ⟨frames, -, -, hplace⟩ := place_taken hl h
    rw [hplace]
    cases hdata : (l.span c).isData <;> simp [Placement.ofInterval, hdata]
  | none =>
    obtain ⟨hnone, -⟩ := place_refused_keeps hl h
    constructor <;> intro i hi <;> simp [hi, Placement.interval?] at hnone

/-! ## A row of blocks -/

theorem placeAll_tiles {l : Layout} (hl : l.Valid) (contents : List Content) :
    Tiles l.cursor (intervalsOf (l.placeAll contents).1) (l.placeAll contents).2.cursor := by
  induction contents generalizing l with
  | nil => rfl
  | cons c contents ih =>
    rw [placeAll_cons, intervalsOf_cons]
    exact (place_tiles hl c).append (ih (hl.place c))

/-- The intervals that are kept are those that were given out. -/
theorem placeAll_kept {l : Layout} (hl : l.Valid) (contents : List Content) :
    (l.placeAll contents).2.retains = l.retains ∧
      (l.placeAll contents).2.kept =
        (if l.retains then (intervalsOf (l.placeAll contents).1).reverse else []) ++ l.kept := by
  induction contents generalizing l with
  | nil => simp [intervalsOf]
  | cons c contents ih =>
    obtain ⟨hretains, hkept⟩ := ih (hl.place c)
    obtain ⟨hretains', hkept'⟩ := place_kept hl c
    rw [placeAll_cons, intervalsOf_cons]
    refine ⟨hretains.trans hretains', ?_⟩
    rw [hkept, hkept', hretains']
    cases l.retains
    · rfl
    · cases (l.place c).1.interval? <;> simp

theorem placeAll_isData {l : Layout} (hl : l.Valid) {contents : List Content} {p : Placement}
    (hp : p ∈ (l.placeAll contents).1) :
    (∀ i, p = .leaf i → i.isData = true) ∧ ∀ i, p = .structural i → i.isData = false := by
  induction contents generalizing l with
  | nil => simp at hp
  | cons c contents ih =>
    rw [placeAll_cons, List.mem_cons] at hp
    rcases hp with rfl | hp
    · exact place_isData hl c
    · exact ih (hl.place c) hp

/-! ## Lengths -/

/-- No sum was cut off so far, and none will be: the bytes behind the cursor make up
exactly the size of the file, and no slot is so large that a node whose sum was cut
off could stand in it. -/
structure Exact (l : Layout) (total : Nat) : Prop where
  placed : l.stage ≠ .fresh
  total_le : total ≤ maxCount
  sum : l.stage = .underway → l.cursor + l.pending.sum = total
  slots : ∀ n ∈ l.pending, n < maxCount

theorem taken_not_fresh (l : Layout) (c : Content) (frames : List Frame) :
    (l.taken c frames).stage ≠ .fresh := by
  by_cases hf : frames = [] <;> simp [taken, hf]

/-- A block that is not taken leaves no slots. -/
theorem Exact.refused {l : Layout} (hl : l.Valid) {total : Nat} (htotal : total ≤ maxCount)
    {c : Content} (h : l.slotsAfter? c = none) : (l.place c).2.Exact total := by
  obtain ⟨-, -, -, -, hnot, hnotFresh⟩ := place_refused_keeps hl h
  have hpending := (hl.place c).pending_eq_nil_iff.2 hnot
  exact ⟨hnotFresh, htotal, fun hu => absurd hu hnot, by simp [hpending]⟩

end Layout

theorem fill?_exact {slots slots' : List Nat} {c : Content} (h : fill? slots c = some slots')
    (hlt : ∀ n ∈ slots, n < maxCount) :
    c.ownSize + slots'.sum = slots.sum ∧ ∀ n ∈ slots', n < maxCount := by
  cases slots with
  | nil => simp [fill?] at h
  | cons n rest =>
    simp only [List.mem_cons, forall_eq_or_imp] at hlt
    obtain ⟨m, hleaf, hm, rfl⟩ | ⟨hleaf, rfl⟩ | ⟨node, rfl, _, hsize, rfl⟩ := fill?_cases h
    · rw [Content.ownSize_of_leafSize? hleaf]
      simp only [List.sum_cons, List.mem_cons, forall_eq_or_imp]
      exact ⟨by omega, by omega, hlt.2⟩
    · rw [Content.ownSize_of_leafSize? hleaf]
      exact ⟨by simp, hlt.2⟩
    · have hsum := node.min_contentSize
      simp only [Content.ownSize, List.sum_cons, List.sum_append, List.mem_append]
      refine ⟨by omega, ?_⟩
      rintro m (hm | hm)
      · have := List.single_le_sum (fun _ _ => Nat.zero_le _) m hm
        omega
      · exact hlt.2 m hm

namespace Layout

/-- While no sum is cut off, the interval of the next block is as long as the block,
and no sum is cut off behind it. -/
theorem Exact.place {l : Layout} (hl : l.Valid) {total : Nat} (hx : l.Exact total) (c : Content) :
    (∀ i, (l.place c).1.interval? = some i → i.start + c.ownSize = i.stop) ∧
      (l.place c).2.Exact total := by
  cases h : l.slotsAfter? c with
  | none =>
    obtain ⟨hnone, -⟩ := place_refused_keeps hl h
    exact ⟨by simp [hnone], Exact.refused hl hx.total_le h⟩
  | some slots =>
    obtain ⟨frames, -, rfl, hplace⟩ := place_taken hl h
    have hu : l.stage = .underway := by
      have := hx.placed
      cases hstage : l.stage <;> simp_all [slotsAfter?]
    simp only [slotsAfter?, hu] at h
    obtain ⟨hfill, hslots⟩ := fill?_exact h hx.slots
    have hsum := hx.sum hu
    have hle := hx.total_le
    have hstop : (l.span c).stop = l.cursor + c.ownSize := by
      rw [span_stop, satAdd]
      omega
    rw [hplace]
    refine ⟨?_, taken_not_fresh l c frames, hx.total_le, fun _ => ?_, hslots⟩
    · intro i hi
      obtain rfl := Option.some.inj ((Placement.interval?_ofInterval _).symm.trans hi)
      exact hstop.symm
    · change (l.span c).stop + (pendingOf frames).sum = total
      omega

/-- The root begins without a sum that is cut off if its own parts fit the counts and
no slot is of the largest count. -/
theorem Exact.root (retains : Bool) {root : Node}
    (hsum : root.inlineSize + root.childSizes.sum ≤ maxCount)
    (hslots : maxCount ∉ root.childSizes) :
    (∀ i, ((new retains).place (.node root)).1.interval? = some i →
        i.start + root.inlineSize = i.stop) ∧
      ((new retains).place (.node root)).2.Exact
        (root.inlineSize + root.childSizes.sum) := by
  have hl := valid_new retains
  cases h : (new retains).slotsAfter? (.node root) with
  | none =>
    obtain ⟨hnone, -⟩ := place_refused_keeps hl h
    exact ⟨by simp [hnone], Exact.refused hl hsum h⟩
  | some slots =>
    obtain ⟨frames, -, hframes, hplace⟩ := place_taken hl h
    have hroot : pendingOf frames = root.childSizes := by
      obtain ⟨root', heq, -, hslots'⟩ := rootSlots?_eq_some_iff.1 (slotsAfter?_new _ _ ▸ h)
      rw [hframes, ← hslots', Content.node.inj heq]
    have hstop : ((new retains).span (.node root)).stop = root.inlineSize := by
      rw [span_stop, satAdd]
      simp only [Content.ownSize]
      omega
    rw [hplace]
    refine ⟨?_, taken_not_fresh _ _ _, hsum, fun _ => ?_, ?_⟩
    · intro i hi
      obtain rfl := Option.some.inj ((Placement.interval?_ofInterval _).symm.trans hi)
      rw [hstop]
      exact Nat.zero_add _
    · change ((new retains).span (.node root)).stop + (pendingOf frames).sum = _
      rw [hstop, hroot]
    · change ∀ n ∈ pendingOf frames, n < maxCount
      rw [hroot]
      intro n hn
      have hle := List.single_le_sum (fun _ _ => Nat.zero_le _) n hn
      have hne : n ≠ maxCount := fun heq => hslots (heq ▸ hn)
      omega

theorem Exact.placeAll_length {l : Layout} (hl : l.Valid) {total : Nat} (hx : l.Exact total)
    {contents : List Content} {c : Content} {p : Placement} {i : Interval}
    (hmem : (c, p) ∈ contents.zip (l.placeAll contents).1) (hi : p.interval? = some i) :
    i.start + c.ownSize = i.stop := by
  induction contents generalizing l with
  | nil => simp at hmem
  | cons c' contents ih =>
    obtain ⟨hlength, hx'⟩ := hx.place hl c'
    rw [placeAll_cons, List.zip_cons_cons, List.mem_cons, Prod.mk.injEq] at hmem
    rcases hmem with ⟨rfl, rfl⟩ | hmem
    · exact hlength i hi
    · exact ih (hl.place c') hx' hmem

/-- From the root on, every interval is as long as its block. -/
theorem placeAll_length_of_root {retains : Bool} {root : Node} {rest : List Content}
    (hsum : root.inlineSize + root.childSizes.sum ≤ maxCount)
    (hslots : maxCount ∉ root.childSizes) {c : Content} {p : Placement} {i : Interval}
    (hmem : (c, p) ∈ (.node root :: rest).zip
      ((new retains).placeAll (.node root :: rest)).1)
    (hi : p.interval? = some i) : i.start + c.ownSize = i.stop := by
  obtain ⟨hlength, hx⟩ := Exact.root retains hsum hslots
  rw [placeAll_cons, List.zip_cons_cons, List.mem_cons, Prod.mk.injEq] at hmem
  rcases hmem with ⟨rfl, rfl⟩ | hmem
  · exact hlength i hi
  · exact hx.placeAll_length ((valid_new retains).place _) hmem hi

/-! ## The size of the file -/

/-- Only the root is taken before the size of the file is known. -/
theorem Valid.fresh_of_unsized {l : Layout} (hl : l.Valid) {c : Content} {slots : List Nat}
    (h : l.slotsAfter? c = some slots) (hfile : l.fileSize = none) : l.stage = .fresh := by
  cases hstage : l.stage with
  | fresh => rfl
  | underway =>
    obtain ⟨_, size, hsome, -⟩ := hl.exists_reached hstage
    rw [hfile] at hsome
    cases hsome
  | complete => simp [slotsAfter?, hstage] at h
  | failed reason => simp [slotsAfter?, hstage] at h

/-- The size of a file stays within the counts if its root does. -/
theorem place_fileSize_le {l : Layout} (hl : l.Valid) (hsize : ∀ size ∈ l.fileSize, size ≤ maxCount)
    {c : Content} (hc : l.stage = .fresh → ∀ root, c = .node root → root.inlineSize ≤ maxCount) :
    ∀ size ∈ (l.place c).2.fileSize, size ≤ maxCount := by
  cases h : l.slotsAfter? c with
  | none =>
    obtain ⟨reason, hplace⟩ | ⟨-, hplace⟩ := place_refused hl h
    · simpa [hplace, fail] using hsize
    · simpa [hplace] using hsize
  | some slots =>
    obtain ⟨frames, -, -, hplace⟩ := place_taken hl h
    rw [hplace]
    intro size hmem
    obtain rfl := Option.some.inj hmem
    cases hfile : l.fileSize with
    | some size => exact hsize size hfile
    | none =>
      have hfresh := hl.fresh_of_unsized h hfile
      simp only [slotsAfter?, hfresh] at h
      by_cases hnil : slots = []
      · subst hnil
        obtain ⟨root, rfl, -, -⟩ := rootSlots?_eq_some_iff.1 h
        rw [Option.getD_none, fullSize_eq_of_rootSlots?_nil h]
        exact hc hfresh root rfl
      · exact fullSize_le_of_rootSlots? h hnil

theorem place_not_fresh {l : Layout} (hl : l.Valid) (c : Content) : (l.place c).2.stage ≠ .fresh := by
  cases h : l.slotsAfter? c with
  | none => exact (place_refused_keeps hl h).2.2.2.2.2
  | some slots =>
    obtain ⟨frames, -, -, hplace⟩ := place_taken hl h
    rw [hplace]
    exact taken_not_fresh l c frames

/-- A layout with slots to fill places no block behind the end of the file. -/
theorem place_not_detached {l : Layout} (hl : l.Valid) (hstage : l.stage ≠ .complete) (c : Content)
    (offset : Nat) : (l.place c).1 ≠ .detached offset := by
  rcases place_cases hl c with ⟨frames, hplace⟩ | ⟨reason, hplace⟩ | ⟨hcomplete, -⟩
  · rw [hplace, Placement.ofInterval]
    split <;> simp
  · simp [hplace, fail]
  · exact absurd hcomplete hstage

theorem placeAll_fileSize_le {l : Layout} (hl : l.Valid)
    (hsize : ∀ size ∈ l.fileSize, size ≤ maxCount) {contents : List Content}
    (hroot : l.stage = .fresh → ∀ root ∈ contents.head?, root.ownSize ≤ maxCount) :
    ∀ size ∈ (l.placeAll contents).2.fileSize, size ≤ maxCount := by
  induction contents generalizing l with
  | nil => exact hsize
  | cons c contents ih =>
    have hc : l.stage = .fresh → ∀ root, c = .node root → root.inlineSize ≤ maxCount := by
      intro hfresh root hroot'
      exact hroot hfresh (.node root) (by simp [hroot'])
    apply ih (hl.place c) (place_fileSize_le hl hsize hc)
    intro hfresh
    exact absurd hfresh (place_not_fresh hl c)

/-- A complete layout has reached the size of its file. -/
theorem Valid.fileSize_of_complete {l : Layout} (hl : l.Valid) (hcomplete : l.stage = .complete)
    (hsize : ∀ size ∈ l.fileSize, size ≤ maxCount) : l.fileSize = some l.cursor := by
  obtain ⟨reached, size, hfile, hcursor, hsum⟩ := hl.accounts (Or.inr hcomplete)
  have hle := hsize size hfile
  have hpending := hl.pending_eq_nil_iff.2 (by simp [hcomplete])
  rw [hpending, List.sum_nil] at hsum
  rw [show l.fileSize = some size from hfile, hcursor]
  congr 1
  omega

/-! ## The whole file -/

/-- The intervals of the leaves and the nodes with children are the ones that are
kept; they tile the file from its beginning to the cursor.  The cursor never goes
back and never passes the size of the file, which it reaches when the file is
complete.  If the parts of the root fit 64 bits and none of its slots is of the
largest count, every interval is as long as its block.

Sizes in a file are 64-bit words; only that of the root's own bytes has to be bounded
for the end of the file. -/
theorem placements_tile_file (retains : Bool) (contents : List Content) :
    let placements := ((new retains).placeAll contents).1
    let l := ((new retains).placeAll contents).2
    l.intervals? = (if retains then some (intervalsOf placements) else none) ∧
      Tiles 0 (intervalsOf placements) l.cursor ∧
      (∀ i, .leaf i ∈ placements → i.isData = true) ∧
      (∀ i, .structural i ∈ placements → i.isData = false) ∧
      (∀ more, l.cursor ≤ (l.placeAll more).2.cursor) ∧
      (∀ size, l.fileSize = some size → l.cursor ≤ size) ∧
      ((∀ root ∈ contents.head?, root.ownSize ≤ maxCount) → l.isComplete = true →
        l.fileSize = some l.cursor) ∧
      ∀ root rest, contents = .node root :: rest →
        root.inlineSize + root.childSizes.sum < wordValues → maxCount ∉ root.childSizes →
        ∀ c p i, (c, p) ∈ contents.zip placements → p.interval? = some i →
          i.start + c.ownSize = i.stop := by
  have hnew := valid_new retains
  have hl := hnew.placeAll contents
  refine ⟨?_, placeAll_tiles hnew contents, ?_, ?_, ?_, hl.bounded, ?_, ?_⟩
  · obtain ⟨hretains, hkept⟩ := placeAll_kept hnew contents
    cases retains
    · simp [intervals?, hretains]
    · simp [intervals?, hretains, hkept]
  · intro i hi
    exact (placeAll_isData hnew hi).1 i rfl
  · intro i hi
    exact (placeAll_isData hnew hi).2 i rfl
  · intro more
    exact (placeAll_tiles hl more).le
  · intro hroot hcomplete
    apply hl.fileSize_of_complete (by simpa [isComplete] using hcomplete)
    exact placeAll_fileSize_le hnew (by simp) fun _ => hroot
  · rintro root rest rfl hsum hslots c p i hmem hi
    refine placeAll_length_of_root ?_ hslots hmem hi
    have : wordValues = maxCount + 1 := rfl
    omega

/-- Without the bound on the slots the lengths can differ: the node in a slot of the
largest count has parts that add up to more, and the leaf in it is cut short. -/
theorem saturated_slot_shortens_leaf :
    let root : Node := { kind := .file, childSizes := [maxCount], linkCount := 1, inlineSize := 0,
                         filesize := none }
    let child : Node := { root with inlineSize := 5 }
    let leaf : Interval := { start := 5, stop := maxCount, isData := true }
    root.inlineSize + root.childSizes.sum < wordValues ∧
      (Content.bytes maxCount, Placement.leaf leaf) ∈
        [Content.node root, .node child, .bytes maxCount].zip
          ((new true).placeAll [.node root, .node child, .bytes maxCount]).1 ∧
      leaf.start + (Content.bytes maxCount).ownSize ≠ leaf.stop := by
  decide +kernel

end Layout

end CarSlice
