import CarSlice.Layout
import Mathlib.Algebra.Ring.Nat
import Mathlib.Logic.Basic
import Mathlib.Tactic.ByContra
import Mathlib.Tactic.SplitIfs

/-!
# The slots of a layout

A layout keeps a stack of frames, and a slot of one frame may be taken over by
another frame.  What counts for the blocks to come is only the row of sizes that
are still to be filled, the next one first.  This module reads that row off the
frames (`pendingOf`) and says what one block does to it (`fill?`).

There are four groups.

* Contents.  `leafSize?` is the size of a block that fills a slot by itself,
  `IsFile` and `IsInner` are the file nodes whose sizes agree.
* Slots.  `rootSlots?` are the slots that a root opens and `fill?` is what a block
  leaves of a row of slots.  `pendingOf_closeSlot` is the reason why the frames can
  be forgotten: closing a slot takes the first size off the row.
* The invariant.  `Layout.Valid` relates the cursor to the bytes that the slots
  still want.  Sizes stop at `maxCount`, so the relation is between numbers that
  were cut off there.
* Steps.  `place_taken` and `place_refused` say all that `Layout.place` can do to a
  valid layout (`place_cases`), and `Valid.place` that the invariant is kept.
-/

namespace CarSlice

open UnixFs (Content Node)

/-! ## Sums that stop at the largest count -/

theorem foldl_satAdd (sizes : List Nat) (a : Nat) :
    min (sizes.foldl satAdd a) maxCount = min (a + sizes.sum) maxCount := by
  induction sizes generalizing a with
  | nil => simp
  | cons size sizes ih =>
    rw [List.foldl_cons, ih, List.sum_cons]
    simp only [satAdd]
    omega

theorem foldl_satAdd_le {sizes : List Nat} (a : Nat) (h : sizes ≠ []) :
    sizes.foldl satAdd a ≤ maxCount := by
  induction sizes generalizing a with
  | nil => exact absurd rfl h
  | cons size sizes ih =>
    rw [List.foldl_cons]
    cases sizes with
    | nil => exact Nat.min_le_right _ _
    | cons size' sizes => exact ih _ (by simp)

/-! ## Contents -/

namespace UnixFs

/-- A file node whose sizes agree with its links and with its own account. -/
structure Node.IsFile (n : Node) : Prop where
  kind : n.kind = .file
  sizes : n.childSizes.length = n.linkCount
  filesize : ∀ size ∈ n.filesize, size = n.contentSize

/-- A file node of this kind that has children. -/
structure Node.IsInner (n : Node) : Prop extends Node.IsFile n where
  links : 0 < n.linkCount

instance (n : Node) : Decidable n.IsFile :=
  decidable_of_iff (n.kind = .file ∧ n.childSizes.length = n.linkCount ∧
      ∀ size ∈ n.filesize, size = n.contentSize)
    ⟨fun h => ⟨h.1, h.2.1, h.2.2⟩, fun h => ⟨h.kind, h.sizes, h.filesize⟩⟩

instance (n : Node) : Decidable n.IsInner :=
  decidable_of_iff (n.IsFile ∧ 0 < n.linkCount)
    ⟨fun h => ⟨h.1, h.2⟩, fun h => ⟨h.toIsFile, h.links⟩⟩

/-- The size of a block that fills a slot, or a part of one, by itself. -/
def Content.leafSize? : Content → Option Nat
  | .bytes size => some size
  | .node n => if n.isInlineLeaf then some n.inlineSize else none

/-- How many bytes of the file a block holds itself. -/
def Content.ownSize : Content → Nat
  | .bytes size => size
  | .node n => n.inlineSize

/-- How many bytes of the file a block spans together with its children. -/
def Content.fullSize : Content → Nat
  | .bytes size => size
  | .node n => n.contentSize

theorem Content.ownSize_of_leafSize? {c : Content} {m : Nat} (h : c.leafSize? = some m) :
    c.ownSize = m := by
  cases c with
  | bytes size => simpa [leafSize?, ownSize] using h
  | node node =>
    simp only [leafSize?] at h
    split_ifs at h
    simpa [ownSize] using h

theorem Node.sizesMatchLinks_iff {n : Node} :
    n.sizesMatchLinks = true ↔ n.childSizes.length = n.linkCount := by
  simp [sizesMatchLinks]

theorem Node.filesizeAgrees_iff {n : Node} :
    n.filesizeAgrees = true ↔ ∀ size ∈ n.filesize, size = n.contentSize := by
  cases h : n.filesize <;> simp [filesizeAgrees, h]

/-- A file node without links holds its bytes itself. -/
theorem Node.isInlineLeaf_of_file {n : Node} (hkind : n.kind = .file) (hlinks : n.linkCount = 0) :
    n.isInlineLeaf = true := by
  simp [isInlineLeaf, hkind, hlinks]

theorem Node.IsInner.not_isInlineLeaf {n : Node} (h : n.IsInner) : n.isInlineLeaf = false := by
  have := h.links
  simp only [isInlineLeaf, Bool.and_eq_false_imp, beq_iff_eq]
  omega

theorem Node.IsInner.childSizes_ne_nil {n : Node} (h : n.IsInner) : n.childSizes ≠ [] := by
  have hlinks := h.links
  have hsizes := h.sizes
  intro hnil
  rw [hnil] at hsizes
  simp at hsizes
  omega

/-- The size of a node is the sum of its parts, both cut off at the largest
count. -/
theorem Node.min_contentSize (n : Node) :
    min n.contentSize maxCount = min (n.inlineSize + n.childSizes.sum) maxCount :=
  foldl_satAdd n.childSizes n.inlineSize

end UnixFs

/-! ## Slots -/

/-- The slots that a block opens if it is the root of a file. -/
def rootSlots? : Content → Option (List Nat)
  | .bytes _ => none
  | .node node => if node.IsFile then some node.childSizes else none

/-- What a block leaves of a row of slots.  A leaf fills the first slot or a part
of it, a node with children puts its own slots in place of the first one. -/
def fill? : List Nat → Content → Option (List Nat)
  | [], _ => none
  | n :: rest, c =>
    match c.leafSize?, c with
    | some m, _ =>
      if m < n then some ((n - m) :: rest) else if m = n then some rest else none
    | none, .node node =>
      if node.IsInner ∧ node.contentSize = n then some (node.childSizes ++ rest) else none
    | none, .bytes _ => none

theorem fill?_of_leafSize? {c : Content} {m : Nat} (h : c.leafSize? = some m) (n : Nat)
    (rest : List Nat) :
    fill? (n :: rest) c =
      if m < n then some ((n - m) :: rest) else if m = n then some rest else none := by
  simp [fill?, h]

theorem fill?_of_node {node : Node} (h : node.isInlineLeaf = false) (n : Nat) (rest : List Nat) :
    fill? (n :: rest) (.node node) =
      if node.IsInner ∧ node.contentSize = n then some (node.childSizes ++ rest) else none := by
  simp [fill?, Content.leafSize?, h]

theorem fill?_of_isInner {node : Node} (h : node.IsInner) (rest : List Nat) :
    fill? (node.contentSize :: rest) (.node node) = some (node.childSizes ++ rest) := by
  simp [fill?_of_node h.not_isInlineLeaf, h]

/-- A block that is taken is a leaf that fits the first slot or a node with
children that has its size. -/
theorem fill?_cases {n : Nat} {rest slots : List Nat} {c : Content}
    (h : fill? (n :: rest) c = some slots) :
    (∃ m, c.leafSize? = some m ∧ m < n ∧ slots = (n - m) :: rest) ∨
      (c.leafSize? = some n ∧ slots = rest) ∨
      ∃ node, c = .node node ∧ node.IsInner ∧ node.contentSize = n ∧
        slots = node.childSizes ++ rest := by
  cases hleaf : c.leafSize? with
  | some m =>
    rw [fill?_of_leafSize? hleaf] at h
    split_ifs at h with hlt heq
    · exact Or.inl ⟨m, rfl, hlt, by simpa using h.symm⟩
    · exact Or.inr (Or.inl ⟨by rw [heq], by simpa using h.symm⟩)
  | none =>
    cases c with
    | bytes size => simp [Content.leafSize?] at hleaf
    | node node =>
      have hinline : node.isInlineLeaf = false := by simpa [Content.leafSize?] using hleaf
      rw [fill?_of_node hinline] at h
      split_ifs at h with hinner
      exact Or.inr (Or.inr ⟨node, rfl, hinner.1, hinner.2, by simpa using h.symm⟩)

/-- What a block holds and what it leaves make up what was wanted before. -/
theorem fill?_sum {slots slots' : List Nat} {c : Content} (h : fill? slots c = some slots') :
    min slots.sum maxCount = min (c.ownSize + slots'.sum) maxCount := by
  cases slots with
  | nil => simp [fill?] at h
  | cons n rest =>
    obtain ⟨m, hleaf, hlt, rfl⟩ | ⟨hleaf, rfl⟩ | ⟨node, rfl, _, hsize, rfl⟩ := fill?_cases h
    · rw [Content.ownSize_of_leafSize? hleaf]
      simp only [List.sum_cons]
      omega
    · rw [Content.ownSize_of_leafSize? hleaf, List.sum_cons]
    · have := node.min_contentSize
      simp only [Content.ownSize, List.sum_cons, List.sum_append]
      omega

theorem rootSlots?_eq_some_iff {slots : List Nat} {c : Content} :
    rootSlots? c = some slots ↔ ∃ root, c = .node root ∧ root.IsFile ∧ root.childSizes = slots := by
  cases c with
  | bytes size => simp [rootSlots?]
  | node node =>
    by_cases hfile : node.IsFile
    · simp [rootSlots?, hfile]
    · simp [rootSlots?, hfile]

theorem rootSlots?_sum {slots : List Nat} {c : Content} (h : rootSlots? c = some slots) :
    min c.fullSize maxCount = min (c.ownSize + slots.sum) maxCount := by
  obtain ⟨root, rfl, -, rfl⟩ := rootSlots?_eq_some_iff.1 h
  exact root.min_contentSize

theorem fullSize_le_of_rootSlots? {slots : List Nat} {c : Content}
    (h : rootSlots? c = some slots) (hne : slots ≠ []) : c.fullSize ≤ maxCount := by
  obtain ⟨root, rfl, -, rfl⟩ := rootSlots?_eq_some_iff.1 h
  exact foldl_satAdd_le root.inlineSize hne

theorem fullSize_eq_of_rootSlots?_nil {c : Content} (h : rootSlots? c = some []) :
    c.fullSize = c.ownSize := by
  obtain ⟨root, rfl, -, hnil⟩ := rootSlots?_eq_some_iff.1 h
  simp [Content.fullSize, Content.ownSize, Node.contentSize, hnil]

/-! ## Frames -/

/-- A frame that still has its present slot, and no more of it filled than there
is. -/
structure Frame.Valid (f : Frame) : Prop where
  slots : f.slots ≠ []
  filled : f.filled ≤ f.slot

/-- The sizes that open nodes still want, the next one first.  The present slot of
an outer node belongs to the node inside it. -/
def pendingOf : List Frame → List Nat
  | [] => []
  | frame :: outer =>
    (frame.slot - frame.filled) :: (frame.slots.tail ++ outer.flatMap (·.slots.tail))

@[simp] theorem pendingOf_eq_nil {frames : List Frame} : pendingOf frames = [] ↔ frames = [] := by
  cases frames <;> simp [pendingOf]

/-- Opening a node with children puts their sizes in place of the slot that the
node stands in. -/
theorem pendingOf_open {slots : List Nat} (hslots : slots ≠ []) (frames : List Frame) :
    pendingOf ({ slots := slots } :: frames) = slots ++ (pendingOf frames).tail := by
  cases slots with
  | nil => exact absurd rfl hslots
  | cons slot slots => cases frames <;> simp [pendingOf, Frame.slot]

theorem Frame.valid_of_slots {slots : List Nat} (h : slots ≠ []) :
    Frame.Valid { slots := slots } :=
  ⟨h, Nat.zero_le _⟩

/-- The placement of a block that has an interval. -/
def Placement.ofInterval (i : Interval) : Placement :=
  if i.isData then .leaf i else .structural i

namespace Layout

/-- Closing a slot goes on to the sizes behind it, through all frames that are
done. -/
theorem pendingOf_closeSlot (frames : List Frame) :
    pendingOf (closeSlot frames) = frames.flatMap (·.slots.tail) := by
  induction frames with
  | nil => rfl
  | cons frame outer ih =>
    cases htail : frame.slots.tail with
    | nil => simp [closeSlot, htail, ih]
    | cons slot slots => simp [closeSlot, htail, pendingOf, Frame.slot]

theorem closeSlot_valid {frames : List Frame} (h : ∀ f ∈ frames, f.Valid) :
    ∀ f ∈ closeSlot frames, f.Valid := by
  induction frames with
  | nil => simp [closeSlot]
  | cons frame outer ih =>
    have houter : ∀ f ∈ outer, f.Valid := fun f hf => h f (List.mem_cons_of_mem _ hf)
    cases htail : frame.slots.tail with
    | nil => simpa [closeSlot, htail] using ih houter
    | cons slot slots =>
      simp only [closeSlot, htail, List.mem_cons, forall_eq_or_imp]
      exact ⟨Frame.valid_of_slots (by simp), houter⟩

/-! ## The invariant -/

/-- The sizes that a layout still wants, the next one first. -/
def pending (l : Layout) : List Nat :=
  pendingOf l.frames

/-- What every layout keeps that started empty.  `reached` is the cursor before it
was cut off at the largest count. -/
structure Valid (l : Layout) : Prop where
  frames : ∀ f ∈ l.frames, f.Valid
  underway : l.stage = .underway ↔ l.frames ≠ []
  fresh : l.stage = .fresh → l.fileSize = none
  unsized : l.fileSize = none → l.cursor = 0
  bounded : ∀ size ∈ l.fileSize, l.cursor ≤ size
  cursor_le : l.cursor ≤ maxCount
  sized : l.stage = .underway → ∀ size ∈ l.fileSize, size ≤ maxCount
  accounts : l.stage = .underway ∨ l.stage = .complete → ∃ reached, ∃ size ∈ l.fileSize,
    l.cursor = min reached maxCount ∧
      min size maxCount = min (reached + l.pending.sum) maxCount

/-- A layout that no block was given to. -/
abbrev new (retains : Bool) : Layout :=
  { retains := retains }

theorem valid_new (retains : Bool) : (new retains).Valid where
  frames := by simp
  underway := by simp
  fresh := by simp
  unsized := by simp
  bounded := by simp
  cursor_le := by simp [maxCount]
  sized := by simp
  accounts := by simp

/-- A layout has slots to fill exactly while it is underway. -/
theorem Valid.pending_eq_nil_iff {l : Layout} (h : l.Valid) :
    l.pending = [] ↔ l.stage ≠ .underway := by
  rw [pending, pendingOf_eq_nil, ne_eq, h.underway, not_not]

theorem Valid.frames_eq_nil {l : Layout} (h : l.Valid) (hu : l.stage ≠ .underway) :
    l.frames = [] := by
  by_contra hne
  exact hu (h.underway.2 hne)

/-! ## Steps -/

/-- What the slots of a layout become with a block, if it takes the block. -/
def slotsAfter? (l : Layout) (c : Content) : Option (List Nat) :=
  match l.stage with
  | .fresh => rootSlots? c
  | .underway => fill? l.pending c
  | .complete | .failed _ => none

@[simp] theorem slotsAfter?_new (retains : Bool) (c : Content) :
    (new retains).slotsAfter? c = rootSlots? c := rfl

/-- The interval that a layout gives a block. -/
def span (l : Layout) (c : Content) : Interval :=
  l.nextInterval c.ownSize c.leafSize?.isSome

/-- A layout that has taken a block, with the frames that are open then. -/
def taken (l : Layout) (c : Content) (frames : List Frame) : Layout :=
  { l.record (l.span c) with
    stage := if frames = [] then .complete else .underway
    frames := frames
    fileSize := some (l.fileSize.getD c.fullSize) }

theorem span_of_leafSize? (l : Layout) {c : Content} {m : Nat} (h : c.leafSize? = some m) :
    l.span c = l.nextInterval m true := by
  simp [span, h, Content.ownSize_of_leafSize? h]

theorem span_of_isInner (l : Layout) {node : Node} (h : node.IsInner) :
    l.span (.node node) = l.nextInterval node.inlineSize false := by
  simp [span, Content.leafSize?, Content.ownSize, h.not_isInlineLeaf]

/-- The cursor after a block and the sizes still wanted add up as before. -/
theorem Valid.exists_reached {l : Layout} (h : l.Valid) (hu : l.stage = .underway) :
    ∃ reached size, l.fileSize = some size ∧ size ≤ maxCount ∧
      l.cursor = min reached maxCount ∧ size = min (reached + l.pending.sum) maxCount := by
  obtain ⟨reached, size, hsize, hcursor, hsum⟩ := h.accounts (Or.inl hu)
  have hle := h.sized hu size hsize
  exact ⟨reached, size, hsize, hle, hcursor, by omega⟩

theorem placeRoot_taken {l : Layout} (hl : l.Valid) (hfresh : l.stage = .fresh) {node : Node}
    (hnode : node.IsFile) :
    ∃ frames, (∀ f ∈ frames, f.Valid) ∧ pendingOf frames = node.childSizes ∧
      l.placeRoot (.node node) =
        (.ofInterval (l.span (.node node)), l.taken (.node node) frames) := by
  have hframes := hl.frames_eq_nil (by simp [hfresh])
  have hsize := hl.fresh hfresh
  have hkind := hnode.kind
  have hmatch := Node.sizesMatchLinks_iff.2 hnode.sizes
  have hagrees := Node.filesizeAgrees_iff.2 hnode.filesize
  by_cases hlinks : node.linkCount = 0
  · have hsizes : node.childSizes = [] := by
      rw [← List.length_eq_zero_iff, hnode.sizes, hlinks]
    have hleaf := Node.isInlineLeaf_of_file hkind hlinks
    refine ⟨[], by simp, by simp [pendingOf, hsizes], ?_⟩
    simp [placeRoot, hkind, hmatch, hagrees, hlinks, span, taken, Content.leafSize?, hleaf,
      Content.ownSize, Content.fullSize, hsize, hframes, nextInterval, record,
      Placement.ofInterval]
  · have hinner : node.IsInner := ⟨hnode, Nat.pos_of_ne_zero hlinks⟩
    have hne := hinner.childSizes_ne_nil
    refine ⟨[{ slots := node.childSizes }], ?_, ?_, ?_⟩
    · simpa using Frame.valid_of_slots hne
    · simpa [pendingOf] using pendingOf_open hne []
    · simp [placeRoot, openNode, hkind, hmatch, hagrees, hlinks, span, taken, Content.leafSize?,
        hinner.not_isInlineLeaf, Content.ownSize, Content.fullSize, hsize, hframes, nextInterval,
        record, Placement.ofInterval]

/-- The last block of a file ends where the file ends. -/
theorem Valid.fileSize_of_last {l : Layout} (hl : l.Valid) (hu : l.stage = .underway) {m : Nat}
    (hpending : l.pending = [m]) : l.fileSize = some (satAdd l.cursor m) := by
  obtain ⟨reached, size, hsize, hle, hcursor, hsum⟩ := hl.exists_reached hu
  rw [hpending, List.sum_singleton] at hsum
  rw [hsize, hcursor, satAdd]
  congr 1
  omega

section

variable {l : Layout} (hl : l.Valid) (hu : l.stage = .underway) {frame : Frame}
  {outer : List Frame} (hframes : l.frames = frame :: outer)

include hframes in
theorem pending_cons : l.pending = (frame.slot - frame.filled) :: l.pending.tail := by
  simp [pending, hframes, pendingOf]

include hl hu hframes in
/-- A leaf that is smaller than what is left of its slot leaves the rest of it. -/
theorem placeLeaf_part {c : Content} {m : Nat} (hleaf : c.leafSize? = some m)
    (hm : m < frame.slot - frame.filled) :
    ∃ frames, (∀ f ∈ frames, f.Valid) ∧
      pendingOf frames = (frame.slot - frame.filled - m) :: l.pending.tail ∧
      l.placeLeaf frame outer m = (.ofInterval (l.span c), l.taken c frames) := by
  have hvalid := hl.frames
  obtain ⟨_, size, hsize, -⟩ := hl.exists_reached hu
  have hfits : ¬frame.slot - frame.filled < m := by omega
  have hfilled : frame.filled + m ≠ frame.slot := by omega
  refine ⟨{ frame with filled := frame.filled + m } :: outer, ?_, ?_, ?_⟩
  · simp only [hframes, List.mem_cons, forall_eq_or_imp] at hvalid ⊢
    refine ⟨⟨hvalid.1.slots, ?_⟩, hvalid.2⟩
    change frame.filled + m ≤ frame.slot
    omega
  · simp only [pendingOf, pending, hframes, List.tail_cons, Nat.sub_add_eq]
    rfl
  · simp [placeLeaf, hfits, hfilled, taken, span_of_leafSize? l hleaf, Placement.ofInterval,
      nextInterval, record, hsize, hu]

include hl hu hframes in
/-- A leaf that has the size of what is left of its slot closes the slot.  Behind the
last slot the file is complete: the check of its size there cannot fail. -/
theorem placeLeaf_last {c : Content} (hleaf : c.leafSize? = some (frame.slot - frame.filled)) :
    ∃ frames, (∀ f ∈ frames, f.Valid) ∧ pendingOf frames = l.pending.tail ∧
      l.placeLeaf frame outer (frame.slot - frame.filled) =
        (.ofInterval (l.span c), l.taken c frames) := by
  have hvalid := hl.frames
  rw [hframes] at hvalid
  have hframe : frame.Valid := hvalid frame (by simp)
  obtain ⟨_, size, hsize, -⟩ := hl.exists_reached hu
  have hfilled : frame.filled + (frame.slot - frame.filled) = frame.slot := by
    have := hframe.filled
    omega
  have hrest : pendingOf (closeSlot (frame :: outer)) = l.pending.tail := by
    rw [pendingOf_closeSlot, pending, hframes]
    rfl
  refine ⟨closeSlot (frame :: outer), closeSlot_valid hvalid, hrest, ?_⟩
  cases hclose : closeSlot (frame :: outer) with
  | nil =>
    have hpending : l.pending = [frame.slot - frame.filled] := by
      rw [hclose] at hrest
      rw [pending_cons hframes, ← hrest]
      rfl
    have hend := hl.fileSize_of_last hu hpending
    simp [placeLeaf, hfilled, hclose, taken, span_of_leafSize? l hleaf,
      Placement.ofInterval, nextInterval, record, hend]
  | cons frame' outer' =>
    simp [placeLeaf, hfilled, hclose, taken, span_of_leafSize? l hleaf,
      Placement.ofInterval, nextInterval, record, hsize, hu]

include hl hu in
/-- A node with children that has the size of what is left of its slot takes the
slot over. -/
theorem placeNode_inner {node : Node} (hinner : node.IsInner)
    (hsize : node.contentSize = frame.slot - frame.filled) :
    ∃ frames, (∀ f ∈ frames, f.Valid) ∧
      pendingOf frames = node.childSizes ++ l.pending.tail ∧
      l.placeNode frame outer node =
        (.ofInterval (l.span (.node node)), l.taken (.node node) frames) := by
  have hne := hinner.childSizes_ne_nil
  have hmatch := Node.sizesMatchLinks_iff.2 hinner.sizes
  have hagrees := Node.filesizeAgrees_iff.2 hinner.filesize
  obtain ⟨_, size, hfile, -⟩ := hl.exists_reached hu
  refine ⟨{ slots := node.childSizes } :: l.frames, ?_, pendingOf_open hne l.frames, ?_⟩
  · simp only [List.mem_cons, forall_eq_or_imp]
    exact ⟨Frame.valid_of_slots hne, hl.frames⟩
  · simp [placeNode, openNode, hinner.not_isInlineLeaf, hinner.kind, hmatch, hagrees, hsize,
      span_of_isInner l hinner, taken, hfile, nextInterval, record, Placement.ofInterval]

include hu hframes in
theorem place_of_leafSize? {c : Content} {m : Nat} (hleaf : c.leafSize? = some m) :
    l.place c = l.placeLeaf frame outer m := by
  cases c with
  | bytes size =>
    obtain rfl : size = m := by simpa [Content.leafSize?] using hleaf
    simp [place, hu, hframes]
  | node node =>
    simp only [Content.leafSize?] at hleaf
    split_ifs at hleaf with hinline
    obtain rfl : node.inlineSize = m := by simpa using hleaf
    simp [place, hu, hframes, placeNode, hinline]

include hu hframes in
theorem place_of_node (node : Node) : l.place (.node node) = l.placeNode frame outer node := by
  simp [place, hu, hframes]

end

/-- A block that the slots have room for gets the next interval, and the slots
become what it leaves of them. -/
theorem place_taken {l : Layout} (hl : l.Valid) {c : Content} {slots : List Nat}
    (h : l.slotsAfter? c = some slots) :
    ∃ frames, (∀ f ∈ frames, f.Valid) ∧ pendingOf frames = slots ∧
      l.place c = (.ofInterval (l.span c), l.taken c frames) := by
  cases hstage : l.stage with
  | fresh =>
    simp only [slotsAfter?, hstage] at h
    cases c with
    | bytes size => simp [rootSlots?] at h
    | node node =>
      simp only [rootSlots?] at h
      split_ifs at h with hfile
      obtain rfl := Option.some.inj h
      simpa only [place, hstage] using placeRoot_taken hl hstage hfile
  | underway =>
    simp only [slotsAfter?, hstage] at h
    cases hframes : l.frames with
    | nil => exact absurd hframes (hl.underway.1 hstage)
    | cons frame outer =>
      rw [pending_cons hframes] at h
      obtain ⟨m, hleaf, hlt, rfl⟩ | ⟨hleaf, rfl⟩ | ⟨node, rfl, hinner, hsize, rfl⟩ :=
        fill?_cases h
      · rw [place_of_leafSize? hstage hframes hleaf]
        exact placeLeaf_part hl hstage hframes hleaf hlt
      · rw [place_of_leafSize? hstage hframes hleaf]
        exact placeLeaf_last hl hstage hframes hleaf
      · rw [place_of_node hstage hframes]
        exact placeNode_inner hl hstage hinner hsize
  | complete => simp [slotsAfter?, hstage] at h
  | failed reason => simp [slotsAfter?, hstage] at h

theorem placeRoot_refused {l : Layout} {c : Content} (h : rootSlots? c = none) :
    ∃ reason, l.placeRoot c = l.fail reason := by
  cases c with
  | bytes size => exact ⟨_, rfl⟩
  | node node =>
    have hfile : ¬node.IsFile := by simpa [rootSlots?] using h
    simp only [placeRoot]
    split_ifs with hkind hmatch hagrees hlinks
    · exact ⟨_, rfl⟩
    · exact ⟨_, rfl⟩
    · exact ⟨_, rfl⟩
    all_goals
      refine absurd ⟨by simpa using hkind, Node.sizesMatchLinks_iff.1 (by simpa using hmatch),
        Node.filesizeAgrees_iff.1 (by simpa using hagrees)⟩ hfile

theorem placeNode_refused {l : Layout} {frame : Frame} {outer : List Frame} {node : Node}
    (hinline : node.isInlineLeaf = false)
    (h : ¬(node.IsInner ∧ node.contentSize = frame.slot - frame.filled)) :
    ∃ reason, l.placeNode frame outer node = l.fail reason := by
  simp only [placeNode, hinline, Bool.false_eq_true, if_false]
  split_ifs with hkind hmatch hsize
  · exact ⟨_, rfl⟩
  · exact ⟨_, rfl⟩
  · exact ⟨_, rfl⟩
  · obtain ⟨hsize, hagrees⟩ := not_or.1 hsize
    have hkind : node.kind = .file := by simpa using hkind
    have hlinks : 0 < node.linkCount := by
      by_contra hzero
      rw [Node.isInlineLeaf_of_file hkind (by omega)] at hinline
      cases hinline
    have hfile : node.IsFile := ⟨hkind, Node.sizesMatchLinks_iff.1 (by simpa using hmatch),
      Node.filesizeAgrees_iff.1 (by simpa using hagrees)⟩
    exact absurd ⟨⟨hfile, hlinks⟩, by simpa using hsize⟩ h

/-- A block that the first slot has no room for is a mismatch. -/
theorem place_refused_underway {l : Layout} (hu : l.stage = .underway) {frame : Frame}
    {outer : List Frame} (hframes : l.frames = frame :: outer) {c : Content} {rest : List Nat}
    (h : fill? ((frame.slot - frame.filled) :: rest) c = none) :
    ∃ reason, l.place c = l.fail reason := by
  cases hleaf : c.leafSize? with
  | some m =>
    rw [place_of_leafSize? hu hframes hleaf]
    rw [fill?_of_leafSize? hleaf] at h
    split_ifs at h with hlt heq
    exact ⟨_, if_pos (by omega)⟩
  | none =>
    cases c with
    | bytes size => simp [Content.leafSize?] at hleaf
    | node node =>
      have hinline : node.isInlineLeaf = false := by simpa [Content.leafSize?] using hleaf
      rw [place_of_node hu hframes]
      rw [fill?_of_node hinline] at h
      split_ifs at h with hinner
      exact placeNode_refused hinline hinner

/-- A block that the slots have no room for is a mismatch, and behind the end of the
file it is detached. -/
theorem place_refused {l : Layout} (hl : l.Valid) {c : Content} (h : l.slotsAfter? c = none) :
    (∃ reason, l.place c = l.fail reason) ∨
      l.stage = .complete ∧ l.place c = (.detached l.cursor, l) := by
  cases hstage : l.stage with
  | fresh =>
    simp only [slotsAfter?, hstage] at h
    exact Or.inl (by simpa only [place, hstage] using placeRoot_refused h)
  | underway =>
    simp only [slotsAfter?, hstage] at h
    cases hframes : l.frames with
    | nil => exact absurd hframes (hl.underway.1 hstage)
    | cons frame outer =>
      rw [pending_cons hframes] at h
      exact Or.inl (place_refused_underway hstage hframes h)
  | complete => exact Or.inr ⟨rfl, by simp [place, hstage]⟩
  | failed reason =>
    have hframes := hl.frames_eq_nil (by simp [hstage])
    refine Or.inl ⟨reason, ?_⟩
    simp only [place, hstage, fail]
    rw [← hstage, ← hframes]

/-- All that can become of a block: it gets the next interval, it is a mismatch, or it comes behind
the end of the file. -/
theorem place_cases {l : Layout} (hl : l.Valid) (c : Content) :
    (∃ frames, l.place c = (.ofInterval (l.span c), l.taken c frames)) ∨
      (∃ reason, l.place c = l.fail reason) ∨
      l.stage = .complete ∧ l.place c = (.detached l.cursor, l) := by
  cases h : l.slotsAfter? c with
  | some slots =>
    obtain ⟨frames, -, -, hplace⟩ := place_taken hl h
    exact Or.inl ⟨frames, hplace⟩
  | none => exact Or.inr (place_refused hl h)

/-! ## The invariant is kept -/

theorem Valid.fail {l : Layout} (hl : l.Valid) (reason : Mismatch) : (l.fail reason).2.Valid where
  frames := by simp [Layout.fail]
  underway := by simp [Layout.fail]
  fresh := by simp [Layout.fail]
  unsized := hl.unsized
  bounded := hl.bounded
  cursor_le := hl.cursor_le
  sized := by simp [Layout.fail]
  accounts := by simp [Layout.fail]

/-- The cursor behind a block and the slots that it leaves add up to the size of the
file. -/
theorem Valid.exists_reached_taken {l : Layout} (hl : l.Valid) {c : Content} {slots : List Nat}
    (h : l.slotsAfter? c = some slots) :
    ∃ reached, satAdd l.cursor c.ownSize = min reached maxCount ∧
      min (l.fileSize.getD c.fullSize) maxCount = min (reached + slots.sum) maxCount ∧
      (slots ≠ [] → l.fileSize.getD c.fullSize ≤ maxCount) := by
  cases hstage : l.stage with
  | fresh =>
    simp only [slotsAfter?, hstage] at h
    have hsize := hl.fresh hstage
    refine ⟨c.ownSize, ?_, ?_, ?_⟩
    · rw [hl.unsized hsize, satAdd, Nat.zero_add]
    · simpa [hsize] using rootSlots?_sum h
    · simpa [hsize] using fullSize_le_of_rootSlots? h
  | underway =>
    simp only [slotsAfter?, hstage] at h
    obtain ⟨reached, size, hsize, hle, hcursor, hsum⟩ := hl.exists_reached hstage
    have hfill := fill?_sum h
    refine ⟨reached + c.ownSize, ?_, ?_, ?_⟩
    · rw [hcursor, satAdd]
      omega
    · rw [hsize, Option.getD_some]
      omega
    · simpa [hsize] using fun _ => hle
  | complete => simp [slotsAfter?, hstage] at h
  | failed reason => simp [slotsAfter?, hstage] at h

theorem Valid.taken {l : Layout} (hl : l.Valid) {c : Content} {slots : List Nat}
    (h : l.slotsAfter? c = some slots) {frames : List Frame} (hframes : ∀ f ∈ frames, f.Valid)
    (hslots : pendingOf frames = slots) : (l.taken c frames).Valid := by
  obtain ⟨reached, hcursor, hsum, hle⟩ := hl.exists_reached_taken h
  have hnil : frames ≠ [] → slots ≠ [] := by
    rw [← hslots]
    simp
  constructor
  case frames => exact hframes
  case underway => by_cases hf : frames = [] <;> simp [Layout.taken, hf]
  case fresh => by_cases hf : frames = [] <;> simp [Layout.taken, hf]
  case unsized => simp [Layout.taken]
  case bounded =>
    intro size hsize
    obtain rfl := Option.some.inj hsize
    change satAdd l.cursor c.ownSize ≤ _
    omega
  case cursor_le =>
    change satAdd l.cursor c.ownSize ≤ maxCount
    omega
  case sized =>
    intro hstage size hsize
    obtain rfl := Option.some.inj hsize
    refine hle (hnil ?_)
    rintro rfl
    simp [Layout.taken] at hstage
  case accounts =>
    intro _
    refine ⟨reached, _, rfl, hcursor, ?_⟩
    rw [hsum, ← hslots]
    rfl

/-- Whatever the next block is, the invariant is kept. -/
theorem Valid.place {l : Layout} (hl : l.Valid) (c : Content) : (l.place c).2.Valid := by
  cases h : l.slotsAfter? c with
  | some slots =>
    obtain ⟨frames, hframes, hslots, hplace⟩ := place_taken hl h
    rw [hplace]
    exact hl.taken h hframes hslots
  | none =>
    obtain ⟨reason, hplace⟩ | ⟨-, hplace⟩ := place_refused hl h
    · rw [hplace]
      exact hl.fail reason
    · rw [hplace]
      exact hl

theorem place_pending {l : Layout} (hl : l.Valid) {c : Content} {slots : List Nat}
    (h : l.slotsAfter? c = some slots) :
    (l.place c).2.pending = slots ∧
      ((l.place c).2.stage = .underway ∨ (l.place c).2.stage = .complete) := by
  obtain ⟨frames, -, hslots, hplace⟩ := place_taken hl h
  rw [hplace]
  refine ⟨hslots, ?_⟩
  by_cases hf : frames = [] <;> simp [Layout.taken, hf]

/-! ## Placing a row of blocks -/

/-- Places blocks in order. -/
def placeAll (l : Layout) : List Content → List Placement × Layout
  | [] => ([], l)
  | c :: rest =>
    match l.place c with
    | (placement, l) =>
      match l.placeAll rest with
      | (placements, l) => (placement :: placements, l)

@[simp] theorem placeAll_nil (l : Layout) : l.placeAll [] = ([], l) := rfl

theorem placeAll_cons (l : Layout) (c : Content) (rest : List Content) :
    l.placeAll (c :: rest) =
      ((l.place c).1 :: ((l.place c).2.placeAll rest).1, ((l.place c).2.placeAll rest).2) := rfl

theorem Valid.placeAll {l : Layout} (hl : l.Valid) (contents : List Content) :
    (l.placeAll contents).2.Valid := by
  induction contents generalizing l with
  | nil => exact hl
  | cons c contents ih => exact ih (hl.place c)

end Layout

end CarSlice
