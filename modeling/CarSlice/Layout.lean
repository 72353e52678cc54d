import CarSlice.UnixFs

/-!
# The layout of a file over the blocks of an archive

Blocks come in preorder: a node, then its children one after the other, each
filling the slot that its parent's sizes set aside for it. `Layout.place` gives
every block its interval of the file. It keeps one frame for every node that is
still open, so its memory grows with the depth of the tree and not with the
number of blocks.

A block that contradicts the sizes seen so far is a mismatch, after which the
layout is of no use. Blocks that come when the file is complete are detached.
-/

namespace CarSlice

open UnixFs (Content Node NodeKind)

/-! ## Intervals and placements -/

/-- The part of a file that a block holds, `stop` not included. The interval of a
node with children spans only the bytes in the node itself. -/
structure Interval where
  start : Nat
  stop : Nat
  isData : Bool
  deriving Repr, DecidableEq

/-- The length of an interval as a 64-bit number: if it begins behind its end it
wraps around. -/
def Interval.length (i : Interval) : Nat :=
  (i.stop + wordValues - i.start) % wordValues

/-- The interval of no bytes at an offset. -/
def Interval.empty (offset : Nat) : Interval :=
  { start := offset, stop := offset, isData := false }

/-- Why a block does not fit what the blocks before it said. -/
inductive Mismatch where
  | rootNotFile
  | rootSizesCount
  | rootFilesize
  | foreignNode (kind : NodeKind)
  | sizesCount
  | childSize
  | overrun
  /-- The last slot was filled at an offset that is not the size of the file. -/
  | endsElsewhere (offset size : Nat)
  /-- The first block is not the one that the header names as root. -/
  | notHeaderRoot
  deriving Repr, DecidableEq

/-- The description of a mismatch. -/
def Mismatch.text : Mismatch → Text
  | .rootNotFile => utf8 "root block is not a UnixFS file"
  | .rootSizesCount => utf8 "root blocksizes count differs from link count"
  | .rootFilesize => utf8 "root filesize differs from the sum of its parts"
  | .foreignNode kind => utf8 "unexpected " ++ kind.name ++ utf8 " node inside file"
  | .sizesCount => utf8 "blocksizes count differs from link count"
  | .childSize => utf8 "child node size disagrees with parent blocksizes"
  | .overrun => utf8 "leaf overruns its parent slot"
  | .endsElsewhere offset size =>
    utf8 "file ended at offset " ++ decimal offset ++ utf8 ", declared size " ++ decimal size
  | .notHeaderRoot => utf8 "first block is not the header root"

/-- What is said of a block. -/
inductive Placement where
  /-- A node with children; it is always needed for verification. -/
  | structural (interval : Interval)
  /-- A block that holds bytes of the file. -/
  | leaf (interval : Interval)
  /-- A block that contradicts the blocks before it. -/
  | mismatch (offset : Nat) (reason : Mismatch)
  /-- A block that came when the file was complete. -/
  | detached (offset : Nat)
  deriving Repr, DecidableEq

/-- The interval of a placement, which is empty if the block has no part in the
file. -/
def Placement.interval : Placement → Interval
  | .structural i => i
  | .leaf i => i
  | .mismatch offset _ => .empty offset
  | .detached offset => .empty offset

/-! ## The layout -/

/-- A node whose children are still to come. -/
structure Frame where
  /-- The sizes of the slots that are not yet filled, the present one first. There
  is always one. -/
  slots : List Nat
  /-- How many bytes of the present slot are filled. -/
  filled : Nat := 0
  deriving Repr, DecidableEq

/-- The size of the present slot. -/
def Frame.slot (f : Frame) : Nat :=
  f.slots.headD 0

/-- How far a layout has come. -/
inductive Stage where
  /-- No block was placed yet. -/
  | fresh
  /-- Some slots are not filled yet. -/
  | underway
  | complete
  | failed (reason : Mismatch)
  deriving Repr, DecidableEq

/-- The intervals given out so far and the slots still to be filled. -/
structure Layout where
  /-- Whether all intervals are kept. -/
  retains : Bool := false
  stage : Stage := .fresh
  /-- The open nodes, innermost first. -/
  frames : List Frame := []
  /-- The offset in the file that was reached. -/
  cursor : Nat := 0
  /-- The size of the file, once the root was placed. -/
  fileSize : Option Nat := none
  last : Option Interval := none
  /-- The intervals that are kept, the last one first. -/
  kept : List Interval := []
  deriving Repr, DecidableEq

namespace Layout

/-- Whether a block was placed. -/
def started (l : Layout) : Bool :=
  l.stage != .fresh

/-- Whether every slot is filled. -/
def isComplete (l : Layout) : Bool :=
  l.stage == .complete

/-- Whether a block was a mismatch. -/
def hasFailed (l : Layout) : Bool :=
  match l.stage with
  | .failed _ => true
  | _ => false

/-- Whether slots are left to fill. -/
def isIncomplete (l : Layout) : Bool :=
  l.stage == .underway

/-- How many nodes are open. -/
def depth (l : Layout) : Nat :=
  l.frames.length

/-- All intervals in order, if they are kept. -/
def intervals? (l : Layout) : Option (List Interval) :=
  if l.retains then some l.kept.reverse else none

/-! ## Steps -/

/-- Gives up because of a block. -/
def fail (l : Layout) (reason : Mismatch) : Placement × Layout :=
  (.mismatch l.cursor reason, { l with stage := .failed reason, frames := [] })

/-- The interval of a block that holds so many bytes of its own. -/
def nextInterval (l : Layout) (length : Nat) (isData : Bool) : Interval :=
  { start := l.cursor, stop := satAdd l.cursor length, isData }

/-- Moves behind an interval. -/
def record (l : Layout) (i : Interval) : Layout :=
  { l with
    cursor := i.stop
    last := some i
    kept := if l.retains then i :: l.kept else l.kept }

/-- Goes on to the slot behind the present one. A node whose last slot was filled
is closed, and the slot it stands in is filled with it. -/
def closeSlot : List Frame → List Frame
  | [] => []
  | frame :: outer =>
    match frame.slots.tail with
    | [] => closeSlot outer
    | slots => { slots := slots } :: outer

/-- Opens a node: its children have to come before anything else. -/
def openNode (l : Layout) (node : Node) : Placement × Layout :=
  let i := l.nextInterval node.inlineSize false
  (.structural i,
    { l.record i with stage := .underway, frames := { slots := node.childSizes } :: l.frames })

/-- Places the root. -/
def placeRoot (l : Layout) (content : Content) : Placement × Layout :=
  match content with
  | .bytes _ => l.fail .rootNotFile
  | .node node =>
    if node.kind ≠ .file then l.fail .rootNotFile
    else if !node.sizesMatchLinks then l.fail .rootSizesCount
    else if !node.filesizeAgrees then l.fail .rootFilesize
    else
      let l := { l with fileSize := some node.contentSize }
      if node.linkCount = 0 then
        let i := l.nextInterval node.inlineSize true
        (.leaf i, { l.record i with stage := .complete })
      else l.openNode node

/-- Places a block that holds so many bytes in the present slot. -/
def placeLeaf (l : Layout) (frame : Frame) (outer : List Frame) (size : Nat) :
    Placement × Layout :=
  if frame.slot - frame.filled < size then l.fail .overrun
  else
    let i := l.nextInterval size true
    let l := l.record i
    let filled := frame.filled + size
    if filled = frame.slot then
      match closeSlot (frame :: outer) with
      | [] =>
        if l.fileSize = some l.cursor then (.leaf i, { l with stage := .complete, frames := [] })
        else l.fail (.endsElsewhere l.cursor (l.fileSize.getD 0))
      | frames => (.leaf i, { l with frames })
    else (.leaf i, { l with frames := { frame with filled } :: outer })

/-- Places a node in the present slot. A node with children must account for all
that is left of the slot. -/
def placeNode (l : Layout) (frame : Frame) (outer : List Frame) (node : Node) :
    Placement × Layout :=
  if node.isInlineLeaf then l.placeLeaf frame outer node.inlineSize
  else if node.kind ≠ .file then l.fail (.foreignNode node.kind)
  else if !node.sizesMatchLinks then l.fail .sizesCount
  else if node.contentSize ≠ frame.slot - frame.filled ∨ !node.filesizeAgrees then
    l.fail .childSize
  else l.openNode node

/-- Places the next block. -/
def place (l : Layout) (content : Content) : Placement × Layout :=
  match l.stage with
  | .failed reason => (.mismatch l.cursor reason, l)
  | .complete => (.detached l.cursor, l)
  | .fresh => l.placeRoot content
  | .underway =>
    match l.frames, content with
    | [], _ => (.detached l.cursor, l)
    | frame :: outer, .bytes size => l.placeLeaf frame outer size
    | frame :: outer, .node node => l.placeNode frame outer node

end Layout

end CarSlice
