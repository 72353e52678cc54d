import CarSlice.Session.Cases

/-!
# What a session carries through a block

A block is placed and decided on, written or dropped, and the session may warn of it.  Whatever
these smallest steps carry is carried by all the work on a block.

* `Carried`: a relation that holds when a session makes up its mind, and `CarriedByWrites`: one that
  holds also when it writes.  The lemmas behind them lead from the steps to `selectByRoot`,
  `handleRoot` and `handleBlock`.
* `Keeps` is such a relation: the session has not read and not ended meanwhile, and what it says of
  its end (`Ending`) is the same (`carried_keeps`).
-/

namespace CarSlice

open Archive (Block Header Reader)

namespace Session

/-! ## What every function carries on -/

/-- A relation of a session to what becomes of it that holds when the session makes up its mind,
drops a block or warns of one. -/
structure Carried (related : Session → Session → Prop) : Prop where
  trans : ∀ {s s' s'' : Session}, related s s' → related s' s'' → related s s''
  selects : ∀ (s : Session) (layout : Layout) (selection : Option Selection)
    (resolvedEnd : Option Nat), related s { s with layout, selection, resolvedEnd }
  drops : ∀ (s : Session) (blocksDiscarded : Nat),
    related s { s with stats := { s.stats with blocksDiscarded } }
  warnsNotOneFile : ∀ (s : Session) (reason : Mismatch), related s (s.warnNotOneFile reason)
  warnsLate : ∀ (s : Session) (reason : Mismatch), related s (s.warnLate reason)

/-- A relation that holds also when the session writes, whether or not the sink takes what it
writes. -/
structure CarriedByWrites (related : Session → Session → Prop) : Prop extends Carried related where
  header : ∀ (s : Session) (header : Header), related s (s.writeHeader header).2
  block : ∀ (s : Session) (block : Block), related s (s.writeBlock block).2

section

variable {related : Session → Session → Prop}

theorem Carried.refl (h : Carried related) (s : Session) : related s s :=
  h.selects s s.layout s.selection s.resolvedEnd

theorem Carried.warnOfMismatch (h : Carried related) (s : Session) (placement : Placement) :
    related s (s.warnOfMismatch placement) := by
  unfold Session.warnOfMismatch
  split
  · split
    · exact h.warnsLate s _
    · exact h.warnsNotOneFile s _
  · exact h.refl s

theorem Carried.selectByRoot (h : Carried related) (s : Session) (header : Header)
    (block : Block) : related s (s.selectByRoot header block).2 := by
  have hselects := s.selectsByRoot_selectByRoot header block
  generalize s.selectByRoot header block = result at hselects
  cases hselects with
  | passed offset reason layout hplace =>
    exact h.trans (h.selects s layout (some (Selection.ofRange 0 0 none).passThrough) s.resolvedEnd)
      (h.warnsNotOneFile _ reason)
  | outside placement layout e => exact h.selects s layout s.selection s.resolvedEnd
  | selected placement layout stop => exact h.selects s layout _ _

theorem CarriedByWrites.carryOut (h : CarriedByWrites related) (s : Session) (decision : Decision)
    (block : Block) : related s (s.carryOut decision block).2 := by
  cases decision with
  | emit => exact h.block s block
  | drop => exact h.drops s _

theorem CarriedByWrites.selectBlock (h : CarriedByWrites related) (s : Session)
    (selection : Selection) (block : Block) : related s (s.selectBlock selection block).2 := by
  have hcarries := h.trans (h.selects s _ _ s.resolvedEnd)
    (h.carryOut (s.decided selection block)
      (selection.decide (s.layout.place (.ofBlock block)).1).1 block)
  have hselects := s.selectsBlock_selectBlock selection block
  generalize s.selectBlock selection block = result at hselects
  cases hselects with
  | refused e s₁ hcarried => rwa [hcarried] at hcarries
  | carried s₁ hcarried =>
    rw [hcarried] at hcarries
    exact h.trans hcarries (h.warnOfMismatch s₁ _)

theorem CarriedByWrites.handleBlock (h : CarriedByWrites related) (s : Session) (block : Block) :
    related s (s.handleBlock block).2 := by
  have hhandles := s.handlesBlock_handleBlock block
  generalize s.handleBlock block = result at hhandles
  cases hhandles with
  | unselected => exact h.block s block
  | passed => exact h.block s block
  | chosen selection => exact h.selectBlock s selection block

theorem CarriedByWrites.handleRoot (h : CarriedByWrites related) (s : Session) (header : Header)
    (block : Block) : related s (s.handleRoot header block).2 := by
  have hselected := h.selectByRoot s header block
  have hhandles := s.handlesRoot_handleRoot header block
  generalize s.handleRoot header block = result at hhandles
  cases hhandles with
  | unselected e s₁ hselect => rwa [hselect] at hselected
  | headless e s₁ s₂ hselect hheader =>
    rw [hselect] at hselected
    have hheaded := h.trans hselected (h.header s₁ header)
    rwa [hheader] at hheaded
  | headed s₁ s₂ hselect hheader =>
    rw [hselect] at hselected
    have hheaded := h.trans hselected (h.header s₁ header)
    rw [hheader] at hheaded
    exact h.trans hheaded (h.block s₂ block)

end

/-! ## What neither reads nor ends -/

/-- What the counts of a session say of its end. -/
structure Ending where
  cancelled : Bool
  incompleteFile : Bool
  sourceClosed : Bool

/-- What a session says of its end so far. -/
def ending (s : Session) : Ending :=
  { cancelled := s.stats.cancelled
    incompleteFile := s.stats.incompleteFile
    sourceClosed := s.stats.sourceClosed }

/-- A session that has not read and not ended meanwhile. -/
structure Keeps (s s' : Session) : Prop where
  finished : s'.finished = s.finished
  reader : s'.reader = s.reader
  ending : s'.ending = s.ending

theorem Keeps.trans {s s' s'' : Session} (h : s.Keeps s') (h' : s'.Keeps s'') : s.Keeps s'' :=
  ⟨h'.finished.trans h.finished, h'.reader.trans h.reader, h'.ending.trans h.ending⟩

theorem keeps_writeHeader (s : Session) (header : Header) :
    s.Keeps (s.writeHeader header).2 :=
  ⟨rfl, rfl, rfl⟩

theorem keeps_writeBlock (s : Session) (block : Block) : s.Keeps (s.writeBlock block).2 := by
  unfold writeBlock
  split <;> exact ⟨rfl, rfl, rfl⟩

theorem carried_keeps : CarriedByWrites Keeps where
  trans := Keeps.trans
  selects _ _ _ _ := ⟨rfl, rfl, rfl⟩
  drops _ _ := ⟨rfl, rfl, rfl⟩
  warnsNotOneFile _ _ := ⟨rfl, rfl, rfl⟩
  warnsLate _ _ := ⟨rfl, rfl, rfl⟩
  header := keeps_writeHeader
  block := keeps_writeBlock

theorem keeps_handleRoot (s : Session) (header : Header) (block : Block) :
    s.Keeps (s.handleRoot header block).2 :=
  carried_keeps.handleRoot s header block

theorem keeps_handleBlock (s : Session) (block : Block) : s.Keeps (s.handleBlock block).2 :=
  carried_keeps.handleBlock s block

theorem keeps_noted (s : Session) (before : Phase) :
    s.Keeps (s.noteComplete.notePhase before) := by
  obtain ⟨selection, said, hnoted⟩ := s.noted_eq before
  rw [hnoted]
  exact ⟨rfl, rfl, rfl⟩

end Session

end CarSlice
