import CarSlice.Proofs.Session.Remarks

/-!
# Work that may come to the end of a session

A session reads, handles a block and settles it.  On the way it may fail, and behind it the session
goes on or ends.  `Work` gathers what there is to show for a statement of this kind: what the steps
before the end bring about, and what failing, going on and ending come to.  From that it follows for
all work of a session: `Work.settle`, `Work.settles`, `Work.endOfArchive`, `Work.advance`,
`Work.begin` and `Work.stop`.
-/

namespace CarSlice

open Archive (Block Header Reader)

namespace Session

/-- A statement `comes` on a session and what its work comes to, and what is `related` by the steps
before that. -/
structure Work (related : Session → Session → Prop)
    (comes : Session → Except Error Unit × Session → Prop) : Prop where
  trans : ∀ {s s' s'' : Session}, related s s' → related s' s'' → related s s''
  remarks : ∀ {s s' : Session}, s.Remarks s' → s'.writer = s.writer → related s s'
  notes : ∀ (s : Session) (before : Phase), related s (s.noteComplete.notePhase before)
  header : ∀ (s : Session) (header : Header), related s (s.writeHeader header).2
  block : ∀ (s : Session) (block : Block), related s (s.writeBlock block).2
  after : ∀ {s s₁ : Session} {result : Except Error Unit × Session}, related s s₁ →
    comes s₁ result → comes s result
  failed : ∀ {s s₁ : Session} (e : Error), related s s₁ → comes s (.error e, s₁)
  goesOn : ∀ {s s₁ : Session}, related s s₁ → s₁.finished = false → comes s (.ok (), s₁)
  finish : ∀ s : Session, comes s s.finish

section

variable {related : Session → Session → Prop}
  {comes : Session → Except Error Unit × Session → Prop} (h : Work related comes)

include h

/-- What neither says nor writes anything. -/
theorem Work.beside {s s' : Session} (hsaid : s'.said = s.said) (hwriter : s'.writer = s.writer) :
    related s s' :=
  h.remarks (remarks_of_said hsaid) hwriter

theorem Work.carried : CarriedByWrites related where
  trans := h.trans
  selects _ _ _ _ := h.beside rfl rfl
  drops _ _ := h.beside rfl rfl
  warnsNotOneFile s reason := h.remarks (s.remarks_warnNotOneFile reason) rfl
  warnsLate s reason := h.remarks (s.remarks_warnLate reason) rfl
  header := h.header
  block := h.block

theorem Work.readBlock (s : Session) : related s s.readBlock.2 :=
  h.remarks s.remarks_readBlock s.writer_readBlock

/-! ## Blocks -/

theorem Work.settle {s : Session} (hf : s.finished = false) (before : Phase) :
    comes s (s.settle before) := by
  have hnoted := h.notes s before
  have hkeeps := s.keeps_noted before
  have hsettles := s.settlesAs_settle before
  generalize s.settle before = result at hsettles
  cases hsettles with
  | ended => exact h.after hnoted (h.finish _)
  | goesOn => exact h.goesOn hnoted (hkeeps.finished.trans hf)

theorem Work.settles {s : Session} {work result : Except Error Unit × Session}
    (hsettles : s.SettlesWork work result) (hrelated : related s work.2) (hkeeps : s.Keeps work.2)
    (hf : s.finished = false) : comes s result := by
  cases hsettles with
  | failed e s₁ => exact h.failed e hrelated
  | settled s₁ => exact h.after hrelated (h.settle (hkeeps.finished.trans hf) s.phase)

theorem Work.processBlock {s : Session} (hf : s.finished = false) (block : Block) :
    comes s (s.processBlock block) :=
  h.settles (s.settlesWork_processBlock block) (h.carried.handleBlock s block)
    (s.keeps_handleBlock block) hf

theorem Work.processRoot {s : Session} (hf : s.finished = false) (header : Header) (block : Block) :
    comes s (s.processRoot header block) :=
  h.settles (s.settlesWork_processRoot header block) (h.carried.handleRoot s header block)
    (s.keeps_handleRoot header block) hf

/-! ## Steps -/

theorem Work.endOfArchive (s : Session) : comes s s.endOfArchive := by
  have hends := s.endsArchive_endOfArchive
  generalize s.endOfArchive = result at hends
  cases hends with
  | incomplete =>
    let s₁ : Session := { s with stats := { s.stats with incompleteFile := true } }
    have hcounted : related s s₁ := h.beside rfl rfl
    exact h.after (h.trans hcounted (h.remarks s₁.remarks_warnIncomplete rfl)) (h.finish _)
  | complete => exact h.finish s

theorem Work.advance {s : Session} (hf : s.finished = false) : comes s s.advance := by
  have hreads := s.readsNext_advance
  generalize s.advance = result at hreads
  cases hreads with
  | unread e reader => exact h.failed e (h.beside rfl rfl)
  | exhausted reader =>
    have hread : related s { s with reader } := h.beside rfl rfl
    exact h.after hread (h.endOfArchive _)
  | block block reader =>
    exact h.after (h.readBlock s) (h.processBlock (s.finished_readBlock.trans hf) block)

theorem Work.begin {s : Session} (hf : s.finished = false) : comes s s.begin := by
  have hreader (reader : Reader) : related s { s with reader } := h.beside rfl rfl
  have hpasses (reader : Reader) : related s { s with reader }.passThrough := h.beside rfl rfl
  have hreads := s.readsFirst_begin
  generalize s.begin = result at hreads
  cases hreads with
  | noHeader e reader => exact h.failed e (hreader reader)
  | noBlock header e reader reader' => exact h.failed e (hreader reader')
  | refused header e reader reader' s₁ _ _ hw =>
    have hwritten := h.trans (hpasses reader') (h.header _ header)
    rw [hw] at hwritten
    exact h.failed e hwritten
  | empty header reader reader' s₁ _ _ hw =>
    have hwritten := h.trans (hpasses reader') (h.header _ header)
    rw [hw] at hwritten
    exact h.after (h.trans hwritten (h.remarks s₁.remarks_warnEmpty rfl)) (h.finish _)
  | root header block reader reader' =>
    have hfinished := finished_readBlock { s with reader }
    have hread := h.trans (hreader reader) (h.readBlock { s with reader })
    exact h.after hread (h.processRoot (hfinished.trans hf) header block)

theorem Work.stop (s : Session) : comes s s.stop := by
  have hcounted : related s { s with started := true, stats := { s.stats with cancelled := true } } :=
    h.beside rfl rfl
  exact h.after hcounted (h.finish _)

end

end Session

end CarSlice
