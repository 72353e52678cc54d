import CarSlice.Proofs.Archive.Consumption
import CarSlice.Proofs.Session.ExactSelection
import CarSlice.Proofs.Session.Success

/-!
# Nested ranges of one archive

Two sessions read the same archive, and the range of the one, the inner, lies in that of the
other, the outer.  If neither fails, the outer session writes every block that the inner one
writes, and the inner one reads no further (`run_covers_run`).

* `Session.journal` is the row of blocks that a run handles: the first blocks of the archive, in
  their order (`journal_of_run`).  It says what the run has written (`WritesJournal`).
* `Selection.Alike` relates two selections of nested ranges at one place of a file.  Behind
  the next block they are still alike, unless the inner one is satisfied (`Alike.next`).
* `Abreast` relates two sessions that stand at one place of their archive.  `Together` is
  what their next steps come to (`Abreast.step`, `together_root`), and by induction on what
  is left to read the runs follow (`Abreast.run`).
-/

namespace CarSlice

open Archive (Block Header Reader ReaderOptions)
open UnixFs (Content)

/-! ## Ranges -/

/-- A range that is not empty lies in another. -/
structure Nested (start₁ stop₁ start₂ stop₂ : Nat) : Prop where
  start_le : start₂ ≤ start₁
  nonempty : start₁ < stop₁
  stop_le : stop₁ ≤ stop₂

section

variable {start₁ stop₁ start₂ stop₂ : Nat} (h : Nested start₁ stop₁ start₂ stop₂) {i : Interval}

include h

theorem Nested.isWanted (hi : i.isWanted start₁ = true) : i.isWanted start₂ = true := by
  have hstart := h.start_le
  simp only [Interval.isWanted, Bool.or_eq_true, decide_eq_true_eq] at hi ⊢
  rcases hi with (hinner | hbehind) | hholds
  · exact Or.inl (Or.inl hinner)
  · exact Or.inl (Or.inr (by omega))
  · exact Or.inr (by omega)

/-- A block that ends the outer range ends the inner one as well. -/
theorem Nested.endsRange (hi : i.endsRange start₂ stop₂ = true) :
    i.endsRange start₁ stop₁ = true := by
  have hnonempty := h.nonempty
  have hstop := h.stop_le
  simp only [Interval.endsRange, Bool.and_eq_true, Bool.or_eq_true, decide_eq_true_eq] at hi ⊢
  rcases hi with ⟨⟨hreached, -⟩, hcounts⟩
  exact ⟨⟨by omega, Or.inl (by omega)⟩, hcounts⟩

end

/-! ## Selections -/

namespace Selection

/-- Two selections at one place of a file: both pass everything through, or both still look
at it, each for its own range. -/
inductive Alike (start₁ stop₁ start₂ stop₂ cursor : Nat) (inner outer : Selection) : Prop where
  | passthrough (h₁ : inner.phase = .passthrough) (h₂ : outer.phase = .passthrough)
  | looking (hopen₁ : inner.phase.isOpen = true) (hopen₂ : outer.phase.isOpen = true)
      (htracks₁ : inner.Tracks start₁ stop₁ cursor) (htracks₂ : outer.Tracks start₂ stop₂ cursor)
      (hends : inner.endsWithFile = true → outer.endsWithFile = true)

/-- A range that ends with the file lies only in ranges that do. -/
theorem endsWithFile_of_nested {start₁ stop₁ start₂ stop₂ size : Nat}
    (hn : Nested start₁ stop₁ start₂ stop₂) (hsize : stop₂ ≤ size)
    (h : (ofRange start₁ stop₁ (some size)).endsWithFile = true) :
    (ofRange start₂ stop₂ (some size)).endsWithFile = true := by
  have hstop := hn.stop_le
  simp only [ofRange, beq_iff_eq, Option.some.injEq] at h ⊢
  omega

/-- What a selection is behind a block that may have completed the file. -/
def noted (s : Selection) (complete : Bool) : Selection :=
  if complete then s.fileComplete else s

theorem noted_of_passthrough {s : Selection} (h : s.phase = .passthrough) (complete : Bool) :
    s.noted complete = s := by
  cases complete <;> simp [noted, fileComplete, h]

theorem noted_of_complete {s : Selection} (h : s.phase ≠ .passthrough) :
    (s.noted true).phase = .satisfied := by
  simp [noted, fileComplete, h]

section

variable {start₁ stop₁ start₂ stop₂ : Nat}

theorem Alike.noted {cursor : Nat} {inner outer : Selection}
    (h : inner.phase = .satisfied ∨ Alike start₁ stop₁ start₂ stop₂ cursor inner outer)
    (complete : Bool) :
    (inner.noted complete).phase = .satisfied ∨
      Alike start₁ stop₁ start₂ stop₂ cursor (inner.noted complete) (outer.noted complete) := by
  cases complete with
  | false => exact h
  | true =>
    rcases h with hsatisfied | ⟨hpass₁, hpass₂⟩ | ⟨hopen₁⟩
    · exact Or.inl (noted_of_complete (by simp [hsatisfied]))
    · rw [noted_of_passthrough hpass₁, noted_of_passthrough hpass₂]
      exact Or.inr (.passthrough hpass₁ hpass₂)
    · refine Or.inl (noted_of_complete fun hpass => ?_)
      simp [hpass, Phase.isOpen] at hopen₁

/-- Two decisions on one block.  What the inner selection keeps the outer one keeps as well,
and where the inner range goes on, so does the outer one. -/
theorem Follows.alike (hn : Nested start₁ stop₁ start₂ stop₂) {inner outer : Selection}
    {decision₁ decision₂ : Decision} {inner' outer' : Selection} {i : Interval}
    (h₁ : inner.Follows decision₁ inner' start₁ stop₁ i)
    (h₂ : outer.Follows decision₂ outer' start₂ stop₂ i)
    (hends : inner.endsWithFile = true → outer.endsWithFile = true) :
    (decision₁ = .emit → decision₂ = .emit) ∧
      (inner'.phase = .satisfied ∨ Alike start₁ stop₁ start₂ stop₂ i.stop inner' outer') := by
  have hphase₁ := h₁.phase
  have hphase₂ := h₂.phase
  constructor
  · intro hemit
    have hwanted : i.isWanted start₁ = true := by
      by_contra hnot
      have hdrop := h₁.decision
      rw [hemit, if_neg hnot] at hdrop
      cases hdrop
    rw [h₂.decision, if_pos (hn.isWanted hwanted)]
  · by_cases hends₁ : inner.endsWithFile = false ∧ i.endsRange start₁ stop₁ = true
    · rw [if_pos hends₁] at hphase₁
      exact Or.inl hphase₁
    · have hends₂ : ¬(outer.endsWithFile = false ∧ i.endsRange start₂ stop₂ = true) := by
        rintro ⟨hfile, hreached⟩
        refine hends₁ ⟨?_, hn.endsRange hreached⟩
        by_contra hinner
        rw [hends (by simpa using hinner)] at hfile
        cases hfile
      rw [if_neg hends₁] at hphase₁
      rw [if_neg hends₂] at hphase₂
      refine Or.inr (.looking hphase₁ hphase₂ h₁.tracks h₂.tracks fun hfile => ?_)
      rw [h₂.endsWithFile]
      exact hends (h₁.endsWithFile ▸ hfile)

/-- Behind the next block two selections are still alike, unless the inner one is satisfied.
What the inner one keeps the outer one keeps as well. -/
theorem Alike.next (hn : Nested start₁ stop₁ start₂ stop₂) {l : Layout} (hl : l.Valid)
    (hstage : l.stage ≠ .complete) {inner outer : Selection} (hopen₁ : inner.phase.isOpen = true)
    (hopen₂ : outer.phase.isOpen = true) (htracks₁ : inner.Tracks start₁ stop₁ l.cursor)
    (htracks₂ : outer.Tracks start₂ stop₂ l.cursor)
    (hends : inner.endsWithFile = true → outer.endsWithFile = true) (c : Content) :
    ((inner.decide (l.place c).1).1 = .emit → (outer.decide (l.place c).1).1 = .emit) ∧
      (((inner.decide (l.place c).1).2.noted (l.place c).2.isComplete).phase = .satisfied ∨
        Alike start₁ stop₁ start₂ stop₂ (l.place c).2.cursor
          ((inner.decide (l.place c).1).2.noted (l.place c).2.isComplete)
          ((outer.decide (l.place c).1).2.noted (l.place c).2.isComplete)) := by
  rcases decide_place hl hstage htracks₁ hopen₁ c with
    ⟨hnone, -, -, hpass₁⟩ | ⟨hsome, -, hfollows₁⟩
  · rcases decide_place hl hstage htracks₂ hopen₂ c with
      ⟨-, -, hemit₂, hpass₂⟩ | ⟨hsome, -⟩
    · exact ⟨fun _ => hemit₂, Alike.noted (Or.inr (.passthrough hpass₁ hpass₂)) _⟩
    · rw [hnone] at hsome
      cases hsome
  · rcases decide_place hl hstage htracks₂ hopen₂ c with ⟨hnone, -⟩ | ⟨-, -, hfollows₂⟩
    · rw [hnone] at hsome
      cases hsome
    · obtain ⟨slots, hslots⟩ := Option.isSome_iff_exists.1 hsome
      obtain ⟨frames, -, -, htaken⟩ := Layout.place_taken hl hslots
      have hcursor : (l.place c).2.cursor = (l.span c).stop := by
        rw [htaken]
        rfl
      obtain ⟨hkeeps, halike⟩ := hfollows₁.alike hn hfollows₂ hends
      rw [hcursor]
      exact ⟨hkeeps, Alike.noted halike _⟩

end

end Selection

namespace Session

/-! ## The journal of a run -/

/-- The blocks that a run handles. -/
def journal (s : Session) : List Handled :=
  match _h : s.step with
  | (.ok true, s') => s.handled ++ s'.journal
  | _ => s.handled
termination_by s.remaining
decreasing_by exact remaining_lt_of_step _h

theorem journal_of_step {s : Session} {more : Bool} (h : s.step.1 = .ok more) :
    s.journal = s.handled ++ if more then s.step.2.journal else [] := by
  rw [journal]
  split
  · next s' hs =>
    rw [hs] at h
    cases h
    rw [hs]
    rfl
  · next hnot =>
    cases more with
    | true => exact (hnot s.step.2 (Prod.ext h rfl)).elim
    | false => simp

theorem step_of_run {s : Session} (h : s.run.1 = .ok ()) : ∃ more, s.step.1 = .ok more := by
  cases hstep : s.step.1 with
  | ok more => exact ⟨more, rfl⟩
  | error e =>
    rw [run] at h
    split at h
    · cases h
    · next hs =>
      rw [hs] at hstep
      cases hstep
    · next hs =>
      rw [hs] at hstep
      cases hstep

/-- A run is a row of steps, and its journal is that of the row. -/
theorem exists_perform_eq_run (s : Session) :
    ∃ n, s.perform (List.replicate n (.call .step)) = (s.journal, s.run.2) := by
  fun_induction run s with
  | case1 s e s' h =>
    refine ⟨1, ?_⟩
    rw [journal]
    simp [List.replicate, perform, operate, call, h]
  | case2 s s' h =>
    refine ⟨1, ?_⟩
    rw [@journal_of_step s false (by rw [h])]
    simp [List.replicate, perform, operate, call, h]
  | case3 s s' h ih =>
    rcases ih with ⟨n, hn⟩
    refine ⟨n + 1, ?_⟩
    rw [@journal_of_step s true (by rw [h]), List.replicate_succ, perform]
    simp [operate, call, h, hn]

/-- The sink has what the journal of the run says: the header, if the run came to it, and
behind it the blocks that were written. -/
def WritesJournal (s : Session) : Prop :=
  ∃ front : List Bytes, front.length ≤ 1 ∧
    s.run.2.sink.writes = s.sink.writes ++ front ++ framesOf s.journal

theorem writesJournal_new (source : Source) (sink : Sink) (request : ByteRange)
    (options : ReaderOptions) (retains : Bool) :
    (new source sink request options retains).WritesJournal := by
  obtain ⟨n, hn⟩ := (new source sink request options retains).exists_perform_eq_run
  have h := (sound_new source sink request options retains).perform
    (initial_new source sink request options retains) (List.replicate n (.call .step))
  rw [hn] at h
  exact h.counted.taken

/-! ## What a block makes of the selection -/

theorem View.selection_noted (v : View) :
    v.noteComplete.selection = v.selection.map (·.noted v.layout.isComplete) := by
  cases hcomplete : v.layout.isComplete with
  | true => simp [View.noteComplete, hcomplete, Selection.noted]
  | false =>
    cases hselection : v.selection <;>
      simp [View.noteComplete, hcomplete, hselection, Selection.noted]

section

variable {v v' : View} {block : Block} {p : Option Placement} {fate : Fate}
  (h : v.Turn block p fate v') (hfate : fate ≠ .failed) {selection : Selection}
  (hselection : v.selection = some selection)

include h hfate hselection

theorem View.Turn.of_passthrough (hphase : selection.phase = .passthrough) :
    fate = .written ∧ v'.layout = v.layout ∧ v'.selection = some selection := by
  have hnot : selection.phase.isOpen ≠ true := by
    simp [hphase, Phase.isOpen]
  cases h with
  | kept selection' _ _ hselection' hopen =>
    obtain rfl : selection = selection' := Option.some.inj (hselection.symm.trans hselection')
    exact absurd hopen hnot
  | dropped selection' hselection' hopen =>
    obtain rfl : selection = selection' := Option.some.inj (hselection.symm.trans hselection')
    exact absurd hopen hnot
  | passed _ _ _ hemits =>
    obtain ⟨rfl, rfl⟩ := hemits.of_not_failed hfate
    refine ⟨rfl, rfl, ?_⟩
    rw [View.selection_noted]
    show v.selection.map _ = _
    rw [hselection, Option.map_some, Selection.noted_of_passthrough hphase]

theorem View.Turn.of_open (hopen : selection.phase.isOpen = true) :
    (fate = .written ↔ (selection.decide (v.layout.place (.ofBlock block)).1).1 = .emit) ∧
      v'.layout = (v.layout.place (.ofBlock block)).2 ∧
      v'.selection = some ((selection.decide (v.layout.place (.ofBlock block)).1).2.noted
        (v.layout.place (.ofBlock block)).2.isComplete) := by
  cases h with
  | passed _ _ hphase =>
    rw [View.phase, hselection] at hphase
    have hphase : selection.phase = .passthrough := hphase
    simp [hphase, Phase.isOpen] at hopen
  | kept selection' _ _ hselection' _ _ hkept hemits =>
    obtain rfl : selection = selection' := Option.some.inj (hselection.symm.trans hselection')
    obtain ⟨rfl, rfl⟩ := hemits.of_not_failed hfate
    exact ⟨by simp [hkept], rfl, View.selection_noted _⟩
  | dropped selection' hselection' _ _ hdropped =>
    obtain rfl : selection = selection' := Option.some.inj (hselection.symm.trans hselection')
    exact ⟨by simp [hdropped], rfl, View.selection_noted _⟩

end

/-! ## Sessions that go on -/

/-- A session behind its root that goes on and was not cancelled. -/
structure Underway (s : Session) : Prop where
  goesOn : s.finished = false
  uncancelled : s.cancelRequested = false
  ready : s.view.Ready
  silent : s.stats.cancelled = false
  layout : s.layout.Valid
  known : s.reader.header.isSome = true

theorem View.Turn.layout_valid {v v' : View} {block : Block} {p : Option Placement} {fate : Fate}
    (h : v.Turn block p fate v') (hlayout : v.layout.Valid) : v'.layout.Valid := by
  have hplaced := hlayout.place (.ofBlock block)
  cases h with
  | passed _ _ _ hemits => cases hemits <;> exact hlayout
  | kept _ _ _ _ _ _ _ hemits => cases hemits <;> exact hplaced
  | dropped => exact hplaced

theorem View.Turn.resolvedEnd {v v' : View} {block : Block} {p : Option Placement} {fate : Fate}
    (h : v.Turn block p fate v') : v'.resolvedEnd = v.resolvedEnd := by
  cases h with
  | passed _ _ _ hemits => cases hemits <;> rfl
  | kept _ _ _ _ _ _ _ hemits => cases hemits <;> rfl
  | dropped => rfl

theorem more_of_step {s : Session} (hf : s.finished = false) (hc : s.cancelRequested = false)
    {more : Bool} (h : s.step.1 = .ok more) : more = !s.step.2.finished := by
  have hconcluded (result : Except Error Unit × Session) (hstep : s.step = concluded result) :
      more = !s.step.2.finished := by
    rw [hstep] at h ⊢
    rcases result with ⟨⟨e⟩ | ⟨⟩, s'⟩
    · cases h
    · exact (Except.ok.inj h).symm
  cases hs : s.started with
  | true => exact hconcluded _ (step_of_started hf hc hs)
  | false => exact hconcluded _ (step_of_not_started hf hc hs)

/-- What a run behind the root does: it never goes back in the source, it leaves the end of the
range alone, and it handles what is left of the archive block by block. -/
structure Proceeds (s : Session) (entries : List Handled) (s' : Session) : Prop where
  position : s.source.position ≤ s'.source.position
  resolvedEnd : s'.resolvedEnd = s.resolvedEnd
  blocks : entries.map (·.block) <+: s.reader.blocks

section

variable {s : Session} (h : s.Underway)

include h

theorem Underway.advances {more : Bool} (hok : s.step.1 = .ok more) :
    s.Advances s.handled s.step.2 :=
  step_advances h.goesOn h.uncancelled h.ready h.silent (by rw [hok]; rfl)

theorem Underway.next {s' : Session} {block : Block} {p : Option Placement} {fate : Fate}
    {reader : Reader} (hnext : s.reader.next = (.ok (some block), reader))
    (hturn : s.view.Turn block p fate s'.view) (hfate : fate ≠ .failed)
    (hsettled : s.Settled reader s') (hf : s'.finished = false) : s'.Underway where
  goesOn := hf
  uncancelled := hturn.keeps.cancelRequested.trans h.uncancelled
  ready := hturn.ready h.layout h.ready hfate (hsettled.not_satisfied hf)
  silent := (congrArg Ending.cancelled hsettled.ending).trans h.silent
  layout := hturn.layout_valid h.layout
  known := by
    have hpassed := Reader.passed_of_next_some h.known hnext
    rw [hsettled.toHandles.standsAt.header, hpassed.header]
    exact h.known

theorem Underway.step {more : Bool} (hmore : s.step.1 = .ok more) :
    s.Proceeds s.handled s.step.2 ∧ (s.step.2.finished = false → s.step.2.Underway ∧
      s.reader.blocks = s.handled.map (·.block) ++ s.step.2.reader.blocks) := by
  have hadvances := h.advances hmore
  generalize s.handled = entries at hadvances ⊢
  generalize s.step.2 = s' at hadvances ⊢
  cases hadvances with
  | block block fate reader _ hnext hturn hfate hsettled =>
    have hposition := (Reader.passed_of_next_some h.known hnext).source.position
    have hblocks := Reader.blocks_of_next hnext
    refine ⟨⟨?_, hturn.resolvedEnd, ?_⟩, fun hf => ?_⟩
    · rw [hsettled.toHandles.standsAt.position, hposition]
      exact Nat.le_add_right _ _
    · rw [hblocks]
      exact List.prefix_append [block] reader.blocks
    · refine ⟨h.next hnext hturn hfate hsettled hf, ?_⟩
      rw [hblocks, hsettled.reader_eq hf]
      rfl
  | exhausted reader _ hnext hview hexhausted =>
    obtain ⟨marker, -, hpassed⟩ := Reader.passed_of_next_none h.known hnext
    refine ⟨⟨?_, congrArg View.resolvedEnd hview, List.nil_prefix⟩, fun hf => ?_⟩
    · rw [(standsAt_of_eq hexhausted.reader).position, hpassed.source.position]
      exact Nat.le_add_right _ _
    · rw [hexhausted.finished] at hf
      cases hf

theorem Underway.run (hok : s.run.1 = .ok ()) : s.Proceeds s.journal s.run.2 := by
  induction hn : s.remaining using Nat.strongRecOn generalizing s with
  | ind n ih =>
    obtain ⟨more, hmore⟩ := step_of_run hok
    have hends := more_of_step h.goesOn h.uncancelled hmore
    have hrun := run_of_step hmore
    have hjournal := journal_of_step hmore
    obtain ⟨hstep, hgoes⟩ := h.step hmore
    cases more with
    | false =>
      rw [if_neg Bool.false_ne_true] at hrun hjournal
      rw [hrun, hjournal, List.append_nil]
      exact hstep
    | true =>
      rw [if_pos rfl] at hrun hjournal
      obtain ⟨hunderway, hblocks⟩ := hgoes (by simpa using hends.symm)
      have hless : s.step.2.remaining < n := hn ▸ remaining_lt_of_step (Prod.ext hmore rfl)
      have hrest := ih _ hless hunderway (hrun ▸ hok) rfl
      rw [hrun, hjournal]
      refine ⟨Nat.le_trans hstep.position hrest.position,
        hrest.resolvedEnd.trans hstep.resolvedEnd, ?_⟩
      rw [List.map_append, hblocks]
      exact (List.prefix_append_right_inj _).2 hrest.blocks

end

/-! ## Two sessions -/

/-- Two sessions have handled the same block, and the second one has written it if the first
one has. -/
structure Covered (e₁ e₂ : Handled) : Prop where
  block : e₂.block = e₁.block
  written : e₁.fate = .written → e₂.fate = .written

/-- Two sessions that go on at one place of their archive. -/
structure Abreast (start₁ stop₁ start₂ stop₂ : Nat) (s₁ s₂ : Session) : Prop where
  inner : s₁.Underway
  outer : s₂.Underway
  reader : s₁.reader = s₂.reader
  layout : s₁.layout = s₂.layout
  selections : ∃ selection₁ selection₂, s₁.selection = some selection₁ ∧
    s₂.selection = some selection₂ ∧
    Selection.Alike start₁ stop₁ start₂ stop₂ s₁.layout.cursor selection₁ selection₂

/-- What the next steps of two sessions come to: they handle the same block, and the inner
session has ended, or both go on. -/
structure Together (start₁ stop₁ start₂ stop₂ : Nat) (entries₁ : List Handled) (s₁ : Session)
    (entries₂ : List Handled) (s₂ : Session) : Prop where
  handled : List.Forall₂ Covered entries₁ entries₂
  position : s₁.source.position = s₂.source.position
  goesOn : s₁.finished = true ∧ (s₂.finished = false → s₂.Underway) ∨
    Abreast start₁ stop₁ start₂ stop₂ s₁ s₂

section

variable {start₁ stop₁ start₂ stop₂ : Nat} {inner outer : Session}

theorem together_settled {e₁ e₂ : Handled} (hcovered : Covered e₁ e₂) {reader : Reader}
    (h₁ : inner.Handles reader) (h₂ : outer.Handles reader)
    (hgoes₁ : inner.finished = false → inner.Underway)
    (hgoes₂ : outer.finished = false → outer.Underway) (hlayout : inner.layout = outer.layout)
    {selection₁ selection₂ : Selection} (hselection₁ : inner.selection = some selection₁)
    (hselection₂ : outer.selection = some selection₂)
    (hends : selection₁.phase = .satisfied ∨
      Selection.Alike start₁ stop₁ start₂ stop₂ inner.layout.cursor selection₁ selection₂) :
    Together start₁ stop₁ start₂ stop₂ [e₁] inner [e₂] outer := by
  refine ⟨.cons hcovered .nil, h₁.standsAt.position.trans h₂.standsAt.position.symm, ?_⟩
  have hphase₁ : inner.view.phase = selection₁.phase := by
    rw [View.phase, show inner.view.selection = _ from hselection₁]
  have hphase₂ : outer.view.phase = selection₂.phase := by
    rw [View.phase, show outer.view.selection = _ from hselection₂]
  rcases hends with hsatisfied | halike
  · left
    refine ⟨?_, hgoes₂⟩
    rw [h₁.finished, hphase₁, hsatisfied]
    rfl
  · right
    have hnot : inner.view.phase ≠ .satisfied ∧ outer.view.phase ≠ .satisfied := by
      rw [hphase₁, hphase₂]
      cases halike with
      | passthrough hpass₁ hpass₂ => simp [hpass₁, hpass₂]
      | looking hopen₁ hopen₂ =>
        constructor
        · intro hsatisfied
          simp [hsatisfied, Phase.isOpen] at hopen₁
        · intro hsatisfied
          simp [hsatisfied, Phase.isOpen] at hopen₂
    have hf₁ : inner.finished = false := by
      rw [h₁.finished]
      simpa using hnot.1
    have hf₂ : outer.finished = false := by
      rw [h₂.finished]
      simpa using hnot.2
    refine ⟨hgoes₁ hf₁, hgoes₂ hf₂, ?_, hlayout, selection₁, selection₂, hselection₁, hselection₂,
      halike⟩
    rw [h₁.reader_eq hf₁, h₂.reader_eq hf₂]

/-- Two sessions at one place of their archive place the next block alike. -/
theorem Abreast.turn (hn : Nested start₁ stop₁ start₂ stop₂)
    (h : Abreast start₁ stop₁ start₂ stop₂ inner outer) {inner' outer' : Session} {block : Block}
    {p₁ p₂ : Option Placement} {fate₁ fate₂ : Fate} {reader : Reader}
    (hturn₁ : inner.view.Turn block p₁ fate₁ inner'.view)
    (hturn₂ : outer.view.Turn block p₂ fate₂ outer'.view) (hfate₁ : fate₁ ≠ .failed)
    (hfate₂ : fate₂ ≠ .failed) (h₁ : inner'.Handles reader) (h₂ : outer'.Handles reader)
    (hgoes₁ : inner'.finished = false → inner'.Underway)
    (hgoes₂ : outer'.finished = false → outer'.Underway) :
    Together start₁ stop₁ start₂ stop₂ [⟨block, p₁, fate₁⟩] inner' [⟨block, p₂, fate₂⟩] outer' := by
  rcases h.selections with ⟨selection₁, selection₂, hselection₁, hselection₂, halike⟩
  cases halike with
  | passthrough hpass₁ hpass₂ =>
    obtain ⟨-, hlayout₁, hafter₁⟩ := hturn₁.of_passthrough hfate₁ hselection₁ hpass₁
    obtain ⟨hwritten, hlayout₂, hafter₂⟩ := hturn₂.of_passthrough hfate₂ hselection₂ hpass₂
    have hlayout : inner'.layout = outer'.layout :=
      hlayout₁.trans (h.layout.trans hlayout₂.symm)
    exact together_settled ⟨rfl, fun _ => hwritten⟩ h₁ h₂ hgoes₁ hgoes₂ hlayout hafter₁ hafter₂
      (Or.inr (.passthrough hpass₁ hpass₂))
  | looking hopen₁ hopen₂ htracks₁ htracks₂ hends =>
    have hstage : inner.layout.stage ≠ .complete := by
      rcases h.inner.ready.selection with ⟨selection, hselection, hpass | ⟨-, hunderway⟩⟩
      · obtain rfl : selection₁ = selection :=
          Option.some.inj (hselection₁.symm.trans hselection)
        simp [hpass, Phase.isOpen] at hopen₁
      · have hunderway : inner.layout.stage = .underway := hunderway
        simp [hunderway]
    obtain ⟨hkept₁, hlayout₁, hafter₁⟩ := hturn₁.of_open hfate₁ hselection₁ hopen₁
    obtain ⟨hkept₂, hlayout₂, hafter₂⟩ := hturn₂.of_open hfate₂ hselection₂ hopen₂
    have hview : inner.view.layout = outer.view.layout := h.layout
    rw [← hview] at hkept₂ hlayout₂ hafter₂
    obtain ⟨hkeeps, hnext⟩ := Selection.Alike.next hn h.inner.layout hstage hopen₁ hopen₂
      htracks₁ htracks₂ hends (.ofBlock block)
    have hcursor : inner'.layout.cursor = (inner.layout.place (.ofBlock block)).2.cursor :=
      congrArg Layout.cursor hlayout₁
    rw [← hcursor] at hnext
    exact together_settled ⟨rfl, fun hwritten => hkept₂.2 (hkeeps (hkept₁.1 hwritten))⟩ h₁ h₂
      hgoes₁ hgoes₂ (hlayout₁.trans hlayout₂.symm) hafter₁ hafter₂ hnext

/-- Where two sessions stand at one place, their next steps read the same block, or come to the
end of the archive. -/
theorem Abreast.step (hn : Nested start₁ stop₁ start₂ stop₂)
    (h : Abreast start₁ stop₁ start₂ stop₂ inner outer) {entries₁ entries₂ : List Handled}
    {inner' outer' : Session} (hinner : inner.Advances entries₁ inner')
    (houter : outer.Advances entries₂ outer') :
    Together start₁ stop₁ start₂ stop₂ entries₁ inner' entries₂ outer' := by
  have hreader := h.reader
  cases hinner with
  | exhausted reader₁ _ hnext₁ _ hexhausted₁ =>
    cases houter with
    | block _ _ _ _ hnext₂ =>
      rw [hreader, hnext₂] at hnext₁
      cases hnext₁
    | exhausted reader₂ _ hnext₂ _ hexhausted₂ =>
      rw [hreader, hnext₂] at hnext₁
      obtain rfl := (Prod.mk.inj hnext₁).2
      refine ⟨.nil, ?_, Or.inl ⟨hexhausted₁.finished, fun hf => ?_⟩⟩
      · exact congrArg (·.source.position) (hexhausted₁.reader.trans hexhausted₂.reader.symm)
      · rw [hexhausted₂.finished] at hf
        cases hf
  | block block₁ fate₁ reader₁ _ hnext₁ hturn₁ hfate₁ hsettled₁ =>
    cases houter with
    | exhausted _ _ hnext₂ =>
      rw [hreader, hnext₂] at hnext₁
      cases hnext₁
    | block block₂ fate₂ reader₂ _ hnext₂ hturn₂ hfate₂ hsettled₂ =>
      have hsame := hnext₁
      rw [hreader, hnext₂] at hsame
      obtain ⟨hblock, hplace⟩ := Prod.mk.inj hsame
      obtain rfl : block₂ = block₁ := Option.some.inj (Except.ok.inj hblock)
      obtain rfl : reader₂ = reader₁ := hplace
      exact h.turn hn hturn₁ hturn₂ hfate₁ hfate₂ hsettled₁.toHandles hsettled₂.toHandles
        (h.inner.next hnext₁ hturn₁ hfate₁ hsettled₁)
        (h.outer.next hnext₂ hturn₂ hfate₂ hsettled₂)

end

/-! ## The root -/

section

variable {v v' : View} {header : Header} {block : Block} {fate : Fate}
  (h : v.RootTurn header block fate v') (hfate : fate ≠ .failed)

include h hfate

theorem View.RootTurn.of_mismatch
    (hmismatch : ∃ offset reason, (v.placeRoot header block).1 = .mismatch offset reason) :
    fate = .written ∧ v'.layout = (v.placeRoot header block).2 ∧
      ∃ selection, selection.phase = .passthrough ∧ v'.selection = some selection := by
  obtain ⟨w, hw, rfl, rfl⟩ := h.of_not_failed hfate
  cases hw with
  | selected _ hnot =>
    rcases hmismatch with ⟨offset, reason, hmismatch⟩
    exact absurd hmismatch (hnot offset reason)
  | passed selection _ hpass =>
    refine ⟨rfl, rfl, selection, hpass, ?_⟩
    rw [View.selection_noted]
    show some (selection.noted _) = _
    rw [Selection.noted_of_passthrough hpass]

theorem View.RootTurn.of_placed
    (hnot : ∀ offset reason, (v.placeRoot header block).1 ≠ .mismatch offset reason) :
    let placed := v.layout.place (.ofBlock block)
    fate = .written ∧ v'.layout = placed.2 ∧ ∃ stop, v'.resolvedEnd = some stop ∧
      stop ≤ placed.2.fileSize.getD 0 ∧
      v'.selection = some
        (((Selection.ofRange v.request.start stop (some (placed.2.fileSize.getD 0))).decide
          placed.1).2.noted placed.2.isComplete) := by
  have hplaced := View.placeRoot_of_not_mismatch hnot
  obtain ⟨w, hw, rfl, rfl⟩ := h.of_not_failed hfate
  cases hw with
  | passed _ hmismatch =>
    rcases hmismatch with ⟨offset, reason, hmismatch⟩
    exact absurd hmismatch (hnot offset reason)
  | selected stop _ hstop =>
    rw [hplaced] at hstop
    refine ⟨rfl, congrArg Prod.snd hplaced, stop, rfl, (ByteRange.resolve_le hstop).2, ?_⟩
    rw [View.selection_noted, ← hplaced]
    rfl

end

/-- A session that goes on behind its root. -/
theorem Begins.underway {source : Source} {sink : Sink} {request : ByteRange}
    {options : ReaderOptions} {retains : Bool} {entries : List Handled} {s' : Session}
    (h : (new source sink request options retains).Begins entries s')
    (hf : s'.finished = false) : s'.Underway := by
  have hvalid := Layout.valid_new retains
  cases h with
  | empty _ _ _ _ _ _ _ _ _ hexhausted =>
    rw [hexhausted.finished] at hf
    cases hf
  | root header block fate reader reader' _ hread hnext hturn hfate hsettled =>
    have hknown := Reader.isSome_of_readHeader hread
    have hpassed := Reader.passed_of_next_some hknown hnext
    refine ⟨hf, hturn.keeps.cancelRequested, ?_, congrArg Ending.cancelled hsettled.ending,
      (placed_rootTurn hvalid rfl rfl hturn).layout, ?_⟩
    · exact hturn.ready hvalid rfl rfl hfate (hsettled.not_satisfied hf)
    · rw [hsettled.toHandles.standsAt.header, hpassed.header]
      exact hknown

section

variable {inner outer : Session} {header : Header} {block : Block} {retains : Bool}

/-- Two sessions place the same root alike, and select from there for their own ranges. -/
theorem together_rootTurn {v₁ v₂ : View} (hfresh₁ : v₁.layout = Layout.new retains)
    (hfresh₂ : v₂.layout = Layout.new retains) {fate₁ fate₂ : Fate}
    (hturn₁ : v₁.RootTurn header block fate₁ inner.view)
    (hturn₂ : v₂.RootTurn header block fate₂ outer.view) (hfate₁ : fate₁ ≠ .failed)
    (hfate₂ : fate₂ ≠ .failed) {reader : Reader} (h₁ : inner.Handles reader)
    (h₂ : outer.Handles reader) (hgoes₁ : inner.finished = false → inner.Underway)
    (hgoes₂ : outer.finished = false → outer.Underway)
    (hnested : ∀ stop₁ ∈ inner.resolvedEnd, ∀ stop₂ ∈ outer.resolvedEnd,
      Nested v₁.request.start stop₁ v₂.request.start stop₂) (p₁ p₂ : Option Placement) :
    ∃ start₁ stop₁ start₂ stop₂, Nested start₁ stop₁ start₂ stop₂ ∧
      Together start₁ stop₁ start₂ stop₂ [⟨block, p₁, fate₁⟩] inner [⟨block, p₂, fate₂⟩] outer := by
  have hsame : v₁.placeRoot header block = v₂.placeRoot header block := by
    rw [View.placeRoot, View.placeRoot, hfresh₁, hfresh₂]
  by_cases hmismatch : ∃ offset reason, (v₁.placeRoot header block).1 = .mismatch offset reason
  · obtain ⟨-, hlayout₁, selection₁, hpass₁, hafter₁⟩ := hturn₁.of_mismatch hfate₁ hmismatch
    rw [hsame] at hlayout₁ hmismatch
    obtain ⟨hwritten, hlayout₂, selection₂, hpass₂, hafter₂⟩ :=
      hturn₂.of_mismatch hfate₂ hmismatch
    -- Whatever is passed through is passed through for any two ranges.
    refine ⟨0, 1, 0, 1, ⟨Nat.le_refl _, Nat.zero_lt_one, Nat.le_refl _⟩, ?_⟩
    exact together_settled ⟨rfl, fun _ => hwritten⟩ h₁ h₂ hgoes₁ hgoes₂
      (hlayout₁.trans hlayout₂.symm) hafter₁ hafter₂ (Or.inr (.passthrough hpass₁ hpass₂))
  · have hnot := not_exists.1 hmismatch
    simp only [not_exists] at hnot
    obtain ⟨-, hlayout₁, stop₁, hstop₁, -, hafter₁⟩ := hturn₁.of_placed hfate₁ hnot
    rw [hsame] at hnot
    obtain ⟨hwritten, hlayout₂, stop₂, hstop₂, hle₂, hafter₂⟩ := hturn₂.of_placed hfate₂ hnot
    rw [hfresh₁] at hlayout₁ hafter₁
    rw [hfresh₂] at hlayout₂ hafter₂ hle₂
    have hn := hnested stop₁ hstop₁ stop₂ hstop₂
    have hnext := (Selection.Alike.next hn (Layout.valid_new retains) (by simp) rfl rfl
      (Selection.tracks_ofRange v₁.request.start stop₁ _)
      (Selection.tracks_ofRange v₂.request.start stop₂ _)
      (Selection.endsWithFile_of_nested hn hle₂) (.ofBlock block)).2
    have hcursor : inner.layout.cursor =
        ((Layout.new retains).place (.ofBlock block)).2.cursor :=
      congrArg Layout.cursor hlayout₁
    rw [← hcursor] at hnext
    exact ⟨v₁.request.start, stop₁, v₂.request.start, stop₂, hn,
      together_settled ⟨rfl, fun _ => hwritten⟩ h₁ h₂ hgoes₁ hgoes₂
        (hlayout₁.trans hlayout₂.symm) hafter₁ hafter₂ hnext⟩

/-- Two sessions at the beginning of one archive handle the same root, or find none. -/
theorem together_root {source : Source} {sink₁ sink₂ : Sink} {request₁ request₂ : ByteRange}
    {options : ReaderOptions} {entries₁ entries₂ : List Handled}
    (hinner : (new source sink₁ request₁ options retains).Begins entries₁ inner)
    (houter : (new source sink₂ request₂ options retains).Begins entries₂ outer)
    (hnested : ∀ stop₁ ∈ inner.resolvedEnd, ∀ stop₂ ∈ outer.resolvedEnd,
      Nested request₁.start stop₁ request₂.start stop₂) :
    ∃ start₁ stop₁ start₂ stop₂, Nested start₁ stop₁ start₂ stop₂ ∧
      Together start₁ stop₁ start₂ stop₂ entries₁ inner entries₂ outer := by
  have hgoes₁ := hinner.underway
  have hgoes₂ := houter.underway
  cases hinner with
  | empty header₁ _ reader₁ reader₁' _ hread₁ hnext₁ _ _ hexhausted₁ =>
    cases houter with
    | root _ _ _ _ _ _ hread₂ hnext₂ =>
      obtain ⟨-, rfl⟩ := Prod.mk.inj (hread₁.symm.trans hread₂)
      rw [hnext₂] at hnext₁
      cases hnext₁
    | empty header₂ _ reader₂ reader₂' _ hread₂ hnext₂ _ _ hexhausted₂ =>
      obtain ⟨-, rfl⟩ := Prod.mk.inj (hread₁.symm.trans hread₂)
      obtain ⟨-, rfl⟩ := Prod.mk.inj (hnext₁.symm.trans hnext₂)
      refine ⟨0, 1, 0, 1, ⟨Nat.le_refl _, Nat.zero_lt_one, Nat.le_refl _⟩, .nil, ?_,
        Or.inl ⟨hexhausted₁.finished, hgoes₂⟩⟩
      exact congrArg (·.source.position) (hexhausted₁.reader.trans hexhausted₂.reader.symm)
  | root header₁ block₁ fate₁ reader₁ reader₁' _ hread₁ hnext₁ hturn₁ hfate₁ hsettled₁ =>
    cases houter with
    | empty _ _ _ _ _ hread₂ hnext₂ =>
      obtain ⟨-, rfl⟩ := Prod.mk.inj (hread₁.symm.trans hread₂)
      rw [hnext₂] at hnext₁
      cases hnext₁
    | root header₂ block₂ fate₂ reader₂ reader₂' _ hread₂ hnext₂ hturn₂ hfate₂ hsettled₂ =>
      obtain ⟨hheader, rfl⟩ := Prod.mk.inj (hread₁.symm.trans hread₂)
      obtain rfl : header₁ = header₂ := Except.ok.inj hheader
      obtain ⟨hblock, rfl⟩ := Prod.mk.inj (hnext₁.symm.trans hnext₂)
      obtain rfl : block₁ = block₂ := Option.some.inj (Except.ok.inj hblock)
      exact together_rootTurn rfl rfl hturn₁ hturn₂ hfate₁ hfate₂ hsettled₁.toHandles
        hsettled₂.toHandles hgoes₁ hgoes₂ hnested _ _

end

/-! ## Two runs -/

/-- A run lies in another one: it reads no further, and the other one begins with the same
blocks and writes every one of them that it writes. -/
structure Within (inner outer : Session) : Prop where
  position : inner.run.2.source.position ≤ outer.run.2.source.position
  blocks : ∃ front rest, outer.journal = front ++ rest ∧
    List.Forall₂ Covered inner.journal front

section

variable {start₁ stop₁ start₂ stop₂ : Nat} {inner outer : Session}

/-- Runs whose first steps came to the same place lie in each other, if those of the rest do. -/
theorem Together.within
    (h : Together start₁ stop₁ start₂ stop₂ inner.handled inner.step.2 outer.handled outer.step.2)
    {more₁ more₂ : Bool} (hmore₁ : inner.step.1 = .ok more₁) (hmore₂ : outer.step.1 = .ok more₂)
    (hends₁ : more₁ = !inner.step.2.finished) (hends₂ : more₂ = !outer.step.2.finished)
    (houter : outer.run.1 = .ok ())
    (hrest : Abreast start₁ stop₁ start₂ stop₂ inner.step.2 outer.step.2 →
      inner.run = inner.step.2.run → outer.run = outer.step.2.run →
      inner.step.2.Within outer.step.2) : inner.Within outer := by
  have hrun₁ := run_of_step hmore₁
  have hrun₂ := run_of_step hmore₂
  have hjournal₁ := journal_of_step hmore₁
  have hjournal₂ := journal_of_step hmore₂
  rcases h.goesOn with ⟨hfinished, hgoes⟩ | habreast
  · -- The inner run has ended, and the outer one never goes back.
    obtain rfl : more₁ = false := by rw [hends₁, hfinished]; rfl
    refine ⟨?_, outer.handled, if more₂ then outer.step.2.journal else [], hjournal₂, ?_⟩
    · rw [hrun₁]
      refine Nat.le_trans h.position.le ?_
      cases more₂ with
      | false => rw [hrun₂]; rfl
      | true =>
        rw [if_pos rfl] at hrun₂
        rw [hrun₂] at houter ⊢
        exact ((hgoes (by simpa using hends₂.symm)).run houter).position
    · rw [hjournal₁, if_neg Bool.false_ne_true, List.append_nil]
      exact h.handled
  · obtain rfl : more₁ = true := by rw [hends₁, habreast.inner.goesOn]; rfl
    obtain rfl : more₂ = true := by rw [hends₂, habreast.outer.goesOn]; rfl
    rw [if_pos rfl] at hrun₁ hrun₂ hjournal₁ hjournal₂
    obtain ⟨hposition, front, rest, hfront, hcovered⟩ := hrest habreast hrun₁ hrun₂
    refine ⟨by rw [hrun₁, hrun₂]; exact hposition, outer.handled ++ front, rest, ?_, ?_⟩
    · rw [hjournal₂, hfront, List.append_assoc]
    · rw [hjournal₁]
      exact List.rel_append h.handled hcovered

/-- From one place of the archive the inner run lies in the outer one. -/
theorem Abreast.run (hn : Nested start₁ stop₁ start₂ stop₂)
    (h : Abreast start₁ stop₁ start₂ stop₂ inner outer) (hinner : inner.run.1 = .ok ())
    (houter : outer.run.1 = .ok ()) : inner.Within outer := by
  induction hremaining : inner.remaining using Nat.strongRecOn generalizing inner outer with
  | ind n ih =>
    obtain ⟨more₁, hmore₁⟩ := step_of_run hinner
    obtain ⟨more₂, hmore₂⟩ := step_of_run houter
    have hends₁ := more_of_step h.inner.goesOn h.inner.uncancelled hmore₁
    have hends₂ := more_of_step h.outer.goesOn h.outer.uncancelled hmore₂
    have htogether := h.step hn (h.inner.advances hmore₁) (h.outer.advances hmore₂)
    refine htogether.within hmore₁ hmore₂ hends₁ hends₂ houter fun habreast hrun₁ hrun₂ => ?_
    have hgoes : more₁ = true := by rw [hends₁, habreast.inner.goesOn]; rfl
    have hless : inner.step.2.remaining < n :=
      hremaining ▸ remaining_lt_of_step (Prod.ext (hgoes ▸ hmore₁) rfl)
    exact ih _ hless habreast (hrun₁ ▸ hinner) (hrun₂ ▸ houter) rfl

end

/-- A session that has begun has handled the first block of its archive, if there is one. -/
theorem Begins.blocks {source : Source} {sink : Sink} {request : ByteRange}
    {options : ReaderOptions} {retains : Bool} {entries : List Handled} {s' : Session}
    (h : (new source sink request options retains).Begins entries s') :
    entries.map (·.block) <+: Reader.blocks { source, options } ∧ (s'.finished = false →
      Reader.blocks { source, options } = entries.map (·.block) ++ s'.reader.blocks) := by
  cases h with
  | empty _ _ _ _ _ _ _ _ _ hexhausted =>
    refine ⟨List.nil_prefix, fun hf => ?_⟩
    rw [hexhausted.finished] at hf
    cases hf
  | root header block fate reader reader' _ hread hnext _ _ hsettled =>
    have hblocks : Reader.blocks { source, options } = block :: reader'.blocks :=
      Reader.blocks_of_next ((Reader.next_of_readHeader hread).trans hnext)
    rw [hblocks]
    refine ⟨List.prefix_append [block] reader'.blocks, fun hf => ?_⟩
    rw [hsettled.reader_eq hf]
    rfl

section

variable {source : Source} {sink : Sink} {request : ByteRange} {options : ReaderOptions}
  {retains : Bool}

/-- What the first step of a run without an error does. -/
theorem first_step {more : Bool}
    (hmore : (new source sink request options retains).step.1 = .ok more) :
    let s := new source sink request options retains
    s.Begins s.handled s.step.2 ∧ more = !s.step.2.finished := by
  intro s
  have hstart := step_eq_start (s := s) rfl rfl rfl
  have hok : s.start.1 = .ok () := by
    have hmapped := map_concluded { s with started := true }.begin
    rw [← step_of_not_started (s := s) rfl rfl rfl, hmore] at hmapped
    rw [start_of_not_started (s := s) rfl]
    exact hmapped.symm
  have hbegins : s.Begins s.handled s.step.2 := by
    rw [hstart.1, hstart.2]
    exact start_begins rfl rfl rfl rfl hok
  exact ⟨hbegins, more_of_step (s := s) rfl rfl hmore⟩

/-- A run without an error handles the blocks of its archive in their order, and what it says of
the end of the range is known behind the root. -/
theorem journal_of_run (hok : (new source sink request options retains).run.1 = .ok ()) :
    let s := new source sink request options retains
    s.journal.map (·.block) <+: Reader.blocks { source, options } ∧
      s.run.2.resolvedEnd = s.step.2.resolvedEnd := by
  intro s
  obtain ⟨more, hmore⟩ := step_of_run hok
  obtain ⟨hbegins, hends⟩ := first_step hmore
  obtain ⟨hfirst, hgoes⟩ := hbegins.blocks
  have hrun := run_of_step hmore
  have hjournal := journal_of_step hmore
  cases more with
  | false =>
    rw [if_neg Bool.false_ne_true] at hrun hjournal
    rw [hrun, hjournal, List.append_nil]
    exact ⟨hfirst, rfl⟩
  | true =>
    have hf : s.step.2.finished = false := by simpa using hends.symm
    rw [if_pos rfl] at hrun hjournal
    have hrest := (hbegins.underway hf).run (hrun ▸ hok)
    rw [hrun, hjournal, List.map_append, hgoes hf]
    exact ⟨(List.prefix_append_right_inj _).2 hrest.blocks, hrest.resolvedEnd⟩

end

/-- Monotonic coverage.  Two runs over one archive come to their ends without an error, and
the range of the inner one lies in that of the outer one.  Then the inner one reads no further,
and every block of the archive that it writes the outer one writes as well.  A journal lists what
a run did with the first blocks of the archive, in their order. -/
theorem run_covers_run {source : Source} {sink₁ sink₂ : Sink} {request₁ request₂ : ByteRange}
    {options : ReaderOptions} {retains : Bool}
    (hinner : (new source sink₁ request₁ options retains).run.1 = .ok ())
    (houter : (new source sink₂ request₂ options retains).run.1 = .ok ())
    (hnested :
      ∀ stop₁ ∈ (new source sink₁ request₁ options retains).run.2.resolvedEnd,
      ∀ stop₂ ∈ (new source sink₂ request₂ options retains).run.2.resolvedEnd,
        Nested request₁.start stop₁ request₂.start stop₂) :
    let inner := new source sink₁ request₁ options retains
    let outer := new source sink₂ request₂ options retains
    let blocks := Reader.blocks { source, options }
    inner.journal.map (·.block) <+: blocks ∧ inner.WritesJournal ∧
      outer.journal.map (·.block) <+: blocks ∧ outer.WritesJournal ∧
      inner.run.2.source.position ≤ outer.run.2.source.position ∧
      ∀ (k : Nat) (e : Handled), inner.journal[k]? = some e →
        ∃ e', outer.journal[k]? = some e' ∧ e'.block = e.block ∧
          (e.fate = .written → e'.fate = .written) := by
  intro inner outer blocks
  obtain ⟨more₁, hmore₁⟩ := step_of_run hinner
  obtain ⟨more₂, hmore₂⟩ := step_of_run houter
  obtain ⟨hbegins₁, hends₁⟩ := first_step hmore₁
  obtain ⟨hbegins₂, hends₂⟩ := first_step hmore₂
  obtain ⟨hblocks₁, hresolved₁⟩ := journal_of_run hinner
  obtain ⟨hblocks₂, hresolved₂⟩ := journal_of_run houter
  rw [hresolved₁, hresolved₂] at hnested
  obtain ⟨start₁, stop₁, start₂, stop₂, hn, htogether⟩ :=
    together_root hbegins₁ hbegins₂ hnested
  have hwithin : inner.Within outer :=
    htogether.within hmore₁ hmore₂ hends₁ hends₂ houter fun habreast hrun₁ hrun₂ =>
      habreast.run hn (hrun₁ ▸ hinner) (hrun₂ ▸ houter)
  obtain ⟨front, rest, hfront, hcovered⟩ := hwithin.blocks
  refine ⟨hblocks₁, writesJournal_new .., hblocks₂, writesJournal_new .., hwithin.position,
    fun k e hk => ?_⟩
  obtain ⟨hlt, rfl⟩ := List.getElem?_eq_some_iff.1 hk
  have hlt' : k < front.length := hcovered.length_eq ▸ hlt
  have hcovers : Covered inner.journal[k] front[k] := hcovered.get hlt hlt'
  refine ⟨front[k], ?_, hcovers.block, hcovers.written⟩
  rw [hfront, List.getElem?_append_left hlt', List.getElem?_eq_getElem hlt']

/-- A root with two leaves of two and three bytes.  The range of the first byte is satisfied
by the first leaf, the range from there to the end of the file by the last block. -/
theorem run_covers_first_byte :
    let body := Header.encodeBody [[0x01, 0x70, 0x00, 0x00]] 1
    let header : Bytes := UInt8.ofNat body.length :: body
    let root : Bytes := [0x14, 0x01, 0x70, 0x00, 0x00, 0x12, 0x02, 0x0a, 0x00, 0x12, 0x02, 0x0a,
      0x00, 0x0a, 0x06, 0x08, 0x02, 0x20, 0x02, 0x20, 0x03]
    let first : Bytes := [0x06, 0x01, 0x55, 0x00, 0x00, 0x61, 0x62]
    let second : Bytes := [0x07, 0x01, 0x55, 0x00, 0x00, 0x63, 0x64, 0x65]
    let source := Source.ofMemory (header ++ root ++ first ++ second) 0
    let request : ByteRange :=
      { start := 0, stop := some 1, ordered := fun _ _ => Nat.zero_le _ }
    let inner := new source .unlimited request {} false
    let outer := new source .unlimited (.openEnded 0) {} false
    inner.run.1 = .ok () ∧ outer.run.1 = .ok () ∧
      inner.run.2.resolvedEnd = some 1 ∧ outer.run.2.resolvedEnd = some 5 ∧
      inner.run.2.source.position ≤ outer.run.2.source.position ∧
      ∃ e e', inner.journal[1]? = some e ∧ e.fate = .written ∧
        outer.journal[1]? = some e' ∧ e'.block = e.block ∧ e'.fate = .written := by
  intro body header root first second source request inner outer
  have hinner₁ : inner.step.1 = .ok true := by decide +kernel
  have hinner₂ : inner.step.2.step.1 = .ok false := by decide +kernel
  have hinner : inner.run = (.ok (), inner.step.2.step.2) := by
    rw [run_of_step hinner₁, if_pos rfl, run_of_step hinner₂]
    rfl
  have houter₁ : outer.step.1 = .ok true := by decide +kernel
  have houter₂ : outer.step.2.step.1 = .ok true := by decide +kernel
  have houter₃ : outer.step.2.step.2.step.1 = .ok false := by decide +kernel
  have houter : outer.run = (.ok (), outer.step.2.step.2.step.2) := by
    rw [run_of_step houter₁, if_pos rfl, run_of_step houter₂, if_pos rfl, run_of_step houter₃]
    rfl
  have hstop₁ : inner.run.2.resolvedEnd = some 1 := by
    rw [hinner]
    decide +kernel
  have hstop₂ : outer.run.2.resolvedEnd = some 5 := by
    rw [houter]
    decide +kernel
  have hok₁ : inner.run.1 = .ok () := by rw [hinner]
  have hok₂ : outer.run.1 = .ok () := by rw [houter]
  have hnested : ∀ stop₁ ∈ inner.run.2.resolvedEnd, ∀ stop₂ ∈ outer.run.2.resolvedEnd,
      Nested 0 stop₁ 0 stop₂ := by
    rw [hstop₁, hstop₂]
    rintro - ⟨⟩ - ⟨⟩
    exact ⟨by decide, by decide, by decide⟩
  obtain ⟨-, -, -, -, hposition, hcovers⟩ := run_covers_run hok₁ hok₂ hnested
  have hfates : inner.journal.map (·.fate) = [.written, .written] := by
    rw [journal_of_step hinner₁, if_pos rfl, journal_of_step hinner₂, if_neg Bool.false_ne_true]
    decide +kernel
  obtain ⟨e, he, hwritten⟩ : ∃ e, inner.journal[1]? = some e ∧ e.fate = .written := by
    rw [← Option.map_eq_some_iff, ← List.getElem?_map, hfates]
    rfl
  obtain ⟨e', he', hblock, hcovered⟩ := hcovers 1 e he
  exact ⟨hok₁, hok₂, hstop₁, hstop₂, hposition, e, e', he, hwritten, he', hblock,
    hcovered hwritten⟩

end Session

end CarSlice
