import CarSlice.Proofs.Archive.Rereading
import CarSlice.Proofs.Session.PrefixRange

/-!
# Filtering a second time

A session for a range from the beginning of the file came to its end without an error.  A second
session for the same range that reads what the first one wrote writes the same once more, although
its archive may end where the first one still had blocks, a marker or anything else to come
(`prefix_range_idempotent`).

* `View.Agrees` relates two sessions that decide alike on whatever comes next.  They agree behind
  the root, and behind each block on which neither fails.
* `Underway.step_ok` and `first_step_ok`: where something can be read and the sink takes
  everything, only a range outside the file is a reason to fail.
* `Echoes` relates a session that goes on and one that stands at the same place of the copy that the
  first session is going to make.  `Repeats` is what their next steps come to (`Echoes.step`,
  `repeats_of_begins`), and by induction on what is left to read the runs follow (`Echoes.run`).
-/

namespace CarSlice

open Archive (Block Header Reader ReaderOptions)

namespace Session

/-! ## Sessions that decide alike -/

/-- Two views that decide alike.  Their layouts are the same, and so are their selections unless
both pass everything through. -/
structure View.Agrees (v w : View) : Prop where
  layout : w.layout = v.layout
  selection : w.selection = v.selection ∨ v.phase = .passthrough ∧ w.phase = .passthrough

theorem View.exists_of_passthrough {v : View} (h : v.phase = .passthrough) :
    ∃ selection, v.selection = some selection ∧ selection.phase = .passthrough := by
  cases hselection : v.selection with
  | none =>
    rw [View.phase, hselection] at h
    cases h
  | some selection =>
    rw [View.phase, hselection] at h
    exact ⟨selection, rfl, h⟩

theorem View.phase_of_selection {v : View} {selection : Selection}
    (h : v.selection = some selection) : v.phase = selection.phase := by
  rw [View.phase, h]

section

variable {v w : View} (h : v.Agrees w)

include h

theorem View.Agrees.phase : w.phase = v.phase := by
  rcases h.selection with hsame | ⟨hv, hw⟩
  · rw [View.phase, View.phase, hsame]
  · rw [hv, hw]

theorem View.Agrees.noteComplete : v.noteComplete.Agrees w.noteComplete where
  layout := h.layout
  selection := by
    have hpasses {u : View} (hu : u.phase = .passthrough) :
        u.noteComplete.phase = .passthrough := by
      obtain ⟨selection, hselection, hphase⟩ := u.exists_of_passthrough hu
      rw [View.phase, View.selection_noted, hselection, Option.map_some,
        Selection.noted_of_passthrough hphase]
      exact hphase
    rcases h.selection with hsame | ⟨hv, hw⟩
    · left
      rw [View.selection_noted, View.selection_noted, h.layout, hsame]
    · exact Or.inr ⟨hpasses hv, hpasses hw⟩

end

theorem View.Turn.passes {v v' : View} {block : Block} {p : Option Placement} {fate : Fate}
    (h : v.Turn block p fate v') (hfate : fate ≠ .failed) (hphase : v.phase = .passthrough) :
    v'.layout = v.layout ∧ v'.phase = .passthrough := by
  obtain ⟨selection, hselection, hpasses⟩ := v.exists_of_passthrough hphase
  obtain ⟨-, hlayout, hkept⟩ := h.of_passthrough hfate hselection hpasses
  exact ⟨hlayout, (View.phase_of_selection hkept).trans hpasses⟩

/-- Behind a block on which neither fails, they still decide alike. -/
theorem View.Agrees.turn {v w v' w' : View} (h : v.Agrees w) (hready : v.Ready) {block : Block}
    {p₁ p₂ : Option Placement} {fate₁ fate₂ : Fate} (hv : v.Turn block p₁ fate₁ v')
    (hw : w.Turn block p₂ fate₂ w') (hfate₁ : fate₁ ≠ .failed) (hfate₂ : fate₂ ≠ .failed) :
    v'.Agrees w' := by
  by_cases hphase : v.phase = .passthrough
  · obtain ⟨hlayout₁, hpasses₁⟩ := hv.passes hfate₁ hphase
    obtain ⟨hlayout₂, hpasses₂⟩ := hw.passes hfate₂ (h.phase.trans hphase)
    exact ⟨by rw [hlayout₁, hlayout₂, h.layout], Or.inr ⟨hpasses₁, hpasses₂⟩⟩
  · obtain ⟨selection, hselection, hpasses | ⟨hopen, -⟩⟩ := hready.selection
    · exact absurd ((View.phase_of_selection hselection).trans hpasses) hphase
    · have hsame : w.selection = some selection :=
        (h.selection.resolve_right fun hboth => hphase hboth.1).trans hselection
      obtain ⟨-, hlayout₁, hselection₁⟩ := hv.of_open hfate₁ hselection hopen
      obtain ⟨-, hlayout₂, hselection₂⟩ := hw.of_open hfate₂ hsame hopen
      rw [h.layout] at hlayout₂ hselection₂
      exact ⟨hlayout₂.trans hlayout₁.symm, Or.inl (hselection₂.trans hselection₁.symm)⟩

/-- What to do with an archive is decided by the root alone. -/
theorem View.Chosen.agrees {v w₁ w₂ : View} {header : Header} {block : Block}
    (h₁ : v.Chosen header block w₁) (h₂ : v.Chosen header block w₂) : w₁.Agrees w₂ := by
  cases h₁ with
  | passed selection₁ hmismatch hphase₁ =>
    cases h₂ with
    | passed selection₂ _ hphase₂ => exact ⟨rfl, Or.inr ⟨hphase₁, hphase₂⟩⟩
    | selected _ hplaced =>
      obtain ⟨offset, reason, hmismatch⟩ := hmismatch
      exact absurd hmismatch (hplaced offset reason)
  | selected stop₁ hplaced hstop₁ =>
    cases h₂ with
    | passed _ hmismatch =>
      obtain ⟨offset, reason, hmismatch⟩ := hmismatch
      exact absurd hmismatch (hplaced offset reason)
    | selected stop₂ _ hstop₂ =>
      obtain rfl : stop₁ = stop₂ := Except.ok.inj (hstop₁.symm.trans hstop₂)
      exact ⟨rfl, Or.inl rfl⟩

theorem View.RootTurn.agrees {v v₁ v₂ : View} {header : Header} {block : Block}
    {fate₁ fate₂ : Fate} (h₁ : v.RootTurn header block fate₁ v₁)
    (h₂ : v.RootTurn header block fate₂ v₂) (hfate₁ : fate₁ ≠ .failed)
    (hfate₂ : fate₂ ≠ .failed) : v₁.Agrees v₂ := by
  obtain ⟨w₁, hw₁, -, rfl⟩ := h₁.of_not_failed hfate₁
  obtain ⟨w₂, hw₂, -, rfl⟩ := h₂.of_not_failed hfate₂
  have hagrees := hw₁.agrees hw₂
  have hwritten : ((w₁.writeHeader header).writeBlock block).Agrees
      ((w₂.writeHeader header).writeBlock block) :=
    ⟨hagrees.layout, hagrees.selection⟩
  exact hwritten.noteComplete

/-! ## No reason to fail -/

theorem concluded_result {result : Except Error Unit × Session} (h : result.1 = .ok ()) :
    (concluded result).1 = .ok (!(concluded result).2.finished) := by
  rw [concluded_of_ok h]

/-- Where the archive goes on or ends, a step behind the root does not fail. -/
theorem Underway.step_ok {s : Session} (h : s.Underway) (haccepts : s.view.accepts = true)
    {read : Option Block} {reader : Reader} (hnext : s.reader.next = (.ok read, reader)) :
    s.step.1 = .ok (!s.step.2.finished) := by
  rw [step_of_started h.goesOn h.uncancelled h.ready.started]
  refine concluded_result ?_
  cases hresult : s.advance.1 with
  | ok _ => rfl
  | error e =>
    have hrefuses := (refuses_of_advance h.ready hnext hresult).accepts
    rw [haccepts] at hrefuses
    cases hrefuses

/-- A root on which a session does not fail has no range outside its file. -/
theorem View.RootTurn.not_outside {v v' : View} {header : Header} {block : Block} {fate : Fate}
    (h : v.RootTurn header block fate v') (hfate : fate ≠ .failed) (e : Error) :
    ¬v.Outside header block e := by
  rintro ⟨hplaced, herror⟩
  obtain ⟨w, hw, -, -⟩ := h.of_not_failed hfate
  cases hw with
  | passed _ hmismatch =>
    obtain ⟨offset, reason, hmismatch⟩ := hmismatch
    exact hplaced offset reason hmismatch
  | selected stop _ hstop =>
    rw [hstop] at herror
    cases herror

/-! ## Two steps -/

/-- A session that goes on, and one that stands at the same place of a copy.  The copy holds the
blocks that the first session is going to handle, and nothing else. -/
structure Echoes (s t : Session) : Prop where
  first : s.Underway
  second : t.Underway
  accepts : t.view.accepts = true
  agrees : s.view.Agrees t.view
  rereads : s.reader.Rereads (s.journal.map (·.block)) t.reader

/-- What the next step of a session comes to, and that of one that reads a copy. -/
structure Repeats (s t : Session) : Prop where
  result : t.step.1 = .ok (!t.step.2.finished)
  finished : t.step.2.finished = s.step.2.finished
  phase : t.step.2.phase = s.step.2.phase
  blocks : t.handled.map (·.block) = s.handled.map (·.block)
  goesOn : s.step.2.finished = false → s.step.2.Echoes t.step.2

section

variable {s t : Session} {reader reader' : Reader}

/-- Both have handled a block. -/
theorem repeats_of_handles (hresult : t.step.1 = .ok (!t.step.2.finished))
    (hs : s.step.2.Handles reader) (ht : t.step.2.Handles reader')
    (hgoes₁ : s.step.2.finished = false → s.step.2.Underway)
    (hgoes₂ : t.step.2.finished = false → t.step.2.Underway)
    (haccepts : t.step.2.view.accepts = true) (hagrees : s.step.2.view.Agrees t.step.2.view)
    (hblocks : t.handled.map (·.block) = s.handled.map (·.block))
    (hrereads : s.step.2.finished = false →
      reader.Rereads (s.step.2.journal.map (·.block)) reader') : s.Repeats t := by
  have hfinished : t.step.2.finished = s.step.2.finished := by
    rw [ht.finished, hs.finished, hagrees.phase]
  refine ⟨hresult, hfinished, hagrees.phase, hblocks, fun hf => ?_⟩
  have hf' := hfinished.trans hf
  refine ⟨hgoes₁ hf, hgoes₂ hf', haccepts, hagrees, ?_⟩
  rw [hs.reader_eq hf, ht.reader_eq hf']
  exact hrereads hf

/-- Both have come to the end of their archives. -/
theorem repeats_of_exhausted (hresult : t.step.1 = .ok (!t.step.2.finished))
    (hs : s.step.2.finished = true) (ht : t.step.2.finished = true)
    (hphase : t.step.2.phase = s.step.2.phase)
    (hblocks : t.handled.map (·.block) = s.handled.map (·.block)) : s.Repeats t :=
  ⟨hresult, ht.trans hs.symm, hphase, hblocks, fun hf => by
    rw [hs] at hf
    cases hf⟩

/-- The next steps of the two handle the same block, or both find the end. -/
theorem Echoes.step {more : Bool} (h : s.Echoes t) (hmore : s.step.1 = .ok more) :
    s.Repeats t := by
  have hends := more_of_step h.first.goesOn h.first.uncancelled hmore
  have hrereads := h.rereads
  rw [journal_of_step hmore] at hrereads
  have hadvances₁ := h.first.advances hmore
  generalize hhandled₁ : s.handled = entries₁ at hadvances₁ hrereads
  generalize hafter₁ : s.step.2 = s' at hadvances₁
  cases hadvances₁ with
  | block block fate₁ reader₁ _ hnext₁ hturn₁ hfate₁ hsettled₁ =>
    obtain ⟨reader₂, hnext₂, hrest⟩ := hrereads.next_some hnext₁
    have hresult := h.second.step_ok h.accepts hnext₂
    have hadvances₂ := h.second.advances hresult
    generalize hhandled₂ : t.handled = entries₂ at hadvances₂
    generalize hafter₂ : t.step.2 = t' at hadvances₂
    cases hadvances₂ with
    | exhausted _ _ hnone =>
      rw [hnext₂] at hnone
      cases hnone
    | block _ fate₂ _ _ hsame hturn₂ hfate₂ hsettled₂ =>
      rw [hnext₂] at hsame
      cases hsame
      have hagrees := h.agrees.turn h.first.ready hturn₁ hturn₂ hfate₁ hfate₂
      subst hafter₁ hafter₂
      refine repeats_of_handles hresult hsettled₁.toHandles hsettled₂.toHandles
        (h.first.next hnext₁ hturn₁ hfate₁ hsettled₁)
        (h.second.next hnext₂ hturn₂ hfate₂ hsettled₂) (hturn₂.accepts h.accepts).2 hagrees ?_
        fun hf => ?_
      · rw [hhandled₁, hhandled₂]
        rfl
      · rw [hends, hf] at hrest
        exact hrest
  | exhausted reader₁ _ hnext₁ hview₁ hexhausted₁ =>
    -- The first session handles nothing any more, so the copy ends here.
    have hdone : more = false := by rw [hends, hafter₁, hexhausted₁.finished]; rfl
    rw [hdone] at hrereads
    obtain ⟨reader₂, hnext₂⟩ := hrereads.next_none
    have hresult := h.second.step_ok h.accepts hnext₂
    have hadvances₂ := h.second.advances hresult
    generalize hhandled₂ : t.handled = entries₂ at hadvances₂
    generalize hafter₂ : t.step.2 = t' at hadvances₂
    cases hadvances₂ with
    | block _ _ _ _ hsome =>
      rw [hnext₂] at hsome
      cases hsome
    | exhausted _ _ _ hview₂ hexhausted₂ =>
      subst hafter₁ hafter₂
      refine repeats_of_exhausted hresult hexhausted₁.finished hexhausted₂.finished ?_ ?_
      · rw [← phase_view, ← phase_view, hview₁, hview₂, h.agrees.phase]
      · rw [hhandled₁, hhandled₂]

/-! ## Two runs -/

/-- A run that comes to what another run comes to, and handles the same blocks. -/
structure SameRun (s t : Session) : Prop where
  result : t.run.1 = .ok ()
  phase : t.run.2.phase = s.run.2.phase
  blocks : t.journal.map (·.block) = s.journal.map (·.block)

theorem Repeats.run {more : Bool} (h : s.Repeats t) (hmore : s.step.1 = .ok more)
    (hends : more = !s.step.2.finished)
    (hrest : s.step.2.Echoes t.step.2 → s.run = s.step.2.run → s.step.2.SameRun t.step.2) :
    s.SameRun t := by
  have hmore' : t.step.1 = .ok more := by rw [h.result, h.finished, hends]
  have hrun₁ := run_of_step hmore
  have hrun₂ := run_of_step hmore'
  have hjournal₁ := journal_of_step hmore
  have hjournal₂ := journal_of_step hmore'
  cases more with
  | false =>
    rw [if_neg Bool.false_ne_true] at hrun₁ hrun₂ hjournal₁ hjournal₂
    refine ⟨by rw [hrun₂], by rw [hrun₁, hrun₂]; exact h.phase, ?_⟩
    rw [hjournal₁, hjournal₂, List.append_nil, List.append_nil, h.blocks]
  | true =>
    rw [if_pos rfl] at hrun₁ hrun₂ hjournal₁ hjournal₂
    have hsame := hrest (h.goesOn (by simpa using hends.symm)) hrun₁
    refine ⟨by rw [hrun₂, hsame.result], by rw [hrun₁, hrun₂, hsame.phase], ?_⟩
    rw [hjournal₁, hjournal₂, List.map_append, List.map_append, h.blocks, hsame.blocks]

/-- From the same place on, the second run does what the first one does.  By induction on what the
first session has left to read. -/
theorem Echoes.run (h : s.Echoes t) (hok : s.run.1 = .ok ()) : s.SameRun t := by
  induction hremaining : s.remaining using Nat.strongRecOn generalizing s t with
  | ind n ih =>
    obtain ⟨more, hmore⟩ := step_of_run hok
    have hends := more_of_step h.first.goesOn h.first.uncancelled hmore
    refine (h.step hmore).run hmore hends fun hechoes hrun => ?_
    have hgoes : more = true := by rw [hends, hechoes.first.goesOn]; rfl
    have hless : s.step.2.remaining < n :=
      hremaining ▸ remaining_lt_of_step (Prod.ext (hgoes ▸ hmore) rfl)
    exact ih _ hless hechoes (hrun ▸ hok) rfl

end

section

variable {source copy : Source} {request : ByteRange} {options : ReaderOptions} {retains : Bool}
  {header : Header} {reader reader' reader₂ reader₂' : Reader}

/-- A session whose archive can be begun with does not fail at the beginning, unless its range lies
outside the file. -/
theorem first_step_ok {read : Option Block}
    (hread : Reader.readHeader { source, options } = (.ok header, reader))
    (hnext : reader.next = (.ok read, reader'))
    (hlies : ∀ block, read = some block → ∀ e, ¬View.Outside
      { (new source .unlimited request options retains).view with started := true }
      header block e) :
    (new source .unlimited request options retains).step.1 =
      .ok (!(new source .unlimited request options retains).step.2.finished) := by
  rw [step_of_not_started rfl rfl rfl]
  refine concluded_result ?_
  cases hresult :
      { new source .unlimited request options retains with started := true }.begin.1 with
  | ok _ => rfl
  | error e =>
    rcases begin_fails rfl hread hnext hresult with ⟨block, hfound, houtside, -⟩ | hrefuses
    · exact absurd houtside (hlies block hfound e)
    · cases hrefuses.accepts

/-- Both have handled the root. -/
theorem repeats_of_roots {s : Session} {block : Block} {fate : Fate}
    (hview : s.view = (new copy .unlimited request options retains).view)
    (hhandled : s.handled.map (·.block) = [block])
    (hturn : View.RootTurn { s.view with started := true } header block fate s.step.2.view)
    (hfate : fate ≠ .failed) (hhandles : s.step.2.Handles reader')
    (hgoes : s.step.2.finished = false → s.step.2.Underway)
    (hread₂ : Reader.readHeader { source := copy, options } = (.ok header, reader₂))
    (hnext₂ : reader₂.next = (.ok (some block), reader₂'))
    (hrest : s.step.2.finished = false →
      reader'.Rereads (s.step.2.journal.map (·.block)) reader₂') :
    s.Repeats (new copy .unlimited request options retains) := by
  rw [hview] at hturn
  have hresult := first_step_ok hread₂ hnext₂ fun block' hblock e => by
    obtain rfl : block = block' := Option.some.inj hblock
    exact hturn.not_outside hfate e
  obtain ⟨hbegins, -⟩ := first_step hresult
  have hgoes₂ := hbegins.underway
  generalize hhandled₂ : (new copy .unlimited request options retains).handled = entries₂
    at hbegins
  generalize hafter₂ : (new copy .unlimited request options retains).step.2 = t'
    at hbegins hgoes₂
  cases hbegins with
  | empty _ _ _ _ _ hsame hnone =>
    obtain ⟨-, rfl⟩ := Prod.mk.inj (hread₂.symm.trans hsame)
    rw [hnext₂] at hnone
    cases hnone
  | root header₂ block₂ fate₂ _ _ _ hsame hnext hturn₂ hfate₂ hsettled₂ =>
    obtain ⟨hheader₂, rfl⟩ := Prod.mk.inj (hread₂.symm.trans hsame)
    obtain rfl : header = header₂ := Except.ok.inj hheader₂
    rw [hnext₂] at hnext
    cases hnext
    subst hafter₂
    refine repeats_of_handles hresult hhandles hsettled₂.toHandles hgoes hgoes₂ ?_
      (View.RootTurn.agrees hturn hturn₂ hfate hfate₂) ?_ hrest
    · obtain ⟨w, hw, -, hview⟩ := hturn₂.of_not_failed hfate₂
      rw [hview]
      exact hw.accepts
    · rw [hhandled, hhandled₂]
      rfl

/-- The first steps handle the same root, or both find that the archive holds no blocks. -/
theorem repeats_of_begins {more : Bool}
    (hmore : (new source .unlimited request options retains).step.1 = .ok more)
    (hread : Reader.readHeader { source, options } = (.ok header, reader))
    (hread₂ : Reader.readHeader { source := copy, options } = (.ok header, reader₂))
    (hrereads : reader.Rereads
      ((new source .unlimited request options retains).journal.map (·.block)) reader₂) :
    (new source .unlimited request options retains).Repeats
      (new copy .unlimited request options retains) := by
  obtain ⟨hbegins, hends⟩ := first_step hmore
  rw [journal_of_step hmore] at hrereads
  have hgoes := hbegins.underway
  generalize hhandled : (new source .unlimited request options retains).handled = entries
    at hbegins hrereads
  generalize hafter : (new source .unlimited request options retains).step.2 = s'
    at hbegins hgoes
  cases hbegins with
  | root header₁ block fate _ reader₁ _ hread₁ hnext₁ hturn hfate hsettled =>
    obtain ⟨hheader, rfl⟩ := Prod.mk.inj (hread.symm.trans hread₁)
    obtain rfl : header = header₁ := Except.ok.inj hheader
    obtain ⟨reader₂', hnext₂, hrest⟩ := hrereads.next_some hnext₁
    subst hafter
    refine repeats_of_roots rfl (by rw [hhandled]; rfl) hturn hfate hsettled.toHandles hgoes hread₂
      hnext₂ fun hf => ?_
    rw [hends, hf] at hrest
    exact hrest
  | empty header₁ selection₁ _ reader₁ _ hread₁ hnext₁ hphase₁ hview₁ hexhausted₁ =>
    have hdone : more = false := by rw [hends, hafter, hexhausted₁.finished]; rfl
    rw [hdone] at hrereads
    obtain ⟨reader₂', hnext₂⟩ := hrereads.next_none
    have hresult := @first_step_ok copy request options retains _ _ _ _ hread₂ hnext₂
      fun block hblock => by cases hblock
    obtain ⟨hbegins₂, -⟩ := first_step hresult
    generalize hhandled₂ : (new copy .unlimited request options retains).handled = entries₂
      at hbegins₂
    generalize hafter₂ : (new copy .unlimited request options retains).step.2 = t' at hbegins₂
    cases hbegins₂ with
    | root _ _ _ _ _ _ hsame hsome =>
      obtain ⟨-, rfl⟩ := Prod.mk.inj (hread₂.symm.trans hsame)
      rw [hnext₂] at hsome
      cases hsome
    | empty header₂ selection₂ _ _ _ _ _ hphase₂ hview₂ hexhausted₂ =>
      subst hafter hafter₂
      refine repeats_of_exhausted hresult hexhausted₁.finished hexhausted₂.finished ?_ ?_
      · rw [← phase_view, ← phase_view, hview₁, hview₂]
        exact hphase₂.trans hphase₁.symm
      · rw [hhandled, hhandled₂]

end

/-! ## What a run leaves -/

theorem finished_of_run {s : Session} (h : s.run.1 = .ok ()) : s.run.2.finished = true := by
  fun_induction run s with
  | case1 s e s' hstep => cases h
  | case2 s s' hstep =>
    have hmore : s.step.1 = .ok false := by rw [hstep]
    have hafter : s.step.2 = s' := by rw [hstep]
    rw [← hafter]
    by_cases hf : s.finished = true
    · rw [(step_of_finished hf).2]
      exact hf
    · have hf : s.finished = false := by simpa using hf
      by_cases hc : s.cancelRequested = true
      · exact (step_of_cancelled hf hc).2.2
      · have hends := more_of_step hf (by simpa using hc) hmore
        simpa using hends.symm
  | case3 s s' hstep ih => exact ih h

/-- A session that copies goes on copying to the end of its run. -/
theorem Copies.run {archive : Reader} {sink : Sink} {s : Session} {entries : List Handled}
    {header : Header} (h : Copies archive sink s entries header) (hs : s.Underway)
    (hok : s.run.1 = .ok ()) : Copies archive sink s.run.2 (entries ++ s.journal) header := by
  induction hremaining : s.remaining using Nat.strongRecOn generalizing s entries with
  | ind n ih =>
    obtain ⟨more, hmore⟩ := step_of_run hok
    have hends := more_of_step hs.goesOn hs.uncancelled hmore
    have hrun := run_of_step hmore
    have hstep := h.advances hs.goesOn (hs.advances hmore)
    rw [journal_of_step hmore]
    cases more with
    | false =>
      rw [if_neg Bool.false_ne_true] at hrun ⊢
      rw [hrun, List.append_nil]
      exact hstep
    | true =>
      rw [if_pos rfl] at hrun ⊢
      have hgoes := ((hs.step hmore).2 (by simpa using hends.symm)).1
      have hless : s.step.2.remaining < n :=
        hremaining ▸ remaining_lt_of_step (Prod.ext hmore rfl)
      rw [hrun, ← List.append_assoc]
      exact ih _ hless hstep hgoes (hrun ▸ hok) rfl

section

variable {source : Source} {request : ByteRange} {options : ReaderOptions} {retains : Bool}
  (hok : (new source .unlimited request options retains).run.1 = .ok ())

include hok

/-- A run without an error copies the header and every block that it handles. -/
theorem copies_of_run :
    let s := new source .unlimited request options retains
    ∃ header, Copies { source, options } .unlimited s.run.2 s.journal header := by
  intro s
  obtain ⟨more, hmore⟩ := step_of_run hok
  obtain ⟨hbegins, hends⟩ := first_step hmore
  obtain ⟨header, hcopies⟩ :
      ∃ header, Copies { source, options } .unlimited s.step.2 s.handled header :=
    copies_of_begins rfl rfl hbegins
  have hrun := run_of_step hmore
  refine ⟨header, ?_⟩
  rw [journal_of_step hmore]
  cases more with
  | false =>
    rw [if_neg Bool.false_ne_true] at hrun ⊢
    rw [hrun, List.append_nil]
    exact hcopies
  | true =>
    rw [if_pos rfl] at hrun ⊢
    rw [hrun]
    exact hcopies.run (hbegins.underway (by simpa using hends.symm)) (hrun ▸ hok)

/-- The end of a run for a range from the beginning of the file. -/
theorem ends_of_run (hstart : request.start = 0) :
    let s := new source .unlimited request options retains
    ∃ header, (Reader.readHeader { source, options }).1 = .ok header ∧
      s.run.2.sink.output = header.frame ++ (s.journal.map (·.block)).flatMap Block.frame ∧
      s.run.2.stats.blocksOut = (s.journal.map (·.block)).length ∧
      s.run.2.stats.blocksDiscarded = 0 ∧ s.run.2.stats.phase = s.run.2.phase := by
  intro s
  have hinitial := initial_new source .unlimited request options retains
  have hnew := steady_new source .unlimited request options retains
  obtain ⟨header, hcopies⟩ := copies_of_run hok
  obtain ⟨n, hsucceeds, hperform⟩ := succeeds_of_run hok
  have hsteady : Steady s.view s.run.2 s.journal := by
    have hrow := hnew.perform hinitial (List.replicate n (.call .step))
    rwa [hperform] at hrow
  have hdropped : ∀ e ∈ s.journal, e.fate ≠ .dropped := by
    have hrow :=
      hnew.toSound.not_dropped hinitial hstart (by simp) (List.replicate n (.call .step))
    rwa [hperform] at hrow
  have hreports : s.run.2.Reports := by
    have hrow := hnew.reports hinitial hsucceeds (fun hf => by cases hf)
    rw [hperform] at hrow
    exact hrow (finished_of_run hok)
  have hfailed := hcopies.not_failed hsteady.toSound rfl
  refine ⟨header, hcopies.reads, ?_, ?_, ?_, hreports.phase⟩
  · rw [output_of_taken hcopies.taken hdropped hfailed, List.flatMap_map]
  · rw [List.length_map]
    exact (hsteady.counted.blocksOut_eq hdropped hfailed).trans (Nat.zero_add _)
  · exact hsteady.counted.blocksDiscarded_eq hdropped

/-- The range begins with the file.  If a run comes to its end without an error, then so does a run
for the same range over what the first one wrote, with the same settings and however its bytes
are handed out.  It writes the same bytes and the same number of blocks, drops none, and ends in
the same phase. -/
theorem prefix_range_idempotent (hstart : request.start = 0) (supply : Source.Supply) :
    let first := (new source .unlimited request options retains).run
    let again := (new (supply.source first.2.sink.output) .unlimited request options retains).run
    again.1 = .ok () ∧ again.2.sink.output = first.2.sink.output ∧
      again.2.phase = first.2.phase ∧ again.2.stats.phase = first.2.stats.phase ∧
      again.2.stats.blocksOut = first.2.stats.blocksOut ∧
      again.2.stats.blocksDiscarded = 0 := by
  intro first again
  obtain ⟨header, hread, houtput, hout, -, hphase⟩ := ends_of_run hok hstart
  let copy := supply.source first.2.sink.output
  have hcopy : copy = (Source.ofMemory first.2.sink.output 0).onDevice supply.device 0 :=
    supply.source_eq _
  have hopen : copy.closed = false := by rw [hcopy]; rfl
  have hreliable : copy.Reliable := by rw [hcopy]; exact supply.device_ne
  have hunread : copy.unread = first.2.sink.output := by rw [hcopy]; rfl
  obtain ⟨reader, hread₂, hrereads⟩ :=
    Reader.rereads_of_readHeader (t := { source := copy, options }) rfl (Prod.ext hread rfl) rfl rfl
      hopen hreliable (hunread.trans houtput)
  obtain ⟨more, hmore⟩ := step_of_run hok
  have hrepeats := repeats_of_begins hmore (Prod.ext hread rfl) hread₂ hrereads
  have hsame := hrepeats.run hmore (first_step hmore).2 fun hechoes hrun =>
    hechoes.run (hrun ▸ hok)
  obtain ⟨header', hread', houtput', hout', hdiscarded', hphase'⟩ :=
    ends_of_run hsame.result hstart
  obtain rfl : header = header' :=
    Except.ok.inj ((congrArg Prod.fst hread₂).symm.trans hread')
  refine ⟨hsame.result, ?_, hsame.phase, ?_, ?_, hdiscarded'⟩
  · rw [houtput', houtput, hsame.blocks]
  · rw [hphase', hphase, hsame.phase]
  · rw [hout', hout, hsame.blocks]

end

/-- A root with two leaves of two and three bytes, of which the first one is asked for.  What was
written of it lacks the second leaf, and is satisfied by the first one all the same. -/
theorem prefix_range_idempotent_first_leaf :
    let body := Header.encodeBody [[0x01, 0x70, 0x00, 0x00]] 1
    let header : Bytes := UInt8.ofNat body.length :: body
    let root : Bytes := [0x14, 0x01, 0x70, 0x00, 0x00, 0x12, 0x02, 0x0a, 0x00, 0x12, 0x02, 0x0a,
      0x00, 0x0a, 0x06, 0x08, 0x02, 0x20, 0x02, 0x20, 0x03]
    let first : Bytes := [0x06, 0x01, 0x55, 0x00, 0x00, 0x61, 0x62]
    let second : Bytes := [0x07, 0x01, 0x55, 0x00, 0x00, 0x63, 0x64, 0x65]
    let source := Source.ofMemory (header ++ root ++ first ++ second) 0
    let request : ByteRange :=
      { start := 0, stop := some 1, ordered := fun _ _ => Nat.zero_le _ }
    let once := (new source .unlimited request {} false).run
    let again := (new (.ofMemory once.2.sink.output 1) .unlimited request {} false).run
    once.1 = .ok () ∧ request.start = 0 ∧ once.2.sink.output = header ++ root ++ first ∧
      again.1 = .ok () ∧ again.2.sink.output = header ++ root ++ first ∧
      again.2.phase = .satisfied ∧ again.2.stats.phase = .satisfied ∧
      again.2.stats.blocksOut = 2 ∧ again.2.stats.blocksDiscarded = 0 := by
  intro body header root first second source request once again
  have hfirst : (new source .unlimited request {} false).step.1 = .ok true := by decide +kernel
  have hsecond : (new source .unlimited request {} false).step.2.step.1 = .ok false := by
    decide +kernel
  have hrun : once = (.ok (), (new source .unlimited request {} false).step.2.step.2) := by
    show (new source .unlimited request {} false).run = _
    rw [run_of_step hfirst, if_pos rfl, run_of_step hsecond]
    rfl
  have hok : once.1 = .ok () := by rw [hrun]
  have houtput : once.2.sink.output = header ++ root ++ first := by
    rw [hrun]
    decide +kernel
  have hphase : once.2.phase = .satisfied := by
    rw [hrun]
    decide +kernel
  have hreported : once.2.stats.phase = .satisfied := by
    rw [hrun]
    decide +kernel
  have hout : once.2.stats.blocksOut = 2 := by
    rw [hrun]
    decide +kernel
  obtain ⟨hok', houtput', hphase', hreported', hout', hdiscarded'⟩ :=
    @prefix_range_idempotent source request {} false hok rfl (.memory 1)
  exact ⟨hok, rfl, houtput, hok', houtput'.trans houtput, hphase'.trans hphase,
    hreported'.trans hreported, hout'.trans hout, hdiscarded'⟩

end Session

end CarSlice
