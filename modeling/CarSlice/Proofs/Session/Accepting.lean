import CarSlice.Proofs.Session.Journal

/-!
# Sessions whose sink takes everything

If the sink refuses nothing, a block that was read is handled without failure, and the
session goes on until it is satisfied (`step_of_next`, `step_of_root`).
-/

namespace CarSlice

open Archive (Block Header Reader)

namespace Session

/-! ## No way to fail -/

theorem View.Emits.accepts {w v' : View} {block : Block} {fate : Fate}
    (h : w.Emits block fate v') (haccepts : w.accepts = true) :
    fate ≠ .failed ∧ v'.accepts = true := by
  cases h with
  | written => exact ⟨by simp, haccepts⟩
  | refused hrefuses =>
    rw [haccepts] at hrefuses
    cases hrefuses

theorem View.Turn.accepts {v v' : View} {block : Block} {p : Option Placement} {fate : Fate}
    (h : v.Turn block p fate v') (haccepts : v.accepts = true) :
    fate ≠ .failed ∧ v'.accepts = true := by
  cases h with
  | passed _ _ _ hv => exact hv.accepts haccepts
  | kept _ _ _ _ _ _ _ hv => exact hv.accepts haccepts
  | dropped => exact ⟨by simp, haccepts⟩

theorem View.Chosen.accepts {v w : View} {header : Header} {block : Block}
    (h : v.Chosen header block w) : w.accepts = v.accepts := by
  cases h <;> rfl

/-- Whether the range of a request lies in the file that a root begins. -/
def View.LiesIn (v : View) (header : Header) (block : Block) : Prop :=
  ∃ stop, v.request.resolve ((v.placeRoot header block).2.fileSize.getD 0) = .ok stop

theorem View.RootTurn.accepts {v v' : View} {header : Header} {block : Block} {fate : Fate}
    (h : v.RootTurn header block fate v') (hlies : v.LiesIn header block)
    (haccepts : v.accepts = true) : fate ≠ .failed ∧ v'.accepts = true := by
  cases h with
  | outside e _ hstop =>
    rcases hlies with ⟨stop, hlies⟩
    rw [hstop] at hlies
    cases hlies
  | refused _ hv hrefuses =>
    rw [hv.accepts, haccepts] at hrefuses
    cases hrefuses
  | emitted w _ _ hw hv =>
    have hwaccepts : (w.writeHeader header).accepts = true := hw.accepts.trans haccepts
    exact hv.accepts hwaccepts

/-! ## Steps -/

/-- A session does not fail on a block in a way that leaves its sink taking everything. -/
theorem Settles.of_accepts {way : Fate → View → Prop} {reader : Reader}
    {result : Except Error Unit × Session} (h : Settles way reader result)
    (haccepts : ∀ fate v, way fate v → fate ≠ .failed ∧ v.accepts = true) :
    (concluded result).1 = .ok (!(concluded result).2.finished) ∧
      (concluded result).2.Handles reader ∧ ∃ fate, way fate (concluded result).2.view := by
  cases h with
  | handled s' fate hway _ h => exact ⟨rfl, h, fate, hway⟩
  | failed e s' fate hway h =>
    obtain ⟨hfate, hv⟩ := haccepts fate _ hway
    rcases h with h | h
    · exact absurd h hfate
    · rw [hv] at h
      cases h

/-- The next block is handled, and the session goes on unless it is satisfied. -/
theorem step_of_next {s : Session} (hf : s.finished = false) (hc : s.cancelRequested = false)
    (hready : s.view.Ready) (haccepts : s.view.accepts = true) {block : Block} {reader : Reader}
    (hnext : s.reader.next = (.ok (some block), reader)) :
    s.step.1 = .ok (!s.step.2.finished) ∧ s.step.2.Handles reader ∧
      ∃ fate, s.view.Turn block (s.view.placementOf? block) fate s.step.2.view := by
  have hsome : s.nextBlock? = some block := by
    rw [nextBlock?, hnext]
  have hsettles := advance_of_some hf hready hsome
  rw [hnext] at hsettles
  rw [step_of_started hf hc hready.started]
  exact hsettles.of_accepts fun fate v hturn => hturn.accepts haccepts

/-- Header and root are handled, and the session goes on unless it is satisfied. -/
theorem step_of_root {s : Session} (hf : s.finished = false) (hc : s.cancelRequested = false)
    (hs : s.started = false) (hheader : s.view.headerWritten = false)
    (haccepts : s.view.accepts = true) {header : Header} {block : Block} {reader reader' : Reader}
    (hread : s.reader.readHeader = (.ok header, reader))
    (hnext : reader.next = (.ok (some block), reader')) (hlies : s.view.LiesIn header block) :
    s.step.1 = .ok (!s.step.2.finished) ∧ s.step.2.Handles reader' ∧
      ∃ fate, View.RootTurn { s.view with started := true } header block fate s.step.2.view := by
  have hfirst : { s with started := true }.firstBlock? = some (header, block) := by
    simp [firstBlock?, hread, nextBlock?, hnext]
  have hsettles := begin_of_some (s := { s with started := true }) hf hheader hfirst
  have hreader : { s with started := true }.reader.readHeader.2.next.2 = reader' := by
    rw [hread, hnext]
  rw [hreader] at hsettles
  rw [step_of_not_started hf hc hs]
  exact hsettles.of_accepts fun fate v hturn => hturn.accepts hlies haccepts

end Session

end CarSlice
