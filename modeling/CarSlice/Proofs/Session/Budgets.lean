import CarSlice.Proofs.Session.Demands

/-!
# Sinks that run full

A session that writes to a sink with a budget does what it does with a sink that takes everything,
up to the first write that no longer fits.

* `Sink.limited` is a sink with a budget, and `Sink.spent` what a sink has taken of it.
* `Sink.Overrun`: one more write of the sink that takes everything would have been too much.
  `Sink.Overrun.longest`: what the other sink has taken is then the longest front part that fits.
* `onBudget` puts the two sinks side by side for any session.
* `refusing_sink_gets_longest_prefix`: what a run writes to such a sink, and what it comes to.
-/

namespace CarSlice

open Archive (Block Header Reader ReaderOptions)

/-! ## Sinks with a budget -/

namespace Sink

/-- A sink that takes a write if it fits in what is left of the budget, and otherwise takes nothing
and fails.  It goes on afterwards if it gives a reason. -/
def limited (reason : Option Text) (budget : Nat) : Sink :=
  { kind := match reason with
      | some reason => .guarded reason
      | none => .stream false
    budget := some budget }

/-- How many bytes a sink has taken. -/
def spent (k : Sink) : Nat :=
  k.taken.flatten.length

theorem length_output (k : Sink) : k.output.length = k.spent := by
  simp [output, writes, spent, List.length_flatten]

/-- A sink that takes everything, and one with a budget that has taken the same so far. -/
structure Within (reason : Option Text) (budget : Nat) (k k' : Sink) : Prop where
  unlimited : k.kind = .memory
  fits : k.spent ≤ budget
  limited : k' = { limited reason (budget - k.spent) with taken := k.taken }

/-- A sink that takes everything, and one that has refused the first write that was too much for
its budget. -/
structure Overrun (budget : Nat) (k k' : Sink) : Prop where
  fits : k'.spent ≤ budget
  refused : ∃ frame, frame :: k'.taken <:+ k.taken ∧ budget < k'.spent + frame.length

section

variable {reason : Option Text} {budget : Nat} {k k' : Sink}

theorem Within.flush (h : Within reason budget k k') :
    k'.flush.1 = k.flush.1 ∧ Within reason budget k.flush.2 k'.flush.2 := by
  have hleft : k.flush = (.ok (), k) := by
    rw [Sink.flush, h.unlimited]
  have hright : k'.flush = (.ok (), k') := by
    rw [h.limited]
    cases reason with
    | some reason => rfl
    | none => rfl
  rw [hleft, hright]
  exact ⟨rfl, h⟩

/-- A write that fits is taken by both, and one that does not ends it. -/
theorem Within.write (h : Within reason budget k k') (bytes : Bytes) :
    (k'.write bytes).1 = (k.write bytes).1 ∧
        Within reason budget (k.write bytes).2 (k'.write bytes).2 ∨
      (k'.write bytes).1 = .error (.sinkFailed reason) ∧
        Overrun budget (k.write bytes).2 (k'.write bytes).2 := by
  have hfits := h.fits
  have hleft : k.write bytes = (.ok (), k.take bytes) := by
    rw [Sink.write, h.unlimited]
  have hspent : (k.take bytes).spent = k.spent + bytes.length := by
    simp [spent, take, Nat.add_comm]
  rw [hleft]
  by_cases hroom : bytes.length ≤ budget - k.spent
  · have hright : k'.write bytes = (.ok (), k'.take bytes) := by
      rw [h.limited]
      cases reason with
      | some reason => simp [Sink.write, Sink.limited, Sink.fits, hroom]
      | none => simp [Sink.write, Sink.limited, Sink.fits, hroom]
    rw [hright]
    refine Or.inl ⟨rfl, h.unlimited, ?_, ?_⟩
    · rw [hspent]
      omega
    · rw [h.limited, hspent, Nat.sub_add_eq]
      rfl
  · obtain ⟨failed, hright⟩ : ∃ failed, k'.write bytes =
        (.error (.sinkFailed reason), { k' with failed := failed }) := by
      rw [h.limited]
      cases reason with
      | some reason => exact ⟨false, by simp [Sink.write, Sink.limited, Sink.fits, hroom]⟩
      | none => exact ⟨true, by simp [Sink.write, Sink.limited, Sink.fits, hroom]⟩
    have htaken : k'.taken = k.taken := by
      rw [h.limited]
    have hspent' : k'.spent = k.spent := congrArg (fun taken => taken.flatten.length) htaken
    rw [hright]
    refine Or.inr ⟨rfl, ?_, bytes, ?_, ?_⟩
    · show k'.spent ≤ budget
      rw [hspent']
      exact hfits
    · show bytes :: k'.taken <:+ bytes :: k.taken
      exact htaken ▸ List.suffix_rfl
    · show budget < k'.spent + bytes.length
      omega

theorem Overrun.grows {l : Sink} (h : Overrun budget k k') (hgrows : k.taken <:+ l.taken) :
    Overrun budget l k' := by
  obtain ⟨frame, hrefused, hmore⟩ := h.refused
  exact ⟨h.fits, frame, hrefused.trans hgrows, hmore⟩

/-- What was taken in front of the write that was refused is the longest front part that fits the
budget, and not all. -/
theorem Overrun.longest (h : Overrun budget k k') :
    k'.writes <+: k.writes ∧ k'.writes ≠ k.writes ∧
      ∀ front, front <+: k.writes → front.flatten.length ≤ budget → front <+: k'.writes := by
  obtain ⟨frame, hrefused, hmore⟩ := h.refused
  have hnext : k'.writes ++ [frame] <+: k.writes := by
    rw [writes, writes, ← List.reverse_cons]
    exact List.reverse_prefix.2 hrefused
  have hlength : k'.writes.flatten.length = k'.spent := k'.length_output
  refine ⟨(List.prefix_append _ _).trans hnext, ?_, ?_⟩
  · intro hall
    have hle := hnext.length_le
    rw [hall, List.length_append, List.length_singleton] at hle
    omega
  · intro front hfront hfits
    rcases List.prefix_or_prefix_of_prefix hfront hnext with hshort | hlong
    · rcases List.prefix_concat_iff.1 hshort with rfl | hshort
      · rw [List.flatten_append, List.length_append, hlength] at hfits
        simp only [List.flatten_cons, List.flatten_nil, List.append_nil] at hfits
        omega
      · exact hshort
    · obtain ⟨rest, rfl⟩ := hlong
      simp only [List.flatten_append, List.length_append, hlength, List.flatten_cons,
        List.flatten_nil, List.append_nil] at hfits
      omega

end

end Sink

namespace Session

/-! ## Two sinks -/

/-- Sessions that read the same and write to a sink that takes everything and to one with a
budget. -/
def onBudget (reason : Option Text) (budget : Nat) : Lockstep where
  sinks := Sink.Within reason budget
  frames f f' := f' = f
  parted k e k' := e = .sinkFailed reason ∧ Sink.Overrun budget k k'
  frames_refl _ := rfl
  length_eq h := Coupling.length_of_eq h
  flush h := h.flush
  write h hf := by
    subst hf
    rcases h.write _ with hsame | ⟨herror, hoverrun⟩
    · exact Or.inl hsame
    · exact Or.inr ⟨_, herror, rfl, hoverrun⟩
  grows h hgrows := ⟨h.1, h.2.grows hgrows⟩
  near r r' := r' = r
  loose r r' := r' = r
  near_stable := stableUnder_same
  loose_stable := stableUnder_same
  loose_of_near h := h
  readHeader h := Lockstep.readHeader_same h
  next h := Lockstep.reads_same _ h

/-- Whatever the source holds: a run that writes to a sink with a budget writes the longest front
part that fits the budget of what it would write to a sink that takes everything, in whole frames.
If that is all of it, the two runs come to the same result, with the same counts and the same
events.  If not, the run fails because of the sink, and its source is closed. -/
theorem refusing_sink_gets_longest_prefix (source : Source) (request : ByteRange)
    (options : ReaderOptions) (retains : Bool) (reason : Option Text) (budget : Nat) :
    let full := (new source .unlimited request options retains).run
    let cut := (new source (.limited reason budget) request options retains).run
    cut.2.sink.writes <+: full.2.sink.writes ∧ cut.2.sink.output.length ≤ budget ∧
      (∀ front, front <+: full.2.sink.writes → front.flatten.length ≤ budget →
        front <+: cut.2.sink.writes) ∧
      (cut.2.sink.writes = full.2.sink.writes →
        cut.1 = full.1 ∧ cut.2.stats = full.2.stats ∧ cut.2.published = full.2.published) ∧
      (cut.2.sink.writes ≠ full.2.sink.writes →
        cut.1 = .error (.sinkFailed reason) ∧ cut.2.source.closed = true) := by
  intro full cut
  have hinStep : (onBudget reason budget).InStep (new source .unlimited request options retains)
      (new source (.limited reason budget) request options retains) :=
    Or.inl ⟨{ source, options }, .limited reason budget, rfl, rfl, rfl, Nat.zero_le budget, rfl⟩
  rcases (Lockstep.steps_run hinStep).follows with ⟨hresult, hsame⟩ | ⟨e, herror, rfl, hoverrun⟩
  · obtain ⟨reader, sink, hcut, -, hwithin⟩ := hsame.pairs
    have hcut : cut.2 = full.2.across reader sink := hcut
    have hwithin : Sink.Within reason budget full.2.sink sink := hwithin
    have htaken : sink.taken = full.2.sink.taken := by
      rw [hwithin.limited]
    have hwrites : cut.2.sink.writes = full.2.sink.writes := by
      rw [hcut]
      exact congrArg List.reverse htaken
    have hspent : cut.2.sink.output.length = full.2.sink.spent := by
      rw [Sink.length_output, hcut]
      exact congrArg (fun taken => taken.flatten.length) htaken
    refine ⟨hwrites ▸ List.prefix_rfl, hspent ▸ hwithin.fits, ?_, ?_, ?_⟩
    · intro front hfront _
      rw [hwrites]
      exact hfront
    · intro _
      rw [hcut]
      exact ⟨hresult, rfl, rfl⟩
    · intro hne
      exact absurd hwrites hne
  · have hoverrun : Sink.Overrun budget full.2.sink cut.2.sink := hoverrun
    obtain ⟨hfront, hne, hlongest⟩ := hoverrun.longest
    refine ⟨hfront, cut.2.sink.length_output ▸ hoverrun.fits, hlongest, ?_, ?_⟩
    · intro hall
      exact absurd hall hne
    · exact fun _ => ⟨herror, (shut_of_run herror).closed⟩

end Session

end CarSlice
