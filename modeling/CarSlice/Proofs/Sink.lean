import CarSlice.Sink
import Mathlib.Tactic.SplitIfs

/-!
# Sinks take writes whole

A sink that takes a write has it behind the others, and a sink that refuses one has what it had
(`write_of_ok`, `write_of_error`).  A flush brings nothing to it (`flush_keeps`).

A sink belongs to somebody else: it may begin to refuse what it took before, or take again what it
refused, for reasons of its own.  `Terms` is what such a change is about, and `under` makes it.
What the sink has taken it keeps.
-/

namespace CarSlice

/-! ## Sinks that take everything -/

/-- Whether a sink takes every write and flush from now on. -/
def Sink.acceptsAll (s : Sink) : Bool :=
  match s.kind with
  | .memory => true
  | .guarded _ => s.budget.isNone
  | .stream failsOnFlush => s.budget.isNone && !s.failed && !failsOnFlush

namespace Sink

@[simp] theorem taken_take (s : Sink) (bytes : Bytes) :
    (s.take bytes).taken = bytes :: s.taken := rfl

@[simp] theorem writes_take (s : Sink) (bytes : Bytes) :
    (s.take bytes).writes = s.writes ++ [bytes] :=
  List.reverse_cons

/-- What reached a sink is settled by what it has taken. -/
theorem writes_of_taken {s s' : Sink} (h : s'.taken = s.taken) : s'.writes = s.writes :=
  congrArg List.reverse h

@[simp] theorem acceptsAll_take (s : Sink) (bytes : Bytes) :
    (s.take bytes).acceptsAll = s.acceptsAll := by
  cases hkind : s.kind <;> simp [acceptsAll, take, hkind]

theorem write_of_ok {s s' : Sink} {bytes : Bytes} (h : s.write bytes = (.ok (), s')) :
    s' = s.take bytes := by
  unfold write at h
  split at h
  · cases h
    rfl
  · split at h
    · cases h
      rfl
    · cases h
  · split at h
    · cases h
      rfl
    · cases h

/-- A write that is refused reaches nothing, and a sink that takes everything refuses
none. -/
theorem write_of_error {s s' : Sink} {bytes : Bytes} {e : Error}
    (h : s.write bytes = (.error e, s')) :
    s'.taken = s.taken ∧ s.acceptsAll = false ∧ s'.acceptsAll = false := by
  unfold write at h
  split at h
  · cases h
  · next reason hkind =>
    split at h
    · cases h
    · next hfits =>
      cases h
      have hnot : s.acceptsAll = false := by
        cases hbudget : s.budget <;> simp_all [acceptsAll, fits]
      exact ⟨rfl, hnot, hnot⟩
  · next failsOnFlush hkind =>
    split at h
    · cases h
    · next hfits =>
      cases h
      have hnot : s.acceptsAll = false := by
        cases hbudget : s.budget <;> simp_all [acceptsAll, fits]
      exact ⟨rfl, hnot, by simp [acceptsAll, hkind]⟩

theorem flush_keeps (s : Sink) :
    s.flush.2.taken = s.taken ∧ s.flush.2.acceptsAll = s.acceptsAll := by
  unfold flush
  split
  · exact ⟨rfl, rfl⟩
  · exact ⟨rfl, rfl⟩
  · next failsOnFlush hkind =>
    split_ifs with hfails
    · refine ⟨rfl, ?_⟩
      cases hf : s.failed <;> simp_all [acceptsAll]
    · exact ⟨rfl, rfl⟩

theorem flush_of_acceptsAll {s : Sink} (h : s.acceptsAll = true) : s.flush = (.ok (), s) := by
  unfold flush
  split
  · rfl
  · rfl
  · next failsOnFlush hkind =>
    have hfails : (s.failed || failsOnFlush) = false := by
      simp_all [acceptsAll]
    rw [hfails]
    rfl

/-! ## Sinks that change -/

/-- On what terms a sink takes writes. -/
structure Terms where
  kind : SinkKind
  /-- How many bytes it takes from now on; none is no limit. -/
  budget : Option Nat
  failed : Bool
  deriving Repr, DecidableEq

/-- The same sink on other terms. -/
def under (s : Sink) (terms : Terms) : Sink :=
  { s with kind := terms.kind, budget := terms.budget, failed := terms.failed }

end Sink

end CarSlice
