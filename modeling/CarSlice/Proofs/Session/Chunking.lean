import CarSlice.Proofs.Archive.Chunking
import CarSlice.Proofs.Session.Lockstep

/-!
# Sessions over any device

A session sees its source through its reader only, so it cannot tell either in which pieces
the bytes come.

* `Session.onDevice` puts another device under a session, and `overDevice` says that the readers
  of the two sessions read alike.
* `Session.Matched` compares what a session does with what it does over another device
  (`matched_serveAll`).
* `chunks_do_not_matter`: rows of calls to a reader, and of demands on a session, look the same
  over memory of any chunk size, over memory without one, and over a stream.
-/

namespace CarSlice

open Archive (Block Header Reader ReaderOptions)

namespace Session

/-- The same session over another device. -/
def onDevice (s : Session) (device : Device) (calls : Nat) : Session :=
  { s with reader := s.reader.onDevice device calls }

theorem stableUnder_onDevice (device : Device) : StableUnder fun r r' =>
    r.source.Reliable ∧ ∃ calls, r' = r.onDevice device calls where
  close := by
    rintro r - ⟨h, calls, rfl⟩
    exact ⟨h, calls, rfl⟩
  bytesConsumed := by
    rintro r - ⟨-, calls, rfl⟩
    rfl
  unverified := by
    rintro r - ⟨-, calls, rfl⟩
    rfl

/-! ## Two devices -/

/-- Readers of the same bytes, the second one over another device. -/
def overDevice (device : Device) (hdevice : device ≠ .stream true) : Lockstep where
  toCoupling := .same
  near r r' := r.source.Reliable ∧ ∃ calls, r' = r.onDevice device calls
  loose r r' := r.source.Reliable ∧ ∃ calls, r' = r.onDevice device calls
  near_stable := stableUnder_onDevice device
  loose_stable := stableUnder_onDevice device
  loose_of_near h := h
  readHeader := by
    rintro r - ⟨h, calls, rfl⟩
    obtain ⟨hreliable, calls', hright⟩ := Reader.matched_readHeader h hdevice calls
    rw [hright]
    exact ⟨rfl, ⟨hreliable, calls', rfl⟩, fun _ _ => ⟨hreliable, calls', rfl⟩⟩
  next := by
    rintro r - ⟨h, calls, rfl⟩
    obtain ⟨hreliable, calls', hright⟩ := Reader.matched_next h hdevice calls
    rw [hright]
    generalize r.next = x at hreliable
    rcases x with ⟨e | _ | b, r₁⟩
    · exact .failed e ⟨hreliable, calls', rfl⟩
    · exact .ended ⟨hreliable, calls', rfl⟩
    · exact .block (Coupling.blocks_refl _ b) ⟨hreliable, calls', rfl⟩

/-- What came of a session, and of the same session over another device. -/
def Matched {α : Type} (device : Device) (x y : α × Session) : Prop :=
  x.2.source.Reliable ∧ ∃ calls, y = (x.1, x.2.onDevice device calls)

/-- Every row of demands has the same replies over another device. -/
theorem matched_serveAll {s : Session} {device : Device} (h : s.source.Reliable)
    (hdevice : device ≠ .stream true) (calls : Nat) (demands : List Demand) :
    Matched device (s.serveAll demands) ((s.onDevice device calls).serveAll demands) := by
  have hinStep : (overDevice device hdevice).InStep s (s.onDevice device calls) :=
    Or.inl ⟨s.reader.onDevice device calls, s.sink, rfl, ⟨h, calls, rfl⟩, rfl⟩
  obtain ⟨hreplies, hserved⟩ := Lockstep.serveAll_inStep hinStep (fun _ _ _ hnever => hnever) demands
  obtain ⟨reader, sink, hafter, ⟨hreliable, calls', rfl⟩, rfl⟩ := hserved.pairs
  exact ⟨hreliable, calls', Prod.ext hreplies hafter⟩

/-- The session, whatever device is under it. -/
def plain (s : Session) : Session :=
  s.onDevice (.memory 0) 0

/-- How a source hands out its bytes does not matter, as long as its device does not break.
Memory with any limit on a read, memory without one and a stream of the same bytes give the
same answers to every row of calls to a reader, and leave the same reader but for the device
and the count of its reads.  Likewise for every row of demands on a session: the replies are
the same, and so are what was published, what was written, all counts, and everything else of
the session behind them.  The first part of a row is a row as well, so this holds after each
call and each demand. -/
theorem chunks_do_not_matter (bytes : Bytes) (supply : Source.Supply) (options : ReaderOptions) :
    (∀ row : List Reader.Call,
      let seen (source : Source) := Reader.perform { source := source, options := options } row
      (seen (supply.source bytes)).1 = (seen (.ofMemory bytes 0)).1 ∧
        (seen (supply.source bytes)).2.plain = (seen (.ofMemory bytes 0)).2.plain) ∧
      ∀ (sink : Sink) (request : ByteRange) (retains : Bool) (demands : List Demand),
        let seen (source : Source) := (new source sink request options retains).serveAll demands
        (seen (supply.source bytes)).1 = (seen (.ofMemory bytes 0)).1 ∧
          (seen (supply.source bytes)).2.plain = (seen (.ofMemory bytes 0)).2.plain := by
  have hwhole : (Source.ofMemory bytes 0).Reliable := Source.reliable_ofMemory bytes 0
  have hdevice := supply.device_ne
  constructor
  · intro row seen
    let r : Reader := { source := .ofMemory bytes 0, options := options }
    have hreliable : r.source.Reliable := hwhole
    obtain ⟨-, calls, hrow⟩ := Reader.matched_perform hreliable hdevice 0 row
    have hseen : seen ((Source.ofMemory bytes 0).onDevice supply.device 0) = _ := hrow
    rw [supply.source_eq, hseen]
    exact ⟨rfl, rfl⟩
  · intro sink request retains demands seen
    have hreliable : (new (.ofMemory bytes 0) sink request options retains).source.Reliable :=
      hwhole
    obtain ⟨-, calls, hrow⟩ := matched_serveAll hreliable hdevice 0 demands
    have hseen : seen ((Source.ofMemory bytes 0).onDevice supply.device 0) = _ := hrow
    rw [supply.source_eq, hseen]
    exact ⟨rfl, rfl⟩

end Session

end CarSlice
