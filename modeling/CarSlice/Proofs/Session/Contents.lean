import CarSlice.Proofs.Archive.Shapes
import CarSlice.Proofs.Session.Demands
import CarSlice.Proofs.Session.Lockstep

/-!
# What a file holds does not matter

A session looks at the payload of a block only if the block may be a node of a file tree.  So over
two archives of the same shape it does the same, block by block, and tells the same of it.

* `sameShape`: readers of archives of the same shape are in lockstep as long as digests are not
  compared, and what the sessions write has the same lengths.
* `Handled.verdict` is what became of a block, and `verdicts_accountAll` says that sessions in
  lockstep come to the same verdicts.
* `contents_do_not_steer`: whatever is asked of two sessions over archives of the same shape, they
  decide, end, count and tell the same.
-/

namespace CarSlice

open Archive (Block Header Reader ReaderOptions SameShape)
open UnixFs (Content)

/-! ## Sinks -/

namespace Sink

/-- Two sinks that are told apart by nothing but the bytes of what they took. -/
def SameLengths (k k' : Sink) : Prop :=
  ∃ taken, k' = { k with taken } ∧ taken.map List.length = k.taken.map List.length

theorem SameLengths.flush {k k' : Sink} (h : k.SameLengths k') :
    k'.flush.1 = k.flush.1 ∧ k.flush.2.SameLengths k'.flush.2 := by
  obtain ⟨taken, rfl, hlengths⟩ := h
  rcases k with ⟨kind, budget, failed, took⟩
  unfold Sink.flush
  cases kind with
  | memory | guarded reason => exact ⟨rfl, taken, rfl, hlengths⟩
  | stream failsOnFlush =>
    dsimp only
    split
    · exact ⟨rfl, taken, rfl, hlengths⟩
    · exact ⟨rfl, taken, rfl, hlengths⟩

theorem SameLengths.take {k k' : Sink} (h : k.SameLengths k') {f f' : Bytes}
    (hf : f'.length = f.length) : (k.take f).SameLengths (k'.take f') := by
  obtain ⟨taken, rfl, hlengths⟩ := h
  refine ⟨f' :: taken, ?_, ?_⟩
  · simp only [Sink.take, hf]
  · show f'.length :: taken.map List.length = f.length :: k.taken.map List.length
    rw [hf, hlengths]

/-- Whether a sink takes a write depends on the length only. -/
theorem SameLengths.write {k k' : Sink} (h : k.SameLengths k') {f f' : Bytes}
    (hf : f'.length = f.length) :
    (k'.write f').1 = (k.write f).1 ∧ (k.write f).2.SameLengths (k'.write f').2 := by
  have htook := h.take hf
  obtain ⟨taken, rfl, hlengths⟩ := h
  have hfits : ({ k with taken } : Sink).fits f'.length = k.fits f.length := by
    rw [hf]
    rfl
  unfold Sink.write
  rw [hfits]
  rcases k with ⟨kind, budget, failed, took⟩
  cases kind with
  | memory => exact ⟨rfl, htook⟩
  | guarded reason | stream failsOnFlush =>
    dsimp only
    split
    · exact ⟨rfl, htook⟩
    · exact ⟨rfl, taken, rfl, hlengths⟩

end Sink

namespace Session

/-! ## Sessions over archives of the same shape -/

/-- Sinks that take writes of the same lengths. -/
def sameLengths : Coupling where
  sinks := Sink.SameLengths
  frames f f' := f'.length = f.length
  parted _ _ _ := False
  frames_refl _ := rfl
  length_eq h := h
  flush h := h.flush
  write h hf := Or.inl (h.write hf)
  grows h _ := h

theorem blocks_of_sameShape {b b' : Block} (h : b.SameShape b') : sameLengths.Blocks b b' :=
  ⟨h.cid, h.content, h.length_frame⟩

/-- Readers of archives of the same shape that do not compare digests. -/
def sameShape : Lockstep where
  toCoupling := sameLengths
  near r r' := ∃ bytes, r' = r.withUnread bytes ∧ r.Alike bytes
  loose r r' := ∃ bytes, r' = r.withUnread bytes
  near_stable := {
    close := by
      rintro r - ⟨bytes, rfl, h⟩
      exact ⟨bytes, rfl, h.unchecked, fun hopen => by cases hopen⟩
    bytesConsumed := by
      rintro r - ⟨bytes, rfl, -⟩
      rfl
    unverified := by
      rintro r - ⟨bytes, rfl, -⟩
      rfl }
  loose_stable := {
    close := by
      rintro r - ⟨bytes, rfl⟩
      exact ⟨bytes, rfl⟩
    bytesConsumed := by
      rintro r - ⟨bytes, rfl⟩
      rfl
    unverified := by
      rintro r - ⟨bytes, rfl⟩
      rfl }
  loose_of_near := by
    rintro r - ⟨bytes, rfl, -⟩
    exact ⟨bytes, rfl⟩
  readHeader := by
    rintro r - ⟨bytes, rfl, h⟩
    have hheads := h.readHeader
    generalize r.readHeader = x at hheads
    generalize (r.withUnread bytes).readHeader = y at hheads
    cases hheads with
    | failed e r₁ bytes' => exact ⟨rfl, ⟨bytes', rfl⟩, fun header hread => by cases hread⟩
    | @header header r₁ bytes' _ hafter =>
      exact ⟨rfl, ⟨bytes', rfl⟩, fun _ _ => ⟨bytes', rfl, hafter⟩⟩
  next := by
    rintro r - ⟨bytes, rfl, h⟩
    have hreads := h.next
    generalize r.next = x at hreads
    generalize (r.withUnread bytes).next = y at hreads
    cases hreads with
    | failed e r₁ bytes' => exact .failed e ⟨bytes', rfl⟩
    | ended r₁ bytes' => exact .ended ⟨bytes', rfl⟩
    | block hb hafter => exact .block (blocks_of_sameShape hb) ⟨_, rfl, hafter⟩

/-! ## Verdicts -/

/-- What became of a block, apart from what it holds. -/
def Handled.verdict (e : Handled) : Cid × Option Placement × Fate :=
  (e.block.cid, e.placement, e.fate)

end Session

namespace Lockstep

open Session (Handled Fate View)

variable {L : Lockstep} {s t : Session}

theorem rel_nextBlock? (h : L.Pairs L.near s t) :
    Option.Rel L.Blocks s.nextBlock? t.nextBlock? := by
  obtain ⟨reader, sink, rfl, hnear, -⟩ := h
  have hreads := L.next hnear
  have hreader : (s.across reader sink).reader = reader := rfl
  unfold Session.nextBlock?
  rw [hreader]
  generalize s.reader.next = x at hreads
  generalize reader.next = y at hreads
  cases hreads with
  | failed => exact .none
  | ended => exact .none
  | block hb => exact .some hb

theorem rel_firstBlock? (h : L.Pairs L.near s t) :
    Option.Rel (fun first first' => first'.1 = first.1 ∧ L.Blocks first.2 first'.2)
      s.firstBlock? t.firstBlock? := by
  obtain ⟨reader, sink, rfl, hnear, hsinks⟩ := h
  obtain ⟨hsame, -, hgoes⟩ := L.readHeader hnear
  have hreader : (s.across reader sink).reader = reader := rfl
  unfold Session.firstBlock?
  rw [hreader]
  rcases hread : s.reader.readHeader with ⟨result, r⟩
  rcases hread' : reader.readHeader with ⟨result', r'⟩
  rw [hread, hread'] at hsame hgoes
  obtain rfl : result' = result := hsame
  cases result' with
  | error e => exact .none
  | ok header =>
    have hpairs : L.Pairs L.near { s with reader := r }
        { s.across reader sink with reader := r' } :=
      ⟨r', sink, rfl, hgoes header rfl, hsinks⟩
    have hnext := rel_nextBlock? hpairs
    dsimp only
    generalize ({ s with reader := r } : Session).nextBlock? = x at hnext
    generalize ({ s.across reader sink with reader := r' } : Session).nextBlock? = y at hnext
    cases hnext with
    | none => exact .none
    | some hb => exact .some ⟨rfl, hb⟩

theorem placementOf?_eq (h : L.Pairs L.loose s t) {b b' : Block} (hb : L.Blocks b b') :
    t.view.placementOf? b' = s.view.placementOf? b := by
  obtain ⟨reader, sink, rfl, -, -⟩ := h
  unfold Session.View.placementOf?
  rw [hb.content]
  rfl

theorem placeRoot_eq (h : L.Pairs L.loose s t) (header : Header) {b b' : Block}
    (hb : L.Blocks b b') : t.placeRoot header b' = s.placeRoot header b := by
  obtain ⟨reader, sink, rfl, -, -⟩ := h
  unfold Session.placeRoot
  rw [hb.cid, hb.content]
  rfl

theorem between_eq {s' t' : Session} (h : L.Pairs L.loose s t) (h' : L.Pairs L.loose s' t') :
    Fate.between t.view t'.view = Fate.between s.view s'.view := by
  obtain ⟨reader, sink, rfl, -, -⟩ := h
  obtain ⟨reader', sink', rfl, -, -⟩ := h'
  rfl

/-- A root and its placement, where an archive begins. -/
theorem firstBlock?_eq (h : L.Pairs L.near s t) :
    (t.firstBlock?.map fun (header, block) => (block, some (t.placeRoot header block).1)).map
        (fun (block, placement) => (block.cid, placement)) =
      (s.firstBlock?.map fun (header, block) => (block, some (s.placeRoot header block).1)).map
        (fun (block, placement) => (block.cid, placement)) := by
  have hfirst := rel_firstBlock? h
  have hloose := pairs_loose h
  generalize s.firstBlock? = x at hfirst
  generalize t.firstBlock? = y at hfirst
  cases hfirst with
  | none => rfl
  | @some first first' hboth =>
    obtain ⟨header, b⟩ := first
    obtain ⟨header', b'⟩ := first'
    obtain ⟨rfl, hb⟩ := hboth
    have hb : L.Blocks b b' := hb
    simp [hb.cid, placeRoot_eq hloose header' hb]

/-- The blocks that come next have the same CID and the same placement. -/
theorem incoming?_eq (h : L.InStep s t) :
    t.incoming?.map (fun (block, placement) => (block.cid, placement)) =
      s.incoming?.map (fun (block, placement) => (block.cid, placement)) := by
  have hflags : t.finished = s.finished ∧ t.cancelRequested = s.cancelRequested ∧
      t.started = s.started := by
    obtain ⟨reader, sink, rfl, -, -⟩ := h.pairs
    exact ⟨rfl, rfl, rfl⟩
  obtain ⟨hfinished, hcancelled, hstarted⟩ := hflags
  unfold Session.incoming?
  rw [hfinished, hcancelled, hstarted]
  split
  · rfl
  · next hgoes =>
    have hf : s.finished = false := by
      simp only [Bool.or_eq_true, not_or, Bool.not_eq_true] at hgoes
      exact hgoes.1
    have hnear := h.near hf
    have hloose := pairs_loose hnear
    split
    · have hnext := rel_nextBlock? hnear
      generalize s.nextBlock? = x at hnext
      generalize t.nextBlock? = y at hnext
      cases hnext with
      | none => rfl
      | some hb => simp [hb.cid, placementOf?_eq hloose hb]
    · exact firstBlock?_eq hnear

/-- Where what comes next has the same CIDs and placements, and the counts change in the same way,
the verdicts are the same. -/
theorem verdicts_eq {coming coming' : Option (Block × Option Placement)} {fate fate' : Fate}
    (hcoming : coming'.map (fun (block, placement) => (block.cid, placement)) =
      coming.map (fun (block, placement) => (block.cid, placement))) (hfate : fate' = fate) :
    (coming'.toList.map fun (block, placement) => Handled.mk block placement fate').map
        Handled.verdict =
      (coming.toList.map fun (block, placement) => Handled.mk block placement fate).map
        Handled.verdict := by
  subst hfate
  cases coming with
  | none =>
    cases coming' with
    | none => rfl
    | some next' => cases hcoming
  | some next =>
    cases coming' with
    | none => cases hcoming
    | some next' =>
      obtain ⟨block, placement⟩ := next
      obtain ⟨block', placement'⟩ := next'
      simp only [Option.map_some, Option.some.injEq, Prod.mk.injEq] at hcoming
      simp [Handled.verdict, hcoming.1, hcoming.2]

section

variable (h : L.InStep s t) (hnever : ∀ k e k', ¬L.parted k e k')

include h hnever

theorem verdicts_handled : t.handled.map Handled.verdict = s.handled.map Handled.verdict := by
  have hafter := ((steps_step h).result hnever).2
  exact verdicts_eq (incoming?_eq h) (between_eq h.pairs hafter.pairs)

theorem verdicts_opening : t.opening.map Handled.verdict = s.opening.map Handled.verdict := by
  have hafter := ((steps_start h).result hnever).2
  have hfate := between_eq h.pairs hafter.pairs
  have hstarted : t.started = s.started := by
    obtain ⟨reader, sink, rfl, -, -⟩ := h.pairs
    rfl
  unfold Session.opening
  rw [hstarted]
  split
  · rfl
  · next hs =>
    have hnear : L.Pairs L.near s t := by
      rcases h with hnear | ⟨-, hbegun, -⟩
      · exact hnear
      · exact absurd hbegun hs
    have hplaced (u : Session) (fate : Fate) :
        (u.firstBlock?.toList.map fun (header, block) =>
            Handled.mk block (some (u.placeRoot header block).1) fate) =
          (u.firstBlock?.map fun (header, block) =>
            (block, some (u.placeRoot header block).1)).toList.map fun (block, placement) =>
              Handled.mk block placement fate := by
      cases u.firstBlock? with
      | none => rfl
      | some first => rfl
    rw [hplaced, hplaced]
    exact verdicts_eq (firstBlock?_eq hnear) hfate

theorem verdicts_journal : t.journal.map Handled.verdict = s.journal.map Handled.verdict := by
  have hhandled := verdicts_handled h hnever
  obtain ⟨hsame, hafter⟩ := (steps_step h).result hnever
  fun_induction Session.journal s generalizing t with
  | case1 s s' hstep ih =>
    rw [hstep] at hsame hafter
    rw [Session.journal_of_step hsame, if_pos rfl, List.map_append, List.map_append, hhandled]
    obtain ⟨hsame', hafter'⟩ := (steps_step hafter).result hnever
    rw [ih hafter (verdicts_handled hafter hnever) hsame' hafter']
  | case2 s hnot =>
    have hstops : t.journal = t.handled := by
      rw [Session.journal]
      split
      · next t' hstep' =>
        rw [hstep'] at hsame
        exact (hnot s.step.2 (Prod.ext hsame.symm rfl)).elim
      · rfl
    rw [hstops, hhandled]

theorem verdicts_account (d : Session.Demand) :
    (t.account d).map Handled.verdict = (s.account d).map Handled.verdict := by
  cases d with
  | start => exact verdicts_opening h hnever
  | step => exact verdicts_handled h hnever
  | run => exact verdicts_journal h hnever
  | cancel => rfl

theorem verdicts_accountAll (demands : List Session.Demand) :
    (t.accountAll demands).map Handled.verdict = (s.accountAll demands).map Handled.verdict := by
  induction demands generalizing s t with
  | nil => rfl
  | cons d demands ih =>
    have hserved := (serve_inStep h hnever d).2
    rw [Session.accountAll, Session.accountAll, List.map_append, List.map_append,
      verdicts_account h hnever d, ih hserved]

end

end Lockstep

namespace Session

/-- Whatever a source and a sink do and whatever is asked for, for two archives with the same header
and with the same lengths and CIDs section by section, and the same payloads where the codec is
dag-pb: as long as digests are not compared, every row of demands has the same replies over both,
the same blocks are handled with the same placements and fates, and afterwards the two sessions are
in the same phase, have counted the same and said the same, and their writes have the same lengths.
So nothing depends on what is in the other payloads, and nothing tells of it. -/
theorem contents_do_not_steer (device : Device) {bytes bytes' : Bytes}
    (hshape : SameShape bytes bytes') (sink : Sink) (request : ByteRange) (options : ReaderOptions)
    (hoff : options.verifyDigests = false) (retains : Bool) (demands : List Demand) :
    let s := new { device, unread := bytes } sink request options retains
    let s' := new { device, unread := bytes' } sink request options retains
    let after := (s.serveAll demands).2
    let after' := (s'.serveAll demands).2
    (s'.serveAll demands).1 = (s.serveAll demands).1 ∧
      (s'.accountAll demands).map Handled.verdict = (s.accountAll demands).map Handled.verdict ∧
      after'.phase = after.phase ∧ after'.finished = after.finished ∧
      after'.stats = after.stats ∧ after'.published = after.published ∧
      after'.sink.writes.map List.length = after.sink.writes.map List.length := by
  intro s s' after after'
  have hinStep : sameShape.InStep s s' :=
    Or.inl ⟨s'.reader, sink, rfl, ⟨bytes', rfl, hoff, fun _ => Or.inl ⟨rfl, hshape⟩⟩,
      sink.taken, rfl, rfl⟩
  have hnever (k : Sink) (e : Error) (k' : Sink) : ¬sameShape.parted k e k' := fun h => h
  obtain ⟨hreplies, hafter⟩ := Lockstep.serveAll_inStep hinStep hnever demands
  refine ⟨hreplies, Lockstep.verdicts_accountAll hinStep hnever demands, ?_⟩
  obtain ⟨reader, k, hacross, -, taken, rfl, hlengths⟩ := hafter.pairs
  have hacross : after' = after.across reader { after.sink with taken } := hacross
  rw [hacross]
  refine ⟨rfl, rfl, rfl, rfl, ?_⟩
  show taken.reverse.map List.length = after.sink.taken.reverse.map List.length
  rw [List.map_reverse, List.map_reverse, hlengths]

/-- The leaves of a file of five bytes hold other bytes.  The session drops the first leaf and
writes the second one as before, and tells the same, but the output is another. -/
theorem other_leaves_are_treated_alike :
    let nodeCid := Cid.make 1 Codec.dagPb 0 []
    let body := Header.encodeBody [nodeCid.bytes] 1
    let header : Header := { version := 1, roots := [nodeCid], frame := 25 :: body }
    let root : Block :=
      { lengthBytes := [20], cid := nodeCid
        payload := [0x12, 0x02, 0x0a, 0x00, 0x12, 0x02, 0x0a, 0x00, 0x0a, 0x06, 0x08, 0x02, 0x20,
          0x02, 0x20, 0x03] }
    let leaf (length : UInt8) (payload : Bytes) : Block :=
      { lengthBytes := [length], cid := Cid.make 1 Codec.raw 0 [], payload }
    let archive (first second : Block) :=
      header.frame ++ (root.frame ++ (first.frame ++ (second.frame ++ [])))
    let bytes := archive (leaf 6 [0x61, 0x62]) (leaf 7 [0x63, 0x64, 0x65])
    let bytes' := archive (leaf 6 [0x12, 0x02]) (leaf 7 [0x0a, 0x00, 0xff])
    let s := new (.ofMemory bytes 0) .unlimited (.openEnded 2) {} false
    let s' := new (.ofMemory bytes' 0) .unlimited (.openEnded 2) {} false
    SameShape bytes bytes' ∧ s'.run.2.sink.output ≠ s.run.2.sink.output ∧
      s.journal.map (·.fate) = [.written, .dropped, .written] ∧
      s'.journal.map Handled.verdict = s.journal.map Handled.verdict ∧
      s'.run.2.stats = s.run.2.stats ∧ s'.run.2.published = s.run.2.published := by
  intro nodeCid body header root leaf archive bytes bytes' s s'
  have hheader : header.Readable 25 :=
    ⟨[25], body, { header with frame := [] }, by decide +kernel, by decide +kernel,
      by decide +kernel, rfl⟩
  have hroot : root.Readable 20 := ⟨by decide +kernel, by decide +kernel, by decide +kernel⟩
  have hfirst : (leaf 6 [0x61, 0x62]).SameShape (leaf 6 [0x12, 0x02]) :=
    ⟨⟨6, by decide +kernel, by decide +kernel, by decide +kernel⟩,
      ⟨6, by decide +kernel, by decide +kernel, by decide +kernel⟩, rfl, rfl,
      fun hcodec => absurd hcodec (by decide)⟩
  have hsecond : (leaf 7 [0x63, 0x64, 0x65]).SameShape (leaf 7 [0x0a, 0x00, 0xff]) :=
    ⟨⟨7, by decide +kernel, by decide +kernel, by decide +kernel⟩,
      ⟨7, by decide +kernel, by decide +kernel, by decide +kernel⟩, rfl, rfl,
      fun hcodec => absurd hcodec (by decide)⟩
  have hshape : SameShape bytes bytes' :=
    .header ⟨25, hheader⟩ (.block hroot.sameShape (.block hfirst (.block hsecond (.same []))))
  obtain ⟨-, hverdicts, -, -, hstats, hpublished, -⟩ :=
    contents_do_not_steer (.memory 0) hshape .unlimited (.openEnded 2) {} rfl false [.run]
  refine ⟨hshape, by decide +kernel, by decide +kernel, ?_, hstats, hpublished⟩
  rw [← List.append_nil s.journal, ← List.append_nil s'.journal]
  exact hverdicts

end Session

end CarSlice
