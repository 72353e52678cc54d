import CarSlice.Proofs.Session.Coupling
import CarSlice.Proofs.Session.Journal

/-!
# Sessions in lockstep

Where the readers of two sessions that differ in nothing else that matters read alike, the sessions
go on alike: step by step, over whole runs, and whatever a caller asks of them.

* `Lockstep` adds to a `Coupling` which readers read alike (`near`), and what is left of that
  behind a failure or an end (`loose`).
* `Lockstep.InStep`: two sessions are alike and will read alike, or they have ended.
* `Lockstep.Steps` says that two functions come to the same and leave sessions in step, or that the
  second one was refused a write.  `steps_start`, `steps_step` and `steps_run` say so of what a
  caller can ask for.
* `Demand` is what a caller asks of a session, and `serveAll` meets a row of demands.  Where no
  write is refused to one session alone, the replies to every row are the same
  (`serveAll_inStep`).
-/

namespace CarSlice

open Archive (Block Header Reader)

namespace Session

/-! ## Demands -/

/-- What a caller may ask of a session. -/
inductive Demand where
  | start
  | step
  | run
  | cancel
  deriving Repr, DecidableEq

/-- What a session answers. -/
inductive Reply where
  | done (result : Except Error Unit)
  /-- Whether there is more to do. -/
  | more (result : Except Error Bool)

/-- Meets a demand. -/
def serve (s : Session) : Demand → Reply × Session
  | .start => (.done s.start.1, s.start.2)
  | .step => (.more s.step.1, s.step.2)
  | .run => (.done s.run.1, s.run.2)
  | .cancel => (.done (.ok ()), s.cancel)

/-- Meets a row of demands. -/
def serveAll (s : Session) : List Demand → List Reply × Session
  | [] => ([], s)
  | d :: demands =>
    ((s.serve d).1 :: ((s.serve d).2.serveAll demands).1, ((s.serve d).2.serveAll demands).2)

theorem run_eq (s : Session) : s.run = match s.step with
    | (.error e, s) => (.error e, s)
    | (.ok false, s) => (.ok (), s)
    | (.ok true, s) => s.run := by
  rw [run]
  split
  · next hstep => rw [hstep]
  · next hstep => rw [hstep]
  · next hstep => rw [hstep]

end Session

/-! ## Readers that read alike -/

/-- What is read by two readers that read alike. -/
inductive Coupling.Reads (C : Coupling) (near loose : Reader → Reader → Prop) :
    Except Error (Option Block) × Reader → Except Error (Option Block) × Reader → Prop where
  | failed (e : Error) {r r' : Reader} (h : loose r r') : Reads C near loose (.error e, r) (.error e, r')
  | ended {r r' : Reader} (h : loose r r') : Reads C near loose (.ok none, r) (.ok none, r')
  | block {b b' : Block} {r r' : Reader} (hb : C.Blocks b b') (h : near r r') :
      Reads C near loose (.ok (some b), r) (.ok (some b'), r')

/-- Readers that read alike, beside what sinks and frames may differ in. -/
structure Lockstep extends Coupling where
  /-- Readers that read alike from here on. -/
  near : Reader → Reader → Prop
  /-- What is left of that behind a failure or an end. -/
  loose : Reader → Reader → Prop
  near_stable : StableUnder near
  loose_stable : StableUnder loose
  loose_of_near {r r' : Reader} : near r r' → loose r r'
  readHeader {r r' : Reader} : near r r' → r'.readHeader.1 = r.readHeader.1 ∧
    loose r.readHeader.2 r'.readHeader.2 ∧
      ∀ header, r.readHeader.1 = .ok header → near r.readHeader.2 r'.readHeader.2
  next {r r' : Reader} : near r r' → toCoupling.Reads near loose r.next r'.next

namespace Lockstep

theorem readHeader_same {r r' : Reader} (h : r' = r) : r'.readHeader.1 = r.readHeader.1 ∧
    r'.readHeader.2 = r.readHeader.2 ∧
      ∀ header, r.readHeader.1 = .ok header → r'.readHeader.2 = r.readHeader.2 := by
  subst h
  exact ⟨rfl, rfl, fun _ _ => rfl⟩

theorem reads_same (C : Coupling) {r r' : Reader} (h : r' = r) :
    C.Reads (fun r r' => r' = r) (fun r r' => r' = r) r.next r'.next := by
  subst h
  rcases r'.next with ⟨e | _ | b, r₁⟩
  · exact .failed e rfl
  · exact .ended rfl
  · exact .block (C.blocks_refl b) rfl

/-- The same reader. -/
def same : Lockstep where
  toCoupling := .same
  near r r' := r' = r
  loose r r' := r' = r
  near_stable := stableUnder_same
  loose_stable := stableUnder_same
  loose_of_near h := h
  readHeader h := readHeader_same h
  next h := reads_same _ h

open Coupling (Pairs Follows)

/-- Two sessions that are alike and will read alike, or have ended alike. -/
def InStep (L : Lockstep) (s t : Session) : Prop :=
  L.Pairs L.near s t ∨ L.Pairs L.loose s t ∧ s.started = true ∧ s.finished = true

/-- What came of two sessions: the same, and they are still in step, or the second one was refused
a write. -/
structure Steps (L : Lockstep) {α : Type} (s : Session) (x y : Except Error α × Session) :
    Prop where
  grows : s.sink.taken <:+ x.2.sink.taken
  follows : y.1 = x.1 ∧ L.InStep x.2 y.2 ∨
    ∃ e, y.1 = .error e ∧ L.parted x.2.sink e y.2.sink

/-- What came of two sessions that are going to end if they have failed. -/
structure Moves (L : Lockstep) (s : Session) (x y : Except Error Unit × Session) : Prop where
  grows : s.sink.taken <:+ x.2.sink.taken
  follows : y.1 = x.1 ∧ (L.Pairs L.near x.2 y.2 ∨
      L.Pairs L.loose x.2 y.2 ∧ x.2.started = true ∧ (x.1 = .ok () → x.2.finished = true)) ∨
    ∃ e, y.1 = .error e ∧ L.parted x.2.sink e y.2.sink

section

variable {L : Lockstep} {s t : Session}

theorem pairs_loose (h : L.Pairs L.near s t) : L.Pairs L.loose s t := by
  obtain ⟨reader, sink, hacross, hnear, hsinks⟩ := h
  exact ⟨reader, sink, hacross, L.loose_of_near hnear, hsinks⟩

theorem InStep.pairs (h : L.InStep s t) : L.Pairs L.loose s t := by
  rcases h with hnear | ⟨hloose, -⟩
  · exact pairs_loose hnear
  · exact hloose

theorem moves_of_near {x y : Except Error Unit × Session} (h : L.Follows L.near s x y) :
    L.Moves s x y := by
  refine ⟨h.grows, ?_⟩
  rcases h.follows with ⟨hsame, hnear⟩ | hparted
  · exact Or.inl ⟨hsame, Or.inl hnear⟩
  · exact Or.inr hparted

/-- Where nothing more comes, it is enough that the sessions have ended. -/
theorem moves_of_loose {x y : Except Error Unit × Session} (h : L.Follows L.loose s x y)
    (hstarted : x.2.started = true) (hfinished : x.1 = .ok () → x.2.finished = true) :
    L.Moves s x y := by
  refine ⟨h.grows, ?_⟩
  rcases h.follows with ⟨hsame, hloose⟩ | hparted
  · exact Or.inl ⟨hsame, Or.inr ⟨hloose, hstarted, hfinished⟩⟩
  · exact Or.inr hparted

theorem Moves.after {u : Session} {x y : Except Error Unit × Session} (h : L.Moves s x y)
    (hgrows : u.sink.taken <:+ s.sink.taken) : L.Moves u x y :=
  ⟨hgrows.trans h.grows, h.follows⟩

/-- A failure ends both sessions. -/
theorem Moves.concluded {x y : Except Error Unit × Session} (h : L.Moves s x y) :
    L.Steps s (Session.concluded x) (Session.concluded y) ∧
      L.Steps s (x.1, (Session.concluded x).2) (y.1, (Session.concluded y).2) := by
  have hsink (z : Except Error Unit × Session) : (Session.concluded z).2.sink = z.2.sink := by
    rcases z with ⟨⟨e⟩ | ⟨⟩, s₁⟩
    · rfl
    · rfl
  have hgrows : s.sink.taken <:+ (Session.concluded x).2.sink.taken := hsink x ▸ h.grows
  rcases h.follows with ⟨hsame, hpairs⟩ | ⟨e, herror, hparted⟩
  · rcases x with ⟨result, s₁⟩
    rcases y with ⟨result', t₁⟩
    obtain rfl : result' = result := hsame
    have hstep : (Session.concluded (result', t₁)).1 = (Session.concluded (result', s₁)).1 ∧
        L.InStep (Session.concluded (result', s₁)).2 (Session.concluded (result', t₁)).2 := by
      cases result' with
      | error e =>
        refine ⟨rfl, ?_⟩
        rcases hpairs with hnear | ⟨hloose, hstarted, -⟩
        · exact Or.inl (hnear.fail L.near_stable e)
        · exact Or.inr ⟨hloose.fail L.loose_stable e, hstarted, rfl⟩
      | ok _ =>
        refine ⟨?_, ?_⟩
        · have hfinished : t₁.finished = s₁.finished := by
            have hpairs : L.Pairs L.loose s₁ t₁ := by
              rcases hpairs with hnear | ⟨hloose, -⟩
              · exact pairs_loose hnear
              · exact hloose
            obtain ⟨reader, sink, rfl, -, -⟩ := hpairs
            rfl
          exact congrArg (fun finished => Except.ok (!finished)) hfinished
        · rcases hpairs with hnear | ⟨hloose, hstarted, hfinished⟩
          · exact Or.inl hnear
          · exact Or.inr ⟨hloose, hstarted, hfinished rfl⟩
    exact ⟨⟨hgrows, Or.inl hstep⟩, ⟨hgrows, Or.inl ⟨rfl, hstep.2⟩⟩⟩
  · have hparted : L.parted (Session.concluded x).2.sink e (Session.concluded y).2.sink := by
      rw [hsink, hsink]
      exact hparted
    rcases y with ⟨result, t₁⟩
    obtain rfl : result = .error e := herror
    exact ⟨⟨hgrows, Or.inr ⟨e, rfl, hparted⟩⟩, ⟨hgrows, Or.inr ⟨e, rfl, hparted⟩⟩⟩

/-! ## What reads -/

/-- What two sessions that read alike have read. -/
inductive Took (L : Lockstep) (s : Session) :
    Except Error (Option Block) × Session → Except Error (Option Block) × Session → Prop where
  | failed (e : Error) (s₁ t₁ : Session) (h : L.Pairs L.loose s₁ t₁)
      (hsink : s₁.sink = s.sink) (hstarted : s₁.started = s.started) :
      Took L s (.error e, s₁) (.error e, t₁)
  | ended (s₁ t₁ : Session) (h : L.Pairs L.loose s₁ t₁) (hsink : s₁.sink = s.sink)
      (hstarted : s₁.started = s.started) : Took L s (.ok none, s₁) (.ok none, t₁)
  | block (b b' : Block) (s₁ t₁ : Session) (hb : L.Blocks b b') (h : L.Pairs L.near s₁ t₁)
      (hsink : s₁.sink = s.sink) : Took L s (.ok (some b), s₁) (.ok (some b'), t₁)

theorem took_readBlock (h : L.Pairs L.near s t) : L.Took s s.readBlock t.readBlock := by
  obtain ⟨reader, sink, rfl, hnear, hsinks⟩ := h
  have hunverified := L.near_stable.unverified hnear
  have hreads := L.next hnear
  have hreader : (s.across reader sink).reader = reader := rfl
  unfold Session.readBlock
  rw [hreader]
  generalize s.reader.next = x at hreads
  generalize reader.next = y at hreads
  cases hreads with
  | failed e hloose => exact .failed e _ _ ⟨_, sink, rfl, hloose, hsinks⟩ rfl rfl
  | ended hloose => exact .ended _ _ ⟨_, sink, rfl, hloose, hsinks⟩ rfl rfl
  | @block b b' r r' hb hnear' =>
    have hevent : Session.unverifiedEvent b' = Session.unverifiedEvent b := by
      simp only [Session.unverifiedEvent, hb.cid]
    dsimp only
    rw [hevent, L.near_stable.unverified hnear', hunverified]
    split
    · exact .block b b' _ _ hb ⟨r', sink, rfl, hnear', hsinks⟩ rfl
    · exact .block b b' _ _ hb ⟨r', sink, rfl, hnear', hsinks⟩ rfl

theorem moves_advance (h : L.Pairs L.near s t) (hs : s.started = true) :
    L.Moves s s.advance t.advance := by
  have htook := took_readBlock h
  unfold Session.advance
  generalize s.readBlock = x at htook
  generalize t.readBlock = y at htook
  cases htook with
  | failed e s₁ t₁ hloose hsink hstarted =>
    refine ⟨hsink ▸ List.suffix_rfl, Or.inl ⟨rfl, Or.inr ⟨hloose, hstarted.trans hs, ?_⟩⟩⟩
    intro hok
    cases hok
  | ended s₁ t₁ hloose hsink hstarted =>
    have hends := Coupling.follows_endOfArchive L.loose_stable hloose
    have hkept : s₁.endOfArchive.2.started = s₁.started :=
      congrArg Session.View.started s₁.view_endOfArchive
    exact (moves_of_loose hends (hkept.trans (hstarted.trans hs))
      fun _ => s₁.finished_endOfArchive).after (hsink ▸ List.suffix_rfl)
  | block b b' s₁ t₁ hb hnear hsink =>
    exact (moves_of_near (Coupling.follows_processBlock L.near_stable hnear hb)).after
      (hsink ▸ List.suffix_rfl)

theorem ends_beginEmpty (s : Session) (header : Header) :
    (s.beginEmpty header).2.started = s.started ∧
      ((s.beginEmpty header).1 = .ok () → (s.beginEmpty header).2.finished = true) := by
  unfold Session.beginEmpty
  have hkept : (s.passThrough.writeHeader header).2.started = s.started := rfl
  rcases hw : s.passThrough.writeHeader header with ⟨⟨e⟩ | ⟨⟩, s₁⟩
  · rw [hw] at hkept
    refine ⟨hkept, fun hok => ?_⟩
    cases hok
  · rw [hw] at hkept
    have hfinish : s₁.warnEmpty.finish.2.started = s₁.started :=
      congrArg Session.View.started s₁.warnEmpty.view_finish
    exact ⟨hfinish.trans hkept, fun _ => s₁.warnEmpty.finished_finish⟩

theorem moves_begin (h : L.Pairs L.near s t) (hs : s.started = true) :
    L.Moves s s.begin t.begin := by
  obtain ⟨reader, sink, rfl, hnear, hsinks⟩ := h
  obtain ⟨hsame, hloose, hgoes⟩ := L.readHeader hnear
  have hreader : (s.across reader sink).reader = reader := rfl
  unfold Session.begin
  rw [hreader]
  rcases hread : s.reader.readHeader with ⟨result, r⟩
  rcases hread' : reader.readHeader with ⟨result', r'⟩
  rw [hread, hread'] at hsame hloose
  rw [hread, hread'] at hgoes
  obtain rfl : result' = result := hsame
  cases result' with
  | error e =>
    refine ⟨List.suffix_rfl, Or.inl ⟨rfl, Or.inr ⟨⟨r', sink, rfl, hloose, hsinks⟩, hs, ?_⟩⟩⟩
    intro hok
    cases hok
  | ok header =>
    have hpairs : L.Pairs L.near { s with reader := r }
        { s.across reader sink with reader := r' } :=
      ⟨r', sink, rfl, hgoes header rfl, hsinks⟩
    have htook := took_readBlock hpairs
    dsimp only
    generalize ({ s with reader := r } : Session).readBlock = x at htook
    generalize ({ s.across reader sink with reader := r' } : Session).readBlock = y at htook
    cases htook with
    | failed e s₁ t₁ hloose hsink hstarted =>
      refine ⟨hsink ▸ List.suffix_rfl, Or.inl ⟨rfl, Or.inr ⟨hloose, hstarted.trans hs, ?_⟩⟩⟩
      intro hok
      cases hok
    | ended s₁ t₁ hloose hsink hstarted =>
      obtain ⟨hkept, hends⟩ := ends_beginEmpty s₁ header
      have hempty := Coupling.follows_beginEmpty L.loose_stable hloose header
      exact (moves_of_loose hempty (hkept.trans (hstarted.trans hs)) hends).after
        (hsink ▸ List.suffix_rfl)
    | block b b' s₁ t₁ hb hnear hsink =>
      exact (moves_of_near (Coupling.follows_processRoot L.near_stable hnear header hb)).after
        (hsink ▸ List.suffix_rfl)

/-! ## Starts, steps and runs -/

theorem InStep.steps {α : Type} (h : L.InStep s t) (result : Except Error α) :
    L.Steps s (result, s) (result, t) :=
  ⟨List.suffix_rfl, Or.inl ⟨rfl, h⟩⟩

/-- Sessions in step that go on will read alike. -/
theorem InStep.near (h : L.InStep s t) (hf : s.finished = false) : L.Pairs L.near s t := by
  rcases h with hnear | ⟨-, -, hfinished⟩
  · exact hnear
  · rw [hf] at hfinished
    cases hfinished

theorem moves_first (h : L.Pairs L.near s t) :
    L.Moves s { s with started := true }.begin { t with started := true }.begin := by
  obtain ⟨reader, sink, rfl, hnear, hsinks⟩ := h
  have hpairs : L.Pairs L.near { s with started := true }
      { s.across reader sink with started := true } := ⟨reader, sink, rfl, hnear, hsinks⟩
  exact (moves_begin hpairs rfl).after List.suffix_rfl

theorem steps_start (h : L.InStep s t) : L.Steps s s.start t.start := by
  have hstarted : t.started = s.started := by
    obtain ⟨reader, sink, rfl, -, -⟩ := h.pairs
    rfl
  cases hs : s.started with
  | true =>
    have hleft : s.start = (.ok (), s) := if_pos hs
    have hright : t.start = (.ok (), t) := if_pos (hstarted.trans hs)
    rw [hleft, hright]
    exact h.steps _
  | false =>
    have hnear : L.Pairs L.near s t := by
      rcases h with hnear | ⟨-, hbegun, -⟩
      · exact hnear
      · rw [hs] at hbegun
        cases hbegun
    rw [Session.start_of_not_started hs, Session.start_of_not_started (hstarted.trans hs)]
    exact (moves_first hnear).concluded.2

theorem steps_step (h : L.InStep s t) : L.Steps s s.step t.step := by
  have hflags : t.finished = s.finished ∧ t.cancelRequested = s.cancelRequested ∧
      t.started = s.started := by
    obtain ⟨reader, sink, rfl, -, -⟩ := h.pairs
    exact ⟨rfl, rfl, rfl⟩
  obtain ⟨hfinished, hcancelled, hstarted⟩ := hflags
  cases hf : s.finished with
  | true =>
    have hleft : s.step = (.ok false, s) := if_pos hf
    have hright : t.step = (.ok false, t) := if_pos (hfinished.trans hf)
    rw [hleft, hright]
    exact h.steps _
  | false =>
    have hnear := h.near hf
    cases hc : s.cancelRequested with
    | true =>
      have hstop := Coupling.follows_stop L.near_stable hnear
      have hstep (u : Session) (huf : u.finished = false) (huc : u.cancelRequested = true) :
          u.step = Session.andThen u.stop fun _ u₁ => (.ok false, u₁) := by
        simp only [Session.step, huf, huc, Bool.false_eq_true, if_false, if_true]
        rcases u.stop with ⟨⟨e⟩ | ⟨⟩, u₁⟩
        · rfl
        · rfl
      rw [hstep s hf hc, hstep t (hfinished.trans hf) (hcancelled.trans hc)]
      have hafter := hstop.andThen (f := fun _ s₁ => (.ok false, s₁))
        (g := fun _ t₁ => (.ok false, t₁)) (fun _ s₁ t₁ h₁ => h₁.follows List.suffix_rfl _)
        (fun _ _ => List.suffix_rfl)
      refine ⟨hafter.grows, ?_⟩
      rcases hafter.follows with ⟨hsame, hpairs⟩ | hparted
      · exact Or.inl ⟨hsame, Or.inl hpairs⟩
      · exact Or.inr hparted
    | false =>
      cases hs : s.started with
      | true =>
        rw [Session.step_of_started hf hc hs, Session.step_of_started (hfinished.trans hf)
          (hcancelled.trans hc) (hstarted.trans hs)]
        exact (moves_advance hnear hs).concluded.1
      | false =>
        rw [Session.step_of_not_started hf hc hs, Session.step_of_not_started
          (hfinished.trans hf) (hcancelled.trans hc) (hstarted.trans hs)]
        exact (moves_first hnear).concluded.1

theorem inStep_same (s : Session) : same.InStep s s :=
  Or.inl (Coupling.pairs_same s)

/-- What a sink has taken before a run it has taken for good. -/
theorem suffix_run (s : Session) : s.sink.taken <:+ s.run.2.sink.taken := by
  have hstep (s : Session) : s.sink.taken <:+ s.step.2.sink.taken :=
    (steps_step (inStep_same s)).grows
  fun_induction Session.run s with
  | case1 s e s' hleft | case2 s s' hleft =>
    have hgrows := hstep s
    rwa [hleft] at hgrows
  | case3 s s' hleft ih =>
    have hgrows := hstep s
    rw [hleft] at hgrows
    exact hgrows.trans ih

/-- Runs are in step until the second one is refused a write. -/
theorem steps_run (h : L.InStep s t) : L.Steps s s.run t.run := by
  refine ⟨suffix_run s, ?_⟩
  have hsteps := (steps_step h).follows
  fun_induction Session.run s generalizing t with
  | case1 s e s' hleft =>
    rw [hleft] at hsteps
    rw [Session.run_eq t]
    rcases hright : t.step with ⟨result, t'⟩
    rw [hright] at hsteps
    rcases hsteps with ⟨hsame, hinStep⟩ | ⟨e', herror, hparted⟩
    · obtain rfl : result = .error e := hsame
      exact Or.inl ⟨rfl, hinStep⟩
    · obtain rfl : result = .error e' := herror
      exact Or.inr ⟨e', rfl, hparted⟩
  | case2 s s' hleft =>
    rw [hleft] at hsteps
    rw [Session.run_eq t]
    rcases hright : t.step with ⟨result, t'⟩
    rw [hright] at hsteps
    rcases hsteps with ⟨hsame, hinStep⟩ | ⟨e', herror, hparted⟩
    · obtain rfl : result = .ok false := hsame
      exact Or.inl ⟨rfl, hinStep⟩
    · obtain rfl : result = .error e' := herror
      exact Or.inr ⟨e', rfl, hparted⟩
  | case3 s s' hleft ih =>
    rw [hleft] at hsteps
    rw [Session.run_eq t]
    rcases hright : t.step with ⟨result, t'⟩
    rw [hright] at hsteps
    rcases hsteps with ⟨hsame, hinStep⟩ | ⟨e', herror, hparted⟩
    · obtain rfl : result = .ok true := hsame
      exact ih hinStep (steps_step hinStep).follows
    · -- The first session runs on and only writes more.
      obtain rfl : result = .error e' := herror
      exact Or.inr ⟨e', rfl, L.grows hparted (suffix_run s')⟩

/-! ## Rows of demands -/

/-- Where no write is refused to one session alone, both come to the same. -/
theorem Steps.result {α : Type} {x y : Except Error α × Session} (h : L.Steps s x y)
    (hnever : ∀ k e k', ¬L.parted k e k') : y.1 = x.1 ∧ L.InStep x.2 y.2 := by
  rcases h.follows with hsame | ⟨e, -, hparted⟩
  · exact hsame
  · exact absurd hparted (hnever _ e _)

theorem serve_inStep (h : L.InStep s t) (hnever : ∀ k e k', ¬L.parted k e k')
    (d : Session.Demand) :
    (t.serve d).1 = (s.serve d).1 ∧ L.InStep (s.serve d).2 (t.serve d).2 := by
  cases d with
  | start =>
    obtain ⟨hsame, hinStep⟩ := (steps_start h).result hnever
    exact ⟨congrArg Session.Reply.done hsame, hinStep⟩
  | step =>
    obtain ⟨hsame, hinStep⟩ := (steps_step h).result hnever
    exact ⟨congrArg Session.Reply.more hsame, hinStep⟩
  | run =>
    obtain ⟨hsame, hinStep⟩ := (steps_run h).result hnever
    exact ⟨congrArg Session.Reply.done hsame, hinStep⟩
  | cancel =>
    refine ⟨rfl, ?_⟩
    rcases h with ⟨reader, sink, rfl, hnear, hsinks⟩ |
      ⟨⟨reader, sink, rfl, hloose, hsinks⟩, hstarted, hfinished⟩
    · exact Or.inl ⟨reader, sink, rfl, hnear, hsinks⟩
    · exact Or.inr ⟨⟨reader, sink, rfl, hloose, hsinks⟩, hstarted, hfinished⟩

/-- Every row of demands has the same replies. -/
theorem serveAll_inStep (h : L.InStep s t) (hnever : ∀ k e k', ¬L.parted k e k')
    (demands : List Session.Demand) :
    (t.serveAll demands).1 = (s.serveAll demands).1 ∧
      L.InStep (s.serveAll demands).2 (t.serveAll demands).2 := by
  induction demands generalizing s t with
  | nil => exact ⟨rfl, h⟩
  | cons d demands ih =>
    obtain ⟨hreply, hserved⟩ := serve_inStep h hnever d
    obtain ⟨hreplies, hinStep⟩ := ih hserved
    refine ⟨?_, hinStep⟩
    show (t.serve d).1 :: _ = (s.serve d).1 :: _
    rw [hreply, hreplies]

end

end Lockstep

end CarSlice
