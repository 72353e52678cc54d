import CarSlice.Proofs.Cbor.Grammar
import Mathlib.Data.List.Pairwise

/-!
# Loops that the input declares

The heads of arrays and maps say how often a loop goes round, up to `2 ^ 64 - 1` times.  Such a
count is no bound on the work.  What bounds it is that a turn which does not use up a byte fails,
and a turn that fails ends everything around it.

The readers of this module come to the same as those of `CarSlice.Cbor` and note on the way every
turn of a loop and every item that they enter.

* `Noted` is a result with its notes, `Noted.andThen`, `Noted.turn` and `Noted.loop` put readers
  together, and `skipItem` passes over an item at a depth (`result_skipItem`).
* `Orderly` says what holds of the notes.  Turns and entries are paid for by the bytes that were
  read, and a reader that fails owes one more at most.  It has one lemma for each way of putting
  readers together, and `Orderly.loop` is the induction over a count.
* `orderly_skipItem` is the induction over the depth.
* `le_turns_skipItem`: no turn is left out of the notes, so that what succeeds went round as often
  as was declared.
-/

namespace CarSlice.Cbor

/-! ## Notes -/

/-- What a reader does on its way. -/
inductive Note where
  /-- It begins to pass over an item at this depth. -/
  | entered (depth : Nat)
  /-- A loop went round: what was unread before and after, or nothing after a turn that failed. -/
  | turn (before : Bytes) (after : Option Bytes)
  deriving Repr, DecidableEq

namespace Note

/-- A turn that failed. -/
def isFailure : Note → Bool
  | turn _ none => true
  | _ => false

def isTurn : Note → Bool
  | turn _ _ => true
  | entered _ => false

def isEntry : Note → Bool
  | entered _ => true
  | turn _ _ => false

end Note

variable {ε α β : Type}

/-- What a reader comes to, with its notes in order. -/
structure Noted (ε α : Type) where
  result : Except ε (α × Bytes)
  notes : List Note := []

namespace Noted

/-- The same with another answer. -/
def map (f : α → β) (r : Noted ε α) : Noted ε β where
  result := r.result.map fun (a, rest) => (f a, rest)
  notes := r.notes

/-- Goes on with what a reader left, if it succeeded. -/
def andThen (r : Noted ε α) (next : α → Bytes → Noted ε β) : Noted ε β :=
  match r.result with
  | .ok (a, rest) => { result := (next a rest).result, notes := r.notes ++ (next a rest).notes }
  | .error e => { result := .error e, notes := r.notes }

/-- Enters an item. -/
def enter (depth : Nat) (r : Noted ε α) : Noted ε α :=
  { r with notes := .entered depth :: r.notes }

/-- Goes round once. -/
def turn (body : Bytes → Noted ε α) (s : Bytes) : Noted ε α where
  result := (body s).result
  notes := (body s).notes ++ [.turn s ((body s).result.toOption.map Prod.snd)]

/-- Goes round a number of times, and stops at the first turn that fails. -/
def loop (body : Bytes → Noted ε α) : Nat → Bytes → Noted ε (List α)
  | 0, s => { result := .ok ([], s) }
  | n + 1, s => (turn body s).andThen fun a rest => (loop body n rest).map (a :: ·)

/-- Does the same twice: a map goes round once for a key and its value. -/
def twice (body : Bytes → Noted ε α) (s : Bytes) : Noted ε α :=
  (body s).andThen fun _ rest => body rest

/-- How often a loop went round, whether the turn succeeded or not. -/
def turns (r : Noted ε α) : Nat :=
  r.notes.countP Note.isTurn

/-- How many items were entered. -/
def entries (r : Noted ε α) : Nat :=
  r.notes.countP Note.isEntry

theorem andThen_of_ok {r : Noted ε α} {a : α} {rest : Bytes} (h : r.result = .ok (a, rest))
    (next : α → Bytes → Noted ε β) :
    r.andThen next = { result := (next a rest).result, notes := r.notes ++ (next a rest).notes } := by
  simp only [andThen, h]

theorem andThen_of_error {r : Noted ε α} {fault : ε} (h : r.result = .error fault)
    (next : α → Bytes → Noted ε β) :
    r.andThen next = { result := .error fault, notes := r.notes } := by
  simp only [andThen, h]

theorem exists_of_map {r : Noted ε α} {f : α → β} {read : β × Bytes}
    (h : (r.map f).result = .ok read) : ∃ read', r.result = .ok read' := by
  cases hr : r.result with
  | error fault => simp [map, hr, Except.map] at h
  | ok read' => exact ⟨read', rfl⟩

theorem turns_turn (body : Bytes → Noted ε α) (s : Bytes) :
    (turn body s).turns = (body s).turns + 1 := by
  rw [turns, turn, List.countP_append]
  rfl

theorem entries_turn (body : Bytes → Noted ε α) (s : Bytes) :
    (turn body s).entries = (body s).entries := by
  rw [entries, turn, List.countP_append]
  rfl

/-- A loop that succeeds went round as often as it was to. -/
theorem le_turns_loop {body : Bytes → Noted ε α} {n : Nat} {s : Bytes} {read : List α × Bytes}
    (h : (loop body n s).result = .ok read) : n ≤ (loop body n s).turns := by
  induction n generalizing s read with
  | zero => exact Nat.zero_le _
  | succ n ih =>
    rw [loop] at h ⊢
    cases hfirst : (turn body s).result with
    | error fault =>
      rw [andThen_of_error hfirst] at h
      cases h
    | ok first =>
      rw [andThen_of_ok hfirst] at h ⊢
      obtain ⟨more, hmore⟩ := exists_of_map h
      calc n + 1 ≤ (loop body n first.2).turns + (turn body s).turns := by
            rw [turns_turn]
            exact Nat.add_le_add (ih hmore) (Nat.le_add_left ..)
        _ = List.countP Note.isTurn ((turn body s).notes ++ (loop body n first.2).notes) := by
            rw [List.countP_append, Nat.add_comm]
            rfl

end Noted

/-! ## What is read -/

/-- What passing over something comes to, with a fault for a failure. -/
def passed (fault : ε) : Option Bytes → Except ε (Unit × Bytes)
  | some rest => .ok ((), rest)
  | none => .error fault

/-- Passes over an item at a depth, which is entered first and left again with a fault where it is
too deep. -/
def skipItem (fault : ε) (maxDepth depth : Nat) (s : Bytes) : Noted ε Unit :=
  if _hdepth : maxDepth < depth then Noted.enter depth { result := .error fault }
  else
    Noted.enter depth <|
      match head? s with
      | none => { result := .error fault }
      | some (head, rest) =>
        match head.major with
        | .unsigned | .negative | .simple => { result := .ok ((), rest) }
        | .bytes | .text =>
          { result := passed fault ((takeExactly? head.argument rest).map Prod.snd) }
        | .array =>
          (Noted.loop (skipItem fault maxDepth (depth + 1)) head.argument rest).map fun _ => ()
        | .map =>
          (Noted.loop (Noted.twice (skipItem fault maxDepth (depth + 1))) head.argument rest).map
            fun _ => ()
        | .tag => skipItem fault maxDepth (depth + 1) rest
termination_by maxDepth + 1 - depth

/-! ## Results -/

theorem passed_eq_ok_iff {fault : ε} {skipped : Option Bytes} {rest : Bytes} :
    passed fault skipped = .ok ((), rest) ↔ skipped = some rest := by
  cases skipped with
  | none => simp [passed]
  | some rest' => simp [passed]

section

variable {fault : ε} {body : Bytes → Noted ε Unit} {step : Bytes → Option Bytes}

theorem result_twice_passed (hbody : ∀ s, (body s).result = passed fault (step s)) (s : Bytes) :
    (Noted.twice body s).result = passed fault ((step s).bind step) := by
  cases hstep : step s with
  | none => simp only [Noted.twice, Noted.andThen, hbody, hstep, passed, Option.bind_none]
  | some rest => simp only [Noted.twice, Noted.andThen, hbody, hstep, passed, Option.bind_some]

/-- A loop that passes over something each time comes to the same as the repeated step. -/
theorem result_loop_passed (hbody : ∀ s, (body s).result = passed fault (step s)) (n : Nat)
    (s : Bytes) :
    ((Noted.loop body n s).map fun _ => ()).result = passed fault (times step n s) := by
  induction n generalizing s with
  | zero => rfl
  | succ n ih =>
    cases hstep : step s with
    | none =>
      simp only [Noted.loop, Noted.andThen, Noted.turn, Noted.map, hbody, times, hstep, passed,
        Except.map]
    | some rest =>
      have htimes : times step (n + 1) s = times step n rest := by rw [times, hstep]
      rw [htimes, ← ih rest]
      simp only [Noted.loop, Noted.andThen, Noted.turn, Noted.map, hbody, hstep, passed]
      cases (Noted.loop body n rest).result <;> rfl

end

/-- A loop comes to the same as a row of what its body reads. -/
theorem result_loop {body : Bytes → Noted ε α} {one : Bytes → Except ε (α × Bytes)}
    {row : Nat → Bytes → Except ε (List α × Bytes)} (hbody : ∀ s, (body s).result = one s)
    (hzero : ∀ s, row 0 s = .ok ([], s))
    (hsucc : ∀ n s, row (n + 1) s = (one s).bind fun (a, s) =>
      (row n s).bind fun (more, s) => .ok (a :: more, s)) (n : Nat) (s : Bytes) :
    (Noted.loop body n s).result = row n s := by
  induction n generalizing s with
  | zero => exact (hzero s).symm
  | succ n ih =>
    rw [hsucc, ← hbody]
    simp only [Noted.loop, Noted.andThen, Noted.turn, Noted.map]
    cases hfirst : (body s).result with
    | error e => rfl
    | ok read =>
      dsimp only [Except.bind]
      rw [← ih]
      cases (Noted.loop body n read.2).result <;> rfl

/-- Pairs that are passed over are twice as many items. -/
theorem times_pair (step : Bytes → Option Bytes) (n : Nat) (s : Bytes) :
    times (fun s => (step s).bind step) n s = times step (2 * n) s := by
  induction n generalizing s with
  | zero => rfl
  | succ n ih =>
    rw [Nat.mul_succ, times]
    cases hfirst : step s with
    | none => simp only [Option.bind_none, times, hfirst]
    | some rest =>
      cases hsecond : step rest with
      | none => simp only [Option.bind_some, times, hfirst, hsecond]
      | some rest' => simp only [Option.bind_some, times, hfirst, hsecond, ih]

/-- Passing over an item at a depth comes to the same as passing over one with as many levels as are
left. -/
theorem result_skipItem (fault : ε) {maxDepth depth levels : Nat}
    (hlevels : depth + levels = maxDepth + 1) (s : Bytes) :
    (skipItem fault maxDepth depth s).result = passed fault (skipWithin levels s) := by
  induction levels generalizing depth s with
  | zero =>
    rw [skipItem, dif_pos (by omega)]
    rfl
  | succ levels ih =>
    have hnext : depth + 1 + levels = maxDepth + 1 := by omega
    rw [skipItem, dif_neg (by omega), skipWithin]
    cases hhead : head? s with
    | none => rfl
    | some front =>
      obtain ⟨⟨major, argument⟩, rest⟩ := front
      cases major with
      | unsigned | negative | simple => rfl
      | bytes | text => rfl
      | array => exact result_loop_passed (ih hnext) argument rest
      | map =>
        show _ = passed fault (times (skipWithin levels) (2 * argument) rest)
        rw [← times_pair]
        exact result_loop_passed (result_twice_passed (ih hnext)) argument rest
      | tag => exact ih hnext rest

theorem result_skipItem_zero (fault : ε) (maxDepth : Nat) (s : Bytes) :
    (skipItem fault maxDepth 0 s).result = passed fault (skip? maxDepth s) :=
  result_skipItem fault (Nat.zero_add _) s

/-! ## What turns and entries cost -/

/-- A cost that is paid for by the bytes that were read.  A failure may owe one more. -/
def Affords (s : Bytes) : Except ε (α × Bytes) → Nat → Prop
  | .ok (_, rest), cost => cost + rest.length ≤ s.length
  | .error _, cost => cost ≤ s.length + 1

theorem Affords.le {s : Bytes} {result : Except ε (α × Bytes)} {cost : Nat}
    (h : Affords s result cost) : cost ≤ s.length + 1 := by
  cases result with
  | error e => exact h
  | ok read =>
    have : cost + read.2.length ≤ s.length := h
    omega

theorem Affords.mono {s : Bytes} {result : Except ε (α × Bytes)} {cost cost' : Nat}
    (h : Affords s result cost) (hle : cost' ≤ cost) : Affords s result cost' := by
  cases result with
  | error e => exact Nat.le_trans hle h
  | ok read => exact Nat.le_trans (Nat.add_le_add_right hle _) h

theorem Affords.behind {s s' : Bytes} {result : Except ε (α × Bytes)} {cost : Nat}
    (h : Affords s' result cost) (hless : s'.length < s.length) : Affords s result (cost + 1) := by
  cases result with
  | error e =>
    have : cost ≤ s'.length + 1 := h
    show cost + 1 ≤ s.length + 1
    omega
  | ok read =>
    have : cost + read.2.length ≤ s'.length := h
    show cost + 1 + read.2.length ≤ s.length
    omega

theorem Affords.map {s : Bytes} {result : Except ε (α × Bytes)} {cost : Nat} {f : α → β}
    (h : Affords s result cost) : Affords s (result.map fun (a, rest) => (f a, rest)) cost := by
  cases result with
  | error e => exact h
  | ok read => exact h

/-- What goes on behind a reader that succeeded is paid for by what that one left. -/
theorem Affords.append {s rest : Bytes} {a : α} {result : Except ε (β × Bytes)} {cost more : Nat}
    (h : Affords s (.ok (a, rest) : Except ε (α × Bytes)) cost) (hmore : Affords rest result more) :
    Affords s result (more + cost) := by
  have hcost : cost + rest.length ≤ s.length := h
  cases result with
  | error e =>
    have : more ≤ rest.length + 1 := hmore
    show more + cost ≤ s.length + 1
    omega
  | ok read =>
    have : more + read.2.length ≤ rest.length := hmore
    show more + cost + read.2.length ≤ s.length
    omega

/-! ## Orderly notes -/

/-- Every turn of a loop uses up a byte or ends everything around it, and no item is entered at a
depth above `limit`. -/
structure Noted.Advances (limit : Nat) (r : Noted ε α) : Prop where
  consumes : ∀ before after, .turn before (some after) ∈ r.notes → after.length < before.length
  /-- A reader that succeeds has no turn that failed. -/
  ends : ∀ read, r.result = .ok read → ∀ note ∈ r.notes, note.isFailure = false
  /-- Nothing is begun behind a turn that failed: only the turns around it fail with it. -/
  stops : r.notes.Pairwise fun note later => note.isFailure → later.isFailure
  depth : ∀ depth, .entered depth ∈ r.notes → depth ≤ limit

/-- What holds of the notes of a reader that began with `s`.  There are `t` turns and `e` entries to
spare that could be paid for, too. -/
structure Orderly (limit t e : Nat) (s : Bytes) (r : Noted ε α) : Prop
    extends r.Advances limit where
  turns : Affords s r.result (r.turns + t)
  entries : Affords s r.result (r.entries + e)

namespace Orderly

variable {limit t e : Nat} {s : Bytes} {r : Noted ε α}

/-- A reader without notes is orderly if it uses up what could be paid for. -/
theorem plain {result : Except ε (α × Bytes)} (ht : Affords s result t) (he : Affords s result e) :
    Orderly limit t e s { result } where
  consumes := by simp
  ends := by simp
  stops := .nil
  depth := by simp
  turns := by rwa [Noted.turns, List.countP_nil, Nat.zero_add]
  entries := by rwa [Noted.entries, List.countP_nil, Nat.zero_add]

theorem mono (h : Orderly limit t e s r) {t' e' : Nat} (ht : t' ≤ t) (he : e' ≤ e) :
    Orderly limit t' e' s r :=
  { h with
    turns := h.turns.mono (Nat.add_le_add_left ht _)
    entries := h.entries.mono (Nat.add_le_add_left he _) }

/-- What there is to spare may be left. -/
theorem weaken (h : Orderly limit t e s r) : Orderly limit 0 0 s r :=
  h.mono (Nat.zero_le _) (Nat.zero_le _)

theorem failed (fault : ε) : Orderly limit 1 1 s ({ result := .error fault } : Noted ε α) :=
  plain (Nat.le_add_left 1 _) (Nat.le_add_left 1 _)

/-- A reader that passes over something leaves no more than there was. -/
theorem passed (fault : ε) {skipped : Option Bytes}
    (h : ∀ rest, skipped = some rest → rest.length ≤ s.length) :
    Orderly limit 0 0 s { result := Cbor.passed fault skipped } := by
  cases skipped with
  | none => exact (failed fault).weaken
  | some rest =>
    have hafford : Affords s (Cbor.passed fault (some rest)) 0 := by
      show 0 + rest.length ≤ s.length
      rw [Nat.zero_add]
      exact h rest rfl
    exact plain hafford hafford

/-- Behind bytes that were read without a note there is one turn and one entry to spare. -/
theorem behind {s' : Bytes} (h : Orderly limit t e s' r) (hless : s'.length < s.length) :
    Orderly limit (t + 1) (e + 1) s r :=
  { h with
    turns := h.turns.behind hless
    entries := h.entries.behind hless }

theorem map (h : Orderly limit t e s r) (f : α → β) : Orderly limit t e s (r.map f) where
  consumes := h.consumes
  ends := fun _ hread =>
    let ⟨read', hr⟩ := Noted.exists_of_map hread
    h.ends read' hr
  stops := h.stops
  depth := h.depth
  turns := h.turns.map
  entries := h.entries.map

theorem enter (h : Orderly limit t (e + 1) s r) {depth : Nat} (hdepth : depth ≤ limit) :
    Orderly limit t e s (r.enter depth) where
  consumes := fun before after hmem =>
    h.consumes before after ((List.mem_cons.1 hmem).resolve_left (by simp))
  ends := fun read hread note hmem => by
    rcases List.mem_cons.1 hmem with rfl | hmem
    · rfl
    · exact h.ends read hread note hmem
  stops := .cons (by simp [Note.isFailure]) h.stops
  depth := fun depth' hmem => by
    rcases List.mem_cons.1 hmem with hhead | hmem
    · cases hhead
      exact hdepth
    · exact h.depth depth' hmem
  turns := h.turns
  entries := by
    have hcount : (r.enter depth).entries = r.entries + 1 := List.countP_cons_of_pos rfl
    rw [hcount, Nat.add_right_comm]
    exact h.entries

/-- What goes on behind an orderly reader is orderly together with it, and keeps what that one had
to spare. -/
theorem andThen {next : α → Bytes → Noted ε β} (h : Orderly limit t e s r)
    (hnext : ∀ a rest, r.result = .ok (a, rest) → Orderly limit 0 0 rest (next a rest)) :
    Orderly limit t e s (r.andThen next) := by
  cases hr : r.result with
  | error fault =>
    rw [Noted.andThen_of_error hr]
    have hturns := h.turns
    have hentries := h.entries
    rw [hr] at hturns hentries
    exact ⟨⟨h.consumes, nofun, h.stops, h.depth⟩, hturns, hentries⟩
  | ok read =>
    obtain ⟨a, rest⟩ := read
    have hmore := hnext a rest hr
    have hok := h.ends _ hr
    have hturns := h.turns
    have hentries := h.entries
    rw [hr] at hturns hentries
    rw [Noted.andThen_of_ok hr]
    refine ⟨⟨fun before after hmem => ?_, fun read hread note hmem => ?_, ?_,
      fun depth hmem => ?_⟩, ?_, ?_⟩
    · exact (List.mem_append.1 hmem).elim (h.consumes before after) (hmore.consumes before after)
    · exact (List.mem_append.1 hmem).elim (hok note) (hmore.ends read hread note)
    · refine List.pairwise_append.2 ⟨h.stops, hmore.stops, fun note hmem later _ hfailure => ?_⟩
      rw [hok note hmem] at hfailure
      cases hfailure
    · exact (List.mem_append.1 hmem).elim (h.depth depth) (hmore.depth depth)
    · refine (hturns.append hmore.turns).mono (Nat.le_of_eq ?_)
      rw [Noted.turns, List.countP_append]
      simp only [Noted.turns]
      omega
    · refine (hentries.append hmore.entries).mono (Nat.le_of_eq ?_)
      rw [Noted.entries, List.countP_append]
      simp only [Noted.entries]
      omega

theorem twice {body : Bytes → Noted ε α} (hbody : ∀ s, Orderly limit 1 0 s (body s)) (s : Bytes) :
    Orderly limit 1 0 s (Noted.twice body s) :=
  (hbody s).andThen fun _ rest _ => (hbody rest).weaken

/-- A turn is paid for by the byte that it uses up. -/
theorem turn {body : Bytes → Noted ε α} (h : Orderly limit (t + 1) e s (body s)) :
    Orderly limit t e s (Noted.turn body s) := by
  refine ⟨⟨fun before after hmem => ?_, fun read hread note hmem => ?_, ?_,
    fun depth hmem => ?_⟩, ?_, ?_⟩
  · rcases List.mem_append.1 hmem with hmem | hlast
    · exact h.consumes before after hmem
    · obtain ⟨rfl, hafter⟩ := Note.turn.inj (List.mem_singleton.1 hlast)
      have hpaid := h.turns
      cases hr : (body before).result with
      | error e => simp [hr, Except.toOption] at hafter
      | ok read =>
        rw [hr] at hpaid hafter
        have hless : (body before).turns + (t + 1) + read.2.length ≤ before.length := hpaid
        rw [Option.some.inj hafter]
        show read.2.length < before.length
        omega
  · have hbody : (body s).result = .ok read := hread
    rcases List.mem_append.1 hmem with hmem | hlast
    · exact h.ends read hbody note hmem
    · rw [List.mem_singleton.1 hlast, hbody]
      rfl
  · refine List.pairwise_append.2 ⟨h.stops, List.pairwise_singleton .., ?_⟩
    intro note hmem later hlast hfailure
    rw [List.mem_singleton.1 hlast]
    cases hr : (body s).result with
    | error e => rfl
    | ok read =>
      rw [h.ends read hr note hmem] at hfailure
      cases hfailure
  · exact (List.mem_append.1 hmem).elim (h.depth depth) (by simp)
  · rw [Noted.turns_turn, Nat.add_assoc, Nat.add_comm 1]
    exact h.turns
  · rw [Noted.entries_turn]
    exact h.entries

/-- With a turn to spare there are no more turns than bytes. -/
theorem turns_le (h : Orderly limit 1 e s r) : r.turns ≤ s.length :=
  Nat.le_of_succ_le_succ h.turns.le

theorem entries_le (h : Orderly limit t e s r) : r.entries ≤ s.length + 1 :=
  Nat.le_trans (Nat.le_add_right ..) h.entries.le

/-- However often a loop is to go round, its turns are paid for. -/
theorem loop {body : Bytes → Noted ε α} (hbody : ∀ s, Orderly limit 1 0 s (body s)) (n : Nat)
    (s : Bytes) : Orderly limit 0 0 s (Noted.loop body n s) := by
  induction n generalizing s with
  | zero => exact plain (Nat.le_of_eq (Nat.zero_add _)) (Nat.le_of_eq (Nat.zero_add _))
  | succ n ih => exact (hbody s).turn.andThen fun a rest _ => (ih rest).map (a :: ·)

end Orderly

/-! ## Passing over an item -/

theorem length_lt_of_head? {s rest : Bytes} {head : Head} (h : head? s = some (head, rest)) :
    rest.length < s.length := by
  obtain ⟨front, rfl, hspells⟩ := head?_eq_some_iff.1 h
  cases hspells with
  | short major h => simp
  | wide major hk h => simp only [List.length_append, List.length_cons]; omega

theorem length_le_of_takeExactly? {n : Nat} {s rest : Bytes}
    (h : (takeExactly? n s).map Prod.snd = some rest) : rest.length ≤ s.length := by
  obtain ⟨⟨content, rest'⟩, htake, rfl⟩ := Option.map_eq_some_iff.1 h
  obtain ⟨rfl, -⟩ := takeExactly?_eq_some_iff.1 htake
  rw [List.length_append]
  exact Nat.le_add_left ..

/-- The notes of passing over an item are orderly, up to the depth at which it is refused. -/
theorem orderly_skipItem (fault : ε) {maxDepth depth : Nat} (hdepth : depth ≤ maxDepth + 1)
    (s : Bytes) : Orderly (maxDepth + 1) 1 0 s (skipItem fault maxDepth depth s) := by
  induction hlevels : maxDepth + 1 - depth generalizing depth s with
  | zero =>
    rw [skipItem, dif_pos (by omega)]
    exact (Orderly.failed fault).enter hdepth
  | succ levels ih =>
    have hitem (s : Bytes) := @ih (depth + 1) (by omega) s (by omega)
    rw [skipItem, dif_neg (by omega)]
    refine Orderly.enter ?_ hdepth
    cases hhead : head? s with
    | none => exact Orderly.failed fault
    | some front =>
      obtain ⟨⟨major, argument⟩, rest⟩ := front
      have hbehind {r : Noted ε Unit} (h : Orderly (maxDepth + 1) 0 0 rest r) :
          Orderly (maxDepth + 1) 1 1 s r := h.behind (length_lt_of_head? hhead)
      have hnothing : Orderly (maxDepth + 1) 0 0 rest { result := passed fault (some rest) } :=
        Orderly.passed fault fun _ h =>
          Nat.le_of_eq (congrArg List.length (Option.some.inj h).symm)
      cases major with
      | unsigned | negative | simple => exact hbehind hnothing
      | bytes | text => exact hbehind (Orderly.passed fault fun _ => length_le_of_takeExactly?)
      | array => exact hbehind ((Orderly.loop hitem argument rest).map _)
      | map => exact hbehind ((Orderly.loop (Orderly.twice hitem) argument rest).map _)
      | tag => exact hbehind (hitem rest).weaken

/-- The head of an array or a map says that it has so many elements or entries. -/
def Declares (s : Bytes) (count : Nat) : Prop :=
  ∃ rest, head? s = some (⟨.array, count⟩, rest) ∨ head? s = some (⟨.map, count⟩, rest)

/-- An array or a map that is passed over went round as often as its head says. -/
theorem le_turns_skipItem {fault : ε} {maxDepth depth count : Nat} {s : Bytes}
    (hdeclares : Declares s count) {read : Unit × Bytes}
    (hread : (skipItem fault maxDepth depth s).result = .ok read) :
    count ≤ (skipItem fault maxDepth depth s).turns := by
  rw [skipItem] at hread ⊢
  split at hread
  · cases hread
  · next hdepth =>
    rw [dif_neg hdepth]
    obtain ⟨rest, hhead | hhead⟩ := hdeclares
    · rw [hhead] at hread ⊢
      dsimp only [Noted.enter] at hread
      obtain ⟨row, hrow⟩ := Noted.exists_of_map hread
      exact Noted.le_turns_loop hrow
    · rw [hhead] at hread ⊢
      dsimp only [Noted.enter] at hread
      obtain ⟨row, hrow⟩ := Noted.exists_of_map hread
      exact Noted.le_turns_loop hrow

end CarSlice.Cbor
