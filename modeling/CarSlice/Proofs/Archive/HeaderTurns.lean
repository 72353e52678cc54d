import CarSlice.Proofs.Archive.HeaderGrammar
import CarSlice.Proofs.Cbor.Turns

/-!
# The loops of a header

The head of the map says how many entries a header has, and the head of an array how many roots.
`decodeNoted` decodes a header like `decode` and notes the turns of both loops, and those of the
items that it passes over.  However large the counts, the turns are paid for by the bytes of the
body, as `CarSlice.Proofs.Cbor.Turns` has it for one item.
-/

namespace CarSlice.Archive.Header

open Cbor (Affords Noted Orderly length_lt_of_head?)

/-! ## With notes -/

/-- Reads the array of roots. -/
def rootsNoted (s : Bytes) : Noted HeaderFault (List Cid) :=
  match Cbor.head? s with
  | some (⟨.array, count⟩, s) => Noted.loop (fun s => { result := readRoot s }) count s
  | _ => { result := .error .missingRoots }

/-- Reads one entry of the map. -/
def entryNoted (s : Bytes) : Noted HeaderFault Entry :=
  match Cbor.text? s with
  | none => { result := .error .notMap }
  | some (key, s) =>
    if key = versionKey then
      match Cbor.unsigned? s with
      | some (version, s) => { result := .ok (.version version, s) }
      | none => { result := .error .missingVersion }
    else if key = rootsKey then (rootsNoted s).map .roots
    else (Cbor.skipItem .notMap Cbor.defaultDepth 0 s).map fun _ => .other

/-- The header that the entries of a map make up, with nothing behind it. -/
def close (entries : List Entry) : Bytes → Except HeaderFault (Header × Bytes)
  | [] => (ofEntries entries).map fun header => (header, [])
  | _ :: _ => .error .notMap

/-- Reads the body of a header. -/
def decodeNoted (body : Bytes) : Noted HeaderFault Header :=
  match Cbor.head? body with
  | some (⟨.map, count⟩, s) =>
    (Noted.loop entryNoted count s).andThen fun entries rest => { result := close entries rest }
  | _ => { result := .error .notMap }

/-! ## Results -/

theorem result_rootsNoted (s : Bytes) : (rootsNoted s).result = readRootsArray s := by
  unfold rootsNoted readRootsArray
  cases Cbor.head? s with
  | none => rfl
  | some front =>
    obtain ⟨⟨major, count⟩, behind⟩ := front
    cases major with
    | array =>
      have hone (s : Bytes) : ({ result := readRoot s } : Noted HeaderFault Cid).result =
          readRoot s := rfl
      exact Cbor.result_loop hone (fun _ => rfl) (fun _ _ => rfl) count behind
    | _ => rfl

theorem result_entryNoted (s : Bytes) : (entryNoted s).result = readEntry s := by
  unfold entryNoted readEntry
  cases Cbor.text? s with
  | none => rfl
  | some text =>
    obtain ⟨key, behind⟩ := text
    dsimp only
    split_ifs with hversion hroots
    · cases Cbor.unsigned? behind with
      | none => rfl
      | some number => rfl
    · rw [← result_rootsNoted]
      rfl
    · simp only [Noted.map, Cbor.result_skipItem_zero]
      cases Cbor.skip? Cbor.defaultDepth behind with
      | none => rfl
      | some rest => rfl

theorem result_decodeNoted (body : Bytes) :
    (decodeNoted body).result = (decode body).map fun header => (header, []) := by
  unfold decodeNoted decode
  cases Cbor.head? body with
  | none => rfl
  | some front =>
    obtain ⟨⟨major, count⟩, behind⟩ := front
    cases major with
    | map =>
      have hentries : (Noted.loop entryNoted count behind).result = readEntries count behind :=
        Cbor.result_loop result_entryNoted (fun _ => rfl) (fun _ _ => rfl) count behind
      simp only [Noted.andThen, hentries]
      cases readEntries count behind with
      | error fault => rfl
      | ok read =>
        obtain ⟨entries, rest⟩ := read
        cases rest with
        | nil => rfl
        | cons b rest => rfl
    | _ => rfl

/-! ## Notes -/

theorem length_lt_of_readRoot {s rest : Bytes} {cid : Cid} (h : readRoot s = .ok (cid, rest)) :
    rest.length < s.length := by
  obtain ⟨link, rfl, hlink⟩ := readRoot_eq_ok_iff.1 h
  obtain ⟨htag, -, -⟩ := hlink
  simp only [List.length_append, List.length_cons]
  omega

theorem length_lt_of_text? {s rest : Bytes} {key : Text} (h : Cbor.text? s = some (key, rest)) :
    rest.length < s.length := by
  obtain ⟨head, rfl, hspells⟩ := Cbor.payload?_eq_some_iff.1 h
  have := length_lt_of_head? (hspells.head? (key ++ rest))
  simp only [List.length_append] at this ⊢
  omega

theorem length_lt_of_unsigned? {s rest : Bytes} {number : Nat}
    (h : Cbor.unsigned? s = some (number, rest)) : rest.length < s.length := by
  obtain ⟨head, rfl, hspells⟩ := Cbor.unsigned?_eq_some_iff.1 h
  exact length_lt_of_head? (hspells.head? rest)

/-- A reader without loops is orderly if it uses up a byte. -/
theorem orderly_plain {α : Type} (limit : Nat) {s : Bytes} {result : Except HeaderFault (α × Bytes)}
    (h : ∀ a rest, result = .ok (a, rest) → rest.length < s.length) :
    Orderly limit 1 1 s { result } := by
  cases result with
  | error fault => exact Orderly.failed fault
  | ok read =>
    have hless : read.2.length < s.length := h read.1 read.2 rfl
    have hafford : Affords s (.ok read : Except HeaderFault (α × Bytes)) 1 := by
      show 1 + read.2.length ≤ s.length
      omega
    exact Orderly.plain hafford hafford

theorem orderly_rootsNoted (limit : Nat) (s : Bytes) : Orderly limit 1 1 s (rootsNoted s) := by
  unfold rootsNoted
  split
  · next count behind hhead =>
    have hroot (s : Bytes) : Orderly limit 1 0 s { result := readRoot s } :=
      (orderly_plain limit fun _ _ => length_lt_of_readRoot).mono (Nat.le_refl 1) (Nat.zero_le 1)
    exact (Orderly.loop hroot count behind).behind (length_lt_of_head? hhead)
  · exact Orderly.failed _

/-- The notes of an entry are orderly up to the depth at which an item under an unknown key is
refused. -/
theorem orderly_entryNoted (s : Bytes) :
    Orderly (Cbor.defaultDepth + 1) 1 0 s (entryNoted s) := by
  unfold entryNoted
  cases hkey : Cbor.text? s with
  | none => exact (Orderly.failed _).mono (Nat.le_refl 1) (Nat.zero_le 1)
  | some text =>
    obtain ⟨key, behind⟩ := text
    have hbehind {r : Noted HeaderFault Entry} (h : Orderly (Cbor.defaultDepth + 1) 0 0 behind r) :
        Orderly (Cbor.defaultDepth + 1) 1 0 s r :=
      (h.behind (length_lt_of_text? hkey)).mono (Nat.le_refl 1) (Nat.zero_le 1)
    dsimp only
    split_ifs with hversion hroots
    · cases hnumber : Cbor.unsigned? behind with
      | none => exact hbehind (Orderly.failed _).weaken
      | some number =>
        have hless : number.2.length < behind.length := length_lt_of_unsigned? hnumber
        exact hbehind (orderly_plain _ fun _ _ h => by cases h; exact hless).weaken
    · exact hbehind ((orderly_rootsNoted _ behind).weaken.map _)
    · have hitem := Cbor.orderly_skipItem HeaderFault.notMap
        (Nat.zero_le (Cbor.defaultDepth + 1)) behind
      exact hbehind (hitem.weaken.map _)

theorem orderly_close (limit : Nat) (entries : List Entry) (rest : Bytes) :
    Orderly limit 0 0 rest { result := close entries rest } := by
  have hfailed (fault : HeaderFault) :
      Orderly limit 0 0 rest ({ result := .error fault } : Noted HeaderFault Header) :=
    (Orderly.failed fault).weaken
  cases rest with
  | cons b rest => exact hfailed .notMap
  | nil =>
    cases hentries : ofEntries entries with
    | error fault =>
      rw [close, hentries]
      exact hfailed fault
    | ok header =>
      rw [close, hentries]
      exact Orderly.plain (Nat.le_refl 0) (Nat.le_refl 0)

theorem orderly_decodeNoted (body : Bytes) :
    Orderly (Cbor.defaultDepth + 1) 1 1 body (decodeNoted body) := by
  unfold decodeNoted
  split
  · next count behind hhead =>
    have hentries := Orderly.loop orderly_entryNoted count behind
    exact (hentries.andThen fun entries rest _ => orderly_close _ entries rest).behind
      (length_lt_of_head? hhead)
  · exact Orderly.failed _

/-- A header that is decoded went round as often as the head of its map says. -/
theorem le_turns_decodeNoted {body : Bytes} {count : Nat} (hdeclares : Cbor.Declares body count)
    {read : Header × Bytes} (hread : (decodeNoted body).result = .ok read) :
    count ≤ (decodeNoted body).turns := by
  rw [decodeNoted] at hread ⊢
  obtain ⟨rest, hhead | hhead⟩ := hdeclares
  · rw [hhead] at hread
    cases hread
  · rw [hhead] at hread ⊢
    dsimp only at hread ⊢
    cases hentries : (Noted.loop entryNoted count rest).result with
    | error fault =>
      rw [Noted.andThen_of_error hentries] at hread
      cases hread
    | ok entries =>
      rw [Noted.andThen_of_ok hentries]
      refine Nat.le_trans (Noted.le_turns_loop hentries) ?_
      exact List.Sublist.countP_le (List.sublist_append_left ..)

/-! ## Counts that are declared -/

/-- The counts that the heads of arrays and maps declare are no measure of the work.  Passing over
an item and decoding a header come to the same as with notes, and of the notes it holds for every
byte string: a turn of a loop uses up a byte or more, or nothing but the turns around it comes
behind it and the whole fails; there are no more turns than bytes, and at most one more item is
entered than there are bytes; no item is entered more than one level below the depth that is
allowed; and a declared count is gone through to its end or the whole fails. -/
theorem declared_counts_do_not_loop (bytes : Bytes) :
    (∀ maxDepth, let run := Cbor.skipItem () maxDepth 0 bytes
      (∀ rest, run.result = .ok ((), rest) ↔ Cbor.skip? maxDepth bytes = some rest) ∧
        run.Advances (maxDepth + 1) ∧ run.turns ≤ bytes.length ∧
          run.entries ≤ bytes.length + 1 ∧
          ∀ count, Cbor.Declares bytes count → ∀ read, run.result = .ok read →
            count ≤ run.turns) ∧
      let run := decodeNoted bytes
      run.result = (decode bytes).map (fun header => (header, [])) ∧
        run.Advances (Cbor.defaultDepth + 1) ∧ run.turns ≤ bytes.length ∧
          run.entries ≤ bytes.length + 1 ∧
          ∀ count, Cbor.Declares bytes count → ∀ read, run.result = .ok read →
            count ≤ run.turns := by
  refine ⟨fun maxDepth => ?_, ?_⟩
  · intro run
    have horderly : Orderly (maxDepth + 1) 1 0 bytes run :=
      Cbor.orderly_skipItem () (Nat.zero_le _) bytes
    refine ⟨fun rest => ?_, horderly.toAdvances, horderly.turns_le, horderly.entries_le,
      fun count hdeclares read => Cbor.le_turns_skipItem hdeclares⟩
    rw [Cbor.result_skipItem_zero, Cbor.passed_eq_ok_iff]
  · intro run
    have horderly : Orderly (Cbor.defaultDepth + 1) 1 1 bytes run := orderly_decodeNoted bytes
    exact ⟨result_decodeNoted bytes, horderly.toAdvances, horderly.turns_le, horderly.entries_le,
      fun count hdeclares read => le_turns_decodeNoted hdeclares⟩

/-- A map that says that it has `2 ^ 64 - 1` entries, with one integer in it. -/
example :
    let run := Cbor.skipItem () Cbor.defaultDepth 0
      [0xbb, 0xff, 0xff, 0xff, 0xff, 0xff, 0xff, 0xff, 0xff, 0x00]
    run.result = .error () ∧
      run.notes = [.entered 0, .entered 1, .entered 1, .turn [0x00] none] := by
  decide +kernel

end CarSlice.Archive.Header
