import CarSlice.Archive.Header
import CarSlice.Proofs.Cbor.Grammar
import CarSlice.Proofs.Cid
import Mathlib.Data.List.Forall2

/-!
# The grammar of headers

The body of a header is a map whose keys are texts.  `LinkOf`, `EntryOf` and `BodyOf` say which
bytes are a link to a CID, an entry of the map, and a whole body, and for which header a body
stands: several versions may be given, of which the last counts, and several rows of roots, which
add up.

Each part of `decode` reads exactly its part of the grammar (`readRoot_eq_ok_iff`,
`readEntry_eq_ok_iff`), rows of parts by one lemma (`row_eq_ok_iff`), and
`decode_eq_ok_iff_bodyOf` puts them together.  The values under other keys are passed over, and so
a simple value below 32 may stand there in two bytes, which is no well-formed item
(`decode_takes_reserved_value`).
-/

namespace CarSlice.Archive.Header

open Cbor (AnySimple Head Item ProperSimple)

/-! ## Links -/

/-- A link to a CID: a tag on a byte string that holds a zero byte, the CID, and nothing else. -/
inductive LinkOf (cid : Cid) : Bytes → Prop where
  | mk {tag head : Bytes} (htag : Head.Spells ⟨.tag, Cbor.linkTag⟩ tag)
      (hhead : Head.Spells ⟨.bytes, (0 :: cid.bytes).length⟩ head) (hcid : cid.Coherent) :
      LinkOf cid (tag ++ (head ++ 0 :: cid.bytes))

theorem rootOfLink_eq_ok_iff {link : Bytes} {cid : Cid} :
    rootOfLink link = .ok cid ↔ link = 0 :: cid.bytes ∧ cid.Coherent := by
  constructor
  · intro h
    unfold rootOfLink at h
    split at h
    · next encoded =>
      split at h
      · next cid' hdecode =>
        obtain rfl := Except.ok.inj h
        have hbytes := Cid.bytes_append_of_decode? hdecode
        rw [List.append_nil] at hbytes
        rw [hbytes] at hdecode
        exact ⟨congrArg (0 :: ·) hbytes, hdecode⟩
      · cases h
    · cases h
  · rintro ⟨rfl, hcid⟩
    have hdecode : Cid.decode? cid.bytes = some (cid, []) := hcid
    simp only [rootOfLink, hdecode]

/-- A root is read exactly if a link to it stands in front. -/
theorem readRoot_eq_ok_iff {s rest : Bytes} {cid : Cid} :
    readRoot s = .ok (cid, rest) ↔ ∃ link, s = link ++ rest ∧ LinkOf cid link := by
  constructor
  · intro h
    unfold readRoot at h
    split at h
    · next number behind hnumber =>
      split at h
      · next hlink =>
        split at h
        · next link rest' hbytes =>
          obtain ⟨tag, rfl, htag⟩ := Cbor.head?_eq_some_iff.1 hnumber
          obtain ⟨head, rfl, hhead⟩ := Cbor.payload?_eq_some_iff.1 hbytes
          cases hroot : rootOfLink link with
          | error e =>
            rw [hroot] at h
            cases h
          | ok cid' =>
            rw [hroot] at h
            cases h
            obtain ⟨rfl, hcid⟩ := rootOfLink_eq_ok_iff.1 hroot
            subst hlink
            exact ⟨_, (List.append_assoc ..).symm, .mk htag hhead hcid⟩
        · cases h
      · cases h
    · cases h
  · rintro ⟨link, rfl, hlink⟩
    obtain ⟨htag, hhead, hcid⟩ := hlink
    next tag head =>
      have hbytes : Cbor.bytes? (head ++ 0 :: cid.bytes ++ rest) = some (0 :: cid.bytes, rest) :=
        Cbor.payload?_eq_some_iff.2 ⟨head, rfl, hhead⟩
      rw [List.append_assoc, readRoot, htag.head?]
      simp only [if_true, hbytes, rootOfLink_eq_ok_iff.2 ⟨rfl, hcid⟩, Except.map]

/-! ## Rows -/

section

variable {α ε : Type} {one : Bytes → Except ε (α × Bytes)}
  {row : Nat → Bytes → Except ε (List α × Bytes)} {form : α → Bytes → Prop}

/-- A reader that is repeated reads exactly the rows of what it reads. -/
theorem row_eq_ok_iff
    (hone : ∀ s a rest, one s = .ok (a, rest) ↔ ∃ part, s = part ++ rest ∧ form a part)
    (hzero : ∀ s, row 0 s = .ok ([], s))
    (hsucc : ∀ n s, row (n + 1) s = (one s).bind fun (a, s) =>
      (row n s).bind fun (more, s) => .ok (a :: more, s))
    {n : Nat} {s rest : Bytes} {as : List α} :
    row n s = .ok (as, rest) ↔ as.length = n ∧
      ∃ parts : List Bytes, s = parts.flatten ++ rest ∧ List.Forall₂ form as parts := by
  induction n generalizing s as with
  | zero =>
    rw [hzero]
    constructor
    · intro h
      cases h
      exact ⟨rfl, [], rfl, .nil⟩
    · rintro ⟨hlength, parts, rfl, hparts⟩
      obtain rfl := List.length_eq_zero_iff.1 hlength
      cases hparts
      rfl
  | succ n ih =>
    rw [hsucc]
    constructor
    · intro h
      cases hfirst : one s with
      | error e =>
        rw [hfirst] at h
        cases h
      | ok first =>
        obtain ⟨a, s'⟩ := first
        obtain ⟨part, rfl, hpart⟩ := (hone _ _ _).1 hfirst
        rw [hfirst] at h
        dsimp only [Except.bind] at h
        cases hmore : row n s' with
        | error e =>
          rw [hmore] at h
          cases h
        | ok more =>
          rw [hmore] at h
          cases h
          obtain ⟨hlength, parts, rfl, hparts⟩ := ih.1 hmore
          refine ⟨congrArg (· + 1) hlength, part :: parts, ?_, .cons hpart hparts⟩
          rw [List.flatten_cons, List.append_assoc]
    · rintro ⟨hlength, parts, rfl, hparts⟩
      cases hparts with
      | nil => cases hlength
      | @cons a part as parts hpart hparts =>
        have hfirst := (hone (part ++ (parts.flatten ++ rest)) a _).2 ⟨part, rfl, hpart⟩
        have hmore := ih.2 ⟨Nat.succ.inj hlength, parts, rfl, hparts⟩
        rw [List.flatten_cons, List.append_assoc, hfirst]
        simp only [Except.bind, hmore]

end

/-- A row of roots is read exactly if links to them stand in front. -/
theorem readRoots_eq_ok_iff {n : Nat} {s rest : Bytes} {cids : List Cid} :
    readRoots n s = .ok (cids, rest) ↔ cids.length = n ∧
      ∃ links : List Bytes, s = links.flatten ++ rest ∧ List.Forall₂ LinkOf cids links :=
  row_eq_ok_iff (fun _ _ _ => readRoot_eq_ok_iff) (fun _ => rfl) (fun _ _ => rfl)

theorem readRootsArray_eq_ok_iff {s rest : Bytes} {cids : List Cid} :
    readRootsArray s = .ok (cids, rest) ↔ ∃ (head : Bytes) (links : List Bytes),
      s = head ++ links.flatten ++ rest ∧ Head.Spells ⟨.array, cids.length⟩ head ∧
        List.Forall₂ LinkOf cids links := by
  constructor
  · intro h
    unfold readRootsArray at h
    split at h
    · next count behind hcount =>
      obtain ⟨head, rfl, hhead⟩ := Cbor.head?_eq_some_iff.1 hcount
      obtain ⟨rfl, links, rfl, hlinks⟩ := readRoots_eq_ok_iff.1 h
      exact ⟨head, links, (List.append_assoc ..).symm, hhead, hlinks⟩
    · cases h
  · rintro ⟨head, links, rfl, hhead, hlinks⟩
    rw [List.append_assoc, readRootsArray, hhead.head?]
    exact readRoots_eq_ok_iff.2 ⟨rfl, links, rfl, hlinks⟩

/-! ## Entries -/

/-- The bytes of an entry: a text as key, and a value that is an unsigned integer behind the key of
the version, an array of links behind the key of the roots, and any item behind every other key.
The item may be enclosed by its own arrays, maps and tags up to the default depth. -/
inductive EntryOf (simple : Bytes → Prop) : Entry → Bytes → Prop where
  | version {number : Nat} {key value : Bytes}
      (hkey : Head.Spells ⟨.text, versionKey.length⟩ key)
      (hvalue : Head.Spells ⟨.unsigned, number⟩ value) :
      EntryOf simple (.version number) (key ++ versionKey ++ value)
  | roots {cids : List Cid} {key head : Bytes} {links : List Bytes}
      (hkey : Head.Spells ⟨.text, rootsKey.length⟩ key)
      (hhead : Head.Spells ⟨.array, cids.length⟩ head) (hlinks : List.Forall₂ LinkOf cids links) :
      EntryOf simple (.roots cids) (key ++ rootsKey ++ (head ++ links.flatten))
  | other {name : Text} {key value : Bytes} (hkey : Head.Spells ⟨.text, name.length⟩ key)
      (hversion : name ≠ versionKey) (hroots : name ≠ rootsKey)
      (hvalue : Item simple (Cbor.defaultDepth + 1) value) :
      EntryOf simple .other (key ++ name ++ value)

/-- An entry is read exactly if it stands in front. -/
theorem readEntry_eq_ok_iff {s rest : Bytes} {entry : Entry} :
    readEntry s = .ok (entry, rest) ↔ ∃ part, s = part ++ rest ∧ EntryOf AnySimple entry part := by
  constructor
  · intro h
    unfold readEntry at h
    split at h
    · cases h
    · next name behind hname =>
      obtain ⟨key, rfl, hkey⟩ := Cbor.payload?_eq_some_iff.1 hname
      split at h
      · next hversion =>
        subst hversion
        split at h
        · next number rest' hnumber =>
          cases h
          obtain ⟨value, rfl, hvalue⟩ := Cbor.unsigned?_eq_some_iff.1 hnumber
          exact ⟨_, (List.append_assoc ..).symm, .version hkey hvalue⟩
        · cases h
      · next hversion =>
        split at h
        · next hroots =>
          subst hroots
          cases hrow : readRootsArray behind with
          | error e =>
            rw [hrow] at h
            cases h
          | ok row =>
            rw [hrow] at h
            cases h
            obtain ⟨head, links, rfl, hhead, hlinks⟩ := readRootsArray_eq_ok_iff.1 hrow
            exact ⟨_, (List.append_assoc ..).symm, .roots hkey hhead hlinks⟩
        · next hroots =>
          split at h
          · next rest' hskip =>
            cases h
            obtain ⟨value, rfl, hvalue⟩ := Cbor.skipWithin_eq_some_iff.1 hskip
            exact ⟨_, (List.append_assoc ..).symm, .other hkey hversion hroots hvalue⟩
          · cases h
  · rintro ⟨part, rfl, hpart⟩
    have hname {name : Text} {key : Bytes} (hkey : Head.Spells ⟨.text, name.length⟩ key)
        (behind : Bytes) : Cbor.text? (key ++ name ++ behind) = some (name, behind) :=
      Cbor.payload?_eq_some_iff.2 ⟨key, rfl, hkey⟩
    cases hpart with
    | @version number key value hkey hvalue =>
      have hnumber : Cbor.unsigned? (value ++ rest) = some (number, rest) :=
        Cbor.unsigned?_eq_some_iff.2 ⟨value, rfl, hvalue⟩
      rw [List.append_assoc, readEntry, hname hkey]
      simp only [if_true, hnumber]
    | @roots cids key head links hkey hhead hlinks =>
      have hother : rootsKey ≠ versionKey := by decide +kernel
      have hrow : readRootsArray (head ++ links.flatten ++ rest) = .ok (cids, rest) :=
        readRootsArray_eq_ok_iff.2 ⟨head, links, rfl, hhead, hlinks⟩
      rw [List.append_assoc, readEntry, hname hkey]
      simp only [if_neg hother, if_true, hrow, Except.map]
    | @other name key value hkey hversion hroots hvalue =>
      have hskip : Cbor.skip? Cbor.defaultDepth (value ++ rest) = some rest :=
        Cbor.skipWithin_eq_some_iff.2 ⟨value, rfl, hvalue⟩
      rw [List.append_assoc, readEntry, hname hkey]
      simp only [if_neg hversion, if_neg hroots, hskip]

/-- A row of entries is read exactly if it stands in front. -/
theorem readEntries_eq_ok_iff {n : Nat} {s rest : Bytes} {entries : List Entry} :
    readEntries n s = .ok (entries, rest) ↔ entries.length = n ∧
      ∃ parts : List Bytes, s = parts.flatten ++ rest ∧
        List.Forall₂ (EntryOf AnySimple) entries parts :=
  row_eq_ok_iff (fun _ _ _ => readEntry_eq_ok_iff) (fun _ => rfl) (fun _ _ => rfl)

/-! ## Bodies -/

/-- The bytes of a body, and the header that it stands for: one map and nothing behind it, in which
the last version is the one that is understood, and some root is given. -/
inductive BodyOf (simple : Bytes → Prop) : Header → Bytes → Prop where
  | mk {entries : List Entry} {head : Bytes} {parts : List Bytes}
      (hhead : Head.Spells ⟨.map, entries.length⟩ head)
      (hparts : List.Forall₂ (EntryOf simple) entries parts)
      (hversion : (entries.filterMap Entry.version?).getLast? = some supportedVersion)
      (hroots : entries.flatMap Entry.cids ≠ []) :
      BodyOf simple { version := supportedVersion, roots := entries.flatMap Entry.cids }
        (head ++ parts.flatten)

theorem ofEntries_eq_ok_iff {entries : List Entry} {header : Header} :
    ofEntries entries = .ok header ↔
      (entries.filterMap Entry.version?).getLast? = some supportedVersion ∧
        entries.flatMap Entry.cids ≠ [] ∧
        header = { version := supportedVersion, roots := entries.flatMap Entry.cids } := by
  unfold ofEntries
  split
  · next hnone => simp [hnone]
  · next version hlast =>
    simp only [hlast, Option.some.injEq, List.isEmpty_iff]
    split_ifs with hversion hroots
    · simp [hversion]
    · simp [hroots]
    · obtain rfl := not_not.1 hversion
      simp only [Except.ok.injEq, ne_eq, hroots, not_false_eq_true, true_and]
      exact eq_comm

/-- A body is decoded exactly if it is one by the grammar, and to the header that it stands for. -/
theorem decode_eq_ok_iff_bodyOf {body : Bytes} {header : Header} :
    decode body = .ok header ↔ BodyOf AnySimple header body := by
  constructor
  · intro h
    unfold decode at h
    split at h
    · next count behind hcount =>
      obtain ⟨head, rfl, hhead⟩ := Cbor.head?_eq_some_iff.1 hcount
      split at h
      · next entries hentries =>
        obtain ⟨rfl, parts, rfl, hparts⟩ := readEntries_eq_ok_iff.1 hentries
        obtain ⟨hversion, hroots, rfl⟩ := ofEntries_eq_ok_iff.1 h
        rw [List.append_nil]
        exact .mk hhead hparts hversion hroots
      · cases h
      · cases h
    · cases h
  · rintro ⟨hhead, hparts, hversion, hroots⟩
    next entries head parts =>
      have hentries := readEntries_eq_ok_iff.2 ⟨rfl, parts, (List.append_nil _).symm, hparts⟩
      rw [decode, hhead.head?]
      simp only [hentries]
      exact ofEntries_eq_ok_iff.2 ⟨hversion, hroots, rfl⟩

/-! ## Simple values -/

theorem EntryOf.mono {simple simple' : Bytes → Prop} (hsimple : ∀ head, simple head → simple' head)
    {entry : Entry} {part : Bytes} (h : EntryOf simple entry part) :
    EntryOf simple' entry part := by
  cases h with
  | version hkey hvalue => exact .version hkey hvalue
  | roots hkey hhead hlinks => exact .roots hkey hhead hlinks
  | other hkey hversion hroots hvalue => exact .other hkey hversion hroots (hvalue.mono hsimple)

theorem BodyOf.mono {simple simple' : Bytes → Prop} (hsimple : ∀ head, simple head → simple' head)
    {header : Header} {body : Bytes} (h : BodyOf simple header body) :
    BodyOf simple' header body := by
  obtain ⟨hhead, hparts, hversion, hroots⟩ := h
  exact .mk hhead (List.Forall₂.imp (fun _ _ => EntryOf.mono hsimple) hparts) hversion hroots

/-- Decoding follows the grammar for every byte string: it gives the header that a body stands for,
and every other byte string is a malformed archive.  Every well-formed body is among those that are
decoded. The others among them have a simple value below 32 in two bytes under a key that is passed
over. -/
theorem decode_follows_grammar (body : Bytes) :
    (∀ header, decode body = .ok header ↔ BodyOf AnySimple header body) ∧
      ((∀ header, ¬BodyOf AnySimple header body) →
        ∃ fault, decode body = .error fault ∧ (Error.header fault).domain = .archive) ∧
      ∀ header, BodyOf ProperSimple header body → decode body = .ok header := by
  refine ⟨fun header => decode_eq_ok_iff_bodyOf, fun hnone => ?_, fun header hproper => ?_⟩
  · cases hdecode : decode body with
    | error fault => exact ⟨fault, rfl, rfl⟩
    | ok header => exact absurd (decode_eq_ok_iff_bodyOf.1 hdecode) (hnone header)
  · exact decode_eq_ok_iff_bodyOf.2 (hproper.mono fun _ _ => trivial)

/-- An entry in front whose key is none of the two that are known has an item behind its key. -/
theorem EntryOf.item_of_text? {simple : Bytes → Prop} {entry : Entry} {part rest behind : Bytes}
    {name : Text} (h : EntryOf simple entry part)
    (hname : Cbor.text? (part ++ rest) = some (name, behind)) (hversion : name ≠ versionKey)
    (hroots : name ≠ rootsKey) :
    ∃ value, behind = value ++ rest ∧ Item simple (Cbor.defaultDepth + 1) value := by
  have hread {name' : Text} {key : Bytes} (hkey : Head.Spells ⟨.text, name'.length⟩ key)
      (value : Bytes) :
      Cbor.text? (key ++ name' ++ value ++ rest) = some (name', value ++ rest) := by
    rw [List.append_assoc _ value]
    exact Cbor.payload?_eq_some_iff.2 ⟨key, rfl, hkey⟩
  cases h with
  | version hkey _ =>
    rw [hread hkey] at hname
    cases hname
    exact absurd rfl hversion
  | roots hkey _ _ =>
    rw [hread hkey] at hname
    cases hname
    exact absurd rfl hroots
  | @other name' key value hkey _ _ hvalue =>
    rw [hread hkey] at hname
    cases hname
    exact ⟨value, rfl, hvalue⟩

/-- A map with one more entry in front, whose value is a simple value that is reserved. -/
theorem decode_takes_reserved_value :
    let root : Cid :=
      { version := 1, codec := 0x55, hashCode := 0, digest := []
        bytes := [0x01, 0x55, 0x00, 0x00] }
    let body : Bytes := [0xa3, 0x61, 0x78, 0xf8, 0x18] ++ (encodeBody [root.bytes] 1).drop 1
    decode body = .ok { version := 1, roots := [root] } ∧
      ∀ header, ¬BodyOf ProperSimple header body := by
  intro root body
  refine ⟨by decide +kernel, fun header h => ?_⟩
  generalize hbody : body = bytes at h
  obtain ⟨hhead, hparts, -, -⟩ := h
  next entries head parts =>
    -- The head of the map, the key and the value are read off the front one by one.
    have hmap := hhead.head? parts.flatten
    rw [← hbody] at hmap
    have hknown : Cbor.head? body = some (⟨.map, 3⟩, body.drop 1) := by decide +kernel
    rw [hknown] at hmap
    obtain ⟨hcount, hrest⟩ := Prod.mk.inj (Option.some.inj hmap)
    cases hparts with
    | nil => cases hcount
    | @cons entry part entries parts hpart hparts =>
      rw [List.flatten_cons] at hrest
      have hname : Cbor.text? (part ++ parts.flatten) = some ([0x78], body.drop 3) := by
        rw [← hrest]
        decide +kernel
      obtain ⟨value, hbehind, hvalue⟩ :=
        hpart.item_of_text? hname (by decide +kernel) (by decide +kernel)
      have hsimple : Cbor.head? (value ++ parts.flatten) = some (⟨.simple, 0x18⟩, body.drop 5) := by
        rw [← hbehind]
        decide +kernel
      obtain ⟨hproper, hflatten⟩ := hvalue.of_head?_simple hsimple
      rw [← hflatten] at hbehind
      have htwo : value = [0xf8, 0x18] := List.append_cancel_right (hbehind.symm.trans (by rfl))
      exact absurd (hproper 0x18 htwo) (by decide)

end CarSlice.Archive.Header
