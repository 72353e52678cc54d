import CarSlice.Proofs.Protobuf.Grammar
import CarSlice.UnixFs
import Mathlib.Data.List.Basic

/-!
# Layouts of nodes

The same node can be written in many ways: its fields stand in any order, the sizes of its children
are cut into runs, and fields that say nothing stand in between.  `DataFields` says what the fields
of a data message must be for a node, number by number, and leaves everything else open.

* What is gathered from the fields of one number does not depend on the others (`flatMap_numbered`).
  `Entry.number_of_ofField?` says which number an entry comes from, and so each part of a node is
  gathered from the fields that are for it.
* `DataFields.entries?` reads a data message and `isLink_of_linkMessage` a link.  In a node both may
  stand anywhere (`mapM_parts`, `flatMap_parts`, `countP_parts`).
* `Node.decode?_of_layout` puts them together: from every layout the node itself is read.
-/

namespace CarSlice

namespace Protobuf

/-- The bytes of a message with the given fields, and with no more of them than a message may have
unless said otherwise. -/
structure BoundedMessageOf (fields : List Field) (s : Bytes) : Prop where
  isMessage : MessageOf fields s
  isBounded : fields.length ≤ defaultMaxFields

theorem split_eq_iff {fields : List Field} {s : Bytes} :
    split s = ⟨fields, true⟩ ↔ BoundedMessageOf fields s :=
  splitWithin_eq_iff.trans ⟨fun ⟨h, hroom⟩ => ⟨h, hroom⟩, fun ⟨h, hroom⟩ => ⟨h, hroom⟩⟩

/-- The fields with a number, in their order. -/
def numbered (number : Nat) (fields : List Field) : List Field :=
  fields.filter fun field => field.number == number

theorem mem_numbered {field : Field} {number : Nat} {fields : List Field} :
    field ∈ numbered number fields ↔ field ∈ fields ∧ field.number = number := by
  rw [numbered, List.mem_filter, beq_iff_eq]

/-- What only the fields of one number give is found among these. -/
theorem flatMap_numbered {α : Type} {g : Field → List α} {number : Nat}
    (h : ∀ field, field.number ≠ number → g field = []) (fields : List Field) :
    (numbered number fields).flatMap g = fields.flatMap g := by
  induction fields with
  | nil => rfl
  | cons field fields ih =>
    rw [List.flatMap_cons, ← ih, numbered, List.filter_cons]
    by_cases hnumber : field.number = number
    · rw [hnumber, beq_self_eq_true, if_pos rfl]
      rfl
    · rw [beq_false_of_ne hnumber, if_neg Bool.false_ne_true, h field hnumber]
      rfl

end Protobuf

/-- Readings that all succeed make up a row, and what would be read else does not matter. -/
theorem mapM_eq_some_getD {α β : Type} {f : α → Option β} {xs : List α}
    (h : ∀ x ∈ xs, ∃ y, f x = some y) (d : β) :
    xs.mapM f = some (xs.map fun x => (f x).getD d) := by
  induction xs with
  | nil => rfl
  | cons x xs ih =>
    rw [List.forall_mem_cons] at h
    obtain ⟨⟨y, hy⟩, hxs⟩ := h
    rw [List.mapM_cons, ih hxs, List.map_cons, hy]
    rfl

namespace UnixFs

open Protobuf

/-! ## Messages by their fields -/

/-- The number of a kind in the data message. -/
def NodeKind.number : NodeKind → Nat
  | .raw => 0
  | .directory => 1
  | .file => 2
  | .metadata => 3
  | .symlink => 4
  | .hamtShard => 5

theorem NodeKind.ofNumber?_number (kind : NodeKind) : ofNumber? kind.number = some kind := by
  cases kind <;> rfl

/-- Fields that give sizes of children one after the other, each of them one size or a packed run of
them. -/
inductive GiveSizes : List Nat → List Field → Prop where
  | nil : GiveSizes [] []
  | one (size : Nat) {sizes : List Nat} {fields : List Field} (hmore : GiveSizes sizes fields) :
      GiveSizes (size :: sizes) (⟨4, .varint size⟩ :: fields)
  | packed {run sizes : List Nat} {bytes : Bytes} {fields : List Field}
      (hrun : RowOf Varint.Spells run bytes) (hmore : GiveSizes sizes fields) :
      GiveSizes (run ++ sizes) (⟨4, .delimited bytes⟩ :: fields)

/-- The fields of a data message for a node: one for the kind, one for the bytes that the node holds
itself and one for the size of the file, if there are any, and any number of them for the sizes of
the children.  Fields with other numbers say nothing. -/
structure DataFields (kind : NodeKind) (sizes : List Nat) (inline : Option Bytes)
    (filesize : Option Nat) (fields : List Field) : Prop where
  kind_once : numbered 1 fields = [⟨1, .varint kind.number⟩]
  inline_once : numbered 2 fields = inline.toList.map (⟨2, .delimited ·⟩)
  filesize_once : numbered 3 fields = filesize.toList.map (⟨3, .varint ·⟩)
  sizes_in_order : GiveSizes sizes (numbered 4 fields)

/-- The bytes of a data message for a node. -/
def DataMessage (kind : NodeKind) (sizes : List Nat) (inline : Option Bytes)
    (filesize : Option Nat) (data : Bytes) : Prop :=
  ∃ fields, BoundedMessageOf fields data ∧ DataFields kind sizes inline filesize fields

/-- The bytes of a link: a message that names a block in field 1. -/
def LinkMessage (link : Bytes) : Prop :=
  ∃ fields, BoundedMessageOf fields link ∧ ∃ name, ⟨1, .delimited name⟩ ∈ fields

/-! ## What fields say -/

/-- What a field of a data message says, if anything. -/
def Entry.ofField (field : Field) : Entry :=
  (Entry.ofField? field).getD .other

/-- The number of the fields that say something of the kind of an entry. -/
def Entry.number? : Entry → Option Nat
  | .kind _ => some 1
  | .inlineSize _ => some 2
  | .filesize _ => some 3
  | .childSizes _ => some 4
  | .other => none

/-- What an entry says is said by a field with its number. -/
theorem Entry.number_of_ofField? {field : Field} {entry : Entry}
    (h : ofField? field = some entry) {number : Nat} (hnumber : entry.number? = some number) :
    field.number = number := by
  obtain ⟨n, value⟩ := field
  unfold ofField? at h
  dsimp only at h ⊢
  split at h
  case h_1 =>
    obtain ⟨kind, -, rfl⟩ := Option.map_eq_some_iff.1 h
    exact Option.some.inj hnumber
  case h_3 | h_5 | h_7 =>
    cases h
    exact Option.some.inj hnumber
  case h_8 =>
    split at h
    · cases h
      exact Option.some.inj hnumber
    · cases h
  case h_10 =>
    cases h
    cases hnumber
  -- The other fields are not written as they must be.
  all_goals cases h

theorem Entry.number?_ofField {field : Field} {number : Nat}
    (h : (ofField field).number? = some number) : field.number = number := by
  unfold ofField at h
  cases hread : ofField? field with
  | none =>
    rw [hread] at h
    cases h
  | some entry =>
    rw [hread] at h
    exact Entry.number_of_ofField? hread h

/-- An entry says one thing only. -/
theorem Entry.silent (entry : Entry) :
    (entry.number? ≠ some 1 → entry.kind? = none) ∧
      (entry.number? ≠ some 2 → entry.inlineSize? = none) ∧
      (entry.number? ≠ some 3 → entry.filesize? = none) ∧
      (entry.number? ≠ some 4 → entry.sizes = []) := by
  cases entry <;> simp [number?, kind?, inlineSize?, filesize?, sizes]

theorem flatMap_ofField {α : Type} {query : Entry → List α} {number : Nat}
    (h : ∀ entry : Entry, entry.number? ≠ some number → query entry = [])
    (fields : List Field) :
    (fields.map Entry.ofField).flatMap query =
      ((numbered number fields).map Entry.ofField).flatMap query := by
  rw [List.flatMap_map, List.flatMap_map, flatMap_numbered]
  exact fun field hfield => h _ (mt Entry.number?_ofField hfield)

theorem filterMap_ofField {α : Type} {query : Entry → Option α} {number : Nat}
    (h : ∀ entry : Entry, entry.number? ≠ some number → query entry = none)
    (fields : List Field) :
    (fields.map Entry.ofField).filterMap query =
      ((numbered number fields).map Entry.ofField).filterMap query := by
  rw [List.filterMap_eq_flatMap_toList, List.filterMap_eq_flatMap_toList]
  exact flatMap_ofField (fun entry hentry => congrArg Option.toList (h entry hentry)) fields

/-! ## Reading the data message -/

theorem Entry.ofField?_packed {run : List Nat} {bytes : Bytes} (h : RowOf Varint.Spells run bytes) :
    ofField? ⟨4, .delimited bytes⟩ = some (.childSizes run) := by
  simp only [ofField?, unpack_of_rowOf h]

theorem GiveSizes.exists_entry {sizes : List Nat} {fields : List Field} (h : GiveSizes sizes fields)
    {field : Field} (hfield : field ∈ fields) : ∃ entry, Entry.ofField? field = some entry := by
  induction h with
  | nil => cases hfield
  | one size _ ih =>
    rcases List.mem_cons.1 hfield with rfl | hfield
    · exact ⟨.childSizes [size], rfl⟩
    · exact ih hfield
  | packed hrun _ ih =>
    rcases List.mem_cons.1 hfield with rfl | hfield
    · exact ⟨_, Entry.ofField?_packed hrun⟩
    · exact ih hfield

/-- Sizes of children add up over the fields that give them. -/
theorem GiveSizes.flatMap_sizes {sizes : List Nat} {fields : List Field}
    (h : GiveSizes sizes fields) : (fields.map Entry.ofField).flatMap Entry.sizes = sizes := by
  induction h with
  | nil => rfl
  | one size _ ih => rw [List.map_cons, List.flatMap_cons, ih]; rfl
  | packed hrun _ ih =>
    rw [List.map_cons, List.flatMap_cons, ih, Entry.ofField, Entry.ofField?_packed hrun]
    rfl

section

variable {kind : NodeKind} {sizes : List Nat} {inline : Option Bytes} {filesize : Option Nat}
  {fields : List Field}

/-- Every field of a data message is written as it must be. -/
theorem DataFields.exists_entry (h : DataFields kind sizes inline filesize fields) {field : Field}
    (hfield : field ∈ fields) : ∃ entry, Entry.ofField? field = some entry := by
  have hmem : field ∈ numbered field.number fields := mem_numbered.2 ⟨hfield, rfl⟩
  by_cases hone : field.number = 1
  · rw [hone, h.kind_once, List.mem_singleton] at hmem
    rw [hmem]
    exact ⟨.kind kind, congrArg (Option.map Entry.kind) kind.ofNumber?_number⟩
  by_cases htwo : field.number = 2
  · rw [htwo, h.inline_once] at hmem
    obtain ⟨bytes, -, rfl⟩ := List.mem_map.1 hmem
    exact ⟨.inlineSize bytes.length, rfl⟩
  by_cases hthree : field.number = 3
  · rw [hthree, h.filesize_once] at hmem
    obtain ⟨size, -, rfl⟩ := List.mem_map.1 hmem
    exact ⟨.filesize size, rfl⟩
  by_cases hfour : field.number = 4
  · rw [hfour] at hmem
    exact h.sizes_in_order.exists_entry hmem
  · refine ⟨.other, ?_⟩
    unfold Entry.ofField?
    split <;> first | rfl | contradiction

theorem DataFields.kinds (h : DataFields kind sizes inline filesize fields) :
    (fields.map Entry.ofField).filterMap Entry.kind? = [kind] := by
  rw [filterMap_ofField fun entry => entry.silent.1, h.kind_once]
  have hentry : Entry.ofField ⟨1, .varint kind.number⟩ = .kind kind :=
    congrArg (fun k? => (k?.map Entry.kind).getD .other) kind.ofNumber?_number
  rw [List.map_singleton, hentry]
  rfl

theorem DataFields.inlineSizes (h : DataFields kind sizes inline filesize fields) :
    (fields.map Entry.ofField).filterMap Entry.inlineSize? =
      (inline.map List.length).toList := by
  rw [filterMap_ofField fun entry => entry.silent.2.1, h.inline_once]
  cases inline <;> rfl

theorem DataFields.filesizes (h : DataFields kind sizes inline filesize fields) :
    (fields.map Entry.ofField).filterMap Entry.filesize? = filesize.toList := by
  rw [filterMap_ofField fun entry => entry.silent.2.2.1, h.filesize_once]
  cases filesize <;> rfl

theorem DataFields.childSizes (h : DataFields kind sizes inline filesize fields) :
    (fields.map Entry.ofField).flatMap Entry.sizes = sizes := by
  rw [flatMap_ofField fun entry => entry.silent.2.2.2]
  exact h.sizes_in_order.flatMap_sizes

/-- A data message is read field by field. -/
theorem DataFields.entries? (h : DataFields kind sizes inline filesize fields) {data : Bytes}
    (hdata : BoundedMessageOf fields data) :
    UnixFs.entries? data = some (fields.map Entry.ofField) := by
  have hread : fields.mapM Entry.ofField? = some (fields.map Entry.ofField) :=
    mapM_eq_some_getD (fun _ => h.exists_entry) .other
  have hkind : kind ∈ (fields.map Entry.ofField).filterMap Entry.kind? := by
    rw [h.kinds]
    exact List.mem_singleton_self kind
  obtain ⟨entry, hentry, hsays⟩ := List.mem_filterMap.1 hkind
  unfold UnixFs.entries?
  dsimp only
  rw [split_eq_iff.2 hdata, if_pos rfl, hread, Option.filter_some, if_pos]
  exact List.any_eq_true.2 ⟨entry, hentry, Option.isSome_of_eq_some hsays⟩

end

/-! ## Reading the node -/

theorem isLink_of_linkMessage {link : Bytes} (h : LinkMessage link) : isLink link = true := by
  obtain ⟨fields, hlink, name, hname⟩ := h
  unfold isLink
  dsimp only
  rw [split_eq_iff.2 hlink]
  exact List.any_eq_true.2 ⟨_, hname, rfl⟩

/-- What a field of a node holds, where a field that holds nothing counts as a link. -/
def Part.ofField (field : Field) : Part :=
  (Part.ofField? field).getD .link

theorem Part.entries_ofField {field : Field} (h : field.number ≠ 1) :
    (ofField field).entries = [] := by
  unfold ofField ofField?
  split
  · contradiction
  · split <;> rfl
  · rfl

theorem Part.ofField?_data {data : Bytes} {entries : List Entry}
    (h : entries? data = some entries) : ofField? ⟨1, .delimited data⟩ = some (.data entries) :=
  congrArg (Option.map Part.data) h

theorem Part.ofField?_link {link : Bytes} (h : LinkMessage link) :
    ofField? ⟨2, .delimited link⟩ = some .link :=
  if_pos (isLink_of_linkMessage h)

section

variable {fields : List Field} {data : Bytes} {links : List Bytes} {entries : List Entry}
  (hholds : fields.Perm (⟨1, .delimited data⟩ :: links.map (⟨2, .delimited ·⟩)))
  (hdata : entries? data = some entries) (hlinks : ∀ link ∈ links, LinkMessage link)

include hholds in
/-- Wherever it stands, the data message is the only one. -/
theorem numbered_of_perm : numbered 1 fields = [⟨1, .delimited data⟩] := by
  have hlinks : numbered 1 (links.map (⟨2, .delimited ·⟩)) = [] := by
    refine List.eq_nil_iff_forall_not_mem.2 fun field hfield => ?_
    obtain ⟨hlink, hnumber⟩ := mem_numbered.1 hfield
    obtain ⟨link, -, rfl⟩ := List.mem_map.1 hlink
    cases hnumber
  have hperm : (numbered 1 fields).Perm [⟨1, .delimited data⟩] := by
    rw [← hlinks]
    exact hholds.filter _
  exact List.perm_singleton.1 hperm

include hholds hdata hlinks in
/-- Every field of a node is a part of it. -/
theorem mapM_parts : fields.mapM Part.ofField? = some (fields.map Part.ofField) := by
  refine mapM_eq_some_getD (fun field hfield => ?_) Part.link
  rcases List.mem_cons.1 (hholds.mem_iff.1 hfield) with rfl | hfield
  · exact ⟨_, Part.ofField?_data hdata⟩
  · obtain ⟨link, hlink, rfl⟩ := List.mem_map.1 hfield
    exact ⟨_, Part.ofField?_link (hlinks link hlink)⟩

include hholds hdata in
theorem flatMap_parts : (fields.map Part.ofField).flatMap Part.entries = entries := by
  rw [List.flatMap_map, ← flatMap_numbered (fun _ => Part.entries_ofField),
    numbered_of_perm hholds, List.flatMap_singleton, Part.ofField, Part.ofField?_data hdata]
  rfl

include hholds hdata hlinks in
theorem countP_parts : (fields.map Part.ofField).countP Part.isLink = links.length := by
  have hall : ∀ field ∈ links.map (⟨2, .delimited ·⟩),
      (Part.isLink ∘ Part.ofField) field = true := by
    intro field hfield
    obtain ⟨link, hlink, rfl⟩ := List.mem_map.1 hfield
    rw [Function.comp_apply, Part.ofField, Part.ofField?_link (hlinks link hlink)]
    rfl
  have hnot : (Part.isLink ∘ Part.ofField) ⟨1, .delimited data⟩ = false := by
    rw [Function.comp_apply, Part.ofField, Part.ofField?_data hdata]
    rfl
  rw [List.countP_map, hholds.countP_eq, List.countP_cons, List.countP_eq_length.2 hall, hnot,
    List.length_map]
  rfl

end

/-- Every node is read back, in whatever order the fields of its messages stand, however the sizes
of its children are cut into runs, and whatever its data message says besides. -/
theorem Node.decode?_of_layout {kind : NodeKind} {sizes : List Nat} {inline : Option Bytes}
    {filesize : Option Nat} {data payload : Bytes} {links : List Bytes} {fields : List Field}
    (hdata : DataMessage kind sizes inline filesize data)
    (hlinks : ∀ link ∈ links, LinkMessage link) (hpayload : BoundedMessageOf fields payload)
    (hholds : fields.Perm (⟨1, .delimited data⟩ :: links.map (⟨2, .delimited ·⟩))) :
    Node.decode? payload = some
      { kind
        childSizes := sizes
        linkCount := links.length
        inlineSize := (inline.map List.length).getD 0
        filesize } := by
  obtain ⟨dataFields, hmessage, hsays⟩ := hdata
  have hentries := hsays.entries? hmessage
  unfold Node.decode?
  dsimp only
  rw [split_eq_iff.2 hpayload, if_pos rfl, mapM_parts hholds hentries hlinks, Option.bind_some,
    Node.ofParts?, flatMap_parts hholds hentries, countP_parts hholds hentries hlinks,
    hsays.kinds, hsays.childSizes, hsays.inlineSizes, hsays.filesizes]
  cases inline <;> cases filesize <;> rfl

/-- A file with two links, of which one stands in front of the data message.  Its data message gives
the sizes of the children in front of the kind and behind it, in two runs, of which one has a number
that is not the shortest, in an empty run and in a field of its own, and has four fields besides. -/
theorem Node.decode?_of_mixed_layout :
    let link : Bytes := [10, 2, 170, 187, 18, 0, 24, 0]
    let other : Bytes := [24, 9, 10, 1, 204]
    let data : Bytes := [34, 5, 5, 135, 0, 172, 2, 49, 1, 2, 3, 4, 5, 6, 7, 8, 18, 3, 97, 98, 99,
      32, 9, 40, 18, 8, 2, 34, 0, 61, 1, 2, 3, 4, 34, 1, 1, 24, 197, 2, 130, 1, 1, 0]
    Node.decode? ([18, 8] ++ link ++ ([10, 44] ++ data) ++ ([18, 5] ++ other)) = some
      { kind := .file
        childSizes := [5, 7, 300, 9, 1]
        linkCount := 2
        inlineSize := 3
        filesize := some 325 } := by
  intro link other data
  have hlinks : ∀ l ∈ [link, other], LinkMessage l := by
    refine List.forall_mem_cons.2 ⟨?_, List.forall_mem_singleton.2 ?_⟩
    · exact ⟨[⟨1, .delimited [170, 187]⟩, ⟨2, .delimited []⟩, ⟨3, .varint 0⟩],
        split_eq_iff.1 (by decide +kernel), [170, 187], by decide⟩
    · exact ⟨[⟨3, .varint 9⟩, ⟨1, .delimited [204]⟩], split_eq_iff.1 (by decide +kernel),
        [204], by decide⟩
  have hfive : Varint.Spells 5 [5] := Varint.read?_eq_some_nil_iff.1 (by decide)
  have hseven : Varint.Spells 7 [135, 0] := Varint.read?_eq_some_nil_iff.1 (by decide)
  have hlarge : Varint.Spells 300 [172, 2] := Varint.read?_eq_some_nil_iff.1 (by decide)
  have hone : Varint.Spells 1 [1] := Varint.read?_eq_some_nil_iff.1 (by decide)
  have hsizes : GiveSizes [5, 7, 300, 9, 1] [⟨4, .delimited [5, 135, 0, 172, 2]⟩, ⟨4, .varint 9⟩,
      ⟨4, .delimited []⟩, ⟨4, .delimited [1]⟩] :=
    .packed (.cons hfive (.cons hseven (rowOf_singleton hlarge)))
      (.one 9 (.packed .nil (.packed (rowOf_singleton hone) .nil)))
  have hdata : DataMessage .file [5, 7, 300, 9, 1] (some [97, 98, 99]) (some 325) data :=
    ⟨[⟨4, .delimited [5, 135, 0, 172, 2]⟩, ⟨6, .fixed64 [1, 2, 3, 4, 5, 6, 7, 8]⟩,
        ⟨2, .delimited [97, 98, 99]⟩, ⟨4, .varint 9⟩, ⟨5, .varint 18⟩, ⟨1, .varint 2⟩,
        ⟨4, .delimited []⟩, ⟨7, .fixed32 [1, 2, 3, 4]⟩, ⟨4, .delimited [1]⟩, ⟨3, .varint 325⟩,
        ⟨16, .delimited [0]⟩],
      split_eq_iff.1 (by decide +kernel), rfl, rfl, rfl, hsizes⟩
  have hpayload : BoundedMessageOf
      [⟨2, .delimited link⟩, ⟨1, .delimited data⟩, ⟨2, .delimited other⟩]
      ([18, 8] ++ link ++ ([10, 44] ++ data) ++ ([18, 5] ++ other)) :=
    split_eq_iff.1 (by decide +kernel)
  have hholds : List.Perm
      [(⟨2, .delimited link⟩ : Field), ⟨1, .delimited data⟩, ⟨2, .delimited other⟩]
      (⟨1, .delimited data⟩ :: [link, other].map (⟨2, .delimited ·⟩)) :=
    .swap ..
  exact Node.decode?_of_layout hdata hlinks hpayload hholds

end UnixFs

end CarSlice
