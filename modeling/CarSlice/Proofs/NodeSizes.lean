import CarSlice.Proofs.Varint
import CarSlice.UnixFs

/-!
# Sizes of nodes fit words

The bytes that a node holds itself are a field of its message, and a field stands behind
its length.  So their number is below `2 ^ 63`, however long the payload is.
-/

namespace CarSlice

/-! ## Fields -/

namespace Protobuf

/-- A field holds no more bytes than a length can say. -/
def Field.IsShort (field : Field) : Prop :=
  ∀ bytes, field.value = .delimited bytes → bytes.length < 2 ^ 63

theorem length_lt_of_delimited? {s bytes rest : Bytes} (h : delimited? s = some (bytes, rest)) :
    bytes.length < 2 ^ 63 := by
  unfold delimited? at h
  split at h
  · next length s' hread =>
    obtain ⟨-, hlength⟩ := takeExactly?_eq_some_iff.1 h
    rw [hlength]
    exact Varint.value_lt_of_read? hread
  · cases h

theorem length_lt_of_value? {wire : Nat} {s bytes rest : Bytes}
    (h : value? wire s = some (.delimited bytes, rest)) : bytes.length < 2 ^ 63 := by
  unfold value? at h
  split at h
  case h_3 =>
    obtain ⟨⟨bytes', rest'⟩, hread, heq⟩ := Option.map_eq_some_iff.1 h
    cases heq
    exact length_lt_of_delimited? hread
  all_goals simp at h

theorem isShort_of_field? {s rest : Bytes} {field : Field} (h : field? s = some (field, rest)) :
    field.IsShort := by
  unfold field? at h
  split at h
  · cases h
  · dsimp only at h
    split at h
    · cases h
    · obtain ⟨⟨value, rest'⟩, hvalue, heq⟩ := Option.map_eq_some_iff.1 h
      cases heq
      intro bytes hbytes
      obtain rfl : value = .delimited bytes := hbytes
      exact length_lt_of_value? hvalue

theorem isShort_of_splitOnto {found : List Field} {room : Nat} {s : Bytes}
    (hfound : ∀ field ∈ found, field.IsShort) :
    ∀ field ∈ (splitOnto found room s).fields, field.IsShort := by
  fun_induction splitOnto found room s with
  | case1 found => simpa using hfound
  | case2 found => simpa using hfound
  | case3 found room s _ field rest hfield ih =>
    apply ih
    simp only [List.mem_cons, forall_eq_or_imp]
    exact ⟨isShort_of_field? hfield, hfound⟩
  | case4 found => simpa using hfound

theorem isShort_of_split (s : Bytes) : ∀ field ∈ (split s).fields, field.IsShort :=
  isShort_of_splitOnto (by simp)

end Protobuf

/-- What a row of readings holds was read. -/
theorem exists_of_mem_mapM {α β : Type} {f : α → Option β} {xs : List α} {ys : List β}
    (h : xs.mapM f = some ys) {y : β} (hy : y ∈ ys) : ∃ x ∈ xs, f x = some y := by
  induction xs generalizing ys with
  | nil =>
    obtain rfl : ys = [] := by simpa [eq_comm] using h
    cases hy
  | cons x xs ih =>
    simp only [List.mapM_cons, Option.bind_eq_bind, Option.bind_eq_some_iff] at h
    rcases h with ⟨y', hx, ys', hxs, heq⟩
    cases heq
    rcases List.mem_cons.1 hy with rfl | hy
    · exact ⟨x, by simp, hx⟩
    · obtain ⟨x', hx', hf⟩ := ih hxs hy
      exact ⟨x', by simp [hx'], hf⟩

namespace UnixFs

/-! ## Nodes -/

theorem Entry.inlineSize_lt {field : Protobuf.Field} (hshort : field.IsShort) {size : Nat}
    (h : ofField? field = some (.inlineSize size)) : size < 2 ^ 63 := by
  unfold ofField? at h
  split at h
  all_goals try simp at h
  · next bytes _ hvalue =>
    obtain rfl := h
    exact hshort bytes hvalue
  · split at h <;> simp at h

theorem entries?_inlineSize_lt {data : Bytes} {entries : List Entry}
    (h : entries? data = some entries) {size : Nat} (hmem : .inlineSize size ∈ entries) :
    size < 2 ^ 63 := by
  unfold entries? at h
  dsimp only at h
  split at h
  · obtain ⟨hread, -⟩ := Option.filter_eq_some_iff.1 h
    obtain ⟨field, hfield, hentry⟩ := exists_of_mem_mapM hread hmem
    exact Entry.inlineSize_lt (Protobuf.isShort_of_split data field hfield) hentry
  · cases h

theorem Part.inlineSize_lt {field : Protobuf.Field} {part : Part}
    (h : ofField? field = some part) {size : Nat} (hmem : .inlineSize size ∈ part.entries) :
    size < 2 ^ 63 := by
  unfold ofField? at h
  split at h
  · obtain ⟨entries, hentries, rfl⟩ := Option.map_eq_some_iff.1 h
    exact entries?_inlineSize_lt hentries hmem
  · split at h
    · cases h
      simp [Part.entries] at hmem
    · cases h
  · cases h

/-- The bytes that a node holds itself are fewer than a length can say. -/
theorem Node.inlineSize_lt {payload : Bytes} {n : Node} (h : decode? payload = some n) :
    n.inlineSize < 2 ^ 63 := by
  unfold decode? at h
  dsimp only at h
  split at h
  · obtain ⟨parts, hparts, hnode⟩ := Option.bind_eq_some_iff.1 h
    obtain ⟨kind, -, rfl⟩ := Option.map_eq_some_iff.1 hnode
    show ((parts.flatMap Part.entries).filterMap Entry.inlineSize?).getLast?.getD 0 < 2 ^ 63
    cases hlast : ((parts.flatMap Part.entries).filterMap Entry.inlineSize?).getLast? with
    | none => decide
    | some size =>
      obtain ⟨entry, hentry, hsize⟩ := List.mem_filterMap.1 (List.mem_of_getLast? hlast)
      obtain ⟨part, hpart, hmem⟩ := List.mem_flatMap.1 hentry
      obtain ⟨field, -, hfield⟩ := exists_of_mem_mapM hparts hpart
      cases entry <;> simp [Entry.inlineSize?] at hsize
      subst hsize
      exact Part.inlineSize_lt hfield hmem
  · cases h

/-- The node in a block holds no more bytes than the counts can say. -/
theorem Content.inlineSize_le_of_ofBlock {block : Archive.Block} {n : Node}
    (h : ofBlock block = .node n) : n.inlineSize ≤ maxCount := by
  unfold ofBlock ofPayload at h
  split at h
  · split at h
    · next n' hdecode =>
      cases h
      have hlt := Node.inlineSize_lt hdecode
      have hmax : maxCount = 2 ^ 64 - 1 := by decide
      omega
    · cases h
  · cases h

end UnixFs

end CarSlice
