import CarSlice.Proofs.Cbor.Grammar
import Mathlib.Data.List.Basic

/-!
# Passing over one item

A cursor passes over exactly one item.  Where one stands in front of it, nested no deeper than the
cursor allows, it moves behind it, and otherwise it stays where it is, however far inside an item
the fault was found.

`Cursor.Faces` says which item a cursor stands in front of.  What is passed over is an item of the
grammar, but for one thing: a simple value below 32 may stand there in two bytes, which is no
well-formed item (`Item.proper_or_reserved`, `skip_takes_reserved_value`).
-/

namespace CarSlice.Cbor

/-! ## Reserved values -/

/-- A simple value in two bytes that has its place in one byte, or is reserved. -/
def HoldsReserved (bytes : Bytes) : Prop :=
  ∃ value < 32, [0xf8, value] <:+: bytes

theorem HoldsReserved.of_infix {part bytes : Bytes} (h : HoldsReserved part)
    (hpart : part <:+: bytes) : HoldsReserved bytes := by
  obtain ⟨value, hvalue, hinfix⟩ := h
  exact ⟨value, hvalue, hinfix.trans hpart⟩

/-- Of a row of items each is well formed, or the row holds a reserved value. -/
theorem proper_or_reserved_row {levels : Nat} {items : List Bytes}
    (h : ∀ item ∈ items, Item ProperSimple levels item ∨ HoldsReserved item) :
    (∀ item ∈ items, Item ProperSimple levels item) ∨ HoldsReserved items.flatten := by
  by_cases hall : ∀ item ∈ items, Item ProperSimple levels item
  · exact .inl hall
  · push Not at hall
    obtain ⟨item, hmem, hnot⟩ := hall
    have hreserved := (h item hmem).resolve_left hnot
    exact .inr (hreserved.of_infix (List.infix_of_mem_flatten hmem))

/-- What is passed over is a well-formed item, unless a simple value that is reserved stands in
it. -/
theorem Item.proper_or_reserved {levels : Nat} {item : Bytes} (h : Item AnySimple levels item) :
    Item ProperSimple levels item ∨ HoldsReserved item := by
  induction h with
  | integer hmajor hhead => exact .inl (.integer hmajor hhead)
  | @simple levels argument head hhead _ =>
    by_cases hproper : ProperSimple head
    · exact .inl (.simple hhead hproper)
    · simp only [ProperSimple, not_forall, UInt8.not_le] at hproper
      obtain ⟨value, rfl, hvalue⟩ := hproper
      exact .inr ⟨value, hvalue, List.infix_refl _⟩
  | string hmajor hhead => exact .inl (.string hmajor hhead)
  | @array levels head items hhead _ ih =>
    rcases proper_or_reserved_row ih with hproper | hreserved
    · exact .inl (.array hhead hproper)
    · exact .inr (hreserved.of_infix (List.suffix_append ..).isInfix)
  | @map levels count head items hhead hcount _ ih =>
    rcases proper_or_reserved_row ih with hproper | hreserved
    · exact .inl (.map hhead hcount hproper)
    · exact .inr (hreserved.of_infix (List.suffix_append ..).isInfix)
  | @tag levels number head content hhead _ ih =>
    rcases ih with hproper | hreserved
    · exact .inl (.tag hhead hproper)
    · exact .inr (hreserved.of_infix (List.suffix_append ..).isInfix)

/-! ## Cursors -/

namespace Cursor

/-- An item stands in front of a cursor, and `rest` behind it.  Each item in it is enclosed by at
most as many arrays, maps and tags as the cursor allows. -/
structure Faces (simple : Bytes → Prop) (c : Cursor) (item rest : Bytes) : Prop where
  unread : c.unread = item ++ rest
  item : Item simple (c.maxDepth + 1) item

/-- The cursor behind what stands in front of it. -/
def behind (c : Cursor) (item rest : Bytes) : Cursor :=
  { c with unread := rest, offset := c.offset + item.length }

theorem Faces.skip {c : Cursor} {item rest : Bytes} (h : c.Faces AnySimple item rest) :
    c.skip = (some (), c.behind item rest) := by
  have hskip : skip? c.maxDepth c.unread = some rest :=
    skipWithin_eq_some_iff.2 ⟨item, h.unread, h.item⟩
  have hlength : c.unread.length - rest.length = item.length := by
    rw [h.unread, List.length_append, Nat.add_sub_cancel]
  rw [Cursor.skip, take, hskip]
  simp only [Option.map_some, moveTo, behind, hlength]

theorem exists_faces_of_skip? {c : Cursor} {rest : Bytes}
    (h : skip? c.maxDepth c.unread = some rest) : ∃ item, c.Faces AnySimple item rest := by
  obtain ⟨item, hunread, hitem⟩ := skipWithin_eq_some_iff.1 h
  exact ⟨item, hunread, hitem⟩

theorem skip_of_not_faces {c : Cursor} (h : ∀ item rest, ¬c.Faces AnySimple item rest) :
    c.skip = (none, c) := by
  cases hskip : skip? c.maxDepth c.unread with
  | none => simp only [Cursor.skip, take, hskip, Option.map_none]
  | some rest =>
    obtain ⟨item, hfaces⟩ := exists_faces_of_skip? hskip
    exact absurd hfaces (h item rest)

/-- Passing over succeeds exactly if an item stands in front of the cursor, which then moves behind
it, and leaves the cursor where it is otherwise.  Every well-formed item is passed over.  The
others that are hold a simple value below 32 in two bytes. -/
theorem skip_passes_over_one_item (c : Cursor) :
    (c.skip.1 = some () ↔ ∃ item rest, c.Faces AnySimple item rest) ∧
      (∀ item rest, c.Faces AnySimple item rest → c.skip = (some (), c.behind item rest)) ∧
      ((∀ item rest, ¬c.Faces AnySimple item rest) → c.skip = (none, c)) ∧
      (∀ item rest, c.Faces ProperSimple item rest → c.skip = (some (), c.behind item rest)) ∧
      ∀ item rest, c.Faces AnySimple item rest →
        c.Faces ProperSimple item rest ∨ HoldsReserved item := by
  refine ⟨⟨fun hskip => ?_, fun ⟨item, rest, hfaces⟩ => ?_⟩, fun item rest => Faces.skip,
    skip_of_not_faces, fun item rest hproper => ?_, fun item rest hfaces => ?_⟩
  · by_contra hnone
    push Not at hnone
    rw [skip_of_not_faces hnone] at hskip
    cases hskip
  · rw [hfaces.skip]
  · exact Faces.skip ⟨hproper.unread, hproper.item.mono fun _ _ => trivial⟩
  · exact hfaces.item.proper_or_reserved.imp_left fun hproper => ⟨hfaces.unread, hproper⟩

/-- An array in an array is enclosed by one array. -/
example : skip? 0 [0x81, 0x80, 0x07] = none ∧ skip? 1 [0x81, 0x80, 0x07] = some [0x07] := by
  decide +kernel

/-- The simple value 24 in two bytes is passed over, and is no well-formed item. -/
theorem skip_takes_reserved_value :
    let c : Cursor := { unread := [0xf8, 0x18] }
    c.skip = (some (), { unread := [], offset := 2 }) ∧
      ∀ item rest, ¬c.Faces ProperSimple item rest := by
  refine ⟨by rfl, fun item rest h => ?_⟩
  have hunread : [0xf8, 0x18] = item ++ rest := h.unread
  have hhead : head? (item ++ rest) = some (⟨.simple, 0x18⟩, []) := by
    rw [← hunread]
    decide +kernel
  obtain ⟨hproper, hrest⟩ := h.item.of_head?_simple hhead
  rw [← hrest, List.append_nil] at hunread
  exact absurd (hproper 0x18 hunread.symm) (by decide)

end Cursor

end CarSlice.Cbor
