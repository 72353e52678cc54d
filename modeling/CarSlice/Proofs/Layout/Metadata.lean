import CarSlice.Proofs.Layout.Slots

/-!
# Nodes whose metadata disagree

A node says the same thing several times over: it has a size for every link, and it may give
the size that its parts add up to.  Where these accounts disagree the node is
no part of a file.  A root is looked at in this way, and so is a node with children.  A node
without links that comes in an open file is not: it is taken for its own bytes, whatever else it
says.

* `Node.Coherent` is the agreement.
* `Layout.Overlooks` are the nodes that are taken for their own bytes (`place_of_overlooks`).
* `disagreement_refused_iff` says of every row of blocks that these are the only ones where
  a disagreement is let through.
-/

namespace CarSlice

open UnixFs (Content Node)

/-- Every link of the node has a size, and the size that the node gives, if it gives one, is the
sum of its parts. -/
structure UnixFs.Node.Coherent (n : Node) : Prop where
  sizes : n.childSizes.length = n.linkCount
  filesize : ∀ size ∈ n.filesize, size = n.contentSize

instance (n : Node) : Decidable n.Coherent :=
  decidable_of_iff (n.childSizes.length = n.linkCount ∧ ∀ size ∈ n.filesize, size = n.contentSize)
    ⟨fun h => ⟨h.1, h.2⟩, fun h => ⟨h.sizes, h.filesize⟩⟩

theorem UnixFs.Node.IsFile.coherent {n : Node} (h : n.IsFile) : n.Coherent :=
  ⟨h.sizes, h.filesize⟩

namespace Layout

/-- How many bytes the present slot still wants. -/
def room (l : Layout) : Nat :=
  l.pending.headD 0

/-- Whether the layout takes a node for its own bytes, without a look at what the node says of its
parts. -/
def Overlooks (l : Layout) (node : Node) : Prop :=
  l.isIncomplete = true ∧ node.isInlineLeaf = true ∧ node.inlineSize ≤ l.room

instance (l : Layout) (node : Node) : Decidable (l.Overlooks node) :=
  inferInstanceAs (Decidable (_ ∧ _ ∧ _))

theorem isIncomplete_iff {l : Layout} : l.isIncomplete = true ↔ l.stage = .underway := by
  simp [isIncomplete]

/-- A node that is taken is coherent, unless it is a leaf of the present slot. -/
theorem coherent_or_overlooks {l : Layout} {node : Node} {slots : List Nat}
    (h : l.slotsAfter? (.node node) = some slots) : node.Coherent ∨ l.Overlooks node := by
  cases hstage : l.stage with
  | fresh =>
    simp only [slotsAfter?, hstage] at h
    obtain ⟨root, hroot, hfile, -⟩ := rootSlots?_eq_some_iff.1 h
    obtain rfl := Content.node.inj hroot
    exact Or.inl hfile.coherent
  | underway =>
    simp only [slotsAfter?, hstage] at h
    cases hpending : l.pending with
    | nil =>
      rw [hpending] at h
      cases h
    | cons n rest =>
      rw [hpending] at h
      have hroom : l.room = n := by
        rw [room, hpending]
        rfl
      by_cases hinline : node.isInlineLeaf = true
      · have hleaf : Content.leafSize? (.node node) = some node.inlineSize := if_pos hinline
        rw [fill?_of_leafSize? hleaf] at h
        have hle : node.inlineSize ≤ n := by
          split_ifs at h <;> omega
        exact Or.inr ⟨isIncomplete_iff.2 hstage, hinline, hroom ▸ hle⟩
      · rw [fill?_of_node (by simpa using hinline)] at h
        split_ifs at h with hinner
        exact Or.inl hinner.1.toIsFile.coherent
  | complete => simp [slotsAfter?, hstage] at h
  | failed reason => simp [slotsAfter?, hstage] at h

/-- A node that is overlooked gets the interval of its own bytes, whatever else it says. -/
theorem place_of_overlooks {l : Layout} (hl : l.Valid) {node : Node} (h : l.Overlooks node) :
    (l.place (.node node)).1 = .leaf (l.nextInterval node.inlineSize true) := by
  obtain ⟨hincomplete, hinline, hroom⟩ := h
  have hstage := isIncomplete_iff.1 hincomplete
  have hleaf : Content.leafSize? (.node node) = some node.inlineSize := if_pos hinline
  obtain ⟨slots, hslots⟩ : ∃ slots, l.slotsAfter? (.node node) = some slots := by
    simp only [slotsAfter?, hstage]
    cases hpending : l.pending with
    | nil => exact absurd hstage (hl.pending_eq_nil_iff.1 hpending)
    | cons n rest =>
      rw [room, hpending, List.headD_cons] at hroom
      rw [fill?_of_leafSize? hleaf]
      split_ifs with hlt heq
      · exact ⟨_, rfl⟩
      · exact ⟨_, rfl⟩
      · omega
  obtain ⟨frames, -, -, hplace⟩ := place_taken hl hslots
  rw [hplace, span_of_leafSize? l hleaf]
  rfl

/-- A block that comes before the end of a file gets an interval or is a mismatch. -/
theorem place_open {l : Layout} (hl : l.Valid) (hopen : l.isComplete = false) (c : Content) :
    (∃ slots, l.slotsAfter? c = some slots) ∨
      ∃ reason, (l.place c).1 = .mismatch l.cursor reason := by
  cases hslots : l.slotsAfter? c with
  | some slots => exact Or.inl ⟨slots, rfl⟩
  | none =>
    obtain ⟨reason, hplace⟩ | ⟨hcomplete, -⟩ := place_refused hl hslots
    · exact Or.inr ⟨reason, by rw [hplace]; rfl⟩
    · simp [isComplete, hcomplete] at hopen

/-- Whatever blocks came before, as long as the file is not complete, a node is given an interval
only if its metadata agree and is a mismatch if they do not.  This holds of every node but the
ones that disagree and are taken for their own bytes. -/
theorem disagreement_refused_iff (retains : Bool) (contents : List Content) (node : Node) :
    let l := ((new retains).placeAll contents).2
    let p := (l.place (.node node)).1
    l.isComplete = false →
      ((((∃ i, p = .leaf i ∨ p = .structural i) → node.Coherent) ∧
          (¬ node.Coherent → ∃ reason, p = .mismatch l.cursor reason)) ↔
        node.Coherent ∨ ¬ l.Overlooks node) := by
  intro l p hopen
  have hl : l.Valid := (valid_new retains).placeAll contents
  constructor
  · rintro ⟨honly, -⟩
    by_cases hover : l.Overlooks node
    · exact Or.inl (honly ⟨_, Or.inl (place_of_overlooks hl hover)⟩)
    · exact Or.inr hover
  · rintro (hcoherent | hover)
    · exact ⟨fun _ => hcoherent, fun hnot => absurd hcoherent hnot⟩
    · rcases place_open hl hopen (.node node) with ⟨slots, hslots⟩ | hmismatch
      · have hcoherent := (coherent_or_overlooks hslots).resolve_right hover
        exact ⟨fun _ => hcoherent, fun hnot => absurd hcoherent hnot⟩
      · refine ⟨?_, fun _ => hmismatch⟩
        obtain ⟨reason, hp⟩ := hmismatch
        rintro ⟨i, hleaf | hstructural⟩
        · exact absurd (hp.symm.trans hleaf) (by simp)
        · exact absurd (hp.symm.trans hstructural) (by simp)

/-- A root that gives a size other than the sum of its parts is a mismatch. -/
theorem disagreeing_root_refused :
    let root : Node := { kind := .file, childSizes := [10], linkCount := 1, inlineSize := 0,
                         filesize := some 11 }
    ¬ root.Coherent ∧ ∃ reason, ((new false).place (.node root)).1 = .mismatch 0 reason := by
  intro root
  have hnot : ¬ root.Coherent := by
    decide
  have hover : ¬ (new false).Overlooks root := by
    decide
  exact ⟨hnot, ((disagreement_refused_iff false [] root rfl).2 (Or.inr hover)).2 hnot⟩

/-- The same node is refused as the root and taken in an open file, where it fills a slot by its own
bytes with a size too many and with a wrong size of the whole. -/
theorem disagreeing_leaf_taken :
    let root : Node := { kind := .file, childSizes := [10], linkCount := 1, inlineSize := 0,
                         filesize := some 10 }
    let leaf : Node := { kind := .file, childSizes := [1], linkCount := 0, inlineSize := 10,
                         filesize := some 7 }
    let l := ((new false).placeAll [.node root]).2
    l.hasFailed = false ∧ l.isComplete = false ∧ ¬ leaf.Coherent ∧
      ((new false).place (.node leaf)).1 = .mismatch 0 .rootSizesCount ∧
      (l.place (.node leaf)).1 = .leaf { start := 0, stop := 10, isData := true } := by
  decide

end Layout

end CarSlice
