import CarSlice.Proofs.Layout.Slots

/-!
# The grammar of a file

Which rows of blocks make up a file can be said without a layout: a slot is filled by
leaves one after the other, or by a node with children whose slots are filled in
order, and leaves may come before such a node.  `Fills` and `FillsAll` are this
grammar, `IsFileRow` adds the root.

The layout accepts exactly this grammar.  There are three steps.

* `fillsAll_cons_cons_iff`: a block that is taken off a row of slots (`fill?`) is one
  step of a derivation.  It needs that a row of slots can be cut anywhere
  (`fillsAll_append_iff`), since a node puts its own slots in front of the others.
* `completesWith_iff`: by induction on the blocks, a layout with open slots is complete
  exactly at the end of a row of blocks that fill them.
* `isFileRow_iff`: both kinds of root are one, a file node whose slots are filled.
-/

namespace CarSlice

open UnixFs (Content Node)

/-! ## Derivations -/

mutual

/-- The blocks that fill one slot of `n` bytes. -/
inductive Fills : Nat → List Content → Prop
  | leaf {c n} (hleaf : c.leafSize? = some n) : Fills n [c]
  | part {c m n bs} (hleaf : c.leafSize? = some m) (hlt : m < n) (rest : Fills (n - m) bs) :
      Fills n (c :: bs)
  | node {node bs} (hinner : node.IsInner) (children : FillsAll node.childSizes bs) :
      Fills node.contentSize (.node node :: bs)

/-- The blocks that fill a row of slots, each slot with blocks of its own. -/
inductive FillsAll : List Nat → List Content → Prop
  | nil : FillsAll [] []
  | cons {n ns bs more} (first : Fills n bs) (rest : FillsAll ns more) :
      FillsAll (n :: ns) (bs ++ more)

end

/-- The blocks of a whole file: a root without links that holds all of it, or a root
with children and the blocks that fill its slots. -/
def IsFileRow (contents : List Content) : Prop :=
  (∃ root : Node, contents = [.node root] ∧ root.kind = .file ∧ root.linkCount = 0 ∧
      root.childSizes = [] ∧ ∀ size ∈ root.filesize, size = root.inlineSize) ∨
    ∃ (root : Node) (bs : List Content), contents = .node root :: bs ∧ root.IsInner ∧
      FillsAll root.childSizes bs

theorem Fills.ne_nil {n : Nat} {bs : List Content} (h : Fills n bs) : bs ≠ [] := by
  cases h <;> simp

@[simp] theorem fillsAll_nil_iff {bs : List Content} : FillsAll [] bs ↔ bs = [] := by
  constructor
  · intro h
    cases h
    rfl
  · rintro rfl
    exact .nil

/-- Slots that are still there want at least one block. -/
theorem FillsAll.ne_nil {n : Nat} {ns : List Nat} {bs : List Content}
    (h : FillsAll (n :: ns) bs) : bs ≠ [] := by
  cases h with
  | cons first rest => simp [first.ne_nil]

theorem fillsAll_append_iff {ns ms : List Nat} {bs : List Content} :
    FillsAll (ns ++ ms) bs ↔
      ∃ first second, bs = first ++ second ∧ FillsAll ns first ∧ FillsAll ms second := by
  induction ns generalizing bs with
  | nil =>
    constructor
    · intro h
      exact ⟨[], bs, rfl, .nil, h⟩
    · intro h
      rcases h with ⟨first, second, rfl, hfirst, hsecond⟩
      obtain rfl := fillsAll_nil_iff.1 hfirst
      exact hsecond
  | cons n ns ih =>
    constructor
    · intro h
      cases h with
      | @cons _ _ front more hfront hmore =>
        obtain ⟨first, second, rfl, hfirst, hsecond⟩ := ih.1 hmore
        exact ⟨front ++ first, second, by simp, .cons hfront hfirst, hsecond⟩
    · intro h
      rcases h with ⟨first, second, rfl, hfirst, hsecond⟩
      cases hfirst with
      | @cons _ _ front more hfront hmore =>
        rw [List.append_assoc]
        exact .cons hfront (ih.2 ⟨more, second, rfl, hmore, hsecond⟩)

/-- One step of a derivation: the first block is taken off the slots, and the rest of
the blocks fill what it leaves. -/
theorem fillsAll_cons_cons_iff {n : Nat} {ns : List Nat} {c : Content} {bs : List Content} :
    FillsAll (n :: ns) (c :: bs) ↔
      ∃ slots, fill? (n :: ns) c = some slots ∧ FillsAll slots bs := by
  constructor
  · intro h
    generalize hrow : c :: bs = row at h
    cases h with
    | @cons _ _ front more hfront hmore =>
      cases hfront with
      | leaf hleaf =>
        obtain ⟨rfl, rfl⟩ : c = _ ∧ bs = more := by simpa using hrow
        exact ⟨ns, by simp [fill?_of_leafSize? hleaf], hmore⟩
      | @part _ m _ bs' hleaf hlt hrest =>
        obtain ⟨rfl, rfl⟩ : c = _ ∧ bs = bs' ++ more := by simpa using hrow
        exact ⟨(n - m) :: ns, by simp [fill?_of_leafSize? hleaf, hlt], .cons hrest hmore⟩
      | @node node bs' hinner hchildren =>
        obtain ⟨rfl, rfl⟩ : c = _ ∧ bs = bs' ++ more := by simpa using hrow
        exact ⟨_, fill?_of_isInner hinner ns,
          fillsAll_append_iff.2 ⟨bs', more, rfl, hchildren, hmore⟩⟩
  · intro h
    rcases h with ⟨slots, hfill, h⟩
    obtain ⟨m, hleaf, hlt, rfl⟩ | ⟨hleaf, rfl⟩ | ⟨node, rfl, hinner, rfl, rfl⟩ := fill?_cases hfill
    · cases h with
      | @cons _ _ front more hfront hmore => exact .cons (.part hleaf hlt hfront) hmore
    · exact .cons (.leaf hleaf) h
    · obtain ⟨first, second, rfl, hfirst, hsecond⟩ := fillsAll_append_iff.1 h
      exact .cons (.node hinner hfirst) hsecond

/-- Both kinds of root are a file node with slots to be filled, if need be none. -/
theorem isFileRow_iff {contents : List Content} :
    IsFileRow contents ↔ ∃ (root : Node) (bs : List Content), contents = .node root :: bs ∧
      root.IsFile ∧ FillsAll root.childSizes bs := by
  constructor
  · intro h
    rcases h with ⟨root, rfl, hkind, hlinks, hnil, hfilesize⟩ | ⟨root, bs, rfl, hinner, hfills⟩
    · refine ⟨root, [], rfl, ⟨hkind, by simp [hnil, hlinks], ?_⟩, by simp [hnil]⟩
      simpa [Node.contentSize, hnil] using hfilesize
    · exact ⟨root, bs, rfl, hinner.toIsFile, hfills⟩
  · intro h
    rcases h with ⟨root, bs, rfl, hfile, hfills⟩
    by_cases hlinks : root.linkCount = 0
    · have hnil : root.childSizes = [] := by
        rw [← List.length_eq_zero_iff, hfile.sizes, hlinks]
      rw [hnil, fillsAll_nil_iff] at hfills
      refine Or.inl ⟨root, by rw [hfills], hfile.kind, hlinks, hnil, ?_⟩
      simpa [Node.contentSize, hnil] using hfile.filesize
    · exact Or.inr ⟨root, bs, rfl, ⟨hfile, Nat.pos_of_ne_zero hlinks⟩, hfills⟩

namespace Layout

/-! ## Completion -/

/-- A row of blocks completes a layout with its last block and not before. -/
def CompletesWith (l : Layout) (contents : List Content) : Prop :=
  (l.placeAll contents).2.isComplete = true ∧
    ∀ front back, contents = front ++ back → back ≠ [] →
      (l.placeAll front).2.isComplete = false

theorem completesWith_nil {l : Layout} : l.CompletesWith [] ↔ l.isComplete = true := by
  constructor
  · exact fun h => h.1
  · intro h
    refine ⟨h, ?_⟩
    intro front back hrow hback
    exact absurd (List.append_eq_nil_iff.1 hrow.symm).2 hback

theorem completesWith_cons {l : Layout} {c : Content} {bs : List Content} :
    l.CompletesWith (c :: bs) ↔ l.isComplete = false ∧ (l.place c).2.CompletesWith bs := by
  constructor
  · intro h
    rcases h with ⟨hcomplete, hfronts⟩
    refine ⟨hfronts [] (c :: bs) rfl (by simp), hcomplete, ?_⟩
    rintro front back rfl hback
    exact hfronts (c :: front) back rfl hback
  · intro h
    rcases h with ⟨hnot, hcomplete, hfronts⟩
    refine ⟨hcomplete, ?_⟩
    intro front back hrow hback
    cases front with
    | nil => exact hnot
    | cons c' front =>
      obtain ⟨rfl, hrest⟩ := List.cons.inj hrow
      exact hfronts front back hrest hback

theorem placeAll_failed {l : Layout} {reason : Mismatch} (h : l.stage = .failed reason)
    (contents : List Content) : (l.placeAll contents).2 = l := by
  induction contents with
  | nil => rfl
  | cons c contents ih =>
    have hplace : l.place c = (.mismatch l.cursor reason, l) := by simp [place, h]
    rw [placeAll_cons, hplace]
    exact ih

theorem not_completesWith_of_failed {l : Layout} {reason : Mismatch}
    (h : l.stage = .failed reason) (contents : List Content) : ¬l.CompletesWith contents := by
  intro h
  rcases h with ⟨hcomplete, -⟩
  rw [placeAll_failed h, isComplete, h] at hcomplete
  cases hcomplete

/-- A mismatch is never made good: the layout fails at it for all blocks to come. -/
theorem exists_failed_of_mismatch {l : Layout} (hl : l.Valid) {contents : List Content}
    {offset : Nat} {reason : Mismatch} (h : .mismatch offset reason ∈ (l.placeAll contents).1) :
    ∃ reason', (l.placeAll contents).2.stage = .failed reason' := by
  induction contents generalizing l with
  | nil => simp at h
  | cons c contents ih =>
    rw [placeAll_cons, List.mem_cons] at h
    rcases h with h | h
    · cases hslots : l.slotsAfter? c with
      | some slots =>
        obtain ⟨frames, -, -, hplace⟩ := place_taken hl hslots
        rw [hplace, Placement.ofInterval] at h
        split_ifs at h
      | none =>
        obtain ⟨reason', hplace⟩ | ⟨-, hplace⟩ := place_refused hl hslots
        · refine ⟨reason', ?_⟩
          rw [placeAll_cons, hplace, placeAll_failed (l := (l.fail reason').2) rfl]
          rfl
        · rw [hplace] at h
          cases h
    · exact ih (hl.place c) h

theorem not_completesWith_cons_of_refused {l : Layout} (hl : l.Valid) {c : Content}
    (bs : List Content) (h : l.slotsAfter? c = none) : ¬l.CompletesWith (c :: bs) := by
  rw [completesWith_cons]
  intro h
  rcases h with ⟨hnot, hrest⟩
  obtain ⟨reason, hplace⟩ | ⟨hstage, -⟩ := place_refused hl h
  · rw [hplace] at hrest
    exact not_completesWith_of_failed (l := (l.fail reason).2) rfl bs hrest
  · simp [isComplete, hstage] at hnot

/-- A layout with open slots is complete exactly at the end of a row of blocks that
fill them. -/
theorem completesWith_iff {l : Layout} (hl : l.Valid)
    (hstage : l.stage = .underway ∨ l.stage = .complete) {bs : List Content} :
    l.CompletesWith bs ↔ FillsAll l.pending bs := by
  induction bs generalizing l with
  | nil =>
    rw [completesWith_nil]
    cases hpending : l.pending with
    | nil =>
      have hnot := hl.pending_eq_nil_iff.1 hpending
      simpa [isComplete] using hstage.resolve_left hnot
    | cons n ns =>
      have hu : l.stage = .underway := by
        by_contra hnot
        rw [hl.pending_eq_nil_iff.2 hnot] at hpending
        cases hpending
      have hempty : ¬FillsAll (n :: ns) [] := fun h => h.ne_nil rfl
      simp [isComplete, hu, hempty]
  | cons c bs ih =>
    rcases hstage with hstage | hstage
    · have hslots : l.slotsAfter? c = fill? l.pending c := by simp [slotsAfter?, hstage]
      cases hpending : l.pending with
      | nil => exact absurd hstage (hl.pending_eq_nil_iff.1 hpending)
      | cons n ns =>
        rw [fillsAll_cons_cons_iff, ← hpending, ← hslots]
        cases h : l.slotsAfter? c with
        | some slots =>
          obtain ⟨hafter, hstage'⟩ := place_pending hl h
          rw [completesWith_cons, ih (hl.place c) hstage', hafter]
          simp [isComplete, hstage]
        | none =>
          have hnever := not_completesWith_cons_of_refused hl bs h
          simp [hnever]
    · have hpending := hl.pending_eq_nil_iff.2 (by simp [hstage])
      rw [completesWith_cons, hpending]
      simp [isComplete, hstage]

/-! ## The whole file -/

/-- A new layout is complete exactly at the end of a row of blocks, and no block of the
row was a mismatch, if and only if the row is derived from the grammar. -/
theorem completes_without_mismatch_iff (retains : Bool) (contents : List Content) :
    ((new retains).CompletesWith contents ∧ ∀ offset reason,
        .mismatch offset reason ∉ ((new retains).placeAll contents).1) ↔
      IsFileRow contents := by
  have hnew := valid_new retains
  have hmismatch : (new retains).CompletesWith contents → ∀ offset reason,
      .mismatch offset reason ∉ ((new retains).placeAll contents).1 := by
    intro hcompletes offset reason hmem
    obtain ⟨reason', hfailed⟩ := exists_failed_of_mismatch hnew hmem
    have hcomplete := hcompletes.1
    rw [isComplete, hfailed] at hcomplete
    cases hcomplete
  rw [and_iff_left_of_imp hmismatch, isFileRow_iff]
  cases contents with
  | nil => simp [completesWith_nil, isComplete]
  | cons c bs =>
    cases h : rootSlots? c with
    | some slots =>
      obtain ⟨hafter, hstage⟩ := place_pending hnew (c := c) (by simpa using h)
      obtain ⟨root, rfl, hfile, rfl⟩ := rootSlots?_eq_some_iff.1 h
      rw [completesWith_cons, completesWith_iff (hnew.place _) hstage, hafter]
      constructor
      · intro h
        rcases h with ⟨-, hfills⟩
        exact ⟨root, bs, rfl, hfile, hfills⟩
      · intro h
        rcases h with ⟨root', bs', hrow, -, hfills⟩
        obtain ⟨hroot, rfl⟩ := List.cons.inj hrow
        rw [← Content.node.inj hroot] at hfills
        exact ⟨rfl, hfills⟩
    | none =>
      have hnever := not_completesWith_cons_of_refused hnew bs (c := c) (by simpa using h)
      simp only [hnever, false_iff]
      intro h
      rcases h with ⟨root, bs', hrow, hfile, -⟩
      obtain ⟨rfl, rfl⟩ := List.cons.inj hrow
      rw [rootSlots?_eq_some_iff.2 ⟨root, rfl, hfile, rfl⟩] at h
      cases h

end Layout

end CarSlice
