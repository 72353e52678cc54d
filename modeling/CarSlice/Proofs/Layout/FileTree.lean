import CarSlice.Proofs.Layout.Grammar
import CarSlice.Proofs.Layout.Tiling

/-!
# Files as trees

A file that was cut up cleanly is a tree: every slot of a node is filled by one block, or
by one node and its children, of exactly the slot's size.  The archive lists the tree in
preorder.

* `FileTree.contents` is the preorder and `FileTree.intervals` gives each block its part
  of the file, both by recursion over the tree.
* `FileTree.IsFile` is what such a tree has to satisfy.
* `FileTree.IsFile.completesWith`: a layout takes the blocks of the tree and is complete
  behind the last one.  `intervals_eq` says that its intervals are those of the tree.
-/

namespace CarSlice

open UnixFs (Content Node)

/-- A file as an ordered tree. -/
inductive FileTree where
  | leaf (content : Content)
  | branch (node : Node) (children : List FileTree)

namespace FileTree

mutual

/-- How many bytes of the file a tree holds. -/
def size : FileTree → Nat
  | leaf c => c.ownSize
  | branch n children => n.inlineSize + sizeAll children

/-- How many bytes of the file a row of trees holds. -/
def sizeAll : List FileTree → Nat
  | [] => 0
  | t :: rest => t.size + sizeAll rest

end

mutual

/-- The blocks of a tree in preorder. -/
def contents : FileTree → List Content
  | leaf c => [c]
  | branch n children => .node n :: contentsAll children

/-- The blocks of a row of trees. -/
def contentsAll : List FileTree → List Content
  | [] => []
  | t :: rest => t.contents ++ contentsAll rest

end

mutual

/-- The interval of every block of a tree that begins at an offset. -/
def intervals (start : Nat) : FileTree → List Interval
  | leaf c => [{ start, stop := start + c.ownSize, isData := true }]
  | branch n children =>
    { start, stop := start + n.inlineSize, isData := false } ::
      intervalsAll (start + n.inlineSize) children

/-- The interval of every block of a row of trees. -/
def intervalsAll (start : Nat) : List FileTree → List Interval
  | [] => []
  | t :: rest => t.intervals start ++ intervalsAll (start + t.size) rest

end

/-- A file node whose links, sizes and own account are those of its children. -/
structure Spans (n : Node) (children : List FileTree) : Prop where
  kind : n.kind = .file
  ne_nil : children ≠ []
  links : n.linkCount = children.length
  sizes : n.childSizes = children.map size
  filesize : ∀ size ∈ n.filesize, size = n.inlineSize + n.childSizes.sum

/-- A tree whose leaves hold bytes and whose other nodes span their children. -/
inductive WellFormed : FileTree → Prop where
  | leaf (c : Content) (h : c.leafSize?.isSome = true) : WellFormed (leaf c)
  | branch (n : Node) (children : List FileTree) (h : Spans n children)
      (hchildren : ∀ t ∈ children, WellFormed t) : WellFormed (branch n children)

/-- A tree that is a whole file: its root is a file node that agrees with itself. -/
def IsFile : FileTree → Prop
  | leaf c => ∃ root, c = .node root ∧ root.IsFile ∧ root.linkCount = 0
  | branch n children => WellFormed (branch n children)

/-! ## Sizes and intervals -/

theorem sizeAll_eq (children : List FileTree) : sizeAll children = (children.map size).sum := by
  induction children with
  | nil => rfl
  | cons t rest ih => simp [sizeAll, ih]

mutual

theorem sum_contents (t : FileTree) : (t.contents.map Content.ownSize).sum = t.size := by
  cases t with
  | leaf c => simp [contents, size]
  | branch n children =>
    simp only [contents, size, List.map_cons, List.sum_cons]
    rw [sum_contentsAll children]
    rfl

theorem sum_contentsAll (children : List FileTree) :
    ((contentsAll children).map Content.ownSize).sum = sizeAll children := by
  cases children with
  | nil => rfl
  | cons t rest =>
    simp only [contentsAll, sizeAll, List.map_append, List.sum_append]
    rw [sum_contents t, sum_contentsAll rest]

end

end FileTree

/-- The intervals of a row of blocks, one after the other from an offset on. -/
def spansFrom (start : Nat) : List Content → List Interval
  | [] => []
  | c :: rest =>
    { start, stop := start + c.ownSize, isData := c.leafSize?.isSome } ::
      spansFrom (start + c.ownSize) rest

theorem spansFrom_append (start : Nat) (first second : List Content) :
    spansFrom start (first ++ second) =
      spansFrom start first ++ spansFrom (start + (first.map Content.ownSize).sum) second := by
  induction first generalizing start with
  | nil => simp [spansFrom]
  | cons c first ih => simp [spansFrom, ih, Nat.add_assoc]

theorem length_spansFrom (start : Nat) (contents : List Content) :
    (spansFrom start contents).length = contents.length := by
  induction contents generalizing start with
  | nil => rfl
  | cons c rest ih => simp [spansFrom, ih]

namespace FileTree

theorem Spans.links_pos {n : Node} {children : List FileTree} (h : Spans n children) :
    0 < n.linkCount := by
  rw [h.links]
  exact List.length_pos_iff.2 h.ne_nil

theorem Spans.sum_childSizes {n : Node} {children : List FileTree} (h : Spans n children) :
    n.childSizes.sum = sizeAll children := by
  rw [h.sizes, sizeAll_eq]

theorem Spans.leafSize? {n : Node} {children : List FileTree} (h : Spans n children) :
    (Content.node n).leafSize? = none := by
  have hlinks := h.links_pos
  have hinline : n.isInlineLeaf = false := by
    simp only [Node.isInlineLeaf, Bool.and_eq_false_imp, beq_iff_eq]
    omega
  simp [Content.leafSize?, hinline]

/-- The intervals of a tree are those of its blocks one after the other. -/
theorem intervals_eq {t : FileTree} (h : t.WellFormed) (start : Nat) :
    t.intervals start = spansFrom start t.contents := by
  induction h generalizing start with
  | leaf c hleaf => simp [intervals, contents, spansFrom, hleaf]
  | branch n children hspans _ ih =>
    have hall (offset : Nat) : ∀ rest : List FileTree, (∀ t ∈ rest, t ∈ children) →
        intervalsAll offset rest = spansFrom offset (contentsAll rest) := by
      intro rest
      induction rest generalizing offset with
      | nil =>
        intro _
        rfl
      | cons t rest ihrest =>
        intro hmem
        simp only [intervalsAll, contentsAll]
        rw [spansFrom_append, sum_contents, ih t (hmem t (by simp)),
          ihrest _ fun t' ht' => hmem t' (by simp [ht'])]
    simp only [intervals, contents, spansFrom, hspans.leafSize?]
    rw [hall _ children fun _ ht => ht]
    rfl

theorem WellFormed.length_intervals {t : FileTree} (h : t.WellFormed) (start : Nat) :
    (t.intervals start).length = t.contents.length := by
  rw [intervals_eq h, length_spansFrom]

/-! ## The layout of a tree -/

/-- A node that spans its children is what a layout expects of a node with children,
unless its size was cut off. -/
theorem Spans.isInner {n : Node} {children : List FileTree} (h : Spans n children)
    (hsize : (branch n children).size ≤ maxCount) :
    n.IsInner ∧ n.contentSize = (branch n children).size := by
  have hsum := n.min_contentSize
  have hne : n.childSizes ≠ [] := by
    rw [h.sizes]
    simpa using h.ne_nil
  have hle : n.contentSize ≤ maxCount := foldl_satAdd_le n.inlineSize hne
  have hcontent : n.contentSize = (branch n children).size := by
    simp only [size] at hsize ⊢
    rw [h.sum_childSizes] at hsum
    omega
  refine ⟨⟨⟨h.kind, by rw [h.sizes, h.links, List.length_map], ?_⟩, h.links_pos⟩, hcontent⟩
  intro size hmem
  rw [hcontent, h.filesize size hmem, h.sum_childSizes, FileTree.size]

theorem fillsAll_contentsAll {children : List FileTree}
    (h : ∀ t ∈ children, Fills t.size t.contents) :
    FillsAll (children.map size) (contentsAll children) := by
  induction children with
  | nil => exact .nil
  | cons t rest ih =>
    exact .cons (h t (by simp)) (ih fun t' ht' => h t' (by simp [ht']))

theorem size_le_sizeAll {t : FileTree} {children : List FileTree} (h : t ∈ children) :
    t.size ≤ sizeAll children := by
  rw [sizeAll_eq]
  exact List.single_le_sum (fun _ _ => Nat.zero_le _) _ (List.mem_map_of_mem h)

/-- The blocks of a tree fill a slot of its size. -/
theorem fills {t : FileTree} (h : t.WellFormed) (hsize : t.size ≤ maxCount) :
    Fills t.size t.contents := by
  induction h with
  | leaf c hleaf =>
    obtain ⟨m, hm⟩ := Option.isSome_iff_exists.1 hleaf
    rw [size, Content.ownSize_of_leafSize? hm]
    exact .leaf hm
  | branch n children hspans _ ih =>
    obtain ⟨hinner, hcontent⟩ := hspans.isInner hsize
    have hchildren : FillsAll n.childSizes (contentsAll children) := by
      rw [hspans.sizes]
      apply fillsAll_contentsAll
      intro t ht
      have := size_le_sizeAll ht
      simp only [size] at hsize
      exact ih t ht (by omega)
    rw [← hcontent]
    exact .node hinner hchildren

/-- The root of a file and the blocks behind it. -/
theorem IsFile.exists_root {t : FileTree} (h : t.IsFile) (hsize : t.size ≤ maxCount) :
    ∃ (root : Node) (bs : List Content), t.contents = .node root :: bs ∧ root.IsFile ∧
      root.contentSize = t.size ∧ FillsAll root.childSizes bs := by
  cases t with
  | leaf c =>
    rcases h with ⟨root, rfl, hfile, hlinks⟩
    have hnil : root.childSizes = [] := by
      rw [← List.length_eq_zero_iff, hfile.sizes, hlinks]
    refine ⟨root, [], rfl, hfile, ?_, ?_⟩
    · simp [Node.contentSize, hnil, size, Content.ownSize]
    · rw [hnil]
      exact .nil
  | branch n children =>
    have hwf : (branch n children).WellFormed := h
    cases hwf with
    | branch _ _ hspans hchildren =>
      obtain ⟨hinner, hcontent⟩ := hspans.isInner hsize
      refine ⟨n, contentsAll children, rfl, hinner.toIsFile, hcontent, ?_⟩
      rw [hspans.sizes]
      apply fillsAll_contentsAll
      intro t ht
      have := size_le_sizeAll ht
      simp only [size] at hsize
      exact fills (hchildren t ht) (by omega)

theorem IsFile.wellFormed {t : FileTree} (h : t.IsFile) : t.WellFormed := by
  cases t with
  | leaf c =>
    rcases h with ⟨root, rfl, hfile, hlinks⟩
    refine .leaf _ ?_
    simp [Content.leafSize?, Node.isInlineLeaf_of_file hfile.kind hlinks]
  | branch n children => exact h

/-- A layout takes the blocks of a file and is complete behind the last one. -/
theorem IsFile.completesWith {t : FileTree} (h : t.IsFile) (hsize : t.size ≤ maxCount)
    (retains : Bool) : (Layout.new retains).CompletesWith t.contents := by
  obtain ⟨root, bs, hcontents, hfile, -, hfills⟩ := h.exists_root hsize
  have hnew := Layout.valid_new retains
  have hslots : (Layout.new retains).slotsAfter? (.node root) = some root.childSizes :=
    rootSlots?_eq_some_iff.2 ⟨root, rfl, hfile, rfl⟩
  obtain ⟨hpending, hstage⟩ := Layout.place_pending hnew hslots
  rw [hcontents, Layout.completesWith_cons, Layout.completesWith_iff (hnew.place _) hstage,
    hpending]
  exact ⟨rfl, hfills⟩

end FileTree

/-- The root says how large the file is. -/
theorem Layout.fileSize_place_root {root : Node} (h : root.IsFile) (retains : Bool) :
    ((Layout.new retains).place (.node root)).2.fileSize = some root.contentSize := by
  have hslots : (Layout.new retains).slotsAfter? (.node root) = some root.childSizes :=
    rootSlots?_eq_some_iff.2 ⟨root, rfl, h, rfl⟩
  obtain ⟨frames, -, -, htaken⟩ := Layout.place_taken (Layout.valid_new retains) hslots
  rw [htaken]
  rfl

end CarSlice
