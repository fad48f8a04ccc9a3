import Caret.Proofs.Buffer.Enclosing

/-! # Edges of the nodes around an offset

Behind the first character, a node is around an offset if it starts before the offset and
ends there or later. At the start of the text no node starts before the offset. There the
nodes at the left edge of the tree are listed, although they start at the offset.
-/

namespace Caret.Syntax

open Text

/-- The nodes at the left edge of a tree: the root, and below each of them its first child
if that begins with the first byte. -/
inductive OnLeftEdge (root : Tree) : Place → Prop
  | root : OnLeftEdge root (Place.root root)
  | first {place : Place} {child : Tree} (edge : OnLeftEdge root place)
      (stands : place.tree.children[0]? = some child) (starts : child.bytes.start = 0) :
      OnLeftEdge root ⟨child, (place.tree, 0) :: place.above⟩

theorem OnLeftEdge.within {root : Tree} {place : Place} (hedge : OnLeftEdge root place) :
    Place.Within root place := by
  induction hedge with
  | root => exact .root
  | first edge stands starts ih => exact ih.child stands

/-- No node ends before the first byte, so the descent from there tries first children
only. -/
theorem descendInto_origin {child : Tree} (hchild : child.Ordered) (rest : List Tree)
    (parent : Tree) (index : Nat) (above : List (Tree × Nat)) :
    descendInto ⟨0, 0⟩ parent index above (child :: rest) =
      if child.bytes.start = 0 then descend ⟨0, 0⟩ ((parent, index) :: above) child else [] := by
  have hbytes := hchild.start_le_stop
  have hends : endsBefore ⟨0, 0⟩ child.bytes = false := by
    simp only [endsBefore, Nat.not_lt_zero, decide_false, Bool.false_or]
    split
    next => rfl
    next hlength => exact decide_eq_false (by omega)
  rw [descendInto, hends, if_neg Bool.false_ne_true]
  rcases Nat.eq_zero_or_pos child.bytes.start with hstart | hstart
  · rw [hstart, if_neg (Nat.lt_irrefl 0), if_pos rfl]
  · rw [if_pos hstart, if_neg (Nat.ne_of_gt hstart)]

section Ordered

variable {root : Tree} (hordered : ∀ node ∈ root.preorder, node.Ordered)
include hordered

theorem onLeftEdge_of_mem_descend {above : List (Tree × Nat)} {tree : Tree}
    (hstart : OnLeftEdge root ⟨tree, above⟩) {place : Place}
    (hplace : place ∈ descend ⟨0, 0⟩ above tree) : OnLeftEdge root place := by
  induction tree using Tree.induction generalizing above with
  | node label children ih =>
      rw [descend] at hplace
      rcases List.mem_append.mp hplace with hbelow | hself
      · cases children with
        | nil => contradiction
        | cons child rest =>
            have hplace : Place.Within root ⟨child, (_, 0) :: above⟩ := hstart.within.child rfl
            have hchild := hordered child hplace.tree_mem_preorder
            rw [descendInto_origin hchild] at hbelow
            split at hbelow
            next hbegins => exact ih child List.mem_cons_self (hstart.first rfl hbegins) hbelow
            next => contradiction
      · exact List.mem_singleton.mp hself ▸ hstart

/-- At the first byte the descent lists the nodes at the left edge. -/
theorem mem_covering_origin {place : Place} :
    place ∈ root.covering ⟨0, 0⟩ ↔ OnLeftEdge root place := by
  refine ⟨onLeftEdge_of_mem_descend hordered .root, fun hedge => ?_⟩
  induction hedge with
  | root => exact self_mem_descend _ _ _
  | @first place child edge stands starts ih =>
      refine child_mem_descend_of_eq ih stands ?_
      have hchild := hordered child (edge.within.child stands).tree_mem_preorder
      obtain ⟨rest, hrest⟩ : ∃ rest, place.tree.children = child :: rest := by
        cases hchildren : place.tree.children with
        | nil => simp [hchildren] at stands
        | cons first rest => exact ⟨rest, by simpa [hchildren] using stands⟩
      rw [hrest, descendInto_origin hchild, if_pos starts]

end Ordered

end Caret.Syntax

namespace Caret.Buffer

open Text Syntax

variable {buffer : Buffer}

theorem enclosing_zero (buffer : Buffer) : buffer.enclosing 0 = buffer.tree.covering ⟨0, 0⟩ := by
  have hbyte : buffer.index.byteOf 0 = some 0 := by
    rw [buffer.index_eq]
    exact Index.byteOf_ofString (Nat.zero_le _)
  simp only [enclosing, hbyte]

theorem within_of_mem_enclosing {offset : Nat} {place : Place}
    (hplace : place ∈ buffer.enclosing offset) : Place.Within buffer.tree place := by
  unfold enclosing at hplace
  split at hplace
  next => contradiction
  next => exact within_of_mem_descend .root hplace

section Nested

variable (hnested : buffer.tree.ProperlyNested buffer.index)
include hnested

/-- Behind the first character a node is around an offset if it starts before it and does
not end before it. -/
theorem mem_enclosing_iff_of_pos {offset : Nat} (hpos : 0 < offset) (hoffset : offset ≤ buffer.size)
    {place : Place} (hplace : Place.Within buffer.tree place) :
    place ∈ buffer.enclosing offset ↔
      (place.tree.charSpan buffer.index).start < offset ∧
        offset ≤ (place.tree.charSpan buffer.index).stop := by
  obtain ⟨before, rfl⟩ := Nat.exists_eq_succ_of_ne_zero (Nat.ne_of_gt hpos)
  rw [mem_enclosing_iff hnested hoffset hplace, Span.contains_iff, Nat.lt_succ_iff,
    Nat.succ_le_iff]

/-- The nodes at the left edge start at the first character. -/
theorem start_eq_zero_of_onLeftEdge {place : Place} (hedge : OnLeftEdge buffer.tree place) :
    (place.tree.charSpan buffer.index).start = 0 := by
  rw [buffer.index_eq] at hnested ⊢
  have horigin : (Index.ofString buffer.text).byteOf 0 = some 0 :=
    Index.byteOf_ofString (Nat.zero_le _)
  cases hedge with
  | root => rw [show (Place.root buffer.tree).tree = buffer.tree from rfl, hnested.charSpan_root]
  | first edge stands starts =>
      rcases hnested.charSpan_eq (edge.within.child stands) with heq | hspan
      · simp [Place.root] at heq
      · rw [hspan]
        exact Nat.le_zero.mp ((Index.charOf_le_iff horigin).mpr (Nat.le_zero.mpr starts))

/-- A node around an offset has the offset in it or at one of its edges. -/
theorem touches_of_mem_enclosing {offset : Nat} (hoffset : offset ≤ buffer.size) {place : Place}
    (hplace : place ∈ buffer.enclosing offset) :
    (place.tree.charSpan buffer.index).start ≤ offset ∧
      offset ≤ (place.tree.charSpan buffer.index).stop := by
  rcases Nat.eq_zero_or_pos offset with rfl | hpos
  · rw [enclosing_zero, mem_covering_origin hnested.ordered] at hplace
    exact ⟨Nat.le_of_eq (start_eq_zero_of_onLeftEdge hnested hplace), Nat.zero_le _⟩
  · have hwithin := within_of_mem_enclosing hplace
    exact ((mem_enclosing_iff_of_pos hnested hpos hoffset hwithin).mp hplace).imp_left Nat.le_of_lt

/-- Behind the first character, the nodes around an offset are those that start before it
and do not end before it. At the start of the text they are the nodes at the left edge of
the tree, and all of these start right there. -/
theorem mem_enclosing_iff_reaches (place : Place) :
    (∀ offset, 0 < offset → offset ≤ buffer.size →
      (place ∈ buffer.enclosing offset ↔ Place.Within buffer.tree place ∧
        (place.tree.charSpan buffer.index).start < offset ∧
        offset ≤ (place.tree.charSpan buffer.index).stop)) ∧
    (place ∈ buffer.enclosing 0 ↔ OnLeftEdge buffer.tree place) ∧
    (OnLeftEdge buffer.tree place → (place.tree.charSpan buffer.index).start = 0) := by
  refine ⟨?_, ?_, start_eq_zero_of_onLeftEdge hnested⟩
  · intro offset hpos hoffset
    constructor
    · intro hplace
      have hwithin := within_of_mem_enclosing hplace
      exact ⟨hwithin, (mem_enclosing_iff_of_pos hnested hpos hoffset hwithin).mp hplace⟩
    · rintro ⟨hwithin, hreaches⟩
      exact (mem_enclosing_iff_of_pos hnested hpos hoffset hwithin).mpr hreaches
  · rw [enclosing_zero, mem_covering_origin hnested.ordered]

end Nested

/-- The call `foo.bar`. -/
def callTree : Tree :=
  .node ⟨"call", true, ⟨0, 7⟩, none⟩
    [.node ⟨"identifier", true, ⟨0, 3⟩, some "receiver"⟩ [],
      .node ⟨".", false, ⟨3, 4⟩, some "operator"⟩ [],
      .node ⟨"identifier", true, ⟨4, 7⟩, some "method"⟩ []]

def callBuffer : Buffer :=
  .ofParsed "foo.bar" ⟨.node ⟨"program", true, ⟨0, 7⟩, none⟩ [callTree], false⟩

/-- The place of the call. -/
def callPlace : Place :=
  ⟨callTree, [(callBuffer.tree, 0)]⟩

theorem mem_enclosing_iff_reaches_call :
    callBuffer.tree.ProperlyNested callBuffer.index ∧
    (callPlace ∈ callBuffer.enclosing 7 ↔ Place.Within callBuffer.tree callPlace ∧
      (callTree.charSpan callBuffer.index).start < 7 ∧
      7 ≤ (callTree.charSpan callBuffer.index).stop) ∧
    (callPlace ∈ callBuffer.enclosing 0 ↔ OnLeftEdge callBuffer.tree callPlace) ∧
    (callTree.charSpan callBuffer.index).start = 0 := by
  have hnested : callBuffer.tree.ProperlyNested callBuffer.index := by decide +kernel
  have hedge : OnLeftEdge callBuffer.tree callPlace := .first .root rfl rfl
  obtain ⟨hbehind, horigin, hstart⟩ := mem_enclosing_iff_reaches hnested callPlace
  exact ⟨hnested, hbehind 7 (by decide) (by decide +kernel), horigin, hstart hedge⟩

/-- Not every listed node starts before the offset. In front of `foo.bar` the call is
listed. -/
theorem not_forall_mem_enclosing_reaches :
    ¬ ∀ buffer : Buffer, buffer.tree.ProperlyNested buffer.index →
      ∀ offset ≤ buffer.size, ∀ place ∈ buffer.enclosing offset, place ≠ .root buffer.tree →
        (place.tree.charSpan buffer.index).start < offset ∧
        offset ≤ (place.tree.charSpan buffer.index).stop := by
  intro hall
  have hnested : callBuffer.tree.ProperlyNested callBuffer.index := by decide +kernel
  have hmem : callPlace ∈ callBuffer.enclosing 0 := by
    rw [enclosing_zero, mem_covering_origin hnested.ordered]
    exact .first .root rfl rfl
  have hreaches := hall callBuffer hnested 0 (Nat.zero_le _) callPlace hmem
    (by simp [callPlace, Place.root])
  exact absurd hreaches.1 (Nat.not_lt_zero _)

end Caret.Buffer
