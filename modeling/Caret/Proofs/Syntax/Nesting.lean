import Caret.Proofs.Syntax.Preorder
import Caret.Proofs.Text.Bytes
import Caret.Syntax.Place
import Caret.Syntax.Enclosure

/-! # Properly nested trees

In a properly nested tree the descent loses no node. The innermost node around a
stretch of text lies in every node that covers the stretch, and the nodes listed
on the way are all the nodes around it.
-/

namespace Caret.Syntax

open Text

namespace Tree

/-- The children of a node stand in order inside it, and none reaches into the
next one. -/
structure Ordered (tree : Tree) : Prop where
  start_le_stop : tree.bytes.start ≤ tree.bytes.stop
  children_inside : ∀ child ∈ tree.children,
    tree.bytes.start ≤ child.bytes.start ∧ child.bytes.stop ≤ tree.bytes.stop
  children_apart : tree.children.Pairwise (·.bytes.stop ≤ ·.bytes.start)

instance (tree : Tree) : Decidable tree.Ordered :=
  decidable_of_iff (tree.bytes.start ≤ tree.bytes.stop ∧
      (∀ child ∈ tree.children,
        tree.bytes.start ≤ child.bytes.start ∧ child.bytes.stop ≤ tree.bytes.stop) ∧
      tree.children.Pairwise (·.bytes.stop ≤ ·.bytes.start))
    ⟨fun h => ⟨h.1, h.2.1, h.2.2⟩, fun h => ⟨h.1, h.2, h.3⟩⟩

/-- A tree that a parser may give for a text: only the root is a program, every
node is ordered, and all nodes begin and end between characters of the text. -/
structure ProperlyNested (index : Index) (root : Tree) : Prop where
  root_program : root.kind = "program"
  sole_program : ∀ node ∈ preorderList root.children, node.kind ≠ "program"
  ordered : ∀ node ∈ root.preorder, node.Ordered
  boundaries : ∀ node ∈ root.preorder,
    index.IsBoundary node.bytes.start ∧ index.IsBoundary node.bytes.stop

instance (index : Index) (root : Tree) : Decidable (root.ProperlyNested index) :=
  decidable_of_iff (root.kind = "program" ∧
      (∀ node ∈ preorderList root.children, node.kind ≠ "program") ∧
      (∀ node ∈ root.preorder, node.Ordered) ∧
      ∀ node ∈ root.preorder,
        index.IsBoundary node.bytes.start ∧ index.IsBoundary node.bytes.stop)
    ⟨fun h => ⟨h.1, h.2.1, h.2.2.1, h.2.2.2⟩, fun h => ⟨h.1, h.2, h.3, h.4⟩⟩

end Tree

/-- Whether a node reaches over a whole stretch of bytes. -/
def Tree.Covers (tree : Tree) (stretch : Span) : Prop :=
  tree.bytes.start ≤ stretch.start ∧ stretch.stop ≤ tree.bytes.stop

theorem self_mem_descend (stretch : Span) (above : List (Tree × Nat)) (tree : Tree) :
    ⟨tree, above⟩ ∈ descend stretch above tree := by
  obtain ⟨label, children⟩ := tree
  rw [descend]
  exact List.mem_append_right _ (List.mem_singleton.mpr rfl)

/-- The children either do not cover the stretch, or the descent goes on in one. -/
theorem descendInto_eq (stretch : Span) (parent : Tree) (index : Nat) (above : List (Tree × Nat))
    (children : List Tree) :
    descendInto stretch parent index above children = [] ∨
      ∃ offset child, children[offset]? = some child ∧ endsBefore stretch child.bytes = false ∧
        child.bytes.start ≤ stretch.start ∧
        descendInto stretch parent index above children =
          descend stretch ((parent, index + offset) :: above) child := by
  induction children generalizing index with
  | nil => exact .inl (by rw [descendInto])
  | cons child rest ih =>
      rw [descendInto]
      split
      next =>
        rcases ih (index + 1) with hnone | ⟨offset, other, hother, hends, hstart, heq⟩
        · exact .inl hnone
        · refine .inr ⟨offset + 1, other, hother, hends, hstart, ?_⟩
          rw [heq, Nat.add_right_comm, Nat.add_assoc]
      next hends =>
        split
        next => exact .inl rfl
        next hstart => exact .inr ⟨0, child, rfl, by simpa using hends, by omega, rfl⟩

/-- The descent lists the innermost node it reaches and all nodes around it, down
from the node where it starts. -/
theorem descend_append_ancestors (stretch : Span) (above : List (Tree × Nat)) (tree : Tree) :
    ∃ innermost : Place, (descend stretch above tree).head? = some innermost ∧
      descend stretch above tree ++ (Place.mk tree above).ancestors = innermost.upward := by
  induction tree using Tree.induction generalizing above with
  | node label children ih =>
      rw [descend]
      rcases descendInto_eq stretch (.node label children) 0 above children with
        hnone | ⟨offset, child, hchild, -, -, heq⟩
      · rw [hnone]
        exact ⟨_, rfl, (Place.upward_eq_cons _).symm⟩
      · obtain ⟨innermost, hhead, hupward⟩ := ih child (List.mem_of_getElem? hchild)
          ((.node label children, 0 + offset) :: above)
        refine ⟨innermost, ?_, ?_⟩
        · rw [heq, List.head?_append, hhead]
          rfl
        · rw [heq, ← hupward, List.append_assoc]
          congr 1
          exact (Place.upward_eq_cons _).symm

/-- The nodes that the descent lists are the innermost one and those around it. -/
theorem Tree.covering_eq_upward (root : Tree) (stretch : Span) :
    ∃ innermost : Place, (root.covering stretch).head? = some innermost ∧
      root.covering stretch = innermost.upward := by
  obtain ⟨innermost, hhead, hupward⟩ := descend_append_ancestors stretch [] root
  rw [show (Place.mk root []).ancestors = [] from rfl, List.append_nil] at hupward
  exact ⟨innermost, hhead, hupward⟩

/-- Every node that the descent lists below its start covers the stretch. -/
theorem covers_of_mem_descend {stretch : Span} {above : List (Tree × Nat)} {tree : Tree}
    {place : Place} (hplace : place ∈ descend stretch above tree) :
    place = ⟨tree, above⟩ ∨ place.tree.Covers stretch := by
  induction tree using Tree.induction generalizing above with
  | node label children ih =>
      rw [descend] at hplace
      rcases List.mem_append.mp hplace with hbelow | hself
      · refine .inr ?_
        rcases descendInto_eq stretch (.node label children) 0 above children with
          hnone | ⟨offset, child, hchild, hends, hstart, heq⟩
        · rw [hnone] at hbelow
          contradiction
        · rw [heq] at hbelow
          rcases ih child (List.mem_of_getElem? hchild) hbelow with rfl | hcovers
          · refine ⟨hstart, Nat.le_of_not_lt fun hstop => ?_⟩
            simp [endsBefore, hstop] at hends
          · exact hcovers
      · exact .inl (List.mem_singleton.mp hself)

theorem within_of_mem_descend {root : Tree} {stretch : Span} {above : List (Tree × Nat)}
    {tree : Tree} (hstart : Place.Within root ⟨tree, above⟩) {place : Place}
    (hplace : place ∈ descend stretch above tree) : Place.Within root place := by
  induction tree using Tree.induction generalizing above with
  | node label children ih =>
      rw [descend] at hplace
      rcases List.mem_append.mp hplace with hbelow | hself
      · rcases descendInto_eq stretch (.node label children) 0 above children with
          hnone | ⟨offset, child, hchild, -, -, heq⟩
        · rw [hnone] at hbelow
          contradiction
        · rw [heq, Nat.zero_add] at hbelow
          exact ih child (List.mem_of_getElem? hchild) (hstart.child hchild) hbelow
      · exact List.mem_singleton.mp hself ▸ hstart

/-- The descent goes on in a child that covers the stretch, since the children
before it end too early. -/
theorem descendInto_of_covers {stretch : Span} (hstretch : stretch.start < stretch.stop)
    {children : List Tree} (hapart : children.Pairwise (·.bytes.stop ≤ ·.bytes.start))
    {offset : Nat} {child : Tree} (hchild : children[offset]? = some child)
    (hcovers : child.Covers stretch) (parent : Tree) (index : Nat) (above : List (Tree × Nat)) :
    descendInto stretch parent index above children =
      descend stretch ((parent, index + offset) :: above) child := by
  obtain ⟨hstart, hstop⟩ := hcovers
  induction children generalizing offset index with
  | nil => contradiction
  | cons first rest ih =>
      obtain ⟨hfirst, hrest⟩ := List.pairwise_cons.mp hapart
      cases offset with
      | zero =>
          obtain rfl := Option.some.inj hchild
          have hends : endsBefore stretch first.bytes = false := by
            simp only [endsBefore, Bool.or_eq_false_iff, decide_eq_false_iff_not]
            refine ⟨by omega, ?_⟩
            split <;> simp only [decide_eq_false_iff_not] <;> omega
          rw [descendInto, hends, if_neg Bool.false_ne_true, if_neg (by omega), Nat.add_zero]
      | succ offset =>
          have hbefore := hfirst child (List.mem_of_getElem? hchild)
          have hends : endsBefore stretch first.bytes = true := by
            simp only [endsBefore, Bool.or_eq_true, decide_eq_true_eq]
            exact .inl (by omega)
          rw [descendInto, if_pos hends, ih hrest hchild (index + 1), Nat.add_right_comm,
            Nat.add_assoc]

/-- If the descent goes on in a child of a listed node, it lists that child. -/
theorem child_mem_descend_of_eq {stretch : Span} {above : List (Tree × Nat)} {tree : Tree}
    {place : Place} (hplace : place ∈ descend stretch above tree) {index : Nat} {child : Tree}
    (hchild : place.tree.children[index]? = some child)
    (hinto : descendInto stretch place.tree 0 place.above place.tree.children =
      descend stretch ((place.tree, index) :: place.above) child) :
    ⟨child, (place.tree, index) :: place.above⟩ ∈ descend stretch above tree := by
  induction tree using Tree.induction generalizing above with
  | node label children ih =>
      rw [descend] at hplace ⊢
      refine List.mem_append_left _ ?_
      rcases List.mem_append.mp hplace with hbelow | hself
      · rcases descendInto_eq stretch (.node label children) 0 above children with
          hnone | ⟨offset, other, hother, -, -, heq⟩
        · rw [hnone] at hbelow
          contradiction
        · rw [heq] at hbelow ⊢
          exact ih other (List.mem_of_getElem? hother) hbelow
      · obtain rfl := List.mem_singleton.mp hself
        exact hinto ▸ self_mem_descend _ _ _

/-- A listed node is followed by each of its children that covers the stretch. -/
theorem child_mem_descend {stretch : Span} (hstretch : stretch.start < stretch.stop)
    {above : List (Tree × Nat)} {tree : Tree} {place : Place}
    (hplace : place ∈ descend stretch above tree) (hordered : place.tree.Ordered)
    {index : Nat} {child : Tree} (hchild : place.tree.children[index]? = some child)
    (hcovers : child.Covers stretch) :
    ⟨child, (place.tree, index) :: place.above⟩ ∈ descend stretch above tree := by
  apply child_mem_descend_of_eq hplace hchild
  rw [descendInto_of_covers hstretch hordered.children_apart hchild hcovers, Nat.zero_add]

section Ordered

variable {root : Tree} (hordered : ∀ node ∈ root.preorder, node.Ordered)
include hordered

/-- A node reaches no further than the nodes around it. -/
theorem bytes_inside {place outer : Place} (hplace : Place.Within root place)
    (houter : outer ∈ place.upward) :
    outer.tree.bytes.start ≤ place.tree.bytes.start ∧
      place.tree.bytes.stop ≤ outer.tree.bytes.stop := by
  induction hplace with
  | root =>
      obtain rfl := List.mem_singleton.mp houter
      exact ⟨Nat.le_refl _, Nat.le_refl _⟩
  | child inside stands ih =>
      rcases List.mem_cons.mp houter with rfl | hparent
      · exact ⟨Nat.le_refl _, Nat.le_refl _⟩
      · obtain ⟨hstart, hstop⟩ := ih hparent
        have hinside := (hordered _ inside.tree_mem_preorder).children_inside _
          (List.mem_of_getElem? stands)
        exact ⟨Nat.le_trans hstart hinside.1, Nat.le_trans hinside.2 hstop⟩

/-- Of two children of a node, the earlier one ends before the later one starts. -/
theorem bytes_apart {place : Place} (hplace : Place.Within root place) {index later : Nat}
    {child other : Tree} (hlt : index < later) (hchild : place.tree.children[index]? = some child)
    (hother : place.tree.children[later]? = some other) :
    child.bytes.stop ≤ other.bytes.start := by
  have hapart := (hordered _ hplace.tree_mem_preorder).children_apart
  obtain ⟨hindex, rfl⟩ := List.getElem?_eq_some_iff.mp hchild
  obtain ⟨hlater, rfl⟩ := List.getElem?_eq_some_iff.mp hother
  exact List.pairwise_iff_getElem.mp hapart index later hindex hlater hlt

theorem ordered_of_child {child : Tree} (hchild : child ∈ root.children) :
    ∀ node ∈ child.preorder, node.Ordered :=
  fun _ hnode => hordered _ (Tree.mem_preorder_of_child hchild hnode)

/-- No node of a tree reaches beyond its root. -/
theorem bytes_inside_root {node : Tree} (hnode : node ∈ root.preorder) :
    root.bytes.start ≤ node.bytes.start ∧ node.bytes.stop ≤ root.bytes.stop := by
  induction root using Tree.induction with
  | node label children ih =>
      have hself := hordered _ (Tree.self_mem_preorder _)
      rcases List.mem_cons.mp hnode with rfl | hbelow
      · exact ⟨Nat.le_refl _, Nat.le_refl _⟩
      · obtain ⟨child, hchild, hunder⟩ := Tree.mem_preorderList.mp hbelow
        obtain ⟨hstart, hstop⟩ := ih child hchild (ordered_of_child hordered hchild) hunder
        have hinside := hself.children_inside child hchild
        exact ⟨Nat.le_trans hinside.1 hstart, Nat.le_trans hstop hinside.2⟩

/-- In pre-order no node starts before an earlier one. -/
theorem preorder_pairwise_start : root.preorder.Pairwise (·.bytes.start ≤ ·.bytes.start) := by
  induction root using Tree.induction with
  | node label children ih =>
      have hself := hordered _ (Tree.self_mem_preorder _)
      rw [Tree.preorder, List.pairwise_cons, Tree.preorderList_eq_flatMap, List.pairwise_flatMap]
      refine ⟨fun node hnode => ?_, fun child hchild => ?_, ?_⟩
      · rw [← Tree.preorderList_eq_flatMap] at hnode
        exact (bytes_inside_root hordered (List.mem_cons_of_mem _ hnode)).1
      · exact ih child hchild (ordered_of_child hordered hchild)
      · refine hself.children_apart.imp_of_mem ?_
        intro child other hchild hother hapart first hfirst second hsecond
        have hchildOrdered := ordered_of_child hordered hchild
        have hbefore := bytes_inside_root hchildOrdered hfirst
        have hnode := (hchildOrdered first hfirst).start_le_stop
        have hafter := bytes_inside_root (ordered_of_child hordered hother) hsecond
        omega

theorem places_pairwise_start :
    root.places.Pairwise (·.tree.bytes.start ≤ ·.tree.bytes.start) := by
  have hpreorder := preorder_pairwise_start hordered
  rwa [← Tree.map_tree_places, List.pairwise_map] at hpreorder

/-- Two nodes lie one after the other, or one is around the other. -/
theorem apart_or_around {first second : Place} (hfirst : Place.Within root first)
    (hsecond : Place.Within root second) :
    first.tree.bytes.stop ≤ second.tree.bytes.start ∨
      second.tree.bytes.stop ≤ first.tree.bytes.start ∨
      first ∈ second.upward ∨ second ∈ first.upward := by
  induction hfirst with
  | root => exact .inr (.inr (.inl hsecond.root_mem_upward))
  | @child parent index tree inside stands ih =>
      have hinside := (hordered _ inside.tree_mem_preorder).children_inside _
        (List.mem_of_getElem? stands)
      rcases ih with hbefore | hafter | haround | hparent
      · exact .inl (Nat.le_trans hinside.2 hbefore)
      · exact .inr (.inl (Nat.le_trans hafter hinside.1))
      · rcases hsecond.exists_child_of_mem_upward haround with rfl | ⟨other, child, hchild, hmem⟩
        · exact .inr (.inr (.inr (List.mem_cons_of_mem _ second.mem_upward_self)))
        · obtain ⟨hstart, hstop⟩ := bytes_inside hordered hsecond hmem
          rcases Nat.lt_trichotomy index other with hlt | rfl | hlt
          · have hapart := bytes_apart hordered inside hlt stands hchild
            exact .inl (Nat.le_trans hapart hstart)
          · rw [stands] at hchild
            obtain rfl := Option.some.inj hchild
            exact .inr (.inr (.inl hmem))
          · have hapart := bytes_apart hordered inside hlt hchild stands
            exact .inr (.inl (Nat.le_trans hstop hapart))
      · exact .inr (.inr (.inr (List.mem_cons_of_mem _ hparent)))

end Ordered

namespace Tree.ProperlyNested

variable {text : String} {root : Tree}

theorem ordered_of_within (hnested : root.ProperlyNested (.ofString text)) {place : Place}
    (hplace : Place.Within root place) : place.tree.Ordered :=
  hnested.ordered _ hplace.tree_mem_preorder

theorem covers_parent (hnested : root.ProperlyNested (.ofString text)) {place : Place}
    (hplace : Place.Within root place) {child : Tree} (hchild : child ∈ place.tree.children)
    {stretch : Span} (hcovers : child.Covers stretch) : place.tree.Covers stretch := by
  have hinside := (hnested.ordered_of_within hplace).children_inside child hchild
  exact ⟨Nat.le_trans hinside.1 hcovers.1, Nat.le_trans hcovers.2 hinside.2⟩

/-- No node that covers the stretch is missed. -/
theorem mem_covering (hnested : root.ProperlyNested (.ofString text)) {stretch : Span}
    (hstretch : stretch.start < stretch.stop) {place : Place} (hplace : Place.Within root place)
    (hcovers : place.tree.Covers stretch) : place ∈ root.covering stretch := by
  induction hplace with
  | root => exact self_mem_descend _ _ _
  | child inside stands ih =>
      have hparent := hnested.covers_parent inside (List.mem_of_getElem? stands) hcovers
      exact child_mem_descend hstretch (ih hparent) (hnested.ordered_of_within inside) stands hcovers

/-- A node other than the root covers just the characters between its ends. -/
theorem charSpan_eq (hnested : root.ProperlyNested (.ofString text)) {place : Place}
    (hplace : Place.Within root place) :
    place = Place.root root ∨
      place.tree.charSpan (.ofString text) = (Index.ofString text).charSpan place.tree.bytes := by
  refine hplace.eq_root_or_below.imp_right fun hbelow => ?_
  exact if_neg (hnested.sole_program _ hbelow)

theorem charSpan_root (hnested : root.ProperlyNested (.ofString text)) :
    root.charSpan (.ofString text) = ⟨0, (Index.ofString text).size⟩ :=
  if_pos hnested.root_program

/-- A node covers the bytes of a character if its span holds the character. -/
theorem covers_iff_contains (hnested : root.ProperlyNested (.ofString text)) {place : Place}
    (hplace : Place.Within root place) {offset start stop : Nat}
    (hstart : (Index.ofString text).byteOf offset = some start)
    (hstop : (Index.ofString text).byteOf (offset + 1) = some stop) :
    place.tree.Covers ⟨start, stop⟩ ↔
      ((Index.ofString text).charSpan place.tree.bytes).contains offset := by
  obtain ⟨-, hboundary⟩ := hnested.boundaries _ hplace.tree_mem_preorder
  rw [Span.contains_iff]
  exact and_congr (Index.charOf_le_iff hstart).symm
    (Index.byteOf_le_iff hstop hboundary.byteOf_charOf)

/-- The span of a node lies in that of each node around it. -/
theorem charSpan_mono (hnested : root.ProperlyNested (.ofString text)) {place outer : Place}
    (hplace : Place.Within root place) (houter : outer ∈ place.upward) :
    (outer.tree.charSpan (.ofString text)).start ≤ (place.tree.charSpan (.ofString text)).start ∧
      (place.tree.charSpan (.ofString text)).stop ≤
        (outer.tree.charSpan (.ofString text)).stop := by
  induction hplace with
  | root =>
      obtain rfl := List.mem_singleton.mp houter
      exact ⟨Nat.le_refl _, Nat.le_refl _⟩
  | @child parent index tree inside stands ih =>
      rcases List.mem_cons.mp houter with rfl | hparent
      · exact ⟨Nat.le_refl _, Nat.le_refl _⟩
      · obtain ⟨hleft, hright⟩ := ih hparent
        suffices hstep : (parent.tree.charSpan (.ofString text)).start ≤
              (tree.charSpan (.ofString text)).start ∧
            (tree.charSpan (.ofString text)).stop ≤
              (parent.tree.charSpan (.ofString text)).stop from
          ⟨Nat.le_trans hleft hstep.1, Nat.le_trans hstep.2 hright⟩
        have hchild := inside.child stands
        obtain ⟨hfrom, hto⟩ := hnested.boundaries _ hchild.tree_mem_preorder
        rcases hnested.charSpan_eq hchild with heq | hspan
        · simp [Place.root] at heq
        · rw [hspan]
          rcases hnested.charSpan_eq inside with rfl | hspan
          · rw [show (Place.root root).tree = root from rfl, hnested.charSpan_root]
            exact ⟨Nat.zero_le _, hto.charOf_le_size⟩
          · rw [hspan]
            obtain ⟨-, hend⟩ := hnested.boundaries _ inside.tree_mem_preorder
            obtain ⟨hstart, hstop⟩ := (hnested.ordered_of_within inside).children_inside tree
              (List.mem_of_getElem? stands)
            exact ⟨(Index.charOf_le_iff hfrom.byteOf_charOf).mpr hstart,
              (Index.charOf_le_iff hend.byteOf_charOf).mpr hstop⟩

theorem charSpan_stop_le_size (hnested : root.ProperlyNested (.ofString text)) {place : Place}
    (hplace : Place.Within root place) :
    (place.tree.charSpan (.ofString text)).stop ≤ (Index.ofString text).size := by
  have hroot := (hnested.charSpan_mono hplace hplace.root_mem_upward).2
  rwa [show (Place.root root).tree = root from rfl, hnested.charSpan_root] at hroot

theorem charSpan_start_le_stop (hnested : root.ProperlyNested (.ofString text)) {place : Place}
    (hplace : Place.Within root place) :
    (place.tree.charSpan (.ofString text)).start ≤ (place.tree.charSpan (.ofString text)).stop := by
  rcases hnested.charSpan_eq hplace with rfl | hspan
  · rw [show (Place.root root).tree = root from rfl, hnested.charSpan_root]
    exact Nat.zero_le _
  · rw [hspan]
    exact Index.charOf_mono (hnested.ordered_of_within hplace).start_le_stop

/-- A node that covers some bytes holds the character at its start. -/
theorem contains_start (hnested : root.ProperlyNested (.ofString text)) {place : Place}
    (hplace : Place.Within root place) (hkind : place.tree.kind ≠ "program")
    (hbytes : place.tree.bytes.start < place.tree.bytes.stop) :
    (place.tree.charSpan (.ofString text)).contains
      (place.tree.charSpan (.ofString text)).start := by
  obtain ⟨hstart, hstop⟩ := hnested.boundaries _ hplace.tree_mem_preorder
  rw [Tree.charSpan, if_neg hkind, Span.contains_iff]
  exact ⟨Nat.le_refl _,
    (Index.byteOf_lt_iff hstart.byteOf_charOf hstop.byteOf_charOf).mp hbytes⟩

end Tree.ProperlyNested

end Caret.Syntax
