import Caret.Syntax.Place

/-! # Nodes and the nodes around them

The places of one tree are ordered by enclosure. The nodes around a node form a
chain of this order, and the first of them that passes a test lies inside all
others that pass it.
-/

namespace Caret.Syntax

/-- What holds of a node as soon as it holds of its children holds of all. -/
theorem Tree.induction {motive : Tree → Prop}
    (node : ∀ label children, (∀ child ∈ children, motive child) → motive (.node label children))
    (tree : Tree) : motive tree := by
  match tree with
  | .node label children =>
      exact node label children fun child hchild =>
        have := List.sizeOf_lt_of_mem hchild
        Tree.induction node child
termination_by sizeOf tree
decreasing_by simp; omega

theorem Tree.preorderList_eq_flatMap (trees : List Tree) :
    preorderList trees = trees.flatMap preorder := by
  induction trees with
  | nil => rfl
  | cons first rest ih => rw [preorderList, ih, List.flatMap_cons]

theorem Tree.mem_preorderList {tree : Tree} {trees : List Tree} :
    tree ∈ preorderList trees ↔ ∃ top ∈ trees, tree ∈ top.preorder := by
  rw [preorderList_eq_flatMap, List.mem_flatMap]

theorem Tree.self_mem_preorder (tree : Tree) : tree ∈ tree.preorder := by
  obtain ⟨label, children⟩ := tree
  exact List.mem_cons_self

theorem Tree.mem_preorder_of_child {root child node : Tree} (hchild : child ∈ root.children)
    (hnode : node ∈ child.preorder) : node ∈ root.preorder := by
  obtain ⟨label, children⟩ := root
  exact List.mem_cons_of_mem _ (mem_preorderList.mpr ⟨child, hchild, hnode⟩)

theorem Tree.child_mem_preorder {root tree child : Tree} (htree : tree ∈ root.preorder)
    (hchild : child ∈ tree.children) : child ∈ root.preorder := by
  induction root using Tree.induction with
  | node label children ih =>
      rw [preorder] at htree ⊢
      refine List.mem_cons_of_mem _ (mem_preorderList.mpr ?_)
      rcases List.mem_cons.mp htree with rfl | hbelow
      · exact ⟨child, hchild, child.self_mem_preorder⟩
      · obtain ⟨top, htop, hunder⟩ := mem_preorderList.mp hbelow
        exact ⟨top, htop, ih top htop hunder⟩

namespace Place

/-- The nodes around a node, closest first. -/
def ancestors (place : Place) : List Place :=
  place.upward.tail

/-- The places of a tree: its root, and every child at the index where it stands. -/
inductive Within (root : Tree) : Place → Prop
  | root : Within root (Place.root root)
  | child {place : Place} {index : Nat} {tree : Tree} (inside : Within root place)
      (stands : place.tree.children[index]? = some tree) :
      Within root ⟨tree, (place.tree, index) :: place.above⟩

theorem upward_eq_cons (place : Place) : place.upward = place :: place.ancestors := by
  rcases place with ⟨tree, _ | ⟨⟨parent, index⟩, above⟩⟩ <;> rfl

theorem upward_below (tree parent : Tree) (index : Nat) (above : List (Tree × Nat)) :
    upward ⟨tree, (parent, index) :: above⟩ =
      ⟨tree, (parent, index) :: above⟩ :: upward ⟨parent, above⟩ := rfl

theorem mem_upward_self (place : Place) : place ∈ place.upward := by
  rw [upward_eq_cons]
  exact List.mem_cons_self

theorem upward_suffix {place outer : Place} (houter : outer ∈ place.upward) :
    outer.upward <:+ place.upward := by
  obtain ⟨tree, above⟩ := place
  induction above generalizing tree with
  | nil =>
      obtain rfl := List.mem_singleton.mp houter
      exact List.suffix_refl _
  | cons entry above ih =>
      obtain ⟨parent, index⟩ := entry
      rw [upward_below] at houter ⊢
      rcases List.mem_cons.mp houter with rfl | hparent
      · exact List.suffix_refl _
      · exact (ih parent hparent).trans (List.suffix_cons _ _)

theorem mem_upward_of_suffix {place outer : Place} (hsuffix : outer.upward <:+ place.upward) :
    outer ∈ place.upward :=
  hsuffix.subset outer.mem_upward_self

theorem mem_upward_trans {place middle outer : Place} (hmiddle : middle ∈ place.upward)
    (houter : outer ∈ middle.upward) : outer ∈ place.upward :=
  (upward_suffix hmiddle).subset houter

theorem mem_upward_antisymm {place other : Place} (hother : other ∈ place.upward)
    (hplace : place ∈ other.upward) : other = place := by
  have hlengths := (upward_suffix hplace).length_le
  have heq := (upward_suffix hother).eq_of_length_le hlengths
  rw [upward_eq_cons, upward_eq_cons] at heq
  exact (List.cons.inj heq).1

theorem ancestors_below (tree parent : Tree) (index : Nat) (above : List (Tree × Nat)) :
    ancestors ⟨tree, (parent, index) :: above⟩ = upward ⟨parent, above⟩ := rfl

theorem mem_upward_of_mem_ancestors {place outer : Place} (houter : outer ∈ place.ancestors) :
    outer ∈ place.upward := by
  rw [upward_eq_cons]
  exact List.mem_cons_of_mem _ houter

/-- The nodes around one are listed from the inside out. -/
theorem upward_pairwise (place : Place) :
    place.upward.Pairwise fun inner outer => outer ∈ inner.upward := by
  obtain ⟨tree, above⟩ := place
  induction above generalizing tree with
  | nil => exact List.pairwise_singleton _ _
  | cons entry above ih =>
      rw [upward_below, List.pairwise_cons]
      exact ⟨fun outer houter => List.mem_cons_of_mem _ houter, ih entry.1⟩

/-- Every node around another one has a child. -/
theorem Within.children_ne_nil {root : Tree} {place outer : Place} (hplace : Within root place)
    (houter : outer ∈ place.ancestors) : outer.tree.children ≠ [] := by
  induction hplace with
  | root => contradiction
  | @child parent index tree inside stands ih =>
      rw [ancestors_below, upward_eq_cons] at houter
      rcases List.mem_cons.mp houter with rfl | habove
      · intro hnil
        rw [hnil] at stands
        contradiction
      · exact ih habove

/-- The nodes around one that is around a node do not hold that node. -/
theorem not_mem_ancestors_of_mem_upward {place outer : Place} (houter : outer ∈ place.upward) :
    place ∉ outer.ancestors := by
  intro hplace
  have hshorter : place.upward.length ≤ outer.ancestors.length := by
    obtain ⟨tree, _ | ⟨⟨parent, index⟩, above⟩⟩ := outer
    · contradiction
    · rw [ancestors_below] at hplace ⊢
      exact (upward_suffix hplace).length_le
  have hlonger := (upward_suffix houter).length_le
  rw [upward_eq_cons outer, List.length_cons] at hlonger
  omega

/-- Of two nodes around one node, one is around the other. -/
theorem mem_upward_total {place first second : Place} (hfirst : first ∈ place.upward)
    (hsecond : second ∈ place.upward) : first ∈ second.upward ∨ second ∈ first.upward :=
  (List.suffix_or_suffix_of_suffix (upward_suffix hfirst) (upward_suffix hsecond)).imp
    mem_upward_of_suffix mem_upward_of_suffix

/-- The closest node of a kind lies inside every other node of that kind. -/
theorem mem_upward_of_find? {test : Place → Bool} {place closest other : Place}
    (hclosest : place.upward.find? test = some closest) (hother : other ∈ place.upward)
    (htest : test other) : other ∈ closest.upward := by
  obtain ⟨tree, above⟩ := place
  induction above generalizing tree with
  | nil =>
      have hmem := List.mem_of_find?_eq_some hclosest
      obtain rfl := List.mem_singleton.mp hother
      obtain rfl := List.mem_singleton.mp hmem
      exact mem_upward_self _
  | cons entry above ih =>
      obtain ⟨parent, index⟩ := entry
      rw [upward_below, List.find?_cons] at hclosest
      split at hclosest
      next => exact Option.some.inj hclosest ▸ hother
      next hfails =>
        rw [upward_below] at hother
        rcases List.mem_cons.mp hother with rfl | hparent
        · rw [hfails] at htest
          contradiction
        · exact ih parent hclosest hparent

/-- If the closest node of a kind around one place is around another, and the other
way round, then they are one node. -/
theorem find?_upward_eq {test : Place → Bool} {place other first second : Place}
    (hfirst : place.upward.find? test = some first)
    (hsecond : other.upward.find? test = some second) (hleft : first ∈ other.upward)
    (hright : second ∈ place.upward) : first = second :=
  mem_upward_antisymm (mem_upward_of_find? hsecond hleft (List.find?_some hfirst))
    (mem_upward_of_find? hfirst hright (List.find?_some hsecond))

theorem Within.root_mem_upward {root : Tree} {place : Place} (hplace : Within root place) :
    Place.root root ∈ place.upward := by
  induction hplace with
  | root => exact mem_upward_self _
  | child inside stands ih => exact List.mem_cons_of_mem _ ih

/-- A test that the root passes finds some node around every node. -/
theorem Within.exists_find? {root : Tree} {place : Place} (hplace : Within root place)
    {test : Place → Bool} (htest : test (Place.root root)) :
    ∃ closest, place.upward.find? test = some closest :=
  Option.isSome_iff_exists.mp (List.find?_isSome.mpr ⟨_, hplace.root_mem_upward, htest⟩)

theorem Within.of_mem_upward {root : Tree} {place outer : Place} (hplace : Within root place)
    (houter : outer ∈ place.upward) : Within root outer := by
  induction hplace with
  | root =>
      obtain rfl := List.mem_singleton.mp houter
      exact .root
  | child inside stands ih =>
      rcases List.mem_cons.mp houter with rfl | hparent
      · exact .child inside stands
      · exact ih hparent

/-- The way down from a node to one inside it begins with a child. -/
theorem Within.exists_child_of_mem_upward {root : Tree} {place outer : Place}
    (hplace : Within root place) (houter : outer ∈ place.upward) :
    place = outer ∨ ∃ index child, outer.tree.children[index]? = some child ∧
      ⟨child, (outer.tree, index) :: outer.above⟩ ∈ place.upward := by
  induction hplace with
  | root => exact .inl (List.mem_singleton.mp houter).symm
  | @child parent index tree inside stands ih =>
      rcases List.mem_cons.mp houter with rfl | hparent
      · exact .inl rfl
      · refine .inr ?_
        rcases ih hparent with rfl | ⟨other, child, hchild, hmem⟩
        · exact ⟨index, tree, stands, mem_upward_self _⟩
        · exact ⟨other, child, hchild, List.mem_cons_of_mem _ hmem⟩

theorem Within.tree_mem_preorder {root : Tree} {place : Place} (hplace : Within root place) :
    place.tree ∈ root.preorder := by
  induction hplace with
  | root => exact root.self_mem_preorder
  | child inside stands ih => exact Tree.child_mem_preorder ih (List.mem_of_getElem? stands)

/-- A place of a tree is its root or lies below one of the root's children. -/
theorem Within.eq_root_or_below {root : Tree} {place : Place} (hplace : Within root place) :
    place = Place.root root ∨ place.tree ∈ Tree.preorderList root.children := by
  induction hplace with
  | root => exact .inl rfl
  | @child place index tree inside stands ih =>
      refine .inr ?_
      have hmem := List.mem_of_getElem? stands
      rcases ih with rfl | hbelow
      · exact Tree.mem_preorderList.mpr ⟨tree, hmem, tree.self_mem_preorder⟩
      · obtain ⟨top, htop, hplace⟩ := Tree.mem_preorderList.mp hbelow
        exact Tree.mem_preorderList.mpr ⟨top, htop, Tree.child_mem_preorder hplace hmem⟩

end Place

end Caret.Syntax
