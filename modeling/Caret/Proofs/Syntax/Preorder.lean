import Caret.Proofs.Syntax.Places

/-! # All places of a tree

The places of a tree are listed in pre-order: every node stands before the nodes below it,
and these are listed child by child.
-/

namespace Caret.Syntax

mutual

/-- The place of a node and those of all nodes below it, in pre-order. -/
def placesFrom (above : List (Tree × Nat)) : Tree → List Place
  | .node label children =>
      ⟨.node label children, above⟩ :: placesAmong (.node label children) 0 above children

def placesAmong (parent : Tree) (index : Nat) (above : List (Tree × Nat)) : List Tree → List Place
  | [] => []
  | child :: rest =>
      placesFrom ((parent, index) :: above) child ++ placesAmong parent (index + 1) above rest

end

/-- All places of a tree in pre-order. -/
def Tree.places (root : Tree) : List Place :=
  placesFrom [] root

theorem placesFrom_eq_cons (above : List (Tree × Nat)) (tree : Tree) :
    placesFrom above tree = ⟨tree, above⟩ :: placesAmong tree 0 above tree.children := by
  obtain ⟨label, children⟩ := tree
  rw [placesFrom]
  rfl

theorem Tree.places_eq_cons (root : Tree) :
    root.places = Place.root root :: placesAmong root 0 [] root.children :=
  placesFrom_eq_cons [] root

theorem mem_placesAmong {parent : Tree} {index : Nat} {above : List (Tree × Nat)}
    {children : List Tree} {place : Place} :
    place ∈ placesAmong parent index above children ↔
      ∃ offset child, children[offset]? = some child ∧
        place ∈ placesFrom ((parent, index + offset) :: above) child := by
  induction children generalizing index with
  | nil => simp [placesAmong]
  | cons first rest ih =>
      rw [placesAmong, List.mem_append, ih]
      constructor
      · rintro (hfirst | ⟨offset, child, hchild, hplace⟩)
        · exact ⟨0, first, rfl, hfirst⟩
        · refine ⟨offset + 1, child, hchild, ?_⟩
          rwa [Nat.add_right_comm, Nat.add_assoc] at hplace
      · rintro ⟨offset, child, hchild, hplace⟩
        cases offset with
        | zero =>
            obtain rfl := Option.some.inj hchild
            exact .inl hplace
        | succ offset =>
            refine .inr ⟨offset, child, hchild, ?_⟩
            rwa [Nat.add_right_comm, Nat.add_assoc]

theorem map_tree_placesAmong {parent : Tree} {index : Nat} {above : List (Tree × Nat)}
    {children : List Tree}
    (hchildren : ∀ child ∈ children, ∀ index,
      (placesFrom ((parent, index) :: above) child).map (·.tree) = child.preorder) :
    (placesAmong parent index above children).map (·.tree) = Tree.preorderList children := by
  induction children generalizing index with
  | nil => rfl
  | cons first rest ih =>
      obtain ⟨hfirst, hrest⟩ := List.forall_mem_cons.mp hchildren
      rw [placesAmong, List.map_append, hfirst, ih hrest, Tree.preorderList]

theorem map_tree_placesFrom (above : List (Tree × Nat)) (tree : Tree) :
    (placesFrom above tree).map (·.tree) = tree.preorder := by
  induction tree using Tree.induction generalizing above with
  | node label children ih =>
      rw [placesFrom, List.map_cons, Tree.preorder,
        map_tree_placesAmong fun child hchild index => ih child hchild _]

/-- The nodes of the listed places are all nodes of the tree. -/
theorem Tree.map_tree_places (root : Tree) : root.places.map (·.tree) = root.preorder :=
  map_tree_placesFrom [] root

/-- The places that are listed from a node on lie in it. -/
theorem mem_upward_of_mem_placesFrom {above : List (Tree × Nat)} {tree : Tree} {place : Place}
    (hplace : place ∈ placesFrom above tree) : ⟨tree, above⟩ ∈ place.upward := by
  induction tree using Tree.induction generalizing above with
  | node label children ih =>
      rw [placesFrom] at hplace
      rcases List.mem_cons.mp hplace with rfl | hbelow
      · exact Place.mem_upward_self _
      · obtain ⟨offset, child, hchild, hplace⟩ := mem_placesAmong.mp hbelow
        have hinside := ih child (List.mem_of_getElem? hchild) hplace
        refine Place.mem_upward_trans hinside ?_
        rw [Place.upward_below]
        exact List.mem_cons_of_mem _ (Place.mem_upward_self _)

theorem within_of_mem_placesFrom {root : Tree} {above : List (Tree × Nat)} {tree : Tree}
    (hstart : Place.Within root ⟨tree, above⟩) {place : Place}
    (hplace : place ∈ placesFrom above tree) : Place.Within root place := by
  induction tree using Tree.induction generalizing above with
  | node label children ih =>
      rw [placesFrom] at hplace
      rcases List.mem_cons.mp hplace with rfl | hbelow
      · exact hstart
      · obtain ⟨offset, child, hchild, hplace⟩ := mem_placesAmong.mp hbelow
        rw [Nat.zero_add] at hplace
        exact ih child (List.mem_of_getElem? hchild) (hstart.child hchild) hplace

theorem child_mem_placesFrom {above : List (Tree × Nat)} {tree : Tree} {place : Place}
    (hplace : place ∈ placesFrom above tree) {index : Nat} {child : Tree}
    (hchild : place.tree.children[index]? = some child) :
    ⟨child, (place.tree, index) :: place.above⟩ ∈ placesFrom above tree := by
  induction tree using Tree.induction generalizing above with
  | node label children ih =>
      rw [placesFrom] at hplace ⊢
      refine List.mem_cons_of_mem _ (mem_placesAmong.mpr ?_)
      rcases List.mem_cons.mp hplace with rfl | hbelow
      · refine ⟨index, child, hchild, ?_⟩
        rw [Nat.zero_add, placesFrom_eq_cons]
        exact List.mem_cons_self
      · obtain ⟨offset, other, hother, hplace⟩ := mem_placesAmong.mp hbelow
        exact ⟨offset, other, hother, ih other (List.mem_of_getElem? hother) hplace⟩

/-- The list holds exactly the places of the tree. -/
theorem Tree.mem_places {root : Tree} {place : Place} :
    place ∈ root.places ↔ Place.Within root place := by
  refine ⟨within_of_mem_placesFrom .root, fun hplace => ?_⟩
  induction hplace with
  | root =>
      rw [places_eq_cons]
      exact List.mem_cons_self
  | child inside stands ih => exact child_mem_placesFrom ih stands

end Caret.Syntax
