import Caret.Proofs.Syntax.Preorder
import Caret.Symbols.Collection
import Mathlib.Data.List.Forall2

/-! # What the walk records at each place

The walk carries the scope of methods from the root down and through the children in order.
What it records at a place can also be read off the place alone, from the nodes around it
and the children of these nodes that stand before it.
-/

namespace Caret.Symbols

open Text Syntax

/-- Whether a node is a bare `module_function` statement. -/
def isModuleFunctionAt (index : Index) (place : Place) : Bool :=
  match place.above with
  | [] => false
  | (parent, _) :: _ => isModuleFunction index parent place.tree

/-- Whether a bare `module_function` stands before a node among the children of its
parent. -/
def followsModuleFunction (index : Index) (place : Place) : Bool :=
  match place.above with
  | [] => false
  | (parent, position) :: _ => (parent.children.take position).any (isModuleFunction index parent)

/-- Whether the walk comes to a node. It does not look into a bare `module_function`. -/
def isVisited (index : Index) (place : Place) : Bool :=
  place.upward.all (!isModuleFunctionAt index ·)

/-- The scope of the methods that a node holds, as long as no `module_function` stands
before them. Inside the root they are methods of instances. -/
def scopeInside (index : Index) (tree : Tree) : List (Tree × Nat) → Scope
  | [] => .instanceLevel
  | (parent, position) :: above =>
      (if followsModuleFunction index ⟨tree, (parent, position) :: above⟩ then Scope.classLevel
        else scopeInside index parent above).inside tree.kind

/-- The scope that a method gets if a node defines one. -/
def scopeAt (index : Index) (place : Place) : Scope :=
  match place.above with
  | [] => .instanceLevel
  | (parent, _) :: above =>
      if followsModuleFunction index place then .classLevel else scopeInside index parent above

/-- What the walk records at a place. -/
def definitionsAt (index : Index) (place : Place) : List Definition :=
  if isVisited index place then definitionOf index (scopeAt index place) place else []

theorem scopeInside_cons (index : Index) (tree : Tree) (entry : Tree × Nat)
    (above : List (Tree × Nat)) :
    scopeInside index tree (entry :: above) =
      (scopeAt index ⟨tree, entry :: above⟩).inside tree.kind := rfl

theorem isVisited_below (index : Index) (tree parent : Tree) (position : Nat)
    (above : List (Tree × Nat)) :
    isVisited index ⟨tree, (parent, position) :: above⟩ =
      (!isModuleFunction index parent tree && isVisited index ⟨parent, above⟩) := rfl

/-- Nothing is recorded in a bare `module_function`. -/
theorem definitionsAt_of_isModuleFunction {index : Index} {tree parent : Tree} {position : Nat}
    {above : List (Tree × Nat)} (hbare : isModuleFunction index parent tree) {place : Place}
    (hplace : place ∈ placesFrom ((parent, position) :: above) tree) :
    definitionsAt index place = [] := by
  have hmem := mem_upward_of_mem_placesFrom hplace
  have hvisited : isVisited index place = false := by
    rw [isVisited, List.all_eq_false]
    exact ⟨_, hmem, by simpa [isModuleFunctionAt] using hbare⟩
  rw [definitionsAt, hvisited, if_neg Bool.false_ne_true]

/-- The walk goes through the children of a node in order. The children before decide on
the scope with which it comes to the others. -/
theorem definitionsAmong_eq {index : Index} {parent : Tree} {above : List (Tree × Nat)}
    (hvisited : isVisited index ⟨parent, above⟩) {before children : List Tree}
    (hchildren : parent.children = before ++ children)
    (hbelow : ∀ child ∈ children, ∀ position,
      isVisited index ⟨child, (parent, position) :: above⟩ →
      definitionsBelow index (scopeInside index child ((parent, position) :: above))
          ((parent, position) :: above) child =
        (placesAmong child 0 ((parent, position) :: above) child.children).flatMap
          (definitionsAt index)) :
    definitionsAmong index
        (if before.any (isModuleFunction index parent) then .classLevel
          else scopeInside index parent above)
        parent before.length above children =
      (placesAmong parent before.length above children).flatMap (definitionsAt index) := by
  induction children generalizing before with
  | nil => simp [definitionsAmong, placesAmong]
  | cons child rest ih =>
      obtain ⟨hfirst, hothers⟩ := List.forall_mem_cons.mp hbelow
      have hrest := @ih (before ++ [child]) (by simp [hchildren]) hothers
      rw [List.length_append, List.length_singleton, List.any_append] at hrest
      rw [definitionsAmong, placesAmong, List.flatMap_append, ← hrest]
      cases hbare : isModuleFunction index parent child with
      | true =>
          have hnone : (placesFrom ((parent, before.length) :: above) child).flatMap
              (definitionsAt index) = [] :=
            List.flatMap_eq_nil_iff.mpr fun place hplace =>
              definitionsAt_of_isModuleFunction hbare hplace
          simp [hnone, hbare]
      | false =>
          have hchildVisited : isVisited index ⟨child, (parent, before.length) :: above⟩ := by
            rw [isVisited_below, hvisited, hbare]
            rfl
          have hat : scopeAt index ⟨child, (parent, before.length) :: above⟩ =
              if before.any (isModuleFunction index parent) then .classLevel
              else scopeInside index parent above := by
            simp only [scopeAt, followsModuleFunction, hchildren, List.take_left]
          rw [if_neg Bool.false_ne_true, placesFrom_eq_cons, List.flatMap_cons,
            ← hfirst before.length hchildVisited, scopeInside_cons, definitionsAt,
            if_pos hchildVisited, hat]
          simp [hbare]

/-- The walk below a node records what can be read off each place. -/
theorem definitionsBelow_eq {index : Index} {tree : Tree} {above : List (Tree × Nat)}
    (hvisited : isVisited index ⟨tree, above⟩) :
    definitionsBelow index (scopeInside index tree above) above tree =
      (placesAmong tree 0 above tree.children).flatMap (definitionsAt index) := by
  induction tree using Tree.induction generalizing above with
  | node label children ih =>
      rw [definitionsBelow]
      exact definitionsAmong_eq hvisited (List.nil_append children).symm
        fun child hchild position hchildVisited => ih child hchild hchildVisited

/-- The scope that the walk gives to the method of a node. -/
def methodScope (index : Index) (place : Place) : Scope :=
  if place.tree.kind = "singleton_method" then .classLevel else scopeAt index place

/-- The method that the walk records at a place. -/
def methodAt (index : Index) (place : Place) : Option Method :=
  if isVisited index place && isMethod place.tree.kind then
    methodOf index (methodScope index place) place.tree
  else
    none

/-- The local variable that the walk records at a place. -/
def localAt (index : Index) (place : Place) : Option Local :=
  if isVisited index place && isAssignment place.tree.kind then localOf index place else none

def Definition.method? : Definition → Option Method
  | .method defined => some defined
  | .assignment _ => none

def Definition.local? : Definition → Option Local
  | .method _ => none
  | .assignment assigned => some assigned

@[simp]
theorem filterMap_method?_methods (found : Option Method) :
    (found.map Definition.method).toList.filterMap Definition.method? = found.toList := by
  cases found <;> rfl

@[simp]
theorem filterMap_local?_methods (found : Option Method) :
    (found.map Definition.method).toList.filterMap Definition.local? = [] := by
  cases found <;> rfl

@[simp]
theorem filterMap_method?_assignments (found : Option Local) :
    (found.map Definition.assignment).toList.filterMap Definition.method? = [] := by
  cases found <;> rfl

@[simp]
theorem filterMap_local?_assignments (found : Option Local) :
    (found.map Definition.assignment).toList.filterMap Definition.local? = found.toList := by
  cases found <;> rfl

theorem filterMap_definitionsAt (index : Index) (place : Place) :
    (definitionsAt index place).filterMap Definition.method? = (methodAt index place).toList ∧
      (definitionsAt index place).filterMap Definition.local? = (localAt index place).toList := by
  unfold definitionsAt methodAt methodScope localAt definitionOf
  by_cases hvisited : isVisited index place
  · simp only [hvisited, if_true, Bool.true_and]
    split
    next hmethod => simp [hmethod, isMethod, isAssignment]
    next hmethod =>
      split
      next hsingleton => simp [hsingleton, isMethod, isAssignment]
      next hsingleton => split <;> simp [isMethod, hmethod, hsingleton]
  · simp [hvisited]

/-- The walk over a whole tree records what can be read off each place below the root. -/
theorem definitionsBelow_root (index : Index) (root : Tree) :
    definitionsBelow index .instanceLevel [] root =
      (placesAmong root 0 [] root.children).flatMap (definitionsAt index) :=
  definitionsBelow_eq (show isVisited index (Place.root root) from rfl)

/-- The methods of a table stand in the order of the nodes that define them. -/
theorem methods_ofTree (index : Index) (root : Tree) :
    (Table.ofTree index root).methods =
      (placesAmong root 0 [] root.children).filterMap (methodAt index) := by
  have hmethods : (Table.ofTree index root).methods =
      (definitionsBelow index .instanceLevel [] root).filterMap Definition.method? := by
    refine congrArg (List.filterMap · _) (funext fun definition => ?_)
    cases definition <;> rfl
  rw [hmethods, definitionsBelow_root, List.filterMap_flatMap, List.filterMap_eq_flatMap_toList]
  simp only [(filterMap_definitionsAt index _).1]

/-- The local variables of a table stand in the order of their assignments. -/
theorem locals_ofTree (index : Index) (root : Tree) :
    (Table.ofTree index root).locals =
      (placesAmong root 0 [] root.children).filterMap (localAt index) := by
  have hlocals : (Table.ofTree index root).locals =
      (definitionsBelow index .instanceLevel [] root).filterMap Definition.local? := by
    refine congrArg (List.filterMap · _) (funext fun definition => ?_)
    cases definition <;> rfl
  rw [hlocals, definitionsBelow_root, List.filterMap_flatMap, List.filterMap_eq_flatMap_toList]
  simp only [(filterMap_definitionsAt index _).2]

/-- The text of the part that names a node. -/
def nameOf? (index : Index) (tree : Tree) : Option String :=
  (tree.child? "name").bind (index.byteSlice ·.bytes)

/-- Whether a node defines a method and has a name. -/
def namesMethod (index : Index) (place : Place) : Bool :=
  isMethod place.tree.kind && (nameOf? index place.tree).isSome

theorem methodOf_eq (index : Index) (scope : Scope) (tree : Tree) :
    methodOf index scope tree = (nameOf? index tree).map (⟨·, tree.charSpan index, scope⟩) := by
  unfold methodOf nameOf?
  cases tree.child? "name" with
  | none => rfl
  | some part => cases hname : index.byteSlice part.bytes <;> simp [hname]

theorem isSome_methodAt (index : Index) (place : Place) :
    (methodAt index place).isSome = (isVisited index place && namesMethod index place) := by
  rw [methodAt, methodOf_eq, namesMethod, ← Bool.and_assoc]
  cases isVisited index place && isMethod place.tree.kind <;> simp

/-- What the walk records for a node with a method. -/
theorem methodAt_eq_some {index : Index} {place : Place} {method : Method}
    (hmethod : methodAt index place = some method) :
    isMethod place.tree.kind ∧ nameOf? index place.tree = some method.name ∧
      method.span = place.tree.charSpan index ∧ method.scope = methodScope index place := by
  rw [methodAt, methodOf_eq, Option.ite_none_right_eq_some, Bool.and_eq_true,
    Option.map_eq_some_iff] at hmethod
  obtain ⟨⟨-, hkind⟩, name, hname, rfl⟩ := hmethod
  exact ⟨hkind, hname, rfl, rfl⟩

theorem forall₂_filterMap {α β : Type} (f : α → Option β) (values : List α) :
    List.Forall₂ (fun value result => f value = some result)
      (values.filter (f · |>.isSome)) (values.filterMap f) := by
  induction values with
  | nil => exact .nil
  | cons value rest ih =>
      cases hvalue : f value with
      | none => simpa [hvalue] using ih
      | some result => simpa [hvalue] using ih

/-- The nodes for which the walk records a method, in pre-order. -/
def recordedNodes (index : Index) (root : Tree) : List Place :=
  root.places.filter fun place => isVisited index place && namesMethod index place

/-- Whether a method of the table is the one recorded for a node. The methods of a table
stand in the order of their nodes. -/
def Records (index : Index) (root : Tree) (place : Place) (method : Method) : Prop :=
  (place, method) ∈ (recordedNodes index root).zip (Table.ofTree index root).methods

section Program

variable {index : Index} {root : Tree} (hprogram : root.kind = "program")
include hprogram

/-- Each method of the table is what the walk records at its node. -/
theorem forall₂_methodAt :
    List.Forall₂ (fun place method => methodAt index place = some method)
      (recordedNodes index root) (Table.ofTree index root).methods := by
  have hroot : namesMethod index (Place.root root) = false := by
    rw [namesMethod, show (Place.root root).tree.kind = _ from hprogram]
    rfl
  rw [methods_ofTree, recordedNodes, Tree.places_eq_cons, List.filter_cons_of_neg (by simp [hroot])]
  simp only [← isSome_methodAt]
  exact forall₂_filterMap _ _

theorem Records.methodAt_eq {place : Place} {method : Method}
    (hrecords : Records index root place method) : methodAt index place = some method :=
  List.forall₂_zip (forall₂_methodAt hprogram) hrecords

theorem exists_records_of_mem_methods {method : Method}
    (hmethod : method ∈ (Table.ofTree index root).methods) :
    ∃ place, Records index root place method := by
  have hlength := (@forall₂_methodAt index root hprogram).length_eq
  rw [← List.map_snd_zip (Nat.le_of_eq hlength.symm)] at hmethod
  obtain ⟨⟨place, other⟩, hmem, rfl⟩ := List.mem_map.mp hmethod
  exact ⟨place, hmem⟩

theorem exists_records_of_mem_recordedNodes {place : Place}
    (hplace : place ∈ recordedNodes index root) : ∃ method, Records index root place method := by
  have hlength := (@forall₂_methodAt index root hprogram).length_eq
  rw [← List.map_fst_zip (Nat.le_of_eq hlength)] at hplace
  obtain ⟨⟨other, method⟩, hmem, rfl⟩ := List.mem_map.mp hplace
  exact ⟨method, hmem⟩

/-- A table holds the methods of all nodes for which the walk records one. -/
theorem Records.of_methodAt {place : Place} (hplace : Place.Within root place) {method : Method}
    (hmethod : methodAt index place = some method) : Records index root place method := by
  have hnames : (isVisited index place && namesMethod index place) = true := by
    rw [← isSome_methodAt, hmethod, Option.isSome_some]
  obtain ⟨other, hother⟩ := exists_records_of_mem_recordedNodes hprogram
    (List.mem_filter.mpr ⟨Tree.mem_places.mpr hplace, hnames⟩)
  obtain rfl := Option.some.inj (hmethod.symm.trans (hother.methodAt_eq hprogram))
  exact hother

end Program

theorem Records.within {index : Index} {root : Tree} {place : Place} {method : Method}
    (hrecords : Records index root place method) : Place.Within root place :=
  Tree.mem_places.mp (List.mem_filter.mp (List.of_mem_zip hrecords).1).1

theorem Records.mem_methods {index : Index} {root : Tree} {place : Place} {method : Method}
    (hrecords : Records index root place method) : method ∈ (Table.ofTree index root).methods :=
  (List.of_mem_zip hrecords).2

theorem kind_of_isModuleFunctionAt {index : Index} {place : Place}
    (hbare : isModuleFunctionAt index place) : place.tree.kind = "identifier" := by
  unfold isModuleFunctionAt at hbare
  split at hbare
  next => contradiction
  next =>
    simp only [isModuleFunction, Bool.and_eq_true, decide_eq_true_eq] at hbare
    exact hbare.1.1

/-- Without nodes below identifiers the walk comes to every node of another kind. -/
theorem isVisited_of_kind_ne {index : Index} {root : Tree}
    (hleaves : ∀ node ∈ root.preorder, node.kind = "identifier" → node.children = [])
    {place : Place} (hplace : Place.Within root place) (hkind : place.tree.kind ≠ "identifier") :
    isVisited index place := by
  rw [isVisited, List.all_eq_true]
  intro node hnode
  cases hbare : isModuleFunctionAt index node with
  | false => rfl
  | true =>
      have hidentifier := kind_of_isModuleFunctionAt hbare
      have hleaf := hleaves node.tree (hplace.of_mem_upward hnode).tree_mem_preorder hidentifier
      rcases hplace.exists_child_of_mem_upward hnode with rfl | ⟨position, child, hchild, -⟩
      · exact absurd hidentifier hkind
      · rw [hleaf] at hchild
        contradiction

theorem isVisited_of_isMethod {index : Index} {root : Tree}
    (hleaves : ∀ node ∈ root.preorder, node.kind = "identifier" → node.children = [])
    {place : Place} (hplace : Place.Within root place) (hmethod : isMethod place.tree.kind) :
    isVisited index place := by
  apply isVisited_of_kind_ne hleaves hplace
  intro hidentifier
  rw [hidentifier] at hmethod
  contradiction

/-- Without nodes below identifiers a method is recorded for every node that defines one
with a name. -/
theorem recordedNodes_eq {index : Index} {root : Tree}
    (hleaves : ∀ node ∈ root.preorder, node.kind = "identifier" → node.children = []) :
    recordedNodes index root = root.places.filter (namesMethod index) := by
  refine List.filter_congr fun place hplace => ?_
  cases hkind : isMethod place.tree.kind with
  | true => rw [isVisited_of_isMethod hleaves (Tree.mem_places.mp hplace) hkind, Bool.true_and]
  | false => simp [namesMethod, hkind]

end Caret.Symbols
