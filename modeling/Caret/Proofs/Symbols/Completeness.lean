import Caret.Proofs.Symbols.Assignments

/-! # The table as a list of definitions

The walk drops a definition without a word where it cannot read the text of a name or the
position of an end. In a tree whose nodes lie between characters of the text neither happens.
The table then holds one method for each node that defines one and has a name, and one
variable for each assignment to a plain name, both in the order of the nodes.
-/

namespace Caret.Symbols

open Text Syntax

/-- Whether a node defines a method and has a part for its name. -/
def definesMethod (tree : Tree) : Bool :=
  isMethod tree.kind && (tree.child? "name").isSome

/-- Whether a node assigns to a plain name. -/
def assignsName (tree : Tree) : Bool :=
  isAssignment tree.kind && (tree.child? "left").any (·.kind = "identifier")

/-- Whether some text is what stands between the ends of a part of a node. -/
def IsTextOfPart (index : Index) (tree : Tree) (field text : String) : Prop :=
  ∃ part, tree.child? field = some part ∧ text = index.slice (index.charSpan part.bytes)

/-- Whether a method is that of a node: it has the name and the span of the node. -/
structure IsMethodOf (index : Index) (tree : Tree) (method : Method) : Prop where
  name : IsTextOfPart index tree "name" method.name
  span : method.span = index.charSpan tree.bytes

/-- Whether a variable is the one that a node assigns: it has the name on the left of the node
and stands at the positions of the node's ends. -/
structure IsLocalOf (index : Index) (tree : Tree) (assigned : Local) : Prop where
  name : IsTextOfPart index tree "left" assigned.name
  start : index.positionOf (index.charSpan tree.bytes).start = .ok assigned.region.start
  stop : index.positionOf (index.charSpan tree.bytes).stop = .ok assigned.region.stop

theorem charSpan_of_kind_ne {index : Index} {tree : Tree} (hkind : tree.kind ≠ "program") :
    tree.charSpan index = index.charSpan tree.bytes :=
  if_neg hkind

/-- A node of a kind that passes a test is of none that fails it. -/
theorem kind_ne_of_test {test : String → Bool} {tree : Tree} (htest : test tree.kind)
    {kind : String} (hkind : test kind = false) : tree.kind ≠ kind := by
  rintro rfl
  rw [hkind] at htest
  contradiction

theorem part_mem_preorder {root : Tree} {place : Place} (hplace : Place.Within root place)
    {field : String} {part : Tree} (hpart : place.tree.child? field = some part) :
    part ∈ root.preorder :=
  Tree.child_mem_preorder hplace.tree_mem_preorder (List.mem_of_find?_eq_some hpart)

/-- What is recorded at the places of a tree, node by node, if it can be told from a node
whether something is recorded for it. -/
theorem forall₂_preorder {α : Type} {root : Tree} {record : Place → Option α}
    {defines : Tree → Bool} {IsOf : Tree → α → Prop}
    (hdefines : ∀ place, Place.Within root place → (record place).isSome = defines place.tree)
    (hof : ∀ place value, Place.Within root place → record place = some value →
      IsOf place.tree value) :
    List.Forall₂ IsOf (root.preorder.filter defines) (root.places.filterMap record) := by
  have hfilter : root.preorder.filter defines =
      (root.places.filter (record · |>.isSome)).map (·.tree) := by
    rw [← Tree.map_tree_places, List.filter_map]
    congr 1
    exact List.filter_congr fun place hplace => (hdefines place (Tree.mem_places.mp hplace)).symm
  have hwithin : ∀ place ∈ root.places.filter (record · |>.isSome), Place.Within root place :=
    fun place hplace => Tree.mem_places.mp (List.mem_filter.mp hplace).1
  rw [hfilter, List.forall₂_map_left_iff]
  refine ((List.forall₂_and_left _ _).mpr ⟨hwithin, forall₂_filterMap record _⟩).imp ?_
  rintro place value ⟨hplace, hvalue⟩
  exact hof place value hplace hvalue

section Program

variable {index : Index} {root : Tree} (hprogram : root.kind = "program")
include hprogram

theorem methods_eq_filterMap_places :
    (Table.ofTree index root).methods = root.places.filterMap (methodAt index) := by
  have hroot : methodAt index (Place.root root) = none := by
    rw [methodAt, show (Place.root root).tree.kind = _ from hprogram]
    rfl
  rw [methods_ofTree, Tree.places_eq_cons, List.filterMap_cons_none hroot]

theorem locals_eq_filterMap_places :
    (Table.ofTree index root).locals = root.places.filterMap (localAt index) := by
  have hroot : localAt index (Place.root root) = none := by
    rw [localAt, show (Place.root root).tree.kind = _ from hprogram]
    rfl
  rw [locals_ofTree, Tree.places_eq_cons, List.filterMap_cons_none hroot]

end Program

/-- The name on the left of an assignment, if that is a plain name. -/
def assignedName? (index : Index) (tree : Tree) : Option String :=
  (tree.child? "left").bind fun part =>
    if part.kind = "identifier" then index.byteSlice part.bytes else none

/-- Where the ends of an assignment have positions, it assigns a variable if it has a name. -/
theorem localOf_eq {index : Index} {place : Place} {region : Region}
    (hstart : index.positionOf (place.tree.charSpan index).start = .ok region.start)
    (hstop : index.positionOf (place.tree.charSpan index).stop = .ok region.stop) :
    localOf index place = (assignedName? index place.tree).map fun name =>
      ⟨name, (place.tree.child? "right").bind (signature index), place.enclosure index, region⟩ := by
  unfold localOf assignedName? guard
  simp only [hstart, hstop]
  cases place.tree.child? "left" with
  | none => rfl
  | some part =>
      by_cases hkind : part.kind = "identifier"
      · cases hname : index.byteSlice part.bytes <;> simp [hkind, hname, Except.toOption]
      · simp [hkind]

section Boundaries

variable {text : String} {root : Tree} (hordered : ∀ node ∈ root.preorder, node.Ordered)
  (hboundaries : ∀ node ∈ root.preorder, (Index.ofString text).IsBoundary node.bytes.start ∧
    (Index.ofString text).IsBoundary node.bytes.stop)
  (hleaves : ∀ node ∈ root.preorder, node.kind = "identifier" → node.children = [])
include hordered hboundaries

/-- Every node of the tree has a text. -/
theorem byteSlice_of_mem_preorder {node : Tree} (hnode : node ∈ root.preorder) :
    (Index.ofString text).byteSlice node.bytes =
      some ((Index.ofString text).slice ((Index.ofString text).charSpan node.bytes)) := by
  obtain ⟨hstart, hstop⟩ := hboundaries node hnode
  have hle : (Index.ofString text).charOf node.bytes.start ≤
      (Index.ofString text).charOf node.bytes.stop :=
    Index.charOf_mono (hordered node hnode).start_le_stop
  exact Index.byteSlice_byteOf hle hstart.byteOf_charOf hstop.byteOf_charOf

omit hordered in
/-- Both ends of every node have positions. -/
theorem positionOf_of_mem_preorder {node : Tree} (hnode : node ∈ root.preorder) :
    ∃ region : Region,
      (Index.ofString text).positionOf ((Index.ofString text).charSpan node.bytes).start =
          .ok region.start ∧
        (Index.ofString text).positionOf ((Index.ofString text).charSpan node.bytes).stop =
          .ok region.stop := by
  obtain ⟨hstart, hstop⟩ := hboundaries node hnode
  exact ⟨⟨_, _⟩, Index.positionOf_of_le hstart.charOf_le_size,
    Index.positionOf_of_le hstop.charOf_le_size⟩

theorem isTextOfPart_of_byteSlice {place : Place} (hplace : Place.Within root place)
    {field name : String}
    (hname : (place.tree.child? field).bind ((Index.ofString text).byteSlice ·.bytes) =
      some name) : IsTextOfPart (.ofString text) place.tree field name := by
  obtain ⟨part, hpart, hslice⟩ := Option.bind_eq_some_iff.mp hname
  rw [byteSlice_of_mem_preorder hordered hboundaries (part_mem_preorder hplace hpart)] at hslice
  exact ⟨part, hpart, (Option.some.inj hslice).symm⟩

include hleaves in
/-- A method is recorded for every node that defines one and has a name. -/
theorem isSome_methodAt_eq {place : Place} (hplace : Place.Within root place) :
    (methodAt (.ofString text) place).isSome = definesMethod place.tree := by
  rw [isSome_methodAt, namesMethod, definesMethod]
  cases hmethod : isMethod place.tree.kind with
  | false => simp
  | true =>
      rw [isVisited_of_isMethod hleaves hplace hmethod, Bool.true_and, Bool.true_and, nameOf?]
      cases hpart : place.tree.child? "name" with
      | none => rfl
      | some part =>
          have hslice := byteSlice_of_mem_preorder hordered hboundaries
            (part_mem_preorder hplace hpart)
          rw [Option.bind_some, hslice]
          rfl

theorem isMethodOf_of_methodAt {place : Place} (hplace : Place.Within root place)
    {method : Method} (hmethod : methodAt (.ofString text) place = some method) :
    IsMethodOf (.ofString text) place.tree method := by
  obtain ⟨hkind, hname, hspan, -⟩ := methodAt_eq_some hmethod
  refine ⟨isTextOfPart_of_byteSlice hordered hboundaries hplace hname, ?_⟩
  rw [hspan, charSpan_of_kind_ne (kind_ne_of_test hkind rfl)]

include hleaves in
/-- A variable is recorded for every assignment to a plain name. -/
theorem isSome_localAt_eq {place : Place} (hplace : Place.Within root place) :
    (localAt (.ofString text) place).isSome = assignsName place.tree := by
  rw [localAt, assignsName]
  cases hassignment : isAssignment place.tree.kind with
  | false => simp
  | true =>
      have hvisited : isVisited (.ofString text) place :=
        isVisited_of_kind_ne hleaves hplace (kind_ne_of_test hassignment rfl)
      obtain ⟨region, hstart, hstop⟩ :=
        positionOf_of_mem_preorder hboundaries hplace.tree_mem_preorder
      rw [← charSpan_of_kind_ne (kind_ne_of_test hassignment rfl)] at hstart hstop
      rw [hvisited, Bool.true_and, Bool.true_and, if_pos rfl, localOf_eq hstart hstop,
        Option.isSome_map, assignedName?]
      cases hpart : place.tree.child? "left" with
      | none => rfl
      | some part =>
          have hslice := byteSlice_of_mem_preorder hordered hboundaries
            (part_mem_preorder hplace hpart)
          by_cases hname : part.kind = "identifier"
          · simp [hname, hslice]
          · simp [hname]

theorem isLocalOf_of_localAt {place : Place} (hplace : Place.Within root place)
    {assigned : Local} (hlocal : localAt (.ofString text) place = some assigned) :
    IsLocalOf (.ofString text) place.tree assigned := by
  rw [localAt, Option.ite_none_right_eq_some, Bool.and_eq_true] at hlocal
  obtain ⟨⟨-, hassignment⟩, hlocal⟩ := hlocal
  have hspan : place.tree.charSpan (.ofString text) =
      (Index.ofString text).charSpan place.tree.bytes :=
    charSpan_of_kind_ne (kind_ne_of_test hassignment rfl)
  obtain ⟨region, hstart, hstop⟩ :=
    positionOf_of_mem_preorder hboundaries hplace.tree_mem_preorder
  rw [localOf_eq (hspan ▸ hstart) (hspan ▸ hstop), Option.map_eq_some_iff] at hlocal
  obtain ⟨name, hname, rfl⟩ := hlocal
  obtain ⟨part, hpart, hslice⟩ := Option.bind_eq_some_iff.mp hname
  refine ⟨isTextOfPart_of_byteSlice hordered hboundaries hplace ?_, hstart, hstop⟩
  rw [hpart]
  exact (Option.ite_none_right_eq_some.mp hslice).2

omit hboundaries in
/-- Later variables of a table do not start before earlier ones. -/
theorem locals_pairwise_start (hprogram : root.kind = "program") :
    (Table.ofTree (.ofString text) root).locals.Pairwise (·.region.start ≤ ·.region.start) := by
  have hstart : ∀ {place : Place} {assigned : Local},
      localAt (.ofString text) place = some assigned → assigned.region.start =
        (Index.ofString text).lineColumn ((Index.ofString text).charOf place.tree.bytes.start) := by
    intro place assigned hlocal
    rw [localAt, Option.ite_none_right_eq_some, Bool.and_eq_true] at hlocal
    have hassigns : Assigns (.ofString text) place assigned := ⟨hlocal.1.2, hlocal.2⟩
    rw [hassigns.region_eq]
  rw [locals_eq_filterMap_places hprogram, List.pairwise_filterMap]
  refine (places_pairwise_start hordered).imp fun hle assigned hassigned other hother => ?_
  rw [hstart hassigned, hstart hother]
  exact Index.lineColumn_mono (Index.charOf_mono hle)

include hleaves in
/-- A table loses no definition and has none twice. In pre-order of the tree it lists one
method for each node that defines one and has a name, and one variable for each assignment to
a plain name, with the name and the ends of that node. So the variables stand in the order of
their starts. -/
theorem ofTree_lists_definitions (hprogram : root.kind = "program") :
    List.Forall₂ (IsMethodOf (.ofString text)) (root.preorder.filter definesMethod)
        (Table.ofTree (.ofString text) root).methods ∧
      List.Forall₂ (IsLocalOf (.ofString text)) (root.preorder.filter assignsName)
        (Table.ofTree (.ofString text) root).locals ∧
      (Table.ofTree (.ofString text) root).locals.Pairwise
        (·.region.start ≤ ·.region.start) := by
  refine ⟨?_, ?_, locals_pairwise_start hordered hprogram⟩
  · rw [methods_eq_filterMap_places hprogram]
    apply forall₂_preorder
    · intro place hplace
      exact isSome_methodAt_eq hordered hboundaries hleaves hplace
    · intro place method hplace hmethod
      exact isMethodOf_of_methodAt hordered hboundaries hplace hmethod
  · rw [locals_eq_filterMap_places hprogram]
    apply forall₂_preorder
    · intro place hplace
      exact isSome_localAt_eq hordered hboundaries hleaves hplace
    · intro place assigned hplace hlocal
      exact isLocalOf_of_localAt hordered hboundaries hplace hlocal

end Boundaries

/-- The assignment `x = y += 1`, with another one on its right. -/
def chainedAssignment : Tree :=
  .node ⟨"assignment", true, ⟨9, 19⟩, none⟩
    [.node ⟨"identifier", true, ⟨9, 10⟩, some "left"⟩ [],
      .node ⟨"=", false, ⟨11, 12⟩, none⟩ [],
      .node ⟨"operator_assignment", true, ⟨13, 19⟩, some "right"⟩
        [.node ⟨"identifier", true, ⟨13, 14⟩, some "left"⟩ [],
          .node ⟨"+=", false, ⟨15, 17⟩, none⟩ [],
          .node ⟨"integer", true, ⟨18, 19⟩, some "right"⟩ []]]

/-- A method with a name from outside ASCII, and two assignments in it. -/
def chainedAssignments : Tree :=
  .node ⟨"program", true, ⟨0, 23⟩, none⟩
    [.node ⟨"method", true, ⟨0, 23⟩, none⟩
      [.node ⟨"def", false, ⟨0, 3⟩, none⟩ [],
        .node ⟨"identifier", true, ⟨4, 6⟩, some "name"⟩ [],
        .node ⟨"body_statement", true, ⟨9, 19⟩, some "body"⟩ [chainedAssignment],
        .node ⟨"end", false, ⟨20, 23⟩, none⟩ []]]

def chainedAssignmentsText : String :=
  "def é\n  x = y += 1\nend"

theorem ofTree_lists_definitions_chained :
    (∀ node ∈ chainedAssignments.preorder, node.Ordered) ∧
    (∀ node ∈ chainedAssignments.preorder,
      (Index.ofString chainedAssignmentsText).IsBoundary node.bytes.start ∧
        (Index.ofString chainedAssignmentsText).IsBoundary node.bytes.stop) ∧
    (∀ node ∈ chainedAssignments.preorder, node.kind = "identifier" → node.children = []) ∧
    chainedAssignments.kind = "program" ∧
    List.Forall₂ (IsMethodOf (.ofString chainedAssignmentsText))
      (chainedAssignments.preorder.filter definesMethod)
      [⟨"é", ⟨0, 22⟩, .instanceLevel⟩] ∧
    List.Forall₂ (IsLocalOf (.ofString chainedAssignmentsText))
      (chainedAssignments.preorder.filter assignsName)
      [⟨"x", none, ⟨⟨0, 22⟩, ⟨0, 22⟩⟩, ⟨⟨1, 2⟩, ⟨1, 12⟩⟩⟩,
        ⟨"y", some "Integer.new", ⟨⟨0, 22⟩, ⟨0, 22⟩⟩, ⟨⟨1, 6⟩, ⟨1, 12⟩⟩⟩] := by
  have hordered : ∀ node ∈ chainedAssignments.preorder, node.Ordered := by decide +kernel
  have hboundaries : ∀ node ∈ chainedAssignments.preorder,
      (Index.ofString chainedAssignmentsText).IsBoundary node.bytes.start ∧
        (Index.ofString chainedAssignmentsText).IsBoundary node.bytes.stop := by decide +kernel
  have hleaves : ∀ node ∈ chainedAssignments.preorder, node.kind = "identifier" →
      node.children = [] := by decide +kernel
  have htable : Table.ofTree (.ofString chainedAssignmentsText) chainedAssignments =
      ⟨[⟨"x", none, ⟨⟨0, 22⟩, ⟨0, 22⟩⟩, ⟨⟨1, 2⟩, ⟨1, 12⟩⟩⟩,
          ⟨"y", some "Integer.new", ⟨⟨0, 22⟩, ⟨0, 22⟩⟩, ⟨⟨1, 6⟩, ⟨1, 12⟩⟩⟩],
        [⟨"é", ⟨0, 22⟩, .instanceLevel⟩]⟩ := by decide +kernel
  obtain ⟨hmethods, hlocals, -⟩ :=
    ofTree_lists_definitions hordered hboundaries hleaves rfl
  rw [htable] at hmethods hlocals
  exact ⟨hordered, hboundaries, hleaves, rfl, hmethods, hlocals⟩

end Caret.Symbols
