import Caret.Proofs.Symbols.Records

/-! # Scopes of methods

The walk hands the scope of methods down the tree. Seen from a method the rule is about the
nodes around it: only the closest definition around it counts, and the `module_function`
statements between the two.
-/

namespace Caret.Symbols

open Text Syntax

/-- Kinds that decide anew on the scope of the methods they hold. -/
def setsScope (kind : String) : Bool :=
  isNamespace kind || isMethod kind || kind = "singleton_class"

/-- The closest node around a place that decides on the scope of methods, or else the
root. -/
def scopeOwner (root : Tree) (place : Place) : Place :=
  (place.ancestors.find? (setsScope ·.tree.kind)).getD (.root root)

/-- Whether the surroundings of a place make class methods: its owner is a singleton class,
or a bare `module_function` stands before it, or before a node around it inside the
owner. -/
inductive InClassLevel (index : Index) (root : Tree) (place : Place) : Prop
  | singletonClass (owner : (scopeOwner root place).tree.kind = "singleton_class")
  | moduleFunction {node : Place} (around : node ∈ place.upward)
      (inside : scopeOwner root place ∈ node.ancestors)
      (follows : followsModuleFunction index node)

theorem inside_eq_classLevel_iff {scope : Scope} {kind : String} (hsets : setsScope kind) :
    scope.inside kind = .classLevel ↔ kind = "singleton_class" := by
  by_cases hkind : kind = "singleton_class"
  · simp [hkind, Scope.inside, isNamespace, isMethod]
  · have hdefinition : (isNamespace kind || isMethod kind) = true := by
      simpa [setsScope, hkind] using hsets
    simp [Scope.inside, hdefinition, hkind]

theorem inside_of_not_setsScope {scope : Scope} {kind : String} (hsets : setsScope kind = false) :
    scope.inside kind = scope := by
  rw [setsScope, Bool.or_eq_false_iff, decide_eq_false_iff_not] at hsets
  rw [Scope.inside, hsets.1, if_neg Bool.false_ne_true, if_neg hsets.2]

theorem ite_eq_classLevel_iff {follows : Bool} {scope : Scope} :
    (if follows then Scope.classLevel else scope) = .classLevel ↔
      follows ∨ scope = .classLevel := by
  cases follows <;> simp

variable {index : Index} {root : Tree}

theorem scopeOwner_mem_upward {place : Place} (hplace : Place.Within root place) :
    scopeOwner root place ∈ place.upward := by
  unfold scopeOwner
  cases hfound : place.ancestors.find? (setsScope ·.tree.kind) with
  | none => exact hplace.root_mem_upward
  | some owner => exact Place.mem_upward_of_mem_ancestors (List.mem_of_find?_eq_some hfound)

section Child

variable {parent : Place} {position : Nat} {tree : Tree}

theorem scopeOwner_child_of_setsScope (hsets : setsScope parent.tree.kind) :
    scopeOwner root ⟨tree, (parent.tree, position) :: parent.above⟩ = parent := by
  simp only [scopeOwner, Place.ancestors_below, Place.upward_eq_cons, List.find?_cons, hsets]
  rfl

theorem scopeOwner_child_of_not_setsScope (hsets : setsScope parent.tree.kind = false) :
    scopeOwner root ⟨tree, (parent.tree, position) :: parent.above⟩ = scopeOwner root parent := by
  simp only [scopeOwner, Place.ancestors_below, Place.upward_eq_cons, List.find?_cons, hsets]

/-- A child of an owner is at class level because of the owner, or because of what stands
before it. -/
theorem inClassLevel_child_of_setsScope (hsets : setsScope parent.tree.kind) :
    InClassLevel index root ⟨tree, (parent.tree, position) :: parent.above⟩ ↔
      followsModuleFunction index ⟨tree, (parent.tree, position) :: parent.above⟩ ∨
        parent.tree.kind = "singleton_class" := by
  have howner : scopeOwner root ⟨tree, (parent.tree, position) :: parent.above⟩ = parent :=
    scopeOwner_child_of_setsScope hsets
  constructor
  · intro hlevel
    cases hlevel with
    | singletonClass owner => exact .inr (howner ▸ owner)
    | moduleFunction around inside follows =>
        rw [howner] at inside
        rcases List.mem_cons.mp around with rfl | hparent
        · exact .inl follows
        · exact absurd inside (Place.not_mem_ancestors_of_mem_upward hparent)
  · rintro (hfollows | hkind)
    · refine .moduleFunction (Place.mem_upward_self _) ?_ hfollows
      rw [howner, Place.ancestors_below]
      exact Place.mem_upward_self _
    · exact .singletonClass (howner.symm ▸ hkind)

/-- A child of any other node is also at class level wherever that node is. -/
theorem inClassLevel_child_of_not_setsScope (hparent : Place.Within root parent)
    (hsets : setsScope parent.tree.kind = false) :
    InClassLevel index root ⟨tree, (parent.tree, position) :: parent.above⟩ ↔
      followsModuleFunction index ⟨tree, (parent.tree, position) :: parent.above⟩ ∨
        InClassLevel index root parent := by
  have howner : scopeOwner root ⟨tree, (parent.tree, position) :: parent.above⟩ =
      scopeOwner root parent := scopeOwner_child_of_not_setsScope hsets
  constructor
  · intro hlevel
    cases hlevel with
    | singletonClass owner => exact .inr (.singletonClass (howner ▸ owner))
    | moduleFunction around inside follows =>
        rw [howner] at inside
        rcases List.mem_cons.mp around with rfl | hmem
        · exact .inl follows
        · exact .inr (.moduleFunction hmem inside follows)
  · rintro (hfollows | hlevel)
    · refine .moduleFunction (Place.mem_upward_self _) ?_ hfollows
      rw [howner, Place.ancestors_below]
      exact scopeOwner_mem_upward hparent
    · cases hlevel with
      | singletonClass owner => exact .singletonClass (howner.symm ▸ owner)
      | moduleFunction around inside follows =>
          exact .moduleFunction (List.mem_cons_of_mem _ around) (howner.symm ▸ inside) follows

end Child

section Program

variable (hprogram : root.kind = "program")
include hprogram

theorem scopeInside_eq {place : Place} (hplace : Place.Within root place) :
    scopeInside index place.tree place.above =
      (scopeAt index place).inside place.tree.kind := by
  cases hplace with
  | root => exact (congrArg (Scope.inside .instanceLevel) hprogram).symm
  | child inside stands => rfl

/-- The scope that the walk carries to a place is that of its surroundings. -/
theorem scopeAt_eq_classLevel_iff {place : Place} (hplace : Place.Within root place) :
    scopeAt index place = .classLevel ↔ InClassLevel index root place := by
  induction hplace with
  | root =>
      refine iff_of_false (by simp [scopeAt, Place.root]) fun hlevel => ?_
      cases hlevel with
      | singletonClass owner =>
          rw [show scopeOwner root (Place.root root) = Place.root root from rfl] at owner
          exact absurd (hprogram.symm.trans owner) (by decide)
      | moduleFunction around inside follows =>
          obtain rfl := List.mem_singleton.mp around
          contradiction
  | @child parent position tree inside stands ih =>
      have hstep : scopeAt index ⟨tree, (parent.tree, position) :: parent.above⟩ =
          if followsModuleFunction index ⟨tree, (parent.tree, position) :: parent.above⟩ then
            .classLevel
          else (scopeAt index parent).inside parent.tree.kind := by
        rw [← scopeInside_eq hprogram inside]
        rfl
      rw [hstep, ite_eq_classLevel_iff]
      cases hsets : setsScope parent.tree.kind with
      | true =>
          rw [inClassLevel_child_of_setsScope hsets, inside_eq_classLevel_iff hsets]
      | false =>
          rw [inClassLevel_child_of_not_setsScope inside hsets, ← ih,
            inside_of_not_setsScope hsets]

end Program

/-- What a table tells about the method that a node defines. -/
structure Describes (index : Index) (root : Tree) (place : Place) (method : Method) : Prop where
  name : nameOf? index place.tree = some method.name
  span : method.span = place.tree.charSpan index
  classLevel : method.scope = .classLevel ↔
    place.tree.kind = "singleton_method" ∨ InClassLevel index root place
  instanceLevel : method.scope = .instanceLevel ↔
    ¬ (place.tree.kind = "singleton_method" ∨ InClassLevel index root place)

theorem describes_of_methodAt (hprogram : root.kind = "program") {place : Place}
    (hplace : Place.Within root place) {method : Method}
    (hmethod : methodAt index place = some method) : Describes index root place method := by
  obtain ⟨-, hname, hspan, hscope⟩ := methodAt_eq_some hmethod
  have hclass : method.scope = .classLevel ↔
      place.tree.kind = "singleton_method" ∨ InClassLevel index root place := by
    rw [hscope, methodScope, ← scopeAt_eq_classLevel_iff hprogram hplace]
    split <;> simp [*]
  refine ⟨hname, hspan, hclass, ?_⟩
  rw [← hclass]
  cases method.scope <;> simp

/-- The scope of a method follows from its surroundings. A table holds one method for each
node that defines one with a name, in pre-order. It is a class method exactly if it is
defined on a single object, or its surroundings are at class level. -/
theorem methods_scoped_by_surroundings (hprogram : root.kind = "program")
    (hleaves : ∀ node ∈ root.preorder, node.kind = "identifier" → node.children = []) :
    List.Forall₂ (Describes index root) (root.places.filter (namesMethod index))
      (Table.ofTree index root).methods := by
  rw [← recordedNodes_eq hleaves]
  have hwithin : ∀ place ∈ recordedNodes index root, Place.Within root place :=
    fun place hplace => Tree.mem_places.mp (List.mem_filter.mp hplace).1
  refine ((List.forall₂_and_left _ _).mpr ⟨hwithin, forall₂_methodAt hprogram⟩).imp ?_
  rintro place method ⟨hplace, hmethod⟩
  exact describes_of_methodAt hprogram hplace hmethod

/-- The method `c` inside the method `b`. -/
def innerMethod : Tree :=
  .node ⟨"method", true, ⟨38, 59⟩, none⟩
    [.node ⟨"def", false, ⟨38, 41⟩, none⟩ [],
      .node ⟨"identifier", true, ⟨42, 43⟩, some "name"⟩ [],
      .node ⟨"body_statement", true, ⟨50, 51⟩, some "body"⟩
        [.node ⟨"identifier", true, ⟨50, 51⟩, none⟩ []],
      .node ⟨"end", false, ⟨56, 59⟩, none⟩ []]

def methodBody : Tree :=
  .node ⟨"body_statement", true, ⟨38, 65⟩, some "body"⟩
    [innerMethod, .node ⟨"identifier", true, ⟨64, 65⟩, none⟩ []]

def outerMethod : Tree :=
  .node ⟨"method", true, ⟨28, 71⟩, none⟩
    [.node ⟨"def", false, ⟨28, 31⟩, none⟩ [],
      .node ⟨"identifier", true, ⟨32, 33⟩, some "name"⟩ [], methodBody,
      .node ⟨"end", false, ⟨68, 71⟩, none⟩ []]

/-- The body of the class, with `module_function` before the methods. -/
def classBody : Tree :=
  .node ⟨"body_statement", true, ⟨10, 71⟩, some "body"⟩
    [.node ⟨"identifier", true, ⟨10, 25⟩, none⟩ [], outerMethod]

def classNode : Tree :=
  .node ⟨"class", true, ⟨0, 75⟩, none⟩
    [.node ⟨"class", false, ⟨0, 5⟩, none⟩ [],
      .node ⟨"constant", true, ⟨6, 7⟩, some "name"⟩ [], classBody,
      .node ⟨"end", false, ⟨72, 75⟩, none⟩ []]

/-- A class with a method inside a method. -/
def nestedMethods : Tree :=
  .node ⟨"program", true, ⟨0, 75⟩, none⟩ [classNode]

def nestedMethodsText : String :=
  "class A\n  module_function\n  def b\n    def c\n      x\n    end\n    y\n  end\nend"

theorem methods_scoped_by_surroundings_nestedMethods :
    nestedMethods.kind = "program" ∧
    (∀ node ∈ nestedMethods.preorder, node.kind = "identifier" → node.children = []) ∧
    List.Forall₂ (Describes (.ofString nestedMethodsText) nestedMethods)
      (nestedMethods.places.filter (namesMethod (.ofString nestedMethodsText)))
      [⟨"b", ⟨28, 71⟩, .classLevel⟩, ⟨"c", ⟨38, 59⟩, .instanceLevel⟩] := by
  have hleaves : ∀ node ∈ nestedMethods.preorder, node.kind = "identifier" →
      node.children = [] := by decide +kernel
  have hmethods : (Table.ofTree (.ofString nestedMethodsText) nestedMethods).methods =
      [⟨"b", ⟨28, 71⟩, .classLevel⟩, ⟨"c", ⟨38, 59⟩, .instanceLevel⟩] := by decide +kernel
  refine ⟨rfl, hleaves, ?_⟩
  rw [← hmethods]
  exact methods_scoped_by_surroundings rfl hleaves

end Caret.Symbols
