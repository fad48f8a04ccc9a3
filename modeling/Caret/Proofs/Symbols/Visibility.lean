import Caret.Proofs.Buffer.Enclosing
import Caret.Proofs.Symbols.Assignments

/-! # Visibility of local variables

Whether a variable is visible is decided by comparing spans and positions. In a
properly nested tree this is lexical scoping: the gate around the use is the node
around the assignment itself, the use stands inside the block of the assignment,
and the assignment has ended.
-/

namespace Caret.Symbols

open Text Syntax

/-- Whether a node starts afresh with no local variables. -/
def startsAfresh (place : Place) : Bool :=
  isGate place.tree.kind

/-- Whether a node has local variables of its own. -/
def hasLocals (place : Place) : Bool :=
  isGate place.tree.kind || isBlock place.tree.kind

/-- The first gate among nodes that are listed from the inside. -/
def closestGate (places : List Place) : Option Place :=
  places.find? startsAfresh

/-- The first block or gate among nodes that are listed from the inside. -/
def closestBlock (places : List Place) : Option Place :=
  places.find? hasLocals

/-- Lexical scoping: code at an offset, with an innermost node around it, sees the
variable that an assignment gives. Nodes are compared as places of the tree. -/
structure Sees (index : Index) (innermost assignment : Place) (offset : Nat) : Prop where
  same_gate : closestGate innermost.upward = closestGate assignment.ancestors
  inside_block : ∃ block ∈ innermost.upward, closestBlock assignment.ancestors = some block
  assigned_before : (assignment.tree.charSpan index).stop < offset

theorem ofNested_gate {index : Index} {places : List Place} {gate : Place}
    (hgate : closestGate places = some gate) :
    (Enclosure.ofNested index (places.map (·.tree))).gate = gate.tree.charSpan index := by
  induction places with
  | nil => contradiction
  | cons place rest ih =>
      rw [closestGate, List.find?_cons, startsAfresh] at hgate
      rw [List.map_cons, Enclosure.ofNested]
      split at hgate
      next hkind =>
        obtain rfl := Option.some.inj hgate
        rw [if_pos hkind]
      next hkind =>
        rw [hkind, if_neg Bool.false_ne_true]
        split <;> exact ih hgate

theorem ofNested_block {index : Index} {places : List Place} {block : Place}
    (hblock : closestBlock places = some block) :
    (Enclosure.ofNested index (places.map (·.tree))).block = block.tree.charSpan index := by
  induction places with
  | nil => contradiction
  | cons place rest ih =>
      rw [closestBlock, List.find?_cons, hasLocals] at hblock
      rw [List.map_cons, Enclosure.ofNested]
      split at hblock
      next hkind =>
        obtain rfl := Option.some.inj hblock
        split
        next => rfl
        next hgate =>
          rw [if_pos (by simpa [hgate] using hkind)]
      next hkind =>
        rw [Bool.or_eq_false_iff] at hkind
        rw [hkind.1, hkind.2, if_neg Bool.false_ne_true, if_neg Bool.false_ne_true]
        exact ih hblock

theorem not_isGate_of_isAssignment {kind : String} (hkind : isAssignment kind) :
    isGate kind = false ∧ isBlock kind = false := by
  simp only [isAssignment, decide_eq_true_eq, List.mem_cons, List.not_mem_nil, or_false] at hkind
  rcases hkind with rfl | rfl <;> decide

theorem closest_ancestors {place : Place} (hkind : isAssignment place.tree.kind) :
    closestGate place.ancestors = closestGate place.upward ∧
      closestBlock place.ancestors = closestBlock place.upward := by
  obtain ⟨hgate, hblock⟩ := not_isGate_of_isAssignment hkind
  simp [closestGate, closestBlock, startsAfresh, hasLocals, place.upward_eq_cons, hgate, hblock]

section Nested

variable {buffer : Buffer} (hnested : buffer.tree.ProperlyNested buffer.index)
include hnested

theorem exists_closest {place : Place} (hplace : Place.Within buffer.tree place) :
    ∃ gate block, closestGate place.upward = some gate ∧ closestBlock place.upward = some block ∧
      place.enclosure buffer.index =
        ⟨gate.tree.charSpan buffer.index, block.tree.charSpan buffer.index⟩ := by
  have hroot : isGate (Place.root buffer.tree).tree.kind := by
    rw [show (Place.root buffer.tree).tree.kind = _ from hnested.root_program]
    decide
  obtain ⟨gate, hgate⟩ : ∃ gate, closestGate place.upward = some gate :=
    hplace.exists_find? hroot
  obtain ⟨block, hblock⟩ : ∃ block, closestBlock place.upward = some block :=
    hplace.exists_find? (by simp [hasLocals, hroot])
  refine ⟨gate, block, hgate, hblock, ?_⟩
  rw [Place.enclosure, ← ofNested_gate hgate, ← ofNested_block hblock]

theorem contains_start {assignment : Place} (hassignment : Place.Within buffer.tree assignment)
    (hkind : isAssignment assignment.tree.kind)
    (hbytes : assignment.tree.bytes.start < assignment.tree.bytes.stop) :
    (assignment.tree.charSpan buffer.index).contains
      (assignment.tree.charSpan buffer.index).start := by
  rw [buffer.index_eq] at hnested ⊢
  refine hnested.contains_start hassignment (fun hprogram => ?_) hbytes
  rw [hprogram] at hkind
  contradiction

theorem contains_of_mem_upward {place outer : Place} (hplace : Place.Within buffer.tree place)
    (houter : outer ∈ place.upward) {offset : Nat}
    (hholds : (place.tree.charSpan buffer.index).contains offset) :
    (outer.tree.charSpan buffer.index).contains offset := by
  rw [buffer.index_eq] at hnested hholds ⊢
  obtain ⟨hstart, hstop⟩ := hnested.charSpan_mono hplace houter
  rw [Span.contains_iff] at hholds ⊢
  omega

/-- Spans do not confuse two gates. If the gates of an earlier assignment and of a
later use span the same text, they are one node. -/
theorem gate_eq_of_charSpan_eq {offset : Nat} {innermost assignment : Place}
    (hoffset : offset < buffer.size) (hinnermost : Place.Within buffer.tree innermost)
    (hupward : buffer.enclosing (offset + 1) = innermost.upward)
    (hassignment : Place.Within buffer.tree assignment)
    (hkind : isAssignment assignment.tree.kind)
    (hbytes : assignment.tree.bytes.start < assignment.tree.bytes.stop)
    (hbefore : (assignment.tree.charSpan buffer.index).stop ≤ offset) {gate other : Place}
    (hgate : closestGate innermost.upward = some gate)
    (hother : closestGate assignment.upward = some other)
    (hspan : gate.tree.charSpan buffer.index = other.tree.charSpan buffer.index) :
    gate = other := by
  have hgateUp := List.mem_of_find?_eq_some hgate
  have hotherUp := List.mem_of_find?_eq_some hother
  have hgateIn := hinnermost.of_mem_upward hgateUp
  have hotherIn := hassignment.of_mem_upward hotherUp
  have hotherAround : other ∈ innermost.upward := by
    rw [← hupward, Buffer.mem_enclosing_iff hnested hoffset hotherIn, ← hspan,
      ← Buffer.mem_enclosing_iff hnested hoffset hgateIn, hupward]
    exact hgateUp
  have hgateAround : gate ∈ assignment.upward := by
    have hstart := contains_start hnested hassignment hkind hbytes
    have hother := contains_of_mem_upward hnested hassignment hotherUp hstart
    rw [← hspan] at hother
    rcases Buffer.upward_total_of_contains hnested hassignment hgateIn hstart hother with
      haround | haround
    · -- The use would stand inside the assignment, which has ended before it.
      have hmem := Place.mem_upward_trans hgateUp haround
      rw [← hupward, Buffer.mem_enclosing_iff hnested hoffset hassignment,
        Span.contains_iff] at hmem
      omega
    · exact haround
  exact Place.find?_upward_eq hgate hother hgateAround hotherAround

/-- For an assignment that has ended, comparing spans decides whether the use stands
behind the same gate and inside the block of the assignment. -/
theorem encloses_iff {offset : Nat} {innermost assignment : Place}
    (hoffset : offset < buffer.size) (hinnermost : Place.Within buffer.tree innermost)
    (hupward : buffer.enclosing (offset + 1) = innermost.upward)
    (hassignment : Place.Within buffer.tree assignment)
    (hkind : isAssignment assignment.tree.kind)
    (hbytes : assignment.tree.bytes.start < assignment.tree.bytes.stop)
    (hbefore : (assignment.tree.charSpan buffer.index).stop ≤ offset) :
    (assignment.enclosure buffer.index).encloses (innermost.enclosure buffer.index) ↔
      closestGate innermost.upward = closestGate assignment.upward ∧
        ∃ block ∈ innermost.upward, closestBlock assignment.upward = some block := by
  obtain ⟨gate, block, hgate, hblock, heq⟩ := exists_closest hnested hinnermost
  obtain ⟨outerGate, outerBlock, houterGate, houterBlock, houterEq⟩ :=
    exists_closest hnested hassignment
  have hblockUp := List.mem_of_find?_eq_some hblock
  have houterUp := List.mem_of_find?_eq_some houterBlock
  have hblockIn := hinnermost.of_mem_upward hblockUp
  have houterIn := hassignment.of_mem_upward houterUp
  simp only [heq, houterEq, Enclosure.encloses, Bool.and_eq_true, decide_eq_true_eq, hgate,
    houterGate, houterBlock, Option.some.injEq]
  constructor
  · rintro ⟨⟨hspan, hstart⟩, hstop⟩
    refine ⟨gate_eq_of_charSpan_eq hnested hoffset hinnermost hupward hassignment hkind hbytes
      hbefore hgate houterGate hspan.symm, outerBlock, ?_, rfl⟩
    rw [← hupward, Buffer.mem_enclosing_iff hnested hoffset houterIn, Span.contains_iff]
    rw [← hupward, Buffer.mem_enclosing_iff hnested hoffset hblockIn,
      Span.contains_iff] at hblockUp
    omega
  · rintro ⟨rfl, outer, hmem, rfl⟩
    have hinside := Place.mem_upward_of_find? hblock hmem (List.find?_some houterBlock)
    have hindex := buffer.index_eq
    rw [hindex] at hnested ⊢
    obtain ⟨hstart, hstop⟩ := hnested.charSpan_mono hblockIn hinside
    exact ⟨⟨rfl, hstart⟩, hstop⟩

/-- A variable is visible from an offset exactly if the code there sees it by the
rules of lexical scoping. -/
theorem visible_iff_sees {assignment : Place} {assigned : Local}
    (hassignment : Place.Within buffer.tree assignment)
    (hassigns : Assigns buffer.index assignment assigned)
    (hbytes : assignment.tree.bytes.start < assignment.tree.bytes.stop) {offset : Nat}
    (hoffset : offset ≤ buffer.size) {innermost : Place}
    (hinnermost : Place.Within buffer.tree innermost)
    (hhead : (buffer.enclosing offset).head? = some innermost)
    (hupward : buffer.enclosing offset = innermost.upward) :
    assigned.visibleFrom (buffer.enclosureAt offset) (buffer.index.lineColumn offset) ↔
      Sees buffer.index innermost assignment offset := by
  obtain ⟨henclosure, hstop⟩ := hassigns.enclosure_and_stop
  obtain ⟨hgates, hblocks⟩ := closest_ancestors hassigns.1
  have hat : buffer.enclosureAt offset = innermost.enclosure buffer.index := by
    rw [Buffer.enclosureAt, List.headD_eq_head?_getD, hhead, Option.getD_some]
  have horder : buffer.index.lineColumn (assignment.tree.charSpan buffer.index).stop <
      buffer.index.lineColumn offset ↔ (assignment.tree.charSpan buffer.index).stop < offset := by
    rw [buffer.index_eq]
    exact Index.lineColumn_lt_iff
  rw [Local.visibleFrom, Bool.and_eq_true, decide_eq_true_eq, henclosure, hstop, hat, horder]
  by_cases hbefore : (assignment.tree.charSpan buffer.index).stop < offset
  · obtain ⟨before, rfl⟩ := Nat.exists_eq_succ_of_ne_zero (Nat.ne_zero_of_lt hbefore)
    rw [encloses_iff hnested hoffset hinnermost hupward hassignment hassigns.1 hbytes
      (Nat.le_of_lt_succ hbefore), ← hgates, ← hblocks]
    exact ⟨fun h => ⟨h.1.1, h.1.2, h.2⟩, fun h => ⟨⟨h.same_gate, h.inside_block⟩, hbefore⟩⟩
  · exact ⟨fun h => absurd h.2 hbefore, fun h => absurd h.assigned_before hbefore⟩

end Nested

/-- Local visibility is lexical scoping. Every variable that a tree defines belongs
to an assignment in it. The variable of an assignment with text is visible from an
offset exactly if that offset lies past the assignment, behind the same gate and
inside the block of the assignment, where gates and blocks are compared as nodes. -/
theorem visibleFrom_iff_sees {buffer : Buffer}
    (hnested : buffer.tree.ProperlyNested buffer.index) :
    (∀ assigned ∈ (Table.ofTree buffer.index buffer.tree).locals, ∃ assignment,
      Place.Within buffer.tree assignment ∧ Assigns buffer.index assignment assigned) ∧
    ∀ assignment assigned, Place.Within buffer.tree assignment →
      Assigns buffer.index assignment assigned →
      assignment.tree.bytes.start < assignment.tree.bytes.stop →
      ∀ offset ≤ buffer.size, ∃ innermost position,
        (buffer.enclosing offset).head? = some innermost ∧
        buffer.index.positionOf offset = .ok position ∧
        (assigned.visibleFrom (buffer.enclosureAt offset) position ↔
          Sees buffer.index innermost assignment offset) := by
  refine ⟨fun assigned => exists_assigns_of_mem_locals, ?_⟩
  intro assignment assigned hassignment hassigns hbytes offset hoffset
  obtain ⟨innermost, hhead, hupward, hinnermost⟩ := Buffer.enclosing_eq_upward hoffset
  exact ⟨innermost, _, hhead, Index.positionOf_of_le hoffset,
    visible_iff_sees hnested hassignment hassigns hbytes hoffset hinnermost hhead hupward⟩

/-- The assignment `x=1` in the method of `def f;x=1;x;end`. -/
def bodyAssignment : Tree :=
  .node ⟨"assignment", true, ⟨6, 9⟩, none⟩
    [.node ⟨"identifier", true, ⟨6, 7⟩, some "left"⟩ [], .node ⟨"=", false, ⟨7, 8⟩, none⟩ [],
      .node ⟨"integer", true, ⟨8, 9⟩, some "right"⟩ []]

def methodNode : Tree :=
  .node ⟨"method", true, ⟨0, 15⟩, none⟩
    [.node ⟨"identifier", true, ⟨4, 5⟩, some "name"⟩ [], bodyAssignment,
      .node ⟨"identifier", true, ⟨10, 11⟩, none⟩ []]

/-- A method that is the whole program, so that two gates span the same text. -/
def methodBuffer : Buffer :=
  .ofParsed "def f;x=1;x;end" ⟨.node ⟨"program", true, ⟨0, 15⟩, none⟩ [methodNode], false⟩

theorem visibleFrom_iff_sees_in_method :
    methodBuffer.tree.ProperlyNested methodBuffer.index ∧
    ∃ assignment assigned, Place.Within methodBuffer.tree assignment ∧
      Assigns methodBuffer.index assignment assigned ∧
      assignment.tree.bytes.start < assignment.tree.bytes.stop ∧
      ∃ innermost position, (methodBuffer.enclosing 11).head? = some innermost ∧
        methodBuffer.index.positionOf 11 = .ok position ∧
        (assigned.visibleFrom (methodBuffer.enclosureAt 11) position ↔
          Sees methodBuffer.index innermost assignment 11) := by
  have hnested : methodBuffer.tree.ProperlyNested methodBuffer.index := by decide +kernel
  have hmethod : Place.Within methodBuffer.tree ⟨methodNode, [(methodBuffer.tree, 0)]⟩ :=
    .child .root rfl
  have hassignment : Place.Within methodBuffer.tree
      ⟨bodyAssignment, [(methodNode, 1), (methodBuffer.tree, 0)]⟩ := hmethod.child rfl
  refine ⟨hnested, _, ⟨"x", some "Integer.new", ⟨⟨0, 15⟩, ⟨0, 15⟩⟩, ⟨⟨0, 6⟩, ⟨0, 9⟩⟩⟩,
    hassignment, ⟨by decide, by decide +kernel⟩, by decide, ?_⟩
  exact (visibleFrom_iff_sees hnested).2 _ _ hassignment ⟨by decide, by decide +kernel⟩
    (by decide) 11 (by decide +kernel)

end Caret.Symbols
