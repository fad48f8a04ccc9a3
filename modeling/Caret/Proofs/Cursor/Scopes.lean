import Caret.Cursor.Surroundings
import Caret.Proofs.Buffer.Edges
import Caret.Proofs.Symbols.Innermost
import Caret.Proofs.Symbols.MethodScopes

/-! # The scope at a cursor

Whether a cursor stands in a method is read off the nodes around it. In which method it
stands is then looked up by its offset, and a method also holds the offset at its start. So
the lookup may find a method that only begins at the cursor, where that is shorter than the
one around it.
-/

namespace Caret.Cursor

open Text Syntax Symbols

/-- The closest class, module or method around a cursor. -/
def definitionAround (cursor : Cursor) : Option Place :=
  cursor.enclosing.find? fun place => isNamespace place.tree.kind || isMethod place.tree.kind

/-- Whether a method is recorded for a node of the cursor's buffer. -/
def Records (cursor : Cursor) (place : Place) (method : Method) : Prop :=
  Symbols.Records cursor.buffer.index cursor.buffer.tree place method

/-- Whether a recorded method begins at the cursor, without being around it. -/
structure BeginsAt (cursor : Cursor) (place : Place) (method : Method) : Prop where
  recorded : cursor.Records place method
  outside : place ∉ cursor.enclosing
  starts : method.span.start = cursor.offset

/-- Whether a node is the only one with a recorded method that covers the text of its
method. -/
def CoversAlone (cursor : Cursor) (place : Place) (method : Method) : Prop :=
  ∀ other another, cursor.Records other another → another.span = method.span → other = place

variable {cursor : Cursor}

theorem scope_eq_classLevel_of_none (hnone : cursor.definitionAround = none) :
    cursor.scope = .classLevel := by
  rw [definitionAround] at hnone
  simp only [scope, hnone]

theorem scope_eq_classLevel_of_isNamespace {place : Place}
    (hplace : cursor.definitionAround = some place) (hkind : isNamespace place.tree.kind) :
    cursor.scope = .classLevel := by
  have hmethod : isMethod place.tree.kind = false := by
    have hkinds : place.tree.kind = "class" ∨ place.tree.kind = "module" := by
      simpa [isNamespace] using hkind
    rcases hkinds with hclass | hmodule
    · simp [isMethod, hclass]
    · simp [isMethod, hmodule]
  rw [definitionAround] at hplace
  simp only [scope, hplace, hmethod, if_neg Bool.false_ne_true]

theorem scope_eq_of_isMethod {place : Place} (hplace : cursor.definitionAround = some place)
    (hkind : isMethod place.tree.kind) {found : Method}
    (hfound : cursor.buffer.symbols.methodAt cursor.offset = some found) :
    cursor.scope = found.scope := by
  rw [definitionAround] at hplace
  simp only [scope, hplace, hkind, if_true, hfound, Option.map_some, Option.getD_some]

section Nested

variable (hnested : cursor.buffer.tree.ProperlyNested cursor.buffer.index)
include hnested

theorem Records.isMethod {place : Place} {method : Method}
    (hrecords : cursor.Records place method) : isMethod place.tree.kind :=
  (methodAt_eq_some (hrecords.methodAt_eq hnested.root_program)).1

theorem Records.span_eq {place : Place} {method : Method}
    (hrecords : cursor.Records place method) :
    method.span = place.tree.charSpan cursor.buffer.index :=
  (methodAt_eq_some (hrecords.methodAt_eq hnested.root_program)).2.2.1

theorem Records.start_le_stop {place : Place} {method : Method}
    (hrecords : cursor.Records place method) : method.span.start ≤ method.span.stop := by
  rw [hrecords.span_eq hnested, cursor.buffer.index_eq]
  rw [cursor.buffer.index_eq] at hnested
  exact hnested.charSpan_start_le_stop (Symbols.Records.within hrecords)

theorem contains_of_mem_enclosing {place : Place} {method : Method}
    (hrecords : cursor.Records place method) (hmem : place ∈ cursor.enclosing) :
    method.contains cursor.offset := by
  have htouches := Buffer.touches_of_mem_enclosing hnested cursor.offset_le hmem
  rw [← hrecords.span_eq hnested] at htouches
  simpa only [Method.contains, Bool.and_eq_true, decide_eq_true_eq] using htouches

theorem BeginsAt.contains {place : Place} {method : Method}
    (hbegins : cursor.BeginsAt place method) : method.contains cursor.offset := by
  have hstop := hbegins.recorded.start_le_stop hnested
  rw [hbegins.starts] at hstop
  simpa only [Method.contains, Bool.and_eq_true, decide_eq_true_eq] using
    ⟨Nat.le_of_eq hbegins.starts, hstop⟩

/-- A recorded method that holds the offset is around the cursor or begins there. -/
theorem mem_enclosing_or_beginsAt {place : Place} {method : Method}
    (hrecords : cursor.Records place method) (hholds : method.contains cursor.offset) :
    place ∈ cursor.enclosing ∨ cursor.BeginsAt place method := by
  by_cases hmem : place ∈ cursor.enclosing
  · exact .inl hmem
  · refine .inr ⟨hrecords, hmem, ?_⟩
    simp only [Method.contains, Bool.and_eq_true, decide_eq_true_eq] at hholds
    rcases Nat.eq_zero_or_pos cursor.offset with hzero | hpos
    · omega
    · have hreaches := (Buffer.mem_enclosing_iff_of_pos hnested hpos cursor.offset_le
        (Symbols.Records.within hrecords)).not.mp hmem
      rw [← hrecords.span_eq hnested] at hreaches
      omega

/-- All other methods around the cursor are around the closest one. -/
theorem span_inside_of_definitionAround {place other : Place} {method another : Method}
    (hplace : cursor.definitionAround = some place) (hrecords : cursor.Records place method)
    (hother : cursor.Records other another) (hmem : other ∈ cursor.enclosing) :
    another.span.start ≤ method.span.start ∧ method.span.stop ≤ another.span.stop := by
  obtain ⟨innermost, -, hupward, -⟩ := Buffer.enclosing_eq_upward cursor.offset_le
  have haround : other ∈ place.upward := by
    rw [definitionAround, enclosing, hupward] at hplace
    rw [enclosing, hupward] at hmem
    exact Place.mem_upward_of_find? hplace hmem (by simp [hother.isMethod hnested])
  rw [hrecords.span_eq hnested, hother.span_eq hnested, cursor.buffer.index_eq]
  rw [cursor.buffer.index_eq] at hnested
  exact hnested.charSpan_mono (Symbols.Records.within hrecords) haround

variable (hsymbols : cursor.buffer.symbols = .ofTree cursor.buffer.index cursor.buffer.tree)
include hsymbols

/-- In a method the scope is that of an innermost method at the offset, which is around the
cursor or begins there. -/
theorem exists_scope_eq {place : Place} {method : Method}
    (hplace : cursor.definitionAround = some place) (hrecords : cursor.Records place method) :
    ∃ first found, cursor.Records first found ∧
      (first ∈ cursor.enclosing ∨ cursor.BeginsAt first found) ∧
      (∀ other another, cursor.Records other another → another.contains cursor.offset →
        found.span.length < another.span.length ∨
          found.span.length = another.span.length ∧ found.span.start ≤ another.span.start) ∧
      cursor.scope = found.scope := by
  have hordered : cursor.buffer.symbols.methods.Pairwise (·.span.start ≤ ·.span.start) := by
    rw [hsymbols, cursor.buffer.index_eq]
    rw [cursor.buffer.index_eq] at hnested
    exact methods_pairwise_start hnested
  have hlisted : ∀ {other another}, cursor.Records other another →
      another ∈ cursor.buffer.symbols.methods := fun hother => by
    rw [hsymbols]
    exact hother.mem_methods
  have hholds := contains_of_mem_enclosing hnested hrecords (List.mem_of_find?_eq_some hplace)
  obtain ⟨found, hfound⟩ := Table.exists_methodAt (hlisted hrecords) hholds
  have hinnermost := Table.isInnermost_of_methodAt hordered hfound
  obtain ⟨first, hfirst⟩ : ∃ first, cursor.Records first found :=
    exists_records_of_mem_methods hnested.root_program (hsymbols ▸ hinnermost.listed)
  exact ⟨first, found, hfirst, mem_enclosing_or_beginsAt hnested hfirst hinnermost.holds,
    fun other another hother => hinnermost.innermost another (hlisted hother),
    scope_eq_of_isMethod hplace (hrecords.isMethod hnested) hfound⟩

/-- If no method that begins at the cursor is shorter, the scope is that of the method around
the cursor. -/
theorem scope_eq_of_forall_le {place : Place} {method : Method}
    (hplace : cursor.definitionAround = some place) (hrecords : cursor.Records place method)
    (halone : cursor.CoversAlone place method)
    (hlonger : ∀ other another, cursor.BeginsAt other another →
      method.span.length ≤ another.span.length) :
    cursor.scope = method.scope := by
  obtain ⟨first, found, hfirst, haround, hinnermost, hscope⟩ :=
    exists_scope_eq hnested hsymbols hplace hrecords
  have hholds := contains_of_mem_enclosing hnested hrecords (List.mem_of_find?_eq_some hplace)
  have hleast := hinnermost place method hrecords hholds
  have hmethod := hrecords.start_le_stop hnested
  have hfound := hfirst.start_le_stop hnested
  -- Another method around the cursor is no shorter. One that begins there and is as long
  -- stands later in the table, unless both start together.
  have hends : found.span.start = method.span.start ∧ found.span.stop = method.span.stop := by
    simp only [Method.contains, Span.length, Bool.and_eq_true, decide_eq_true_eq] at hholds hleast
    rcases haround with haround | hbegins
    · have hinside := span_inside_of_definitionAround hnested hplace hrecords hfirst haround
      omega
    · have hstarts := hbegins.starts
      have hlength := hlonger first found hbegins
      simp only [Span.length] at hlength
      omega
  have hspan : found.span = method.span := congrArg₂ Span.mk hends.1 hends.2
  obtain rfl := halone first found hfirst hspan
  have hsame := (hfirst.methodAt_eq hnested.root_program).symm.trans
    (hrecords.methodAt_eq hnested.root_program)
  rw [hscope, Option.some.inj hsame]

/-- If some method that begins at the cursor is shorter, the scope is that of a shortest one
of those. -/
theorem exists_scope_eq_of_lt {place : Place} {method : Method}
    (hplace : cursor.definitionAround = some place) (hrecords : cursor.Records place method)
    {other : Place} {another : Method} (hbegins : cursor.BeginsAt other another)
    (hshorter : another.span.length < method.span.length) :
    ∃ first found, cursor.BeginsAt first found ∧
      (∀ other another, cursor.BeginsAt other another →
        found.span.length ≤ another.span.length) ∧
      cursor.scope = found.scope := by
  obtain ⟨first, found, hfirst, haround, hinnermost, hscope⟩ :=
    exists_scope_eq hnested hsymbols hplace hrecords
  have hleast : ∀ other another, cursor.BeginsAt other another →
      found.span.length ≤ another.span.length := fun other another hbegins =>
    (hinnermost other another hbegins.recorded (hbegins.contains hnested)).elim Nat.le_of_lt
      (Nat.le_of_eq ·.1)
  refine ⟨first, found, haround.resolve_left fun hmem => ?_, hleast, hscope⟩
  have hinside := span_inside_of_definitionAround hnested hplace hrecords hfirst hmem
  have hlength := hleast other another hbegins
  simp only [Span.length] at hlength hshorter
  omega

/-- The scope at a cursor follows from the closest class, module or method around it.
Without one, or directly in a class or module, code runs at the level of a class. In a method
that has a name and alone covers its text, the scope is the one recorded for it, unless a
shorter method begins at the cursor. Then it is that of a shortest one of these. -/
theorem scope_of_definitionAround :
    (cursor.definitionAround.all (isNamespace ·.tree.kind) → cursor.scope = .classLevel) ∧
    (∀ place, cursor.definitionAround = some place →
      namesMethod cursor.buffer.index place →
      (∀ node ∈ cursor.buffer.tree.preorder, node.kind = "identifier" → node.children = []) →
      ∃ method, cursor.Records place method) ∧
    ∀ place method, cursor.definitionAround = some place → cursor.Records place method →
      (cursor.CoversAlone place method →
        (∀ other another, cursor.BeginsAt other another →
          method.span.length ≤ another.span.length) →
        cursor.scope = method.scope) ∧
      ∀ other another, cursor.BeginsAt other another →
        another.span.length < method.span.length →
        ∃ first found, cursor.BeginsAt first found ∧
          (∀ other another, cursor.BeginsAt other another →
            found.span.length ≤ another.span.length) ∧
          cursor.scope = found.scope := by
  refine ⟨fun hall => ?_, fun place hplace hnames hleaves => ?_, ?_⟩
  · cases haround : cursor.definitionAround with
    | none => exact scope_eq_classLevel_of_none haround
    | some place =>
        rw [haround, Option.all_some] at hall
        exact scope_eq_classLevel_of_isNamespace haround hall
  · have hwithin := Buffer.within_of_mem_enclosing (List.mem_of_find?_eq_some hplace)
    apply exists_records_of_mem_recordedNodes hnested.root_program
    rw [recordedNodes_eq hleaves]
    exact List.mem_filter.mpr ⟨Tree.mem_places.mpr hwithin, hnames⟩
  · intro place method hplace hrecords
    exact ⟨scope_eq_of_forall_le hnested hsymbols hplace hrecords,
      fun other another hbegins hshorter =>
        exists_scope_eq_of_lt hnested hsymbols hplace hrecords hbegins hshorter⟩

end Nested

def nestedMethodsBuffer : Buffer :=
  .ofParsed nestedMethodsText ⟨nestedMethods, false⟩

/-- In the outer method, behind the inner one. -/
def behindInnerMethod : Cursor where
  buffer := nestedMethodsBuffer
  offset := 65
  offset_le := by decide +kernel

/-- In the outer method, right before the inner one. -/
def beforeInnerMethod : Cursor where
  buffer := nestedMethodsBuffer
  offset := 38
  offset_le := by decide +kernel

def outerPlace : Place :=
  ⟨outerMethod, [(classBody, 1), (classNode, 2), (nestedMethods, 0)]⟩

def innerPlace : Place :=
  ⟨innerMethod, (methodBody, 0) :: (outerMethod, 2) :: outerPlace.above⟩

theorem properlyNested_nestedMethods :
    nestedMethods.ProperlyNested (.ofString nestedMethodsText) := by
  decide +kernel

theorem methodAt_outerPlace : methodAt (.ofString nestedMethodsText) outerPlace =
    some ⟨"b", ⟨28, 71⟩, .classLevel⟩ := by
  decide +kernel

theorem methodAt_innerPlace : methodAt (.ofString nestedMethodsText) innerPlace =
    some ⟨"c", ⟨38, 59⟩, .instanceLevel⟩ := by
  decide +kernel

theorem records_outerPlace : Symbols.Records (.ofString nestedMethodsText) nestedMethods
    outerPlace ⟨"b", ⟨28, 71⟩, .classLevel⟩ :=
  .of_methodAt rfl (.child (.child (.child .root rfl) rfl) rfl) methodAt_outerPlace

theorem eq_of_records_nestedMethods {place : Place} {method : Method}
    (hrecords : Symbols.Records (.ofString nestedMethodsText) nestedMethods place method) :
    place = outerPlace ∧ method = ⟨"b", ⟨28, 71⟩, .classLevel⟩ ∨
      place = innerPlace ∧ method = ⟨"c", ⟨38, 59⟩, .instanceLevel⟩ := by
  have hplaces : nestedMethods.places.filter (isMethod ·.tree.kind) = [outerPlace, innerPlace] :=
    rfl
  have hmethod := hrecords.methodAt_eq rfl
  have hmem : place ∈ [outerPlace, innerPlace] := by
    rw [← hplaces]
    exact List.mem_filter.mpr ⟨Tree.mem_places.mpr hrecords.within, (methodAt_eq_some hmethod).1⟩
  rcases List.mem_pair.mp hmem with rfl | rfl
  · exact .inl ⟨rfl, Option.some.inj (hmethod.symm.trans methodAt_outerPlace)⟩
  · exact .inr ⟨rfl, Option.some.inj (hmethod.symm.trans methodAt_innerPlace)⟩

/-- A cursor in the outer method is around it, in front of the inner one and behind it. -/
theorem definitionAround_eq_outerPlace {offset : Nat}
    (hoffset : offset ≤ nestedMethodsBuffer.size) (hat : offset = 38 ∨ offset = 65) :
    definitionAround ⟨nestedMethodsBuffer, offset, hoffset⟩ = some outerPlace := by
  have hbytes : ∀ offset ∈ [37, 38, 64, 65],
      nestedMethodsBuffer.index.byteOf offset = some offset := by decide +kernel
  rcases hat with rfl | rfl
  · rw [definitionAround, enclosing, Buffer.enclosing_succ (hbytes 37 (by simp))
      (hbytes 38 (by simp))]
    rfl
  · rw [definitionAround, enclosing, Buffer.enclosing_succ (hbytes 64 (by simp))
      (hbytes 65 (by simp))]
    rfl

theorem scope_of_definitionAround_nestedMethods :
    nestedMethodsBuffer.tree.ProperlyNested nestedMethodsBuffer.index ∧
    nestedMethodsBuffer.symbols = .ofTree nestedMethodsBuffer.index nestedMethodsBuffer.tree ∧
    behindInnerMethod.CoversAlone outerPlace ⟨"b", ⟨28, 71⟩, .classLevel⟩ ∧
    behindInnerMethod.scope = .classLevel := by
  have hnested : nestedMethodsBuffer.tree.ProperlyNested nestedMethodsBuffer.index :=
    properlyNested_nestedMethods
  have halone : behindInnerMethod.CoversAlone outerPlace ⟨"b", ⟨28, 71⟩, .classLevel⟩ := by
    intro other another hother hspan
    rcases eq_of_records_nestedMethods hother with ⟨rfl, -⟩ | ⟨-, rfl⟩
    · rfl
    · contradiction
  have hlonger : ∀ other another, behindInnerMethod.BeginsAt other another →
      (Span.mk 28 71).length ≤ another.span.length := by
    intro other another hbegins
    have hstarts := hbegins.starts
    rcases eq_of_records_nestedMethods hbegins.recorded with ⟨-, rfl⟩ | ⟨-, rfl⟩ <;>
      contradiction
  have hsymbols : nestedMethodsBuffer.symbols =
      .ofTree nestedMethodsBuffer.index nestedMethodsBuffer.tree := rfl
  have haround := definitionAround_eq_outerPlace behindInnerMethod.offset_le (.inr rfl)
  obtain ⟨-, -, hmethod⟩ := @scope_of_definitionAround behindInnerMethod hnested hsymbols
  obtain ⟨hscope, -⟩ := hmethod outerPlace _ haround records_outerPlace
  exact ⟨hnested, hsymbols, halone, hscope halone hlonger⟩

/-- The scope is not always that of the method around the cursor. Right before the method
inside it is that of the inner one. -/
theorem not_forall_scope_eq :
    ¬ ∀ cursor : Cursor, cursor.buffer.tree.ProperlyNested cursor.buffer.index →
      cursor.buffer.symbols = .ofTree cursor.buffer.index cursor.buffer.tree →
      ∀ place method, cursor.definitionAround = some place → cursor.Records place method →
        cursor.scope = method.scope := by
  intro hall
  have hnested : nestedMethodsBuffer.tree.ProperlyNested nestedMethodsBuffer.index :=
    properlyNested_nestedMethods
  have haround := definitionAround_eq_outerPlace beforeInnerMethod.offset_le (.inl rfl)
  have hscope : beforeInnerMethod.scope = .classLevel :=
    hall beforeInnerMethod hnested rfl outerPlace _ haround records_outerPlace
  have hactual : beforeInnerMethod.scope = .instanceLevel := by decide +kernel
  exact absurd (hactual.symm.trans hscope) (by decide)

end Caret.Cursor
