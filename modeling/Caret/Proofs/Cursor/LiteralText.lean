import Caret.Cursor.Surroundings
import Caret.Proofs.Buffer.Edges
import Mathlib.Data.List.TakeWhile

/-! # Cursors in the text of a literal

The nodes around a cursor are followed from the innermost named one outwards as long as they
are text. The cursor is in a string if one of these has it strictly inside, which is then also
true of the outermost. An element of a symbol array is no text, other than one of a string
array. So what stands around the element is not reached, and right behind its last character
the cursor is in code.
-/

namespace Caret.Cursor

open Text Syntax

/-- Whether a node is text for a cursor: its content is, or it is an interpolation that the
cursor only touches. -/
def IsText (cursor : Cursor) (place : Place) : Prop :=
  isLiteralText place.tree.kind ∨ cursor.isOutsideInterpolation place.tree

instance (cursor : Cursor) (place : Place) : Decidable (cursor.IsText place) :=
  inferInstanceAs (Decidable (_ ∨ _))

/-- Whether a cursor stands strictly inside a node. -/
def StandsIn (cursor : Cursor) (place : Place) : Prop :=
  (place.tree.charSpan cursor.buffer.index).start < cursor.offset ∧
    cursor.offset < (place.tree.charSpan cursor.buffer.index).stop

instance (cursor : Cursor) (place : Place) : Decidable (cursor.StandsIn place) :=
  inferInstanceAs (Decidable (_ ∧ _))

/-- The nodes around a cursor from the innermost named one on. -/
def namedAround (cursor : Cursor) : List Place :=
  cursor.enclosing.dropWhile (!·.tree.named)

/-- The nodes of text around a cursor, up to the first node that is none. -/
def textAround (cursor : Cursor) : List Place :=
  cursor.namedAround.takeWhile (cursor.IsText ·)

/-- A literal with a cursor inside it, and the nodes on the way from the cursor out to it. What
is named among these is text or an element of a symbol array. -/
structure InLiteral (cursor : Cursor) (inner : List Place) (literal : Place) : Prop where
  way : inner ++ [literal] <+: cursor.enclosing
  named : literal.tree.named
  kind : isLiteralText literal.tree.kind
  inside : cursor.StandsIn literal
  text : ∀ place ∈ inner, place.tree.named →
    cursor.IsText place ∨ place.tree.kind = "bare_symbol"

variable {cursor : Cursor} {place : Place}

theorem literalAround_eq (cursor : Cursor) : cursor.literalAround =
    (cursor.textAround.getLast?.filter (cursor.StandsIn ·)).map (·.tree) := by
  have htext : (fun tree => isLiteralText tree.kind || cursor.isOutsideInterpolation tree) ∘
      Place.tree = fun place => decide (cursor.IsText place) := by
    funext place
    rw [Bool.eq_iff_iff, decide_eq_true_eq, Function.comp_apply, Bool.or_eq_true]
    rfl
  have hinside : (fun tree : Tree => decide ((tree.charSpan cursor.buffer.index).start <
        cursor.offset) && decide (cursor.offset < (tree.charSpan cursor.buffer.index).stop)) ∘
      Place.tree = fun place => decide (cursor.StandsIn place) := by
    funext place
    rw [Bool.eq_iff_iff, decide_eq_true_eq, Function.comp_apply, Bool.and_eq_true,
      decide_eq_true_eq, decide_eq_true_eq]
    rfl
  rw [literalAround, List.dropWhile_map, List.takeWhile_map, List.getLast?_map, Option.filter_map,
    htext, hinside]
  rfl

theorem isText_of_mem_textAround (hplace : place ∈ cursor.textAround) : cursor.IsText place := by
  have htext := List.mem_takeWhile_imp hplace
  exact of_decide_eq_true htext

theorem exists_literalAround (hstring : cursor.isString) : ∃ place ∈ cursor.textAround,
    cursor.literalAround = some place.tree ∧ cursor.StandsIn place := by
  obtain ⟨literal, hliteral⟩ := Option.isSome_iff_exists.mp hstring
  rw [literalAround_eq] at hliteral
  obtain ⟨place, hlast, rfl⟩ := Option.map_eq_some_iff.mp hliteral
  obtain ⟨hlast, hinside⟩ := Option.filter_eq_some_iff.mp hlast
  exact ⟨place, List.mem_of_getLast? hlast, by rw [literalAround_eq, hliteral],
    of_decide_eq_true hinside⟩

/-- An element of a symbol array is no text. -/
theorem not_isText_of_kind (hkind : place.tree.kind = "bare_symbol") : ¬cursor.IsText place := by
  rintro (hliteral | houtside)
  · rw [hkind] at hliteral
    exact absurd hliteral (by decide)
  · rw [isOutsideInterpolation, hkind, decide_eq_false (by decide), Bool.false_and] at houtside
    contradiction

theorem textAround_prefix (cursor : Cursor) : cursor.textAround <+: cursor.namedAround :=
  List.takeWhile_prefix _

theorem namedAround_suffix (cursor : Cursor) : cursor.namedAround <:+ cursor.enclosing :=
  List.dropWhile_suffix _

theorem mem_enclosing_of_mem_textAround (hplace : place ∈ cursor.textAround) :
    place ∈ cursor.enclosing :=
  cursor.namedAround_suffix.subset (cursor.textAround_prefix.subset hplace)

/-- The nodes around a cursor are listed from the inside out. -/
theorem enclosing_pairwise (cursor : Cursor) :
    cursor.enclosing.Pairwise fun inner outer => outer ∈ inner.upward := by
  obtain ⟨innermost, -, hupward, -⟩ := Buffer.enclosing_eq_upward cursor.offset_le
  rw [enclosing, hupward]
  exact innermost.upward_pairwise

theorem textAround_pairwise (cursor : Cursor) :
    cursor.textAround.Pairwise fun inner outer => outer ∈ inner.upward :=
  cursor.enclosing_pairwise.sublist
    (cursor.textAround_prefix.sublist.trans cursor.namedAround_suffix.sublist)

/-- A node belongs to the text around a cursor if the way to it leads through text only. -/
theorem mem_textAround_iff : place ∈ cursor.textAround ↔
    ∃ inner, inner ++ [place] <+: cursor.namedAround ∧
      ∀ node ∈ inner ++ [place], cursor.IsText node := by
  constructor
  · intro hplace
    obtain ⟨inner, rest, hsplit⟩ := List.append_of_mem hplace
    have hway : inner ++ [place] <+: cursor.textAround := by
      exact ⟨rest, by rw [hsplit, List.append_assoc, List.singleton_append]⟩
    exact ⟨inner, hway.trans cursor.textAround_prefix,
      fun node hnode => isText_of_mem_textAround (hway.subset hnode)⟩
  · rintro ⟨inner, ⟨rest, hsplit⟩, htext⟩
    rw [textAround, ← hsplit,
      List.takeWhile_append_of_pos fun node hnode => decide_eq_true (htext node hnode)]
    simp

/-- A node around a cursor that is named is reached. -/
theorem prefix_namedAround {inner : List Place} (hway : inner ++ [place] <+: cursor.enclosing)
    (hnamed : place.tree.named) :
    inner.dropWhile (!·.tree.named) ++ [place] <+: cursor.namedAround := by
  obtain ⟨rest, hsplit⟩ := hway
  refine ⟨rest, ?_⟩
  rw [namedAround, ← hsplit, List.append_assoc, List.append_assoc, List.dropWhile_append]
  split
  next hempty =>
    rw [List.isEmpty_iff.mp hempty, List.singleton_append,
      List.dropWhile_cons_of_neg (by simp [hnamed])]
    rfl
  next => rfl

/-- Where only named nodes have parts, all nodes from the innermost named one on are named. -/
theorem named_of_mem_namedAround
    (hparts : ∀ node ∈ cursor.buffer.tree.preorder, node.children ≠ [] → node.named)
    (hplace : place ∈ cursor.namedAround) : place.tree.named := by
  obtain ⟨innermost, -, hupward, hwithin⟩ := Buffer.enclosing_eq_upward cursor.offset_le
  have hancestors : ∀ outer ∈ innermost.ancestors, outer.tree.named := fun outer houter =>
    hparts _ (hwithin.of_mem_upward (Place.mem_upward_of_mem_ancestors houter)).tree_mem_preorder
      (hwithin.children_ne_nil houter)
  rw [namedAround, enclosing, hupward, Place.upward_eq_cons] at hplace
  by_cases hnamed : innermost.tree.named
  · rw [List.dropWhile_cons_of_neg (by simp [hnamed])] at hplace
    rcases List.mem_cons.mp hplace with rfl | houter
    · exact hnamed
    · exact hancestors place houter
  · rw [List.dropWhile_cons_of_pos (by simp [hnamed])] at hplace
    exact hancestors place ((List.dropWhile_suffix _).subset hplace)

section Nested

variable (hnested : cursor.buffer.tree.ProperlyNested cursor.buffer.index)
include hnested

/-- A cursor inside a node is inside all nodes around it. -/
theorem StandsIn.of_mem_upward {outer : Place} (hplace : place ∈ cursor.enclosing)
    (houter : outer ∈ place.upward) (hinside : cursor.StandsIn place) : cursor.StandsIn outer := by
  have hwithin := Buffer.within_of_mem_enclosing hplace
  rw [StandsIn, cursor.buffer.index_eq] at hinside ⊢
  rw [cursor.buffer.index_eq] at hnested
  obtain ⟨hstart, hstop⟩ := hnested.charSpan_mono hwithin houter
  exact ⟨Nat.lt_of_le_of_lt hstart hinside.1, Nat.lt_of_lt_of_le hinside.2 hstop⟩

/-- A cursor is in a string if it is strictly inside some node of the text around it. -/
theorem isString_iff_exists :
    cursor.isString ↔ ∃ place ∈ cursor.textAround, cursor.StandsIn place := by
  constructor
  · intro hstring
    obtain ⟨place, hplace, -, hinside⟩ := exists_literalAround hstring
    exact ⟨place, hplace, hinside⟩
  · rintro ⟨place, hplace, hinside⟩
    obtain ⟨init, last, hconcat⟩ := (List.eq_nil_or_concat cursor.textAround).resolve_left
      (List.ne_nil_of_mem hplace)
    rw [List.concat_eq_append] at hconcat
    have houter : last ∈ place.upward := by
      have hpairwise := cursor.textAround_pairwise
      rw [hconcat, List.pairwise_append] at hpairwise
      rw [hconcat, List.mem_append] at hplace
      rcases hplace with hinit | hlast
      · exact hpairwise.2.2 place hinit last (List.mem_singleton_self last)
      · exact List.mem_singleton.mp hlast ▸ place.mem_upward_self
    have hlast := hinside.of_mem_upward hnested (mem_enclosing_of_mem_textAround hplace) houter
    rw [isString, literalAround_eq, Option.isSome_map]
    simp [hconcat, hlast]

/-- A cursor is in a string if it is strictly inside some node that only text leads to. -/
theorem isString_iff_way : cursor.isString ↔
    ∃ inner literal, inner ++ [literal] <+: cursor.namedAround ∧
      (∀ place ∈ inner ++ [literal], cursor.IsText place) ∧ cursor.StandsIn literal := by
  rw [isString_iff_exists hnested]
  constructor
  · rintro ⟨literal, hmem, hinside⟩
    obtain ⟨inner, hway, htext⟩ := mem_textAround_iff.mp hmem
    exact ⟨inner, literal, hway, htext, hinside⟩
  · rintro ⟨inner, literal, hway, htext, hinside⟩
    exact ⟨literal, mem_textAround_iff.mpr ⟨inner, hway, htext⟩, hinside⟩

/-- A cursor inside a node on the way to a literal is inside all nodes behind it. -/
theorem InLiteral.standsIn {below above : List Place} {element literal node : Place}
    (hliteral : cursor.InLiteral (below ++ element :: above) literal) (hbelow : node ∈ below)
    (hinside : cursor.StandsIn node) : cursor.StandsIn element := by
  have hway := hliteral.way
  have hordered := cursor.enclosing_pairwise.sublist
    ((List.prefix_append _ _).trans hway).sublist
  refine hinside.of_mem_upward hnested (hway.subset (by simp [hbelow])) ?_
  exact (List.pairwise_append.mp hordered).2.2 node hbelow element List.mem_cons_self

section Tokens

variable (hparts : ∀ node ∈ cursor.buffer.tree.preorder, node.children ≠ [] → node.named)
include hparts

/-- A cursor is in a string if it is strictly inside a named node around it and the named nodes
up to that one are text. -/
theorem isString_of_way {inner : List Place} {literal : Place}
    (hway : inner ++ [literal] <+: cursor.enclosing) (hnamed : literal.tree.named)
    (htext : ∀ place ∈ inner ++ [literal], place.tree.named → cursor.IsText place)
    (hinside : cursor.StandsIn literal) : cursor.isString := by
  have hreached := prefix_namedAround hway hnamed
  refine (isString_iff_way hnested).mpr ⟨_, literal, hreached, fun place hplace => ?_, hinside⟩
  refine htext place ?_ (named_of_mem_namedAround hparts (hreached.subset hplace))
  exact List.mem_append.mpr
    ((List.mem_append.mp hplace).imp_left fun hinner => (List.dropWhile_suffix _).subset hinner)

/-- A cursor in a literal is in a string if no element of a symbol array is on the way. -/
theorem InLiteral.isString {inner : List Place} {literal : Place}
    (hliteral : cursor.InLiteral inner literal)
    (hnone : ∀ place ∈ inner, place.tree.named → place.tree.kind ≠ "bare_symbol") :
    cursor.isString := by
  refine isString_of_way hnested hparts hliteral.way hliteral.named (fun place hplace hnamed => ?_)
    hliteral.inside
  rcases List.mem_append.mp hplace with hinner | hlast
  · exact (hliteral.text place hinner hnamed).resolve_right (hnone place hinner hnamed)
  · exact .inl (List.mem_singleton.mp hlast ▸ hliteral.kind)

/-- A cursor in an element of a symbol array is in a string only if it is strictly inside a
named node of this element. -/
theorem InLiteral.isString_iff {below above : List Place} {element literal : Place}
    (hliteral : cursor.InLiteral (below ++ element :: above) literal)
    (hnamed : element.tree.named) (hkind : element.tree.kind = "bare_symbol")
    (hnone : ∀ place ∈ below, place.tree.named → place.tree.kind ≠ "bare_symbol") :
    cursor.isString ↔ ∃ place ∈ below, place.tree.named ∧ cursor.StandsIn place := by
  have hway : below ++ [element] <+: cursor.enclosing := by
    obtain ⟨rest, hrest⟩ := hliteral.way
    exact ⟨above ++ literal :: rest, by rw [← hrest]; simp⟩
  constructor
  · intro hstring
    obtain ⟨inner, node, hreached, htext, hinside⟩ := (isString_iff_way hnested).mp hstring
    have helement := prefix_namedAround hway hnamed
    have hnode : node ∈ inner ++ [node] := List.mem_append_right _ (List.mem_singleton_self node)
    refine ⟨node, ?_, named_of_mem_namedAround hparts (hreached.subset hnode), hinside⟩
    -- the element ends the text, so it is behind the node
    have hend : ¬cursor.IsText element := not_isText_of_kind hkind
    rcases List.prefix_or_prefix_of_prefix hreached helement with hbefore | hbehind
    · rcases List.mem_append.mp (hbefore.subset hnode) with hbelow | hlast
      · exact (List.dropWhile_suffix _).subset hbelow
      · exact absurd (List.mem_singleton.mp hlast ▸ htext node hnode) hend
    · exact absurd (htext element (hbehind.subset
        (List.mem_append_right _ (List.mem_singleton_self element)))) hend
  · rintro ⟨node, hbelow, hnode, hinside⟩
    obtain ⟨inner, rest, hsplit⟩ := List.append_of_mem hbelow
    have hfront : inner ++ [node] <+: below := ⟨rest, by rw [hsplit]; simp⟩
    refine isString_of_way hnested hparts
      (hfront.trans ((List.prefix_append below [element]).trans hway)) hnode
      (fun place hplace hplaceNamed => ?_) hinside
    have hmem := hfront.subset hplace
    exact (hliteral.text place (List.mem_append_left _ hmem) hplaceNamed).resolve_right
      (hnone place hmem hplaceNamed)

end Tokens

/-- A cursor is in a string if it is strictly inside some node and what is named up to there is
text. In a literal this means: on the way to it no element of a symbol array stands, or within
the innermost such element the cursor is strictly inside a named node. Behind the last character
of an element it never is. -/
theorem isString_iff_text :
    (cursor.isString ↔ ∃ inner literal, inner ++ [literal] <+: cursor.namedAround ∧
      (∀ place ∈ inner ++ [literal], cursor.IsText place) ∧ cursor.StandsIn literal) ∧
    ((∀ node ∈ cursor.buffer.tree.preorder, node.children ≠ [] → node.named) →
      ∀ inner literal, cursor.InLiteral inner literal →
        ((∀ place ∈ inner, place.tree.named → place.tree.kind ≠ "bare_symbol") →
          cursor.isString) ∧
        ∀ below element above, inner = below ++ element :: above →
          element.tree.named → element.tree.kind = "bare_symbol" →
          (∀ place ∈ below, place.tree.named → place.tree.kind ≠ "bare_symbol") →
          (cursor.isString ↔ ∃ place ∈ below, place.tree.named ∧ cursor.StandsIn place) ∧
          (cursor.isString → cursor.StandsIn element)) := by
  refine ⟨isString_iff_way hnested, fun hparts inner literal hliteral =>
    ⟨hliteral.isString hnested hparts, ?_⟩⟩
  rintro below element above rfl hnamed hkind hnone
  have hiff := hliteral.isString_iff hnested hparts hnamed hkind hnone
  refine ⟨hiff, fun hstring => ?_⟩
  obtain ⟨node, hbelow, -, hinside⟩ := hiff.mp hstring
  exact hliteral.standsIn hnested hbelow hinside

end Nested

/-- The symbol array of `%i[a b].map`. -/
def symbolArray : Tree :=
  .node ⟨"symbol_array", true, ⟨0, 7⟩, some "receiver"⟩
    [.node ⟨"%i(", false, ⟨0, 3⟩, none⟩ [],
      .node ⟨"bare_symbol", true, ⟨3, 4⟩, none⟩
        [.node ⟨"string_content", true, ⟨3, 4⟩, none⟩ []],
      .node ⟨"bare_symbol", true, ⟨5, 6⟩, none⟩
        [.node ⟨"string_content", true, ⟨5, 6⟩, none⟩ []],
      .node ⟨")", false, ⟨6, 7⟩, none⟩ []]

def mapCall : Tree :=
  .node ⟨"call", true, ⟨0, 11⟩, none⟩
    [symbolArray, .node ⟨".", false, ⟨7, 8⟩, some "operator"⟩ [],
      .node ⟨"identifier", true, ⟨8, 11⟩, some "method"⟩ []]

def symbolsTree : Tree :=
  .node ⟨"program", true, ⟨0, 11⟩, none⟩ [mapCall]

def symbolsBuffer : Buffer :=
  .ofParsed "%i[a b].map" ⟨symbolsTree, false⟩

/-- Before the first element. -/
def beforeElement : Cursor where
  buffer := symbolsBuffer
  offset := 3
  offset_le := by decide +kernel

/-- Behind the first element. -/
def behindElement : Cursor where
  buffer := symbolsBuffer
  offset := 4
  offset_le := by decide +kernel

def symbolArrayPlace : Place :=
  ⟨symbolArray, [(mapCall, 0), (symbolsTree, 0)]⟩

def openerPlace : Place :=
  ⟨.node ⟨"%i(", false, ⟨0, 3⟩, none⟩ [], (symbolArray, 0) :: symbolArrayPlace.above⟩

def elementPlace : Place :=
  ⟨.node ⟨"bare_symbol", true, ⟨3, 4⟩, none⟩ [.node ⟨"string_content", true, ⟨3, 4⟩, none⟩ []],
    (symbolArray, 1) :: symbolArrayPlace.above⟩

def contentPlace : Place :=
  ⟨.node ⟨"string_content", true, ⟨3, 4⟩, none⟩ [], (elementPlace.tree, 0) :: elementPlace.above⟩

theorem properlyNested_symbolsTree :
    symbolsBuffer.tree.ProperlyNested symbolsBuffer.index := by
  decide +kernel

theorem enclosing_around_element :
    beforeElement.enclosing = openerPlace :: symbolArrayPlace.upward ∧
      behindElement.enclosing = contentPlace :: elementPlace :: symbolArrayPlace.upward := by
  have hbytes : ∀ offset ∈ [2, 3, 4], symbolsBuffer.index.byteOf offset = some offset := by
    decide +kernel
  constructor
  · exact (Buffer.enclosing_succ (hbytes 2 (by simp)) (hbytes 3 (by simp))).trans rfl
  · exact (Buffer.enclosing_succ (hbytes 3 (by simp)) (hbytes 4 (by simp))).trans rfl

theorem inLiteral_beforeElement : beforeElement.InLiteral [openerPlace] symbolArrayPlace := by
  refine ⟨?_, rfl, rfl, by decide +kernel, by decide +kernel⟩
  rw [enclosing_around_element.1]
  exact ⟨_, rfl⟩

theorem inLiteral_behindElement :
    behindElement.InLiteral [contentPlace, elementPlace] symbolArrayPlace := by
  refine ⟨?_, rfl, rfl, by decide +kernel, by decide +kernel⟩
  rw [enclosing_around_element.2]
  exact ⟨_, rfl⟩

theorem isString_iff_text_around_element :
    symbolsBuffer.tree.ProperlyNested symbolsBuffer.index ∧
    (∀ node ∈ symbolsBuffer.tree.preorder, node.children ≠ [] → node.named) ∧
    beforeElement.InLiteral [openerPlace] symbolArrayPlace ∧ beforeElement.isString ∧
    behindElement.InLiteral [contentPlace, elementPlace] symbolArrayPlace ∧
    ¬behindElement.isString := by
  have hparts : ∀ node ∈ symbolsBuffer.tree.preorder, node.children ≠ [] → node.named := by
    decide +kernel
  obtain ⟨-, hbefore⟩ := @isString_iff_text beforeElement properlyNested_symbolsTree
  obtain ⟨-, hbehind⟩ := @isString_iff_text behindElement properlyNested_symbolsTree
  obtain ⟨hstring, -⟩ := hbefore hparts _ _ inLiteral_beforeElement
  obtain ⟨-, helement⟩ := hbehind hparts _ _ inLiteral_behindElement
  obtain ⟨-, hinside⟩ := helement [contentPlace] elementPlace [] rfl rfl rfl (by decide +kernel)
  refine ⟨properlyNested_symbolsTree, hparts, inLiteral_beforeElement, hstring (by decide +kernel),
    inLiteral_behindElement, fun hbehindString => ?_⟩
  exact absurd (hinside hbehindString) (by decide +kernel)

/-- The text of a literal is not always a string. Behind an element of a symbol array the
cursor is in code. -/
theorem not_forall_isString : ¬ ∀ (cursor : Cursor) (inner : List Place) (literal : Place),
    cursor.buffer.tree.ProperlyNested cursor.buffer.index → cursor.InLiteral inner literal →
    cursor.isString := by
  intro hall
  have hstring := hall _ _ _ properlyNested_symbolsTree inLiteral_behindElement
  have hactual : behindElement.isString = false := by decide +kernel
  rw [hactual] at hstring
  contradiction

end Caret.Cursor
