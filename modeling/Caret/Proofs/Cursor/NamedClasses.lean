import Caret.Proofs.Buffer.Comments
import Caret.Proofs.Chain.Provenance
import Caret.Proofs.Cursor.Literals
import Caret.Proofs.Text.Runs

/-! # Classes that are named for the text

A subscript at the front of a signature is taken for an array, and a first segment of digits
for an integer. Both are told by the text alone. A bracket may just as well belong to a
subscript of something that is no name, and digits may be the beginning of a longer literal.
-/

namespace Caret.Cursor

open Text Syntax Chain

/-- A subscript at the front is replaced by an array. -/
def NamesArray (cursor : Cursor) : Prop :=
  ∃ rest, cursor.scan.chars = '.' :: '[' :: ']' :: rest ∧
    cursor.calculatedSignature = "Array.new" ++ String.ofList rest

/-- A first segment of digits is replaced by an integer. -/
def NamesInteger (cursor : Cursor) : Prop :=
  ∃ digits rest, digits ≠ [] ∧ (∀ c ∈ digits, c.isDigit) ∧ (∀ c ∈ rest.head?, c = '.') ∧
    cursor.scan.chars = digits ++ rest ∧
    cursor.calculatedSignature = "Integer.new" ++ String.ofList rest

/-- A literal of a class starts at an offset. -/
def LiteralStarts (cursor : Cursor) (offset : Nat) (name : String) : Prop :=
  ∃ place, Place.Within cursor.buffer.tree place ∧ literalClass? place.tree.kind = some name ∧
    (place.tree.charSpan cursor.buffer.index).start = offset

instance (cursor : Cursor) (offset : Nat) (name : String) :
    Decidable (cursor.LiteralStarts offset name) :=
  decidable_of_iff (∃ place ∈ cursor.buffer.tree.places,
      literalClass? place.tree.kind = some name ∧
        (place.tree.charSpan cursor.buffer.index).start = offset)
    (exists_congr fun _ => and_congr_left' Tree.mem_places)

/-- A literal of digits only is an integer. This is a rule of the language and not of the
shape of trees. -/
def DigitsAreIntegers (cursor : Cursor) : Prop :=
  ∀ place name, Place.Within cursor.buffer.tree place →
    literalClass? place.tree.kind = some name →
    (place.tree.charSpan cursor.buffer.index).start <
      (place.tree.charSpan cursor.buffer.index).stop →
    (∀ index, (place.tree.charSpan cursor.buffer.index).contains index →
      (cursor.charAt index).any Char.isDigit) → name = "Integer"

variable {cursor : Cursor}

/-- Left of a character at the front, or of a bracket, a scan gathers nothing and ends where
the signature starts. -/
theorem scan_eq_of_quiet (hordered : cursor.buffer.code.OrderedComments) {place : Nat} {c : Char}
    {signature : Signature} (hlt : place < cursor.offset)
    (hc : cursor.buffer.code.chars[place]? = some c) (hblank : isBlank c = false)
    (hnone : cursor.buffer.code.commentHolding place = none)
    (hquiet : cursor.buffer.code.Quiet place signature.start)
    (hscan : cursor.scan = { signature with start := min signature.start cursor.offset }) :
    cursor.buffer.code.scan place .normal = ⟨none, [], cursor.signatureStart⟩ := by
  have hsignificant : cursor.buffer.code.Significant place := ⟨by simp [hc, hblank], hnone⟩
  obtain ⟨heq, hle⟩ := hquiet.scan_eq hordered (Nat.lt_of_lt_of_le hlt cursor.offset_le)
    hsignificant
  have hstart : cursor.signatureStart = signature.start := by
    rw [signatureStart, hscan]
    exact Nat.min_eq_left (Nat.le_trans hle (Nat.le_of_lt hlt))
  rw [heq, hstart]

/-- An array that is named stands for a bracket with nothing gathered left of it. -/
theorem NamesArray.exists_bracket (hordered : cursor.buffer.code.OrderedComments)
    (harray : cursor.NamesArray) :
    ∃ bracket < cursor.offset, cursor.charAt bracket = some '[' ∧
      cursor.buffer.code.scan bracket .normal = ⟨none, [], cursor.signatureStart⟩ := by
  obtain ⟨rest, hchars, -⟩ := harray
  obtain ⟨signature, hfront, hsame, hscan⟩ := exists_front hchars
  cases hfront with
  | sigil hhead hsigil =>
      obtain ⟨rfl, -⟩ := List.cons.inj (hsame.symm.trans hhead)
      rcases hsigil with hdollar | hat <;> contradiction
  | subscript hhead hlt hc hnone hquiet =>
      exact ⟨_, hlt, hc, scan_eq_of_quiet hordered hlt hc (by decide) hnone hquiet hscan⟩
  | copied hhead hchar htail =>
      obtain ⟨-, rfl⟩ := List.cons.inj (hsame.symm.trans hhead)
      exact absurd rfl htail

/-- A name that stands at the front of some digits and what follows the first dot consists
of digits. -/
theorem forall_isDigit_of_prefix {digits rest name : List Char} (hdigits : ∀ c ∈ digits, c.isDigit)
    (hrest : ∀ c ∈ rest.head?, c = '.') (hbegins : name <+: digits ++ rest)
    (hword : ∀ c ∈ name, isWordChar c) : ∀ c ∈ name, c.isDigit := by
  rcases List.prefix_or_prefix_of_prefix hbegins (List.prefix_append digits rest) with
    hwithin | ⟨more, rfl⟩
  · exact fun c hc => hdigits c (hwithin.subset hc)
  · have hmore := (List.prefix_append_right_inj digits).mp hbegins
    -- The first character behind the digits is a dot, so the name does not reach it.
    cases more with
    | nil => simpa using hdigits
    | cons d tail =>
        obtain ⟨after, rfl⟩ := hmore
        obtain rfl := hrest d rfl
        exact absurd (hword '.' (by simp)) (by decide)

/-- An integer that is named stands for digits with nothing gathered left of them. The name
characters that follow the first one belong to the number. -/
theorem NamesInteger.exists_first (hordered : cursor.buffer.code.OrderedComments)
    (hinteger : cursor.NamesInteger) :
    ∃ first < cursor.offset, cursor.scan.anchor = some first ∧
      (cursor.charAt first).any Char.isDigit ∧
      cursor.buffer.code.scan first .normal = ⟨none, [], cursor.signatureStart⟩ ∧
      ∀ stop ≤ cursor.offset, cursor.buffer.code.IsRun ⟨first, stop⟩ →
        ∀ c ∈ cursor.buffer.code.between ⟨first, stop⟩, c.isDigit := by
  obtain ⟨digits, rest, hne, hdigits, hrest, hchars, -⟩ := hinteger
  obtain ⟨d, more, rfl⟩ := List.exists_cons_of_ne_nil hne
  have hdigit : d.isDigit := hdigits d List.mem_cons_self
  rw [List.cons_append] at hchars
  obtain ⟨signature, hfront, hsame, hscan⟩ := exists_front hchars
  cases hfront with
  | sigil hhead hsigil =>
      obtain ⟨rfl, -⟩ := List.cons.inj (hsame.symm.trans hhead)
      rcases hsigil with rfl | rfl <;> contradiction
  | subscript hhead =>
      obtain ⟨rfl, -⟩ := List.cons.inj (hsame.symm.trans hhead)
      contradiction
  | copied hhead hchar _ hanchor hlt hc hnone hquiet hname =>
      rw [hsame] at hname
      obtain ⟨rfl, -⟩ := List.cons.inj (hsame.symm.trans hhead)
      refine ⟨_, hlt, by rw [hscan]; exact hanchor, ?_, ?_, fun stop hstop hrun => ?_⟩
      · rw [show cursor.charAt _ = some d from hc]
        exact hdigit
      · exact scan_eq_of_quiet hordered hlt hc (not_isBlank_of_isSignatureChar hchar) hnone hquiet
          hscan
      · exact forall_isDigit_of_prefix hdigits hrest (hname stop hstop hrun) fun _ =>
          hrun.isWordChar_of_mem

/-- A literal of another class than an integer begins left of the digits or reaches beyond
them. -/
theorem start_lt_or_runEnd_lt (hdigits : cursor.DigitsAreIntegers) {first : Nat} {place : Place}
    {name : String} (hplace : Place.Within cursor.buffer.tree place)
    (hname : literalClass? place.tree.kind = some name) (hother : name ≠ "Integer")
    (hlength : (place.tree.charSpan cursor.buffer.index).start <
      (place.tree.charSpan cursor.buffer.index).stop) :
    (place.tree.charSpan cursor.buffer.index).start < first ∨
      runEnd Char.isDigit cursor.buffer.index.chars first <
        (place.tree.charSpan cursor.buffer.index).stop := by
  by_contra hno
  rw [not_or, Nat.not_lt, Nat.not_lt] at hno
  obtain ⟨hfrom, hto⟩ := hno
  refine hother (hdigits place name hplace hname hlength fun index hholds => ?_)
  obtain ⟨hleft, hright⟩ := Span.contains_iff.mp hholds
  exact class_of_lt_runEnd (Nat.le_trans hfrom hleft) (Nat.lt_of_lt_of_le hright hto)

section Nested

variable (hnested : cursor.buffer.tree.ProperlyNested cursor.buffer.index)
include hnested

/-- No literal starts at a token whose parent starts farther left. -/
theorem start_lt_of_parent_start_lt {token parent place : Place} {offset : Nat}
    (htoken : Place.Within cursor.buffer.tree token) (hchildless : token.tree.children = [])
    (hholds : (token.tree.charSpan cursor.buffer.index).contains offset)
    (hparent : token.parent? = some parent)
    (hstart : (parent.tree.charSpan cursor.buffer.index).start < offset)
    (hplace : Place.Within cursor.buffer.tree place) (hkind : place.tree.kind ≠ token.tree.kind)
    (hother : (place.tree.charSpan cursor.buffer.index).contains offset) :
    (place.tree.charSpan cursor.buffer.index).start < offset := by
  obtain ⟨index, above, hupward⟩ : ∃ index above, token =
      ⟨token.tree, (parent.tree, index) :: above⟩ ∧ parent = ⟨parent.tree, above⟩ := by
    obtain ⟨tree, _ | ⟨⟨outer, index⟩, above⟩⟩ := token
    · contradiction
    · obtain rfl := Option.some.inj hparent
      exact ⟨index, above, rfl, rfl⟩
  have hwithin : Place.Within cursor.buffer.tree parent := by
    refine htoken.of_mem_upward ?_
    rw [hupward.1, Place.upward_below, ← hupward.2]
    exact List.mem_cons_of_mem _ parent.mem_upward_self
  -- Of two nodes that hold an offset one lies above the other, and a token has nothing below.
  rcases Buffer.upward_total_of_contains hnested hplace htoken hother hholds with
    haround | hinside
  · rw [hupward.1, Place.upward_below, ← hupward.2] at haround
    rcases List.mem_cons.mp haround with rfl | haround
    · exact absurd rfl hkind
    · rw [cursor.buffer.index_eq] at hnested hstart ⊢
      exact Nat.lt_of_le_of_lt (hnested.charSpan_mono hwithin haround).1 hstart
  · rcases hplace.exists_child_of_mem_upward hinside with rfl | ⟨_, child, hchild, -⟩
    · exact absurd rfl hkind
    · rw [hchildless] at hchild
      contradiction

/-- The classes of arrays and of integers are named for the text. An array is named where
nothing is gathered left of a bracket. That bracket starts no array if it is part of a node
that starts farther left, as in a subscript. An integer is named where nothing is gathered
left of some digits, and up to the cursor no other name characters follow these. A literal of
another class that starts where the signature does begins with something that was passed over,
or it reaches beyond the digits. -/
theorem namedClass_of_text :
    (cursor.NamesArray → ∃ bracket < cursor.offset, cursor.charAt bracket = some '[' ∧
      cursor.buffer.code.scan bracket .normal = ⟨none, [], cursor.signatureStart⟩ ∧
      ∀ token parent, Place.Within cursor.buffer.tree token → token.tree.kind = "[" →
        token.tree.children = [] →
        (token.tree.charSpan cursor.buffer.index).contains bracket →
        token.parent? = some parent →
        (parent.tree.charSpan cursor.buffer.index).start < bracket →
        ∀ place, Place.Within cursor.buffer.tree place →
          literalClass? place.tree.kind = some "Array" →
          (place.tree.charSpan cursor.buffer.index).contains bracket →
          (place.tree.charSpan cursor.buffer.index).start < bracket) ∧
    (cursor.NamesInteger → ∃ first < cursor.offset, cursor.scan.anchor = some first ∧
      (cursor.charAt first).any Char.isDigit ∧
      cursor.buffer.code.scan first .normal = ⟨none, [], cursor.signatureStart⟩ ∧
      (∀ stop ≤ cursor.offset, cursor.buffer.code.IsRun ⟨first, stop⟩ →
        ∀ c ∈ cursor.buffer.code.between ⟨first, stop⟩, c.isDigit) ∧
      (cursor.DigitsAreIntegers → ∀ place name, Place.Within cursor.buffer.tree place →
        literalClass? place.tree.kind = some name → name ≠ "Integer" →
        (place.tree.charSpan cursor.buffer.index).start = cursor.signatureStart →
        (place.tree.charSpan cursor.buffer.index).start <
          (place.tree.charSpan cursor.buffer.index).stop →
        cursor.signatureStart < first ∨ runEnd Char.isDigit cursor.buffer.index.chars first <
          (place.tree.charSpan cursor.buffer.index).stop)) := by
  have hordered := Buffer.orderedComments hnested
  constructor
  · intro harray
    obtain ⟨bracket, hlt, hc, hscan⟩ := harray.exists_bracket hordered
    refine ⟨bracket, hlt, hc, hscan, ?_⟩
    intro token parent htoken hkind hchildless hholds hparent hstart place hplace hname hother
    refine start_lt_of_parent_start_lt hnested htoken hchildless hholds hparent hstart hplace ?_
      hother
    intro heq
    rw [heq, hkind] at hname
    exact absurd hname (by decide)
  · intro hinteger
    obtain ⟨first, hlt, hanchor, hdigit, hscan, hrun⟩ := hinteger.exists_first hordered
    refine ⟨first, hlt, hanchor, hdigit, hscan, hrun, ?_⟩
    intro hdigits place name hplace hname hother hstart hlength
    rw [← hstart]
    exact start_lt_or_runEnd_lt hdigits hplace hname hother hlength

end Nested

/-- The character `'a'[0]` of a string. -/
def elementTree : Tree :=
  .node ⟨"element_reference", true, ⟨0, 6⟩, some "receiver"⟩
    [.node ⟨"string", true, ⟨0, 3⟩, some "object"⟩
      [.node ⟨"\"", false, ⟨0, 1⟩, none⟩ [], .node ⟨"string_content", true, ⟨1, 2⟩, none⟩ [],
        .node ⟨"\"", false, ⟨2, 3⟩, none⟩ []],
      .node ⟨"[", false, ⟨3, 4⟩, none⟩ [], .node ⟨"integer", true, ⟨4, 5⟩, none⟩ [],
      .node ⟨"]", false, ⟨5, 6⟩, none⟩ []]

/-- A call on the character. -/
def elementCall : Tree :=
  .node ⟨"call", true, ⟨0, 8⟩, none⟩
    [elementTree, .node ⟨".", false, ⟨6, 7⟩, some "operator"⟩ [],
      .node ⟨"identifier", true, ⟨7, 8⟩, some "method"⟩ []]

def subscripted : Buffer :=
  .ofParsed "'a'[0].b" ⟨.node ⟨"program", true, ⟨0, 8⟩, none⟩ [elementCall], false⟩

/-- The bracket of the subscript. -/
def openingBracket : Place :=
  ⟨.node ⟨"[", false, ⟨3, 4⟩, none⟩ [],
    [(elementTree, 1), (elementCall, 0), (subscripted.tree, 0)]⟩

/-- A call on a float. -/
def rounded : Buffer :=
  .ofParsed "1.5.round" ⟨.node ⟨"program", true, ⟨0, 9⟩, none⟩
    [.node ⟨"call", true, ⟨0, 9⟩, none⟩
      [.node ⟨"float", true, ⟨0, 3⟩, some "receiver"⟩ [],
        .node ⟨".", false, ⟨3, 4⟩, some "operator"⟩ [],
        .node ⟨"identifier", true, ⟨4, 9⟩, some "method"⟩ []]], false⟩

/-- The cursor behind the call on the character. -/
def behindSubscript : Cursor :=
  ⟨subscripted, 8, by decide +kernel⟩

/-- The cursor within the name of the method of the float. -/
def withinRound : Cursor :=
  ⟨rounded, 6, by decide +kernel⟩

theorem namesArray_behindSubscript : behindSubscript.NamesArray :=
  ⟨['.', 'b'], by decide +kernel, by decide +kernel⟩

theorem namesInteger_withinRound : withinRound.NamesInteger :=
  ⟨['1'], ".5.ro".toList, by decide, by simp, by simp, by decide +kernel, by decide +kernel⟩

theorem digitsAreIntegers_withinRound : withinRound.DigitsAreIntegers := by
  intro place name hplace hname _ hdigits
  have hpoint : ∀ place ∈ rounded.tree.places, (literalClass? place.tree.kind).isSome →
      (place.tree.charSpan rounded.index).contains 1 := by decide +kernel
  have hholds := hpoint place (Tree.mem_places.mpr hplace) (by rw [hname]; rfl)
  exact absurd (hdigits 1 hholds) (by decide +kernel)

theorem namedClass_of_text_subscripted :
    subscripted.tree.ProperlyNested subscripted.index ∧ behindSubscript.NamesArray ∧
    (∀ place, Place.Within subscripted.tree place → literalClass? place.tree.kind = some "Array" →
      (place.tree.charSpan subscripted.index).contains 3 →
      (place.tree.charSpan subscripted.index).start < 3) ∧
    rounded.tree.ProperlyNested rounded.index ∧ withinRound.NamesInteger ∧
    withinRound.DigitsAreIntegers ∧
    (∀ place name, Place.Within rounded.tree place → literalClass? place.tree.kind = some name →
      name ≠ "Integer" →
      (place.tree.charSpan rounded.index).start = withinRound.signatureStart →
      (place.tree.charSpan rounded.index).start < (place.tree.charSpan rounded.index).stop →
      withinRound.signatureStart < 0 ∨
        runEnd Char.isDigit rounded.index.chars 0 < (place.tree.charSpan rounded.index).stop) := by
  have hnested : subscripted.tree.ProperlyNested subscripted.index := by decide +kernel
  have hrounded : rounded.tree.ProperlyNested rounded.index := by decide +kernel
  refine ⟨hnested, namesArray_behindSubscript, ?_, hrounded, namesInteger_withinRound,
    digitsAreIntegers_withinRound, ?_⟩
  · obtain ⟨bracket, hlt, hc, -, hnone⟩ :=
      (@namedClass_of_text behindSubscript hnested).1 namesArray_behindSubscript
    have hbracket : ∀ bracket < 8, behindSubscript.charAt bracket = some '[' → bracket = 3 := by
      decide +kernel
    obtain rfl := hbracket bracket hlt hc
    have htoken : Place.Within subscripted.tree openingBracket :=
      .child (.child (.child .root rfl) rfl) rfl
    exact hnone openingBracket ⟨elementTree, [(elementCall, 0), (subscripted.tree, 0)]⟩ htoken
      rfl rfl (by decide +kernel) rfl (by decide +kernel)
  · obtain ⟨first, -, hanchor, -, -, -, hreaches⟩ :=
      (@namedClass_of_text withinRound hrounded).2 namesInteger_withinRound
    have hfirst : withinRound.scan.anchor = some 0 := by decide +kernel
    obtain rfl := Option.some.inj (hfirst.symm.trans hanchor)
    exact hreaches digitsAreIntegers_withinRound

/-- The string is no array, and neither is its character. The float is no integer. -/
theorem not_forall_literalStarts :
    (¬ ∀ cursor : Cursor, cursor.buffer.tree.ProperlyNested cursor.buffer.index →
      cursor.isString = false → cursor.isComment = false → cursor.NamesArray →
      cursor.LiteralStarts cursor.signatureStart "Array") ∧
    (¬ ∀ cursor : Cursor, cursor.buffer.tree.ProperlyNested cursor.buffer.index →
      cursor.isString = false → cursor.isComment = false → cursor.NamesInteger →
      ∀ name, cursor.LiteralStarts cursor.signatureStart name → name = "Integer") := by
  constructor
  · intro hall
    have hstarts := hall behindSubscript (by decide +kernel) (by decide +kernel)
      (by decide +kernel) namesArray_behindSubscript
    have hnone : ¬ behindSubscript.LiteralStarts behindSubscript.signatureStart "Array" := by
      decide +kernel
    exact hnone hstarts
  · intro hall
    have hfloat : withinRound.LiteralStarts withinRound.signatureStart "Float" := by
      decide +kernel
    exact absurd (hall withinRound (by decide +kernel) (by decide +kernel) (by decide +kernel)
      namesInteger_withinRound "Float" hfloat) (by decide)

end Caret.Cursor
