import Caret.Chain.Depth

/-! # Balanced brackets

A backward walk that crosses text with balanced brackets comes back to the depth it
had, as long as the text is too short for a counter to reach its limit.
-/

namespace Caret.Chain

/-- The kinds of brackets. -/
inductive Bracket where
  | round
  | square
  | curly
deriving DecidableEq, Repr

namespace Bracket

def opener : Bracket → Char
  | round => '('
  | square => '['
  | curly => '\x7b'

def closer : Bracket → Char
  | round => ')'
  | square => ']'
  | curly => '\x7d'

/-- What a bracket pair outside all others adds to a signature. -/
def mark : Bracket → List Char
  | square => ['.', '[', ']']
  | _ => []

end Bracket

/-- A character that is no bracket. -/
def IsPlain (c : Char) : Prop :=
  ∀ bracket : Bracket, c ≠ bracket.opener ∧ c ≠ bracket.closer

instance (c : Char) : Decidable (IsPlain c) :=
  decidable_of_iff (∀ bracket ∈ [Bracket.round, .square, .curly],
      c ≠ bracket.opener ∧ c ≠ bracket.closer)
    ⟨fun h bracket => h bracket (by cases bracket <;> decide), fun h bracket _ => h bracket⟩

/-- Text in which the brackets of all three kinds are balanced and nested. -/
inductive Nested : List Char → Prop
  | nil : Nested []
  | plain {c : Char} {rest : List Char} (hplain : IsPlain c) (hrest : Nested rest) :
      Nested (c :: rest)
  | pair (bracket : Bracket) {inner rest : List Char} (hinner : Nested inner)
      (hrest : Nested rest) :
      Nested (bracket.opener :: (inner ++ bracket.closer :: rest))

/-- A bracket pair with the text inside it. -/
structure Group where
  bracket : Bracket
  inner : List Char
  nested : Nested inner

def Group.text (group : Group) : List Char :=
  group.bracket.opener :: (group.inner ++ [group.bracket.closer])

namespace Depth

/-- Whether all counters are at least `steps` away from their lower limit. -/
def HasRoom (depth : Depth) (steps : Nat) : Prop :=
  -0x80000000 + (steps : Int) ≤ depth.braces ∧ -0x80000000 + (steps : Int) ≤ depth.parens ∧
    -0x80000000 + (steps : Int) ≤ depth.squares

variable {depth : Depth} {steps fewer : Nat}

theorem isZero_iff : depth.isZero ↔ depth = .zero := by
  obtain ⟨braces, parens, squares⟩ := depth
  simp [isZero, zero, and_assoc]

theorem leftBracket_eq_false_iff :
    depth.leftBracket = false ↔ depth.braces ≤ 0 ∧ depth.parens ≤ 0 ∧ depth.squares ≤ 0 := by
  simp [leftBracket, and_assoc]

theorem HasRoom.mono (hroom : depth.HasRoom steps) (hle : fewer ≤ steps) : depth.HasRoom fewer := by
  obtain ⟨hbraces, hparens, hsquares⟩ := hroom
  refine ⟨?_, ?_, ?_⟩ <;> omega

theorem hasRoom_zero (hsteps : steps < 0x80000000) : Depth.zero.HasRoom steps := by
  refine ⟨?_, ?_, ?_⟩ <;> simp only [zero] <;> omega

theorem HasRoom.track_closer (hroom : depth.HasRoom (steps + 1)) (bracket : Bracket) :
    (depth.track bracket.closer).HasRoom steps := by
  obtain ⟨hbraces, hparens, hsquares⟩ := hroom
  cases bracket <;> refine ⟨?_, ?_, ?_⟩ <;>
    simp only [Bracket.closer, track, lower] <;> omega

theorem track_plain {c : Char} (hplain : IsPlain c) : depth.track c = depth := by
  unfold track
  split
  next => exact absurd rfl (hplain .round).2
  next => exact absurd rfl (hplain .square).2
  next => exact absurd rfl (hplain .curly).2
  next => exact absurd rfl (hplain .round).1
  next => exact absurd rfl (hplain .square).1
  next => exact absurd rfl (hplain .curly).1
  next => rfl

/-- Past a closer the walk is inside a pair, and not out of one it started in. -/
theorem track_closer (hleft : depth.leftBracket = false) (bracket : Bracket) :
    (depth.track bracket.closer).isZero = false ∧
      (depth.track bracket.closer).leftBracket = false := by
  rw [leftBracket_eq_false_iff] at hleft ⊢
  obtain ⟨hbraces, hparens, hsquares⟩ := hleft
  cases bracket <;> simp only [Bracket.closer, track, lower, isZero, Bool.and_eq_false_iff,
    decide_eq_false_iff_not] <;> omega

/-- An opener undoes its closer. -/
theorem track_opener_track_closer (hleft : depth.leftBracket = false) (hroom : depth.HasRoom 1)
    (bracket : Bracket) : (depth.track bracket.closer).track bracket.opener = depth := by
  rw [leftBracket_eq_false_iff] at hleft
  obtain ⟨braces, parens, squares⟩ := depth
  obtain ⟨hbraces, hparens, hsquares⟩ := hroom
  cases bracket <;> simp only [Bracket.closer, Bracket.opener, track, lower, raise,
    Depth.mk.injEq, and_true, true_and] at * <;> omega

end Depth

end Caret.Chain
