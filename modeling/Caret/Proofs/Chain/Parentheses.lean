import Caret.Chain.Argument
import Mathlib.Data.List.Induction

/-! # Open parentheses

Read from left to right, a text keeps its open parentheses on a stack. A walk to the
left that counts parentheses stops at an entry of this stack. The text before an entry
has on its own stack what lies below that entry.
-/

namespace Caret.Chain

/-- Read one character with its offset. An opening parenthesis is put on top of the
stack, and a closing one takes the top off unless the stack is empty. -/
def readParen (stack : List Nat) (entry : Char × Nat) : List Nat :=
  if entry.1 = '(' then entry.2 :: stack
  else if entry.1 = ')' then stack.tail
  else stack

/-- The offsets of the parentheses that are open at the end of a text, top first. -/
def openParens (text : List Char) : List Nat :=
  text.zipIdx.foldl readParen []

@[simp]
theorem openParens_nil : openParens [] = [] := rfl

theorem openParens_concat (text : List Char) (c : Char) :
    openParens (text ++ [c]) = readParen (openParens text) (c, text.length) := by
  simp [openParens, List.zipIdx_append]

theorem lt_length_of_mem_openParens {text : List Char} {offset : Nat}
    (hmem : offset ∈ openParens text) : offset < text.length := by
  induction text using List.reverseRecOn with
  | nil => simp at hmem
  | append_singleton text c ih =>
      rw [openParens_concat] at hmem
      rw [List.length_append, List.length_singleton]
      unfold readParen at hmem
      split at hmem
      next =>
        rcases List.mem_cons.mp hmem with rfl | hrest
        · omega
        · have hlt := ih hrest
          omega
      next =>
        split at hmem
        next =>
          have hlt := ih (List.mem_of_mem_tail hmem)
          omega
        next =>
          have hlt := ih hmem
          omega

/-- Parentheses further up on the stack stand further right. -/
theorem pairwise_openParens (text : List Char) : (openParens text).Pairwise (· > ·) := by
  induction text using List.reverseRecOn with
  | nil => exact List.Pairwise.nil
  | append_singleton text c ih =>
      rw [openParens_concat]
      unfold readParen
      split
      next =>
        apply List.pairwise_cons.mpr
        exact ⟨fun offset hmem => lt_length_of_mem_openParens hmem, ih⟩
      next =>
        split
        next => exact ih.sublist (List.tail_sublist _)
        next => exact ih

/-- The text before an entry of the stack leaves what lies below that entry. -/
theorem openParens_take {text : List Char} {place offset : Nat}
    (hentry : (openParens text)[place]? = some offset) :
    openParens (text.take offset) = (openParens text).drop (place + 1) := by
  have hlt := lt_length_of_mem_openParens (List.mem_of_getElem? hentry)
  induction text using List.reverseRecOn generalizing place with
  | nil => simp at hentry
  | append_singleton text c ih =>
      -- A parenthesis that was already open stands before the last character.
      have hearlier : ∀ {deeper}, (openParens text)[deeper]? = some offset →
          openParens ((text ++ [c]).take offset) = (openParens text).drop (deeper + 1) := by
        intro deeper hdeeper
        have hbefore := lt_length_of_mem_openParens (List.mem_of_getElem? hdeeper)
        rw [List.take_append_of_le_length (Nat.le_of_lt hbefore)]
        exact ih hdeeper hbefore
      rw [openParens_concat] at hentry ⊢
      unfold readParen at hentry ⊢
      split at hentry
      next hopen =>
        rw [if_pos hopen]
        cases place with
        | zero =>
            obtain rfl := Option.some.inj hentry
            simp
        | succ deeper => exact hearlier hentry
      next hopen =>
        rw [if_neg hopen]
        split at hentry
        next hclose =>
          rw [if_pos hclose, List.drop_tail]
          rw [List.getElem?_tail] at hentry
          exact hearlier hentry
        next hclose =>
          rw [if_neg hclose]
          exact hearlier hentry

/-- The counter of a walk to the left on the far side of a character. -/
def countParen (depth : Int) (c : Char) : Int :=
  if c = '(' then raise depth
  else if c = ')' then lower depth
  else depth

theorem openParen_succ {chars : Array Char} {depth : Int} {index : Nat} {c : Char}
    (hc : chars[index]? = some c) :
    openParen chars depth (index + 1) =
      if countParen depth c = 1 then some index
      else openParen chars (countParen depth c) index := by
  rw [openParen, hc]
  unfold countParen
  split <;> simp_all

/-- A walk with some closing parentheses right of it passes over as many entries of
the stack and stops at the next one. Its counter must not reach its lower limit. -/
theorem openParen_eq_getElem? {chars : Array Char} {pending cursor : Nat}
    (hcursor : cursor ≤ chars.size) (hroom : pending + cursor ≤ 0x80000000) :
    openParen chars (-pending) cursor = (openParens (chars.toList.take cursor))[pending]? := by
  induction cursor generalizing pending with
  | zero => simp [openParen]
  | succ index ih =>
      have hindex : index < chars.size := hcursor
      have htake : chars.toList.take (index + 1) = chars.toList.take index ++ [chars[index]] := by
        rw [List.take_succ_eq_append_getElem (by simpa using hindex), Array.getElem_toList]
      have hlength : (chars.toList.take index).length = index := by
        simp [Nat.le_of_lt hindex]
      rw [openParen_succ (Array.getElem?_eq_getElem hindex), htake, openParens_concat, hlength]
      unfold countParen readParen
      split
      next hopen =>
        cases pending with
        | zero => rfl
        | succ fewer =>
            -- The opening parenthesis belongs to a closing one right of the walk.
            have hcount : raise (-((fewer + 1 : Nat) : Int)) = -(fewer : Int) := by
              simp only [raise]
              omega
            rw [hcount, if_neg (by omega), ih (Nat.le_of_lt hindex) (by omega)]
            rfl
      next hopen =>
        split
        next hclose =>
          have hcount : lower (-(pending : Int)) = -((pending + 1 : Nat) : Int) := by
            simp only [lower]
            omega
          rw [hcount, if_neg (by omega), ih (Nat.le_of_lt hindex) (by omega), List.getElem?_tail]
        next hclose => rw [if_neg (by omega), ih (Nat.le_of_lt hindex) (by omega)]

/-- The parenthesis whose argument list holds an offset is on top of the stack there. -/
theorem openParenBefore_eq_head? {chars : Array Char} {offset : Nat} (hoffset : offset ≤ chars.size)
    (hshort : chars.size < 0x80000000) :
    openParenBefore chars offset = (openParens (chars.toList.take offset)).head? := by
  have hwalk := @openParen_eq_getElem? chars 0 offset hoffset (by omega)
  rw [openParenBefore, Nat.min_eq_left hoffset, List.head?_eq_getElem?, ← hwalk]
  rfl

end Caret.Chain
