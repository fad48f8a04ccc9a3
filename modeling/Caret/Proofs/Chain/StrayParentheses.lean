import Caret.Proofs.Chain.Blanking
import Caret.Proofs.Chain.Parentheses

/-! # Stray parentheses

What a stretch of text does to the stack of open parentheses is told by the parentheses
without a partner in it. Each closing one takes an entry off the stack, and the opening
ones come on top of what is left. A stretch without stray parentheses does nothing.
-/

namespace Caret.Chain

open Text

/-- The number of closing parentheses without a partner, where `opened` parentheses wait
for theirs. -/
def strayClosers (opened : Nat) : List Char → Nat
  | [] => 0
  | c :: rest =>
      if c = '(' then strayClosers (opened + 1) rest
      else if c = ')' then
        match opened with
        | 0 => strayClosers 0 rest + 1
        | inner + 1 => strayClosers inner rest
      else strayClosers opened rest

/-- Text in which every parenthesis has its partner. -/
structure Matched (text : List Char) : Prop where
  opened : openParens text = []
  closed : strayClosers 0 text = 0

instance (text : List Char) : Decidable (Matched text) :=
  decidable_of_iff (openParens text = [] ∧ strayClosers 0 text = 0)
    ⟨fun h => ⟨h.1, h.2⟩, fun h => ⟨h.1, h.2⟩⟩

/-- Text reads its own parentheses first. Only its stray closers reach the entries below. -/
theorem foldl_readParen_append (text : List Char) (start : Nat) (inner outer : List Nat) :
    (text.zipIdx start).foldl readParen (inner ++ outer) =
      (text.zipIdx start).foldl readParen inner ++ outer.drop (strayClosers inner.length text) := by
  induction text generalizing start inner outer with
  | nil => simp [strayClosers]
  | cons c rest ih =>
      rw [List.zipIdx_cons, List.foldl_cons, List.foldl_cons]
      unfold readParen strayClosers
      split
      next hopen => exact ih (start + 1) (start :: inner) outer
      next =>
        split
        next hclose =>
          cases inner with
          | nil =>
              have hrest := ih (start + 1) [] outer.tail
              rwa [List.drop_tail] at hrest
          | cons top below => exact ih (start + 1) below outer
        next => exact ih (start + 1) inner outer

/-- Text that stands further right opens its parentheses further right. -/
theorem foldl_readParen_shift (text : List Char) (start shift : Nat) (stack : List Nat) :
    (text.zipIdx (start + shift)).foldl readParen (stack.map (· + shift)) =
      ((text.zipIdx start).foldl readParen stack).map (· + shift) := by
  induction text generalizing start stack with
  | nil => rfl
  | cons c rest ih =>
      have hstep : readParen (stack.map (· + shift)) (c, start + shift) =
          (readParen stack (c, start)).map (· + shift) := by
        unfold readParen
        split
        next => rfl
        next =>
          split
          next => exact List.map_tail.symm
          next => rfl
      rw [List.zipIdx_cons, List.zipIdx_cons, List.foldl_cons, List.foldl_cons, hstep,
        Nat.add_right_comm, ih]

/-- What a text does to the stack of the text before it. -/
theorem openParens_append (pre text : List Char) :
    openParens (pre ++ text) =
      (openParens text).map (· + pre.length) ++ (openParens pre).drop (strayClosers 0 text) := by
  have hown := foldl_readParen_shift text 0 pre.length []
  have hboth := foldl_readParen_append text pre.length [] (openParens pre)
  rw [Nat.zero_add, List.map_nil] at hown
  rw [List.nil_append, hown] at hboth
  rw [openParens, List.zipIdx_append, List.foldl_append, Nat.zero_add]
  exact hboth

theorem openParens_append_matched {text : List Char} (hmatched : Matched text)
    (pre : List Char) : openParens (pre ++ text) = openParens pre := by
  rw [openParens_append, hmatched.opened, hmatched.closed]
  rfl

theorem matched_of_forall_ne {text : List Char} (hplain : ∀ c ∈ text, c ≠ '(' ∧ c ≠ ')') :
    Matched text := by
  constructor
  · induction text using List.reverseRecOn with
    | nil => rfl
    | append_singleton init c ih =>
        obtain ⟨hopen, hclose⟩ := hplain c (by simp)
        rw [openParens_concat, readParen, if_neg hopen, if_neg hclose]
        exact ih fun d hd => hplain d (List.mem_append_left _ hd)
  · induction text with
    | nil => rfl
    | cons c rest ih =>
        obtain ⟨⟨hopen, hclose⟩, hrest⟩ := List.forall_mem_cons.mp hplain
        rw [strayClosers, if_neg hopen, if_neg hclose]
        exact ih hrest

/-- A text leaves the top of the stack just if no parenthesis of its own stays open, and it
takes nothing off a stack that is not empty. -/
theorem head?_openParens_append_iff (pre text : List Char) :
    (openParens (pre ++ text)).head? = (openParens pre).head? ↔
      openParens text = [] ∧ (strayClosers 0 text = 0 ∨ openParens pre = []) := by
  rw [openParens_append]
  cases hown : openParens text with
  | cons top below =>
      -- What the text opens stands right of all that was open before it.
      simp only [List.map_cons, List.cons_append, List.head?_cons, reduceCtorEq, false_and,
        iff_false]
      intro hhead
      have hmem := List.mem_of_mem_head? hhead.symm
      have hlt := lt_length_of_mem_openParens hmem
      omega
  | nil =>
      simp only [List.map_nil, List.nil_append, true_and]
      cases hclosed : strayClosers 0 text with
      | zero => simp
      | succ more =>
          simp only [Nat.succ_ne_zero, false_or]
          cases hstack : openParens pre with
          | nil => simp
          | cons top below =>
              simp only [List.drop_succ_cons, List.head?_cons, reduceCtorEq, iff_false]
              intro hhead
              have hmem := List.mem_of_mem_drop (List.mem_of_mem_head? hhead)
              have hpairwise := hstack ▸ pairwise_openParens pre
              have hlt := (List.pairwise_cons.mp hpairwise).1 top hmem
              omega

namespace Code

variable {code : Code} {offset : Nat}

theorem openParens_take_blanked_stop (hordered : code.OrderedComments) {comment : Span}
    (hmem : comment ∈ code.comments) :
    openParens (code.blanked.chars.toList.take comment.stop) =
      openParens (code.blanked.chars.toList.take comment.start) := by
  rw [code.blanked.take_eq_append_between (hordered.inside comment hmem).1]
  apply openParens_append_matched
  apply matched_of_forall_ne
  intro c hc
  rw [eq_space_of_mem_between_blanked hordered hmem hc]
  decide

/-- A character of code is read alike where the comments are blanked. -/
theorem openParens_take_blanked_succ (hcode : code.commented offset = false)
    (hbefore : openParens (code.blanked.chars.toList.take offset) =
      openParens (code.chars.toList.take offset)) :
    openParens (code.blanked.chars.toList.take (offset + 1)) =
      openParens (code.chars.toList.take (offset + 1)) := by
  have hget : code.blanked.chars[offset]? = code.chars[offset]? := getElem?_blankedChars hcode
  have hlength : (code.blanked.chars.toList.take offset).length =
      (code.chars.toList.take offset).length := by
    rw [List.length_take, List.length_take, Array.length_toList, Array.length_toList, blanked,
      size_blankedChars]
  rw [List.take_add_one, List.take_add_one, Array.getElem?_toList, Array.getElem?_toList, hget]
  cases code.chars[offset]? with
  | none => simpa using hbefore
  | some c => rw [Option.toList_some, openParens_concat, openParens_concat, hbefore, hlength]

/-- If no comment before an offset has stray parentheses, blanking the comments keeps the
stack of the open ones. -/
theorem openParens_take_blanked (hordered : code.OrderedComments)
    (houtside : ∀ comment ∈ code.comments, comment.stop ≤ offset ∨ offset ≤ comment.start)
    (hmatched : ∀ comment ∈ code.comments, comment.stop ≤ offset → Matched (code.between comment)) :
    openParens (code.blanked.chars.toList.take offset) =
      openParens (code.chars.toList.take offset) := by
  -- A comment is read as a whole, so the induction goes back to where it starts.
  induction offset using Nat.strongRecOn with
  | ind offset ih =>
      cases offset with
      | zero => rfl
      | succ last =>
          cases hcommented : code.commented last with
          | true =>
              obtain ⟨comment, hmem, hholds⟩ := commented_iff.mp hcommented
              obtain ⟨hstart, hstop⟩ := Span.contains_iff.mp hholds
              have hend : last + 1 = comment.stop := by
                have hcomment := houtside comment hmem
                omega
              rw [hend, openParens_take_blanked_stop hordered hmem,
                code.take_eq_append_between (hordered.inside comment hmem).1,
                openParens_append_matched (hmatched comment hmem (Nat.le_of_eq hend.symm))]
              refine ih comment.start (by omega) (hordered.outside_start hmem) ?_
              intro earlier hearlier hbefore
              exact hmatched earlier hearlier (by omega)
          | false =>
              refine openParens_take_blanked_succ hcommented (ih last (Nat.lt_succ_self last) ?_ ?_)
              · intro comment hmem
                have hcomment := houtside comment hmem
                have hapart := not_commented_iff.mp hcommented comment hmem
                rw [Span.contains_iff] at hapart
                omega
              · intro comment hmem hstop
                exact hmatched comment hmem (Nat.le_succ_of_le hstop)

/-- What one comment does, seen from an offset after it, if the other comments before it and
the code between the two have no stray parentheses. -/
theorem openParens_take_of_last (hordered : code.OrderedComments) {comment : Span}
    (hmem : comment ∈ code.comments) (hstop : comment.stop ≤ offset)
    (hearlier : ∀ earlier ∈ code.comments, earlier.stop ≤ comment.start →
      Matched (code.between earlier))
    (hlast : ∀ later ∈ code.comments, comment.stop ≤ later.start → offset ≤ later.start)
    (hafter : Matched (code.between ⟨comment.stop, offset⟩)) :
    openParens (code.blanked.chars.toList.take offset) =
        openParens (code.chars.toList.take comment.start) ∧
      openParens (code.chars.toList.take offset) =
        openParens (code.chars.toList.take comment.start ++ code.between comment) := by
  have hinside := (hordered.inside comment hmem).1
  have hcode : code.blanked.between ⟨comment.stop, offset⟩ =
      code.between ⟨comment.stop, offset⟩ := by
    refine between_blanked fun index hfrom hto => not_commented_iff.mpr fun later hlater hholds => ?_
    obtain ⟨hbegins, hends⟩ := Span.contains_iff.mp hholds
    have hnext := hlast later hlater
    dsimp only at hfrom hto
    rcases hordered.eq_or_apart hmem hlater with rfl | hbehind | hapart <;> omega
  have hread : ∀ text : Code, Matched (text.between ⟨comment.stop, offset⟩) →
      openParens (text.chars.toList.take offset) =
        openParens (text.chars.toList.take comment.stop) := by
    intro text hmatched
    have hsplit := @take_eq_append_between text ⟨comment.stop, offset⟩ hstop
    dsimp only at hsplit
    rw [hsplit, openParens_append_matched hmatched]
  constructor
  · rw [hread code.blanked (hcode ▸ hafter), openParens_take_blanked_stop hordered hmem]
    exact openParens_take_blanked hordered (hordered.outside_start hmem) hearlier
  · rw [hread code hafter, code.take_eq_append_between hinside]

end Code

end Caret.Chain
