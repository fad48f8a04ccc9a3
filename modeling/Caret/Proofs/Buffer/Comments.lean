import Caret.Proofs.Buffer.Enclosing
import Caret.Proofs.Chain.Blanking

/-! # The comments of a properly nested tree

The comments of a buffer are collected from its tree. If the tree is properly nested, they
stand in order and apart, so looking one up by halving finds it. A cursor is in a comment just
if the character before it is found in one.
-/

namespace Caret.Syntax

open Text

theorem commentsOfList_eq_flatMap (index : Index) (trees : List Tree) :
    commentsOfList index trees = trees.flatMap (comments index) := by
  induction trees with
  | nil => rfl
  | cons tree rest ih => rw [commentsOfList, ih, List.flatMap_cons]

/-- A comment is the span of some node of its kind. -/
theorem exists_of_mem_comments {index : Index} {tree : Tree} {comment : Span}
    (hcomment : comment ∈ comments index tree) :
    ∃ node ∈ tree.preorder, comment = index.charSpan node.bytes := by
  induction tree using Tree.induction with
  | node label children ih =>
      rw [comments] at hcomment
      split at hcomment
      next hkind =>
        refine ⟨_, Tree.self_mem_preorder _, ?_⟩
        have hprogram : (Tree.node label children).kind ≠ "program" := by
          intro heq
          exact absurd (hkind.symm.trans heq) (by decide)
        rw [List.mem_singleton.mp hcomment, Tree.charSpan, if_neg hprogram]
      next =>
        rw [commentsOfList_eq_flatMap, List.mem_flatMap] at hcomment
        obtain ⟨child, hchild, hbelow⟩ := hcomment
        obtain ⟨node, hnode, heq⟩ := ih child hchild hbelow
        exact ⟨node, Tree.mem_preorder_of_child hchild hnode, heq⟩

/-- No comment reaches into the next one. -/
theorem comments_apart {text : String} {tree : Tree}
    (hordered : ∀ node ∈ tree.preorder, node.Ordered) :
    (comments (.ofString text) tree).Pairwise (·.stop ≤ ·.start) := by
  induction tree using Tree.induction with
  | node label children ih =>
      rw [comments]
      split
      next => exact List.pairwise_singleton _ _
      next =>
        rw [commentsOfList_eq_flatMap, List.pairwise_flatMap]
        refine ⟨fun child hchild => ih child hchild (ordered_of_child hordered hchild), ?_⟩
        have hapart := (hordered _ (Tree.self_mem_preorder _)).children_apart
        refine hapart.imp_of_mem fun {left right} hleft hright hbytes => ?_
        intro first hfirst second hsecond
        obtain ⟨before, hbefore, rfl⟩ := exists_of_mem_comments hfirst
        obtain ⟨after, hafter, rfl⟩ := exists_of_mem_comments hsecond
        have hstop := (bytes_inside_root (ordered_of_child hordered hleft) hbefore).2
        have hstart := (bytes_inside_root (ordered_of_child hordered hright) hafter).1
        exact Index.charOf_mono (Nat.le_trans hstop (Nat.le_trans hbytes hstart))

end Caret.Syntax

namespace Caret.Buffer

open Text Syntax

theorem orderedComments_of_ordered {buffer : Buffer}
    (hordered : ∀ node ∈ buffer.tree.preorder, node.Ordered)
    (hboundaries : ∀ node ∈ buffer.tree.preorder,
      buffer.index.IsBoundary node.bytes.start ∧ buffer.index.IsBoundary node.bytes.stop) :
    buffer.code.OrderedComments := by
  have hcomments : buffer.code.comments =
      (Syntax.comments (.ofString buffer.text) buffer.tree).toArray := by
    rw [code, buffer.comments_eq, buffer.index_eq]
  have hsize : buffer.code.chars.size = (Index.ofString buffer.text).size := by
    rw [code, buffer.index_eq]
    rfl
  rw [buffer.index_eq] at hboundaries
  constructor
  · intro comment hcomment
    rw [hcomments, List.mem_toArray] at hcomment
    obtain ⟨node, hnode, rfl⟩ := exists_of_mem_comments hcomment
    rw [hsize]
    exact ⟨Index.charOf_mono (hordered node hnode).start_le_stop,
      (hboundaries node hnode).2.charOf_le_size⟩
  · rw [hcomments]
    exact comments_apart hordered

theorem orderedComments {buffer : Buffer} (hnested : buffer.tree.ProperlyNested buffer.index) :
    buffer.code.OrderedComments :=
  orderedComments_of_ordered hnested.ordered hnested.boundaries

/-- A cursor behind a character is in a comment if a comment holds the character. -/
theorem inComment_succ (buffer : Buffer) (index : Nat) :
    buffer.inComment (index + 1) = buffer.code.commented index := by
  rw [inComment, Chain.Code.commented]
  congr 1
  funext comment
  simp only [Span.contains, Nat.lt_succ_iff, Nat.succ_le_iff]

/-- Going through the comments for one around a cursor, and looking up one by halving for the
character before the cursor, agree behind every character. What is found holds the character, and
no other comment does. -/
theorem inComment_iff_commentHolding {buffer : Buffer}
    (hordered : ∀ node ∈ buffer.tree.preorder, node.Ordered)
    (hboundaries : ∀ node ∈ buffer.tree.preorder,
      buffer.index.IsBoundary node.bytes.start ∧ buffer.index.IsBoundary node.bytes.stop) :
    buffer.code.OrderedComments ∧ ∀ index,
      (buffer.inComment (index + 1) ↔
        ∃ comment, buffer.code.commentHolding index = some comment) ∧
      ∀ comment, buffer.code.commentHolding index = some comment →
        buffer.comments.filter (·.contains index) = #[comment] := by
  have hcomments := orderedComments_of_ordered hordered hboundaries
  refine ⟨hcomments, fun index => ⟨?_, fun comment hfound => ?_⟩⟩
  · rw [inComment_succ, ← Option.ne_none_iff_exists', ne_eq,
      Chain.Code.commentHolding_eq_none_iff hcomments.inOrder, Bool.not_eq_false]
  · have hholds := Span.contains_iff.mpr (Chain.Code.commentHolding_bounds hfound)
    exact hcomments.inOrder.filter_contains (mem_of_holding hfound) hholds

/-- An assignment of a character of two bytes with a remark behind it, and two more remarks on
the lines below. -/
def remarkedAccent : Buffer :=
  .ofParsed "x = 'é' # a\n# b\n#" ⟨.node ⟨"program", true, ⟨0, 18⟩, none⟩ [
    .node ⟨"assignment", true, ⟨0, 8⟩, none⟩ [
      .node ⟨"identifier", true, ⟨0, 1⟩, some "left"⟩ [],
      .node ⟨"=", false, ⟨2, 3⟩, none⟩ [],
      .node ⟨"string", true, ⟨4, 8⟩, some "right"⟩ [
        .node ⟨"\"", false, ⟨4, 5⟩, none⟩ [],
        .node ⟨"string_content", true, ⟨5, 7⟩, none⟩ [],
        .node ⟨"\"", false, ⟨7, 8⟩, none⟩ []]],
    .node ⟨"comment", true, ⟨9, 12⟩, none⟩ [],
    .node ⟨"comment", true, ⟨13, 16⟩, none⟩ [],
    .node ⟨"comment", true, ⟨17, 18⟩, none⟩ []], false⟩

theorem inComment_iff_commentHolding_remarkedAccent :
    (∀ node ∈ remarkedAccent.tree.preorder, node.Ordered) ∧
      (∀ node ∈ remarkedAccent.tree.preorder,
        remarkedAccent.index.IsBoundary node.bytes.start ∧
          remarkedAccent.index.IsBoundary node.bytes.stop) ∧
      remarkedAccent.code.OrderedComments ∧ ¬ remarkedAccent.inComment 8 ∧
      remarkedAccent.inComment 15 ∧
      remarkedAccent.comments.filter (·.contains 14) = #[⟨12, 15⟩] := by
  have hnested : remarkedAccent.tree.ProperlyNested remarkedAccent.index := by decide +kernel
  have hnone : remarkedAccent.code.commentHolding 7 = none := by decide +kernel
  have hfound : remarkedAccent.code.commentHolding 14 = some ⟨12, 15⟩ := by decide +kernel
  obtain ⟨hcomments, hagree⟩ := inComment_iff_commentHolding hnested.ordered hnested.boundaries
  refine ⟨hnested.ordered, hnested.boundaries, hcomments, ?_, (hagree 14).1.mpr ⟨_, hfound⟩,
    (hagree 14).2 _ hfound⟩
  intro hinside
  obtain ⟨comment, hcomment⟩ := (hagree 7).1.mp hinside
  rw [hnone] at hcomment
  contradiction

end Caret.Buffer
