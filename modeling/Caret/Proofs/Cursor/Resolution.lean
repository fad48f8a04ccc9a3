import Caret.Proofs.Cursor.Trails
import Caret.Proofs.Cursor.WholeWords

/-! # Resolved receivers

The receiver of a signature stands before its first dot. Where there is a dot left of the
word, what stands before it is the same for every cursor in the word. Where there is none,
the receiver is the part of the word left of the cursor.
-/

namespace Caret.Cursor

open Text Syntax Symbols Chain

section Resolve

variable {cursor : Cursor} {name rest left tail : List Char}

/-- What a receiver is resolved to: a number to its class, a name to the end of its trail. -/
def resolveReceiver (cursor : Cursor) (name : List Char) : String :=
  if name.all Char.isDigit then "Integer.new" else (cursor.trail (String.ofList name)).result

/-- What the characters of a signature are resolved to. -/
def resolve (cursor : Cursor) : List Char → String
  | [] => ""
  | '.' :: rest => cursor.calculateAfterDot ('.' :: rest)
  | chars =>
      cursor.resolveReceiver (chars.takeWhile (· ≠ '.')) ++
        String.ofList (chars.dropWhile (· ≠ '.'))

theorem calculatedSignature_eq_resolve (cursor : Cursor) :
    cursor.calculatedSignature = cursor.resolve cursor.scan.chars := by
  unfold calculatedSignature
  split
  next hchars => rw [hchars, resolve]
  next rest hchars => rw [hchars, resolve]
  next hnil hdot =>
    rw [resolve.eq_3 _ _ hnil hdot]
    dsimp only [receiverTrail, resolveReceiver]
    split_ifs <;> rfl

/-- A receiver is resolved apart from what follows it. -/
theorem resolve_receiver (hplain : '.' ∉ name) (hname : name ≠ [])
    (hrest : ∀ c ∈ rest.head?, c = '.') :
    cursor.resolve (name ++ rest) = cursor.resolveReceiver name ++ String.ofList rest := by
  have hinside : ∀ c ∈ name, decide (c ≠ '.') := fun c hc =>
    decide_eq_true fun heq => hplain (heq ▸ hc)
  obtain ⟨htake, hdrop⟩ :
      rest.takeWhile (· ≠ '.') = [] ∧ rest.dropWhile (· ≠ '.') = rest := by
    cases rest with
    | nil => exact ⟨rfl, rfl⟩
    | cons c more => simp [hrest c rfl]
  have hdot : ∀ more, name ++ rest ≠ '.' :: more := by
    intro more heq
    obtain ⟨c, tail, rfl⟩ := List.exists_cons_of_ne_nil hname
    rw [List.cons_append, List.cons.injEq] at heq
    exact hplain (heq.1 ▸ List.mem_cons_self)
  rw [resolve.eq_3 _ _ (by simp [hname]) hdot, List.takeWhile_append_of_pos hinside,
    List.dropWhile_append_of_pos hinside, htake, hdrop, List.append_nil]

/-- Whether a text begins with one that ends in some character is not changed by what is
appended, unless that has the character. -/
theorem prefix_append_iff {start : List Char} {c : Char} (hlast : start.getLast? = some c)
    (htail : c ∉ tail) : start <+: left ++ tail ↔ start <+: left := by
  refine ⟨fun hprefix => ?_, fun hprefix => hprefix.trans (List.prefix_append _ _)⟩
  rcases List.prefix_or_prefix_of_prefix hprefix (List.prefix_append left tail) with
    hwithin | ⟨more, rfl⟩
  · exact hwithin
  · -- What is left of the beginning lies in the tail, and with it the last character.
    have hmore := (List.prefix_append_right_inj left).mp hprefix
    cases hend : more.getLast? with
    | none => simp [List.getLast?_eq_none_iff.mp hend]
    | some d =>
        rw [List.getLast?_append, hend, Option.some_or, Option.some.injEq] at hlast
        exact absurd (hmore.subset (List.mem_of_getLast? (hlast ▸ hend))) htail

theorem calculateAfterDot_append (htail : '.' ∉ tail) :
    cursor.calculateAfterDot (left ++ tail) =
      cursor.calculateAfterDot left ++ String.ofList tail := by
  have hsubscript : ".[].".toList.isPrefixOf (left ++ tail) = ".[].".toList.isPrefixOf left := by
    rw [Bool.eq_iff_iff, List.isPrefixOf_iff_prefix, List.isPrefixOf_iff_prefix]
    exact prefix_append_iff rfl htail
  unfold calculateAfterDot
  rw [hsubscript]
  split
  next harray =>
    have hlength : 4 ≤ left.length := (List.isPrefixOf_iff_prefix.mp harray).length_le
    rw [List.drop_append_of_le_length (Nat.le_of_succ_le hlength), String.ofList_append,
      String.append_assoc]
  next =>
    dsimp only
    split <;> simp only [String.ofList_append, String.append_assoc]

/-- What follows the first dot is left as it is. -/
theorem resolve_append (hdot : '.' ∈ left) (htail : '.' ∉ tail) :
    cursor.resolve (left ++ tail) = cursor.resolve left ++ String.ofList tail := by
  obtain ⟨name, rest, rfl, hplain⟩ := List.eq_append_cons_of_mem hdot
  cases name with
  | nil =>
      have happend := @calculateAfterDot_append cursor ('.' :: rest) tail htail
      exact happend
  | cons c more =>
      rw [List.append_assoc, resolve_receiver hplain (List.cons_ne_nil _ _) (by simp),
        resolve_receiver hplain (List.cons_ne_nil _ _) (by simp), String.append_assoc,
        ← String.ofList_append]

end Resolve

section Agreement

variable {left right : Cursor} (hbuffer : left.buffer = right.buffer)
  (hlocals : left.locals = right.locals)
include hbuffer hlocals

/-- Cursors that see the same variables follow them to the same end. -/
theorem trail_eq_of_locals_eq (name : String) : left.trail name = right.trail name := by
  obtain ⟨buffer, offset, hle⟩ := left
  obtain ⟨same, other, hother⟩ := right
  obtain rfl : buffer = same := hbuffer
  -- The table is the same for both cursors, so only what they see of it could differ.
  have hlatest : Cursor.latest ⟨buffer, offset, hle⟩ = Cursor.latest ⟨buffer, other, hother⟩ := by
    funext name
    rw [latest, latest, Table.latest, Table.latest, Table.visible_eq_of_locals_eq hlocals]
  exact congrArg (follow · (List.range buffer.symbols.locals.length) name) hlatest

theorem resolve_eq_of_anchor_eq (hanchor : left.scan.anchor = right.scan.anchor)
    (chars : List Char) : left.resolve chars = right.resolve chars := by
  have hliteral : left.literalClassAt = right.literalClassAt := by
    funext offset
    rw [literalClassAt, literalClassAt, hbuffer]
  unfold resolve
  split
  next => rfl
  next rest => rw [calculateAfterDot, calculateAfterDot, hanchor, hliteral]
  next => rw [resolveReceiver, resolveReceiver, trail_eq_of_locals_eq hbuffer hlocals]

end Agreement

/-- Whether the signature is a receiver with a meaning of its own: a number, or the name of
a variable whose value is known. -/
def IsReceiver (cursor : Cursor) : Prop :=
  cursor.scan.chars ≠ [] ∧
    (cursor.scan.chars.all Char.isDigit ∨ ∃ target, cursor.Leads cursor.signature target)

/-- A name without a meaning of its own is resolved to itself. -/
theorem calculatedSignature_of_plain {cursor : Cursor} (hplain : '.' ∉ cursor.scan.chars)
    (hreceiver : ¬ cursor.IsReceiver) : cursor.calculatedSignature = cursor.signature := by
  rw [calculatedSignature_eq_resolve, signature]
  by_cases hnil : cursor.scan.chars = []
  · rw [hnil, resolve]
  · have hresolved := @resolve_receiver cursor cursor.scan.chars [] hplain hnil (by simp)
    rw [List.append_nil, String.ofList_nil, String.append_empty] at hresolved
    have hdigits : ¬ cursor.scan.chars.all Char.isDigit := fun hdigits =>
      hreceiver ⟨hnil, .inl hdigits⟩
    rw [hresolved, resolveReceiver, if_neg hdigits]
    -- A trail ends where it starts if the name leads nowhere.
    have hpath := cursor.path_trail (String.ofList cursor.scan.chars)
    generalize cursor.trail (String.ofList cursor.scan.chars) = trail at hpath
    obtain ⟨steps, result, repeated⟩ := trail
    cases hpath with
    | nil => rfl
    | cons hfirst _ => exact absurd ⟨hnil, .inr ⟨_, hfirst⟩⟩ hreceiver

namespace InRun

variable {cursor : Cursor} {run : Span}

theorem dot_not_mem_between (hin : cursor.InRun run) :
    '.' ∉ cursor.buffer.code.between ⟨run.start + 1, cursor.offset⟩ := by
  intro hdot
  obtain ⟨index, hfrom, hto, hc⟩ := Code.mem_between.mp hdot
  obtain ⟨c, hchar, hword⟩ := hin.isRun.exists_char (Nat.le_of_succ_le hfrom)
    (Nat.lt_of_lt_of_le hto hin.upTo)
  obtain rfl := Option.some.inj (hc.symm.trans hchar)
  contradiction

theorem dot_mem_iff (hin : cursor.InRun run) :
    '.' ∈ cursor.scan.chars ↔ '.' ∈ (cursor.buffer.code.runScan run).chars := by
  obtain ⟨anchor, hscan⟩ := hin.exists_scan_eq
  rw [hscan, Signature.withTail, List.mem_append, or_iff_left hin.dot_not_mem_between]

/-- Where a dot stands left of the word, the word is taken as it is. -/
theorem calculatedWholeSignature_eq (hin : cursor.InRun run)
    (hdot : '.' ∈ (cursor.buffer.code.runScan run).chars) :
    cursor.calculatedWholeSignature = cursor.resolve (cursor.buffer.code.runScan run).chars ++
      String.ofList (cursor.buffer.code.between
        ⟨run.start + 1, (cursor.buffer.code.wordAround run).stop⟩) := by
  obtain ⟨anchor, hscan⟩ := hin.exists_scan_eq
  rw [calculatedWholeSignature, calculatedSignature_eq_resolve, hscan, Signature.withTail,
    resolve_append hdot hin.dot_not_mem_between, hin.remainder_eq, String.append_assoc,
    ← String.ofList_append, Code.between_append _ hin.after hin.le_wordEnd]

theorem anchor_eq (hlines : cursor.buffer.code.LineComments) (hin : cursor.InRun run)
    (hdot : '.' ∈ (cursor.buffer.code.runScan run).chars) :
    cursor.scan.anchor = (cursor.buffer.code.runScan run).anchor := by
  obtain ⟨anchor, hscan⟩ := hin.exists_scan_eq
  have hrun : run.start < run.stop := Nat.lt_of_lt_of_le hin.after hin.upTo
  -- If the dot comes with a copied character, then that one is farther left than the word.
  rcases Code.runScan_copied hlines hin.isRun hrun with hnil | hsome
  · rw [hnil] at hdot
    contradiction
  · rw [hscan, Signature.withTail, Option.or_of_isSome hsome]

end InRun

section Divided

variable {left right : Cursor} {run : Span} (hbuffer : left.buffer = right.buffer)
  (hleft : left.InRun run) (hright : right.InRun run)
include hbuffer hleft hright

theorem calculatedWholeSignature_eq_of_dot (hlocals : left.locals = right.locals)
    (hlines : left.buffer.code.LineComments) (hdot : '.' ∈ left.scan.chars) :
    left.calculatedWholeSignature = right.calculatedWholeSignature := by
  have hleftDot := hleft.dot_mem_iff.mp hdot
  have hrightDot := hleftDot
  rw [hbuffer] at hrightDot
  have hanchor : left.scan.anchor = right.scan.anchor := by
    rw [hleft.anchor_eq hlines hleftDot, hright.anchor_eq (hbuffer ▸ hlines) hrightDot, hbuffer]
  rw [hleft.calculatedWholeSignature_eq hleftDot, hright.calculatedWholeSignature_eq hrightDot,
    resolve_eq_of_anchor_eq hbuffer hlocals hanchor, hbuffer]

theorem calculatedWholeSignature_eq_of_plain (hplain : '.' ∉ left.scan.chars)
    (hnotLeft : ¬ left.IsReceiver) (hnotRight : ¬ right.IsReceiver) :
    left.calculatedWholeSignature = right.calculatedWholeSignature := by
  have hplainRight : '.' ∉ right.scan.chars := by
    rw [hright.dot_mem_iff, ← hbuffer, ← hleft.dot_mem_iff]
    exact hplain
  calc left.calculatedWholeSignature
      = left.wholeSignature := by
        rw [calculatedWholeSignature, calculatedSignature_of_plain hplain hnotLeft, wholeSignature]
    _ = right.wholeSignature := by
        rw [hleft.wholeSignature_eq, hright.wholeSignature_eq, hbuffer]
    _ = right.calculatedWholeSignature := by
        rw [calculatedWholeSignature, calculatedSignature_of_plain hplainRight hnotRight,
          wholeSignature]

end Divided

/-- Cursors in the same run of name characters that see the same variables agree in the
whole calculated signature, if a dot stands left of the word and comments reach to the ends of
their lines. Whatever the comments, they also do if there is no dot and neither cursor divides
the word behind a receiver. -/
theorem calculatedWholeSignature_eq_of_inRun {left right : Cursor}
    (hbuffer : left.buffer = right.buffer) {run : Span} (hleft : left.InRun run)
    (hright : right.InRun run) (hlocals : left.locals = right.locals) :
    ('.' ∈ left.scan.chars → left.buffer.code.LineComments →
      left.calculatedWholeSignature = right.calculatedWholeSignature) ∧
    ('.' ∉ left.scan.chars → ¬ left.IsReceiver → ¬ right.IsReceiver →
      left.calculatedWholeSignature = right.calculatedWholeSignature) :=
  ⟨fun hdot hlines => calculatedWholeSignature_eq_of_dot hbuffer hleft hright hlocals hlines hdot,
    fun hplain hnotLeft hnotRight =>
      calculatedWholeSignature_eq_of_plain hbuffer hleft hright hplain hnotLeft hnotRight⟩

/-- A program that assigns to a variable and goes on with some other statement. -/
def assignedThen (rest : String) (statement : Tree) (stop : Nat) : Buffer :=
  .ofParsed ("x = 1\n" ++ rest) ⟨.node ⟨"program", true, ⟨0, stop⟩, none⟩
    [.node ⟨"assignment", true, ⟨0, 5⟩, none⟩
      [.node ⟨"identifier", true, ⟨0, 1⟩, some "left"⟩ [], .node ⟨"=", false, ⟨2, 3⟩, none⟩ [],
        .node ⟨"integer", true, ⟨4, 5⟩, some "right"⟩ []],
    statement], false⟩

/-- A method called on the variable. -/
def calledOn : Buffer :=
  assignedThen "x.foo" (.node ⟨"call", true, ⟨6, 11⟩, none⟩
    [.node ⟨"identifier", true, ⟨6, 7⟩, some "receiver"⟩ [],
      .node ⟨".", false, ⟨7, 8⟩, some "operator"⟩ [],
      .node ⟨"identifier", true, ⟨8, 11⟩, some "method"⟩ []]) 11

theorem calculatedWholeSignature_eq_of_inRun_called :
    let left : Cursor := ⟨calledOn, 9, by decide +kernel⟩
    let right : Cursor := ⟨calledOn, 11, by decide +kernel⟩
    left.buffer = right.buffer ∧ left.InRun ⟨8, 11⟩ ∧ right.InRun ⟨8, 11⟩ ∧
      left.locals = right.locals ∧ '.' ∈ left.scan.chars ∧ left.buffer.code.LineComments ∧
      left.calculatedWholeSignature = right.calculatedWholeSignature ∧
      left.calculatedWholeSignature = "Integer.new.foo" := by
  intro left right
  have hisRun : calledOn.code.IsRun ⟨8, 11⟩ := by decide +kernel
  have hlines : calledOn.code.LineComments := by decide +kernel
  have hleft : left.InRun ⟨8, 11⟩ :=
    ⟨hisRun, by decide, by decide, by decide +kernel, by decide +kernel⟩
  have hright : right.InRun ⟨8, 11⟩ :=
    ⟨hisRun, by decide, by decide, by decide +kernel, by decide +kernel⟩
  have hlocals : left.locals = right.locals := by decide +kernel
  have hdot : '.' ∈ left.scan.chars := by decide +kernel
  have hbuffer : left.buffer = right.buffer := rfl
  obtain ⟨hdotted, -⟩ := calculatedWholeSignature_eq_of_inRun hbuffer hleft hright hlocals
  exact ⟨hbuffer, hleft, hright, hlocals, hdot, hlines, hdotted hdot hlines, by decide +kernel⟩

/-- A name that begins like the variable. -/
def longerName : Buffer :=
  assignedThen "xy" (.node ⟨"identifier", true, ⟨6, 8⟩, none⟩ []) 8

/-- Behind `x` the name `xy` is taken for the variable `x`, and the rest of it is appended to
the value. -/
theorem not_forall_calculatedWholeSignature_eq :
    ¬ ∀ (left right : Cursor) (run : Span), left.buffer = right.buffer → left.InRun run →
      right.InRun run → left.locals = right.locals →
      left.calculatedWholeSignature = right.calculatedWholeSignature := by
  intro hall
  have hisRun : longerName.code.IsRun ⟨6, 8⟩ := by decide +kernel
  have hsame := hall ⟨longerName, 7, by decide +kernel⟩ ⟨longerName, 8, by decide +kernel⟩ ⟨6, 8⟩
    rfl ⟨hisRun, by decide, by decide, by decide +kernel, by decide +kernel⟩
    ⟨hisRun, by decide, by decide, by decide +kernel, by decide +kernel⟩ (by decide +kernel)
  have hdiffers : Cursor.calculatedWholeSignature ⟨longerName, 7, by decide +kernel⟩ ≠
      Cursor.calculatedWholeSignature ⟨longerName, 8, by decide +kernel⟩ := by
    decide +kernel
  exact hdiffers hsame

end Caret.Cursor
