import Caret.Proofs.Chain.Parentheses
import Caret.Proofs.Chain.Walks

/-! # Brackets that are open at a cursor

A walk to the left counts how many brackets of each kind the text right of it opens and
does not close. It goes on only as long as no kind has more openers than closers, so the
source text of a signature lies inside every bracket that is open at the cursor.
-/

namespace Caret.Chain

open Text

/-- How many more brackets of a kind a text opens than it closes. -/
def surplus (bracket : Bracket) (text : List Char) : Int :=
  text.count bracket.opener - text.count bracket.closer

/-- Read from its end, a text never leaves a bracket around its end: no end of the text
opens more brackets of a kind than it closes. -/
def StaysInside (text : List Char) : Prop :=
  ∀ tail, tail <:+ text → ∀ bracket, surplus bracket tail ≤ 0

section Surplus

variable {bracket : Bracket} {c : Char} {text : List Char}

theorem surplus_append (bracket : Bracket) (left right : List Char) :
    surplus bracket (left ++ right) = surplus bracket left + surplus bracket right := by
  rw [surplus, surplus, surplus, List.count_append, List.count_append]
  omega

theorem surplus_cons (bracket : Bracket) (c : Char) (text : List Char) :
    surplus bracket (c :: text) = surplus bracket [c] + surplus bracket text := by
  rw [← surplus_append, List.singleton_append]

theorem exists_bracket_of_not_isPlain (hplain : ¬ IsPlain c) :
    ∃ bracket : Bracket, c = bracket.opener ∨ c = bracket.closer := by
  simpa only [IsPlain, not_forall, Decidable.not_and_iff_not_or_not, not_not] using hplain

theorem surplus_plain (hplain : IsPlain c) (bracket : Bracket) : surplus bracket [c] = 0 := by
  obtain ⟨hopener, hcloser⟩ := hplain bracket
  simp [surplus, hopener, hcloser]

theorem surplus_bounds (bracket : Bracket) (text : List Char) :
    -(text.length : Int) ≤ surplus bracket text ∧ surplus bracket text ≤ text.length := by
  have hopeners : text.count bracket.opener ≤ text.length := List.count_le_length
  have hclosers : text.count bracket.closer ≤ text.length := List.count_le_length
  rw [surplus]
  omega

theorem staysInside_nil : StaysInside [] := by
  intro tail htail bracket
  rw [List.eq_nil_of_suffix_nil htail]
  exact Int.le_refl 0

theorem StaysInside.of_suffix {tail : List Char} (hinside : StaysInside text)
    (htail : tail <:+ text) : StaysInside tail :=
  fun shorter hshorter => hinside shorter (hshorter.trans htail)

theorem StaysInside.cons (hinside : StaysInside text)
    (hc : ∀ bracket, surplus bracket (c :: text) ≤ 0) : StaysInside (c :: text) := by
  intro tail htail
  rcases List.suffix_cons_iff.mp htail with rfl | hrest
  · exact hc
  · exact hinside tail hrest

theorem StaysInside.cons_plain (hinside : StaysInside text) (hplain : IsPlain c) :
    StaysInside (c :: text) := by
  apply hinside.cons
  intro bracket
  rw [surplus_cons, surplus_plain hplain, Int.zero_add]
  exact hinside text List.suffix_rfl bracket

end Surplus

namespace Depth

/-- The counter of a kind of bracket. -/
def counter (depth : Depth) : Bracket → Int
  | .round => depth.parens
  | .square => depth.squares
  | .curly => depth.braces

theorem leftBracket_eq_false_iff_counter {depth : Depth} :
    depth.leftBracket = false ↔ ∀ bracket, depth.counter bracket ≤ 0 := by
  rw [leftBracket_eq_false_iff]
  constructor
  · rintro ⟨hbraces, hparens, hsquares⟩ bracket
    cases bracket <;> assumption
  · intro hcounter
    exact ⟨hcounter .curly, hcounter .round, hcounter .square⟩

/-- Away from the limits of the counters, a character changes each of them by what it opens
or closes. -/
theorem counter_track {depth : Depth} (hroom : depth.HasRoom 1)
    (hleft : depth.leftBracket = false) (c : Char) (bracket : Bracket) :
    (depth.track c).counter bracket = depth.counter bracket + surplus bracket [c] := by
  by_cases hplain : IsPlain c
  · rw [track_plain hplain, surplus_plain hplain, Int.add_zero]
  · obtain ⟨kind, hc⟩ := exists_bracket_of_not_isPlain hplain
    obtain ⟨hbraces, hparens, hsquares⟩ := hroom
    obtain ⟨hbraces', hparens', hsquares'⟩ := leftBracket_eq_false_iff.mp hleft
    rcases hc with rfl | rfl
    · cases kind <;> cases bracket <;>
        simp [track, counter, surplus, Bracket.opener, Bracket.closer, raise] <;> omega
    · cases kind <;> cases bracket <;>
        simp [track, counter, surplus, Bracket.opener, Bracket.closer, lower] <;> omega

end Depth

/-- A walk that has counted the brackets of some text, right of it, and has left none that
is open at the end of the text. -/
structure Walk.Counts (walk : Walk) (crossed : List Char) : Prop where
  counter : ∀ bracket, walk.depth.counter bracket = surplus bracket crossed
  inside : StaysInside crossed

/-- A step that goes on tracks the character and leaves no bracket. -/
theorem Crosses.depth_next {code : Code} {index : Nat} {c : Char} {walk next : Walk}
    (hcrosses : Crosses code index c walk (.next next)) :
    next.depth = walk.depth.track c ∧ next.depth.leftBracket = false := by
  cases hcrosses with
  | blank hzero hblank =>
      exact ⟨(Depth.track_blank hblank _).symm, Depth.leftBracket_of_isZero hzero⟩
  | inside hleft => exact ⟨rfl, hleft⟩
  | subscript _ hzero => exact ⟨rfl, Depth.leftBracket_of_isZero hzero⟩
  | skip hzero => exact ⟨rfl, Depth.leftBracket_of_isZero hzero⟩
  | copy hzero => exact ⟨rfl, Depth.leftBracket_of_isZero hzero⟩

theorem isPlain_of_sigil {c : Char} (hsigil : c = '$' ∨ c = '@') : IsPlain c := by
  rcases hsigil with rfl | rfl <;> decide

theorem drop_append_suffix {left right : List Char} {start : Nat} (hle : left.length ≤ start) :
    (left ++ right).drop start <:+ right := by
  rw [List.drop_append, List.drop_of_length_le hle, List.nil_append]
  exact List.drop_suffix _ _

namespace Walk.Counts

variable {walk : Walk} {left crossed right : List Char} {c : Char}

theorem start (afterBlank : Bool) : (Walk.start afterBlank).Counts [] where
  counter bracket := by cases bracket <;> rfl
  inside := staysInside_nil

theorem leftBracket (hcounts : walk.Counts crossed) : walk.depth.leftBracket = false := by
  rw [Depth.leftBracket_eq_false_iff_counter]
  intro bracket
  rw [hcounts.counter]
  exact hcounts.inside crossed List.suffix_rfl bracket

theorem hasRoom (hcounts : walk.Counts crossed) (hshort : crossed.length < 0x80000000) :
    walk.depth.HasRoom 1 := by
  have hcounter : ∀ bracket, -0x80000000 + 1 ≤ walk.depth.counter bracket := by
    intro bracket
    have hsurplus := surplus_bounds bracket crossed
    rw [hcounts.counter]
    omega
  exact ⟨hcounter .curly, hcounter .round, hcounter .square⟩

theorem counter_track (hcounts : walk.Counts crossed) (hshort : crossed.length < 0x80000000)
    (c : Char) (bracket : Bracket) :
    (walk.depth.track c).counter bracket = surplus bracket (c :: crossed) := by
  rw [Depth.counter_track (hcounts.hasRoom hshort) hcounts.leftBracket, hcounts.counter,
    surplus_cons bracket c crossed, Int.add_comm]

/-- A step that goes on has counted one character more. -/
theorem next (hcounts : walk.Counts crossed) (hshort : crossed.length < 0x80000000)
    {code : Code} {index : Nat} {next : Walk} (hstep : Crosses code index c walk (.next next)) :
    next.Counts (c :: crossed) := by
  obtain ⟨hdepth, hleft⟩ := hstep.depth_next
  have hcounter : ∀ bracket, next.depth.counter bracket = surplus bracket (c :: crossed) := by
    intro bracket
    rw [hdepth, hcounts.counter_track hshort]
  refine ⟨hcounter, hcounts.inside.cons fun bracket => ?_⟩
  rw [← hcounter]
  exact Depth.leftBracket_eq_false_iff_counter.mp hleft bracket

/-- A step that ends the signature does so inside the brackets around the end of the text. -/
theorem stop (hcounts : walk.Counts crossed) {last : Walk} {start : Nat}
    (hstep : Crosses (.ofText (left ++ c :: right)) left.length c walk (.stop last start)) :
    StaysInside ((left ++ c :: crossed).drop start) := by
  -- Unless the character is a sigil, the signature starts right of it.
  have hright : left.length + 1 ≤ start → StaysInside ((left ++ c :: crossed).drop start) := by
    intro hle
    have hsplit : left ++ c :: crossed = left ++ [c] ++ crossed := by simp
    rw [hsplit]
    exact hcounts.inside.of_suffix (drop_append_suffix (by simpa using hle))
  cases hstep with
  | «break» =>
      apply hright
      rw [Code.skipBlanks_succ]
      exact Nat.le_add_right _ _
  | leave => exact hright (Nat.le_refl _)
  | boundary => exact hright (Nat.le_refl _)
  | percent _ hsigil =>
      rw [List.drop_left]
      exact hcounts.inside.cons_plain (isPlain_of_sigil hsigil)
  | sigil _ hsigil =>
      rw [List.drop_left]
      exact hcounts.inside.cons_plain (isPlain_of_sigil hsigil)
  | doubled _ hsigil hbefore =>
      rw [Code.hasBefore_append _ _ Nat.one_pos, Code.hasBefore_one, decide_eq_true_iff] at hbefore
      obtain ⟨init, rfl⟩ := List.getLast?_eq_some_iff.mp hbefore
      have hinside := hcounts.inside.cons_plain (isPlain_of_sigil (.inr hsigil))
      have hdrop : (init ++ ['@'] ++ c :: crossed).drop ((init ++ ['@']).length - 1) =
          '@' :: c :: crossed := by simp
      rw [hdrop]
      exact hinside.cons_plain (isPlain_of_sigil (.inr rfl))

end Walk.Counts

/-- What a walk leaves right of the start of its signature lies inside the brackets that are
open where the walk began. -/
theorem walkBetween_staysInside {walk : Walk} {left crossed : List Char}
    (hcounts : walk.Counts crossed) (hshort : (left ++ crossed).length < 0x80000000)
    (right : List Char) :
    StaysInside ((left ++ crossed).drop (walkBetween left (crossed ++ right) walk).start) := by
  induction left using List.reverseRecOn generalizing crossed walk with
  | nil =>
      rw [walkBetween_nil]
      exact hcounts.inside
  | append_singleton init c ih =>
      have hcrosses := @Code.stepBack_crosses (.ofText (init ++ c :: (crossed ++ right)))
        init.length c walk
      have hsplit : init ++ [c] ++ crossed = init ++ c :: crossed := by simp
      rw [hsplit] at hshort ⊢
      rw [walkBetween_concat]
      split
      next next hstep =>
        rw [hstep] at hcrosses
        refine ih (hcounts.next ?_ hcrosses) hshort
        rw [List.length_append, List.length_cons] at hshort
        omega
      next last start hstep =>
        rw [hstep] at hcrosses
        exact hcounts.stop hcrosses

theorem countParen_eq_counter (depth : Int) (c : Char) :
    countParen depth c = ((⟨0, depth, 0⟩ : Depth).track c).counter .round := by
  by_cases hplain : IsPlain c
  · have hopener : c ≠ '(' := (hplain .round).1
    have hcloser : c ≠ ')' := (hplain .round).2
    rw [Depth.track_plain hplain, countParen, if_neg hopener, if_neg hcloser]
    rfl
  · obtain ⟨kind, hc⟩ := exists_bracket_of_not_isPlain hplain
    rcases hc with rfl | rfl <;> cases kind <;> rfl

/-- Where a search for an open parenthesis stops, one more parenthesis has been opened than
closed, those that the search began with included. -/
theorem surplus_of_openParen {chars : Array Char} {depth : Int} {cursor paren : Nat}
    (hcursor : cursor ≤ chars.size) (hdepth : depth ≤ 0) (hroom : -0x80000000 + cursor ≤ depth)
    (hopen : openParen chars depth cursor = some paren) :
    depth + surplus .round ((chars.toList.take cursor).drop paren) = 1 := by
  induction cursor generalizing depth with
  | zero => contradiction
  | succ index ih =>
      have hindex : index < chars.size := hcursor
      have hlength : (chars.toList.take index).length = index := by simp [Nat.le_of_lt hindex]
      have htake : chars.toList.take (index + 1) = chars.toList.take index ++ [chars[index]] := by
        rw [List.take_succ_eq_append_getElem (by simpa using hindex), Array.getElem_toList]
      have hcount : countParen depth chars[index] = depth + surplus .round [chars[index]] := by
        rw [countParen_eq_counter, Depth.counter_track]
        · rfl
        · refine ⟨?_, ?_, ?_⟩ <;> dsimp only <;> omega
        · exact Depth.leftBracket_eq_false_iff.mpr ⟨Int.le_refl 0, hdepth, Int.le_refl 0⟩
      rw [openParen_succ (Array.getElem?_eq_getElem hindex)] at hopen
      split at hopen
      next hone =>
        obtain rfl := Option.some.inj hopen
        rw [htake, List.drop_left' hlength, ← hcount, hone]
      next hone =>
        have hbounds := surplus_bounds .round [chars[index]]
        rw [List.length_singleton] at hbounds
        have hrest := ih (Nat.le_of_lt hindex) (by omega) (by omega) hopen
        have hle : paren ≤ (chars.toList.take index).length := by
          rw [hlength]
          exact Nat.le_of_lt (openParen_lt hopen)
        rw [htake, List.drop_append_of_le_length hle, surplus_append, ← hrest, hcount]
        omega

/-- What a scan leaves right of its start lies inside the brackets around the offset. -/
theorem Code.scan_staysInside {text : List Char} (hshort : text.length < 0x80000000) {offset : Nat}
    (hoffset : offset ≤ text.length) {mode : Mode} (hmode : mode = .normal ∨ mode = .whitespace) :
    StaysInside ((text.take offset).drop ((ofText text).scan offset mode).start) := by
  have hsize : min offset (ofText text).chars.size = offset := Nat.min_eq_left hoffset
  have hlength : (text.take offset).length = offset := by simp [hoffset]
  have hbefore : (text.take offset ++ []).length < 0x80000000 := by
    rw [List.append_nil, hlength]
    exact Nat.lt_of_le_of_lt hoffset hshort
  have hwalk : ∀ afterBlank, StaysInside ((text.take offset).drop
      (min ((ofText text).walkBack (.start afterBlank) offset).start offset)) := by
    intro afterBlank
    have hinside := walkBetween_staysInside (.start afterBlank) hbefore (text.drop offset)
    rw [List.append_nil, List.nil_append, walkBetween, List.take_append_drop, hlength] at hinside
    rcases Nat.le_total ((ofText text).walkBack (.start afterBlank) offset).start offset with
      hle | hge
    · rwa [Nat.min_eq_left hle]
    · rw [Nat.min_eq_right hge, List.drop_of_length_le (Nat.le_of_eq hlength)]
      exact staysInside_nil
  rcases hmode with rfl | rfl
  · simpa only [scan, hsize] using hwalk false
  · simpa only [scan, hsize] using hwalk true

/-- A scan of code never leaves a bracket around its offset. From its start on, and from
every later place, the text before the offset opens at most as many brackets of each kind as
it closes. So if the offset stands in an argument list, the signature starts inside that
list. The text must be too short for a counter to reach its limit. -/
theorem Code.scan_within_brackets {text : List Char} (hshort : text.length < 0x80000000)
    {offset : Nat} (hoffset : offset ≤ text.length) {mode : Mode}
    (hmode : mode = .normal ∨ mode = .whitespace) :
    (∀ index, ((ofText text).scan offset mode).start ≤ index → index < offset →
      ∀ bracket : Bracket, ((text.take offset).drop index).count bracket.opener ≤
        ((text.take offset).drop index).count bracket.closer) ∧
    ∀ paren, openParenBefore text.toArray offset = some paren →
      paren < ((ofText text).scan offset mode).start := by
  have hinside := scan_staysInside hshort hoffset hmode
  have hcounts : ∀ index, ((ofText text).scan offset mode).start ≤ index →
      ∀ bracket, surplus bracket ((text.take offset).drop index) ≤ 0 := by
    intro index hle
    apply hinside
    rw [← Nat.add_sub_cancel' hle, ← List.drop_drop]
    exact List.drop_suffix _ _
  refine ⟨fun index hle _ bracket => ?_, fun paren hopen => ?_⟩
  · have hcount := hcounts index hle bracket
    rw [surplus] at hcount
    omega
  · refine Nat.lt_of_not_le fun hle => ?_
    rw [openParenBefore, List.size_toArray, Nat.min_eq_left hoffset] at hopen
    have hsurplus := surplus_of_openParen hoffset (Int.le_refl 0) (by omega) hopen
    have hcount := hcounts paren hle .round
    rw [List.toList_toArray] at hsurplus
    omega

/-- A call with a block, in a subscript that is open in an argument list. -/
def openText : List Char :=
  "f(a[g(b)\x7bc\x7d.d".toList

theorem Code.scan_within_brackets_openText :
    openText.length < 0x80000000 ∧ 13 ≤ openText.length ∧
      ((ofText openText).scan 13 .normal).start ≤ 5 ∧
      openParenBefore openText.toArray 13 = some 1 ∧
      (∀ bracket : Bracket, ((openText.take 13).drop 5).count bracket.opener ≤
        ((openText.take 13).drop 5).count bracket.closer) ∧
      1 < ((ofText openText).scan 13 .normal).start := by
  have hshort : openText.length < 0x80000000 := by decide
  have hoffset : 13 ≤ openText.length := by decide
  have hstart : ((ofText openText).scan 13 .normal).start ≤ 5 := by decide +kernel
  have hopen : openParenBefore openText.toArray 13 = some 1 := by decide +kernel
  obtain ⟨hcounts, hparen⟩ := scan_within_brackets hshort hoffset (.inl rfl)
  exact ⟨hshort, hoffset, hstart, hopen, hcounts 5 hstart (by decide), hparen 1 hopen⟩

end Caret.Chain
