import Caret.Proofs.Chain.Brackets
import Caret.Proofs.Chain.Steps
import Mathlib.Data.List.Induction

/-! # Walks over text without comments

A cursor divides a text into two parts. The walk to the left consumes the first
part from its end. Of the second part it only sees the blanks at its start and
whether a dot follows them. Each kind of piece that a chain is made of is crossed
by one lemma.
-/

namespace Caret.Chain

open Text

/-- The code of a text without comments. -/
def Code.ofText (text : List Char) : Code :=
  ⟨text.toArray, #[]⟩

/-- The walk that starts between two parts of a text. -/
def walkBetween (left right : List Char) (walk : Walk) : Signature :=
  (Code.ofText (left ++ right)).walkBack walk left.length

/-- Copy the characters that stand from `index` on. -/
def Walk.copyAll (walk : Walk) (index : Nat) : List Char → Walk
  | [] => walk
  | c :: rest => (walk.copyAll (index + 1) rest).copy index c

@[simp]
theorem Walk.copyAll_chars (walk : Walk) (index : Nat) (name : List Char) :
    (walk.copyAll index name).chars = name ++ walk.chars := by
  induction name generalizing index with
  | nil => rfl
  | cons c rest ih => simp [copyAll, copy, ih]

@[simp]
theorem Walk.copyAll_depth (walk : Walk) (index : Nat) (name : List Char) :
    (walk.copyAll index name).depth = walk.depth := by
  induction name generalizing index with
  | nil => rfl
  | cons c rest ih => simp [copyAll, copy, ih]

@[simp]
theorem Walk.copyAll_afterBlank (walk : Walk) (index : Nat) (name : List Char) :
    (walk.copyAll index name).afterBlank = walk.afterBlank := by
  induction name generalizing index with
  | nil => rfl
  | cons c rest ih => simp [copyAll, copy, ih]

/-- Whether the first character that is not blank is a dot. -/
def dotLeads (text : List Char) : Bool :=
  (text.dropWhile isBlank).head? = some '.'

namespace Code

variable {left right : List Char} {c : Char}

theorem commentHolding_ofText (text : List Char) (index : Nat) :
    (ofText text).commentHolding index = none := by
  simp [commentHolding, holding, ofText]

theorem getElem?_ofText (left right : List Char) (c : Char) :
    (ofText (left ++ c :: right)).chars[left.length]? = some c := by
  simp [ofText]

theorem runEnd_append (inClass : Char → Bool) (left right : List Char) :
    runEnd inClass (left ++ right).toArray left.length =
      left.length + (right.takeWhile inClass).length := by
  induction right generalizing left with
  | nil => simp [runEnd]
  | cons c rest ih =>
      unfold runEnd
      by_cases hclass : inClass c
      · have hrest := ih (left ++ [c])
        simp only [List.append_assoc, List.singleton_append, List.length_append,
          List.length_singleton] at hrest
        simp [hclass, hrest]
        omega
      · simp [hclass]

theorem skipBlanks_ofText (left right : List Char) :
    (ofText (left ++ right)).skipBlanks left.length =
      left.length + (right.takeWhile isBlank).length := by
  unfold skipBlanks
  dsimp only
  split
  next comment hfound => simp [commentHolding_ofText] at hfound
  next => exact runEnd_append isBlank left right

theorem continuesChain_ofText (left right : List Char) :
    (ofText (left ++ right)).continuesChain left.length = dotLeads right := by
  have hnext : (left ++ right)[left.length + (right.takeWhile isBlank).length]? =
      (right.dropWhile isBlank).head? := by
    rw [List.getElem?_append_right (Nat.le_add_right _ _), Nat.add_sub_cancel_left,
      ← List.head?_drop]
    congr 1
    induction right with
    | nil => rfl
    | cons c rest ih => by_cases hblank : isBlank c <;> simp [hblank, ih]
  rw [continuesChain, skipBlanks_ofText, dotLeads, ← hnext]
  simp [ofText]

theorem skipBlanks_succ (left right : List Char) (c : Char) :
    (ofText (left ++ c :: right)).skipBlanks (left.length + 1) =
      left.length + 1 + (right.takeWhile isBlank).length := by
  simpa using skipBlanks_ofText (left ++ [c]) right

theorem continuesChain_succ (left right : List Char) (c : Char) :
    (ofText (left ++ c :: right)).continuesChain (left.length + 1) = dotLeads right := by
  simpa using continuesChain_ofText (left ++ [c]) right

/-- What stands before a cursor does not depend on what follows it. -/
theorem hasBefore_append (left right : List Char) {distance : Nat} (hpos : 0 < distance) :
    (ofText (left ++ right)).hasBefore left.length distance c =
      (ofText left).hasBefore left.length distance c := by
  simp only [hasBefore, ofText, List.getElem?_toArray]
  by_cases hle : distance ≤ left.length
  · rw [List.getElem?_append_left (by omega)]
  · simp [hle]

theorem hasBefore_one (left : List Char) (c : Char) :
    (ofText left).hasBefore left.length 1 c = decide (left.getLast? = some c) := by
  rw [List.getLast?_eq_getElem?]
  cases left with
  | nil => simp [hasBefore]
  | cons first rest => simp [hasBefore, ofText]

theorem hasBefore_two (left : List Char) (c : Char) :
    (ofText left).hasBefore left.length 2 c = decide (left.dropLast.getLast? = some c) := by
  rcases List.eq_nil_or_concat left with rfl | ⟨init, last, rfl⟩
  · simp [hasBefore]
  · rw [List.concat_eq_append, List.dropLast_concat, ← hasBefore_one,
      ← hasBefore_append init [last] Nat.one_pos]
    simp [hasBefore]

variable {walk : Walk}

/-- A character is crossed unless it is a blank outside all brackets, or the walk
ends there because blanks follow and no dot stands on their sides. -/
theorem stepBack_eq_crossChar (hblank : walk.depth.isZero = false ∨ isBlank c = false)
    (hgoes : walk.depth.isZero = false ∨ walk.afterBlank = false ∨ c = '.' ∨ dotLeads right) :
    (ofText (left ++ c :: right)).stepBack left.length c walk =
      (ofText (left ++ c :: right)).crossChar left.length c walk := by
  unfold stepBack
  rw [if_neg, if_neg]
  · rw [continuesChain_succ]
    rcases hgoes with hinside | hafter | hdot | hleads <;> simp [*]
  · rcases hblank with hinside | hchar <;> simp [*]

end Code

theorem walkBetween_nil (right : List Char) (walk : Walk) :
    walkBetween [] right walk = walk.finish 0 := by
  simp [walkBetween, Code.walkBack]

/-- The walk consumes the last character of the first part. -/
theorem walkBetween_concat (left right : List Char) (c : Char) (walk : Walk) :
    walkBetween (left ++ [c]) right walk =
      match (Code.ofText (left ++ c :: right)).stepBack left.length c walk with
      | .next next => walkBetween left (c :: right) next
      | .stop last start => last.finish start := by
  have hstep := @Code.walkBack_step _ _ _ walk (Code.getElem?_ofText left right c)
    (Code.commentHolding_ofText _ left.length)
  rw [walkBetween, List.length_append, List.append_assoc]
  exact hstep

theorem Group.getLast?_text (group : Group) (left : List Char) :
    (left ++ group.text).getLast? = some group.bracket.closer := by
  have hsplit : left ++ group.text =
      left ++ group.bracket.opener :: group.inner ++ [group.bracket.closer] := by simp [text]
  rw [hsplit, List.getLast?_concat]

theorem getLast?_append_ne {left right : List Char} {c : Char} (hleft : left.getLast? ≠ some c)
    (hright : c ∉ right) : (left ++ right).getLast? ≠ some c := by
  intro heq
  rw [List.getLast?_append] at heq
  cases hlast : right.getLast? with
  | none =>
      rw [hlast] at heq
      exact hleft heq
  | some last =>
      rw [hlast] at heq
      obtain rfl := Option.some.inj heq
      exact hright (List.mem_of_getLast? hlast)

theorem percent_not_mem_of_blanks {blanks : List Char} (hblanks : ∀ c ∈ blanks, isBlank c) :
    '%' ∉ blanks := fun hmem => absurd (hblanks _ hmem) (by decide)

section Pieces

variable {left right : List Char} {walk : Walk}

/-- Inside a bracket pair every character is passed over. -/
theorem walkBetween_inside {c : Char} (hinside : walk.depth.isZero = false)
    (hleft : (walk.depth.track c).leftBracket = false)
    (hzero : (walk.depth.track c).isZero = false) :
    walkBetween (left ++ [c]) right walk = walkBetween left (c :: right) (walk.past c) := by
  rw [walkBetween_concat, Code.stepBack_eq_crossChar (.inl hinside) (.inl hinside),
    Code.crossChar_inside hleft hzero]

theorem walkBetween_closer {bracket : Bracket} (hleft : walk.depth.leftBracket = false)
    (hgoes : walk.depth.isZero = false ∨ walk.afterBlank = false ∨ dotLeads right) :
    walkBetween (left ++ [bracket.closer]) right walk =
      walkBetween left (bracket.closer :: right) (walk.past bracket.closer) := by
  obtain ⟨hzero, hcloserleft⟩ := Depth.track_closer hleft bracket
  have hblank : isBlank bracket.closer = false := by cases bracket <;> rfl
  rw [walkBetween_concat, Code.stepBack_eq_crossChar (.inr hblank),
    Code.crossChar_inside hcloserleft hzero]
  exact hgoes.imp_right fun h => h.imp_right .inr

/-- A walk inside a bracket pair crosses balanced text of any content and is as
before on its far side. -/
theorem walkBetween_nested {inner : List Char} (hnested : Nested inner)
    (hinside : walk.depth.isZero = false) (hleft : walk.depth.leftBracket = false)
    (hroom : walk.depth.HasRoom inner.length) (hafter : walk.afterBlank = false) :
    walkBetween (left ++ inner) right walk = walkBetween left (inner ++ right) walk := by
  induction hnested generalizing left right walk with
  | nil => simp
  | @plain c rest hplain hrest ih =>
      have hdepth : walk.depth.track c = walk.depth := Depth.track_plain hplain
      have hpast : walk.past c = walk := by rw [Walk.past, hdepth, ← hafter]
      have hnextleft : (walk.depth.track c).leftBracket = false := by rwa [hdepth]
      have hnextzero : (walk.depth.track c).isZero = false := by rwa [hdepth]
      have hrestroom := hroom.mono (Nat.le_succ rest.length)
      have hsplit : left ++ c :: rest = (left ++ [c]) ++ rest := by simp
      rw [hsplit, ih hinside hleft hrestroom hafter, walkBetween_inside hinside hnextleft hnextzero,
        hpast]
      rfl
  | @pair bracket inner rest hinner hrest ihinner ihrest =>
      obtain ⟨hcloserzero, hcloserleft⟩ : (walk.past bracket.closer).depth.isZero = false ∧
          (walk.past bracket.closer).depth.leftBracket = false :=
        Depth.track_closer hleft bracket
      simp only [List.length_cons, List.length_append] at hroom
      have hinnerroom : (walk.past bracket.closer).depth.HasRoom inner.length :=
        (hroom.mono (by omega : inner.length + 1 ≤ _)).track_closer bracket
      have hdepth := Depth.track_opener_track_closer hleft (hroom.mono (by omega)) bracket
      have hback : (walk.past bracket.closer).past bracket.opener = walk := by
        rw [Walk.past, Walk.past, hdepth, ← hafter]
      have hnextleft : ((walk.past bracket.closer).depth.track bracket.opener).leftBracket =
          false := by rwa [Walk.past, hdepth]
      have hnextzero : ((walk.past bracket.closer).depth.track bracket.opener).isZero = false := by
        rwa [Walk.past, hdepth]
      -- The walk meets the rest first, then the closer, the inner text and the opener.
      have hsplit : left ++ bracket.opener :: (inner ++ bracket.closer :: rest) =
          left ++ [bracket.opener] ++ inner ++ [bracket.closer] ++ rest := by simp
      rw [hsplit, ihrest hinside hleft (hroom.mono (by omega)) hafter,
        walkBetween_closer hleft (.inl hinside),
        ihinner hcloserzero hcloserleft hinnerroom rfl,
        walkBetween_inside hcloserzero hnextleft hnextzero, hback]
      simp

/-- Where an opener leads out of all brackets, its pair leaves its mark. -/
theorem walkBetween_opener {bracket : Bracket} (hzero : (walk.depth.track bracket.opener).isZero)
    (hafter : walk.afterBlank = false)
    (hpercent : bracket = .square → left.dropLast.getLast? ≠ some '%') :
    walkBetween (left ++ [bracket.opener]) right walk =
      walkBetween left (bracket.opener :: right)
        { walk.past bracket.opener with chars := bracket.mark ++ walk.chars } := by
  have hblank : isBlank bracket.opener = false := by cases bracket <;> rfl
  rw [walkBetween_concat, Code.stepBack_eq_crossChar (.inr hblank) (.inr (.inl hafter))]
  cases bracket with
  | round =>
      rw [Code.crossChar_outside hzero rfl (.inl (by decide)),
        Code.takeChar_of_not_signatureChar (by decide)]
      rfl
  | square =>
      have hbefore : (Code.ofText (left ++ '[' :: right)).hasBefore left.length 2 '%' = false := by
        rw [Code.hasBefore_append _ _ Nat.two_pos, Code.hasBefore_two]
        exact decide_eq_false (hpercent rfl)
      rw [Bracket.opener, Code.crossChar_subscript hzero hbefore]
      rfl
  | curly =>
      rw [Code.crossChar_outside hzero rfl (.inl (by decide)),
        Code.takeChar_of_not_signatureChar (by decide)]
      rfl

/-- Outside all brackets a bracket pair of any content leaves its mark. -/
theorem walkBetween_group (group : Group) (hzero : walk.depth.isZero)
    (hshort : group.text.length < 0x80000000)
    (hgoes : walk.afterBlank = false ∨ dotLeads right)
    (hpercent : group.bracket = .square → left.dropLast.getLast? ≠ some '%') :
    walkBetween (left ++ group.text) right walk =
      walkBetween left (group.text ++ right)
        { walk with chars := group.bracket.mark ++ walk.chars, afterBlank := false } := by
  obtain ⟨bracket, inner, hnested⟩ := group
  have hleft := Depth.leftBracket_of_isZero hzero
  obtain ⟨hcloserzero, hcloserleft⟩ : (walk.past bracket.closer).depth.isZero = false ∧
      (walk.past bracket.closer).depth.leftBracket = false :=
    Depth.track_closer hleft bracket
  have hroom : walk.depth.HasRoom (inner.length + 1) := by
    rw [Depth.isZero_iff.mp hzero]
    simp only [Group.text, List.length_cons, List.length_append] at hshort
    exact Depth.hasRoom_zero (by omega)
  have hinnerroom : (walk.past bracket.closer).depth.HasRoom inner.length :=
    hroom.track_closer bracket
  have hdepth := Depth.track_opener_track_closer hleft (hroom.mono (by omega)) bracket
  have hnextzero : ((walk.past bracket.closer).depth.track bracket.opener).isZero := by
    rwa [Walk.past, hdepth]
  have hsplit : left ++ Group.text ⟨bracket, inner, hnested⟩ =
      left ++ [bracket.opener] ++ inner ++ [bracket.closer] := by simp [Group.text]
  rw [hsplit, walkBetween_closer hleft (.inr hgoes),
    walkBetween_nested hnested hcloserzero hcloserleft hinnerroom rfl,
    walkBetween_opener hnextzero rfl hpercent]
  simp [Walk.past, hdepth, Group.text]

theorem isPlain_of_copied {c : Char} (hchar : isWordChar c ∨ c = '.') : IsPlain c := by
  intro bracket
  constructor <;> rintro rfl <;> cases bracket <;> revert hchar <;> decide

theorem classes_of_copied {c : Char} (hchar : isWordChar c ∨ c = '.') :
    isBlank c = false ∧ isBoundary c = false ∧ isSignatureChar c ∧ c ≠ '[' ∧ c ≠ '$' ∧ c ≠ '@' := by
  have hne : ∀ d, ¬(isWordChar d ∨ d = '.') → c ≠ d := fun d hd heq => hd (heq ▸ hchar)
  refine ⟨?_, ?_, ?_, hne _ (by decide), hne _ (by decide), hne _ (by decide)⟩
  · simp [isBlank, hne ' ' (by decide), hne '\t' (by decide), hne '\n' (by decide),
      hne '\r' (by decide)]
  · simp [isBoundary, hne '"' (by decide), hne '\'' (by decide), hne ',' (by decide),
      hne ';' (by decide), hne '%' (by decide)]
  · rcases hchar with hword | rfl
    · simp only [isWordChar, Bool.or_eq_true, decide_eq_true_eq] at hword
      rcases hword with halphanum | rfl
      · simp [isSignatureChar, halphanum]
      · rfl
    · rfl

/-- A character of a name and a dot are copied, unless a percent sign stands before. -/
theorem walkBetween_copy {c : Char} (hchar : isWordChar c ∨ c = '.') (hzero : walk.depth.isZero)
    (hgoes : walk.afterBlank = false ∨ c = '.' ∨ dotLeads right)
    (hpercent : left.getLast? ≠ some '%') :
    walkBetween (left ++ [c]) right walk =
      walkBetween left (c :: right) ((walk.past c).copy left.length c) := by
  have hzero : (walk.depth.track c).isZero := by rwa [Depth.track_plain (isPlain_of_copied hchar)]
  have hbefore : (Code.ofText (left ++ c :: right)).hasBefore left.length 1 '%' = false := by
    rw [Code.hasBefore_append _ _ Nat.one_pos, Code.hasBefore_one]
    exact decide_eq_false hpercent
  obtain ⟨hblank, hboundary, hsignature, hopener, hdollar, hat⟩ := classes_of_copied hchar
  rw [walkBetween_concat, Code.stepBack_eq_crossChar (.inr hblank) (.inr hgoes),
    Code.crossChar_outside hzero hboundary (.inl hopener)]
  simp [Code.takeChar, hsignature, hbefore, hdollar, hat]

theorem walkBetween_copied {copied : List Char} (hcopied : ∀ c ∈ copied, isWordChar c ∨ c = '.')
    (hzero : walk.depth.isZero) (hafter : walk.afterBlank = false)
    (hpercent : left.getLast? ≠ some '%') :
    walkBetween (left ++ copied) right walk =
      walkBetween left (copied ++ right) (walk.copyAll left.length copied) := by
  induction copied generalizing left with
  | nil => simp [Walk.copyAll]
  | cons c rest ih =>
      -- The rest is crossed first, with its first character on the left.
      obtain ⟨hc, hrest⟩ := List.forall_mem_cons.mp hcopied
      have hlast : (left ++ [c]).getLast? ≠ some '%' := by
        rw [List.getLast?_concat, ne_eq, Option.some_inj]
        rintro rfl
        revert hc
        decide
      have hsplit : left ++ c :: rest = left ++ [c] ++ rest := by simp
      have hpast : (walk.copyAll (left.length + 1) rest).past c =
          walk.copyAll (left.length + 1) rest := by
        rw [Walk.past, Depth.track_plain (isPlain_of_copied hc), ← hafter,
          ← walk.copyAll_afterBlank (left.length + 1) rest]
      rw [hsplit, ih hrest hlast, List.length_append, List.length_singleton,
        walkBetween_copy hc (by simpa using hzero) (.inl (by simpa using hafter)) hpercent,
        hpast]
      rfl

theorem walkBetween_word {name : List Char} (hname : ∀ c ∈ name, isWordChar c)
    (hzero : walk.depth.isZero) (hafter : walk.afterBlank = false)
    (hpercent : left.getLast? ≠ some '%') :
    walkBetween (left ++ name) right walk =
      walkBetween left (name ++ right) (walk.copyAll left.length name) :=
  walkBetween_copied (fun c hc => .inl (hname c hc)) hzero hafter hpercent

/-- Outside all brackets blanks are passed over and remembered. -/
theorem walkBetween_blanks {blanks : List Char} (hblanks : ∀ c ∈ blanks, isBlank c)
    (hzero : walk.depth.isZero) :
    walkBetween (left ++ blanks) right walk =
      walkBetween left (blanks ++ right)
        { walk with afterBlank := walk.afterBlank || !blanks.isEmpty } := by
  induction blanks generalizing left with
  | nil => simp
  | cons c rest ih =>
      obtain ⟨hc, hrest⟩ := List.forall_mem_cons.mp hblanks
      have hsplit : left ++ c :: rest = left ++ [c] ++ rest := by simp
      rw [hsplit, ih hrest, walkBetween_concat]
      simp [Code.stepBack, hzero, hc]

/-- Outside all brackets a dot is crossed with the blanks around it and the name after
it. Only the dot and the name are copied. -/
theorem walkBetween_dotted {before after name : List Char} (hbefore : ∀ c ∈ before, isBlank c)
    (hafter : ∀ c ∈ after, isBlank c) (hname : ∀ c ∈ name, isWordChar c)
    (hzero : walk.depth.isZero) (hblank : walk.afterBlank = false)
    (hleft : left.getLast? ≠ some '%') :
    ∃ next, walkBetween (left ++ before ++ '.' :: (after ++ name)) right walk =
        walkBetween left (before ++ '.' :: (after ++ name) ++ right) next ∧
      next.depth.isZero ∧ next.chars = '.' :: name ++ walk.chars ∧
        next.afterBlank = !before.isEmpty := by
  have hlast : (left ++ before).getLast? ≠ some '%' :=
    getLast?_append_ne hleft (percent_not_mem_of_blanks hbefore)
  have hdot : (left ++ before ++ ['.']).getLast? ≠ some '%' :=
    getLast?_append_ne hlast (by decide)
  have hblanks : (left ++ before ++ ['.'] ++ after).getLast? ≠ some '%' :=
    getLast?_append_ne hdot (percent_not_mem_of_blanks hafter)
  have hsplit : left ++ before ++ '.' :: (after ++ name) =
      left ++ before ++ ['.'] ++ after ++ name := by simp
  rw [hsplit, walkBetween_word hname hzero hblank hblanks]
  generalize hnamed : walk.copyAll _ name = named
  have hnamedzero : named.depth.isZero := by rwa [← hnamed, Walk.copyAll_depth]
  have hchars : named.chars = name ++ walk.chars := by rw [← hnamed, Walk.copyAll_chars]
  rw [walkBetween_blanks hafter hnamedzero,
    walkBetween_copy (.inr rfl) ?_ (.inr (.inl rfl)) hlast, walkBetween_blanks hbefore]
  · refine ⟨⟨some (left ++ before).length, '.' :: named.chars, named.depth, !before.isEmpty⟩,
      ?_, hnamedzero, ?_, rfl⟩
    · simp [Walk.copy, Walk.past, Depth.track]
    · rw [hchars]
      rfl
  · exact hnamedzero
  · exact hnamedzero

end Pieces

/-- A signature does not start right of the text. -/
theorem walkBetween_start_le {left right : List Char} {walk : Walk} :
    (walkBetween left right walk).start ≤ left.length + right.length := by
  induction left using List.reverseRecOn generalizing right walk with
  | nil =>
      rw [walkBetween_nil]
      exact Nat.zero_le _
  | append_singleton init c ih =>
      rw [walkBetween_concat, List.length_append, List.length_singleton]
      split
      next next hstep =>
        have hrest := @ih (c :: right) next
        rw [List.length_cons] at hrest
        omega
      next last start hstep =>
        have hcrosses := hstep ▸ Code.stepBack_crosses
        show start ≤ _
        cases hcrosses with
        | «break» =>
            have hblanks := (List.takeWhile_prefix isBlank (l := right)).length_le
            rw [Code.skipBlanks_succ]
            omega
        | leave => omega
        | boundary => omega
        | percent => omega
        | sigil => omega
        | doubled => omega

/-- The signature that ends where a text without comments ends. -/
def endSignature (text : List Char) : Signature :=
  (Code.ofText text).scan text.length .normal

theorem endSignature_eq (text : List Char) :
    endSignature text = walkBetween text [] (.start false) := by
  have hstart := @walkBetween_start_le text [] (.start false)
  have hsize : (Code.ofText text).chars.size = text.length := by simp [Code.ofText]
  rw [endSignature, Code.scan, hsize]
  simp only [walkBetween, List.append_nil, List.length_nil, Nat.add_zero, Nat.min_self] at hstart ⊢
  rw [Nat.min_eq_left hstart]

end Caret.Chain
