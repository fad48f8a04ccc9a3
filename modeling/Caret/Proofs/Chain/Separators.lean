import Caret.Proofs.Chain.Decomposition
import Mathlib.Algebra.Group.Nat.Even
import Mathlib.Data.List.Infix
import Mathlib.Data.Nat.Find

/-! # The last separator of a signature

Dots and double colons separate the segments of a signature. Its base ends before the last
dot, or before the last double colon where there is no dot and the colons are read in pairs
from the left. So the base is not always what stands before the separator that ends last: a
double colon after a dot does not count, and of an odd number of colons one belongs to the
last segment.
-/

namespace Caret.Chain

inductive Separator where
  | dot
  | colons
deriving DecidableEq, Repr

namespace Separator

def chars : Separator → List Char
  | dot => ['.']
  | colons => [':', ':']

/-- Whether a separator stands in a signature so that it ends at a limit. -/
def EndsAt (separator : Separator) (signature : List Char) (limit : Nat) : Prop :=
  limit ≤ signature.length ∧ separator.chars <:+ signature.take limit

instance (separator : Separator) (signature : List Char) (limit : Nat) :
    Decidable (separator.EndsAt signature limit) :=
  inferInstanceAs (Decidable (_ ∧ _))

end Separator

/-- Whether a separator stands anywhere in a signature. -/
def Separated (signature : List Char) : Prop :=
  ∃ (separator : Separator) (limit : Nat), separator.EndsAt signature limit

/-- A signature cut at the separator that ends last in it. -/
structure LastCut (signature before : List Char) (separator : Separator) (last : List Char) :
    Prop where
  cut : signature = before ++ separator.chars ++ last
  latest : ∀ (other : Separator) (limit : Nat), other.EndsAt signature limit →
    limit ≤ (before ++ separator.chars).length

instance (signature before last : List Char) (separator : Separator) :
    Decidable (LastCut signature before separator last) :=
  decidable_of_iff (signature = before ++ separator.chars ++ last ∧
      ∀ other ∈ [Separator.dot, .colons], ∀ limit ≤ signature.length,
        other.EndsAt signature limit → limit ≤ (before ++ separator.chars).length)
    ⟨fun h => ⟨h.1, fun other limit hends =>
        h.2 other (by cases other <;> decide) limit hends.1 hends⟩,
      fun h => ⟨h.cut, fun other _ limit _ => h.latest other limit⟩⟩

/-- The number of colons that a text ends in. -/
def colonsAtEnd (text : List Char) : Nat :=
  (text.reverse.takeWhile (· = ':')).length

section Colons

theorem beforeLastColons_pair (rest : List Char) :
    beforeLastColons (':' :: ':' :: rest) =
      some (((beforeLastColons rest).map ([':', ':'] ++ ·)).getD []) := by
  rw [beforeLastColons, if_pos ⟨rfl, rfl⟩]
  cases beforeLastColons rest <;> rfl

theorem beforeLastColons_skip {c d : Char} (hpair : ¬ (c = ':' ∧ d = ':')) (rest : List Char) :
    beforeLastColons (c :: d :: rest) = (beforeLastColons (d :: rest)).map (c :: ·) := by
  rw [beforeLastColons, if_neg hpair]

theorem beforeLastColons_eq_none {text : List Char} (hnone : ¬ [':', ':'] <:+: text) :
    beforeLastColons text = none := by
  induction text with
  | nil => rfl
  | cons c rest ih =>
      have hrest := ih fun hinfix => hnone (List.infix_cons hinfix)
      cases rest with
      | nil => rfl
      | cons d rest =>
          have hpair : ¬ (c = ':' ∧ d = ':') := by
            rintro ⟨rfl, rfl⟩
            exact hnone ⟨[], rest, rfl⟩
          rw [beforeLastColons_skip hpair, hrest, Option.map_none]

theorem colonsAtEnd_cons (c : Char) (rest : List Char) :
    colonsAtEnd (c :: rest) =
      if colonsAtEnd rest = rest.length ∧ c = ':' then rest.length + 1 else colonsAtEnd rest := by
  rw [colonsAtEnd, colonsAtEnd, List.reverse_cons, List.takeWhile_append, List.length_reverse]
  by_cases hall : (rest.reverse.takeWhile (· = ':')).length = rest.length
  · rw [if_pos hall]
    by_cases hc : c = ':'
    · simp [hall, hc]
    · simp [hall, hc]
  · simp [hall]

theorem colonsAtEnd_le (text : List Char) : colonsAtEnd text ≤ text.length := by
  have hle := (List.takeWhile_prefix (· = ':') (l := text.reverse)).length_le
  rwa [List.length_reverse] at hle

theorem colonsAtEnd_cons_of_ne {c d : Char} (hpair : ¬ (c = ':' ∧ d = ':')) (rest : List Char) :
    colonsAtEnd (c :: d :: rest) = colonsAtEnd (d :: rest) := by
  rw [colonsAtEnd_cons, if_neg]
  rintro ⟨hall, rfl⟩
  rw [colonsAtEnd_cons] at hall
  split at hall
  next hd => exact hpair ⟨rfl, hd.2⟩
  next hd =>
    have hle := colonsAtEnd_le rest
    rw [List.length_cons] at hall
    omega

/-- Two colons in front do not change whether the colons at the end can be read in pairs. -/
theorem even_colonsAtEnd_pair (rest : List Char) :
    Even (colonsAtEnd (':' :: ':' :: rest)) ↔ Even (colonsAtEnd rest) := by
  have hle := colonsAtEnd_le rest
  rw [colonsAtEnd_cons, colonsAtEnd_cons, List.length_cons]
  by_cases hall : colonsAtEnd rest = rest.length
  · simp [hall, Nat.even_add_one]
  · have hskip : ¬ (colonsAtEnd rest = rest.length ∧ ':' = ':') := fun h => hall h.1
    rw [if_neg hskip, if_neg (by omega)]

theorem dropLast_append_colon {text : List Char} (hcolons : colonsAtEnd text ≠ 0) :
    text.dropLast ++ [':'] = text := by
  rcases List.eq_nil_or_concat text with rfl | ⟨init, c, rfl⟩
  · contradiction
  · have hc : c = ':' := by
      by_contra hc
      simp [colonsAtEnd, hc] at hcolons
    rw [hc, List.concat_eq_append, List.dropLast_concat]

/-- The last pair of colons that is read, where no two colons follow it. One colon is left
over before it if their number is odd. -/
theorem beforeLastColons_append {last : List Char} (hlast : ¬ [':', ':'] <:+: ':' :: last) :
    ∀ before : List Char, beforeLastColons (before ++ ':' :: ':' :: last) =
      some (if Even (colonsAtEnd before) then before else before.dropLast)
  | [] => by
      have hnone := beforeLastColons_eq_none fun hinfix => hlast (List.infix_cons hinfix)
      rw [List.nil_append, beforeLastColons_pair, hnone]
      rfl
  | [c] => by
      rw [List.singleton_append]
      by_cases hc : c = ':'
      · subst hc
        rw [beforeLastColons_pair, beforeLastColons_eq_none hlast]
        rfl
      · have heven : Even (colonsAtEnd [c]) := by simp [colonsAtEnd, hc]
        have hnil := beforeLastColons_append hlast []
        rw [List.nil_append] at hnil
        rw [beforeLastColons_skip (fun h => hc h.1), hnil, if_pos heven]
        rfl
  | c :: d :: rest => by
      rw [List.cons_append, List.cons_append]
      by_cases hpair : c = ':' ∧ d = ':'
      · obtain ⟨rfl, rfl⟩ := hpair
        rw [beforeLastColons_pair, beforeLastColons_append hlast rest]
        simp only [even_colonsAtEnd_pair]
        split
        next => rfl
        next hodd =>
          have hne : rest ≠ [] := by
            rintro rfl
            exact hodd Even.zero
          simp [List.dropLast_cons_of_ne_nil, hne]
      · have hrest := beforeLastColons_append hlast (d :: rest)
        rw [List.cons_append] at hrest
        rw [beforeLastColons_skip hpair, hrest, colonsAtEnd_cons_of_ne hpair]
        split <;> rfl

end Colons

section Cut

variable {signature before last : List Char} {separator : Separator}

theorem endsAt_append (separator : Separator) (left right : List Char) :
    separator.EndsAt (left ++ separator.chars ++ right) (left ++ separator.chars).length := by
  refine ⟨(List.prefix_append _ _).length_le, ?_⟩
  rw [List.take_left]
  exact List.suffix_append _ _

theorem exists_append_of_endsAt {limit : Nat} (hends : separator.EndsAt signature limit) :
    ∃ before last, signature = before ++ separator.chars ++ last ∧
      (before ++ separator.chars).length = limit := by
  obtain ⟨hle, before, hbefore⟩ := hends
  refine ⟨before, signature.drop limit, ?_, ?_⟩
  · rw [hbefore, List.take_append_drop]
  · rw [hbefore, List.length_take, Nat.min_eq_left hle]

namespace LastCut

variable (hcut : LastCut signature before separator last)
include hcut

/-- No separator has less behind it than the last one. -/
theorem length_le {front back : List Char} {other : Separator}
    (hsplit : signature = front ++ other.chars ++ back) : last.length ≤ back.length := by
  have hlatest := hcut.latest other _ (hsplit ▸ endsAt_append other front back)
  have hlength := congrArg List.length (hcut.cut.symm.trans hsplit)
  simp only [List.length_append] at hlength hlatest
  omega

theorem dot_not_mem : '.' ∉ last := by
  intro hmem
  obtain ⟨front, back, rfl⟩ := List.append_of_mem hmem
  have hsplit : signature =
      (before ++ separator.chars ++ front) ++ Separator.dot.chars ++ back := by
    rw [hcut.cut]
    simp [Separator.chars]
  have hle := hcut.length_le hsplit
  rw [List.length_append, List.length_cons] at hle
  omega

/-- The two colons are the last two that stand together, also if a third one follows. -/
theorem colons_not_infix (hcolons : separator = .colons) : ¬ [':', ':'] <:+: ':' :: last := by
  rintro ⟨front, back, hinfix⟩
  have hsplit : signature = (before ++ [':'] ++ front) ++ Separator.colons.chars ++ back := by
    rw [hcut.cut, hcolons]
    simpa [Separator.chars] using congrArg (before ++ ':' :: ·) hinfix.symm
  have hle := hcut.length_le hsplit
  have hlength := congrArg List.length hinfix
  simp only [List.length_append, List.length_cons, List.length_nil] at hlength
  omega

/-- What stands before a last dot is the base. -/
theorem base_of_dot (hdot : separator = .dot) : base signature = before := by
  have hsplit : signature = before ++ '.' :: last := by
    rw [hcut.cut, hdot]
    simp [Separator.chars]
  rw [hsplit, base_append_cons before hcut.dot_not_mem]

/-- Where a dot stands before the last double colon, the base ends at the last dot. -/
theorem base_of_dot_mem (hcolons : separator = .colons) (hmem : '.' ∈ before) :
    ∃ rest, '.' ∉ rest ∧ before = base signature ++ '.' :: rest := by
  obtain ⟨receiver, rest, rfl, hrest⟩ := exists_last_dot hmem
  have hsplit : signature = receiver ++ '.' :: (rest ++ [':', ':'] ++ last) := by
    rw [hcut.cut, hcolons]
    simp [Separator.chars]
  have hafter : '.' ∉ rest ++ [':', ':'] ++ last := by simp [hrest, hcut.dot_not_mem]
  refine ⟨rest, hrest, ?_⟩
  rw [hsplit, base_append_cons receiver hafter]

/-- Without dots the base ends at the last double colon, or one colon before it. -/
theorem base_of_colons (hcolons : separator = .colons) (hmem : '.' ∉ before) :
    base signature =
      if last = [] ∨ Even (colonsAtEnd before) then before else before.dropLast := by
  have hsplit : signature = before ++ ':' :: ':' :: last := by
    rw [hcut.cut, hcolons]
    simp [Separator.chars]
  have hnone : beforeLastDot signature = none := by
    refine beforeLastDot_eq_none ?_
    rw [hsplit]
    simp [hmem, hcut.dot_not_mem]
  rw [base, hnone]
  dsimp only
  by_cases hlast : last = []
  · subst hlast
    have hsuffix : [':', ':'].isSuffixOf signature := by
      rw [List.isSuffixOf_iff_suffix]
      exact ⟨before, hsplit.symm⟩
    rw [if_pos hsuffix, if_pos (.inl rfl), hsplit]
    simp
  · have hsuffix : ¬ [':', ':'].isSuffixOf signature := by
      rw [List.isSuffixOf_iff_suffix]
      rintro ⟨front, hend⟩
      have hfront : signature = front ++ Separator.colons.chars ++ [] := by
        rw [List.append_nil]
        exact hend.symm
      exact hlast (List.eq_nil_of_length_eq_zero (Nat.le_zero.mp (hcut.length_le hfront)))
    rw [if_neg hsuffix, hsplit, beforeLastColons_append (hcut.colons_not_infix hcolons)]
    simp [hlast]

end LastCut

end Cut

section Separated

variable {signature : List Char}

/-- One of the separators of a signature ends last. -/
theorem Separated.exists_lastCut (hseparated : Separated signature) :
    ∃ before separator last, LastCut signature before separator last := by
  classical
  obtain ⟨first, limit, hfirst⟩ := hseparated
  obtain ⟨separator, hends⟩ := Nat.findGreatest_spec
    (P := fun limit => ∃ separator : Separator, separator.EndsAt signature limit)
    hfirst.1 ⟨first, hfirst⟩
  obtain ⟨before, last, hcut, hlimit⟩ := exists_append_of_endsAt hends
  refine ⟨before, separator, last, hcut, fun other limit hother => ?_⟩
  rw [hlimit]
  exact Nat.le_findGreatest hother.1 ⟨other, hother⟩

theorem base_of_not_separated (hnone : ¬ Separated signature) : base signature = [] := by
  have hapart : ∀ (separator : Separator) front back,
      signature ≠ front ++ separator.chars ++ back := by
    rintro separator front back rfl
    exact hnone ⟨separator, _, endsAt_append separator front back⟩
  have hdot : beforeLastDot signature = none := by
    refine beforeLastDot_eq_none fun hmem => ?_
    obtain ⟨front, back, hsplit⟩ := List.append_of_mem hmem
    exact hapart .dot front back (by simpa [Separator.chars] using hsplit)
  have hcolons : ¬ [':', ':'] <:+: signature := by
    rintro ⟨front, back, hsplit⟩
    exact hapart .colons front back hsplit.symm
  have hsuffix : ¬ [':', ':'].isSuffixOf signature := by
    rw [List.isSuffixOf_iff_suffix]
    exact fun hend => hcolons hend.isInfix
  rw [base, hdot]
  dsimp only
  rw [if_neg hsuffix, beforeLastColons_eq_none hcolons, Option.getD_none]

end Separated

/-- What stands before the separator that ends last in a signature is its base, unless the
separator is a double colon with a dot before it, or one of an odd number of colons before
some other text. In the first case the base ends before the dot, in the second it lacks a
colon. Without separators the base is empty. -/
theorem base_of_lastCut (signature : List Char) :
    (¬ Separated signature → base signature = []) ∧
    (Separated signature → ∃ before separator last, LastCut signature before separator last) ∧
    ∀ before separator last, LastCut signature before separator last →
      (base signature = before ↔
        separator = .dot ∨ '.' ∉ before ∧ (last = [] ∨ Even (colonsAtEnd before))) ∧
      (base signature ≠ before →
        (∃ rest, '.' ∉ rest ∧ before = base signature ++ '.' :: rest) ∨
          '.' ∉ before ∧ before = base signature ++ [':']) := by
  refine ⟨base_of_not_separated, Separated.exists_lastCut, ?_⟩
  intro before separator last hcut
  cases hseparator : separator with
  | dot => simp [hcut.base_of_dot hseparator]
  | colons =>
      by_cases hmem : '.' ∈ before
      · obtain ⟨rest, hrest, hbefore⟩ := hcut.base_of_dot_mem hseparator hmem
        have hne : base signature ≠ before := by
          rw [hbefore]
          simp
        refine ⟨⟨fun heq => absurd heq hne, ?_⟩, fun _ => .inl ⟨rest, hrest, hbefore⟩⟩
        simp [hmem]
      · have hbase := hcut.base_of_colons hseparator hmem
        split at hbase
        next hpairs => simp [hbase, hmem, hpairs]
        next hpairs =>
          have hcolon : base signature ++ [':'] = before := by
            rw [hbase]
            refine dropLast_append_colon fun hzero => hpairs (.inr ?_)
            rw [hzero]
            exact Even.zero
          have hne : base signature ≠ before := by
            rw [← hcolon]
            simp
          simp [hne, hmem, hcolon, not_or.mp hpairs]

example : LastCut "a:::b".toList "a:".toList .colons ['b'] ∧ base "a:::b".toList = ['a'] := by
  decide +kernel

/-- What stands before the last separator of a signature is not always its base: the base of
`foo.bar::Baz` is `foo`. -/
theorem not_forall_base_eq_before :
    ¬ ∀ signature before separator last, LastCut signature before separator last →
      base signature = before := by
  intro hall
  have hcut : LastCut "foo.bar::Baz".toList "foo.bar".toList .colons "Baz".toList := by
    decide +kernel
  have hbase : base "foo.bar::Baz".toList ≠ "foo.bar".toList := by decide +kernel
  exact hbase (hall _ _ _ _ hcut)

end Caret.Chain
