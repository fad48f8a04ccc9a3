import Caret.Proofs.Chain.Identifiers

/-! # The front of a signature

A walk ends with nothing gathered, or something was put in front last. That is a sigil,
another character, or a subscript. Left of it, unless it is a sigil, the walk gathers nothing
more, so a scan that starts at the front ends where the signature starts. On the right of a
character at the front, the rest of its name was gathered before it.
-/

namespace Caret.Chain

open Text

theorem Walk.head?_start (afterBlank : Bool) : (Walk.start afterBlank).chars.head? ≠ some '[' := by
  simp [start]

namespace Code

variable {code : Code}

/-- Outside brackets, a walk has gathered the name on the right of its cursor, as far as the
limit where it began. A percent sign hides the first character of a name. -/
def GathersName (code : Code) (limit : Nat) (walk : Walk) (cursor : Nat) : Prop :=
  walk.depth.isZero → ∀ stop ≤ limit, code.IsRun ⟨cursor, stop⟩ →
    code.hasBefore cursor 1 '%' ∨ code.between ⟨cursor, stop⟩ <+: walk.chars

theorem between_eq_nil {start stop : Nat} (hle : stop ≤ start) :
    code.between ⟨start, stop⟩ = [] := by
  refine List.eq_nil_iff_forall_not_mem.mpr fun c hc => ?_
  obtain ⟨index, hfrom, hto, -⟩ := mem_between.mp hc
  exact absurd (Nat.lt_of_le_of_lt hfrom hto) (Nat.not_lt.mpr hle)

theorem gathersName_limit (limit : Nat) (walk : Walk) : code.GathersName limit walk limit := by
  intro _ stop hstop _
  rw [between_eq_nil hstop]
  exact .inr List.nil_prefix

section Steps

variable {limit index : Nat} {c : Char} {walk : Walk}

/-- No name begins with a comment. -/
theorem gathersName_comment {comment : Span} (hfound : code.commentHolding index = some comment) :
    code.GathersName limit walk comment.start := by
  intro _ stop _ hrun
  obtain ⟨hstart, hend⟩ := commentHolding_bounds hfound
  have hstop : stop ≤ comment.start := by
    refine Nat.le_of_not_lt fun hlt => ?_
    exact hrun.apart comment (mem_of_holding hfound) comment.start
      (Span.contains_iff.mpr ⟨Nat.le_refl _, hlt⟩)
      (Span.contains_iff.mpr ⟨Nat.le_refl _, Nat.lt_of_le_of_lt hstart hend⟩)
  rw [between_eq_nil hstop]
  exact .inr List.nil_prefix

/-- A character that is copied stands in front of the rest of its name. -/
theorem GathersName.prefix_of_copy (hgathers : code.GathersName limit walk (index + 1))
    (hzero : (walk.depth.track c).isZero) (hc : code.chars[index]? = some c)
    (hchar : isSignatureChar c) {stop : Nat} (hstop : stop ≤ limit)
    (hrun : code.IsRun ⟨index, stop⟩) : code.between ⟨index, stop⟩ <+: c :: walk.chars := by
  rcases Nat.lt_or_ge index stop with hlt | hle
  · obtain ⟨d, hd, hword⟩ := hrun.exists_char (Nat.le_refl _) hlt
    obtain rfl := Option.some.inj (hc.symm.trans hd)
    rw [Depth.track_plain (isPlain_of_copied (.inl hword))] at hzero
    have hafter : code.IsRun ⟨index + 1, stop⟩ :=
      hrun.of_within (Nat.le_succ index) (Nat.le_refl stop)
    -- The character before the rest is the copied one, so it is no percent sign.
    have hpercent : ¬ code.hasBefore (index + 1) 1 '%' := by
      simp only [hasBefore, Bool.and_eq_true, decide_eq_true_eq, not_and]
      intro _ hsign
      rw [Nat.add_sub_cancel, hc, Option.some.injEq] at hsign
      subst hsign
      contradiction
    rw [between_cons hlt hc]
    exact List.cons_prefix_cons.mpr ⟨rfl, (hgathers hzero stop hstop hafter).resolve_left hpercent⟩
  · rw [between_eq_nil hle]
    exact List.nil_prefix

theorem GathersName.next (hgathers : code.GathersName limit walk (index + 1))
    (hc : code.chars[index]? = some c) {next : Walk}
    (hcrosses : Crosses code index c walk (.next next)) :
    code.GathersName limit next index := by
  intro hnext stop hstop hrun
  rcases Nat.lt_or_ge index stop with hlt | hle
  · obtain ⟨d, hd, hword⟩ := hrun.exists_char (Nat.le_refl _) hlt
    obtain rfl := Option.some.inj (hc.symm.trans hd)
    obtain ⟨hblank, -, hsignature, hopener, -⟩ := classes_of_copied (.inl hword)
    cases hcrosses with
    | blank _ hother => simp [hblank] at hother
    | inside _ hinside => exact absurd hnext (by simpa [Walk.past] using hinside)
    | subscript hbracket => exact absurd hbracket hopener
    | skip _ _ hskip =>
        rw [hsignature] at hskip
        exact .inl (hskip.resolve_left (by decide))
    | copy hzero _ hchar => exact .inr (hgathers.prefix_of_copy hzero hc hchar hstop hrun)
  · rw [between_eq_nil hle]
    exact .inr List.nil_prefix

end Steps

/-- Left of an offset a scan gathers nothing, and it ends at another offset. -/
structure Quiet (code : Code) (cursor start : Nat) : Prop where
  chars_eq : (code.walkBack (.start false) cursor).chars = []
  start_eq : (code.walkBack (.start false) cursor).start = start

/-- How the front of a signature was put there by a walk that began at a limit. -/
inductive Front (code : Code) (limit : Nat) (signature : Signature) : Prop
  | sigil {c : Char} {tail : List Char} (hchars : signature.chars = c :: tail)
      (hsigil : c = '$' ∨ c = '@')
  | copied {first : Nat} {c : Char} {tail : List Char} (hchars : signature.chars = c :: tail)
      (hchar : isSignatureChar c) (htail : tail.head? ≠ some '[')
      (hanchor : signature.anchor = some first) (hlt : first < limit)
      (hc : code.chars[first]? = some c) (hnone : code.commentHolding first = none)
      (hquiet : code.Quiet first signature.start)
      (hname : ∀ stop ≤ limit, code.IsRun ⟨first, stop⟩ →
        code.between ⟨first, stop⟩ <+: signature.chars)
  | subscript {bracket : Nat} {tail : List Char}
      (hchars : signature.chars = '.' :: '[' :: ']' :: tail) (hlt : bracket < limit)
      (hc : code.chars[bracket]? = some '[') (hnone : code.commentHolding bracket = none)
      (hquiet : code.Quiet bracket signature.start)

/-- A walk that does not add to what it has gathered does not gather anything either if it
starts with nothing. -/
theorem quiet_of_chars_eq {cursor : Nat} {walk : Walk} (hzero : walk.depth.isZero)
    (hafter : walk.afterBlank = false) (hsame : (code.walkBack walk cursor).chars = walk.chars) :
    code.Quiet cursor (code.walkBack walk cursor).start := by
  have hwalk : walk = (Walk.start false).withTail walk.chars walk.anchor := by
    obtain ⟨anchor, chars, depth, afterBlank⟩ := walk
    obtain rfl : depth = .zero := Depth.isZero_iff.mp hzero
    obtain rfl : afterBlank = false := hafter
    rfl
  have hrun : code.walkBack walk cursor =
      (code.walkBack (.start false) cursor).withTail walk.chars walk.anchor := by
    rw [← walkBack_withTail, ← hwalk]
  have hnothing : (code.walkBack (.start false) cursor).chars ++ walk.chars = [] ++ walk.chars := by
    rw [hrun] at hsame
    exact hsame
  exact ⟨List.append_cancel_right hnothing, by rw [hrun]; rfl⟩

/-- A walk gathers nothing more, or its signature has a front. Opening brackets stand only
within subscripts. -/
theorem walkBack_front {limit cursor : Nat} {walk : Walk} (hle : cursor ≤ limit)
    (hhead : walk.chars.head? ≠ some '[') (hgathers : code.GathersName limit walk cursor) :
    ((code.walkBack walk cursor).chars = walk.chars ∧
        (code.walkBack walk cursor).anchor = walk.anchor) ∨
      Front code limit (code.walkBack walk cursor) := by
  -- If the rest of the walk gathers nothing, the character that was copied now is the front.
  fun_induction code.walkBack walk cursor with
  | case1 walk => exact .inl ⟨rfl, rfl⟩
  | case2 walk index hnone => exact .inl ⟨rfl, rfl⟩
  | case3 walk index c hc comment hfound hlt ih =>
      exact ih (Nat.le_trans (Nat.le_of_lt hlt) hle) hhead (gathersName_comment hfound)
  | case4 walk index c hc hnone next hstep ih =>
      have hcrosses : Crosses code index c walk (.next next) := hstep ▸ stepBack_crosses
      have hnext := hgathers.next hc hcrosses
      cases hcrosses with
      | blank => exact ih (Nat.le_of_succ_le hle) hhead hnext
      | inside => exact ih (Nat.le_of_succ_le hle) hhead hnext
      | skip => exact ih (Nat.le_of_succ_le hle) hhead hnext
      | subscript hbracket hzero =>
          subst hbracket
          rcases ih (Nat.le_of_succ_le hle) (by simp) hnext with ⟨hchars, -⟩ | hfront
          · exact .inr (.subscript hchars hle hc hnone (quiet_of_chars_eq hzero rfl hchars))
          · exact .inr hfront
      | copy hzero _ hchar =>
          have hopener : c ≠ '[' := fun heq => by simp [heq, isSignatureChar] at hchar
          rcases ih (Nat.le_of_succ_le hle) (by simpa [Walk.copy] using hopener) hnext with
            ⟨hchars, hanchor⟩ | hfront
          · refine .inr (.copied hchars hchar hhead hanchor hle hc hnone
              (quiet_of_chars_eq hzero rfl hchars) fun stop hstop hrun => ?_)
            rw [hchars]
            exact hgathers.prefix_of_copy hzero hc hchar hstop hrun
          · exact .inr hfront
  | case5 walk index c hc hnone last start hstep =>
      have hcrosses : Crosses code index c walk (.stop last start) := hstep ▸ stepBack_crosses
      cases hcrosses with
      | «break» => exact .inl ⟨rfl, rfl⟩
      | leave => exact .inl ⟨rfl, rfl⟩
      | boundary => exact .inl ⟨rfl, rfl⟩
      | percent => exact .inl ⟨rfl, rfl⟩
      | sigil hzero hsigil => exact .inr (.sigil rfl hsigil)
      | doubled => exact .inr (.sigil rfl (.inr rfl))

/-- A walk that starts with nothing ends with nothing, or its signature has a front. -/
theorem walkBack_start_front (cursor : Nat) :
    ((code.walkBack (.start false) cursor).chars = [] ∧
        (code.walkBack (.start false) cursor).anchor = none) ∨
      Front code cursor (code.walkBack (.start false) cursor) :=
  walkBack_front (Nat.le_refl cursor) (Walk.head?_start false) (gathersName_limit cursor _)

/-- From a significant character on, a scan that gathers nothing ends on its left. -/
theorem Quiet.scan_eq {cursor start : Nat} (hquiet : code.Quiet cursor start)
    (hordered : code.OrderedComments) (hcursor : cursor < code.chars.size)
    (hsignificant : code.Significant cursor) :
    code.scan cursor .normal = ⟨none, [], start⟩ ∧ start ≤ cursor := by
  obtain ⟨hchars, hstart⟩ := hquiet
  have hle : start ≤ cursor := by
    have hcode := (commentHolding_eq_none_iff hordered.inOrder).mp hsignificant.2
    rw [← hstart]
    exact walkBack_start_le hsignificant.1 (not_commented_iff.mp hcode) (Nat.le_refl _)
  -- Every front puts something there, and a walk that gathers nothing keeps no anchor.
  have hanchor : (code.walkBack (.start false) cursor).anchor = none := by
    rcases walkBack_start_front cursor with ⟨-, hanchor⟩ | hfront
    · exact hanchor
    · cases hfront with
      | sigil hfront => cases hchars.symm.trans hfront
      | copied hfront => cases hchars.symm.trans hfront
      | subscript hfront => cases hchars.symm.trans hfront
  refine ⟨?_, hle⟩
  rw [scan, Nat.min_eq_left (Nat.le_of_lt hcursor)]
  dsimp only
  rw [hanchor, hchars, hstart, Nat.min_eq_left hle]

end Code

end Caret.Chain
