/-! # Spans of characters or bytes

A test that holds on an initial stretch of the indices and fails from there on
has a boundary. It is found by halving the stretch that may still contain it. Spans
that are ordered by their ends are looked up in this way.
-/

namespace Caret.Text

/-- A half-open stretch of offsets. A span whose end lies before its start is
allowed. It has no length and holds no offset. -/
structure Span where
  start : Nat
  stop : Nat
deriving DecidableEq, Repr

namespace Span

def length (span : Span) : Nat :=
  span.stop - span.start

def contains (span : Span) (offset : Nat) : Bool :=
  span.start ≤ offset && offset < span.stop

theorem contains_iff {span : Span} {offset : Nat} :
    span.contains offset ↔ span.start ≤ offset ∧ offset < span.stop := by
  simp [contains]

end Span

section Halving

/-- Halve the `size` indices from `base` on until at most one is left. Its test
tells on which side of it the boundary lies. -/
def narrow (below : Nat → Bool) (base size : Nat) : Nat :=
  if size ≤ 1 then
    if size = 1 ∧ below base then base + 1 else base
  else if below (base + size / 2) then
    narrow below (base + size / 2) (size - size / 2)
  else
    narrow below base (size - size / 2)
termination_by size

/-- The first index under `count` at which `below` fails, or `count`. The test
must not hold again after it has failed. -/
def partitionPoint (below : Nat → Bool) (count : Nat) : Nat :=
  narrow below 0 count

theorem narrow_bounds (below : Nat → Bool) (base size : Nat) :
    base ≤ narrow below base size ∧ narrow below base size ≤ base + size := by
  fun_induction narrow below base size <;> omega

/-- On a stretch where the test never holds again once it failed, the boundary
separates the indices that pass from those that fail. -/
theorem lt_narrow_iff {below : Nat → Bool} {base size : Nat}
    (hmono : ∀ i j, i ≤ j → j < base + size → below j → below i)
    {index : Nat} (hlower : base ≤ index) (hupper : index < base + size) :
    index < narrow below base size ↔ below index := by
  fun_induction narrow below base size with
  | case1 base size hsmall hlast =>
      obtain rfl : index = base := by omega
      simp [hlast.2]
  | case2 base size hsmall hlast =>
      obtain rfl : index = base := by omega
      have hsize : size = 1 := by omega
      simpa [hsize] using hlast
  | case3 base size hlarge hmiddle ih =>
      by_cases hside : index < base + size / 2
      · have hbounds := narrow_bounds below (base + size / 2) (size - size / 2)
        have htest := hmono index (base + size / 2) (by omega) (by omega) hmiddle
        simp only [htest, iff_true]
        omega
      · exact ih (fun i j hij hj => hmono i j hij (by omega)) (by omega) (by omega)
  | case4 base size hlarge hmiddle ih =>
      by_cases hside : index < base + (size - size / 2)
      · exact ih (fun i j hij hj => hmono i j hij (by omega)) hlower hside
      · have hbounds := narrow_bounds below base (size - size / 2)
        have htest : ¬ below index := fun hindex =>
          hmiddle (hmono (base + size / 2) index (by omega) hupper hindex)
        simp only [htest, Bool.false_eq_true, iff_false]
        omega

theorem partitionPoint_le (below : Nat → Bool) (count : Nat) :
    partitionPoint below count ≤ count := by
  have hbounds := narrow_bounds below 0 count
  simpa [partitionPoint] using hbounds.2

theorem lt_partitionPoint_iff {below : Nat → Bool} {count : Nat}
    (hmono : ∀ i j, i ≤ j → j < count → below j → below i)
    {index : Nat} (hindex : index < count) :
    index < partitionPoint below count ↔ below index :=
  lt_narrow_iff (fun i j hij hj => hmono i j hij (by omega)) (Nat.zero_le _) (by omega)

/-- An index is the boundary if the test holds on all indices before it and on none
after. -/
theorem partitionPoint_eq {below : Nat → Bool} {count boundary : Nat} (hle : boundary ≤ count)
    (hbefore : ∀ i, i < boundary → below i)
    (hafter : ∀ i, boundary ≤ i → i < count → ¬ below i) :
    partitionPoint below count = boundary := by
  have hside : ∀ i, i < count → (i < partitionPoint below count ↔ i < boundary) := by
    intro i hi
    have hbelow : below i ↔ i < boundary :=
      ⟨fun h => Nat.lt_of_not_le fun hge => hafter i hge hi h, hbefore i⟩
    rw [← hbelow]
    refine lt_partitionPoint_iff (fun left right hlr hright h => ?_) hi
    refine hbefore left (Nat.lt_of_le_of_lt hlr ?_)
    exact Nat.lt_of_not_le fun hge => hafter right hge hright h
  have hcount := partitionPoint_le below count
  rcases Nat.lt_trichotomy (partitionPoint below count) boundary with hlt | heq | hlt
  · have hself := (hside _ (by omega)).mpr hlt
    omega
  · exact heq
  · have hself := (hside boundary (by omega)).mp hlt
    omega

end Halving

/-- The span that holds an offset. The spans are ordered by their ends, so only
the first one that ends past the offset can hold it. -/
def holding (spans : Array Span) (offset : Nat) : Option Span :=
  let after := partitionPoint (fun i => (spans.getD i ⟨0, 0⟩).stop ≤ offset) spans.size
  spans[after]?.filter (·.contains offset)

theorem mem_of_holding {spans : Array Span} {offset : Nat} {span : Span}
    (hspan : holding spans offset = some span) : span ∈ spans := by
  simp only [holding, Option.filter_eq_some_iff] at hspan
  exact Array.mem_of_getElem? hspan.1

theorem bounds_of_holding {spans : Array Span} {offset : Nat} {span : Span}
    (hspan : holding spans offset = some span) : span.start ≤ offset ∧ offset < span.stop := by
  simp only [holding, Option.filter_eq_some_iff] at hspan
  exact Span.contains_iff.mp hspan.2

end Caret.Text
