import Jonj.Lib.Rearrangement
import Jonj.Qsort.Basic

/-!
# The partition

The algorithm on an array of elements, where pointers are indices and the stride is one. The loops
are shown to end, to stay inside the array whatever the comparison answers, and to part the elements
of a segment around the pivot if it is a total preorder.
-/
namespace Jonj.Qsort

open Loop Rearrangement

/-- The elements, what the comparison remembers, and the indices that were read or written. -/
structure Elements (α σ : Type) where
  elems : Int → α
  arg : σ
  touched : List Int

variable {α σ : Type}

abbrev ElementCompare (α σ : Type) := σ → Int → Int → α → α → Int × σ

def elementOps (cmp : ElementCompare α σ) : Ops (Elements α σ) where
  compare i j st :=
    let r := cmp st.arg i j (st.elems i) (st.elems j)
    (r.1, { st with arg := r.2, touched := i :: j :: st.touched })
  swap i j st := { st with elems := exchange st.elems i j, touched := i :: j :: st.touched }

/-- The comparison ranks by a total preorder: its answer is positive exactly if the first element is
greater. -/
structure Ranks (cmp : ElementCompare α σ) (le : α → α → Prop) : Prop where
  total : ∀ x y, le x y ∨ le y x
  trans : ∀ x y z, le x y → le y z → le x z
  positive : ∀ s i j x y, 0 < (cmp s i j x y).1 ↔ ¬ le x y

section

variable {cmp : ElementCompare α σ} {le : α → α → Prop} (ranks : Ranks cmp le)

include ranks

theorem Ranks.refl (x : α) : le x x :=
  (ranks.total x x).elim id id

theorem Ranks.le_of_not {x y : α} (greater : ¬ le x y) : le y x :=
  (ranks.total x y).resolve_left greater

end

/-- Only indices from `lo` to `hi` were touched. -/
def Inside (lo hi : Int) (st : Elements α σ) : Prop := ∀ k ∈ st.touched, lo ≤ k ∧ k ≤ hi

section

variable {cmp : ElementCompare α σ} {lo hi : Int}

section

variable (cmp : ElementCompare α σ) {i j : Int} {st : Elements α σ} (inside : Inside lo hi st)
  (inside_i : lo ≤ i ∧ i ≤ hi) (inside_j : lo ≤ j ∧ j ≤ hi)

include inside inside_i inside_j

theorem inside_compare : Inside lo hi ((elementOps cmp).compare i j st).2 := by
  intro k member
  simp only [elementOps, List.mem_cons] at member
  rcases member with rfl | rfl | old
  · exact inside_i
  · exact inside_j
  · exact inside k old

theorem inside_swap : Inside lo hi ((elementOps cmp).swap i j st) :=
  @inside_compare _ _ _ _ cmp i j st inside inside_i inside_j

end

/-- What a scan over the elements keeps. -/
structure Scanned (cmp : ElementCompare α σ) (lo hi : Int) (st st' : Elements α σ)
    (known : (α → α → Prop) → Prop) :
    Prop where
  elems : st'.elems = st.elems
  inside : Inside lo hi st'
  ranked : ∀ le, Ranks cmp le → known le

section

variable {begin_ seg1 seg2 : Int} {st : Elements α σ} {rounds : Nat} (inside : Inside lo hi st)
  (pivot : lo ≤ begin_ ∧ begin_ ≤ hi) (low : lo ≤ seg1) (high : seg2 ≤ hi)

include inside pivot low high

/-- The scan from the left ends at an element that is not less, or at `seg2`. -/
theorem forUp_spec (enough : (seg2 - seg1).toNat < rounds) :
    ∃ r, forUp (elementOps cmp) 1 rounds begin_ seg2 seg1 st = some r ∧ seg1 ≤ r.1 ∧
      r.1 ≤ max seg1 seg2 ∧
      Scanned cmp lo hi st r.2 fun le => (∀ k, seg1 ≤ k → k < r.1 →
        le (st.elems k) (st.elems begin_)) ∧
          (r.1 < seg2 → le (st.elems begin_) (st.elems r.1)) := by
  refine loop_total
    (fun x : Int × Elements α σ => seg1 ≤ x.1 ∧ x.1 ≤ max seg1 seg2 ∧
      Scanned cmp lo hi st x.2 fun le =>
      ∀ k, seg1 ≤ k → k < x.1 → le (st.elems k) (st.elems begin_)) _
    (fun x => (seg2 - x.1).toNat) ?_ ⟨le_refl _, le_max_left _ _, rfl, inside,
      fun _ _ k => by omega⟩ enough
  rintro ⟨i, st'⟩ ⟨from_, upTo, elems, inside', ranked⟩
  simp only at from_ upTo elems inside' ranked ⊢
  by_cases before : i < seg2
  · rw [if_pos before]
    have compared := @inside_compare _ _ lo hi cmp begin_ i _ inside' pivot ⟨by omega, by omega⟩
    by_cases greater : 0 < ((elementOps cmp).compare begin_ i st').1
    · left
      refine ⟨_, if_pos greater, ⟨by omega, by omega, elems, compared, ?_⟩, by omega⟩
      intro le ranks k after below
      -- the scan has just passed `i`
      by_cases here : k = i
      · subst here
        simp only [elementOps, elems] at greater
        exact ranks.le_of_not ((ranks.positive _ _ _ _ _).mp greater)
      · exact ranked le ranks k after (by omega)
    · right
      refine ⟨_, if_neg greater, from_, upTo, elems, compared, fun le ranks =>
        ⟨ranked le ranks, fun _ => ?_⟩⟩
      simp only [elementOps, elems] at greater
      exact not_not.mp fun not_le => greater ((ranks.positive _ _ _ _ _).mpr not_le)
  · right
    exact ⟨_, if_neg before, from_, upTo, elems, inside', fun le ranks =>
      ⟨ranked le ranks, fun more => absurd more before⟩⟩

/-- The scan from the right, which may end one before `seg1`. -/
theorem forDown_spec (near : seg1 - 1 ≤ seg2) (enough : (seg2 - seg1 + 1).toNat < rounds) :
    ∃ r, forDown (elementOps cmp) 1 rounds begin_ seg1 seg2 st = some r ∧ seg1 - 1 ≤ r.1 ∧
      r.1 ≤ seg2 ∧
      Scanned cmp lo hi st r.2 fun le => (∀ k, r.1 < k → k ≤ seg2 →
        le (st.elems begin_) (st.elems k)) ∧
          (seg1 ≤ r.1 → le (st.elems r.1) (st.elems begin_)) := by
  refine loop_total
    (fun x : Int × Elements α σ => seg1 - 1 ≤ x.1 ∧ x.1 ≤ seg2 ∧ Scanned cmp lo hi st x.2 fun le =>
      ∀ k, x.1 < k → k ≤ seg2 → le (st.elems begin_) (st.elems k)) _
    (fun x => (x.1 - seg1 + 1).toNat) ?_ ⟨near, le_refl _, rfl, inside,
      fun _ _ k => by omega⟩ enough
  rintro ⟨i, st'⟩ ⟨from_, upTo, elems, inside', ranked⟩
  simp only at from_ upTo elems inside' ranked ⊢
  by_cases before : seg1 ≤ i
  · rw [if_pos before]
    have compared := @inside_compare _ _ lo hi cmp i begin_ _ inside' ⟨by omega, by omega⟩ pivot
    by_cases greater : 0 < ((elementOps cmp).compare i begin_ st').1
    · left
      refine ⟨_, if_pos greater, ⟨by omega, by omega, elems, compared, ?_⟩, by omega⟩
      intro le ranks k after below
      by_cases here : k = i
      · subst here
        simp only [elementOps, elems] at greater
        exact ranks.le_of_not ((ranks.positive _ _ _ _ _).mp greater)
      · exact ranked le ranks k (by omega) below
    · right
      refine ⟨_, if_neg greater, from_, upTo, elems, compared, fun le ranks =>
        ⟨ranked le ranks, fun _ => ?_⟩⟩
      simp only [elementOps, elems] at greater
      exact not_not.mp fun not_le => greater ((ranks.positive _ _ _ _ _).mpr not_le)
  · right
    exact ⟨_, if_neg before, from_, upTo, elems, inside', fun le ranks =>
      ⟨ranked le ranks, fun more => absurd more before⟩⟩

end

/-- The state of `while (1)`: what is left of `seg1` is not greater than the pivot, what is right of
`seg2` not less. -/
structure Parting (cmp : ElementCompare α σ) (lo hi begin_ end_ seg1 seg2 : Int) (a : Int → α)
    (st : Elements α σ) :
    Prop where
  rearranged : Rearranged (begin_ + 1) end_ a st.elems
  inside : Inside lo hi st
  left : ∀ le, Ranks cmp le → ∀ k, begin_ < k → k < seg1 → le (st.elems k) (st.elems begin_)
  right : ∀ le, Ranks cmp le → ∀ k, seg2 < k → k ≤ end_ → le (st.elems begin_) (st.elems k)

/-- Two elements on the wrong sides are exchanged. -/
theorem Parting.swap {begin_ end_ i j : Int} {a : Int → α} {st : Elements α σ}
    (parting : Parting cmp lo hi begin_ end_ i j a st) (low : lo ≤ begin_) (high : end_ ≤ hi)
    (after : begin_ < i) (between : i < j) (before : j ≤ end_)
    (small : ∀ le, Ranks cmp le → le (st.elems j) (st.elems begin_))
    (large : ∀ le, Ranks cmp le → le (st.elems begin_) (st.elems i)) :
    Parting cmp lo hi begin_ end_ (i + 1) (j - 1) a ((elementOps cmp).swap i j st) := by
  have pivot : exchange st.elems i j begin_ = st.elems begin_ :=
    exchange_of_ne st.elems (by omega) (by omega)
  refine ⟨?_, inside_swap cmp parting.inside ⟨by omega, by omega⟩ ⟨by omega, by omega⟩, ?_, ?_⟩
  · exact parting.rearranged.trans (rearranged_exchange st.elems ⟨by omega, by omega⟩
      ⟨by omega, by omega⟩)
  · intro le ranks k from_ upTo
    simp only [elementOps, pivot]
    by_cases here : k = i
    · rw [here, exchange_left]
      exact small le ranks
    · rw [exchange_of_ne st.elems here (by omega)]
      exact parting.left le ranks k from_ (by omega)
  · intro le ranks k from_ upTo
    simp only [elementOps, pivot]
    by_cases here : k = j
    · rw [here, exchange_right]
      exact large le ranks
    · rw [exchange_of_ne st.elems (by omega) here]
      exact parting.right le ranks k (by omega) upTo

/-- The loop ends with the indices crossed. -/
theorem whileOne_spec {begin_ end_ : Int} {st : Elements α σ} {rounds : Nat}
    (inside : Inside lo hi st) (low : lo ≤ begin_) (high : end_ ≤ hi) (nonempty : begin_ < end_)
    (enough : (end_ - begin_ + 1).toNat < rounds) :
    ∃ r, whileOne (elementOps cmp) 1 rounds begin_ (begin_ + 1) end_ st = some r ∧ begin_ ≤ r.1 ∧
      r.1 ≤ end_ ∧
      Parting cmp lo hi begin_ end_ (r.1 + 1) r.1 st.elems r.2 := by
  have start : Parting cmp lo hi begin_ end_ (begin_ + 1) end_ st.elems st :=
    ⟨Rearranged.refl _ _ _, inside, fun _ _ k => by omega, fun _ _ k => by omega⟩
  have measured : (end_ - (begin_ + 1) + 1).toNat < rounds := by omega
  refine loop_total
    (fun x : Int × Int × Elements α σ => begin_ < x.1 ∧ x.2.1 ≤ end_ ∧ x.1 - 1 ≤ x.2.1 ∧
      Parting cmp lo hi begin_ end_ x.1 x.2.1 st.elems x.2.2) _
    (fun x => (x.2.1 - x.1 + 1).toNat) ?_ ⟨by omega, le_refl _, by simp only; omega, start⟩ measured
  rintro ⟨seg1, seg2, st'⟩ ⟨after, before, near, parting⟩
  simp only at after before near parting ⊢
  have pivot : lo ≤ begin_ ∧ begin_ ≤ hi := ⟨low, by omega⟩
  obtain ⟨up, upEnds, upLow, upHigh, upElems, upInside, upRanked⟩ :=
    @forUp_spec _ _ cmp lo hi begin_ seg1 seg2 st' rounds parting.inside pivot (by omega)
      (by omega) (by omega)
  obtain ⟨down, downEnds, downLow, downHigh, downElems, downInside, downRanked⟩ :=
    @forDown_spec _ _ cmp lo hi begin_ up.1 seg2 up.2 rounds upInside pivot (by omega) (by omega)
      (by omega) (by omega)
  rw [upEnds, Option.bind_some, downEnds]
  have elems : down.2.elems = st'.elems := downElems.trans upElems
  rw [upElems] at downRanked
  -- the scans extend both sides
  have extended : Parting cmp lo hi begin_ end_ up.1 down.1 st.elems down.2 := by
    refine ⟨elems ▸ parting.rearranged, downInside, ?_, ?_⟩
    · intro le ranks k from_ upTo
      rw [elems]
      by_cases old : k < seg1
      · exact parting.left le ranks k from_ old
      · exact (upRanked le ranks).1 k (by omega) upTo
    intro le ranks k from_ upTo
    rw [elems]
    by_cases old : seg2 < k
    · exact parting.right le ranks k old upTo
    · exact (downRanked le ranks).1 k from_ (by omega)
  by_cases met : down.1 ≤ up.1
  · right
    refine ⟨down,
      if_pos met, by omega, by omega, extended.rearranged, extended.inside, ?_, extended.right⟩
    intro le ranks k from_ upTo
    by_cases left : k < up.1
    · exact extended.left le ranks k from_ left
    -- both scans have stopped at the same element
    have same : k = down.1 := by omega
    rw [same, elems]
    exact (downRanked le ranks).2 (by omega)
  · left
    refine ⟨_, if_neg met,
      ⟨by omega, by simp only; omega, by simp only; omega, ?_⟩, by simp only; omega⟩
    refine extended.swap low high (by omega) (by omega) (by omega) ?_ ?_
    · intro le ranks
      rw [elems]
      exact (downRanked le ranks).2 (by omega)
    · intro le ranks
      rw [elems]
      exact (upRanked le ranks).2 (by omega)

/-- The elements of a segment around the one at `m`. -/
def Parted (cmp : ElementCompare α σ) (begin_ end_ m : Int) (a : Int → α) : Prop :=
  ∀ le, Ranks cmp le →
    (∀ k, begin_ ≤ k → k < m → le (a k) (a m)) ∧ ∀ k, m < k → k ≤ end_ → le (a m) (a k)

/-- The pivot is chosen inside the segment. -/
def Bounded (pivot : Int → Int) : Prop :=
  ∀ distance, 0 ≤ distance → 0 ≤ pivot distance ∧ pivot distance ≤ distance

/-- The pivot is between the two parts. -/
theorem partition_spec {pivot : Int → Int} (bounded : Bounded pivot) {begin_ end_ : Int}
    {st : Elements α σ} {rounds : Nat} (inside : Inside lo hi st) (low : lo ≤ begin_)
    (high : end_ ≤ hi) (nonempty : begin_ < end_) (enough : (end_ - begin_ + 1).toNat < rounds) :
    ∃ r, partition (elementOps cmp) 1 pivot rounds begin_ end_ st = some r ∧ begin_ ≤ r.1 ∧
      r.1 ≤ end_ ∧
      Rearranged begin_ end_ st.elems r.2.elems ∧ Inside lo hi r.2 ∧
        Parted cmp begin_ end_ r.1 r.2.elems := by
  have offset := bounded (end_ - begin_) (by omega)
  have first := inside_swap cmp inside ⟨low, (by omega : begin_ ≤ hi)⟩
    (⟨by omega, by omega⟩ : lo ≤ begin_ + pivot (end_ - begin_) ∧
      begin_ + pivot (end_ - begin_) ≤ hi)
  obtain ⟨r, ends, from_, upTo, parting⟩ := whileOne_spec first low high nonempty enough
  refine ⟨(r.1, (elementOps cmp).swap begin_ r.1 r.2), ?_, from_, upTo, ?_, ?_, ?_⟩
  · rw [partition, ends]
    rfl
  · have moved := @rearranged_exchange _ begin_ end_ begin_
      (begin_ + pivot (end_ - begin_)) st.elems
      ⟨le_refl _, by omega⟩ ⟨by omega, by omega⟩
    exact (moved.trans (parting.rearranged.mono (by omega) (le_refl _))).trans
      (rearranged_exchange r.2.elems ⟨le_refl _, by omega⟩ ⟨from_, upTo⟩)
  · exact inside_swap cmp parting.inside ⟨low, by omega⟩ ⟨by omega, by omega⟩
  · intro le ranks
    simp only [elementOps]
    constructor
    · intro k after before
      rw [exchange_right]
      by_cases here : k = begin_
      · rw [here, exchange_left]
        exact parting.left le ranks r.1 (by omega) (by omega)
      · rw [exchange_of_ne _ here (by omega)]
        exact parting.left le ranks k (by omega) (by omega)
    · intro k after before
      rw [exchange_right, exchange_of_ne _ (by omega) (by omega)]
      exact parting.right le ranks k after before

end

end Jonj.Qsort
