import Mathlib.Algebra.BigOperators.Group.Finset.Basic
import Mathlib.Algebra.Order.BigOperators.Group.Finset
import Jonj.Serialize.RoundTrip

/-!
# `jonj_var_serialize` stops

Cycles through arrays stop at `nApplyCount`, since a table is entered at most twice at a time;
cycles through objects stop at `var_hash`. So the recursion is no deeper than twice the number of
tables plus the number of objects.
-/
namespace Jonj.Serialize

open Writer

variable {D : Type} {gcvt : D → Bytes} {mem : Memory D} {tables objects : Finset Nat}

/-- All arrays and objects of the graph are in the two sets. -/
structure Memory.Within (mem : Memory D) (tables objects : Finset Nat) : Prop where
  array : ∀ z ht, (mem.zvals z).value = .array ht → ht ∈ tables
  object : ∀ z handle, (mem.zvals z).value = .object handle → handle ∈ objects

/-- How often the recursion can still go down. -/
def Writer.room (tables objects : Finset Nat) (w : Writer) : Nat :=
  ∑ ht ∈ tables, (2 - w.nApplyCount ht) + (objects.filter fun h =>
    w.varHash (.object h) = none).card

/-- What writing a value does to the two bounds. -/
structure Writer.Grows (w w' : Writer) : Prop where
  nApplyCount : w'.nApplyCount = w.nApplyCount
  varHash : ∀ x, w'.varHash x = none → w.varHash x = none

theorem Writer.Grows.refl (w : Writer) : w.Grows w := ⟨rfl, fun _ unseen => unseen⟩

theorem Writer.Grows.trans {w w₁ w₂ : Writer} (first : w.Grows w₁) (second : w₁.Grows w₂) :
    w.Grows w₂ :=
  ⟨second.nApplyCount.trans first.nApplyCount, fun x unseen =>
    first.varHash x (second.varHash x unseen)⟩

theorem Writer.Grows.room_le {w w' : Writer} (grows : w.Grows w') :
    w'.room tables objects ≤ w.room tables objects := by
  rw [room, grows.nApplyCount]
  apply Nat.add_le_add_left
  apply Finset.card_le_card
  exact Finset.monotone_filter_right _ fun h _ unseen => grows.varHash _ unseen

theorem grows_append (w : Writer) (text : Bytes) : w.Grows (w.append text) :=
  ⟨rfl, fun _ unseen => unseen⟩

theorem grows_addVarHash (w : Writer) (z : Addr) : w.Grows (w.addVarHash mem z).1 := by
  cases seen : w.varHash (varKey mem z) with
  | none =>
    rw [addVarHash_new mem seen]
    refine ⟨rfl, ?_⟩
    intro x unseen
    by_cases same : x = varKey mem z
    · rw [same]
      exact seen
    · simp only [Function.update_of_ne same] at unseen
      exact unseen
  | some n =>
    rw [addVarHash_seen mem seen]
    split <;> exact ⟨rfl, fun _ unseen => unseen⟩

private theorem room_enter {w : Writer} {ht : Nat} (inside : ht ∈ tables)
    (few : w.nApplyCount ht ≤ 1) :
    (w.enter ht).room tables objects + 1 ≤ w.room tables objects := by
  have rest : ∑ other ∈ tables.erase ht, (2 - (w.enter ht).nApplyCount other) =
      ∑ other ∈ tables.erase ht, (2 - w.nApplyCount other) := by
    apply Finset.sum_congr rfl
    intro other member
    simp only [enter, Function.update_of_ne (Finset.ne_of_mem_erase member)]
  have here : (w.enter ht).nApplyCount ht = w.nApplyCount ht + 1 := Function.update_self _ _ _
  have unseen : (w.enter ht).varHash = w.varHash := rfl
  rw [room, room, ← Finset.add_sum_erase _ _ inside, ← Finset.add_sum_erase _ _ inside,
    unseen]
  omega

private theorem addVarHash_known (w : Writer) (z : Addr) :
    (w.addVarHash mem z).1.varHash (varKey mem z) ≠ none := by
  cases seen : w.varHash (varKey mem z) with
  | none => simp [addVarHash_new mem seen]
  | some n =>
    rw [addVarHash_seen mem seen]
    split <;> simp [seen]

private theorem room_addVarHash {w : Writer} {z : Addr} {handle : Nat} (inside : handle ∈ objects)
    (value : (mem.zvals z).value = .object handle) (unseen : w.varHash (varKey mem z) = none) :
    (w.addVarHash mem z).1.room tables objects + 1 ≤ w.room tables objects := by
  have grows : w.Grows (w.addVarHash mem z).1 := grows_addVarHash w z
  have known : (w.addVarHash mem z).1.varHash (varKey mem z) ≠ none := addVarHash_known w z
  have key : varKey mem z = .object handle := by rw [varKey, value]
  rw [key] at unseen known
  rw [room, grows.nApplyCount, Nat.add_assoc]
  apply Nat.add_le_add_left
  apply Finset.card_lt_card
  rw [Finset.ssubset_iff_of_subset]
  · refine ⟨handle, Finset.mem_filter.mpr ⟨inside, unseen⟩, ?_⟩
    exact fun member => known (Finset.mem_filter.mp member).2
  · exact Finset.monotone_filter_right _ fun h _ still => grows.varHash _ still

section stops

variable {intern : Writer → Addr → Option Writer} {bound : Nat}
  (array : ∀ (w : Writer) (z : Addr), w.room tables objects + 2 ≤ bound →
    ∃ w', intern w z = some w' ∧ w.Grows w')
  (other : ∀ (w : Writer) (z : Addr), (∀ ht, (mem.zvals z).value ≠ .array ht) →
    w.room tables objects + 1 ≤ bound → ∃ w', intern w z = some w' ∧ w.Grows w')
  (within : mem.Within tables objects)
include array other within

private theorem element_stops {w : Writer} (entry : Key × Addr)
    (enough : w.room tables objects + 1 ≤ bound) :
    ∃ w', w.element mem intern entry = some w' ∧ w.Grows w' := by
  have keyed := grows_append w (keyRecord entry.1)
  have enough' : (w.append (keyRecord entry.1)).room tables objects + 1 ≤ bound := enough
  rw [element]
  split
  next ht value =>
    split
    · exact ⟨_, rfl, keyed.trans ⟨rfl, fun _ unseen => unseen⟩⟩
    next few =>
    have entered : ((w.append (keyRecord entry.1)).enter ht).room tables objects + 1 ≤
        (w.append (keyRecord entry.1)).room tables objects :=
      room_enter (within.array _ _ value) (Nat.not_lt.mp few)
    obtain ⟨w', ran, grows⟩ := array ((w.append (keyRecord entry.1)).enter ht) entry.2 (by omega)
    refine ⟨w'.leave ht, by rw [ran]; rfl, ?_, grows.varHash⟩
    rw [leave, grows.nApplyCount, enter]
    funext table
    by_cases same : table = ht <;> simp [same, append]
  next notArray =>
    obtain ⟨w', ran, grows⟩ := other _ entry.2 notArray enough'
    exact ⟨w', ran, keyed.trans grows⟩

private theorem elements_stop (entries : List (Key × Addr)) {w : Writer}
    (enough : w.room tables objects + 1 ≤ bound) :
    ∃ w', entries.foldlM (element mem intern) w = some w' ∧ w.Grows w' := by
  induction entries generalizing w with
  | nil => exact ⟨w, rfl, .refl w⟩
  | cons entry entries ih =>
    obtain ⟨w₁, first, grows⟩ := element_stops array other within entry enough
    have less : w₁.room tables objects ≤ w.room tables objects := grows.room_le
    obtain ⟨w', later, grows'⟩ := ih (w := w₁) (by omega)
    refine ⟨w', ?_, grows.trans grows'⟩
    rw [List.foldlM_cons, first]
    exact later

private theorem nested_stops {w : Writer} (myht : Table)
    (enough : w.room tables objects + 1 ≤ bound) :
    ∃ w', w.nested mem intern myht = some w' ∧ w.Grows w' := by
  have counted := grows_append w (printInt (numElements myht) ++ ascii ":\x7b")
  rw [nested]
  split
  · obtain ⟨w', ran, grows⟩ := elements_stop array other within myht.entries
      (w := w.append (printInt (numElements myht) ++ ascii ":\x7b")) enough
    rw [ran]
    exact ⟨_, rfl, counted.trans (grows.trans (grows_append w' _))⟩
  · exact ⟨_, rfl, counted.trans (grows_append _ _)⟩

private theorem serializeValue_stops {w : Writer} (value : Value D)
    (enough : w.room tables objects + 1 ≤ bound) :
    ∃ w', w.serializeValue gcvt mem intern value = some w' ∧ w.Grows w' := by
  cases value with
  | array ht =>
    obtain ⟨w', ran, grows⟩ := nested_stops array other within (w := w.append (ascii "a:"))
      (mem.tables ht) enough
    exact ⟨w', ran, (grows_append w _).trans grows⟩
  | object handle =>
    obtain ⟨w', ran, grows⟩ := nested_stops array other within
      (w := w.append (className (mem.objects handle).className))
        (mem.objects handle).properties enough
    exact ⟨w', ran, (grows_append w _).trans grows⟩
  | _ => exact ⟨_, rfl, grows_append w _⟩

end stops

private theorem serializeIntern_succ (depth : Nat) (w : Writer) (z : Addr) :
    (∃ w', serializeIntern gcvt mem (depth + 1) w z = some w' ∧ w.Grows w') ∨
      (serializeIntern gcvt mem (depth + 1) w z =
        (w.addVarHash mem z).1.serializeValue gcvt mem (serializeIntern gcvt mem depth)
          (mem.zvals z).value ∧
        (w.varHash (varKey mem z) = none ∨ ∀ handle, (mem.zvals z).value ≠ .object handle)) := by
  have referred : ∀ tag n, w.Grows ((w.addVarHash mem z).1.reference mem z tag n) := fun tag n =>
    (grows_addVarHash w z).trans ⟨rfl, fun _ unseen => unseen⟩
  rw [serializeIntern]
  cases seen : w.varHash (varKey mem z) with
  | none =>
    have new : (w.addVarHash mem z).2 = none := by rw [addVarHash_new mem seen]
    simp only [new]
    exact .inr ⟨trivial, .inl trivial⟩
  | some n =>
    have old : (w.addVarHash mem z).2 = some n := by rw [addVarHash_seen mem seen]
    simp only [old]
    split
    · exact .inl ⟨_, rfl, referred _ _⟩
    · split
      · exact .inl ⟨_, rfl, referred _ _⟩
      next plain => exact .inr ⟨rfl, .inr plain⟩

/-- One level needs one more than its elements, and an array that is not entered two. -/
theorem serializeIntern_stops (within : mem.Within tables objects) (depth : Nat) :
    (∀ (w : Writer) (z : Addr), w.room tables objects + 2 ≤ depth →
      ∃ w', serializeIntern gcvt mem depth w z = some w' ∧ w.Grows w') ∧
    (∀ (w : Writer) (z : Addr), (∀ ht, (mem.zvals z).value ≠ .array ht) →
      w.room tables objects + 1 ≤ depth →
      ∃ w', serializeIntern gcvt mem depth w z = some w' ∧ w.Grows w') := by
  induction depth with
  | zero => exact ⟨fun w z enough => by omega, fun w z _ enough => by omega⟩
  | succ depth ih =>
    obtain ⟨array, other⟩ := ih
    -- the elements have the room that is left after the variable was added
    have value : ∀ (w : Writer) (z : Addr), (w.addVarHash mem z).1.room tables objects + 1 ≤ depth →
        ∃ w', (w.addVarHash mem z).1.serializeValue gcvt mem
          (serializeIntern gcvt mem depth) (mem.zvals z).value = some w' ∧ w.Grows w' := by
      intro w z enough
      obtain ⟨w', ran, grows⟩ := serializeValue_stops array other within (mem.zvals z).value enough
      exact ⟨w', ran, (grows_addVarHash w z).trans grows⟩
    constructor
    · intro w z enough
      rcases serializeIntern_succ depth w z with done | ⟨same, _⟩
      · exact done
      rw [same]
      have less : (w.addVarHash mem z).1.room tables objects ≤ w.room tables objects :=
        (grows_addVarHash w z).room_le
      exact value w z (by omega)
    · intro w z notArray enough
      rcases serializeIntern_succ depth w z with done | ⟨same, fresh⟩
      · exact done
      rw [same]
      cases kind : (mem.zvals z).value with
      | array ht => exact absurd kind (notArray ht)
      | object handle =>
        have unseen := fresh.resolve_right fun plain => plain handle kind
        have less : (w.addVarHash mem z).1.room tables objects + 1 ≤ w.room tables objects :=
          room_addVarHash (within.object z handle kind) kind unseen
        rw [← kind]
        exact value w z (by omega)
      | _ => exact ⟨_, rfl, (grows_addVarHash w z).trans (grows_append _ _)⟩

/-- A finite graph is serialized. -/
theorem serializeIntern_terminates (within : mem.Within tables objects) (root : Addr) {depth : Nat}
    (enough : 2 * tables.card + objects.card + 2 ≤ depth) :
    ∃ w, serializeIntern gcvt mem depth .init root = some w := by
  have room : init.room tables objects = 2 * tables.card + objects.card := by
    simp [room, init, Nat.mul_comm]
  obtain ⟨w, ran, _⟩ := (serializeIntern_stops within depth).1 .init root (by omega)
  exact ⟨w, ran⟩

/-- `$a = array(&$a)` -/
def cyclicArray : Memory Unit :=
  ⟨fun _ => ⟨true, .array 0⟩, fun _ => ⟨[(.long 0#64, 0)], List.nodup_singleton _⟩, fun _ =>
    ⟨sampleKey, .empty⟩⟩

theorem serializeIntern_terminates_cycle :
    ∃ w, serializeIntern (fun _ => []) cyclicArray 4 .init 0 = some w :=
  @serializeIntern_terminates _ _ _ {0} ∅ ⟨by simp [cyclicArray], by simp [cyclicArray]⟩ 0
    4 (by decide)

end Jonj.Serialize
