import Jonj.Lib.Chunks
import Jonj.Serialize.Scan

/-!
# The slots of `var_hash`

Whatever the input is, the chunks of `var_entries` stay packed, and no two slots hold the same
zval, since every value is read into a zval of its own.
-/
namespace Jonj.Serialize

open List

variable {D : Type} {env : Env D}

/-- `var_push` and `var_access` are the operations on chunks. -/
theorem varPush_eq (varHash : List (List Addr)) (rval : Addr) :
    varPush varHash rval = Chunks.push varEntriesMax varHash rval := by
  rw [varPush, Chunks.push]
  cases varHash.getLast? <;> rfl

private theorem varAccess_eq (varHash : List (List Addr)) (id : Int) :
    varAccess varHash id = Chunks.access varEntriesMax varHash id := by
  induction varHash generalizing id with
  | nil => rfl
  | cons chunk next ih => rw [varAccess, Chunks.access, ih]

variable {r : Reader D}

namespace Reader

/-- What is true of the slots in every state of the reader. -/
structure Ordered (r : Reader D) : Prop where
  packed : Chunks.Packed varEntriesMax r.varHash
  length : r.varHash.flatten.length = r.pushedAt.length
  nodup : r.varHash.flatten.Nodup
  allocated : ∀ z ∈ r.varHash.flatten, z < r.nextZval

/-- A step that touches no slot. -/
structure Keeps (r r' : Reader D) : Prop where
  varHash : r'.varHash = r.varHash
  pushedAt : r'.pushedAt = r.pushedAt
  nextZval : r.nextZval ≤ r'.nextZval

theorem Keeps.refl (r : Reader D) : r.Keeps r := ⟨rfl, rfl, le_rfl⟩

theorem Keeps.trans {r₁ r₂ : Reader D} (first : r.Keeps r₁) (second : r₁.Keeps r₂) : r.Keeps r₂ :=
  ⟨second.varHash.trans first.varHash, second.pushedAt.trans first.pushedAt,
    first.nextZval.trans second.nextZval⟩

/-- What a part of the reading does to the slots. -/
structure Advances (r r' : Reader D) : Prop where
  ordered : r'.Ordered
  nextZval : r.nextZval ≤ r'.nextZval

theorem Ordered.of_keeps {r' : Reader D} (ordered : r.Ordered) (keeps : r.Keeps r') :
    r'.Ordered where
  packed := by
    rw [keeps.varHash]
    exact ordered.packed
  length := by
    rw [keeps.varHash, keeps.pushedAt]
    exact ordered.length
  nodup := by
    rw [keeps.varHash]
    exact ordered.nodup
  allocated := by
    rw [keeps.varHash]
    exact fun z member => (ordered.allocated z member).trans_le keeps.nextZval

theorem Ordered.advances {r' : Reader D} (ordered : r.Ordered) (keeps : r.Keeps r') :
    r.Advances r' :=
  ⟨ordered.of_keeps keeps, keeps.nextZval⟩

theorem Advances.trans {r₁ r₂ : Reader D} (first : r.Advances r₁) (second : r₁.Advances r₂) :
    r.Advances r₂ := ⟨second.ordered, first.nextZval.trans second.nextZval⟩

/-- A slot is found by its number, in whichever chunk it is. -/
theorem Ordered.varAccess (ordered : r.Ordered) (index : Nat) :
    varAccess r.varHash index = r.varHash.flatten[index]? := by
  rw [varAccess_eq, ordered.packed.access_eq]

/-- The slot of a new value. -/
theorem Ordered.push (ordered : r.Ordered) {rval : Addr} {hash : Bool} (old : rval < r.nextZval)
    (free : hash = true → rval ∉ r.varHash.flatten) : r.Advances (r.push rval hash) := by
  rw [Reader.push]
  split
  next pushed =>
    refine ⟨⟨?_, ?_, ?_, ?_⟩, le_rfl⟩
    · rw [varPush_eq]
      exact ordered.packed.push (by decide) rval
    · rw [varPush_eq, Chunks.flatten_push, length_append, length_append, ordered.length]
      rfl
    · rw [varPush_eq, Chunks.flatten_push, nodup_append]
      refine ⟨ordered.nodup, nodup_singleton _, ?_⟩
      rintro z member other same rfl
      rw [mem_singleton.mp same] at member
      exact free pushed.1 member
    · rw [varPush_eq, Chunks.flatten_push]
      intro z member
      rcases mem_append.mp member with before | new
      · exact ordered.allocated z before
      · rw [mem_singleton.mp new]
        exact old
  · exact ordered.advances (.refl r)

/-! ### Steps that touch no slot -/

theorem keeps_update (r : Reader D) (target : Target) (key : Key) (data : Addr) :
    r.Keeps (r.update target key data) := by
  cases target <;> exact ⟨rfl, rfl, le_rfl⟩

theorem keeps_finishNestedData (r : Reader D) (rval : Addr) :
    r.Keeps (r.finishNestedData rval).1 := by
  rw [finishNestedData]
  split <;> exact ⟨rfl, rfl, le_rfl⟩

private theorem keeps_finishString (r : Reader D) (rval : Addr) (str rest : Bytes) :
    r.Keeps (r.finishString rval str rest).1 := by
  rw [finishString]
  split
  · split <;> exact ⟨rfl, rfl, le_rfl⟩
  · exact ⟨rfl, rfl, le_rfl⟩

theorem keeps_storeClassName (r : Reader D) (handle : Nat) (name : Str) :
    r.Keeps (r.storeClassName env handle name) := by
  have stored := keeps_update (r.allocZval.1.setValue r.nextZval (.string name)) (.object handle)
    (.string env.magicMember) r.nextZval
  exact ⟨stored.varHash, stored.pushedAt, (Nat.le_succ _).trans stored.nextZval⟩

private theorem keeps_objectCustom (r : Reader D) (rval : Addr) (ce : ClassEntry) :
    r.Keeps (r.objectCustom rval ce).1 := by
  simp only [objectCustom]
  split
  · exact ⟨rfl, rfl, le_rfl⟩
  · have finished := keeps_finishNestedData { r.initObject rval ce with
      input := ((parseIv2 (r.input.drop 2)).2.drop 2).drop
        (parseIv2 (r.input.drop 2)).1.toNat } rval
    exact ⟨finished.varHash, finished.pushedAt, finished.nextZval⟩

/-! ### The recursion -/

section nested

variable {unserialize : Reader D → Addr → Bool → Reader D × Option Addr}
  (each : ∀ (r : Reader D) (rval : Addr) (hash : Bool), r.Ordered → rval < r.nextZval →
    (hash = true → rval ∉ r.varHash.flatten) → r.Advances (unserialize r rval hash).1)
include each

/-- By induction over the elements; key and value are read by calls below. -/
theorem processNestedData_advances (target : Target) (elements : Nat)
    (ordered : r.Ordered) : r.Advances (processNestedData unserialize target elements r).1 := by
  induction elements generalizing r with
  | zero => exact ordered.advances (.refl r)
  | succ elements ih =>
    have allocated : ∀ r : Reader D, r.Keeps r.allocZval.1 := fun r => ⟨rfl, rfl, Nat.le_succ _⟩
    have first := ordered.advances (allocated r)
    have keyRead : r.Advances (unserialize r.allocZval.1 r.allocZval.2 false).1 := first.trans
      (each r.allocZval.1 r.nextZval false first.ordered (Nat.lt_succ_self _) (by simp))
    rw [processNestedData]
    simp only
    split
    next r₁ read =>
      rw [read] at keyRead
      exact keyRead
    next r₁ key read =>
    rw [read] at keyRead
    split
    · exact keyRead
    next k found =>
    -- the zval for the value is new, so it is in no slot yet
    have second := keyRead.ordered.advances (allocated r₁)
    have fresh : r₁.nextZval ∉ r₁.varHash.flatten := fun member =>
      (keyRead.ordered.allocated _ member).false
    have dataRead : r.Advances (unserialize r₁.allocZval.1 r₁.allocZval.2 true).1 :=
      (keyRead.trans second).trans
      (each r₁.allocZval.1 r₁.nextZval true second.ordered (Nat.lt_succ_self _) fun _ => fresh)
    split
    next r₂ read =>
      rw [read] at dataRead
      exact dataRead
    next r₂ data read =>
    rw [read] at dataRead
    have stored := dataRead.trans (dataRead.ordered.advances (keeps_update r₂ target k data))
    split
    · exact stored
    · exact stored.trans (ih stored.ordered)

theorem readNested_advances (ordered : r.Ordered) (rval : Addr) (target : Target)
    (elements : Long) : r.Advances (readNested unserialize r rval target elements).1 := by
  have looped := processNestedData_advances each target elements.toNat ordered
  rw [readNested]
  split
  · exact ordered.advances ⟨rfl, rfl, le_rfl⟩
  split
  next r₁ read =>
    rw [read] at looped
    exact looped.trans (looped.ordered.advances (keeps_finishNestedData r₁ rval))
  next r₁ read =>
    rw [read] at looped
    exact looped.trans (looped.ordered.advances ⟨rfl, rfl, le_rfl⟩)

/-- Also an object of an unknown class, or one that reads itself, keeps the order. -/
theorem readObject_advances (ordered : r.Ordered) (rval : Addr) (custom : Bool) (len : Nat)
    (input : Bytes) :
    r.Advances (readObject env unserialize r rval custom len input).1 := by
  have nested : ∀ (r' : Reader D) (target : Target) (elements : Long), r.Keeps r' →
      r.Advances (readNested unserialize r' rval target elements).1 := by
    intro r' target elements keeps
    have opened := ordered.advances keeps
    exact opened.trans (readNested_advances each opened.ordered rval target elements)
  have failed : r.Advances r.fail.1 := ordered.advances ⟨rfl, rfl, le_rfl⟩
  rw [readObject]
  split
  · simp only
    split
    · exact failed
    split
    · have read := keeps_objectCustom { r with input := input.drop len } rval
        ((env.lookupClass (input.take len)).getD env.incompleteClass)
      have read : r.Keeps _ := ⟨read.varHash, read.pushedAt, read.nextZval⟩
      split
      · exact ordered.advances (read.trans (keeps_storeClassName _ _ _))
      · exact ordered.advances read
    split
    · exact ordered.advances ⟨rfl, rfl, le_rfl⟩
    apply nested
    split
    · apply Keeps.trans _ (keeps_storeClassName _ _ _)
      exact ⟨rfl, rfl, le_rfl⟩
    · exact ⟨rfl, rfl, le_rfl⟩
  · exact failed

/-- One case for each kind of record. -/
theorem act_advances (ordered : r.Ordered) (rval : Addr) (hash : Bool) (rest : Bytes)
    (token : Token) : r.Advances (r.act env unserialize rval hash rest token).1 := by
  have same : ∀ {r' : Reader D}, r'.varHash = r.varHash → r'.pushedAt = r.pushedAt →
      r'.nextZval = r.nextZval → r.Advances r' := fun varHash pushedAt nextZval =>
    ordered.advances ⟨varHash, pushedAt, nextZval.ge⟩
  cases token with
  | ref id =>
    rw [act]
    generalize (if hash = true then Serialize.varAccess r.varHash ((id - 1).toInt)
      else none) = found
    cases found <;> exact same rfl rfl rfl
  | objectRef id =>
    rw [act]
    generalize (if hash = true then Serialize.varAccess r.varHash ((id - 1).toInt)
      else none) = found
    cases found with
    | none => exact same rfl rfl rfl
    | some z =>
      simp only
      split <;> exact same rfl rfl rfl
  | null | bool | long | double => exact same rfl rfl rfl
  | string len =>
    rw [act]
    split
    · exact same rfl rfl rfl
    · exact ordered.advances (keeps_finishString r rval _ _)
  | escaped len =>
    rw [act]
    split
    · exact same rfl rfl rfl
    · cases unserializeStr len rest with
      | none => exact same rfl rfl rfl
      | some read => exact ordered.advances (keeps_finishString r rval _ _)
  | array elements =>
    rw [act]
    split
    · exact same rfl rfl rfl
    · have opened : r.Advances { r.initArray rval with input := rest } := same rfl rfl rfl
      exact opened.trans (readNested_advances each opened.ordered rval _ elements)
  | oldObject elements =>
    rw [act]
    split
    · exact same rfl rfl rfl
    · have opened : r.Advances { r.initObject rval env.standardClass with input := rest } :=
        same rfl rfl rfl
      exact opened.trans (readNested_advances each opened.ordered rval _ elements)
  | object custom len =>
    rw [act]
    split
    · exact same rfl rfl rfl
    · exact readObject_advances each ordered rval custom len rest

end nested

/-- A call only adds slots, whatever the input is. -/
theorem unserialize_advances (env : Env D) (depth : Nat) (r : Reader D) (rval : Addr) (hash : Bool)
    (ordered : r.Ordered) (old : rval < r.nextZval)
    (free : hash = true → rval ∉ r.varHash.flatten) :
    r.Advances (unserialize env depth r rval hash).1 := by
  induction depth generalizing r rval hash with
  | zero => exact ordered.advances ⟨rfl, rfl, le_rfl⟩
  | succ depth ih =>
    have pushed := ordered.push old free
    rw [unserialize]
    split
    · exact ordered.advances ⟨rfl, rfl, le_rfl⟩
    · cases scan r.input with
      | none => exact pushed.trans (pushed.ordered.advances ⟨rfl, rfl, le_rfl⟩)
      | some scanned =>
        exact pushed.trans (act_advances ih pushed.ordered rval hash scanned.2 scanned.1)

end Reader

end Jonj.Serialize
