import Jonj.Lib.CChar

/-!
# `smart_str`

A string in a buffer that grows. The program ends when a buffer of `INT_MAX` bytes would be asked
for, so that a text which is built in this way is shorter than that.
-/
namespace Jonj

/-- `a` is the size of the buffer, or 0 as long as there is none. -/
structure SmartStr where
  bytes : Bytes
  a : Nat
  unallocated : a = 0 → bytes = []

namespace SmartStr

/-- `SMART_STR_START_SIZE` -/
def startSize : Nat := 78

/-- `SMART_STR_PREALLOC` -/
def prealloc : Nat := 128

def empty : SmartStr := ⟨[], 0, fun _ => rfl⟩

/-- The size of the first buffer, for so many bytes. -/
def firstSize (newlen : Nat) : Nat :=
  if newlen < startSize then startSize
  else if intMax - prealloc ≤ newlen then newlen
  else newlen + prealloc

/-- `smart_str_appendl`; `none` is the fatal error of `smart_str_alloc4`. -/
def append (s : SmartStr) (src : Bytes) : Option SmartStr :=
  if new : s.a = 0 then
    some ⟨src, firstSize src.length, by simp only [firstSize, startSize]; grind⟩
  else
    let newlen := s.bytes.length + src.length
    if newlen < s.a then some ⟨s.bytes ++ src, s.a, fun zero => absurd zero new⟩
    else if intMax ≤ newlen + prealloc then none
    else some ⟨s.bytes ++ src, newlen + prealloc, by simp [prealloc]⟩

theorem append_bytes {s s' : SmartStr} {src : Bytes} (grown : s.append src = some s') :
    s'.bytes = s.bytes ++ src := by
  rw [append] at grown
  split at grown
  next new =>
    obtain rfl := Option.some.inj grown
    simp [s.unallocated new]
  next =>
    dsimp only at grown
    split at grown
    next =>
      obtain rfl := Option.some.inj grown
      rfl
    next =>
      split at grown
      next => cases grown
      next =>
        obtain rfl := Option.some.inj grown
        rfl

/-- A text that is shorter than this can be built in any steps. -/
def limit : Nat := intMax - prealloc

theorem append_of_short {s : SmartStr} {src : Bytes} (short : s.bytes.length + src.length < limit) :
    ∃ s', s.append src = some s' ∧ s'.bytes = s.bytes ++ src := by
  obtain ⟨s', grown⟩ : ∃ s', s.append src = some s' := by
    rw [limit] at short
    rw [append]
    split
    next => exact ⟨_, rfl⟩
    next =>
      dsimp only
      split
      next => exact ⟨_, rfl⟩
      next => exact ⟨_, if_neg (by omega)⟩
  exact ⟨s', grown, append_bytes grown⟩

/-- Several calls of `smart_str_appendl`, one after the other. -/
def appendAll (s : SmartStr) (parts : List Bytes) : Option SmartStr := parts.foldlM append s

theorem appendAll_of_short {s : SmartStr} {parts : List Bytes}
    (short : s.bytes.length + parts.flatten.length < limit) :
    ∃ s', s.appendAll parts = some s' ∧ s'.bytes = s.bytes ++ parts.flatten := by
  induction parts generalizing s with
  | nil => exact ⟨s, rfl, by simp⟩
  | cons part parts ih =>
    rw [List.flatten_cons, List.length_append] at short
    obtain ⟨first, grown, bytes⟩ := @append_of_short s part (by omega)
    obtain ⟨s', others, whole⟩ := @ih first (by rw [bytes, List.length_append]; omega)
    refine ⟨s', ?_, by rw [whole, bytes, List.flatten_cons, List.append_assoc]⟩
    rw [appendAll, List.foldlM_cons, grown]
    exact others

/-- A text that grows by more than the room that is kept passes the limit at once. -/
theorem append_grows {s : SmartStr} {src : Bytes} (room : s.a = 0 ∨ s.a = s.bytes.length + prealloc)
    (more : prealloc ≤ src.length) (less : src.length < limit) :
    s.append src = none ∨ ∃ s', s.append src = some s' ∧ s'.bytes = s.bytes ++ src ∧
      s'.a = s'.bytes.length + prealloc ∧ s'.bytes.length < limit := by
  rw [limit] at *
  rw [append]
  split
  next new =>
    have first : firstSize src.length = src.length + prealloc := by
      rw [firstSize, if_neg (by rw [startSize]; rw [prealloc] at more; omega), if_neg (by omega)]
    exact .inr ⟨_, rfl, by simp [s.unallocated new], first, less⟩
  next started =>
    dsimp only
    rw [if_neg (by omega)]
    split
    next => exact .inl rfl
    next inside =>
      refine .inr ⟨_, rfl, rfl, by rw [List.length_append], ?_⟩
      rw [List.length_append]
      omega

end SmartStr

end Jonj
