import Jonj.Opcodes.Basic

/-!
# Jumps and finally blocks

`zend_check_finally_breakout` refuses the jumps that enter or leave a finally block other than
through its ends. It runs once for each jump, before the calls of the finally blocks are put in.
-/
namespace Jonj.Opcodes

/-- The two errors, with the line that `CG(zend_lineno)` is set to. -/
inductive BreakoutError where
  | jumpInto (lineno : Nat)
  | jumpOut (lineno : Nat)
  deriving DecidableEq, Repr

def BreakoutError.message : BreakoutError → String
  | jumpInto _ => "jump into a finally block is disallowed"
  | jumpOut _ => "jump out of a finally block is disallowed"

def checkTryElement (lineno opNum dstNum : Nat) (t : TryCatchElement) : Except BreakoutError Unit :=
  if (opNum < t.finallyOp ∨ opNum ≥ t.finallyEnd) ∧
    (dstNum ≥ t.finallyOp ∧ dstNum ≤ t.finallyEnd) then
    .error (.jumpInto lineno)
  else if (opNum ≥ t.finallyOp ∧ opNum ≤ t.finallyEnd) ∧
    (dstNum > t.finallyEnd ∨ dstNum < t.finallyOp) then
    .error (.jumpOut lineno)
  else .ok ()

/-- `zend_check_finally_breakout`; `zend_error_noreturn` ends the compilation. -/
def zendCheckFinallyBreakout (opArray : OpArray) (opNum dstNum : Nat) : Except BreakoutError Unit :=
  opArray.tryCatchArray.forM (checkTryElement (opArray.opcodes opNum).lineno opNum dstNum)

/-! ### What the check is for -/

namespace TryCatchElement

/-- `zend_add_try_element` writes zeros, which stay unless there is a finally block. -/
def HasFinally (t : TryCatchElement) : Prop := ¬ (t.finallyOp = 0 ∧ t.finallyEnd = 0)

/-- The instruction is within `finally_op..finally_end`. -/
def Contains (t : TryCatchElement) (num : Nat) : Prop := t.finallyOp ≤ num ∧ num ≤ t.finallyEnd

instance (t : TryCatchElement) (num : Nat) : Decidable (t.Contains num) :=
  inferInstanceAs (Decidable (t.finallyOp ≤ num ∧ num ≤ t.finallyEnd))

/-- The jump has one end in the finally block and the other one outside. -/
def Crossed (t : TryCatchElement) (opNum dstNum : Nat) : Prop :=
  t.HasFinally ∧ ¬ (t.Contains opNum ↔ t.Contains dstNum)

/-- The jumps that the loop takes for crossing ones: those from the `FAST_RET` at the end of a
finally block back into it, and without a finally block all that start or end at the first
instruction. -/
def Mistaken (t : TryCatchElement) (opNum dstNum : Nat) : Prop :=
  (t.HasFinally ∧ opNum = t.finallyEnd ∧ t.Contains opNum ∧ t.Contains dstNum) ∨
    (¬ t.HasFinally ∧ (opNum = 0 ∨ dstNum = 0))

end TryCatchElement

private theorem checkTryElement_ok_iff (lineno opNum dstNum : Nat) (t : TryCatchElement) :
    checkTryElement lineno opNum dstNum t = .ok () ↔ ¬ t.Crossed opNum dstNum ∧
      ¬ t.Mistaken opNum dstNum := by
  rw [checkTryElement, TryCatchElement.Crossed, TryCatchElement.Mistaken]
  by_cases real : t.HasFinally
  · -- the two tests differ from the closed interval only for a jump that starts at its end
    simp only [real, true_and, not_true_eq_false, false_and, or_false, TryCatchElement.Contains]
    split
    next into =>
      simp only [reduceCtorEq, false_iff]
      omega
    next notInto =>
    split
    next out =>
      simp only [reduceCtorEq, false_iff]
      omega
    next notOut =>
      simp only [true_iff]
      omega
  · -- the interval is 0..0, and no number is below it
    obtain ⟨opZero, endZero⟩ := not_not.mp real
    simp only [real, false_and, not_false_eq_true, true_and, false_or, opZero, endZero]
    split
    next into =>
      simp only [reduceCtorEq, false_iff]
      omega
    next notInto =>
    split
    next out =>
      simp only [reduceCtorEq, false_iff]
      omega
    next notOut =>
      simp only [true_iff]
      omega

private theorem forM_ok_iff {ε α : Type} (body : α → Except ε Unit) (list : List α) :
    list.forM body = .ok () ↔ ∀ a ∈ list, body a = .ok () := by
  induction list with
  | nil => exact ⟨fun _ a absent => (List.not_mem_nil absent).elim, fun _ => rfl⟩
  | cons a list ih =>
    rw [List.forall_mem_cons, ← ih]
    change (body a >>= fun _ => list.forM body) = .ok () ↔ _
    cases body a with
    | ok done => exact ⟨fun rest => ⟨rfl, rest⟩, And.right⟩
    | error e => exact ⟨fun stopped => (nomatch stopped), fun both => (nomatch both.1)⟩

/-- The jumps that should be refused. -/
def OpArray.CrossesFinally (opArray : OpArray) (opNum dstNum : Nat) : Prop :=
  ∃ t ∈ opArray.tryCatchArray, t.Crossed opNum dstNum

def Refuses (opArray : OpArray) (opNum dstNum : Nat) : Prop :=
  ∃ e, zendCheckFinallyBreakout opArray opNum dstNum = .error e

private theorem refuses_iff (opArray : OpArray) (opNum dstNum : Nat) :
    Refuses opArray opNum dstNum ↔
      ∃ t ∈ opArray.tryCatchArray, t.Crossed opNum dstNum ∨ t.Mistaken opNum dstNum := by
  have passes : zendCheckFinallyBreakout opArray opNum dstNum = .ok () ↔
      ∀ t ∈ opArray.tryCatchArray, ¬ t.Crossed opNum dstNum ∧ ¬ t.Mistaken opNum dstNum := by
    rw [zendCheckFinallyBreakout, forM_ok_iff]
    simp only [checkTryElement_ok_iff]
  have either : Refuses opArray opNum dstNum ↔ ¬ zendCheckFinallyBreakout opArray opNum dstNum =
      .ok () := by
    rw [Refuses]
    cases zendCheckFinallyBreakout opArray opNum dstNum <;> simp
  rw [either, passes]
  push Not
  simp only [or_iff_not_imp_left]

/-- The check is right about a jump that does cross a finally block, and about the jumps that it
does not mistake for one. Without a finally block anywhere a jump must stay away from the first
instruction. -/
theorem zendCheckFinallyBreakout_iff (opArray : OpArray) (opNum dstNum : Nat) :
    (Refuses opArray opNum dstNum ↔ opArray.CrossesFinally opNum dstNum) ↔
      opArray.CrossesFinally opNum dstNum ∨ ∀ t ∈ opArray.tryCatchArray,
        ¬ t.Mistaken opNum dstNum := by
  rw [refuses_iff]
  constructor
  · intro same
    by_cases crosses : opArray.CrossesFinally opNum dstNum
    · exact .inl crosses
    · exact .inr fun t member mistaken => crosses (same.mp ⟨t, member, .inr mistaken⟩)
  rintro (⟨t, member, crossed⟩ | never)
  · exact ⟨fun _ => ⟨t, member, crossed⟩, fun _ => ⟨t, member, .inl crossed⟩⟩
  · refine ⟨?_, fun ⟨t, member, crossed⟩ => ⟨t, member, .inl crossed⟩⟩
    rintro ⟨t, member, crossed | mistaken⟩
    · exact ⟨t, member, crossed⟩
    · exact absurd mistaken (never t member)

/-- `while ($x) { try { ... } catch (E $e) { } }` and then `try { ... } finally { ... }`:
instruction 6 jumps back to the condition of the loop, which is instruction 0. -/
def catchInLoop : OpArray where
  opcodes := fun _ => ⟨.jmp, 0, 0, none, 0, false, 1⟩
  last := 14
  brkContArray := []
  tryCatchArray := [⟨1, 4, 0, 0⟩, ⟨7, 0, 11, 12⟩]
  earlyBinding := none

/-- The jump stays away from the finally block, but it is refused for the try statement that has
none. -/
theorem loop_refused :
    zendCheckFinallyBreakout catchInLoop 6 0 = .error (.jumpInto 1) ∧
      ¬ catchInLoop.CrossesFinally 6 0 := by
  refine ⟨rfl, ?_⟩
  rintro ⟨t, member, real, crossed⟩
  rcases List.mem_pair.mp member with rfl | rfl
  · exact real ⟨rfl, rfl⟩
  · exact crossed (by decide)

end Jonj.Opcodes
