import Jonj.Opcodes.Basic

/-!
# Removing NOPs

Pass 10 of the optimizer moves the instructions together in place, notes in `shiftlist`
by how much each one moves, and then renumbers the operands and tables that name
instructions.
-/
namespace Jonj.Opcodes

open List Function TryCatchElement

/-! ### The pass -/

/-- The last instruction before number `n` that is no NOP; `none` if there is none. -/
def lastBefore (opcodes : Nat → Op) : Nat → Option Nat
  | 0 => none
  | n + 1 => if (opcodes n).opcode = .nop then lastBefore opcodes n else some n

/-- The variables of the first loop. -/
structure Compaction where
  opcodes : Nat → Op
  newCount : Nat
  shift : Nat
  shiftlist : Nat → Nat

/-- One round of the first loop. It ends the pass, with the opcodes as they are, at a
`GOTO` whose target is unresolved. -/
def compactStep (s : Compaction) (i : Nat) : Except (Nat → Op) Compaction :=
  let opline := s.opcodes i
  if opline.opcode = .goto ∧ ¬ opline.resolved then .error s.opcodes
  else
    let opcodes :=
      -- kill JMP-over-NOP-s
      if opline.opcode = .jmp ∧ opline.op1 > i ∧ lastBefore s.opcodes opline.op1 = some i then
        Function.update s.opcodes i { opline with opcode := .nop }
      else s.opcodes
    let shiftlist := Function.update s.shiftlist i s.shift
    if (opcodes i).opcode = .nop then .ok { s with opcodes, shiftlist, shift := s.shift + 1 }
    else
      let moved := if s.shift ≠ 0 then Function.update opcodes s.newCount (opcodes i) else opcodes
      .ok { s with opcodes := moved, shiftlist, newCount := s.newCount + 1 }

def compact (a : OpArray) : Except (Nat → Op) Compaction :=
  (List.range a.last).foldlM compactStep ⟨a.opcodes, 0, 0, fun _ => 0⟩

/-- The cases of the switch over the remaining instructions. -/
def Op.renumber (shiftlist : Nat → Nat) (op : Op) : Op :=
  match op.opcode with
  | .jmp | .goto | .fastCall => { op with op1 := op.op1 - shiftlist op.op1 }
  | .jmpz | .jmpnz | .jmpzEx | .jmpnzEx | .feFetch | .feReset | .new | .jmpSet | .jmpSetVar =>
    { op with op2 := op.op2 - shiftlist op.op2 }
  | .jmpznz =>
    { op with op2 := op.op2 - shiftlist op.op2
              extendedValue := op.extendedValue - shiftlist op.extendedValue }
  | .catch => { op with extendedValue := op.extendedValue - shiftlist op.extendedValue }
  | _ => op

/-- For a start of `-1` the word before `shiftlist` is read, which is outside the list. -/
def BrkContElement.renumber (shiftlist : Nat → Nat) (e : BrkContElement) :
    Option BrkContElement :=
  e.start.map fun start =>
    { e with brk := e.brk - shiftlist e.brk, cont := e.cont - shiftlist e.cont
             start := some (start - shiftlist start) }

def TryCatchElement.renumber (shiftlist : Nat → Nat) (e : TryCatchElement) : TryCatchElement :=
  let e := { e with tryOp := e.tryOp - shiftlist e.tryOp,
                    catchOp := e.catchOp - shiftlist e.catchOp }
  if e.finallyOp ≠ 0 then
    { e with finallyOp := e.finallyOp - shiftlist e.finallyOp
             finallyEnd := e.finallyEnd - shiftlist e.finallyEnd }
  else e

/-- Where an entry of the early-binding list is kept: in the op array itself, or in an
instruction. -/
def OpArray.link (a : OpArray) : Option Nat → Option Nat
  | none => a.earlyBinding
  | some k => (a.opcodes k).result

def OpArray.setLink (a : OpArray) (slot : Option Nat) (n : Nat) : OpArray :=
  match slot with
  | none => { a with earlyBinding := some n }
  | some k =>
    { a with opcodes := Function.update a.opcodes k { a.opcodes k with result := some n } }

/-- The loop over the early-binding list, with a bound on its rounds. -/
def updateEarlyBinding (shiftlist : Nat → Nat) : Nat → OpArray → Option Nat → Option OpArray
  | 0, _, _ => none
  | fuel + 1, a, slot =>
    match a.link slot with
    | none => some a
    | some n =>
      updateEarlyBinding shiftlist fuel (a.setLink slot (n - shiftlist n)) (some (n - shiftlist n))

/-- The pass; `none` if it reads outside `shiftlist` or does not end. -/
def nopRemoval (a : OpArray) : Option OpArray :=
  match compact a with
  | .error opcodes => some { a with opcodes }
  | .ok s =>
    if s.shift ≠ 0 then do
      let opcodes := fun k => if k < s.newCount then (s.opcodes k).renumber s.shiftlist
        else s.opcodes k
      let brkContArray ← a.brkContArray.mapM (BrkContElement.renumber s.shiftlist)
      let tryCatchArray := a.tryCatchArray.map (TryCatchElement.renumber s.shiftlist)
      updateEarlyBinding s.shiftlist (a.last + 1)
        { a with opcodes, last := s.newCount, brkContArray, tryCatchArray } none
    else some { a with opcodes := s.opcodes }

/-! ### What the pass is for -/

/-- A `JMP` forward over nothing but NOPs. -/
def OpArray.overNops (a : OpArray) (k : Nat) : Prop :=
  (a.opcodes k).opcode = .jmp ∧ k < (a.opcodes k).op1 ∧
    ∀ j < (a.opcodes k).op1, k < j → (a.opcodes j).opcode = .nop

/-- The instructions that remain. -/
def OpArray.Kept (a : OpArray) (k : Nat) : Prop :=
  (a.opcodes k).opcode ≠ .nop ∧ ¬ a.overNops k

instance (a : OpArray) : DecidablePred a.overNops := fun _ => by
  unfold OpArray.overNops
  infer_instance

instance (a : OpArray) : DecidablePred a.Kept := fun _ => by
  unfold OpArray.Kept
  infer_instance

/-- The number that instruction `k` has afterwards or, if it is removed, the number of the
first remaining instruction after it. -/
def OpArray.image (a : OpArray) (k : Nat) : Nat := Nat.count a.Kept k

/-- The instruction with `f` applied to every number of an instruction that the virtual
machine may continue at from it. -/
def Op.retarget (f : Nat → Nat) (op : Op) : Op :=
  match op.opcode with
  | .jmp => { op with op1 := f op.op1 }
  | .goto => if op.resolved then { op with op1 := f op.op1 } else op
  | .jmpz | .jmpnz | .jmpzEx | .jmpnzEx | .feFetch | .feReset | .new | .jmpSet | .jmpSetVar =>
    { op with op2 := f op.op2 }
  | .jmpznz => { op with op2 := f op.op2, extendedValue := f op.extendedValue }
  | .catch => { op with extendedValue := f op.extendedValue }
  | .fastCall =>
    { op with op1 := f op.op1, op2 := if op.extendedValue ≠ 0 then f op.op2 else op.op2 }
  | .fastRet => { op with op2 := if op.extendedValue ≠ 0 then f op.op2 else op.op2 }
  | _ => op

def BrkContElement.retarget (f : Nat → Nat) (e : BrkContElement) : BrkContElement :=
  { e with brk := f e.brk, cont := f e.cont, start := e.start.map f }

def TryCatchElement.retarget (f : Nat → Nat) (e : TryCatchElement) : TryCatchElement :=
  { tryOp := f e.tryOp, catchOp := f e.catchOp
    finallyOp := if e.finallyOp ≠ 0 then f e.finallyOp else e.finallyOp
    finallyEnd := if e.finallyOp ≠ 0 then f e.finallyEnd else e.finallyEnd }

/-- The numbers that an instruction names. -/
def Op.targets (op : Op) : List Nat :=
  match op.opcode with
  | .jmp => [op.op1]
  | .goto => if op.resolved then [op.op1] else []
  | .jmpz | .jmpnz | .jmpzEx | .jmpnzEx | .feFetch | .feReset | .new | .jmpSet | .jmpSetVar =>
    [op.op2]
  | .jmpznz => [op.op2, op.extendedValue]
  | .catch => [op.extendedValue]
  | .fastCall => if op.extendedValue ≠ 0 then [op.op1, op.op2] else [op.op1]
  | .fastRet => if op.extendedValue ≠ 0 then [op.op2] else []
  | _ => []

/-- `l` is the early-binding list from `slot` on. -/
def OpArray.EarlyBinding (a : OpArray) : Option Nat → List Nat → Prop
  | slot, [] => a.link slot = none
  | slot, n :: l => a.link slot = some n ∧ a.EarlyBinding (some n) l

/-- All numbers of instructions are in range, and the early-binding list `l` links
delayed declarations. -/
structure OpArray.InRange (a : OpArray) (l : List Nat) : Prop where
  target : ∀ k < a.last, ∀ t ∈ (a.opcodes k).targets, t < a.last
  brkCont : ∀ e ∈ a.brkContArray, e.brk < a.last ∧ e.cont < a.last ∧ ∀ s ∈ e.start, s < a.last
  tryCatch : ∀ e ∈ a.tryCatchArray, e.tryOp < a.last ∧ e.catchOp < a.last ∧
    (e.finallyOp ≠ 0 → e.finallyOp < a.last ∧ e.finallyEnd < a.last)
  earlyBinding : a.EarlyBinding none l
  delayed : ∀ n ∈ l, n < a.last ∧ (a.opcodes n).opcode = .declareInheritedClassDelayed

/-- The pass has kept control flow: the remaining instructions are there, in order, and
every number of an instruction, in operands and tables, has been replaced by its image. -/
structure KeepsControlFlow (a : OpArray) (l : List Nat) (a' : OpArray) : Prop where
  last : a'.last = a.image a.last
  opcodes : ∀ k < a.last, a.Kept k → a'.opcodes (a.image k) =
    { (a.opcodes k).retarget a.image with
      result := if k ∈ l then (a.opcodes k).result.map a.image else (a.opcodes k).result }
  brkCont : a'.brkContArray = a.brkContArray.map (BrkContElement.retarget a.image)
  tryCatch : a'.tryCatchArray = a.tryCatchArray.map (TryCatchElement.retarget a.image)
  earlyBinding : a'.EarlyBinding none (l.map a.image)

/-- What the pass does not handle: operands of `FAST_CALL` and `FAST_RET` that it leaves as
they are, targets that are not known yet, and loops that start nowhere. -/
structure OpArray.Handled (a : OpArray) : Prop where
  fast : ∀ k < a.last, (a.opcodes k).opcode = .fastCall ∨ (a.opcodes k).opcode = .fastRet →
    (a.opcodes k).extendedValue ≠ 0 → a.image (a.opcodes k).op2 = (a.opcodes k).op2
  goto : ∀ k < a.last, (a.opcodes k).opcode = .goto → (a.opcodes k).resolved = false →
    ∀ j < a.last, a.Kept j
  start : ∀ e ∈ a.brkContArray, e.start = none → ∀ j < a.last, a.Kept j

/-! ### The first loop -/

variable {s : Compaction} {n : Nat}

section compact

variable {a : OpArray} {opcodes : Nat → Op} {i : Nat}

private theorem lastBefore_eq_some : lastBefore opcodes n = some i ↔
    i < n ∧ (opcodes i).opcode ≠ .nop ∧ ∀ j < n, i < j → (opcodes j).opcode = .nop := by
  induction n with
  | zero => simp [lastBefore]
  | succ n ih =>
    rw [lastBefore]
    split
    next nop =>
      rw [ih]
      constructor
      · rintro ⟨below, here, between⟩
        refine ⟨by omega, here, fun j bound above => ?_⟩
        rcases Nat.lt_succ_iff_lt_or_eq.mp bound with lower | rfl
        · exact between j lower above
        · exact nop
      rintro ⟨below, here, between⟩
      have apart : i ≠ n := by
        rintro rfl
        exact here nop
      exact ⟨by omega, here, fun j bound => between j (by omega)⟩
    next other =>
      constructor
      · rintro ⟨⟩
        exact ⟨by omega, other, fun j bound above => by omega⟩
      rintro ⟨below, _, between⟩
      rcases Nat.lt_succ_iff_lt_or_eq.mp below with lower | rfl
      · exact absurd (between n (by omega) lower) other
      · rfl

theorem image_succ (a : OpArray) (k : Nat) :
    a.image (k + 1) = a.image k + if a.Kept k then 1 else 0 :=
  Nat.count_succ a.Kept k

theorem image_le (a : OpArray) (k : Nat) : a.image k ≤ k := Nat.count_le _

theorem image_lt_image {k : Nat} (kept : a.Kept k) (bound : k < n) : a.image k < a.image n :=
  Nat.count_strict_mono kept bound

private theorem image_inj {j k : Nat} (first : a.Kept j) (second : a.Kept k)
    (same : a.image j = a.image k) : j = k := Nat.count_injective first second same

theorem image_eq_self (all : ∀ j < n, a.Kept j) {k : Nat} (le : k ≤ n) :
    a.image k = k := Nat.count_iff_forall.mpr fun j bound => all j (by omega)

/-- The instructions before `i` have been moved to their images. -/
structure Compacted (a : OpArray) (i : Nat) (s : Compaction) : Prop where
  newCount : s.newCount = a.image i
  shift : s.newCount + s.shift = i
  shiftlist : ∀ j < i, s.shiftlist j = j - a.image j
  moved : ∀ j < i, a.Kept j → s.opcodes (a.image j) = a.opcodes j
  rest : ∀ j, i ≤ j → s.opcodes j = a.opcodes j

section

variable (inv : Compacted a i s)

include inv

/-- The test for a `JMP` over NOPs looks only at instructions that have not been moved. -/
theorem Compacted.overNops_iff : ((s.opcodes i).opcode = .jmp ∧ (s.opcodes i).op1 > i ∧
      lastBefore s.opcodes (s.opcodes i).op1 = some i) ↔ a.overNops i := by
  rw [lastBefore_eq_some, inv.rest i le_rfl]
  constructor
  · rintro ⟨jmp, above, _, _, between⟩
    refine ⟨jmp, above, fun j bound after => ?_⟩
    rw [← inv.rest j after.le]
    exact between j bound after
  rintro ⟨jmp, above, between⟩
  refine ⟨jmp, above, above, by simp [jmp], fun j bound after => ?_⟩
  rw [inv.rest j after.le]
  exact between j bound after

theorem Compacted.noted : ∀ j < i + 1, update s.shiftlist i s.shift j = j - a.image j := by
  intro j bound
  rcases Nat.lt_succ_iff_lt_or_eq.mp bound with lower | rfl
  · rw [update_of_ne lower.ne]
    exact inv.shiftlist j lower
  · rw [update_self, ← inv.newCount]
    have total := inv.shift
    omega

theorem Compacted.drop (removed : ¬ a.Kept i) (opcodes : Nat → Op)
    (same : ∀ j, j ≠ i → opcodes j = s.opcodes j) : Compacted a (i + 1) { s with
      opcodes, shiftlist := update s.shiftlist i s.shift, shift := s.shift + 1 } where
  newCount := by
    rw [image_succ, if_neg removed]
    exact inv.newCount
  shift := by
    have total := inv.shift
    simp only
    omega
  shiftlist := inv.noted
  moved j bound kept := by
    have lower : j < i := by
      rcases Nat.lt_succ_iff_lt_or_eq.mp bound with lower | rfl
      · exact lower
      · exact absurd kept removed
    exact (same _ ((image_le a j).trans_lt lower).ne).trans (inv.moved j lower kept)
  rest j above := (same j (by omega)).trans (inv.rest j (by omega))

theorem Compacted.keep (kept : a.Kept i) : Compacted a (i + 1) { s with
      opcodes := if s.shift ≠ 0 then update s.opcodes s.newCount (s.opcodes i) else s.opcodes
      shiftlist := update s.shiftlist i s.shift, newCount := s.newCount + 1 } where
  newCount := by
    rw [image_succ, if_pos kept, ← inv.newCount]
  shift := by
    have total := inv.shift
    simp only
    omega
  shiftlist := inv.noted
  moved j bound keptJ := by
    have total := inv.shift
    have place := inv.newCount
    simp only
    rcases Nat.lt_succ_iff_lt_or_eq.mp bound with lower | rfl
    · have apart := image_lt_image keptJ lower
      split
      · rw [update_of_ne (by omega)]
        exact inv.moved j lower keptJ
      · exact inv.moved j lower keptJ
    rw [← place]
    split
    · rw [update_self]
      exact inv.rest j le_rfl
    · rw [show s.newCount = j by omega]
      exact inv.rest j le_rfl
  rest j above := by
    have total := inv.shift
    simp only
    split
    · rw [update_of_ne (by omega)]
      exact inv.rest j (by omega)
    · exact inv.rest j (by omega)

theorem Compacted.opcodes_eq (all : ∀ j < i, a.Kept j) : s.opcodes = a.opcodes := by
  funext j
  rcases Nat.lt_or_ge j i with lower | above
  · have moved := inv.moved j lower (all j lower)
    rwa [image_eq_self all lower.le] at moved
  · exact inv.rest j above

end

/-- A `GOTO` whose target is not known yet. -/
def Op.unresolved (op : Op) : Prop := op.opcode = .goto ∧ op.resolved = false

theorem Compacted.step {s : Compaction} (inv : Compacted a i s)
    (known : ¬ (a.opcodes i).unresolved) :
    ∃ s', compactStep s i = .ok s' ∧ Compacted a (i + 1) s' := by
  have here := inv.rest i le_rfl
  unfold compactStep
  simp only
  rw [if_neg (by simpa [here, Op.unresolved] using known)]
  by_cases skips : a.overNops i
  · rw [if_pos (inv.overNops_iff.mpr skips), if_pos (by simp)]
    exact ⟨_, rfl, inv.drop (fun kept => kept.2 skips) _ fun j other => update_of_ne other ..⟩
  rw [if_neg fun test => skips (inv.overNops_iff.mp test)]
  split
  next nop =>
    rw [here] at nop
    exact ⟨_, rfl, inv.drop (fun kept => kept.1 nop) _ fun j _ => rfl⟩
  next other =>
    rw [here] at other
    exact ⟨_, rfl, inv.keep ⟨other, skips⟩⟩

/-- Either all targets are known and every instruction has been moved, or the loop has
ended at a target that is not known. -/
theorem compact_spec (a : OpArray) (n : Nat) :
    let run := (range n).foldlM compactStep ⟨a.opcodes, 0, 0, fun _ => 0⟩
    ((∀ k < n, ¬ (a.opcodes k).unresolved) ∧ ∃ s, run = .ok s ∧ Compacted a n s) ∨
    ((∃ k < n, (a.opcodes k).unresolved) ∧ ∃ opcodes, run = .error opcodes ∧
      ((∀ j < n, a.Kept j) → opcodes = a.opcodes)) := by
  induction n with
  | zero =>
    refine .inl ⟨by simp, _, rfl, ?_⟩
    exact ⟨by simp [OpArray.image], rfl, by simp, by simp, fun _ _ => rfl⟩
  | succ n ih =>
    simp only [range_succ, foldlM_append, foldlM_cons, foldlM_nil] at ih ⊢
    rcases ih with ⟨known, s, ran, inv⟩ | ⟨⟨k, bound, unknown⟩, opcodes, ran, same⟩
    · rw [ran]
      by_cases here : (a.opcodes n).unresolved
      · refine .inr ⟨⟨n, by omega, here⟩, s.opcodes, ?_, fun all => ?_⟩
        · have stop : compactStep s n = .error s.opcodes := by
            have here' : (s.opcodes n).opcode = .goto ∧ ¬ (s.opcodes n).resolved := by
              rw [inv.rest n le_rfl]
              simpa [Op.unresolved] using here
            rw [compactStep, if_pos here']
          simp [stop, bind, Except.bind]
        · exact inv.opcodes_eq fun j lower => all j (by omega)
      · obtain ⟨s', stepped, next⟩ := inv.step here
        refine .inl ⟨fun k bound => ?_, s', ?_, next⟩
        · rcases Nat.lt_succ_iff_lt_or_eq.mp bound with lower | rfl
          · exact known k lower
          · exact here
        · simp [stepped, bind, Except.bind, pure, Except.pure]
    · refine .inr ⟨⟨k, by omega, unknown⟩, opcodes, ?_, fun all => same fun j lower =>
        all j (by omega)⟩
      rw [ran]
      rfl

end compact

/-! ### Renumbering -/

section renumber

variable {f shiftlist : Nat → Nat}

/-- The switch misses the second operand of the two `FAST` instructions. -/
theorem renumber_eq_retarget_iff {op : Op} (agree : ∀ t ∈ op.targets, t - shiftlist t = f t)
    (known : ¬ op.unresolved) :
    op.renumber shiftlist = op.retarget f ↔
      (op.opcode = .fastCall ∨ op.opcode = .fastRet → op.extendedValue ≠ 0 →
        f op.op2 = op.op2) := by
  obtain ⟨opcode, op1, op2, result, extendedValue, resolved, lineno⟩ := op
  cases opcode with
  | fastCall =>
    have first : op1 - shiftlist op1 = f op1 := by
      refine agree op1 ?_
      simp only [Op.targets]
      split <;> simp
    simp [Op.renumber, Op.retarget, first, eq_comm (a := op2)]
  | fastRet => simp [Op.renumber, Op.retarget, eq_comm (a := op2)]
  | _ => simp_all [Op.renumber, Op.retarget, Op.targets, Op.unresolved]

private theorem retarget_eq_self {op : Op} (fixed : ∀ t ∈ op.targets, f t = t) :
    op.retarget f = op := by
  obtain ⟨opcode, op1, op2, result, extendedValue, resolved, lineno⟩ := op
  cases opcode with
  | fastCall =>
    by_cases none : extendedValue = 0 <;> simp_all [Op.retarget, Op.targets]
  | goto => cases resolved <;> simp_all [Op.retarget, Op.targets]
  | _ => simp_all [Op.retarget, Op.targets]

theorem TryCatchElement.renumber_eq_retarget {e : TryCatchElement}
    (agree : ∀ t < n, t - shiftlist t = f t)
    (range : e.tryOp < n ∧ e.catchOp < n ∧ (e.finallyOp ≠ 0 → e.finallyOp < n ∧ e.finallyEnd < n)) :
    e.renumber shiftlist = e.retarget f := by
  obtain ⟨tryOp, catchOp, final⟩ := range
  unfold renumber retarget
  simp only [agree _ tryOp, agree _ catchOp]
  split
  next present => rw [agree _ (final present).1, agree _ (final present).2]
  next _ => rfl

private theorem brkCont_mapM {elements : List BrkContElement}
    (agree : ∀ t < n, t - shiftlist t = f t)
    (range : ∀ e ∈ elements, e.brk < n ∧ e.cont < n ∧ ∀ s ∈ e.start, s < n)
    (starts : ∀ e ∈ elements, e.start ≠ none) :
    elements.mapM (BrkContElement.renumber shiftlist) =
      some (elements.map (BrkContElement.retarget f)) := by
  induction elements with
  | nil => rfl
  | cons e elements ih =>
    obtain ⟨brk, cont, start⟩ := range e mem_cons_self
    have rest := ih (fun e member => range e (mem_cons_of_mem _ member))
      fun e member => starts e (mem_cons_of_mem _ member)
    obtain ⟨s, at_start⟩ := Option.ne_none_iff_exists'.mp (starts e mem_cons_self)
    have one : e.renumber shiftlist = some (e.retarget f) := by
      simp [BrkContElement.renumber, BrkContElement.retarget, at_start, agree _ brk, agree _ cont,
        agree s (start s at_start)]
    simp [mapM_cons, one, rest]

private theorem brkCont_mapM_none {elements : List BrkContElement} {e : BrkContElement}
    (member : e ∈ elements) (nowhere : e.start = none) :
    elements.mapM (BrkContElement.renumber shiftlist) = none := by
  induction elements with
  | nil => cases member
  | cons d elements ih =>
    rcases mem_cons.mp member with rfl | later
    · simp [BrkContElement.renumber, nowhere]
    · simp [ih later]

end renumber

/-! ### The early-binding list -/

section earlyBinding

variable {a a' : OpArray} {slot slot' : Option Nat} {l : List Nat} {f shiftlist : Nat → Nat}

theorem OpArray.EarlyBinding.link_eq (chain : a.EarlyBinding slot l) : a.link slot = l.head? := by
  cases l with
  | nil => exact chain
  | cons n l => exact chain.1

theorem OpArray.EarlyBinding.unique {l' : List Nat} (first : a.EarlyBinding slot l)
    (second : a.EarlyBinding slot l') : l = l' := by
  induction l generalizing slot l' with
  | nil =>
    cases l' with
    | nil => rfl
    | cons n l' =>
      have none : a.link slot = none := first
      rw [second.1] at none
      cases none
  | cons n l ih =>
    cases l' with
    | nil =>
      have none : a.link slot = none := second
      rw [first.1] at none
      cases none
    | cons n' l' =>
      have same := first.1.symm.trans second.1
      cases same
      rw [ih first.2 second.2]

theorem OpArray.EarlyBinding.after {xs ys : List Nat}
    (chain : a.EarlyBinding slot (xs ++ n :: ys)) : a.EarlyBinding (some n) ys := by
  induction xs generalizing slot with
  | nil => exact chain.2
  | cons x xs ih => exact ih chain.2

theorem OpArray.EarlyBinding.nodup (chain : a.EarlyBinding slot l) : l.Nodup := by
  induction l generalizing slot with
  | nil => exact nodup_nil
  | cons n l ih =>
    refine nodup_cons.mpr ⟨fun again => ?_, ih chain.2⟩
    obtain ⟨xs, ys, rfl⟩ := append_of_mem again
    have same := congrArg length (chain.2.unique (OpArray.EarlyBinding.after chain.2))
    simp only [length_append, length_cons] at same
    omega

theorem OpArray.EarlyBinding.result_eq (before : a.EarlyBinding slot l)
    (after : a'.EarlyBinding slot' (l.map f)) (member : n ∈ l) :
    (a'.opcodes (f n)).result = (a.opcodes n).result.map f := by
  induction l generalizing slot slot' with
  | nil => cases member
  | cons m l ih =>
    rcases mem_cons.mp member with rfl | later
    · have here : (a.opcodes n).result = l.head? := before.2.link_eq
      have there : (a'.opcodes (f n)).result = (l.map f).head? := after.2.link_eq
      rw [here, there, head?_map]
    · exact ih before.2 after.2 later

/-- The entries that are still to be renumbered: the instructions have been moved, their
links have not been touched. -/
def OpArray.Pending (a : OpArray) (f : Nat → Nat) : Option Nat → List Nat → Prop
  | slot, [] => a.link slot = none
  | slot, n :: l => a.link slot = some n ∧ a.Pending f (some (f n)) l

/-- The arrays differ in links only, and only in the slots given. -/
structure LinksChanged (slots : List (Option Nat)) (a a' : OpArray) : Prop where
  last : a'.last = a.last
  brkCont : a'.brkContArray = a.brkContArray
  tryCatch : a'.tryCatchArray = a.tryCatchArray
  opcodes : ∀ k, a'.opcodes k = { a.opcodes k with result := (a'.opcodes k).result }
  link : ∀ s ∉ slots, a'.link s = a.link s

private theorem setLink_changed (a : OpArray) (slot : Option Nat) (n : Nat) :
    LinksChanged [slot] a (a.setLink slot n) := by
  cases slot with
  | none =>
    refine ⟨rfl, rfl, rfl, fun _ => rfl, fun s other => ?_⟩
    cases s with
    | none => simp at other
    | some k => rfl
  | some k =>
    refine ⟨rfl, rfl, rfl, fun j => ?_, fun s other => ?_⟩
    · by_cases here : j = k
      · subst here
        simp [OpArray.setLink]
      · simp [OpArray.setLink, update_of_ne here]
    cases s with
    | none => rfl
    | some j =>
      have apart : j ≠ k := by simpa using other
      simp [OpArray.setLink, OpArray.link, update_of_ne apart]

private theorem setLink_link (a : OpArray) (slot : Option Nat) (n : Nat) :
    (a.setLink slot n).link slot = some n := by
  cases slot <;> simp [OpArray.setLink, OpArray.link]

theorem OpArray.Pending.congr (pending : a.Pending f slot l)
    (same : ∀ s, s = slot ∨ (∃ n ∈ l, s = some (f n)) → a'.link s = a.link s) :
    a'.Pending f slot l := by
  induction l generalizing slot with
  | nil => exact (same slot (.inl rfl)).trans pending
  | cons n l ih =>
    refine ⟨(same slot (.inl rfl)).trans pending.1, ih pending.2 ?_⟩
    rintro s (rfl | ⟨m, member, rfl⟩)
    · exact same _ (.inr ⟨n, mem_cons_self, rfl⟩)
    · exact same _ (.inr ⟨m, mem_cons_of_mem n member, rfl⟩)

private theorem updateEarlyBinding_spec {fuel : Nat} (enough : l.length < fuel)
    (pending : a.Pending f slot l) (agree : ∀ n ∈ l, n - shiftlist n = f n)
    (distinct : (slot :: l.map fun n => some (f n)).Nodup) :
    ∃ a', updateEarlyBinding shiftlist fuel a slot = some a' ∧
      a'.EarlyBinding slot (l.map f) ∧ LinksChanged (slot :: l.map fun n => some (f n)) a a' := by
  induction fuel generalizing a slot l with
  | zero => exact absurd enough (Nat.not_lt_zero _)
  | succ fuel ih =>
    rw [updateEarlyBinding]
    cases l with
    | nil =>
      have none : a.link slot = none := pending
      rw [none]
      exact ⟨a, rfl, none, rfl, rfl, rfl, fun _ => rfl, fun _ _ => rfl⟩
    | cons n l =>
      rw [pending.1]
      simp only
      rw [agree n mem_cons_self]
      obtain ⟨fresh, distinct⟩ := nodup_cons.mp distinct
      have changed := setLink_changed a slot (f n)
      have next : (a.setLink slot (f n)).Pending f (some (f n)) l := by
        refine pending.2.congr fun s later => changed.link s ?_
        rw [mem_singleton]
        rintro rfl
        refine fresh (mem_cons.mpr (later.imp_right ?_))
        rintro ⟨m, member, same⟩
        exact mem_map.mpr ⟨m, member, same.symm⟩
      obtain ⟨a', ran, chain, rest⟩ := ih (by simpa using enough) next
        (fun m member => agree m (mem_cons_of_mem n member)) distinct
      refine ⟨a', ran, ⟨?_, chain⟩, ?_⟩
      · rw [rest.link slot fresh, setLink_link]
      refine ⟨rest.last.trans changed.last, rest.brkCont.trans changed.brkCont,
        rest.tryCatch.trans changed.tryCatch, fun k => ?_, fun s other => ?_⟩
      · rw [rest.opcodes k, changed.opcodes k]
      · rw [mem_cons, not_or] at other
        rw [rest.link s other.2, changed.link s (by simpa using other.1)]

end earlyBinding

/-! ### The pass as a whole -/

section pass

variable {a : OpArray} {l : List Nat}

theorem OpArray.InRange.kept (range : a.InRange l) (member : n ∈ l) : a.Kept n := by
  have delayed := (range.delayed n member).2
  exact ⟨by simp [delayed], fun skips => by simp [skips.1] at delayed⟩

private theorem keepsControlFlow_self (range : a.InRange l) (all : ∀ j < a.last, a.Kept j) :
    KeepsControlFlow a l a := by
  have fixed : ∀ t < a.last, a.image t = t := fun t bound => image_eq_self all bound.le
  have same : l.map a.image = l := by
    refine (map_congr_left fun n member => ?_).trans (map_id l)
    exact fixed n (range.delayed n member).1
  have chain : a.EarlyBinding none (l.map a.image) := by
    rw [same]
    exact range.earlyBinding
  refine ⟨(image_eq_self all le_rfl).symm, fun k bound _ => ?_, ?_, ?_, chain⟩
  · rw [retarget_eq_self fun t member => fixed t (range.target k bound t member), fixed k bound]
    split
    next member =>
      have link := range.earlyBinding.result_eq chain member
      rw [fixed k bound] at link
      rw [← link]
    next _ => rfl
  · refine ((map_congr_left fun e member => ?_).trans (map_id _)).symm
    obtain ⟨brk, cont, start⟩ := range.brkCont e member
    have at_start : e.start.map a.image = e.start := by
      cases none : e.start with
      | none => rfl
      | some s => rw [Option.map_some, fixed s (start s none)]
    simp [BrkContElement.retarget, fixed _ brk, fixed _ cont, at_start]
  · refine ((map_congr_left fun e member => ?_).trans (map_id _)).symm
    obtain ⟨tryOp, catchOp, final⟩ := range.tryCatch e member
    obtain ⟨first, second, third, fourth⟩ := e
    by_cases present : third = 0
    · simp_all [retarget]
    · simp_all [retarget]

private theorem renumber_result (shiftlist : Nat → Nat) (op : Op) :
    (op.renumber shiftlist).result = op.result := by
  obtain ⟨opcode⟩ := op
  cases opcode <;> rfl

theorem OpArray.EarlyBinding.pending {b : OpArray} {slot slot' : Option Nat} {f : Nat → Nat}
    (chain : a.EarlyBinding slot l) (first : b.link slot' = a.link slot)
    (moved : ∀ n ∈ l, b.link (some (f n)) = a.link (some n)) : b.Pending f slot' l := by
  induction l generalizing slot slot' with
  | nil => exact first.trans chain
  | cons n l ih =>
    refine ⟨first.trans chain.1, ih chain.2 (moved n mem_cons_self) ?_⟩
    exact fun m member => moved m (mem_cons_of_mem n member)

theorem Compacted.renumbers (inv : Compacted a a.last s) :
    ∀ t < a.last, t - s.shiftlist t = a.image t := by
  intro t bound
  have below := image_le a t
  rw [inv.shiftlist t bound]
  omega

/-- What the pass does when it renumbers; the `FAST` instructions are left to `renumber`. -/
theorem nopRemoval_renumbers (range : a.InRange l) (ran : compact a = .ok s)
    (inv : Compacted a a.last s) (moves : s.shift ≠ 0)
    (starts : ∀ e ∈ a.brkContArray, e.start ≠ none) :
    ∃ a', nopRemoval a = some a' ∧ a'.last = a.image a.last ∧
      a'.brkContArray = a.brkContArray.map (BrkContElement.retarget a.image) ∧
      a'.tryCatchArray = a.tryCatchArray.map (retarget a.image) ∧
        a'.EarlyBinding none (l.map a.image) ∧
      ∀ k < a.last, a.Kept k → a'.opcodes (a.image k) = { (a.opcodes k).renumber s.shiftlist with
          result := if k ∈ l then (a.opcodes k).result.map a.image else (a.opcodes k).result } := by
  have agree := inv.renumbers
  have tables := brkCont_mapM agree range.brkCont starts
  have tries : a.tryCatchArray.map (renumber s.shiftlist) =
      a.tryCatchArray.map (retarget a.image) :=
    map_congr_left fun e member =>
      renumber_eq_retarget agree (range.tryCatch e member)
  set b : OpArray := { a with
    opcodes := fun k => if k < s.newCount then (s.opcodes k).renumber s.shiftlist else s.opcodes k
    last := s.newCount
    brkContArray := a.brkContArray.map (BrkContElement.retarget a.image)
    tryCatchArray := a.tryCatchArray.map (retarget a.image) } with b_eq
  have moved : ∀ k < a.last, a.Kept k →
      b.opcodes (a.image k) = (a.opcodes k).renumber s.shiftlist := by
    intro k bound kept
    have inside := image_lt_image kept bound
    rw [← inv.newCount] at inside
    simp only [b_eq, if_pos inside, inv.moved k bound kept]
  have pending : b.Pending a.image none l := by
    refine range.earlyBinding.pending rfl fun n member => ?_
    simp only [OpArray.link]
    rw [moved n (range.delayed n member).1 (range.kept member), renumber_result]
  have distinct : (none :: l.map fun n => some (a.image n)).Nodup := by
    refine nodup_cons.mpr ⟨by simp, ?_⟩
    refine List.Nodup.map_on (fun m first n second same => ?_) range.earlyBinding.nodup
    exact image_inj (range.kept first) (range.kept second) (Option.some.inj same)
  have short : l.length < a.last + 1 := by
    have subset : l ⊆ List.range a.last := fun n member =>
      mem_range.mpr (range.delayed n member).1
    have bound := (subperm_of_subset range.earlyBinding.nodup subset).length_le
    rw [length_range] at bound
    omega
  obtain ⟨a', updated, chain, changed⟩ := updateEarlyBinding_spec short pending
    (fun n member => agree n (range.delayed n member).1) distinct
  refine ⟨a', ?_, changed.last.trans inv.newCount, changed.brkCont, changed.tryCatch, chain, ?_⟩
  · rw [nopRemoval, ran]
    simp only
    rw [if_pos moves, tables, tries]
    exact updated
  intro k bound kept
  have link : (a'.opcodes (a.image k)).result =
      if k ∈ l then (a.opcodes k).result.map a.image else (a.opcodes k).result := by
    split
    next member => exact range.earlyBinding.result_eq chain member
    next absent =>
    have untouched : some (a.image k) ∉ none :: l.map fun n => some (a.image n) := by
      intro listed
      obtain ⟨n, member, same⟩ := mem_map.mp ((mem_cons.mp listed).resolve_left (by simp))
      have equal := image_inj (range.kept member) kept (Option.some.inj same)
      exact absent (equal ▸ member)
    have same : (a'.opcodes (a.image k)).result = (b.opcodes (a.image k)).result :=
      changed.link (some (a.image k)) untouched
    rw [same, moved k bound kept, renumber_result]
  rw [changed.opcodes, link, moved k bound kept]

private theorem handled_of_all (range : a.InRange l) (all : ∀ j < a.last, a.Kept j) :
    a.Handled where
  fast k bound fast flagged := by
    refine image_eq_self all (Nat.le_of_lt (range.target k bound _ ?_))
    rcases fast with call | ret
    · simp [Op.targets, call, flagged]
    · simp [Op.targets, ret, flagged]
  goto _ _ _ _ := all
  start _ _ _ := all

private theorem op2_eq_of_keeps {op : Op} {f shiftlist : Nat → Nat} {link : Option Nat}
    (fast : op.opcode = .fastCall ∨ op.opcode = .fastRet) (flagged : op.extendedValue ≠ 0)
    (same : { op.renumber shiftlist with result := link } = { op.retarget f with result := link }) :
    f op.op2 = op.op2 := by
  have equal := congrArg Op.op2 same
  rcases fast with call | ret
  · simpa [Op.renumber, Op.retarget, call, flagged] using equal.symm
  · simpa [Op.renumber, Op.retarget, ret, flagged] using equal.symm

private theorem keeps_iff_of_moves (range : a.InRange l) (ran : compact a = .ok s)
    (known : ∀ k < a.last, ¬ (a.opcodes k).unresolved) (inv : Compacted a a.last s)
    (moves : s.shift ≠ 0) :
    (∃ a', nopRemoval a = some a' ∧ KeepsControlFlow a l a') ↔ a.Handled := by
  have removed : ¬ ∀ j < a.last, a.Kept j := by
    intro all
    have total := inv.shift
    rw [inv.newCount, image_eq_self all le_rfl] at total
    omega
  by_cases starts : ∀ e ∈ a.brkContArray, e.start ≠ none
  · obtain ⟨a', result, last, brkCont, tryCatch, chain, opcodes⟩ :=
      nopRemoval_renumbers range ran inv moves starts
    constructor
    · rintro ⟨a'', result', keeps⟩
      rw [result] at result'
      cases result'
      refine ⟨fun k bound fast flagged => ?_, fun k bound goto unknown =>
        ?_, fun e member nowhere => ?_⟩
      · have kept : a.Kept k := by
          rcases fast with call | ret
          · exact ⟨by simp [call], fun skips => by simp [skips.1] at call⟩
          · exact ⟨by simp [ret], fun skips => by simp [skips.1] at ret⟩
        exact op2_eq_of_keeps fast flagged ((opcodes k bound kept).symm.trans
          (keeps.opcodes k bound kept))
      · exact absurd ⟨goto, unknown⟩ (known k bound)
      · exact absurd nowhere (starts e member)
    · intro handled
      refine ⟨a', result, last, fun k bound kept => ?_, brkCont, tryCatch, chain⟩
      have agree : ∀ t ∈ (a.opcodes k).targets, t - s.shiftlist t = a.image t := fun t member =>
        inv.renumbers t (range.target k bound t member)
      rw [opcodes k bound kept,
        (renumber_eq_retarget_iff agree (known k bound)).mpr (handled.fast k bound)]
  · push Not at starts
    obtain ⟨e, member, nowhere⟩ := starts
    refine ⟨?_, fun handled => absurd (handled.start e member nowhere) removed⟩
    rintro ⟨a', result, _⟩
    rw [nopRemoval, ran] at result
    simp only at result
    rw [if_pos moves, brkCont_mapM_none member nowhere] at result
    cases result

/-- The pass keeps control flow exactly when there is nothing in its way. -/
theorem nopRemoval_keepsControlFlow_iff (range : a.InRange l) :
    (∃ a', nopRemoval a = some a' ∧ KeepsControlFlow a l a') ↔ a.Handled := by
  rcases compact_spec a a.last with ⟨known, s, ran, inv⟩ | ⟨⟨k, bound, goto⟩, opcodes, ran, same⟩
  · by_cases moves : s.shift = 0
    · have all : ∀ j < a.last, a.Kept j := by
        refine Nat.count_iff_forall.mp ?_
        have total := inv.shift
        rw [inv.newCount, moves] at total
        exact total
      have result : nopRemoval a = some a := by
        rw [nopRemoval, show compact a = .ok s from ran]
        simp only
        rw [if_neg (by simpa using moves), inv.opcodes_eq all]
      exact ⟨fun _ => handled_of_all range all, fun _ =>
        ⟨a, result, keepsControlFlow_self range all⟩⟩
    · exact keeps_iff_of_moves range ran known inv moves
  · -- the pass has stopped half-way
    have result : nopRemoval a = some { a with opcodes } := by
      rw [nopRemoval, show compact a = .error opcodes from ran]
    constructor
    · rintro ⟨a', result', keeps⟩
      rw [result] at result'
      cases result'
      exact handled_of_all range (Nat.count_iff_forall.mp keeps.last.symm)
    intro handled
    have all := handled.goto k bound goto.1 goto.2
    rw [same all] at result
    exact ⟨a, result, keepsControlFlow_self range all⟩

end pass

/-- An instruction with one number in each operand. -/
def Op.simple (opcode : Opcode) (op1 op2 : Nat) : Op := ⟨opcode, op1, op2, none, 0, true, 0⟩

def OpArray.ofList (ops : List Op) (tryCatchArray : List TryCatchElement) : OpArray where
  opcodes k := ops.getD k (.simple .nop 0 0)
  last := ops.length
  brkContArray := []
  tryCatchArray := tryCatchArray
  earlyBinding := none

/-- A loop whose body starts with a NOP. -/
def loopOverNop : OpArray :=
  .ofList [.simple .jmpz 0 4, .simple .nop 0 0, .simple (.other 40) 0 0, .simple .jmp 0 0,
    .simple .return 0 0] []

theorem nopRemoval_keepsControlFlow_iff_loopOverNop :
    ∃ a', nopRemoval loopOverNop = some a' ∧ KeepsControlFlow loopOverNop [] a' := by
  refine (nopRemoval_keepsControlFlow_iff (l := []) ?_).mpr ?_
  · exact ⟨by decide, by simp [loopOverNop, OpArray.ofList], by simp [loopOverNop, OpArray.ofList],
      rfl, by simp⟩
  · exact ⟨by decide, by decide, by simp [loopOverNop, OpArray.ofList]⟩

/-- A try block with a finally block inside another one, after an instruction that has been
removed. In case of an exception the inner finally block returns to the outer one. -/
def nestedFinally : OpArray :=
  .ofList
    [.simple .nop 0 0,
     .simple (.other 40) 0 0,
     .simple .fastCall 4 0,
     .simple .jmp 6 0,
     .simple (.other 41) 0 0,
     { Op.simple .fastRet 0 8 with extendedValue := 2 },
     .simple .fastCall 8 0,
     .simple .jmp 10 0,
     .simple (.other 42) 0 0,
     .simple .fastRet 0 0,
     .simple .return 0 0]
    [⟨1, 0, 8, 9⟩, ⟨1, 0, 4, 5⟩]

/-- After the pass the inner finally block returns behind the outer one. -/
theorem nestedFinally_skips_outer :
    nestedFinally.InRange [] ∧ ((nopRemoval nestedFinally).map fun a =>
        ((a.opcodes 4).opcode, (a.opcodes 4).op2, (a.opcodes 8).opcode)) =
          some (.fastRet, 8, .fastRet) ∧
      nestedFinally.image 5 = 4 ∧ nestedFinally.image 8 = 7 ∧
      ¬ ∃ a', nopRemoval nestedFinally = some a' ∧ KeepsControlFlow nestedFinally [] a' := by
  have operand : ((nopRemoval nestedFinally).map fun a =>
      ((a.opcodes 4).opcode, (a.opcodes 4).op2, (a.opcodes 8).opcode)) =
        some (.fastRet, 8, .fastRet) := by decide
  refine ⟨⟨by decide, by simp [nestedFinally, OpArray.ofList], by decide, rfl, by simp⟩, operand,
    by decide, by decide, ?_⟩
  rintro ⟨a', result, keeps⟩
  rw [result] at operand
  have second : (a'.opcodes 4).op2 = 8 := by
    simp only [Option.map_some, Option.some.injEq, Prod.mk.injEq] at operand
    exact operand.2.1
  have image : (a'.opcodes 4).op2 = nestedFinally.image 8 :=
    congrArg Op.op2 (keeps.opcodes 5 (by decide) (by decide))
  rw [second] at image
  revert image
  decide

end Jonj.Opcodes
