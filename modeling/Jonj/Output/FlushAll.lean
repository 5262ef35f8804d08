import Jonj.Lib.CChar

/-!
# Flushing the stack of output handlers

An operation walks down the stack: what a handler gives out is the input of the one below it. A
handler that gives out nothing ends the walk.
-/
namespace Jonj.Output

/-- `JONJ_OUTPUT_HANDLER_START` -/
def opStart : Nat := 0x01

/-- `JONJ_OUTPUT_HANDLER_FLUSH` -/
def opFlush : Nat := 0x04

/-- `jonj_output_context`; a buffer is the bytes that are used of it. -/
structure Context where
  op : Nat
  input : Bytes
  out : Bytes

namespace Context

def pass (c : Context) : Context := { c with input := [], out := c.input }

def swap (c : Context) : Context := { c with input := c.out, out := [] }

def reset (c : Context) : Context := { c with input := [], out := [] }

end Context

/-- The function of a handler. An internal one gets the context and is `none` if it fails; one of
the user gets the buffer and `op`, and is `none` if the call fails or returns false. -/
inductive Func
  | internal (f : Context → Option Context)
  | user (f : Bytes → Nat → Option Bytes)

/-- `size` is the chunk size. The level of a handler is the number of handlers below it. -/
structure Handler where
  func : Func
  size : Nat
  buffer : Bytes
  started : Bool
  disabled : Bool
  processed : Bool

def handlerDefaultFunc (c : Context) : Option Context := some c.pass

inductive Status
  | failure
  | success
  | noData
  deriving DecidableEq, Repr

/-- `jonj_output_handler_append`; whether the buffer does not have to be processed. -/
def handlerAppend (running : Bool) (h : Handler) (buf : Bytes) : Bool × Handler :=
  if buf = [] then (true, h)
  else
    let h := { h with buffer := h.buffer ++ buf }
    (if h.size ≠ 0 ∧ h.size ≤ h.buffer.length then running else true, h)

def callFunc (h : Handler) (c : Context) : Status × Context :=
  match h.func with
  | .user f =>
    match f h.buffer c.op with
    | none => (.failure, c)
    | some [] => (.noData, c)
    | some data => (.success, { c with out := data })
  | .internal f =>
    let c := { c with input := h.buffer }
    match f c with
    | none => (.failure, c)
    | some c => (if c.out ≠ [] then .success else .noData, c)

/-- `jonj_output_handler_op`, outside of any handler. -/
def handlerOp (h : Handler) (c : Context) : Status × Handler × Context :=
  let (stored, h) := handlerAppend false h c.input
  if stored = true ∧ c.op = 0 then (.noData, h, c)
  else
    let (status, after) := callFunc h { c with op := if h.started then c.op else c.op ||| opStart }
    let after := { after with op := c.op }
    let h := { h with started := true }
    match status with
    | .failure =>
      (status, { h with disabled := true, buffer := [] }, { after with out := h.buffer })
    | .noData => (status, { h with buffer := [], processed := true }, after.reset)
    | .success => (status, { h with buffer := [], processed := true }, after)

/-- `jonj_output_stack_apply_op`; whether the walk ends here. -/
def stackApplyOp (level : Nat) (h : Handler) (c : Context) : Bool × Handler × Context :=
  if h.disabled then (false, h, if level = 0 then c.pass else c)
  else
    let (status, h, c) := handlerOp h c
    match status with
    | .noData => (true, h, c)
    | _ => (false, h, if level = 0 then c else c.swap)

/-- `zend_stack_apply_with_argument`, from the top handler down. -/
def stackApply : List Handler → Context → List Handler × Context
  | [], c => ([], c)
  | h :: below, c =>
    let (ends, h, c) := stackApplyOp below.length h c
    if ends then (h :: below, c)
    else
      let (below, c) := stackApply below c
      (h :: below, c)

/-- What `jonj_header` looks at. `sendable` is whether the SAPI manages to send the headers; there
is no callback for them. -/
structure Headers where
  sent : Bool
  noHeaders : Bool
  headersOnly : Bool
  sendable : Bool

/-- `sapi_send_headers`; whether it succeeds. -/
def sendHeaders (s : Headers) : Bool × Headers :=
  if s.sent ∨ s.noHeaders then (true, s) else (s.sendable, { s with sent := s.sendable })

/-- `jonj_header`; whether output is allowed. `headersOnly` is set for a HEAD request. -/
def header (s : Headers) : Bool × Headers :=
  let (success, s) := sendHeaders s
  (success && !s.headersOnly, s)

/-- The top handler stands first. `running` is whether a handler is being called, `disabled` is
`JONJ_OUTPUT_DISABLED`. -/
structure Globals where
  handlers : List Handler
  running : Bool
  disabled : Bool
  headers : Headers

/-- `jonj_output_header`: the first output sends the headers. -/
def outputHeader (g : Globals) : Globals :=
  if g.headers.sent then g
  else
    let (allowed, headers) := header g.headers
    { g with headers := headers, disabled := g.disabled || !allowed }

/-- The end of `jonj_output_op`: the SAPI gets what has come out, behind the headers. -/
def send (g : Globals) (out : Bytes) : Globals × Bytes :=
  if out = [] then (g, [])
  else
    let g := outputHeader g
    (g, if g.disabled then [] else out)

/-- `jonj_output_op`, with the bytes that the SAPI gets; `none` is the fatal error of
`jonj_output_lock_error`. -/
def outputOp (g : Globals) (op : Nat) (str : Bytes) : Option (Globals × Bytes) :=
  if op ≠ 0 ∧ g.handlers ≠ [] ∧ g.running = true then none
  else
    let c : Context := ⟨op, str, []⟩
    let (handlers, c) :=
      match g.handlers with
      | [] => ([], c.pass)
      | [h] =>
        if h.disabled then ([h], c.pass)
        else
          let (_, h, c) := handlerOp h c
          ([h], c)
      | handlers => stackApply handlers c
    some (send { g with handlers := handlers } c.out)

def flushAll (g : Globals) : Option (Globals × Bytes) :=
  if g.handlers = [] then some (g, []) else outputOp g opFlush []

/-! ### A walk over default handlers -/

/-- A default handler never fails, so that it is never disabled. -/
structure Handler.IsDefault (h : Handler) : Prop where
  func : h.func = .internal handlerDefaultFunc
  enabled : h.disabled = false

def Handler.flushed (h : Handler) : Handler :=
  { h with buffer := [], started := true, processed := true }

/-- The contents of the buffers, from the bottom of the stack to its top. -/
def contents (handlers : List Handler) : Bytes := handlers.reverse.flatMap Handler.buffer

@[simp] theorem contents_nil : contents [] = [] := rfl

@[simp] theorem contents_cons (h : Handler) (below : List Handler) :
    contents (h :: below) = contents below ++ h.buffer := by
  simp [contents]

private theorem contents_eq_nil_iff {handlers : List Handler} :
    contents handlers = [] ↔ ∀ h ∈ handlers, h.buffer = [] := by
  induction handlers with
  | nil => simp
  | cons h below ih => simp [ih, and_comm]

section walk

variable {h : Handler} {input : Bytes}

theorem handlerAppend_snd (h : Handler) (buf : Bytes) :
    (handlerAppend false h buf).2 = { h with buffer := h.buffer ++ buf } := by
  unfold handlerAppend
  split
  next none => simp [none]
  next => rfl

theorem handlerOp_default (isDefault : h.IsDefault) : handlerOp h ⟨opFlush, input, []⟩ =
    (if h.buffer ++ input = [] then .noData else .success, h.flushed,
      ⟨opFlush, [], h.buffer ++ input⟩) := by
  have appended : handlerAppend false h input =
    ((handlerAppend false h input).1, { h with buffer := h.buffer ++ input }) :=
    Prod.ext rfl (handlerAppend_snd h input)
  rw [handlerOp, appended]
  simp only [callFunc, isDefault.func, handlerDefaultFunc, Context.pass, opFlush,
    OfNat.ofNat_ne_zero, and_false, if_false]
  by_cases nothing : h.buffer ++ input = []
  · simp [nothing, Context.reset, Handler.flushed, isDefault.func]
  · simp [nothing, Handler.flushed, isDefault.func]

/-- A walk that starts with something takes along all that it meets. -/
theorem stackApply_default {below : List Handler} (isDefault : ∀ g ∈ h :: below, g.IsDefault)
    (begins : h.buffer ++ input ≠ []) :
    stackApply (h :: below) ⟨opFlush, input, []⟩ =
      ((h :: below).map Handler.flushed, ⟨opFlush, [], contents (h :: below) ++ input⟩) := by
  induction below generalizing h input with
  | nil =>
    simp [stackApply, stackApplyOp, (isDefault h (by simp)).enabled,
      handlerOp_default (isDefault h (by simp)), begins]
  | cons next below ih =>
    have rest := @ih next (h.buffer ++ input)
      (fun g member => isDefault g (List.mem_cons_of_mem h member))
      (by simpa using fun _ => begins)
    rw [stackApply]
    simp [stackApplyOp, (isDefault h (by simp)).enabled, handlerOp_default (isDefault h (by simp)),
      begins, Context.swap, rest]

/-- A walk that starts with nothing ends at the top handler. -/
theorem stackApply_nothing {below : List Handler} (isDefault : h.IsDefault) (none : h.buffer = []) :
    stackApply (h :: below) ⟨opFlush, [], []⟩ = (h.flushed :: below, ⟨opFlush, [], []⟩) := by
  simp [stackApply, stackApplyOp, isDefault.enabled, handlerOp_default isDefault, none]

end walk

/-! ### Whether the SAPI gets what comes out -/

/-- Output is allowed: the headers have been sent, or they can be and the request is not for the
headers alone. -/
def Headers.Allow (s : Headers) : Prop :=
  s.sent = true ∨ s.headersOnly = false ∧ (s.noHeaders = true ∨ s.sendable = true)

theorem outputHeader_disabled_iff (g : Globals) :
    (outputHeader g).disabled = false ↔ g.disabled = false ∧ g.headers.Allow := by
  obtain ⟨handlers, running, disabled, ⟨sent, noHeaders, headersOnly, sendable⟩⟩ := g
  cases sent <;> cases noHeaders <;> cases headersOnly <;> cases sendable <;>
    simp [outputHeader, header, sendHeaders, Headers.Allow]

@[simp] theorem outputHeader_handlers (g : Globals) : (outputHeader g).handlers = g.handlers := by
  unfold outputHeader
  split <;> rfl

@[simp] theorem outputHeader_running (g : Globals) : (outputHeader g).running = g.running := by
  unfold outputHeader
  split <;> rfl

@[simp] theorem send_handlers (g : Globals) (out : Bytes) :
    (send g out).1.handlers = g.handlers := by
  unfold send
  split
  · rfl
  · exact outputHeader_handlers g

private theorem send_eq_iff (g : Globals) (out : Bytes) :
    (send g out).2 = out ↔ out = [] ∨ g.disabled = false ∧ g.headers.Allow := by
  rw [← outputHeader_disabled_iff, send]
  split
  next nothing => simp [nothing]
  next something =>
    dsimp only
    cases (outputHeader g).disabled <;> simp [something, Ne.symm something]

private theorem flushAll_eq {g : Globals} (nonempty : g.handlers ≠ [])
    (isDefault : ∀ h ∈ g.handlers, h.IsDefault) (idle : g.running = false) :
    flushAll g = some (send { g with handlers := (stackApply g.handlers ⟨opFlush, [], []⟩).1 }
      (stackApply g.handlers ⟨opFlush, [], []⟩).2.out) := by
  rw [flushAll, if_neg nonempty, outputOp, if_neg (by simp [idle])]
  match handlers : g.handlers with
  | [] => exact absurd handlers nonempty
  | [h] =>
    have single := isDefault h (by simp [handlers])
    by_cases nothing : h.buffer = [] <;>
      simp [single.enabled, stackApply, stackApplyOp, handlerOp_default single, nothing, send]
  | _ :: _ :: _ => rfl

/-- Every buffer is empty after the flush, and the SAPI has got their contents. -/
def Flushes (g : Globals) : Prop :=
  ∃ g', flushAll g = some (g', contents g.handlers) ∧ ∀ h ∈ g'.handlers, h.buffer = []

private theorem sends_iff {g : Globals} (emptied : ∀ h ∈ g.handlers, h.buffer = []) (out : Bytes) :
    (∃ g', some (send g out) = some (g', out) ∧ ∀ h ∈ g'.handlers, h.buffer = []) ↔
      out = [] ∨ g.disabled = false ∧ g.headers.Allow := by
  rw [← send_eq_iff]
  constructor
  · rintro ⟨g', sent, -⟩
    exact congrArg Prod.snd (Option.some.inj sent)
  · intro sent
    exact ⟨(send g out).1, congrArg some (Prod.ext rfl sent), by simpa using emptied⟩

/-- The top buffer decides: if it is empty, the buffers below it stay as they are. -/
theorem flushes_iff (top : Handler) (below : List Handler) (running disabled : Bool)
    (headers : Headers) (isDefault : ∀ h ∈ top :: below, h.IsDefault) :
    Flushes ⟨top :: below, running, disabled, headers⟩ ↔ running = false ∧
      ((top.buffer ≠ [] ∧ disabled = false ∧ headers.Allow) ∨ ∀ h ∈ top :: below,
        h.buffer = []) := by
  cases running with
  | true => simp [Flushes, flushAll, outputOp, opFlush]
  | false =>
    rw [Flushes, flushAll_eq (by simp) isDefault rfl]
    by_cases nothing : top.buffer = []
    · -- only the top handler has been called
      rw [stackApply_nothing (isDefault top (by simp)) nothing]
      simp [nothing, Handler.flushed, contents_eq_nil_iff, send]
    · rw [stackApply_default isDefault (by simpa using nothing)]
      have emptied : ∀ h ∈ (top :: below).map Handler.flushed, h.buffer = [] := by
        simp [Handler.flushed]
      rw [List.append_nil, sends_iff emptied, contents_eq_nil_iff]
      simp [nothing]

def defaultHandler (buffer : Bytes) : Handler :=
  ⟨.internal handlerDefaultFunc, 0, buffer, false, false, false⟩

theorem flushes_iff_unsent :
    Flushes ⟨[defaultHandler [33], defaultHandler [], defaultHandler [104, 105]], false, false,
      ⟨false, false, false, true⟩⟩ :=
  (flushes_iff (defaultHandler [33]) [defaultHandler [], defaultHandler [104, 105]] false false
    ⟨false, false, false, true⟩ fun h member => by
      simp only [List.mem_cons, List.not_mem_nil, or_false] at member
      rcases member with rfl | rfl | rfl <;> exact ⟨rfl, rfl⟩).mpr
    ⟨rfl, .inl ⟨by decide, rfl, .inr ⟨rfl, .inr rfl⟩⟩⟩

/-- The buffer at the bottom keeps its data when the one at the top is empty, and the SAPI gets
nothing. -/
theorem flushAll_stops :
    (flushAll ⟨[defaultHandler [], defaultHandler [104, 105]], false, false,
      ⟨false, false, false, true⟩⟩).map (fun r => (r.1.handlers.map Handler.buffer, r.2)) =
      some ([[], [104, 105]], []) := by
  decide

end Jonj.Output
