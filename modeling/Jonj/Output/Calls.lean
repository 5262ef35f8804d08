import Jonj.Lib.Runs
import Jonj.Output.FlushAll

/-!
# Calls of a program on a stack of default handlers

A full chunk is passed on at any write, and a flush of the whole stack may end early, so that it is
not clear from the calls which handler holds a byte. But what is not dropped is sent in the order in
which it was written.
-/
namespace Jonj.Output

/-- `JONJ_OUTPUT_HANDLER_CLEAN` -/
def opClean : Nat := 0x02

/-- `JONJ_OUTPUT_HANDLER_FINAL` -/
def opFinal : Nat := 0x08

/-- `jonj_output_write`, once the output layer is activated. -/
def write (g : Globals) (str : Bytes) : Option (Globals × Bytes) :=
  if g.disabled then some (g, []) else outputOp g 0 str

/-- The calls on the active handler: it does the operation, and its output is passed on to the
handlers below it, or dropped. `allowed` is what its flags say. -/
def activeOp (g : Globals) (allowed pops drops : Bool) (op : Handler → Nat) :
    Option (Globals × Bytes) :=
  match g.handlers with
  | [] => some (g, [])
  | active :: below =>
    if allowed = false then some (g, [])
    -- a disabled handler can still be taken off the stack
    else if pops = true ∧ active.disabled = true then some ({ g with handlers := below }, [])
    else if g.running then none
    else
      let (_, active, c) := handlerOp active ⟨op active, [], []⟩
      let stays := if pops then [] else [active]
      if drops = true ∨ c.out = [] then some ({ g with handlers := stays ++ below }, [])
      else (write { g with handlers := below } c.out).map fun (g, sent) =>
        ({ g with handlers := stays ++ g.handlers }, sent)

/-- `jonj_output_flush` -/
def flush (g : Globals) (flushable : Bool) : Option (Globals × Bytes) :=
  activeOp g flushable false false fun _ => opFlush

/-- `jonj_output_clean` -/
def clean (g : Globals) (cleanable : Bool) : Option (Globals × Bytes) :=
  activeOp g cleanable false true fun _ => opClean

def finalOp (discard : Bool) (orphan : Handler) : Nat :=
  (if orphan.started then opFinal else opFinal ||| opStart) ||| if discard then opClean else 0

/-- `jonj_output_stack_pop`; a handler that is not removable can be forced off. -/
def stackPop (g : Globals) (removable discard : Bool) : Option (Globals × Bytes) :=
  activeOp g removable true discard (finalOp discard)

/-- The loop of `jonj_output_end_all`; a round takes a handler off the stack. -/
def endLoop : Nat → Globals → Option (Globals × Bytes)
  | 0, g => some (g, [])
  | rounds + 1, g =>
    if g.handlers = [] then some (g, [])
    else do
      let (g, first) ← stackPop g true false
      let (g, later) ← endLoop rounds g
      return (g, first ++ later)

def endAll (g : Globals) : Option (Globals × Bytes) := endLoop g.handlers.length g

/-- `jonj_output_handler_start` with a default handler. -/
def handlerStart (g : Globals) (size : Nat) : Option (Globals × Bytes) :=
  if g.handlers ≠ [] ∧ g.running = true then none
  else some
    ({ g with
        handlers := ⟨.internal handlerDefaultFunc, size, [], false, false, false⟩ ::
          g.handlers }, [])

/-! ### What a call does to the bytes -/

/-- What comes out and what the handlers then hold is what they held and what went in. -/
structure Passes (handlers : List Handler) (input : Bytes) (handlers' : List Handler)
    (out : Bytes) : Prop where
  isDefault : ∀ h ∈ handlers', h.IsDefault
  length : handlers'.length = handlers.length
  bytes : out ++ contents handlers' = contents handlers ++ input

/-- Whether the SAPI gets the next output. -/
def accepts (g : Globals) : Bool := !(outputHeader g).disabled

/-- Between two calls no handler is running. -/
structure Ready (accepting : Bool) (g : Globals) : Prop where
  idle : g.running = false
  decided : accepts g = accepting
  isDefault : ∀ h ∈ g.handlers, h.IsDefault

/-- A call that passes `input` to the handlers; whether the SAPI gets anything was decided
before. -/
structure Sends (accepting : Bool) (g : Globals) (input : Bytes) (g' : Globals) (sent : Bytes) :
    Prop where
  ready : Ready accepting g'
  length : g'.handlers.length = g.handlers.length
  bytes : accepting = true → sent ++ contents g'.handlers = contents g.handlers ++ input
  refused : accepting = false → sent = []

section headers

variable {accepting : Bool} {g : Globals}

theorem accepts_eq_iff : accepts g = true ↔ g.disabled = false ∧ g.headers.Allow := by
  rw [accepts, Bool.not_eq_true', outputHeader_disabled_iff]

/-- The headers are sent once; what they decide stays. -/
theorem accepts_outputHeader (g : Globals) : accepts (outputHeader g) = accepts g := by
  obtain ⟨handlers, running, disabled, ⟨sent, noHeaders, headersOnly, sendable⟩⟩ := g
  cases sent <;> cases noHeaders <;> cases headersOnly <;> cases sendable <;>
    simp [accepts, outputHeader, header, sendHeaders]

theorem Ready.with_handlers (ready : Ready accepting g) {handlers : List Handler}
    (isDefault : ∀ h ∈ handlers, h.IsDefault) : Ready accepting { g with handlers := handlers } :=
  have unchanged : accepts { g with handlers := handlers } = accepts g :=
    Bool.eq_iff_iff.mpr (accepts_eq_iff.trans (@accepts_eq_iff g).symm)
  ⟨ready.idle, unchanged.trans ready.decided, isDefault⟩

private theorem send_sends (ready : Ready accepting g) (out : Bytes) :
    Ready accepting (send g out).1 ∧ (send g out).2 = if accepting then out else [] := by
  unfold send
  split
  next nothing => exact ⟨ready, by simp [nothing]⟩
  next =>
    refine ⟨⟨?_, ?_, ?_⟩, ?_⟩
    · exact (outputHeader_running g).trans ready.idle
    · exact (accepts_outputHeader g).trans ready.decided
    · rw [outputHeader_handlers]
      exact ready.isDefault
    · have accepted := ready.decided
      rw [accepts] at accepted
      dsimp only
      rw [← accepted]
      cases (outputHeader g).disabled <;> rfl

end headers

section steps

variable {h : Handler} {handlers : List Handler} {op : Nat} {input : Bytes}

/-- A default handler stores what a write gives to it, or gives out all that it has. -/
theorem handlerOp_cases (isDefault : h.IsDefault) :
    (op = 0 ∧ handlerOp h ⟨op, input, []⟩ = (.noData, { h with buffer := h.buffer ++ input },
      ⟨op, input, []⟩)) ∨
    handlerOp h ⟨op, input, []⟩ =
      (if h.buffer ++ input = [] then .noData else .success, h.flushed,
        ⟨op, [], h.buffer ++ input⟩) := by
  have appended : handlerAppend false h input =
    ((handlerAppend false h input).1, { h with buffer := h.buffer ++ input }) :=
    Prod.ext rfl (handlerAppend_snd h input)
  rw [handlerOp, appended]
  dsimp only
  split
  next stored => exact .inl ⟨stored.2, rfl⟩
  next =>
    right
    simp only [callFunc, isDefault.func, handlerDefaultFunc, Context.pass]
    by_cases nothing : h.buffer ++ input = []
    · simp [nothing, Context.reset, Handler.flushed, isDefault.func]
    · simp [nothing, Handler.flushed, isDefault.func]

theorem handlerOp_passes (isDefault : h.IsDefault) :
    Passes [h] input [(handlerOp h ⟨op, input, []⟩).2.1] (handlerOp h ⟨op, input, []⟩).2.2.out := by
  rcases @handlerOp_cases h op input isDefault with ⟨-, stored⟩ | passed
  · rw [stored]
    exact ⟨by simpa using ⟨isDefault.func, isDefault.enabled⟩, rfl, by simp⟩
  · rw [passed]
    exact ⟨by simpa using ⟨isDefault.func, isDefault.enabled⟩, rfl, by simp [Handler.flushed]⟩

private theorem stackApply_passes (isDefault : ∀ g ∈ h :: handlers, g.IsDefault) :
    Passes (h :: handlers) input
    (stackApply (h :: handlers) ⟨op, input, []⟩).1
      (stackApply (h :: handlers) ⟨op, input, []⟩).2.out := by
  -- by induction over the handlers below the first one; the walk ends where a handler gives out
  -- nothing
  induction handlers generalizing h input with
  | nil =>
    have here := isDefault h (by simp)
    have single := @handlerOp_passes h op input here
    rw [stackApply, stackApplyOp, if_neg (by simp [here.enabled])]
    generalize handlerOp h ⟨op, input, []⟩ = result at single
    obtain ⟨status, h', c⟩ := result
    cases status <;> exact single
  | cons next below ih =>
    obtain ⟨here, others⟩ := List.forall_mem_cons.mp isDefault
    rw [stackApply, stackApplyOp, if_neg (by simp [here.enabled])]
    rcases @handlerOp_cases h op input here with ⟨-, stored⟩ | passed
    · rw [stored]
      exact ⟨List.forall_mem_cons.mpr ⟨⟨here.func, here.enabled⟩, others⟩, rfl, by simp⟩
    rw [passed]
    by_cases nothing : h.buffer ++ input = []
    · simp only [nothing, if_true]
      refine ⟨List.forall_mem_cons.mpr ⟨⟨here.func, here.enabled⟩, others⟩, rfl, ?_⟩
      simp [Handler.flushed, nothing]
    · simp only [nothing, if_false, List.length_cons, Nat.add_eq_zero_iff, one_ne_zero, and_false,
        Context.swap]
      obtain ⟨kept, length, bytes⟩ := @ih next (h.buffer ++ input) others
      refine ⟨List.forall_mem_cons.mpr ⟨⟨here.func, here.enabled⟩, kept⟩, by simpa using length, ?_⟩
      simpa [Handler.flushed] using bytes

/-- An operation goes through the handlers, whether there are none, one or several of them. -/
theorem outputOp_passes {g : Globals} (idle : g.running = false)
    (isDefault : ∀ h ∈ g.handlers, h.IsDefault) (op : Nat) (str : Bytes) :
    ∃ handlers' out, outputOp g op str = some (send { g with handlers := handlers' } out) ∧
      Passes g.handlers str handlers' out := by
  rw [outputOp, if_neg (by simp [idle])]
  rcases g with ⟨_ | ⟨h, _ | ⟨next, below⟩⟩, running, disabled, headers⟩
  · exact ⟨[], str, rfl, isDefault, rfl, List.append_nil str⟩
  · have here := isDefault h (by simp)
    simp only [here.enabled, Bool.false_eq_true, if_false]
    exact ⟨_, _, rfl, handlerOp_passes here⟩
  · exact ⟨_, _, rfl, stackApply_passes isDefault⟩

theorem outputOp_sends {accepting : Bool} {g : Globals} (ready : Ready accepting g) (op : Nat)
    (str : Bytes) :
    ∃ g' sent, outputOp g op str = some (g', sent) ∧ Sends accepting g str g' sent := by
  obtain ⟨handlers', out, operated, passes⟩ := outputOp_passes ready.idle ready.isDefault op str
  obtain ⟨ready', sent⟩ := send_sends (ready.with_handlers passes.isDefault) out
  refine ⟨(send { g with handlers := handlers' } out).1, _, operated, ready', ?_, ?_, ?_⟩
  · rw [send_handlers]
    exact passes.length
  · intro accepted
    rw [accepted, if_pos rfl] at sent
    exact sent.symm ▸ (send_handlers _ out).symm ▸ passes.bytes
  · intro refused
    exact sent.trans (if_neg (by simp [refused]))

/-- Once output is disabled, a write is dropped before it reaches a handler. -/
theorem write_sends {accepting : Bool} {g : Globals} (ready : Ready accepting g) (str : Bytes) :
    ∃ g' sent, write g str = some (g', sent) ∧ Sends accepting g str g' sent := by
  unfold write
  split
  next disabled =>
    refine ⟨g, [], rfl, ready, rfl, fun accepted => ?_, fun _ => rfl⟩
    have enabled := (accepts_eq_iff.mp (ready.decided.trans accepted)).1
    exact absurd (disabled.symm.trans enabled) (by decide)
  next => exact outputOp_sends ready 0 str

/-- Only a write is stored, so that any other operation leaves nothing in a default handler. -/
theorem handlerOp_all (isDefault : h.IsDefault) (other : op ≠ 0) :
    (handlerOp h ⟨op, [], []⟩).2 = (h.flushed, ⟨op, [], h.buffer⟩) := by
  rcases @handlerOp_cases h op [] isDefault with ⟨zero, -⟩ | passed
  · exact absurd zero other
  · rw [passed, List.append_nil]

/-- What the active handler holds goes to the handlers below it, or is dropped. -/
theorem activeOp_sends {accepting : Bool} {g : Globals} (ready : Ready accepting g)
    {below : List Handler} (active : g.handlers = h :: below) (pops drops : Bool)
    {op : Handler → Nat} (other : op h ≠ 0) :
    ∃ g' sent, Sends accepting { g with handlers := below }
      (if drops then [] else h.buffer) g' sent ∧
      activeOp g true pops drops op =
        some ({ g' with handlers := (if pops then [] else [h.flushed]) ++ g'.handlers }, sent) := by
  obtain ⟨handlers, running, disabled, headers⟩ := g
  obtain rfl : handlers = h :: below := active
  obtain rfl : running = false := ready.idle
  obtain ⟨here, others⟩ := List.forall_mem_cons.mp ready.isDefault
  have lower := ready.with_handlers others
  simp only [activeOp, here.enabled, Bool.true_eq_false, Bool.false_eq_true, and_false, if_false,
    handlerOp_all here other]
  by_cases nothing : drops = true ∨ h.buffer = []
  · refine ⟨_, [], ⟨lower, rfl, fun _ => ?_, fun _ => rfl⟩, if_pos nothing⟩
    rcases nothing with dropped | empty
    · simp [dropped]
    · simp [empty]
  · obtain ⟨g', sent, written, sends⟩ := write_sends lower h.buffer
    rw [if_neg nothing]
    rw [not_or, Bool.not_eq_true] at nothing
    rw [nothing.1, written]
    exact ⟨g', sent, sends, rfl⟩

theorem finalOp_ne_zero (discard : Bool) (orphan : Handler) : finalOp discard orphan ≠ 0 := by
  rw [finalOp]
  cases orphan.started <;> cases discard <;> decide

private theorem endLoop_sends {accepting : Bool} {g : Globals} (ready : Ready accepting g)
    {rounds : Nat} (enough : g.handlers.length = rounds) :
    ∃ g', endLoop rounds g = some (g', if accepting then contents g.handlers else []) ∧
      g'.handlers = [] := by
  induction rounds generalizing g with
  | zero =>
    have none := List.length_eq_zero_iff.mp enough
    exact ⟨g, by simp [endLoop, none], none⟩
  | succ rounds ih =>
    obtain ⟨h, below, active⟩ := List.exists_cons_of_length_eq_add_one enough
    obtain ⟨g', first, sends, popped⟩ := activeOp_sends ready active true false
      (finalOp_ne_zero false h)
    obtain ⟨g'', later, none⟩ := ih sends.ready (by simpa [active, sends.length] using enough)
    refine ⟨g'', ?_, none⟩
    rw [endLoop, if_neg (by simp [active]), stackPop, popped]
    cases accepting with
    | false => simp [later, sends.refused rfl]
    | true =>
      have bytes := sends.bytes rfl
      simp only [if_true] at later
      simp only [if_true, List.nil_append, Option.bind_eq_bind, Option.bind_some, later,
        bytes, active,
        contents_cons]
      rfl

end steps

/-! ### Whole runs -/

/-- The calls of a program, with the flag of the active handler that a call looks at. -/
inductive Call
  | start (size : Nat)
  | write (str : Bytes)
  | flush (flushable : Bool)
  | flushAll
  | clean (cleanable : Bool)
  | finish (removable : Bool)
  | discard (removable : Bool)

/-- `sent` is what the SAPI has got; `due` is what was written, without the buffers that were
dropped. -/
structure Request where
  globals : Globals
  sent : Bytes
  due : Bytes

/-- The buffer of the active handler is dropped. -/
def Request.drop (r : Request) (allowed : Bool) : Bytes :=
  if allowed then r.due.take (r.due.length - (contents (r.globals.handlers.take 1)).length)
    else r.due

/-- The call on the handlers, and what is due after it. -/
def Request.result (r : Request) : Call → Option (Globals × Bytes) × Bytes
  | .start size => (handlerStart r.globals size, r.due)
  | .write str => (Output.write r.globals str, r.due ++ str)
  | .flush flushable => (Output.flush r.globals flushable, r.due)
  | .flushAll => (Output.flushAll r.globals, r.due)
  | .clean cleanable => (Output.clean r.globals cleanable, r.drop cleanable)
  | .finish removable => (stackPop r.globals removable false, r.due)
  | .discard removable => (stackPop r.globals removable true, r.drop removable)

def Request.call (r : Request) (call : Call) : Option Request :=
  (r.result call).1.map fun (g, out) => ⟨g, r.sent ++ out, (r.result call).2⟩

/-- Every byte that is due has been sent or is in a buffer, in order; or nothing has been sent. -/
structure Request.Intact (accepting : Bool) (r : Request) : Prop where
  ready : Ready accepting r.globals
  bytes : accepting = true → r.sent ++ contents r.globals.handlers = r.due
  refused : accepting = false → r.sent = []

section runs

variable {accepting : Bool} {r : Request}

/-- What is dropped is the end of what is due. -/
theorem Request.Intact.drop_eq (intact : r.Intact true) {active : Handler} {below : List Handler}
    (handlers : r.globals.handlers = active :: below) :
    r.drop true = r.sent ++ contents below := by
  have due := intact.bytes rfl
  rw [handlers, contents_cons, ← List.append_assoc] at due
  rw [Request.drop, if_pos rfl, handlers, ← due]
  refine List.take_left' ?_
  simp only [List.take_succ_cons, List.take_zero, contents_cons, contents_nil, List.nil_append,
    List.length_append]
  omega

private theorem activeOp_keeps (intact : r.Intact accepting) (allowed pops drops : Bool)
    {op : Handler → Nat} (other : ∀ h, op h ≠ 0) :
    ∃ g out, activeOp r.globals allowed pops drops op = some (g, out) ∧
      Request.Intact accepting ⟨g, r.sent ++ out, if drops then r.drop allowed else r.due⟩ := by
  -- without an active handler, or if its flags do not allow the call, nothing happens
  have unchanged (undropped : r.drop allowed = r.due) : Request.Intact accepting
      ⟨r.globals, r.sent ++ [], if drops then r.drop allowed else r.due⟩ := by
    rw [undropped, ite_self, List.append_nil]
    exact intact
  cases handlers : r.globals.handlers with
  | nil =>
    refine ⟨r.globals, [], by simp [activeOp, handlers], unchanged ?_⟩
    simp [Request.drop, handlers]
  | cons active below =>
  cases allowed with
  | false => exact ⟨r.globals, [], by simp [activeOp, handlers], unchanged rfl⟩
  | true =>
    obtain ⟨g', out, sends, called⟩ := activeOp_sends intact.ready handlers pops drops
      (other active)
    have here := intact.ready.isDefault active (by simp [handlers])
    have kept : contents ((if pops then [] else [active.flushed]) ++ g'.handlers) =
        contents g'.handlers := by
      cases pops <;> simp [Handler.flushed]
    refine ⟨_, out, called, sends.ready.with_handlers ?_, ?_, ?_⟩
    · cases pops with
      | false => exact List.forall_mem_cons.mpr ⟨⟨here.func, here.enabled⟩, sends.ready.isDefault⟩
      | true => exact sends.ready.isDefault
    · rintro rfl
      rw [kept, List.append_assoc, sends.bytes rfl, intact.drop_eq handlers, ← intact.bytes rfl,
        handlers, contents_cons]
      cases drops <;> simp
    · intro refused
      rw [intact.refused refused, sends.refused refused, List.append_nil]

private theorem sends_keeps (intact : r.Intact accepting) {str : Bytes} {g' : Globals}
    {sent : Bytes} (sends : Sends accepting r.globals str g' sent) :
    Request.Intact accepting ⟨g', r.sent ++ sent, r.due ++ str⟩ where
  ready := sends.ready
  bytes accepted := by
    rw [List.append_assoc, sends.bytes accepted, ← List.append_assoc, intact.bytes accepted]
  refused refused := by rw [intact.refused refused, sends.refused refused, List.append_nil]

/-- One call completes and keeps the request intact. -/
theorem call_intact (intact : r.Intact accepting) (call : Call) :
    ∃ r', r.call call = some r' ∧ r'.Intact accepting := by
  have kept : ∃ g out, (r.result call).1 = some (g, out) ∧
      Request.Intact accepting ⟨g, r.sent ++ out, (r.result call).2⟩ := by
    cases call with
    | start size =>
      have started : ∀ h ∈ Handler.mk (.internal handlerDefaultFunc) size [] false false false ::
          r.globals.handlers, h.IsDefault :=
        List.forall_mem_cons.mpr ⟨⟨rfl, rfl⟩, intact.ready.isDefault⟩
      refine ⟨_, [], if_neg (by simp [intact.ready.idle]),
        intact.ready.with_handlers started, ?_, ?_⟩
      · intro accepted
        simpa [Request.result] using intact.bytes accepted
      · intro refused
        simpa using intact.refused refused
    | write str =>
      obtain ⟨g', sent, written, sends⟩ := write_sends intact.ready str
      exact ⟨g', sent, written, sends_keeps intact sends⟩
    | flushAll =>
      by_cases none : r.globals.handlers = []
      · refine ⟨r.globals, [], if_pos none, ?_⟩
        rw [List.append_nil]
        exact intact
      · obtain ⟨g', sent, flushed, sends⟩ := outputOp_sends intact.ready opFlush []
        have kept := sends_keeps intact sends
        rw [List.append_nil] at kept
        exact ⟨g', sent, (if_neg none).trans flushed, kept⟩
    | flush flushable =>
      have other : opFlush ≠ 0 := by decide
      exact activeOp_keeps intact flushable false false fun _ => other
    | clean cleanable =>
      have other : opClean ≠ 0 := by decide
      exact activeOp_keeps intact cleanable false true fun _ => other
    | finish removable => exact activeOp_keeps intact removable true false (finalOp_ne_zero false)
    | discard removable => exact activeOp_keeps intact removable true true (finalOp_ne_zero true)
  obtain ⟨g, out, called, intact'⟩ := kept
  exact ⟨_, by rw [Request.call, called]; rfl, intact'⟩

end runs

/-- Every run of calls completes. If output is allowed, what has been sent and what the buffers hold
is what is due, and the end of the request sends the rest of it. If it is not, as for a HEAD
request, nothing is ever sent. -/
theorem calls_send_due (headers : Headers) (calls : List Call) :
    ∃ r, Runs.execute Request.call ⟨⟨[], false, false, headers⟩, [], []⟩ calls = some r ∧
      (headers.Allow → r.sent ++ contents r.globals.handlers = r.due ∧
        ∃ g, endAll r.globals = some (g, contents r.globals.handlers) ∧ g.handlers = []) ∧
      (¬ headers.Allow → r.sent = [] ∧ ∃ g, endAll r.globals = some (g, []) ∧ g.handlers = []) := by
  have start : Request.Intact (accepts ⟨[], false, false, headers⟩)
      ⟨⟨[], false, false, headers⟩, [], []⟩ := ⟨⟨rfl, rfl, by simp⟩, fun _ => rfl, fun _ => rfl⟩
  have decides : accepts ⟨[], false, false, headers⟩ = true ↔ headers.Allow := by
    simp [accepts_eq_iff]
  obtain ⟨r, ran, intact⟩ := @Runs.foldlM_pending _ _ Request.call
    (fun r _ => r.Intact (accepts ⟨[], false, false, headers⟩))
    (fun r call _ intact => call_intact intact call) calls [] _ start
  obtain ⟨g, ended, none⟩ := endLoop_sends intact.ready rfl
  refine ⟨r, ran, fun allowed => ⟨intact.bytes (decides.mpr allowed), g, ?_, none⟩,
    fun refused => ⟨intact.refused ?_, g, ?_, none⟩⟩
  · rwa [decides.mpr allowed] at ended
  · exact Bool.eq_false_iff.mpr (mt decides.mp refused)
  · rwa [Bool.eq_false_iff.mpr (mt decides.mp refused)] at ended

end Jonj.Output
