import Mathlib.Data.List.SplitLengths
import Mathlib.Tactic
import Jonj.SmartStr

/-!
# Variables of a request

`jonj_std_post_handler` reads the body in pieces and registers a variable at each `&`;
`jonj_default_treat_data` does so for the query string, the cookies and strings. Both count the
variables against `max_input_vars`. What happens to the array is left to the registration.
-/
namespace Jonj.Variables

open List

variable {σ : Type}

/-! ### One variable -/

/-- The loop of `jonj_url_decode`. `len` is an `int` that is counted down: from a negative one
through the overflow, with nothing decoded until then. -/
def urlDecode : Nat → Bytes → Bytes
  | 0, _ => []
  | _, [] => []
  | len + 1, c :: data =>
    if c = 43 then 32 :: urlDecode len data
    else
      match data with
      | x :: y :: rest =>
        match hexValue x, hexValue y with
        | some high, some low =>
          if c = 37 ∧ 2 ≤ len ∧ len < 2 ^ 31 then (high * 16 + low) :: urlDecode (len - 2) rest
          else c :: urlDecode len (x :: y :: rest)
        | _, _ => c :: urlDecode len (x :: y :: rest)
      | data => c :: urlDecode len data

/-- `jonj_url_decode`, its length cut to 32 bits. -/
def decode (str : Bytes) : Bytes := urlDecode (str.length % 2 ^ 32) str

/-- Name and value of a piece; the name is a C string. -/
def pairOf (piece : Bytes) : Bytes × Bytes :=
  ((decode (piece.takeWhile (· != 61))).takeWhile (· != 0),
    decode ((piece.dropWhile (· != 61)).drop 1))

/-- What `jonj_register_variable_ex` makes of an array of variables, and whether it takes the
variable. This may depend on the array, on brackets in the name and on their nesting; all that
matters here is that it drops an empty name. -/
structure Registration (σ : Type) where
  register : σ → Bytes × Bytes → Bool × σ
  empty : ∀ array value, register array ([], value) = (false, array)

/-- The array, and the variables that were taken into it, the first one first. -/
structure Vars (σ : Type) where
  array : σ
  taken : List (Bytes × Bytes) := []
  deriving DecidableEq

def Registration.add (reg : Registration σ) (vars : Vars σ) (pair : Bytes × Bytes) : Vars σ :=
  let (takes, array) := reg.register vars.array pair
  ⟨array, if takes then vars.taken ++ [pair] else vars.taken⟩

/-- The variables of pieces are registered one after the other. -/
def registered (reg : Registration σ) (vars : Vars σ) (pieces : List Bytes) : Vars σ :=
  (pieces.map pairOf).foldl reg.add vars

section registered

variable {reg : Registration σ} {vars : Vars σ}

@[simp] theorem registered_nil : registered reg vars [] = vars := rfl

theorem registered_cons (piece : Bytes) (pieces : List Bytes) :
    registered reg vars (piece :: pieces) = registered reg (reg.add vars (pairOf piece)) pieces :=
  rfl

/-- There is nothing to register behind a last `&`. -/
theorem registered_empty (n : Nat) : registered reg vars ([[]].take n) = vars := by
  cases n with
  | zero => rfl
  | succ n =>
    rw [take_succ_cons, take_nil, registered_cons, registered_nil, Registration.add,
      show (pairOf []) = ([], []) by rfl, reg.empty]
    rfl

private theorem registered_append (front back : List Bytes) :
    registered reg vars (front ++ back) = registered reg (registered reg vars front) back := by
  rw [registered, map_append, foldl_append]
  rfl

theorem taken_sublist (pieces : List Bytes) :
    (registered reg vars pieces).taken <+ vars.taken ++ pieces.map pairOf := by
  induction pieces generalizing vars with
  | nil => simp
  | cons piece pieces ih =>
    have first : (reg.add vars (pairOf piece)).taken <+ vars.taken ++ [pairOf piece] := by
      rw [Registration.add]
      dsimp only
      split <;> simp
    have others := ih.trans (first.append_right (pieces.map pairOf))
    simpa [registered_cons] using others

theorem length_taken (pieces : List Bytes) :
    (registered reg vars pieces).taken.length ≤ vars.taken.length + pieces.length := by
  simpa using (taken_sublist pieces).length_le

end registered

/-! ### The body of a request -/

structure PostVarData (σ : Type) where
  str : SmartStr
  ptr : Nat := 0
  cnt : Nat := 0
  alreadyScanned : Nat := 0
  arr : Vars σ

def PostVarData.rest (var : PostVarData σ) : Bytes := var.str.bytes.drop var.ptr

/-- The piece from `ptr` to `vsep` is registered. It is decoded in place, which changes nothing
from the new `ptr` on. -/
def PostVarData.register (reg : Registration σ) (var : PostVarData σ) (vsep : Nat) :
    PostVarData σ :=
  { var with
    arr := registered reg var.arr [var.rest.take (vsep - var.ptr)]
    ptr := vsep + if vsep = var.str.bytes.length then 0 else 1
    alreadyScanned := 0 }

def addPostVar (reg : Registration σ) (var : PostVarData σ) (eof : Bool) : Bool × PostVarData σ :=
  if var.str.bytes.length ≤ var.ptr then (false, var)
  else
    let start := var.ptr + var.alreadyScanned
    match (var.str.bytes.drop start).idxOf? 38 with
    | some i => (true, var.register reg (start + i))
    | none =>
      if eof then (true, var.register reg var.str.bytes.length)
      else (false, { var with alreadyScanned := var.str.bytes.length - var.ptr })

/-- With `left` still in the buffer and `future` to come, `out` is what gets registered in the
end. -/
structure Leads (reg : Registration σ) (max : Nat) (left : Bytes) (vars : PostVarData σ)
    (future : Bytes) (out : Vars σ) : Prop where
  bounded : vars.alreadyScanned ≤ left.length
  clean : 38 ∉ left.take vars.alreadyScanned
  total : out =
    registered reg vars.arr (((left ++ future).splitOn 38).take (max + 1 - vars.cnt))

section addPostVar

variable {reg : Registration σ} {max : Nat} {vars : PostVarData σ} {future : Bytes} {out : Vars σ}

private theorem register_leads (leads : Leads reg max vars.rest vars future out)
    (below : vars.cnt ≤ max) {p rest : Bytes} (clean : 38 ∉ p)
    (found : vars.rest = p ++ 38 :: rest) :
    let vars' := vars.register reg (vars.ptr + p.length)
    Leads reg max vars'.rest { vars' with cnt := vars'.cnt + 1 } future out := by
  have inside : vars.ptr + p.length ≠ vars.str.bytes.length := by
    have length := congrArg length found
    simp only [PostVarData.rest, length_drop, length_append, length_cons] at length
    omega
  have behind : (vars.register reg (vars.ptr + p.length)).rest =
      (vars.rest.drop p.length).drop 1 := by
    simp [PostVarData.rest, PostVarData.register, inside, Nat.add_assoc]
  have left : max + 1 - vars.cnt = max + 1 - (vars.cnt + 1) + 1 := by omega
  refine ⟨Nat.zero_le _, by simp [PostVarData.register], ?_⟩
  rw [behind, leads.total, found, append_assoc, cons_append,
    splitOn_append_cons_self_of_not_mem clean, left, take_succ_cons, registered_cons]
  simp [PostVarData.register, found, registered_cons]

private theorem register_last (leads : Leads reg max vars.rest vars [] out) (below : vars.cnt ≤ max)
    (clean : 38 ∉ vars.rest) :
    let vars' := vars.register reg vars.str.bytes.length
    Leads reg max vars'.rest { vars' with cnt := vars'.cnt + 1 } [] out := by
  have behind : (vars.register reg vars.str.bytes.length).rest = [] := by
    simp [PostVarData.rest, PostVarData.register]
  have whole : vars.rest.take (vars.str.bytes.length - vars.ptr) = vars.rest :=
    take_of_length_le length_drop.le
  refine ⟨Nat.zero_le _, by simp [PostVarData.register], ?_⟩
  rw [behind, leads.total, append_nil, append_nil, splitOn_eq_singleton clean, splitOn_nil,
    registered_empty, take_of_length_le (by rw [length_singleton]; omega)]
  simp [PostVarData.register, whole]

private theorem addPostVar_leads {eof : Bool} (leads : Leads reg max vars.rest vars future out)
    (below : vars.cnt ≤ max) (last : eof = true → future = []) :
    (∃ n, addPostVar reg vars eof = (false, { vars with alreadyScanned := n }) ∧
      Leads reg max vars.rest { vars with alreadyScanned := n } future out ∧
      (eof = true → vars.rest = [])) ∨
    ∃ vars', addPostVar reg vars eof = (true, vars') ∧
      Leads reg max vars'.rest { vars' with cnt := vars'.cnt + 1 } future out := by
  unfold addPostVar
  split
  next behind => exact .inl ⟨_, rfl, leads, fun _ => drop_eq_nil_of_le behind⟩
  next before =>
  have split : vars.rest = vars.rest.take vars.alreadyScanned ++
      vars.str.bytes.drop (vars.ptr + vars.alreadyScanned) := by
    rw [← drop_drop]
    exact (take_append_drop _ _).symm
  dsimp only
  generalize vars.str.bytes.drop (vars.ptr + vars.alreadyScanned) = unseen at split
  split
  next i found =>
    -- the first separator behind what was scanned is the first one of all
    obtain ⟨less, isSep, first⟩ := idxOf?_eq_some_iff.mp found
    rw [← take_append_drop i unseen, drop_eq_getElem_cons less, isSep, ← append_assoc] at split
    have place : vars.ptr + vars.alreadyScanned + i =
        vars.ptr + (vars.rest.take vars.alreadyScanned ++ unseen.take i).length := by
      rw [length_append, length_take_of_le leads.bounded, length_take_of_le less.le, Nat.add_assoc]
    rw [place]
    refine .inr ⟨_, rfl, register_leads leads below ?_ split⟩
    rw [mem_append, not_or]
    refine ⟨leads.clean, fun member => ?_⟩
    obtain ⟨j, inside, same⟩ := mem_iff_getElem.mp member
    rw [getElem_take] at same
    exact first j (by simp at inside; omega) same
  next none =>
    have absent : 38 ∉ vars.rest := by
      rw [split, mem_append, not_or]
      exact ⟨leads.clean, idxOf?_eq_none_iff.mp none⟩
    split
    next isLast =>
      rw [last isLast] at leads ⊢
      exact .inr ⟨_, rfl, register_last leads below absent⟩
    next more =>
      refine .inl ⟨_, rfl, ⟨?_, fun member => absent (mem_of_mem_take member), leads.total⟩,
        fun isLast => absurd isLast more⟩
      exact length_drop.ge

end addPostVar

theorem addPostVar_lt {reg : Registration σ} {var var' : PostVarData σ} {eof : Bool}
    (taken : addPostVar reg var eof = (true, var')) :
    var'.str.bytes.length - var'.ptr < var.str.bytes.length - var.ptr := by
  unfold addPostVar at taken
  split at taken
  next => cases taken
  next before =>
  dsimp only at taken
  split at taken
  next i found =>
    obtain ⟨less, -⟩ := idxOf?_eq_some_iff.mp found
    cases taken
    simp only [PostVarData.register]
    split <;> omega
  next =>
    split at taken
    next =>
      cases taken
      simp only [PostVarData.register]
      omega
    next => cases taken

/-- The loop of `add_post_vars`. It registers a variable before it looks whether there are too
many of them. -/
def addLoop (reg : Registration σ) (max : Nat) (eof : Bool) (vars : PostVarData σ) :
    Bool × PostVarData σ :=
  match _taken : addPostVar reg vars eof with
  | (false, vars) => (true, vars)
  | (true, vars) =>
    if max < vars.cnt + 1 then (false, { vars with cnt := vars.cnt + 1 })
    else addLoop reg max eof { vars with cnt := vars.cnt + 1 }
termination_by vars.str.bytes.length - vars.ptr
decreasing_by exact addPostVar_lt _taken

def addPostVars (reg : Registration σ) (max : Nat) (eof : Bool) (vars : PostVarData σ) :
    Bool × PostVarData σ :=
  let (success, vars) := addLoop reg max eof { vars with ptr := 0 }
  if success ∧ ¬ eof then
    (true, { vars with str := ⟨vars.rest, vars.str.a, fun zero => by
      rw [PostVarData.rest, vars.str.unallocated zero, drop_nil]⟩ })
  else (success, vars)

/-- `SAPI_POST_HANDLER_BUFSIZ` -/
def bufsiz : Nat := 8192

/-- The loop over the reads, which are those until `jonj_stream_eof`. A read that does not fill the
buffer is the last one. -/
def readLoop (reg : Registration σ) (max : Nat) :
    List Bytes → PostVarData σ → Option (Bool × PostVarData σ)
  | [], vars => some (true, vars)
  | buf :: reads, vars => do
    let (success, vars) ←
      if buf = [] then some (true, vars)
      else (vars.str.append buf).map fun str => addPostVars reg max false { vars with str }
    if success ∧ buf.length = bufsiz then readLoop reg max reads vars else some (success, vars)

/-- The variables that `jonj_std_post_handler` registers; `none` if it does not return. -/
def stdPostHandler (reg : Registration σ) (max : Nat) (reads : List Bytes) (array : σ) :
    Option (Vars σ) :=
  (readLoop reg max reads { str := .empty, arr := { array } }).map fun (success, vars) =>
    if success then (addPostVars reg max true vars).2.arr else vars.arr

/-- What a call leads to: once it has failed, nothing more is registered. -/
def Outcome (reg : Registration σ) (max : Nat) (left : Bytes) (result : Bool × PostVarData σ)
    (future : Bytes) (out : Vars σ) : Prop :=
  if result.1 then Leads reg max left result.2 future out ∧ result.2.cnt ≤ max
  else result.2.arr = out

section loops

variable {reg : Registration σ} {max : Nat} {vars : PostVarData σ} {future : Bytes} {out : Vars σ}

/-- The loop goes on until nothing is left to take, or until it has taken one variable too many. -/
theorem addLoop_spec {eof : Bool} (leads : Leads reg max vars.rest vars future out)
    (below : vars.cnt ≤ max) (last : eof = true → future = []) :
    Outcome reg max (addLoop reg max eof vars).2.rest (addLoop reg max eof vars) future out ∧
      (eof = true → (addLoop reg max eof vars).2.arr = out) := by
  induction size : vars.str.bytes.length - vars.ptr using Nat.strong_induction_on
    generalizing vars with
  | _ size ih =>
    rcases addPostVar_leads leads below last with ⟨n, stop, leads', done⟩ | ⟨vars', taken, leads'⟩
    · have ends : addLoop reg max eof vars = (true, { vars with alreadyScanned := n }) := by
        rw [addLoop]
        split <;> simp_all
      rw [ends]
      refine ⟨⟨leads', below⟩, fun isLast => ?_⟩
      rw [leads.total, done isLast, last isLast, append_nil, splitOn_nil, registered_empty]
    have step : addLoop reg max eof vars =
        if max < vars'.cnt + 1 then (false, { vars' with cnt := vars'.cnt + 1 })
        else addLoop reg max eof { vars' with cnt := vars'.cnt + 1 } := by
      rw [addLoop]
      split <;> simp_all
    rw [step]
    split
    next full =>
      have none : max + 1 - (vars'.cnt + 1) = 0 := by omega
      have final : vars'.arr = out := by
        rw [leads'.total]
        simp [none]
      exact ⟨final, fun _ => final⟩
    next room =>
      have smaller := addPostVar_lt taken
      exact ih _ (size ▸ smaller) leads' (Nat.not_lt.mp room) rfl

private theorem addPostVars_spec (leads : Leads reg max vars.str.bytes vars future out)
    (below : vars.cnt ≤ max) : Outcome reg max (addPostVars reg max false vars).2.str.bytes
      (addPostVars reg max false vars) future out := by
  have run := (@addLoop_spec _ reg max { vars with ptr := 0 } future out false
    ⟨leads.1, leads.2, leads.3⟩ below (by simp)).1
  rw [addPostVars]
  generalize addLoop reg max false { vars with ptr := 0 } = result at run
  obtain ⟨success, vars'⟩ := result
  cases success with
  | true => exact ⟨⟨run.1.bounded, run.1.clean, run.1.total⟩, run.2⟩
  | false => exact run

private theorem addPostVars_last (leads : Leads reg max vars.str.bytes vars [] out)
    (below : vars.cnt ≤ max) : (addPostVars reg max true vars).2.arr = out := by
  rw [addPostVars]
  simp only [not_true, and_false, if_false]
  exact (@addLoop_spec _ reg max { vars with ptr := 0 } [] out true
    ⟨leads.1, leads.2, leads.3⟩ below fun _ => rfl).2 rfl

end loops

/-- The bytes that the loop over the reads gets to see. -/
def delivered : List Bytes → Bytes
  | [] => []
  | buf :: reads => if buf.length = bufsiz then buf ++ delivered reads else buf

section reads

variable {reg : Registration σ} {max : Nat} {vars : PostVarData σ}

private theorem readLoop_spec {reads : List Bytes} {out : Vars σ} {result : Bool × PostVarData σ}
    (leads : Leads reg max vars.str.bytes vars (delivered reads) out) (below : vars.cnt ≤ max)
    (ran : readLoop reg max reads vars = some result) :
    Outcome reg max result.2.str.bytes result [] out := by
  induction reads generalizing vars with
  | nil =>
    obtain rfl := Option.some.inj ran
    exact ⟨leads, below⟩
  | cons buf reads ih =>
    rw [readLoop] at ran
    by_cases empty : buf = []
    · subst empty
      obtain rfl := Option.some.inj ran
      exact ⟨leads, below⟩
    rw [if_neg empty] at ran
    obtain ⟨called, appended, ran⟩ := Option.bind_eq_some_iff.mp ran
    obtain ⟨str, grown, rfl⟩ := Option.map_eq_some_iff.mp appended
    have bytes := SmartStr.append_bytes grown
    have more : Leads reg max str.bytes { vars with str }
        (if buf.length = bufsiz then delivered reads else []) out := by
      rw [bytes]
      refine ⟨?_, ?_, ?_⟩
      · exact leads.bounded.trans (by simp)
      · rw [take_append_of_le_length leads.bounded]
        exact leads.clean
      · rw [leads.total, delivered, append_assoc]
        split <;> simp
    have call := @addPostVars_spec _ reg max { vars with str } _ out more below
    generalize addPostVars reg max false { vars with str } = result' at call ran
    obtain ⟨success, vars'⟩ := result'
    cases success with
    | true =>
      by_cases full : buf.length = bufsiz
      · simp only [full, if_true] at call
        simp only [full, and_self, if_true] at ran
        exact ih call.1 call.2 ran
      · simp only [full, if_false] at call
        simp only [full, and_false, if_false] at ran
        obtain rfl := Option.some.inj ran
        exact call
    | false =>
      obtain rfl := Option.some.inj ran
      exact call

/-- If it returns, the handler has registered up to one variable more than the limit, from what
the reads deliver. -/
theorem stdPostHandler_eq {reads : List Bytes} {array : σ} {out : Vars σ}
    (returned : stdPostHandler reg max reads array = some out) :
    out = registered reg { array } (((delivered reads).splitOn 38).take (max + 1)) := by
  obtain ⟨result, ran, rfl⟩ := Option.map_eq_some_iff.mp returned
  have run := @readLoop_spec _ reg max _ reads _ _ ⟨le_rfl, by simp, rfl⟩ (Nat.zero_le _) ran
  obtain ⟨success, vars⟩ := result
  cases success with
  | true => exact addPostVars_last run.1 run.2
  | false => exact run

private theorem addLoop_str (eof : Bool) : (addLoop reg max eof vars).2.str = vars.str := by
  fun_induction addLoop reg max eof vars <;> grind [addPostVar, PostVarData.register]

private theorem length_str_addPostVars :
    (addPostVars reg max false vars).2.str.bytes.length ≤ vars.str.bytes.length := by
  have kept := @addLoop_str _ reg max { vars with ptr := 0 } false
  rw [addPostVars]
  generalize addLoop reg max false { vars with ptr := 0 } = result at kept
  obtain ⟨success, vars'⟩ := result
  dsimp only at kept
  cases success <;> simp [PostVarData.rest, kept]

private theorem readLoop_returns {reads : List Bytes}
    (short : vars.str.bytes.length + (delivered reads).length < SmartStr.limit) :
    ∃ result, readLoop reg max reads vars = some result := by
  induction reads generalizing vars with
  | nil => exact ⟨_, rfl⟩
  | cons buf reads ih =>
    rw [readLoop]
    by_cases empty : buf = []
    · subst empty
      exact ⟨_, rfl⟩
    have first : buf.length ≤ (delivered (buf :: reads)).length := by
      rw [delivered]
      split <;> simp
    obtain ⟨str, grown, bytes⟩ := @SmartStr.append_of_short vars.str buf (by omega)
    have length := @length_str_addPostVars _ reg max { vars with str }
    simp only [if_neg empty, grown, Option.map_some, Option.bind_eq_bind, Option.bind_some]
    split
    next goesOn =>
      refine ih ?_
      rw [delivered, if_pos goesOn.2, length_append] at short
      rw [bytes, length_append] at length
      omega
    next => exact ⟨_, rfl⟩

end reads

/-- The handler returns if it gets to see fewer bytes than a `smart_str` can hold. -/
theorem stdPostHandler_returns (reg : Registration σ) (max : Nat) (array : σ) {reads : List Bytes}
    (short : (delivered reads).length < SmartStr.limit) :
    stdPostHandler reg max reads array =
      some (registered reg { array } (((delivered reads).splitOn 38).take (max + 1))) := by
  obtain ⟨result, ran⟩ := @readLoop_returns _ reg max { str := .empty, arr := { array } } reads
    (by simpa [SmartStr.empty] using short)
  have returned : stdPostHandler reg max reads array = some _ :=
    Option.map_eq_some_iff.mpr ⟨result, ran, rfl⟩
  rw [returned, stdPostHandler_eq returned]

/-! ### The pieces of the body -/

/-- Nothing comes behind a read that does not fill the buffer. -/
def Undivided : List Nat → Prop
  | [] => True
  | n :: lengths => if n = bufsiz then Undivided lengths else lengths.sum = 0

theorem delivered_eq_flatten {reads : List Bytes} (undivided : Undivided (reads.map length)) :
    delivered reads = reads.flatten := by
  induction reads with
  | nil => rfl
  | cons buf reads ih =>
    rw [map_cons, Undivided] at undivided
    rw [delivered, flatten_cons]
    split at undivided
    next full => rw [if_pos full, ih undivided]
    next short =>
      rw [← length_flatten] at undivided
      rw [if_neg short, length_eq_zero_iff.mp undivided, append_nil]

private theorem splitOn_separator (l : Bytes) : (38 :: l).splitOn 38 = [] :: l.splitOn 38 :=
  splitOn_append_cons_self_of_not_mem not_mem_nil l

private theorem registered_separators {reg : Registration σ} {vars : Vars σ} (m n : Nat) :
    registered reg vars (((replicate m 38).splitOn 38).take n) = vars := by
  induction m generalizing n with
  | zero => exact registered_empty n
  | succ m ih =>
    rw [replicate_succ, splitOn_separator]
    cases n with
    | zero => rfl
    | succ n =>
      have first := @registered_empty _ reg vars 1
      rw [take_succ_cons, registered_cons]
      exact (congrArg (registered reg · _) first).trans (ih n)

private theorem mem_splitOn_separators {piece l : Bytes} (m : Nat) (member : piece ∈ l.splitOn 38) :
    piece ∈ (replicate m 38 ++ l).splitOn 38 := by
  induction m with
  | zero => exact member
  | succ m ih => exact mem_cons_of_mem _ ih

/-- Reads of the given lengths that deliver separators, and a variable behind them that is not
delivered. -/
theorem exists_lost {lengths : List Nat} (divided : ¬ Undivided lengths) : ∃ reads : List Bytes,
    reads.map length = lengths ∧ (∃ m, delivered reads = replicate m 38) ∧
      [97] ∈ reads.flatten.splitOn 38 := by
  induction lengths with
  | nil => exact absurd trivial divided
  | cons n lengths ih =>
    rw [Undivided] at divided
    split at divided
    next full =>
      obtain ⟨reads, rfl, ⟨m, separators⟩, lost⟩ := ih divided
      refine ⟨replicate n 38 :: reads, by simp, ⟨n + m, ?_⟩, mem_splitOn_separators n lost⟩
      rw [delivered, if_pos (by simpa using full), separators, replicate_append_replicate]
    next short =>
      let body : Bytes := 97 :: replicate (lengths.sum - 1) 38
      have size : body.length = lengths.sum := by
        simp only [body, length_cons, length_replicate]
        omega
      refine ⟨replicate n 38 :: lengths.splitLengths body, ?_,
        ⟨n, if_neg (by simpa using short)⟩, ?_⟩
      · rw [map_cons, length_replicate, map_splitLengths_length body lengths size.ge]
      · rw [flatten_cons, flatten_splitLengths body lengths size.le]
        refine mem_splitOn_separators n ?_
        cases k : lengths.sum - 1 with
        | zero => simp [body, k, splitOn_eq_singleton]
        | succ k' =>
          simp only [body, k, replicate_succ]
          exact mem_cons_self

/-- A registration that takes every name but the empty one. -/
def plain : Registration Unit where
  register _ pair := (pair.1 ≠ [], ())
  empty _ _ := rfl

private theorem taken_plain (vars : Vars Unit) (pieces : List Bytes) :
    (registered plain vars pieces).taken =
      vars.taken ++ (pieces.map pairOf).filter (·.1 ≠ []) := by
  induction pieces generalizing vars with
  | nil => simp
  | cons piece pieces ih =>
    rw [registered_cons, ih, Registration.add, map_cons, filter_cons]
    by_cases named : (pairOf piece).1 = [] <;> simp [plain, named]

/-- Without a separator the buffer keeps everything. -/
theorem addPostVars_clean {reg : Registration σ} {max : Nat} {vars : PostVarData σ}
    (clean : 38 ∉ vars.str.bytes) :
    (addPostVars reg max false vars).1 = true ∧
      (addPostVars reg max false vars).2.str = vars.str := by
  have unseen : (vars.str.bytes.drop (0 + vars.alreadyScanned)).idxOf? 38 = none :=
    idxOf?_eq_none_iff.mpr fun member => clean (mem_of_mem_drop member)
  obtain ⟨n, stop⟩ : ∃ n, addPostVar reg { vars with ptr := 0 } false =
      (false, { vars with ptr := 0, alreadyScanned := n }) := by
    rw [addPostVar]
    split
    next => exact ⟨_, rfl⟩
    next => exact ⟨_, by simp only [unseen]; rfl⟩
  have ends : addLoop reg max false { vars with ptr := 0 } =
      (true, { vars with ptr := 0, alreadyScanned := n }) := by
    rw [addLoop]
    split <;> simp_all
  rw [addPostVars, ends]
  exact ⟨rfl, rfl⟩

/-- A body without a separator in full reads passes the limit of the `smart_str`. In front of each
read the buffer has room for `prealloc` bytes more than it holds, which are whole reads. -/
theorem readLoop_ends {reg : Registration σ} {max : Nat} {vars : PostVarData σ} {reads : List Bytes}
    (sizes : ∀ buf ∈ reads, buf.length ≤ bufsiz) (undivided : Undivided (reads.map length))
    (clean : ∀ buf ∈ reads, 38 ∉ buf) (before : 38 ∉ vars.str.bytes)
    (room : vars.str.a = 0 ∨ vars.str.a = vars.str.bytes.length + SmartStr.prealloc)
    (whole : bufsiz ∣ vars.str.bytes.length) (below : vars.str.bytes.length < SmartStr.limit)
    (above : SmartStr.limit ≤ vars.str.bytes.length + (reads.map length).sum) :
    readLoop reg max reads vars = none := by
  induction reads generalizing vars with
  | nil =>
    simp only [map_nil, sum_nil, Nat.add_zero] at above
    omega
  | cons buf reads ih =>
    rw [forall_mem_cons] at sizes clean
    rw [map_cons, sum_cons] at above
    rw [map_cons, Undivided] at undivided
    have last : buf.length = bufsiz ∨ (reads.map length).sum = 0 := by
      split at undivided
      next full => exact .inl full
      next => exact .inr undivided
    have more : SmartStr.prealloc ≤ buf.length ∧ buf.length < SmartStr.limit := by
      simp only [SmartStr.limit, intMax, SmartStr.prealloc, bufsiz]
        at whole below above sizes last ⊢
      omega
    have notEmpty : buf ≠ [] := by
      rintro rfl
      simp [SmartStr.prealloc] at more
    rw [readLoop, if_neg notEmpty]
    rcases SmartStr.append_grows room more.1 more.2 with failed | ⟨str, grown, bytes, room, below⟩
    · rw [failed]
      rfl
    obtain ⟨goesOn, kept⟩ := @addPostVars_clean _ reg max { vars with str }
      (by simpa [bytes] using ⟨before, clean.1⟩)
    have length := congrArg length bytes
    rw [length_append] at length
    split at undivided
    next full =>
      simp only [grown, Option.map_some, Option.bind_eq_bind, Option.bind_some, goesOn, full,
        and_self, if_true]
      refine ih sizes.2 undivided clean.2 ?_ ?_ ?_ ?_ ?_
      · rw [kept, bytes, mem_append, not_or]
        exact ⟨before, clean.1⟩
      · exact .inr (by rw [kept, room])
      · rw [kept, length, full]
        exact (Nat.dvd_add_self_right).mpr whole
      · rwa [kept]
      · rw [kept]
        dsimp only
        omega
    next => omega

/-- The variables are those of the body, however it is read, if and only if nothing comes behind a
read that does not fill the buffer and the body is not longer than a `smart_str` can be. A separator
at the end of the body leaves an empty piece. -/
theorem stdPostHandler_split_iff {lengths : List Nat} (sizes : ∀ n ∈ lengths, n ≤ bufsiz) :
    (∀ (σ : Type) (reg : Registration σ) (array : σ) max reads, reads.map length = lengths →
      (reads.flatten.splitOn 38).length ≤ max + 1 →
      stdPostHandler reg max reads array =
        some (registered reg { array } (reads.flatten.splitOn 38))) ↔
    Undivided lengths ∧ lengths.sum < SmartStr.limit := by
  constructor
  · intro all
    have undivided : Undivided lengths := by
      by_contra divided
      obtain ⟨reads, rfl, ⟨m, separators⟩, lost⟩ := exists_lost divided
      have same := all _ plain () (reads.flatten.splitOn 38).length reads rfl (Nat.le_succ _)
      have there : pairOf [97] ∈ (registered plain { array := () }
          (reads.flatten.splitOn 38)).taken := by
        rw [taken_plain]
        exact mem_append_right _ (mem_filter.mpr ⟨mem_map_of_mem lost, by decide⟩)
      rw [stdPostHandler_eq same, separators, registered_separators] at there
      exact not_mem_nil there
    refine ⟨undivided, ?_⟩
    by_contra above
    let reads := lengths.map fun n => replicate n (97 : UInt8)
    have same : reads.map length = lengths := by simp [reads, Function.comp_def]
    have clean : ∀ buf ∈ reads, 38 ∉ buf := by simp [reads]
    have returned := all _ plain () (reads.flatten.splitOn 38).length reads same (Nat.le_succ _)
    have ends := @readLoop_ends _ plain (reads.flatten.splitOn 38).length
      { str := .empty, arr := { array := () } } reads (by simpa [reads] using sizes)
      (same ▸ undivided) clean (by simp [SmartStr.empty]) (.inl rfl) (by simp [SmartStr.empty])
      (by decide) (by simpa [SmartStr.empty, same] using above)
    rw [stdPostHandler, ends] at returned
    cases returned
  · rintro ⟨undivided, short⟩ σ reg array max reads rfl few
    have body := delivered_eq_flatten undivided
    rw [stdPostHandler_returns _ _ _ (by rwa [body, length_flatten]), body, take_of_length_le few]

/-- Two reads, of which the second one does not fill the buffer: `a...a&b=c`. -/
theorem stdPostHandler_split_iff_twoReads :
    let reads := [replicate bufsiz 97, [38, 98, 61, 99]]
    stdPostHandler plain 1 reads () =
      some (registered plain { array := () } (reads.flatten.splitOn 38)) := by
  refine (@stdPostHandler_split_iff [bufsiz, 4] (by decide)).mpr
    ⟨by simp [Undivided, bufsiz], by decide⟩ _ _ _ _ _ (by simp) ?_
  have split := @splitOn_append_cons_self_of_not_mem UInt8 (replicate bufsiz 97) _ _ 38 (by simp)
    [98, 61, 99]
  rw [flatten_cons, flatten_cons, flatten_nil, append_nil, split]
  decide

/-- Two reads of one byte each: the second one is not made. -/
theorem stdPostHandler_loses :
    stdPostHandler plain 1000 [[97], [98]] () = some ⟨(), [([97], [])]⟩ ∧
      registered plain { array := () } ([[97], [98]].flatten.splitOn 38) =
        ⟨(), [([97, 98], [])]⟩ := by
  rw [stdPostHandler_returns _ _ _ (by decide)]
  decide

/-! ### Query strings, cookies and strings -/

/-- What `jonj_default_treat_data` is called for. -/
inductive Arg where
  | get
  | cookie
  | string
  deriving DecidableEq

/-- The loop over the tokens: here a variable is registered after it was counted. -/
def treatLoop (reg : Registration σ) (arg : Arg) (max : Nat) :
    Nat → Vars σ → List Bytes → Vars σ
  | _, vars, [] => vars
  | count, vars, var :: tokens =>
    let name := if arg = .cookie then var.dropWhile isspace else var
    if arg = .cookie ∧ (name = [] ∨ name.head? = some 61) then
      treatLoop reg arg max count vars tokens
    else if max < count + 1 then vars
    else treatLoop reg arg max (count + 1) (registered reg vars [name]) tokens

/-- The variables that `jonj_default_treat_data` registers from the bytes of a C string, which
`jonj_strtok_r` cuts at the separators. -/
def treatData (reg : Registration σ) (arg : Arg) (argSeparator : Bytes) (max : Nat) (data : Bytes)
    (array : σ) : Vars σ :=
  let separator := if arg = .cookie then [59] else argSeparator
  treatLoop reg arg max 0 { array } ((data.splitOnP (separator.contains ·)).filter (· ≠ []))

section limit

variable {reg : Registration σ} {max : Nat}

private theorem length_treatLoop (arg : Arg) (count : Nat) (vars : Vars σ) (tokens : List Bytes) :
    (treatLoop reg arg max count vars tokens).taken.length ≤ vars.taken.length + (max - count) := by
  induction tokens generalizing count vars with
  | nil => exact Nat.le_add_right _ _
  | cons var tokens ih =>
    rw [treatLoop]
    generalize (if arg = .cookie then var.dropWhile isspace else var) = name
    split
    next => exact ih count vars
    next =>
      split
      next => exact Nat.le_add_right _ _
      next room =>
        have one := @length_taken _ reg vars [name]
        have others := ih (count + 1) (registered reg vars [name])
        rw [length_singleton] at one
        omega

private theorem treatLoop_eq (count : Nat) (vars : Vars σ) (tokens : List Bytes) :
    treatLoop reg .get max count vars tokens = registered reg vars (tokens.take (max - count)) := by
  induction tokens generalizing count vars with
  | nil => rw [take_nil]; rfl
  | cons var tokens ih =>
    rw [treatLoop]
    simp only [reduceCtorEq, false_and, if_false, ih]
    split
    next full => rw [show max - count = 0 by omega]; rfl
    next room => rw [show max - count = max - (count + 1) + 1 by omega, take_succ_cons]; rfl

/-- Every one of the variables is taken. -/
def AllTaken (reg : Registration σ) (array : σ) (pieces : List Bytes) : Prop :=
  (registered reg { array } pieces).taken = pieces.map pairOf

theorem allTaken_iff {array : σ} {pieces : List Bytes} : AllTaken reg array pieces ↔
    (registered reg { array } pieces).taken.length = pieces.length := by
  constructor
  · intro all
    rw [all, length_map]
  · intro same
    exact (taken_sublist pieces).eq_of_length (by simpa using same)

theorem AllTaken.take {array : σ} {pieces : List Bytes} (all : AllTaken reg array pieces)
    (n : Nat) : AllTaken reg array (pieces.take n) := by
  rw [allTaken_iff] at *
  rw [← take_append_drop n pieces, registered_append] at all
  have front := @length_taken _ reg { array } (pieces.take n)
  have back := @length_taken _ reg (registered reg { array } (pieces.take n)) (pieces.drop n)
  simp only [length_append, length_nil] at *
  omega

/-- A variable of a list of them: name and value as they stand in the data. -/
structure Field where
  name : Bytes
  value : Bytes
  single : ∀ c ∈ name ++ 61 :: value, c ≠ 38 ∧ c ≠ 0

def Field.piece (field : Field) : Bytes := field.name ++ 61 :: field.value

/-- The data that has the variables of a list. -/
def joined (fields : List Field) : Bytes := [38].intercalate (fields.map Field.piece)

theorem splitOn_joined {fields : List Field} (some : fields ≠ []) :
    (joined fields).splitOn 38 = fields.map Field.piece :=
  splitOn_intercalate 38 (forall_mem_map.mpr fun field _ member => (field.single 38 member).1 rfl)
    (by simpa using some)

theorem registered_joined (vars : Vars σ) (fields : List Field) (n : Nat) :
    registered reg vars (((joined fields).splitOn 38).take n) =
      registered reg vars ((fields.map Field.piece).take n) := by
  by_cases none : fields = []
  · subst none
    exact (registered_empty n).trans (by rw [map_nil, take_nil, registered_nil])
  · rw [splitOn_joined none]

theorem treatData_joined (array : σ) (fields : List Field) :
    treatData reg .get [38] max (joined fields) array =
      registered reg { array } ((fields.map Field.piece).take max) := by
  have separator : (([38] : Bytes).contains ·) = (· == 38) := by
    funext c
    simp
    rfl
  rw [treatData, treatLoop_eq]
  simp only [reduceCtorEq, if_false, separator, ← splitOn_eq_splitOnP, Nat.sub_zero]
  by_cases none : fields = []
  · subst none
    rfl
  · rw [splitOn_joined none, filter_eq_self.mpr]
    simp [Field.piece]

end limit

/-- The parser for query strings, cookies and strings keeps to the limit. The handler for bodies
returns unless the body is too long for a `smart_str`; it then has registered one variable more than
the limit if and only if that many come first that are all taken. Both register the same ones of a
list that is taken as a whole if and only if it is not longer than the limit. -/
theorem limit_iff (reg : Registration σ) (max : Nat) (array : σ) :
    (∀ arg argSeparator data,
      (treatData reg arg argSeparator max data array).taken.length ≤ max) ∧
    (∀ reads, (delivered reads).length < SmartStr.limit →
      ∃ out, stdPostHandler reg max reads array = some out) ∧
    (∀ reads out, stdPostHandler reg max reads array = some out →
      (out.taken.length ≤ max ↔ ¬ (max < ((delivered reads).splitOn 38).length ∧
        AllTaken reg array (((delivered reads).splitOn 38).take (max + 1))))) ∧
    ∀ fields : List Field, (joined fields).length < SmartStr.limit →
      AllTaken reg array (fields.map Field.piece) → ∀ reads, delivered reads = joined fields →
      (stdPostHandler reg max reads array =
        some (treatData reg .get [38] max (joined fields) array) ↔ fields.length ≤ max) := by
  refine ⟨fun arg _ _ => ?_, fun reads short => ⟨_, stdPostHandler_returns reg max array short⟩,
    fun reads out returned => ?_, fun fields short all reads body => ?_⟩
  · exact (length_treatLoop arg 0 _ _).trans (by simp)
  · rw [stdPostHandler_eq returned, allTaken_iff]
    have atMost := @length_taken _ reg { array } (((delivered reads).splitOn 38).take (max + 1))
    simp only [length_take, length_nil] at atMost ⊢
    omega
  · rw [stdPostHandler_returns reg max array (by rwa [body]), body, registered_joined,
      treatData_joined, Option.some.injEq]
    have taken : ∀ n, (registered reg { array } ((fields.map Field.piece).take n)).taken.length =
        min n fields.length := fun n => by
      rw [allTaken_iff.mp (all.take n), length_take, length_map]
    constructor
    · intro same
      have length := congrArg (fun vars => vars.taken.length) same
      simp only [taken] at length
      omega
    · intro few
      rw [take_of_length_le (by simp; omega), take_of_length_le (by simpa using few)]

/-- With a limit of one, `a=1&b=2` has two variables in a body and one in a query string. -/
theorem limit_passed :
    stdPostHandler plain 1 [[97, 61, 49, 38, 98, 61, 50]] () =
        some ⟨(), [([97], [49]), ([98], [50])]⟩ ∧
      treatData plain .get [38] 1 [97, 61, 49, 38, 98, 61, 50] () = ⟨(), [([97], [49])]⟩ := by
  rw [stdPostHandler_returns _ _ _ (by decide)]
  decide

end Jonj.Variables
