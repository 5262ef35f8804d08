import Jonj.Serialize.Pointer

/-!
# `jonj_var_unserialize` stays in its buffer

The byte at `max` is a NUL, which no rule and no loop over digits goes past. A pointer does leave
the buffer after the number of an object record, but then there is no closing brace to be found.
Every value that is read moves the pointer, which bounds the recursion.
-/
namespace Jonj.Serialize.Pointer

open Decimal

section scanner

variable {buf : Buffer} {max p : Nat} (nul : buf max = 0) (rounds : Nat)
include nul

/-! ### Loops over the buffer -/

theorem lt_of_byte {c : UInt8} (inside : p ≤ max) (here : buf p = c) (notNul : c ≠ 0) :
    p < max := by
  refine lt_of_le_of_ne inside fun atMax => notNul ?_
  rw [← here, atMax, nul]

theorem lt_of_isDigit (inside : p ≤ max) (digit : isDigit (buf p) = true) : p < max := by
  refine lt_of_byte nul inside rfl fun zero => ?_
  rw [zero] at digit
  cases digit

theorem parseDigits_ends (result : Long) (inside : p ≤ max) (enough : max - p < rounds) :
    ∃ number q, parseDigits buf rounds result p = some (number, q) ∧ p ≤ q ∧ q ≤ max := by
  induction rounds generalizing result p with
  | zero => omega
  | succ rounds ih =>
    rw [parseDigits]
    split
    next digit =>
      have before := lt_of_isDigit nul inside digit
      obtain ⟨number, q, read, le, bound⟩ :=
        ih (result * 10 + BitVec.ofNat 64 (digitValue (buf p))) (p := p + 1) (by omega) (by omega)
      exact ⟨number, q, read, by omega, bound⟩
    next => exact ⟨result, p, rfl, le_rfl, inside⟩

theorem skipDigits_ends (inside : p ≤ max) (enough : max - p < rounds) :
    ∃ q, skipDigits buf rounds p = some q ∧ p ≤ q ∧ q ≤ max := by
  induction rounds generalizing p with
  | zero => omega
  | succ rounds ih =>
    rw [skipDigits]
    split
    next digit =>
      have before := lt_of_isDigit nul inside digit
      obtain ⟨q, skipped, le, bound⟩ := ih (p := p + 1) (by omega) (by omega)
      exact ⟨q, skipped, by omega, bound⟩
    next => exact ⟨p, rfl, le_rfl, inside⟩

private theorem strspn_ends (inside : p ≤ max) (enough : max - p < rounds) :
    ∃ n, strspn buf rounds p = some n := by
  induction rounds generalizing p with
  | zero => omega
  | succ rounds ih =>
    rw [strspn]
    split
    next member =>
      have before : p < max := by
        refine lt_of_byte nul inside rfl fun zero => ?_
        rw [zero] at member
        cases member
      obtain ⟨n, counted⟩ := ih (p := p + 1) (by omega) (by omega)
      exact ⟨n + 1, by rw [counted]; rfl⟩
    next => exact ⟨0, rfl⟩

theorem skip_le {c : Prop} [Decidable c] (inside : p ≤ max) (notNul : c → buf p ≠ 0) :
    p ≤ (if c then p + 1 else p) ∧ (if c then p + 1 else p) ≤ max := by
  split
  next holds =>
    have before := lt_of_byte nul inside rfl (notNul holds)
    omega
  next => exact ⟨le_rfl, inside⟩

section

variable (inside : p ≤ max)

include inside

theorem afterSign_le : p ≤ afterSign buf p ∧ afterSign buf p ≤ max := by
  refine skip_le nul inside ?_
  rintro (minus | plus)
  · exact minus ▸ by decide
  · exact plus ▸ by decide

theorem parseIv2_ends (enough : max - p < rounds) :
    ∃ number q, parseIv2 buf rounds p = some (number, q) ∧ p ≤ q ∧ q ≤ max := by
  obtain ⟨signLe, signBound⟩ := afterSign_le nul inside
  obtain ⟨number, q, read, le, bound⟩ := parseDigits_ends nul rounds 0 signBound (by omega)
  exact ⟨_, q, by rw [parseIv2, read]; rfl, by omega, bound⟩

private theorem parseIv_ends (enough : max - p < rounds) :
    ∃ number, parseIv buf rounds p = some number := by
  obtain ⟨number, q, read, _⟩ := parseIv2_ends nul rounds inside enough
  exact ⟨number, by rw [parseIv, read]; rfl⟩

theorem plus_le : p ≤ (if buf p = 43 then p + 1 else p) ∧ (if buf p = 43 then p + 1 else p) ≤ max :=
  skip_le nul inside fun plus => plus ▸ by decide

theorem parseUiv_ends (enough : max - p < rounds) : ∃ len, parseUiv buf rounds p = some len := by
  obtain ⟨signLe, signBound⟩ := plus_le nul inside
  obtain ⟨number, q, read, _⟩ := parseDigits_ends nul rounds 0 signBound (by omega)
  exact ⟨number.toNat, by rw [parseUiv, read]; rfl⟩

end

/-! ### The rules -/

theorem matchText_le {text : Bytes} {q : Nat} (noNul : 0 ∉ text) (inside : p ≤ max)
    (matched : matchText buf text p = some q) : q = p + text.length ∧ q ≤ max := by
  induction text generalizing p with
  | nil =>
    cases matched
    exact ⟨rfl, inside⟩
  | cons c text ih =>
    rw [matchText] at matched
    split at matched
    next here =>
      have notNul : c ≠ 0 := fun zero => noNul (zero ▸ List.mem_cons_self)
      have before := lt_of_byte nul inside here notNul
      obtain ⟨same, bound⟩ := ih (fun member => noNul (List.mem_cons_of_mem _ member))
        (by omega) matched
      exact ⟨by rw [List.length_cons]; omega, bound⟩
    next => cases matched

/-- A part of a rule ends, and where it matches it ends in the buffer. -/
def PartEnds (max p : Nat) (part : Option (Option Nat)) : Prop :=
  ∃ m, part = some m ∧ ∀ q, m = some q → p ≤ q ∧ q ≤ max

theorem number_ends {body : Nat} (body_le : p ≤ body ∧ body ≤ max) (enough : max - p < rounds) :
    PartEnds max p ((skipDigits buf rounds body).map fun after => if after = body then none
      else some after) := by
  obtain ⟨q, skipped, le, bound⟩ := skipDigits_ends nul rounds body_le.2 (by omega)
  refine ⟨_, by rw [skipped]; rfl, ?_⟩
  intro after found
  dsimp only at found
  split at found
  · cases found
  · cases found
    exact ⟨by omega, bound⟩

section

variable (inside : p ≤ max) (enough : max - p < rounds)

include inside enough

theorem skipIv_ends : PartEnds max p (skipIv buf rounds p) :=
  number_ends nul rounds (afterSign_le nul inside) enough

private theorem skipUiv_ends : PartEnds max p (skipUiv buf rounds p) :=
  number_ends nul rounds (plus_le nul inside) enough

private theorem skipExponent_ends : PartEnds max p (skipExponent buf rounds p) := by
  rw [skipExponent]
  split
  next letter =>
    have before : p < max := by
      rcases letter with small | capital
      · exact lt_of_byte nul inside small (by decide)
      · exact lt_of_byte nul inside capital (by decide)
    obtain ⟨signLe, signBound⟩ := afterSign_le nul (p := p + 1) (by omega)
    obtain ⟨m, part, bounds⟩ := skipIv_ends nul rounds signBound (by omega)
    refine ⟨m, part, fun q found => ?_⟩
    have both := bounds q found
    omega
  next =>
    refine ⟨some p, rfl, fun q found => ?_⟩
    cases found
    exact ⟨le_rfl, inside⟩

private theorem skipDouble_ends : PartEnds max p (skipDouble buf rounds p) := by
  obtain ⟨signLe, signBound⟩ := afterSign_le nul inside
  obtain ⟨whole, skipped, wholeLe, wholeBound⟩ := skipDigits_ends nul rounds signBound (by omega)
  have exponent : ∀ q, p ≤ q → q ≤ max → PartEnds max p (skipExponent buf rounds q) := by
    intro q le bound
    obtain ⟨m, part, bounds⟩ := skipExponent_ends nul rounds bound (by omega)
    refine ⟨m, part, fun after found => ?_⟩
    have both := bounds after found
    omega
  rw [skipDouble, skipped, Option.bind_some]
  split
  next point =>
    have before := lt_of_byte nul wholeBound point (by decide)
    obtain ⟨fraction, second, fractionLe, fractionBound⟩ :=
      skipDigits_ends nul rounds (p := whole + 1) (by omega) (by omega)
    rw [second, Option.bind_some]
    split
    · exact ⟨none, rfl, fun q found => by cases found⟩
    · exact exponent fraction (by omega) fractionBound
  next =>
    split
    · exact ⟨none, rfl, fun q found => by cases found⟩
    · exact exponent whole (by omega) wholeBound

end

private theorem field_ends {part : Nat → Option (Option Nat)} {tail : Bytes} (noNul : 0 ∉ tail)
    (inside : p ≤ max) (partEnds : p + 1 ≤ max → PartEnds max (p + 1) (part (p + 1))) :
    ∃ m, field buf part tail p = some m ∧ ∀ q, m = some q → p + 1 ≤ q ∧ q ≤ max := by
  rw [field]
  cases colon : matchText buf (ascii ":") p with
  | none => exact ⟨none, rfl, fun q found => by cases found⟩
  | some c =>
    obtain ⟨rfl, bound⟩ := matchText_le nul (by decide) inside colon
    obtain ⟨m, read, bounds⟩ := partEnds bound
    refine ⟨m.bind (matchText buf tail), ?_, ?_⟩
    · change Option.map _ (part (p + 1)) = _
      rw [read]
      rfl
    intro q found
    obtain ⟨middle, isMiddle, matched⟩ := Option.bind_eq_some_iff.mp found
    obtain ⟨le, middleBound⟩ := bounds middle isMiddle
    obtain ⟨same, qBound⟩ := matchText_le nul noNul middleBound matched
    omega

private theorem matchOne_le {texts : List Bytes} {q : Nat}
    (noNul : ∀ text ∈ texts, 0 ∉ text ∧ text ≠ []) (inside : p ≤ max)
    (matched : matchOne buf texts p = some q) : p + 1 ≤ q ∧ q ≤ max := by
  obtain ⟨text, member, found⟩ := List.exists_of_findSome?_eq_some matched
  obtain ⟨plain, nonempty⟩ := noNul text member
  obtain ⟨same, bound⟩ := matchText_le nul plain inside found
  have length := List.length_pos_of_ne_nil nonempty
  omega

/-- What a rule has matched: at least one byte, and two unless it is one of the last two rules. -/
def Matched (max start : Nat) (result : Rule × Nat) : Prop :=
  start < result.2 ∧ result.2 ≤ max ∧ (result.1 ≠ .any → result.1 ≠ .brace → start + 2 ≤ result.2)

omit nul in
private theorem matched_orAny {rule : Rule} {start : Nat} (before : start < max) {m : Option Nat}
    (bounds : ∀ q, m = some q → start + 1 + 1 ≤ q ∧ q ≤ max) :
    Matched max start (rule.orAny start m) := by
  cases m with
  | none => exact ⟨Nat.lt_succ_self _, before, fun other => absurd rfl other⟩
  | some q =>
    obtain ⟨le, bound⟩ := bounds q rfl
    exact ⟨by simp only [Rule.orAny]; omega, bound, fun _ _ => le⟩

omit nul in
private theorem matched_ite {start : Nat} {c : Prop} [Decidable c] {yes no : Option (Rule × Nat)}
    (first : ∃ result, yes = some result ∧ Matched max start result)
    (second : ∃ result, no = some result ∧ Matched max start result) :
    ∃ result, (if c then yes else no) = some result ∧ Matched max start result := by
  split
  · exact first
  · exact second

private theorem scan_ends (before : p < max) (enough : max - p ≤ rounds) :
    ∃ result, scan buf rounds p = some result ∧ Matched max p result := by
  have next : p + 1 ≤ max := before
  -- each rule with a number is a field
  have numbered : ∀ (rule : Rule) (part : Nat → Nat → Option (Option Nat)) (tail : Bytes),
      0 ∉ tail → (∀ q, p + 1 ≤ q → q ≤ max → PartEnds max q (part rounds q)) →
        ∃ result, (field buf (part rounds) tail (p + 1)).map (rule.orAny p) = some result ∧
          Matched max p result := by
    intro rule part tail noNul ends
    obtain ⟨m, read, bounds⟩ := field_ends nul noNul next fun inside => ends _ (by omega) inside
    exact ⟨rule.orAny p m, by rw [read]; rfl, matched_orAny before bounds⟩
  have iv := fun rule tail noNul => numbered rule (skipIv buf) tail noNul fun q _ inside =>
    skipIv_ends nul rounds inside (by omega)
  have uiv := fun rule tail noNul => numbered rule (skipUiv buf) tail noNul fun q _ inside =>
    skipUiv_ends nul rounds inside (by omega)
  have semicolon : ∀ q, matchText buf (ascii ";") (p + 1) = some q → p + 1 + 1 ≤ q ∧ q ≤ max := by
    intro q matched
    obtain ⟨same, bound⟩ := matchText_le nul (by decide) next matched
    exact ⟨by rw [same]; exact Nat.le_refl _, bound⟩
  refine matched_ite (iv .ref _ (by decide)) ?_
  refine matched_ite (iv .objectRef _ (by decide)) ?_
  refine matched_ite ⟨_, rfl, matched_orAny before semicolon⟩ ?_
  refine matched_ite ⟨_, rfl, matched_orAny before fun q matched =>
    matchOne_le nul (by decide) next matched⟩ ?_
  refine matched_ite (iv .long _ (by decide)) ?_
  refine matched_ite ?_ ?_
  · split
    next cursor matched =>
      obtain ⟨le, bound⟩ := matchOne_le nul (by decide) next matched
      exact ⟨_, rfl, by omega, bound, fun _ _ => le⟩
    next =>
      exact numbered .double (skipDouble buf) _ (by decide) fun q _ inside =>
        skipDouble_ends nul rounds inside (by omega)
  refine matched_ite (uiv .string _ (by decide)) ?_
  refine matched_ite (uiv .escaped _ (by decide)) ?_
  refine matched_ite (uiv .array _ (by decide)) ?_
  refine matched_ite (iv .oldObject _ (by decide)) ?_
  refine matched_ite (uiv .object _ (by decide)) ?_
  refine matched_ite ⟨_, rfl, Nat.lt_succ_self _, before, fun _ other => absurd rfl other⟩ ?_
  exact ⟨_, rfl, Nat.lt_succ_self _, before, fun other => absurd rfl other⟩

/-! ### Strings -/

omit nul in
theorem sizeUpTo_eq (inside : p ≤ max) : max - p ≤ max → sizeUpTo max p ≤ max - p := by
  intro _
  rw [sizeUpTo]
  have same : max + 2 ^ 64 - p = max - p + 2 ^ 64 := by omega
  rw [same, Nat.add_mod_right]
  exact Nat.mod_le _ _

omit nul in
private theorem hexValue_ne_nul {c v : UInt8} (hex : hexValue c = some v) : c ≠ 0 := by
  rintro rfl
  cases hex

/-- An escape is not cut by the end of the buffer. -/
theorem unserializeStr_le {last len : Nat} {str str' : Bytes} {q : Nat} (lastLe : last ≤ max)
    (inside : p ≤ max) (read : unserializeStr buf last len p str = some (str', q)) :
    p ≤ q ∧ q ≤ max := by
  induction len generalizing p str with
  | zero =>
    cases read
    exact ⟨le_rfl, inside⟩
  | succ len ih =>
    rw [unserializeStr] at read
    split at read
    · cases read
    next before =>
    split at read
    · obtain ⟨le, bound⟩ := ih (by omega) read
      exact ⟨by omega, bound⟩
    next =>
    cases high : hexValue (buf (p + 1)) with
    | none => simp [high] at read
    | some h =>
      have first := lt_of_byte nul (show p + 1 ≤ max by omega) rfl (hexValue_ne_nul high)
      cases low : hexValue (buf (p + 2)) with
      | none => simp [high, low] at read
      | some l =>
        have second := lt_of_byte nul (show p + 2 ≤ max by omega) rfl (hexValue_ne_nul low)
        simp only [high, low] at read
        obtain ⟨le, bound⟩ := ih (by omega) read
        exact ⟨by omega, bound⟩

end scanner

/-! ### The reader -/

variable {p : Nat}

section reader

variable {σ ρ τ γ : Type} (env : Env σ ρ τ γ) {buf : Buffer} {max rounds start : Nat}
  {read : σ → ρ → Bool → Nat → Option (Outcome σ)}

/-- On success the pointer has moved from `start` and is in the buffer. -/
def Advanced (max start : Nat) (result : Outcome σ) : Prop :=
  result.2.2 = true → start < result.2.1 ∧ result.2.1 ≤ max

/-- There are enough rounds, and the pointer is in the buffer on success. -/
def Ends (max start : Nat) (outcome : Option (Outcome σ)) : Prop :=
  ∃ result, outcome = some result ∧ Advanced max start result

theorem ends_failed (w : σ) (p : Nat) : Ends max start (some (w, p, false)) :=
  ⟨_, rfl, fun ok => by cases ok⟩

theorem advanced_failed (w : σ) (p : Nat) : Advanced max start (w, p, false) :=
  fun ok => by cases ok

theorem advanced_done {w : σ} (moved : start < p) (inside : p ≤ max) :
    Advanced max start (w, p, true) :=
  fun _ => ⟨moved, inside⟩

/-- Wherever the pointer is, a closing brace is only found in the buffer. -/
theorem finishNestedData_advanced (w : σ) (moved : start ≤ p) :
    Advanced max start (finishNestedData buf max w p) := by
  rw [finishNestedData]
  split
  · exact advanced_failed w p
  next inside => exact advanced_done (by omega) (by omega)

private theorem finishString_advanced (nul : buf max = 0) (w : σ) (rval : ρ) (str : Bytes)
    (moved : start < p) (inside : p ≤ max) :
    Advanced max start (finishString env buf w rval p str) := by
  rw [finishString]
  split
  · exact advanced_failed _ _
  next quote =>
  split
  · exact advanced_failed _ _
  next semicolon =>
  have first := lt_of_byte nul inside (not_not.mp quote) (by decide)
  have second := lt_of_byte nul (show p + 1 ≤ max by omega) (not_not.mp semicolon) (by decide)
  exact advanced_done (by omega) (by omega)

variable (each : ∀ w rval hash p, start < p → Ends max p (read w rval hash p))

include each in
/-- Nested data moves the pointer forwards. The numbers of elements need not be small: a turn that
cannot read anything ends the loop. -/
theorem processNestedData_ends (buf : Buffer) (ht : τ) (objprops : Bool) (elements : Nat) (w : σ)
    (moved : start < p) :
    ∃ result, processNestedData env buf read ht objprops elements w p = some result ∧
      (result.2.2 = true → p ≤ result.2.1) := by
  induction elements generalizing w p with
  | zero => exact ⟨_, rfl, fun _ => le_rfl⟩
  | succ elements ih =>
    rw [processNestedData]
    simp only
    obtain ⟨⟨w₁, p₁, ok₁⟩, first, advanced₁⟩ :=
      each (env.allocInitZval w).1 (env.allocInitZval w).2 false p moved
    rw [first, Option.bind_some]
    cases ok₁ with
    | false => exact ⟨_, rfl, fun ok => by cases ok⟩
    | true =>
      have moved₁ := (advanced₁ rfl).1
      simp only [not_true_eq_false, if_false]
      split
      · exact ⟨_, rfl, fun ok => by cases ok⟩
      obtain ⟨⟨w₂, p₂, ok₂⟩, second, advanced₂⟩ :=
        each (env.allocInitZval w₁).1 (env.allocInitZval w₁).2 true p₁
          (by simp only at moved₁; omega)
      rw [second, Option.bind_some]
      cases ok₂ with
      | false => exact ⟨_, rfl, fun ok => by cases ok⟩
      | true =>
        have moved₂ := (advanced₂ rfl).1
        simp only at moved₁ moved₂
        simp only [not_true_eq_false, if_false]
        split
        · exact ⟨_, rfl, fun ok => by cases ok⟩
        · obtain ⟨result, done, le⟩ :=
            ih (env.update w₂ ht objprops (env.allocInitZval w).2 (env.allocInitZval w₁).2)
              (p := p₂) (by omega)
          exact ⟨result, done, fun ok => by have := le ok; omega⟩

include each in
theorem nested_ends (ht : τ) (objprops : Bool) (elements : Nat) (w : σ) (moved : start < p)
    {finish : Outcome σ → Outcome σ}
    (finished : ∀ w p, start < p → Advanced max start (finish (w, p, true)))
    (failed : ∀ w p, (finish (w, p, false)).2.2 = false) :
    Ends max start ((processNestedData env buf read ht objprops elements w p).map finish) := by
  obtain ⟨⟨w', p', ok⟩, done, le⟩ := processNestedData_ends env each buf ht objprops
    elements w moved
  refine ⟨finish (w', p', ok), by rw [done]; rfl, ?_⟩
  cases ok with
  | false =>
    intro success
    rw [failed] at success
    cases success
  | true =>
    have moved' : p ≤ p' := le rfl
    exact finished w' p' (by omega)

include each in
theorem objectCommon2_ends (w : σ) (rval : ρ) (elements : Long) (moved : start < p) :
    Ends max start (objectCommon2 env buf max read w rval p elements) := by
  rw [objectCommon2]
  split
  · exact ends_failed _ _
  refine nested_ends env each _ _ _ _ moved ?_ fun _ _ => rfl
  intro w' p' moved'
  simp only [not_true_eq_false, if_false]
  split
  · exact advanced_failed _ _
  · exact finishNestedData_advanced _ moved'.le

section

variable (nul : buf max = 0) (w : σ) (rval : ρ) (ce : γ) (enough : max - p ≤ rounds)
    (after : p + 2 ≤ max)

include nul enough after

/-- The two bytes behind the number are not looked at. -/
theorem objectCommon1_ends :
    ∃ w' q elements, objectCommon1 env buf max rounds w rval p ce = some (w', q, elements) ∧
      (0 ≤ elements.toInt → p < q) := by
  rw [objectCommon1]
  split
  · exact ⟨_, p, -1, rfl, fun nonneg => absurd nonneg (by decide)⟩
  obtain ⟨number, q, read, le, _⟩ := parseIv2_ends nul rounds after (by omega)
  rw [read]
  split
  · exact ⟨_, _, -1, rfl, fun nonneg => absurd nonneg (by decide)⟩
  · exact ⟨_, _, _, rfl, fun _ => by omega⟩

private theorem objectCustom_ends (moved : start < p) :
    Ends max start (objectCustom env buf max rounds w rval p ce) := by
  obtain ⟨datalen, q, read, le, _⟩ := parseIv2_ends nul rounds after (by omega)
  rw [objectCustom, read]
  refine ⟨_, rfl, ?_⟩
  simp only
  split
  · exact advanced_failed _ _
  split
  next => exact finishNestedData_advanced _ (by omega)
  next unserialize _ =>
  split
  · exact finishNestedData_advanced _ (by omega)
  · exact advanced_failed _ _

end

include each in
private theorem readObject_ends (nul : buf max = 0) (w : σ) (rval : ρ) {cursor : Nat}
    (enough : max - start ≤ rounds) (matched : start + 2 ≤ cursor) (inside : cursor ≤ max) :
    Ends max start (readObject env buf max read rounds w rval start cursor) := by
  obtain ⟨len, number⟩ := parseUiv_ends nul rounds (p := start + 2) (by omega) (by omega)
  rw [readObject, number, Option.bind_some]
  split
  · exact ends_failed _ _
  next fits =>
  have small := sizeUpTo_eq inside (Nat.sub_le _ _)
  have nameEnd : cursor + len ≤ max := by omega
  split
  · exact ends_failed _ _
  next quote =>
  split
  · exact ends_failed _ _
  next colon =>
  have first := lt_of_byte nul nameEnd (not_not.mp quote) (by decide)
  have second := lt_of_byte nul (show cursor + len + 1 ≤ max by omega)
    (not_not.mp colon) (by decide)
  obtain ⟨len3, spanned⟩ := strspn_ends nul rounds inside (by omega)
  rw [spanned, Option.bind_some]
  split
  · exact ends_failed _ _
  simp only
  split
  · exact ends_failed _ _
  next w' ce incomplete _ =>
  split
  · obtain ⟨⟨w'', p, ok⟩, done, advanced⟩ := objectCustom_ends env nul w' rval ce
      (show max - (cursor + len) ≤ rounds by omega) (by omega) (show start < cursor + len by omega)
    rw [done]
    exact ⟨_, rfl, advanced⟩
  obtain ⟨w'', p, elements, done, le⟩ := objectCommon1_ends env nul w' rval ce
    (show max - (cursor + len) ≤ rounds by omega) (by omega)
  rw [done, Option.bind_some]
  simp only
  split
  · exact ends_failed _ _
  · exact objectCommon2_ends env each _ rval elements (by omega)

include each in
private theorem act_ends (nul : buf max = 0) (w : σ) (rval : ρ) (hash : Bool) {rule : Rule}
    {cursor : Nat} (enough : max - start ≤ rounds) (matched : Matched max start (rule, cursor)) :
    Ends max start (act env buf max read rounds w rval hash start cursor rule) := by
  obtain ⟨moved, inside, two⟩ := matched
  simp only at moved inside two
  have number (other : rule ≠ .any) (other' : rule ≠ .brace) : ∃ v,
    parseIv buf rounds (start + 2) = some v :=
    parseIv_ends nul rounds ((two other other').trans inside) (by omega)
  have length (other : rule ≠ .any) (other' : rule ≠ .brace) : ∃ len,
    parseUiv buf rounds (start + 2) = some len :=
    parseUiv_ends nul rounds ((two other other').trans inside) (by omega)
  -- one case for each rule; the pointer matters only where the rule succeeds
  cases rule with
  | ref =>
    obtain ⟨v, parsed⟩ := number (by decide) (by decide)
    rw [act, parsed]
    split
    · exact ends_failed _ _
    refine ⟨_, rfl, ?_⟩
    simp only
    split
    · exact advanced_failed _ _
    · split
      · exact advanced_failed _ _
      · exact advanced_done moved inside
  | objectRef =>
    obtain ⟨v, parsed⟩ := number (by decide) (by decide)
    rw [act, parsed]
    split
    · exact ends_failed _ _
    refine ⟨_, rfl, ?_⟩
    simp only
    split
    · exact advanced_failed _ _
    split
    · exact advanced_failed _ _
    · split
      · exact advanced_failed _ _
      · exact advanced_done moved inside
  | null | special | double => exact ⟨_, rfl, advanced_done moved inside⟩
  | bool | long =>
    obtain ⟨v, parsed⟩ := number (by decide) (by decide)
    rw [act, parsed]
    exact ⟨_, rfl, advanced_done moved inside⟩
  | string =>
    obtain ⟨len, parsed⟩ := length (by decide) (by decide)
    rw [act, parsed]
    refine ⟨_, rfl, ?_⟩
    simp only
    split
    · exact advanced_failed _ _
    · have small := sizeUpTo_eq inside (Nat.sub_le _ _)
      exact finishString_advanced env nul w rval _ (by omega) (by omega)
  | escaped =>
    obtain ⟨len, parsed⟩ := length (by decide) (by decide)
    rw [act, parsed]
    refine ⟨_, rfl, ?_⟩
    simp only
    split
    · exact advanced_failed _ _
    split
    · exact advanced_failed _ _
    next str q read' =>
    have small := sizeUpTo_eq inside (Nat.sub_le _ _)
    obtain ⟨le, bound⟩ := unserializeStr_le nul (by omega) inside read'
    exact finishString_advanced env nul w rval _ (by omega) bound
  | array =>
    obtain ⟨v, parsed⟩ := number (by decide) (by decide)
    rw [act, parsed, Option.bind_some]
    split
    · exact ends_failed _ _
    split
    · exact ends_failed _ _
    · refine nested_ends env each _ _ _ _ moved ?_ fun _ _ => rfl
      intro w' p' moved'
      exact finishNestedData_advanced _ moved'.le
  | oldObject =>
    have le := two (by decide) (by decide)
    rw [act]
    split
    · exact ends_failed _ _
    obtain ⟨w', p, elements, done, after⟩ :=
      objectCommon1_ends env nul w rval env.standardClass enough
      (by omega)
    rw [done, Option.bind_some]
    simp only
    split
    · exact ends_failed _ _
    next nonneg => exact objectCommon2_ends env each _ rval elements (after (by omega))
  | object =>
    rw [act]
    split
    · exact ends_failed _ _
    · exact readObject_ends env each nul w rval enough (two (by decide) (by decide)) inside
  | brace | any => exact ends_failed _ _

/-- The reader comes back, and when it succeeds its pointer has moved and is not beyond `max`. -/
theorem jonjVarUnserialize_bounded (env : Env σ ρ τ γ) (buf : Buffer) (max : Nat)
    (nul : buf max = 0) (w : σ) (rval : ρ) (hash : Bool) (p rounds : Nat)
    (enough : max - p + 2 ≤ rounds) :
    ∃ w' q ok, jonjVarUnserialize env buf max rounds w rval hash p = some (w', q, ok) ∧
      (ok = true → p + 1 ≤ q ∧ q ≤ max) := by
  have ends : Ends max p (jonjVarUnserialize env buf max rounds w rval hash p) := by
    induction rounds generalizing w rval hash p with
    | zero => omega
    | succ rounds ih =>
      rw [jonjVarUnserialize]
      split
      · exact ends_failed _ _
      next before =>
      obtain ⟨⟨rule, cursor⟩, scanned, matched⟩ :=
        scan_ends nul rounds (show p < max by omega) (by omega)
      rw [scanned]
      refine act_ends env ?_ nul _ rval hash (by omega) matched
      -- a record inside this one starts behind it
      intro w' rval' hash' p' later
      exact ih w' rval' hash' p' (by omega)
  obtain ⟨⟨w', q, ok⟩, done, advanced⟩ := ends
  exact ⟨w', q, ok, done, advanced⟩

end reader

def plainEnv : Env Unit Unit Unit Unit where
  allocInitZval _ := ((), ())
  varPush _ _ := ()
  varAccess _ _ := none
  sameZval _ _ _ := false
  refer _ _ _ _ := ()
  assign _ _ _ := ()
  isKey _ _ := true
  isObject _ _ := true
  arrayInit _ _ _ := ()
  arrval _ _ := ()
  objprop _ _ := ()
  update _ _ _ _ _ := ()
  pushDtor _ _ := ()
  wipe _ _ := ()
  delayWakeup _ _ := ()
  objectInit _ _ _ := ()
  storeClassName _ _ _ := ()
  standardClass := ()
  incompleteClass := ()
  serializes _ := false
  unserializer _ := none
  lookupClass _ _ := ((), none)
  exception _ := false
  hasCallback _ := false
  callCallback _ _ := ((), false)
  warn _ _ := ()

/-- The text, and a NUL behind it. -/
def bufferOf (text : Bytes) : Buffer := fun p => text.getD p 0

/-- The number of an object record takes the pointer beyond the end of the buffer, and the record is
refused. -/
theorem jonjVarUnserialize_bounded_object : bufferOf (ascii "O:1:\"A\":0") 9 = 0 ∧
      jonjVarUnserialize plainEnv (bufferOf (ascii "O:1:\"A\":0")) 9 11 () () true 0 =
        some ((), 11, false) ∧
      ∃ w' q ok, jonjVarUnserialize plainEnv (bufferOf (ascii "O:1:\"A\":0")) 9 11 () () true 0 =
        some (w', q, ok) ∧
        (ok = true → 0 + 1 ≤ q ∧ q ≤ 9) :=
  ⟨by decide, by decide,
    jonjVarUnserialize_bounded plainEnv _ 9 (by decide) () () true 0 11 (by decide)⟩

end Jonj.Serialize.Pointer
