import Mathlib.Data.List.TakeWhile
import Jonj.Variables.Post

/-!
# Forms

`http_build_query` writes an array of strings as a form, and the handlers for bodies and query
strings read it.
-/
namespace Jonj.Variables

open List

/-- The bytes that are not written as they are; `raw` is for `jonj_raw_url_encode`. -/
def escapes (raw : Bool) (c : UInt8) : Bool :=
  (c < 48 && c != 45 && c != 46) || (c < 65 && 57 < c) || (90 < c && c < 97 && c != 95) ||
    (122 < c && !(raw && c == 126))

def encodeByte (raw : Bool) (c : UInt8) : Bytes :=
  if c = 32 ∧ raw = false then [43]
  else if escapes raw c then [37, hexDigit (c >>> 4), hexDigit (c &&& 15)]
  else [c]

/-- `jonj_url_encode` and `jonj_raw_url_encode` -/
def urlEncode (raw : Bool) (s : Bytes) : Bytes := s.flatMap (encodeByte raw)

/-- What is appended for a string under a string key; there is no prefix and no suffix. -/
def parts (raw : Bool) (formstr : SmartStr) (pair : Bytes × Bytes) : List Bytes :=
  (if formstr.bytes = [] then [] else [[38]]) ++
    [[], urlEncode raw pair.1, [], [61], urlEncode raw pair.2]

/-- The loop of `jonj_url_encode_hash_ex` over strings under string keys, with `&` for `arg_sep`. -/
def urlEncodeHash (raw : Bool) (formstr : SmartStr) (pairs : List (Bytes × Bytes)) :
    Option SmartStr :=
  pairs.foldlM (fun formstr pair => formstr.appendAll (parts raw formstr pair)) formstr

/-! ### The round trip of a string -/

private theorem hexValue_hexDigit (c : UInt8) : hexValue (hexDigit (c >>> 4)) = some (c >>> 4) ∧
    hexValue (hexDigit (c &&& 15)) = some (c &&& 15) ∧ (c >>> 4) * 16 + (c &&& 15) = c := by
  revert c
  decide +kernel

theorem plain_of_not_escapes (raw : Bool) (c : UInt8) :
    escapes raw c = true ∨ c ≠ 43 ∧ c ≠ 37 := by
  revert c
  cases raw <;> decide +kernel

/-- No byte of a form has a meaning of its own. -/
theorem encodeByte_safe (raw : Bool) (c : UInt8) :
    38 ∉ encodeByte raw c ∧ 61 ∉ encodeByte raw c ∧ 0 ∉ encodeByte raw c := by
  revert c
  cases raw <;> decide +kernel

private theorem urlDecode_plain {c : UInt8} (plain : c ≠ 43 ∧ c ≠ 37) (n : Nat) (rest : Bytes) :
    urlDecode (n + 1) (c :: rest) = c :: urlDecode n rest := by
  rcases rest with _ | ⟨x, _ | ⟨y, rest⟩⟩
  · simp [urlDecode, plain]
  · simp [urlDecode, plain]
  · cases high : hexValue x <;> cases low : hexValue y <;> simp [urlDecode, plain, high, low]

private theorem urlDecode_encodeByte (raw : Bool) (c : UInt8) {n : Nat} (rest : Bytes)
    (short : (encodeByte raw c).length + n < 2 ^ 31) :
    urlDecode ((encodeByte raw c).length + n) (encodeByte raw c ++ rest) =
      c :: urlDecode n rest := by
  rw [encodeByte] at short ⊢
  rw [Nat.add_comm] at short ⊢
  split
  next space => rcases rest with _ | ⟨x, _ | ⟨y, rest⟩⟩ <;> simp [urlDecode, space.1]
  next =>
  split
  next escaped =>
    obtain ⟨high, low, whole⟩ := hexValue_hexDigit c
    have inside : n + 2 < 2147483648 := by simp_all; omega
    simp [urlDecode, high, low, whole, inside]
  next plain => exact urlDecode_plain ((plain_of_not_escapes raw c).resolve_left plain) n rest

private theorem decode_urlEncode (raw : Bool) {s : Bytes}
    (short : (urlEncode raw s).length < 2 ^ 31) :
    decode (urlEncode raw s) = s := by
  rw [decode, Nat.mod_eq_of_lt (short.trans (by decide))]
  induction s with
  | nil => rfl
  | cons c s ih =>
    have encoded : urlEncode raw (c :: s) = encodeByte raw c ++ urlEncode raw s := flatMap_cons
    rw [encoded, length_append] at short ⊢
    rw [urlDecode_encodeByte raw c _ short, ih (by omega)]

/-! ### The round trip of a form -/

theorem urlEncode_safe (raw : Bool) (s : Bytes) :
    ∀ c ∈ urlEncode raw s, c ≠ 38 ∧ c ≠ 61 ∧ c ≠ 0 := by
  intro c member
  obtain ⟨d, -, inside⟩ := mem_flatMap.mp member
  obtain ⟨separator, equals, nul⟩ := encodeByte_safe raw d
  exact ⟨ne_of_mem_of_not_mem inside separator, ne_of_mem_of_not_mem inside equals,
    ne_of_mem_of_not_mem inside nul⟩

/-- A string under a key that is a C string. -/
structure FormVar where
  pair : Bytes × Bytes
  terminated : 0 ∉ pair.1

/-- The variable as it stands in a form. -/
def FormVar.field (raw : Bool) (var : FormVar) : Field where
  name := urlEncode raw var.pair.1
  value := urlEncode raw var.pair.2
  single := by
    have safe (s : Bytes) : ∀ c ∈ urlEncode raw s, c ≠ 38 ∧ c ≠ 0 := fun c member =>
      ⟨(urlEncode_safe raw s c member).1, (urlEncode_safe raw s c member).2.2⟩
    exact forall_mem_append.mpr ⟨safe _, forall_mem_cons.mpr ⟨by decide, safe _⟩⟩

/-- The form of an array. -/
def form (raw : Bool) (vars : List FormVar) : Bytes := joined (vars.map (FormVar.field raw))

variable {raw : Bool}

theorem form_cons (var : FormVar) {vars : List FormVar} (some : vars ≠ []) :
    form raw (var :: vars) = (var.field raw).piece ++ 38 :: form raw vars := by
  obtain ⟨next, vars, rfl⟩ := exists_cons_of_ne_nil some
  simp [form, joined, intercalate]

theorem length_piece_le {vars : List FormVar} {var : FormVar} (member : var ∈ vars) :
    (var.field raw).piece.length ≤ (form raw vars).length := by
  induction vars with
  | nil => cases member
  | cons first vars ih =>
    by_cases none : vars = []
    · subst none
      obtain rfl := mem_singleton.mp member
      simp [form, joined, intercalate]
    · rw [form_cons first none, length_append, length_cons]
      rcases mem_cons.mp member with rfl | other
      · omega
      · have inside := ih other
        omega

private theorem pairOf_piece {var : FormVar} (short : (var.field raw).piece.length < 2 ^ 31) :
    pairOf (var.field raw).piece = var.pair := by
  have name : ∀ c ∈ urlEncode raw var.pair.1, (c != 61) = true :=
    fun c member => bne_iff_ne.mpr (urlEncode_safe raw var.pair.1 c member).2.1
  have terminated : var.pair.1.takeWhile (· != 0) = var.pair.1 :=
    takeWhile_eq_self_iff.mpr fun c member =>
      bne_iff_ne.mpr (ne_of_mem_of_not_mem member var.terminated)
  rw [Field.piece, FormVar.field] at short ⊢
  dsimp only at short ⊢
  rw [length_append, length_cons] at short
  rw [pairOf, takeWhile_append_of_pos name, dropWhile_append_of_pos name]
  simp [@decode_urlEncode raw var.pair.1 (by omega),
    @decode_urlEncode raw var.pair.2 (by omega), terminated]

private theorem registered_fields {σ : Type} (reg : Registration σ) (array : σ)
    {vars : List FormVar} (short : (form raw vars).length < SmartStr.limit) :
    registered reg { array } ((vars.map (FormVar.field raw)).map Field.piece) =
      (vars.map FormVar.pair).foldl reg.add { array } := by
  have pairs : ((vars.map (FormVar.field raw)).map Field.piece).map pairOf =
      vars.map FormVar.pair := by
    simp only [map_map]
    refine map_congr_left fun var member => pairOf_piece ?_
    exact (length_piece_le member).trans_lt (short.trans (by decide))
  rw [registered, pairs]

/-- A variable or more of them behind what the string has. -/
def separated (front back : Bytes) : Bytes := if front = [] then back else front ++ 38 :: back

private theorem separated_separated (front : Bytes) {piece : Bytes} (some : piece ≠ [])
    (back : Bytes) :
    separated (separated front piece) back = separated front (piece ++ 38 :: back) := by
  by_cases none : front = [] <;> simp [separated, none, some]

theorem length_separated_le (front back : Bytes) :
    (separated front back).length ≤ front.length + 1 + back.length := by
  rw [separated]
  split
  · omega
  · rw [length_append, length_cons]
    omega

private theorem appendAll_parts {formstr : SmartStr} {var : FormVar}
    (short : formstr.bytes.length + 1 + (var.field raw).piece.length < SmartStr.limit) :
    ∃ grown, formstr.appendAll (parts raw formstr var.pair) = some grown ∧
      grown.bytes = separated formstr.bytes (var.field raw).piece := by
  have flat : formstr.bytes ++ (parts raw formstr var.pair).flatten =
      separated formstr.bytes (var.field raw).piece := by
    by_cases none : formstr.bytes = [] <;>
      simp [parts, separated, none, FormVar.field, Field.piece]
  rw [← flat]
  refine SmartStr.appendAll_of_short ?_
  rw [← length_append, flat]
  exact (length_separated_le _ _).trans_lt short

/-- Below the limit of a `smart_str`, the loop appends the form. -/
theorem urlEncodeHash_eq {formstr : SmartStr} {vars : List FormVar}
    (short : formstr.bytes.length + 1 + (form raw vars).length < SmartStr.limit) :
    ∃ whole, urlEncodeHash raw formstr (vars.map FormVar.pair) = some whole ∧
      whole.bytes = if vars = [] then formstr.bytes
        else separated formstr.bytes (form raw vars) := by
  induction vars generalizing formstr with
  | nil => exact ⟨formstr, rfl, rfl⟩
  | cons var vars ih =>
    have first := @length_piece_le raw (var :: vars) var mem_cons_self
    obtain ⟨grown, appended, bytes⟩ := @appendAll_parts raw formstr var (by omega)
    have step : urlEncodeHash raw formstr ((var :: vars).map FormVar.pair) =
        urlEncodeHash raw grown (vars.map FormVar.pair) := by
      rw [urlEncodeHash, map_cons, foldlM_cons, appended]
      rfl
    rw [step, if_neg (cons_ne_nil _ _)]
    by_cases none : vars = []
    · subst none
      exact ⟨grown, rfl, by simp [bytes, form, joined, intercalate]⟩
    · rw [form_cons var none, length_append, length_cons] at short
      have longer := length_separated_le formstr.bytes (var.field raw).piece
      obtain ⟨whole, encoded, text⟩ := @ih grown (by rw [bytes]; omega)
      refine ⟨whole, encoded, ?_⟩
      rw [text, if_neg none, bytes, separated_separated _ (by simp [Field.piece]),
        form_cons var none]

theorem urlEncodeHash_empty {vars : List FormVar}
    (short : 1 + (form raw vars).length < SmartStr.limit) :
    ∃ whole, urlEncodeHash raw .empty (vars.map FormVar.pair) = some whole ∧
      whole.bytes = form raw vars := by
  obtain ⟨whole, encoded, text⟩ := @urlEncodeHash_eq raw .empty vars (by simpa [SmartStr.empty])
  refine ⟨whole, encoded, text.trans ?_⟩
  cases vars <;> rfl

/-- An array of strings can be written as a form whose length stays below the limit of a
`smart_str`. Read back from the body of a request, if there is no short read before its end, and
from a query string, it gives the variables of the array, one after the other. -/
theorem form_registered {σ : Type} (reg : Registration σ) (array : σ) {vars : List FormVar}
    (short : 1 + (form raw vars).length < SmartStr.limit) {max : Nat} (few : vars.length ≤ max) :
    ∃ formstr, urlEncodeHash raw .empty (vars.map FormVar.pair) = some formstr ∧
      treatData reg .get [38] max formstr.bytes array =
        (vars.map FormVar.pair).foldl reg.add { array } ∧
      ∀ reads : List Bytes, reads.flatten = formstr.bytes → Undivided (reads.map length) →
        stdPostHandler reg max reads array =
          some ((vars.map FormVar.pair).foldl reg.add { array }) := by
  obtain ⟨formstr, encoded, text⟩ := urlEncodeHash_empty short
  have fields := registered_fields reg array (by omega : (form raw vars).length < SmartStr.limit)
  refine ⟨formstr, encoded, ?_, fun reads body undivided => ?_⟩
  · rw [text, form, treatData_joined, take_of_length_le (by simpa using few), fields]
  · have whole : delivered reads = form raw vars := by
      rw [delivered_eq_flatten undivided, body, text]
    rw [stdPostHandler_returns reg max array (by rw [whole]; omega), whole, form, registered_joined,
      take_of_length_le (by simp; omega), fields]

/-- `a=%26&b=+`, the form of an ampersand under `"a"` and a blank under `"b"`. -/
theorem form_registered_ampersand :
    stdPostHandler plain 2 [[97, 61, 37, 50, 54, 38, 98, 61, 43]] () =
      some ⟨(), [([97], [38]), ([98], [32])]⟩ := by
  obtain ⟨formstr, encoded, -, body⟩ := @form_registered false Unit plain ()
    [⟨([97], [38]), by decide⟩, ⟨([98], [32]), by decide⟩] (by decide) 2 (by decide)
  obtain ⟨whole, same, text⟩ := @urlEncodeHash_empty false
    [⟨([97], [38]), by decide⟩, ⟨([98], [32]), by decide⟩] (by decide)
  obtain rfl := Option.some.inj (encoded.symm.trans same)
  refine (body _ ?_ (by simp [Undivided, bufsiz])).trans (by decide)
  rw [text]
  decide

end Jonj.Variables
