import Jonj.Lib.CChar

/-!
# The parameters of a header

`jonj_ap_getword` looks for the end of a word and `jonj_ap_getword_conf` takes the quotes off a
value. A string is the bytes in front of its NUL.
-/
namespace Jonj.Rfc1867

open List

/-- Where `pos` is: outside of quotes, between two of them, or at the quote that a backslash is
for. -/
inductive Mode
  | outside
  | inside (quote : UInt8)
  | escaped (quote : UInt8)
  deriving DecidableEq

/-- What the byte at `pos` makes of it, where it does not stop. -/
def Mode.next (c : UInt8) (rest : Bytes) : Mode → Mode
  | outside => if c = 34 ∨ c = 39 then inside c else outside
  | inside quote =>
    if c = quote then outside else if c = 92 ∧ rest.head? = some quote then escaped quote
      else inside quote
  | escaped quote => inside quote

/-- The loops of `jonj_ap_getword`: the bytes in front of `pos`, and those from there on. -/
def scan (stop : UInt8) : Mode → Bytes → Bytes × Bytes
  | _, [] => ([], [])
  | mode, c :: rest =>
    if mode = .outside ∧ c = stop then ([], c :: rest)
    else (c :: (scan stop (mode.next c rest) rest).1, (scan stop (mode.next c rest) rest).2)

/-- `jonj_ap_getword`: the word, and the rest of the line. -/
def apGetword (stop : UInt8) (line : Bytes) : Bytes × Bytes :=
  ((scan stop .outside line).1, (scan stop .outside line).2.dropWhile (· = stop))

/-- `substring_conf`; the quote is 0 if there is none. -/
def substringConf (quote : UInt8) : Bytes → Bytes
  | [] => []
  | [c] => if c = quote then [] else [c]
  | c :: d :: rest =>
    if c = quote then []
    else if c = 92 ∧ (d = 92 ∨ quote ≠ 0 ∧ d = quote) then d :: substringConf quote rest
    else c :: substringConf quote (d :: rest)

def apGetwordConf (str : Bytes) : Bytes :=
  match str.dropWhile isspace with
  | [] => []
  | c :: rest =>
    if c = 34 ∨ c = 39 then substringConf c rest
      else substringConf 0 ((c :: rest).takeWhile (! isspace ·))

/-- The names and values of a line, word by word; every turn uses up some of it. -/
def parameters : Nat → Bytes → List (Bytes × Bytes)
  | 0, _ => []
  | turns + 1, line =>
    if line = [] then []
    else
      let (word, line) := apGetword 59 line
      ((apGetword 61 word).1, apGetwordConf (apGetword 61 word).2) :: parameters turns line

/-! ### Parameters -/

/-- A parameter, whose name needs no quotes. -/
structure Param where
  name : Bytes
  value : Bytes
  plain : ∀ c ∈ name, c ≠ 59 ∧ c ≠ 61 ∧ c ≠ 34 ∧ c ≠ 39

/-- A backslash before every backslash and double quote. -/
def escape (value : Bytes) : Bytes :=
  value.flatMap fun c => if c = 92 ∨ c = 34 then [92, c] else [c]

def Param.text (p : Param) : Bytes := p.name ++ 61 :: 34 :: (escape p.value ++ [34])

/-- The parameters, joined by semicolons. -/
def header (ps : List Param) : Bytes := [59].intercalate (ps.map Param.text)

def split (line : Bytes) : List (Bytes × Bytes) := parameters line.length line

def Param.pair (p : Param) : Bytes × Bytes := (p.name, p.value)

/-! ### What a scan passes over -/

/-- The result of a scan that goes on behind some bytes. -/
def behind (bytes : Bytes) (result : Bytes × Bytes) : Bytes × Bytes := (bytes ++ result.1, result.2)

theorem behind_behind (first second : Bytes) (result : Bytes × Bytes) :
    behind first (behind second result) = behind (first ++ second) result := by
  rw [behind, behind, behind, append_assoc]

variable {stop : UInt8}

theorem scan_next {mode : Mode} {c : UInt8} (goesOn : ¬ (mode = .outside ∧ c = stop))
    (rest : Bytes) :
    scan stop mode (c :: rest) = behind [c] (scan stop (mode.next c rest) rest) := by
  rw [scan, if_neg goesOn]
  rfl

/-- Outside of quotes the scan goes on to the next quote or to the end of the word. -/
theorem scan_plain {bytes : Bytes} (plain : ∀ c ∈ bytes, c ≠ stop ∧ c ≠ 34 ∧ c ≠ 39)
    (rest : Bytes) :
    scan stop .outside (bytes ++ rest) = behind bytes (scan stop .outside rest) := by
  induction bytes with
  | nil => rfl
  | cons c bytes ih =>
    obtain ⟨⟨notStop, noQuote, noApostrophe⟩, later⟩ := forall_mem_cons.mp plain
    rw [cons_append, scan_next (by simp [notStop]), Mode.next,
      if_neg (by simp [noQuote, noApostrophe]), ih later, behind_behind]
    rfl

theorem scan_inside {c : UInt8} {rest : Bytes} (other : c ≠ 34)
    (single : ¬ (c = 92 ∧ rest.head? = some 34)) :
    scan stop (.inside 34) (c :: rest) = behind [c] (scan stop (.inside 34) rest) := by
  rw [scan_next (by simp), Mode.next, if_neg other, if_neg single]

private theorem scan_escaped (rest : Bytes) :
    scan stop (.inside 34) (92 :: 34 :: rest) = behind [92, 34] (scan stop (.inside 34) rest) := by
  rfl

theorem escape_cons (c : UInt8) (value : Bytes) :
    escape (c :: value) = (if c = 92 ∨ c = 34 then [92, c] else [c]) ++ escape value := flatMap_cons

private theorem getLast?_cons_of_ne {c : UInt8} (other : c ≠ 92) (value : Bytes) :
    (c :: value).getLast? = some 92 ↔ value.getLast? = some 92 := by
  cases value <;> simp [other]

/-- The scan takes the quote behind a value that ends with a backslash for an escaped one. -/
theorem scan_escape (value rest : Bytes) : scan stop (.inside 34) (escape value ++ 34 :: rest) =
    behind (escape value ++ [34]) (scan stop (if value.getLast? = some 92 then .inside 34
      else .outside) rest) := by
  induction value with
  | nil => exact scan_next (by simp) rest
  | cons c value ih =>
    rw [escape_cons, append_assoc, append_assoc]
    by_cases backslash : c = 92
    · subst backslash
      rw [if_pos (.inl rfl), cons_append, cons_append, nil_append,
        scan_inside (by decide) (by simp)]
      cases value with
      | nil =>
        rfl
      | cons d value =>
        -- the second backslash is not in front of a quote
        have head : (escape (d :: value) ++ 34 :: rest).head? ≠ some 34 := by
          rw [escape_cons]
          split
          · simp
          next other => simpa using fun same => other (.inr same)
        rw [scan_inside (by decide) fun both => head both.2, ih, behind_behind, behind_behind,
          getLast?_cons_cons]
        rfl
    have last := getLast?_cons_of_ne backslash value
    by_cases quote : c = 34
    · subst quote
      rw [if_pos (.inr rfl), cons_append, cons_append, nil_append, scan_escaped, ih, behind_behind]
      simp only [last]
    · rw [if_neg (by simp [backslash, quote]), singleton_append,
        scan_inside quote (by simp [backslash]), ih, behind_behind]
      simp only [last]

private theorem substringConf_plain {c : UInt8} (noQuote : c ≠ 34) (noBackslash : c ≠ 92)
    (rest : Bytes) :
    substringConf 34 (c :: rest) = c :: substringConf 34 rest := by
  cases rest <;> simp [substringConf, noQuote, noBackslash]

/-- The value is read back. -/
theorem substringConf_escape (value rest : Bytes) :
    substringConf 34 (escape value ++ 34 :: rest) = value := by
  induction value with
  | nil => cases rest <;> rfl
  | cons c value ih =>
    rw [escape_cons, append_assoc]
    split
    next special =>
      rw [cons_append, cons_append, nil_append, substringConf, if_neg (by decide),
        if_pos (by simp [special]), ih]
    next plain => rw [singleton_append, substringConf_plain (by tauto) (by tauto), ih]

/-! ### Words -/

theorem Param.text_append (p : Param) (rest : Bytes) :
    p.text ++ rest = (p.name ++ [61]) ++ 34 :: (escape p.value ++ 34 :: rest) := by
  simp [text]

private theorem scan_text (p : Param) (rest : Bytes) : scan 59 .outside (p.text ++ rest) =
    behind p.text (scan 59 (if p.value.getLast? = some 92 then .inside 34 else .outside) rest) := by
  have plain : ∀ c ∈ p.name ++ [61], c ≠ 59 ∧ c ≠ 34 ∧ c ≠ 39 := by
    refine forall_mem_append.mpr ⟨fun c member => ?_, by simp⟩
    obtain ⟨noSemicolon, -, noQuotes⟩ := p.plain c member
    exact ⟨noSemicolon, noQuotes⟩
  rw [p.text_append, scan_plain plain, scan_next (by decide), Mode.next, if_pos (.inl rfl),
    scan_escape, behind_behind,
    behind_behind]
  simp [Param.text]

private theorem pair_of_word (p : Param) (rest : Bytes) :
    ((apGetword 61 (p.text ++ rest)).1, apGetwordConf (apGetword 61 (p.text ++ rest)).2) =
      p.pair := by
  have plain : ∀ c ∈ p.name, c ≠ 61 ∧ c ≠ 34 ∧ c ≠ 39 := fun c member => (p.plain c member).2
  have word : apGetword 61 (p.text ++ rest) = (p.name, 34 :: (escape p.value ++ 34 :: rest)) := by
    rw [apGetword, p.text_append, append_assoc, scan_plain plain]
    simp [scan, behind]
  have value := substringConf_escape p.value rest
  simp only [word, apGetwordConf]
  rw [dropWhile_cons_of_neg (by decide)]
  simp [Param.pair, value]

/-- One turn takes off the first parameter. -/
theorem parameters_text (p : Param) (turns : Nat) (rest : Bytes) :
    parameters (turns + 1) (p.text ++ rest) = p.pair ::
    parameters turns ((scan 59 (if p.value.getLast? = some 92 then .inside 34 else .outside)
      rest).2.dropWhile (· = 59)) := by
  rw [parameters, if_neg (by simp [Param.text])]
  simp only [apGetword, scan_text]
  rw [← pair_of_word p]
  rfl

private theorem parameters_nil (turns : Nat) : parameters turns [] = [] := by
  cases turns <;> rfl

theorem header_cons (p : Param) (ps : List Param) :
    header (p :: ps) = p.text ++ if ps = [] then [] else 59 :: header ps := by
  cases ps with
  | nil => simp [header, intercalate]
  | cons q ps => simp [header, intercalate]

private theorem dropWhile_text (p : Param) (rest : Bytes) :
    (p.text ++ rest).dropWhile (· = 59) = p.text ++ rest := by
  rw [p.text_append]
  cases name : p.name with
  | nil => rfl
  | cons c name => exact dropWhile_cons_of_neg (by simpa using (p.plain c (by simp [name])).1)

/-- All parameters are read back, if no value ends in a backslash. -/
theorem parameters_header {ps : List Param} (fine : ∀ p ∈ ps, p.value.getLast? ≠ some 92)
    {turns : Nat} (enough : ps.length ≤ turns) :
    parameters turns (header ps) = ps.map Param.pair := by
  induction ps generalizing turns with
  | nil => exact parameters_nil turns
  | cons p ps ih =>
    obtain ⟨turns, rfl⟩ := Nat.exists_eq_add_of_lt enough
    obtain ⟨closed, fine⟩ := forall_mem_cons.mp fine
    rw [header_cons, parameters_text, if_neg closed, map_cons]
    congr 1
    cases ps with
    | nil => exact parameters_nil _
    | cons q ps =>
      rw [if_neg (cons_ne_nil _ _), scan, if_pos ⟨rfl, rfl⟩, dropWhile_cons_of_pos (by simp),
        header_cons q, dropWhile_text,
        ← header_cons]
      exact ih fine (by simp only [length_cons]; omega)

theorem length_scan (mode : Mode) (line : Bytes) :
    (scan stop mode line).1.length + (scan stop mode line).2.length = line.length := by
  induction line generalizing mode with
  | nil => rfl
  | cons c line ih =>
    rw [scan]
    split
    · simp
    · simp [Nat.add_right_comm _ 1, ih]

private theorem length_name_le {turns : Nat} {line : Bytes} {pair : Bytes × Bytes}
    (first : (parameters turns line).head? = some pair) :
    pair.1.length ≤ line.length := by
  cases turns with
  | zero => cases first
  | succ turns =>
    rw [parameters] at first
    split at first
    · cases first
    · cases first
      have word := @length_scan 59 .outside line
      have name := @length_scan 61 .outside (scan 59 .outside line).1
      simp only [apGetword]
      omega

private theorem scan_inside_plain {bytes : Bytes} (plain : ∀ c ∈ bytes, c ≠ 34 ∧ c ≠ 92)
    (rest : Bytes) :
    scan stop (.inside 34) (bytes ++ rest) = behind bytes (scan stop (.inside 34) rest) := by
  induction bytes with
  | nil => rfl
  | cons c bytes ih =>
    obtain ⟨here, later⟩ := forall_mem_cons.mp plain
    rw [cons_append, scan_inside here.1 (by simp [here.2]), ih later, behind_behind]
    rfl

/-- Lines with such values are split into their parameters, if and only if no value ends with a
backslash. -/
theorem split_header_iff (values : Set Bytes) :
    (∀ ps : List Param, (∀ p ∈ ps, p.value ∈ values) → split (header ps) = ps.map Param.pair) ↔
    ∀ value ∈ values, value.getLast? ≠ some 92 := by
  constructor
  · intro exact value member escaped
    -- the first word goes on up to the second value, which is too short for the second name
    let p : Param := ⟨[], value, by simp⟩
    let q : Param := ⟨replicate ((escape value).length + 2) 97, value, by simp⟩
    have both := exact [p, q] (by simp [p, q, member])
    have plain : ∀ c ∈ 59 :: (q.name ++ [61]), c ≠ 34 ∧ c ≠ 92 := by simp [q]
    have joined : header [p, q] = p.text ++
        ((59 :: (q.name ++ [61])) ++ 34 :: (escape value ++ [34])) := by
      simp [header, intercalate, Param.text, q]
    obtain ⟨turns, size⟩ := Nat.exists_eq_succ_of_ne_zero
      (show (header [p, q]).length ≠ 0 by simp [joined])
    rw [split, size, joined, parameters_text, if_pos escaped, scan_inside_plain plain,
      scan_next (by simp)] at both
    have bound : (replicate ((escape value).length + 2) (97 : UInt8)).length ≤
        ((scan 59 .outside (escape value ++ [34])).2.dropWhile (· = 59)).length :=
          length_name_le (congrArg head? (cons.inj both).2)
    have shorter := bound.trans (dropWhile_suffix _).length_le
    have rest := @length_scan 59 .outside (escape value ++ [34])
    rw [length_append, length_singleton] at rest
    rw [length_replicate] at shorter
    omega
  · intro fine ps from_
    refine parameters_header (fun p member => fine _ (from_ p member)) ?_
    induction ps with
    | nil => simp
    | cons p ps ih =>
      rw [header_cons]
      split <;> simp_all [Param.text] <;> omega

theorem split_swallows :
    split (header [⟨[97], [92], by simp⟩, ⟨[98], [], by simp⟩]) = [([97], [92])] := by
  decide

end Jonj.Rfc1867
