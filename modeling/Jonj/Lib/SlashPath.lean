import Mathlib.Tactic

/-!
# Paths with slashes

A path is a list of characters. Its components are what stands between the slashes.
-/
namespace Jonj.SlashPath

open List

/-- The names, each after a slash. -/
def render (names : List (List Char)) : List Char := names.flatMap fun name => '/' :: name

/-- The absolute path of the names; the root is a single slash. -/
def pathOf (names : List (List Char)) : List Char :=
  if names = [] then ['/'] else render names

/-- A component that names an entry of a directory. -/
structure Proper (name : List Char) : Prop where
  nonempty : name ≠ []
  noSlash : '/' ∉ name
  notDot : name ≠ ['.']
  notDotDot : name ≠ ['.', '.']

instance (name : List Char) : Decidable (Proper name) :=
  decidable_of_iff (name ≠ [] ∧ '/' ∉ name ∧ name ≠ ['.'] ∧ name ≠ ['.', '.'])
    ⟨fun ⟨a, b, c, d⟩ => ⟨a, b, c, d⟩, fun h => ⟨h.nonempty, h.noSlash, h.notDot, h.notDotDot⟩⟩

@[simp] theorem render_nil : render [] = [] := rfl

@[simp] theorem render_cons (name : List Char) (names : List (List Char)) :
    render (name :: names) = '/' :: (name ++ render names) := rfl

theorem render_append (first second : List (List Char)) :
    render (first ++ second) = render first ++ render second := flatMap_append

variable {names : List (List Char)}

/-! ### Components -/

theorem not_mem_of_mem_splitOn {sep : Char} {s part : List Char} (member : part ∈ s.splitOn sep) :
    sep ∉ part := by
  induction s generalizing part with
  | nil =>
    rw [splitOn_nil, mem_singleton] at member
    simp [member]
  | cons c s ih =>
    simp only [splitOn, splitOnP_cons_eq_if_modifyHead, beq_iff_eq] at member ih
    split at member
    next _ =>
      rcases mem_cons.mp member with rfl | later
      · simp
      · exact ih later
    next other =>
    cases parts : s.splitOnP (fun x => x == sep) with
    | nil => simp [parts] at member
    | cons head tail =>
      rw [parts] at member
      rcases mem_cons.mp member with rfl | later
      · have first : sep ∉ head := ih (by simp [parts])
        simp [first, Ne.symm other]
      · exact ih (by simp [parts, later])

theorem render_eq_intercalate (names : List (List Char)) :
    render names = ['/'].intercalate ([] :: names) := by
  induction names with
  | nil => rfl
  | cons name names ih =>
    rw [render_cons, ih]
    cases names with
    | nil => simp [intercalate]
    | cons next names => simp [intercalate]

/-- Splitting gives the names back, behind the empty one before the first slash. -/
theorem splitOn_render (noSlash : ∀ name ∈ names, '/' ∉ name) :
    (render names).splitOn '/' = [] :: names := by
  rw [render_eq_intercalate]
  refine splitOn_intercalate '/' ?_ (by simp)
  intro name member
  rcases mem_cons.mp member with rfl | later
  · simp
  · exact noSlash name later

theorem splitOn_render_slash (noSlash : ∀ name ∈ names, '/' ∉ name) :
    (render names ++ ['/']).splitOn '/' = [] :: (names ++ [[]]) := by
  have trailing : render names ++ ['/'] = render (names ++ [[]]) := by
    simp [render_append]
  rw [trailing]
  refine splitOn_render fun name member => ?_
  rcases mem_append.mp member with inside | last
  · exact noSlash name inside
  · simp [mem_singleton.mp last]

/-! ### Prefixes -/

theorem append_slash_prefix {x y s t : List Char} (first : '/' ∉ x) (second : '/' ∉ y) :
    x ++ '/' :: s <+: y ++ '/' :: t ↔ x = y ∧ s <+: t := by
  induction x generalizing y with
  | nil =>
    cases y with
    | nil => simp
    | cons d y =>
      have apart : '/' ≠ d := fun same => second (same ▸ mem_cons_self)
      simp [apart]
  | cons c x ih =>
    rw [mem_cons, not_or] at first
    cases y with
    | nil => simp [Ne.symm first.1]
    | cons d y =>
      rw [mem_cons, not_or] at second
      rw [cons_append, cons_append, cons_prefix_cons, ih first.2 second.2]
      simp [and_assoc]

/-- With a slash at the end of both, the text begins with the other exactly if the names do. -/
theorem render_slash_prefix {base : List (List Char)} (first : ∀ x ∈ base, '/' ∉ x)
    (second : ∀ x ∈ names, '/' ∉ x) :
    render base ++ ['/'] <+: render names ++ ['/'] ↔ base <+: names := by
  induction base generalizing names with
  | nil =>
    cases names <;> simp
  | cons x base ih =>
    have slash : ∀ l : List (List Char), ∃ s, render l ++ ['/'] = '/' :: s := by
      intro l
      cases l <;> simp
    obtain ⟨s, after⟩ := slash base
    cases names with
    | nil =>
      refine iff_of_false ?_ (by simp)
      intro within
      have short := within.length_le
      simp at short
    | cons y names =>
      obtain ⟨t, after'⟩ := slash names
      have later : ∀ z ∈ names, '/' ∉ z := fun z member => second z (mem_cons_of_mem y member)
      have rest := ih (fun z member => first z (mem_cons_of_mem x member)) later
      rw [after, after', cons_prefix_cons] at rest
      simp only [true_and] at rest
      rw [render_cons, render_cons, cons_append, cons_append, append_assoc,
        append_assoc, after, after', cons_prefix_cons,
        append_slash_prefix (first x mem_cons_self) (second y mem_cons_self), rest]
      simp

/-! ### Spellings of a location -/

/-- The absolute path of the names, with a slash at the end if it is asked for. -/
def spell (names : List (List Char)) (slash : Bool) : List Char :=
  if slash = true ∨ names = [] then render names ++ ['/'] else render names

theorem pathOf_eq_spell (names : List (List Char)) : pathOf names = spell names false := by
  by_cases root : names = [] <;> simp [pathOf, spell, root]

theorem head_spell (names : List (List Char)) (slash : Bool) :
    (spell names slash).head? = some '/' := by
  cases names with
  | nil => simp [spell]
  | cons name names => cases slash <;> simp [spell]

theorem spell_ne_nil (names : List (List Char)) (slash : Bool) : spell names slash ≠ [] := by
  intro empty
  have head := head_spell names slash
  rw [empty] at head
  cases head

/-- A slash at the end is one more empty name. -/
theorem splitOn_spell (slash : Bool) (noSlash : ∀ name ∈ names, '/' ∉ name) :
    (spell names slash).splitOn '/' =
      [] :: (names ++ if slash = true ∨ names = [] then [[]] else []) := by
  rw [spell]
  split
  · exact splitOn_render_slash noSlash
  · rw [splitOn_render noSlash, append_nil]

theorem getLast_render (proper : ∀ name ∈ names, Proper name) :
    (render names).getLast? ≠ some '/' := by
  induction names using reverseRecOn with
  | nil => simp
  | append_singleton names name _ =>
    have last := proper name (by simp)
    rw [render_append, render_cons, render_nil, append_nil, getLast?_append_of_ne_nil _ (by simp),
      getLast?_cons_of_ne_nil last.nonempty]
    intro slash
    exact last.noSlash (mem_of_getLast? slash)

/-- The root ends in a slash in any case. -/
theorem getLast_spell (slash : Bool) (proper : ∀ name ∈ names, Proper name) :
    (spell names slash).getLast? = some '/' ↔ slash = true ∨ names = [] := by
  rw [spell]
  split
  next trailing => simp [trailing]
  next bare => exact iff_of_false (getLast_render proper) bare

end Jonj.SlashPath
