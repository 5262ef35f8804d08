import Jonj.Basedir.Check
import Jonj.Lib.Runs

/-!
# Changes of open_basedir at run time

A new value is checked entry by entry as a list of paths, and later read as a list of
directories, from whatever the current directory is then. In a tree without links the two
readings agree as long as no relative entry climbs out of the current directory.
-/
namespace Jonj.Basedir

open SlashPath Runs List

/-! ### Trees without links -/

def Tree.LinkFree (t : Tree) : Prop := ∀ loc text, t.entry loc ≠ some (.link text)

theorem resolve_linkFree {t : Tree} (linkFree : t.LinkFree) (f : Bool) (links : Nat)
    (cur cs : List (List Char)) : t.resolve f links cur cs = t.resolve f 0 cur cs := by
  rw [resolve_eq_walk, Tree.resolve]
  fun_induction Tree.walk t f (t.follow f links) cur cs with
  | case1 | case2 | case5 | case6 => simp_all [Tree.walk]
  | case3 cur c rest dir same ih => simpa [Tree.walk, dir, same] using ih
  | case4 cur rest dir name ih => simpa [Tree.walk, dir] using ih
  | case7 cur c rest dir name up text entry | case8 cur c rest dir name up text entry =>
    exact absurd entry (linkFree _ text)
  | case9 cur c rest dir name up e other entry ih =>
    cases e <;> simp_all [Tree.walk]

/-- What a component does to a path that is only read as text. -/
def push (loc : List (List Char)) (c : List Char) : List (List Char) :=
  if c = [] ∨ c = ['.'] then loc else if c = ['.', '.'] then loc.dropLast else loc ++ [c]

/-- A `..` among the components leaves the directory that they start from; the number says
how far below it they have come. -/
def climbs : Nat → List (List Char) → Bool
  | _, [] => false
  | depth, c :: rest =>
    if c = [] ∨ c = ['.'] then climbs depth rest
    else if c = ['.', '.'] then depth = 0 || climbs (depth - 1) rest
    else climbs (depth + 1) rest

private theorem foldl_push_append (d loc : List (List Char)) {cs : List (List Char)}
    (below : climbs loc.length cs = false) : cs.foldl push (d ++ loc) = d ++ cs.foldl push loc := by
  induction cs generalizing loc with
  | nil => rfl
  | cons c rest ih =>
    rw [climbs] at below
    rw [foldl_cons, foldl_cons, push, push]
    split
    next same =>
      rw [if_pos same] at below
      exact ih loc below
    next name =>
    rw [if_neg name] at below
    split
    next up =>
      rw [if_pos up] at below
      rcases eq_nil_or_concat loc with rfl | ⟨front, last, rfl⟩
      · cases below
      · rw [concat_eq_append] at below ⊢
        rw [← append_assoc, dropLast_concat, dropLast_concat]
        exact ih front (by simpa using below)
    next up =>
      rw [if_neg up] at below
      rw [append_assoc]
      exact ih (loc ++ [c]) (by simpa using below)

theorem foldl_push_proper {names : List (List Char)} (proper : ∀ name ∈ names, Proper name)
    (loc : List (List Char)) : names.foldl push loc = loc ++ names := by
  induction names generalizing loc with
  | nil => rw [foldl_nil, append_nil]
  | cons name names ih =>
    have first := proper name (by simp)
    rw [foldl_cons, ih (fun c member => proper c (mem_cons_of_mem _ member)), push,
      if_neg (by simp [first.nonempty, first.notDot]), if_neg first.notDotDot]
    simp

namespace System

variable (s : System) {path e : List Char} {n : List (List Char)}

/-- Without links the expansion works on the text alone, or fails. -/
theorem realpathStep_text (linkFree : s.tree.LinkFree)
    {next : List (List Char) → Mode → Bool → Option (List (List Char))}
    {cs names : List (List Char)} {mode : Mode} {isDir : Bool}
    (expanded : s.realpathStep next cs mode isDir = some names) :
    names = cs.reverse.foldl push [] := by
  induction cs generalizing mode isDir names with
  | nil =>
    cases expanded
    rfl
  | cons c rest ih =>
    rw [reverse_cons, foldl_append, foldl_cons, foldl_nil, push]
    rw [System.realpathStep] at expanded
    split at expanded
    next same =>
      rw [if_pos same]
      exact ih expanded
    next name =>
    rw [if_neg name]
    split at expanded
    next up =>
      rw [if_pos up]
      obtain ⟨parent, above, rfl⟩ := Option.map_eq_some_iff.mp expanded
      rw [ih above]
    next up =>
    rw [if_neg up]
    have plain : ∀ {mode : Mode}, (s.realpathStep next rest mode true).map (· ++ [c]) = some names →
        names = rest.reverse.foldl push [] ++ [c] := by
      intro mode mapped
      obtain ⟨parent, above, rfl⟩ := Option.map_eq_some_iff.mp mapped
      rw [ih above]
    split at expanded
    · split at expanded
      · cases expanded
      · exact plain expanded
    next text link =>
      rw [lstat] at link
      split at link
      · exact absurd link (linkFree _ text)
      · cases link
    next =>
      split at expanded
      · cases expanded
      · exact plain expanded

theorem tsrmRealpathR_eq (links : Nat) : ∃ next, s.tsrmRealpathR links = s.realpathStep next := by
  cases links <;> exact ⟨_, rfl⟩

section

variable (linkFree : s.tree.LinkFree)

include linkFree

private theorem expandedNames_text (expanded : s.expandedNames path = some n) :
    n = (s.components path).foldl push [] := by
  rw [expandedNames] at expanded
  split at expanded
  · cases expanded
  · obtain ⟨next, same⟩ := s.tsrmRealpathR_eq s.linkMax
    rw [same] at expanded
    rw [s.realpathStep_text linkFree expanded, reverse_reverse]

theorem expandedNames_of_found (found : s.find true path = some (.at n)) :
    s.expandedNames path = some n := by
  have some : path ≠ [] := by
    rintro rfl
    cases found
  rw [find_eq s true some, resolve_linkFree linkFree] at found
  obtain ⟨next, same⟩ := s.tsrmRealpathR_eq s.linkMax
  rw [expandedNames, if_neg some, same]
  exact realpathStep_of_linkFree s next found .filepath (by simp)

private theorem tsrmRealpath_of_found (found : s.find true path = some (.at n)) :
    s.tsrmRealpath path = some (pathOf n) := by
  have some : path ≠ [] := by
    rintro rfl
    cases found
  rw [find_eq s true some, resolve_linkFree linkFree] at found
  obtain ⟨next, same⟩ := s.tsrmRealpathR_eq s.linkMax
  have names : s.realpathStep next (s.components path).reverse .realpath false = .some n :=
    realpathStep_of_linkFree s next found .realpath (by simp)
  rw [components] at names
  rw [tsrmRealpath, if_neg some, virtualFileEx, if_neg some, same]
  simp only [names]
  rfl

private theorem tsrmRealpath_text {name : List Char} (some : path ≠ [])
    (real : s.tsrmRealpath path = .some name) :
    name = pathOf ((s.components path).foldl push []) := by
  obtain ⟨next, same⟩ := s.tsrmRealpathR_eq s.linkMax
  rw [tsrmRealpath, if_neg some, virtualFileEx, if_neg some, same] at real
  obtain ⟨names, expanded, rfl⟩ := Option.map_eq_some_iff.mp real
  rw [s.realpathStep_text linkFree expanded, reverse_reverse]
  rfl

end

private theorem components_spell {slash : Bool} (proper : ∀ name ∈ n, Proper name) :
    (s.components (spell n slash)).foldl push [] = n := by
  have root : absolute (spell n slash) = true := by
    rw [absolute, head_spell]
    simp
  rw [components, if_pos root, splitOn_spell slash fun name member => (proper name member).noSlash,
    nil_append, foldl_cons, foldl_append, foldl_push_proper proper]
  split <;> simp [push]

private theorem find_spell_exists (ends : s.tree.Ends (.at n)) :
    s.find true (spell n false) = some (.at n) := by
  rcases ends with dir | file
  · exact s.find_spell_dir true false dir
  · exact s.find_spell_file true file

theorem proper_of_ends (ends : s.tree.Ends (.at n)) : ∀ name ∈ n, Proper name := by
  rcases ends with dir | file
  · exact s.tree.proper _ _ dir
  · exact s.tree.proper _ _ file

private theorem resolvedName_of_exists (linkFree : s.tree.LinkFree) (ends : s.tree.Ends (.at n))
    (slash : Bool) :
    ∃ slash', s.resolvedName s.tsrmRealpath (spell n slash) = some (spell n slash') := by
  have proper := s.proper_of_ends ends
  cases real : s.tsrmRealpath (spell n slash) with
  | some name =>
    rw [s.tsrmRealpath_text linkFree (spell_ne_nil n slash) real, s.components_spell proper] at real
    exact ⟨slash, s.resolvedName_of_found proper real⟩
  | none =>
    -- a file named with a slash at the end: the slash is cut off
    have bare := s.tsrmRealpath_of_found linkFree (s.find_spell_exists ends)
    have differs : spell n slash ≠ spell n false := by
      intro same
      rw [same, bare] at real
      cases real
    have text : spell n slash = render n ++ ['/'] ∧ spell n false = render n := by
      rw [spell, spell] at differs
      rw [spell, spell]
      split at differs
      next trailing =>
        rw [if_pos trailing]
        split at differs
        · exact absurd rfl differs
        next plain => rw [if_neg plain]; exact ⟨rfl, rfl⟩
      next trailing => simp_all
    have unread : s.readlink (spell n slash) = none := by
      rw [readlink]
      split
      next loc _ =>
        split
        next text link => exact absurd link (linkFree loc text)
        next => rfl
      next => rfl
    refine ⟨false, ?_⟩
    rw [resolvedName, real]
    simp only [unread, Option.getD_none]
    rw [text.1, dirPart_append (by simp), Option.bind_some, existingPart, ← text.2, bare,
      pathOf_eq_spell]

private theorem expandFilepath_exists {realpath : List Char → Option (List Char)}
    (expanded : s.expandedNames path = some n)

    (resolved : ∀ slash, ∃ slash', s.resolvedName realpath (spell n slash) =
      some (spell n slash')) :
    ∃ slash, (s.expandFilepath path).bind (s.resolvedName realpath) = some (spell n slash) := by
  obtain ⟨slash', same⟩ := resolved (path.getLast? = some '/')
  refine ⟨slash', ?_⟩
  rw [expandFilepath_eq, expanded]
  exact same

theorem checkOpenBasedirEx_exists (linkFree : s.tree.LinkFree) {setting : List Char}
    (set : setting ≠ []) (expanded : s.expandedNames path = some n) (ends : s.tree.Ends (.at n)) :
    s.checkOpenBasedirEx s.tsrmRealpath setting path = true ↔ ∃ e ∈ entries setting,
      s.Covers e n := by
  obtain ⟨slash, name⟩ := s.expandFilepath_exists expanded (s.resolvedName_of_exists linkFree ends)
  exact s.checkOpenBasedirEx_iff set (s.proper_of_ends ends) name

/-- As a path and as a directory of the setting an entry is expanded alike. -/
theorem region_eq_expandedNames (linkFree : s.tree.LinkFree) (basedir : List Char) :
    s.region basedir = s.expandedNames basedir := by
  rw [region]
  split
  next dot =>
    have here : s.find true ['.'] = some (.at s.cwd) := by
      rw [find, if_neg (by simp), if_neg (by decide), resolve_eq_walk]
      simp [splitOn, splitOnP_cons_eq_if_modifyHead, Tree.walk, s.isDir]
    rw [dot, s.expandedNames_of_found linkFree here, pathOf_eq_spell,
      s.expandedNames_of_found linkFree (s.find_spell_dir true false s.isDir)]
  next => rfl

/-- The same files with another current directory. -/
def chdir (d : List (List Char)) (isDir : s.tree.entry d = some .dir) : System :=
  { s with cwd := d, isDir }

section

variable (d : List (List Char)) (isDir : s.tree.entry d = some .dir)

private theorem realpathStep_chdir
    (next : List (List Char) → Mode → Bool → Option (List (List Char))) :
    (s.chdir d isDir).realpathStep next = s.realpathStep next := by
  have same : (s.chdir d isDir).lstat = s.lstat := rfl
  funext cs
  induction cs with
  | nil => rfl
  | cons c rest ih =>
    simp only [realpathStep, ih, same]

private theorem tsrmRealpathR_chdir (links : Nat) :
    (s.chdir d isDir).tsrmRealpathR links = s.tsrmRealpathR links := by
  induction links with
  | zero => exact s.realpathStep_chdir d isDir _
  | succ links ih => rw [tsrmRealpathR, tsrmRealpathR, ih, s.realpathStep_chdir d isDir]

/-- Only a relative entry changes its meaning with the current directory. -/
theorem region_chdir (root : absolute e = true) : (s.chdir d isDir).region e = s.region e := by
  have notDot : e ≠ ['.'] := by
    rintro rfl
    cases root
  rw [region, region, if_neg notDot, if_neg notDot, expandedNames, expandedNames, components,
    components, if_pos root, if_pos root, tsrmRealpathR_chdir]
  rfl

end

private theorem covers_of_chdir {d : List (List Char)} {isDir : s.tree.entry d = some .dir}
    (root : absolute e = true) (covers : (s.chdir d isDir).Covers e n) : s.Covers e n := by
  have same := s.region_chdir d isDir root
  exact ⟨same ▸ covers.below, fun bare => covers.bareRoot ⟨same.trans bare.1, bare.2⟩⟩

/-- A relative entry that does not climb stays below the current directory. -/
theorem region_of_relative {b : List (List Char)} (linkFree : s.tree.LinkFree)
    (relative : absolute e = false) (below : climbs 0 (e.splitOn '/') = false)
    (region : s.region e = some b) : s.cwd <+: b := by
  rw [s.region_eq_expandedNames linkFree] at region
  rw [s.expandedNames_text linkFree region, System.components, if_neg (by simp [relative]),
    foldl_append, foldl_push_proper (s.tree.proper _ _ s.isDir), nil_append]
  have inside := foldl_push_append s.cwd [] below
  rw [append_nil] at inside
  rw [inside]
  exact prefix_append _ _

end System

/-! ### Runs -/

/-- The setting that is in force, and the file system with the current directory. -/
structure Request where
  system : System
  setting : List Char

inductive Change where
  | update (newValue : List Char)
  | chdir (path : List Char)

namespace Request

/-- A change that succeeds: `ini_set` or `chdir`. -/
def step (r : Request) : Change → Option Request
  | .update newValue =>
    (r.system.onUpdateBaseDir r.system.tsrmRealpath r.setting newValue).map fun setting =>
      { r with setting }
  | .chdir path =>
    if r.system.checkOpenBasedirEx r.system.tsrmRealpath r.setting path then
      match r.system.find true path with
      | some (.at d) =>
        if isDir : r.system.tree.entry d = some .dir then
          some { r with system := r.system.chdir d isDir }
        else none
      | _ => none
    else none

/-- The existing absolute paths that the check accepts. -/
def accepted (r : Request) : Set (List Char) :=
  {path | absolute path = true ∧ (∃ n, r.system.find true path = some (.at n)) ∧
    r.system.checkOpenBasedirEx r.system.tsrmRealpath r.setting path = true}

/-- No entry of the setting becomes `//`, and when the directory changes, no relative entry
climbs out of it. -/
def Stays (r : Request) (change : Change) : Prop :=
  (∀ e ∈ entries r.setting, ¬ r.system.BareRoot e) ∧
    match change with
    | .update _ => True
    | .chdir _ => ∀ e ∈ entries r.setting, absolute e = true ∨ climbs 0 (e.splitOn '/') = false

variable {r r' : Request} {n : List (List Char)}

theorem step_update {newValue setting : List Char}
    (updated : r.system.onUpdateBaseDir r.system.tsrmRealpath r.setting newValue = some setting) :
    r.step (.update newValue) = some { r with setting } := by
  rw [step, updated]
  rfl

theorem step_chdir {path : List Char} {d : List (List Char)}
    (passes : r.system.checkOpenBasedirEx r.system.tsrmRealpath r.setting path = true)
    (there : r.system.find true path = some (.at d)) (isDir : r.system.tree.entry d = some .dir) :
    r.step (.chdir path) = some { r with system := r.system.chdir d isDir } := by
  simp only [step, passes, there, if_true]
  exact dif_pos isDir

theorem mem_accepted {path : List Char} (linkFree : r.system.tree.LinkFree) (set : r.setting ≠ [])
    (root : absolute path = true) (found : r.system.find true path = some (.at n)) :
    path ∈ r.accepted ↔ ∃ e ∈ entries r.setting, r.system.Covers e n := by
  rw [← r.system.checkOpenBasedirEx_exists linkFree set
    (r.system.expandedNames_of_found linkFree found) (r.system.find_ends found)]
  exact ⟨fun member => member.2.2, fun passes => ⟨root, ⟨n, found⟩, passes⟩⟩

private theorem ends_above {t : Tree} {b : List (List Char)} (ends : t.Ends (.at n))
    (above : b <+: n) :
    t.Ends (.at b) := by
  obtain ⟨rest, rfl⟩ := above
  by_cases same : rest = []
  · rwa [same, append_nil] at ends
  · rcases ends with dir | file
    · exact .inl (entry_above dir same)
    · exact .inl (entry_above file same)

theorem covers_below {s : System} {e : List Char} {b : List (List Char)} (covers : s.Covers e b)
    (plain : ¬ s.BareRoot e) (above : b <+: n) : s.Covers e n := by
  obtain ⟨b', region, inside⟩ := covers.below
  exact ⟨⟨b', region, inside.trans above⟩, fun bare => absurd bare plain⟩

/-- The setting is still there, and what it accepts was accepted. -/
structure Tightened (r r' : Request) : Prop where
  set : r'.setting ≠ []
  tree : r'.system.tree = r.system.tree
  inside : r'.accepted ⊆ r.accepted

private theorem update_tightens {newValue : List Char} (linkFree : r.system.tree.LinkFree)
    (set : r.setting ≠ []) (stays : ∀ e ∈ entries r.setting, ¬ r.system.BareRoot e)
    (stepped : r.step (.update newValue) = some r') : r.Tightened r' := by
  obtain ⟨setting, updated, rfl⟩ := Option.map_eq_some_iff.mp stepped
  rw [System.onUpdateBaseDir, if_neg set] at updated
  split at updated
  · cases updated
  next some =>
  split at updated
  next passes =>
    cases updated
    refine ⟨some, rfl, ?_⟩
    rintro path ⟨root, ⟨n, found⟩, passed⟩
    rw [mem_accepted linkFree set root found]
    obtain ⟨e, listed, covers⟩ :=
      (mem_accepted (r := { r with setting := newValue }) linkFree some root found).mp
        ⟨root, ⟨n, found⟩, passed⟩
    obtain ⟨b, region, above⟩ := covers.below
    have ends := ends_above (r.system.find_ends found) above
    rw [r.system.region_eq_expandedNames linkFree] at region
    have entry := (r.system.checkOpenBasedirEx_exists linkFree set region ends).mp
      (all_eq_true.mp passes e listed)
    obtain ⟨e₀, listed₀, covers₀⟩ := entry
    exact ⟨e₀, listed₀, covers_below covers₀ (stays e₀ listed₀) above⟩
  next => cases updated

private theorem chdir_tightens {path : List Char} (linkFree : r.system.tree.LinkFree)
    (set : r.setting ≠ []) (stays : r.Stays (.chdir path))
    (stepped : r.step (.chdir path) = some r') :
    r.Tightened r' := by
  rw [step] at stepped
  split at stepped
  next passes =>
    split at stepped
    next d there =>
      split at stepped
      next isDir =>
        cases stepped
        refine ⟨set, rfl, ?_⟩
        rintro file ⟨root, ⟨n, found⟩, passed⟩
        have found' : r.system.find true file = some (.at n) := by
          rw [System.find, if_pos root] at found ⊢
          exact found
        rw [mem_accepted linkFree set root found']
        obtain ⟨e, listed, covers⟩ :=
          (mem_accepted (r := { r with system := r.system.chdir d isDir }) linkFree
            set root found).mp
            ⟨root, ⟨n, found⟩, passed⟩
        by_cases fixed : absolute e = true
        · exact ⟨e, listed, r.system.covers_of_chdir fixed covers⟩
        -- the entry that let the new directory through covers all that lies below it
        obtain ⟨e₀, listed₀, covers₀⟩ := (r.system.checkOpenBasedirEx_exists linkFree set
          (r.system.expandedNames_of_found linkFree there) (r.system.find_ends there)).mp passes
        obtain ⟨b, region, above⟩ := covers.below
        have below := (r.system.chdir d isDir).region_of_relative linkFree (by simpa using fixed)
          ((stays.2 e listed).resolve_left fixed) region
        exact ⟨e₀, listed₀, covers_below covers₀ (stays.1 e₀ listed₀) (below.trans above)⟩
      next => cases stepped
    next => cases stepped
  next => cases stepped

private theorem step_tightens {change : Change} (linkFree : r.system.tree.LinkFree)
    (set : r.setting ≠ []) (stays : r.Stays change) (stepped : r.step change = some r') :
    r.Tightened r' := by
  cases change with
  | update newValue => exact update_tightens linkFree set stays.1 stepped
  | chdir path => exact chdir_tightens linkFree set stays stepped

/-- In a run in which the entries stay where they are, the setting is only tightened. -/
theorem run_tightens {changes : List Change} (linkFree : r.system.tree.LinkFree)
    (set : r.setting ≠ []) (stays : Meets step Stays r changes)
    (ran : execute step r changes = some r') : r'.accepted ⊆ r.accepted := by
  have kept : r.Tightened r' := by
    refine execute_invariant (I := r.Tightened) ?_ changes r r' ⟨set, rfl, subset_rfl⟩ stays ran
    intro r₁ change r₂ before stays stepped
    obtain ⟨set, tree, inside⟩ := before
    obtain ⟨set', tree', inside'⟩ := step_tightens (tree ▸ linkFree) set stays stepped
    exact ⟨set', tree'.trans tree, inside'.trans inside⟩
  exact kept.inside

/-! ### A setting that is loosened -/

/-- The directories `/a`, `/a/b` and `/a/b/c`, and the file `/a/x`. -/
def nested : Tree :=
  Tree.ofList [([['a']], .dir), ([['a'], ['b']], .dir), ([['a'], ['b'], ['c']], .dir),
    ([['a'], ['x']], .file)] (by decide) (by decide)

theorem nested_linkFree : nested.LinkFree := by
  intro loc text link
  simp only [nested, Tree.ofList] at link
  split at link
  · cases link
  obtain ⟨before, after, same, _⟩ := lookup_eq_some_iff.mp link
  have listed : (loc, Entry.link text) ∈ before ++ (loc, Entry.link text) :: after := by simp
  rw [← same] at listed
  simp at listed

/-- A request that runs in the directory and is confined to `/a/b`. -/
def confined (cwd : List (List Char)) (isDir : nested.entry cwd = some .dir) : Request :=
  ⟨⟨nested, 40, 32, cwd, isDir⟩, "/a/b".toList⟩

theorem run_tightens_confined :
    let r := confined [['a'], ['b']] rfl
    ∃ r', execute step r [.update "c".toList, .chdir "c".toList] = some r' ∧
      r'.accepted ⊆ r.accepted := by
  intro r
  let r₁ : Request := { r with setting := "c".toList }
  have updated : r.step (.update "c".toList) = some r₁ := step_update (by decide +kernel)
  have moved : r₁.step (.chdir "c".toList) = some _ :=
    step_chdir (d := [['a'], ['b'], ['c']]) (by decide +kernel) (by decide +kernel) rfl
  have ran : execute step r [.update "c".toList, .chdir "c".toList] = some _ :=
    (execute_cons updated).trans (execute_cons moved)
  refine ⟨_, ran, run_tightens nested_linkFree (by decide) ?_ ran⟩
  refine ⟨⟨by decide +kernel, trivial⟩, fun m stepped => ?_⟩
  cases updated.symm.trans stepped
  exact ⟨⟨by decide +kernel, by decide +kernel⟩, fun _ _ => trivial⟩

/-- The entry `..` is accepted while it means `/a/b`, and means `/a` in the directory above. -/
theorem chdir_loosens_dotDot :
    let r := confined [['a'], ['b'], ['c']] rfl
    r.system.tree.LinkFree ∧ r.setting ≠ [] ∧
      ∃ r', execute step r [.update "..".toList, .chdir "..".toList] = some r' ∧
        "/a/x".toList ∈ r'.accepted ∧ "/a/x".toList ∉ r.accepted := by
  intro r
  let r₁ : Request := { r with setting := "..".toList }
  have updated : r.step (.update "..".toList) = some r₁ := step_update (by decide +kernel)
  have moved : r₁.step (.chdir "..".toList) = some _ :=
    step_chdir (d := [['a'], ['b']]) (by decide +kernel) (by decide +kernel) rfl
  refine ⟨nested_linkFree, by decide, _, (execute_cons updated).trans (execute_cons moved), ?_, ?_⟩
  · exact ⟨rfl, ⟨[['a'], ['x']], by decide +kernel⟩, by decide +kernel⟩
  rintro ⟨_, _, passes⟩
  have fails : r.system.checkOpenBasedirEx r.system.tsrmRealpath r.setting
      "/a/x".toList = false := by
    decide +kernel
  cases passes

end Request

end Jonj.Basedir
