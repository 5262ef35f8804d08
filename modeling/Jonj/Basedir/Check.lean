import Jonj.Basedir.Resolve

/-!
# What the check of open_basedir accepts

The check compares strings. Here its comparison is stated about locations, and from that
follows that a path that the check accepts opens a file below a listed directory.
-/
namespace Jonj.Basedir

open SlashPath List

/-! ### The comparison -/

variable {name : List Char}

private theorem within_of_starts {base : List Char} (last : base.getLast? = some '/')
    (starts : base <+: name) : within base name = true := by
  obtain ⟨front, rfl⟩ := getLast?_eq_some_iff.mp last
  obtain ⟨rest, rfl⟩ := starts
  simp [within, List.isPrefixOf_iff_prefix]

theorem within_iff {base : List Char} :
    within (base ++ ['/']) name = true ↔ base ++ ['/'] <+: name ∨ base = name := by
  constructor
  · intro accepted
    rw [within] at accepted
    split at accepted
    next starts => exact .inl (List.isPrefixOf_iff_prefix.mp starts)
    next =>
    simp only [length_append, length_singleton, decide_eq_true_eq,
      List.isPrefixOf_iff_prefix] at accepted
    obtain ⟨size, _, starts⟩ := accepted
    have front : name <+: base := by
      refine (prefix_concat_iff.mp starts).resolve_left fun whole => ?_
      rw [whole] at size
      simp at size
    exact .inr (front.eq_of_length (by omega)).symm
  · rintro (starts | rfl)
    · exact within_of_starts (by simp) starts
    · -- "/dir/" and "/dir" are the same directory
      have longer : ¬ (base ++ ['/']).isPrefixOf base = true := by
        intro starts
        have size := (List.isPrefixOf_iff_prefix.mp starts).length_le
        simp at size
      simp [within, longer, List.isPrefixOf_iff_prefix]

private theorem within_spell {base names : List (List Char)} (slash : Bool)
    (first : ∀ name ∈ base, Proper name) (second : ∀ name ∈ names, Proper name) :
    within (render base ++ ['/']) (spell names slash) = true ↔ base <+: names := by
  have noSlash := render_slash_prefix (fun x member => (first x member).noSlash)
    fun x member => (second x member).noSlash
  rw [within_iff, ← noSlash, spell]
  split
  · constructor
    · rintro (starts | doubled)
      · exact starts
      · have last := getLast_render first
        rw [doubled] at last
        simp at last
    · exact .inl
  · rw [prefix_concat_iff, append_left_inj, or_comm]

private theorem within_doubleSlash {names : List (List Char)} (slash : Bool)
    (proper : ∀ name ∈ names, Proper name) :
    within ['/', '/'] (spell names slash) = true ↔ names = [] := by
  rw [show ['/', '/'] = ['/'] ++ ['/'] from rfl, within_iff]
  cases names with
  | nil => simp [spell]
  | cons name names =>
    have first := proper name (by simp)
    obtain ⟨c, rest, rfl⟩ := exists_cons_of_ne_nil first.nonempty
    have apart : '/' ≠ c := fun same => first.noSlash (same ▸ mem_cons_self)
    cases slash <;> simp [spell, apart]

/-! ### Expanded paths -/

variable {realpath : List Char → Option (List Char)} {dir : List (List Char)}

namespace System

variable (s : System) {path e : List Char} {n : List (List Char)}

/-- The components from the root on. -/
def components (path : List Char) : List (List Char) :=
  (if absolute path then [] else s.cwd) ++ path.splitOn '/'

/-- The names that `expand_filepath` puts together. -/
def expandedNames (path : List Char) : Option (List (List Char)) :=
  if path = [] then none
  else s.tsrmRealpathR s.linkMax (s.components path).reverse .filepath false

theorem expandFilepath_eq (path : List Char) : s.expandFilepath path =
      (s.expandedNames path).map fun names => spell names (path.getLast? = some '/') := by
  by_cases empty : path = []
  · simp [expandFilepath, virtualFileEx, expandedNames, empty]
  simp only [expandFilepath, virtualFileEx, expandedNames, empty, if_false, components]
  congr 1
  funext names
  by_cases root : names = [] <;> simp [pathOf, spell, root]

private theorem noSlash_of_mem_components {c : List Char} (member : c ∈ s.components path) :
    '/' ∉ c := by
  rcases mem_append.mp member with above | inside
  · split at above
    · cases above
    · exact (s.tree.proper _ _ s.isDir c above).noSlash
  · exact not_mem_of_mem_splitOn inside

theorem expandedNames_proper (expanded : s.expandedNames path = some n) :
    ∀ name ∈ n, Proper name := by
  rw [expandedNames] at expanded
  split at expanded
  · cases expanded
  · exact tsrmRealpathR_proper s (fun c member =>
      s.noSlash_of_mem_components (mem_reverse.mp member)) expanded

theorem find_eq (f : Bool) (some : path ≠ []) :
    s.find f path = s.tree.resolve f s.maxSymlinks [] (s.components path) := by
  rw [find, if_neg some, components]
  split
  · rfl
  · exact (resolve_location s.isDir _).symm

theorem expandedNames_follows {r : Found} (found : s.find true path = some r)
    (expanded : s.expandedNames path = some n) : n = r.loc := by
  rw [expandedNames] at expanded
  split at expanded
  · cases expanded
  next some =>
    rw [find_eq s true some] at found
    exact tsrmRealpathR_follows s le_rfl found expanded

theorem find_ends {r : Found} (found : s.find true path = some r) : s.tree.Ends r := by
  rw [find] at found
  split at found
  · cases found
  refine resolve_ends ?_ found
  split
  · exact .inl s.tree.root
  · exact .inl s.isDir

/-- Only a directory can be named with a slash at the end. -/
theorem find_of_trailing {f : Bool} {r : Found} (slash : path.getLast? = some '/')
    (found : s.find f path = some r) : ∃ d, r = .at d ∧ s.tree.entry d = some .dir := by
  obtain ⟨front, rfl⟩ := getLast?_eq_some_iff.mp slash
  rw [find_eq s f (by simp)] at found
  have split : s.components (front ++ ['/']) =
      ((if absolute (front ++ ['/']) then [] else s.cwd) ++ front.splitOn '/') ++ [[]] := by
    rw [components, splitOn, splitOnP_append_cons _ _ (by simp), append_assoc]
    rfl
  rw [split] at found
  obtain ⟨d, before⟩ := resolve_prefix found
  obtain ⟨left, _, last⟩ := resolve_append before
  rw [last f [[]] (by simp), resolve_eq_walk] at found
  by_cases dir : s.tree.entry d = some .dir
  · simp only [Tree.walk, dir, ne_eq, not_true_eq_false, if_false, true_or, if_true,
      Option.some.injEq] at found
    exact ⟨d, found.symm, dir⟩
  · simp [Tree.walk, dir] at found

/-! ### Paths that are spelled out -/

theorem find_spell (f slash : Bool) (proper : ∀ name ∈ n, '/' ∉ name) :
    s.find f (spell n slash) = s.tree.resolve f s.maxSymlinks []
      (n ++ if slash = true ∨ n = [] then [[]] else []) := by
  have root : absolute (spell n slash) = true := by
    rw [absolute, head_spell]
    simp
  rw [find, if_neg (spell_ne_nil n slash), if_pos root, splitOn_spell slash proper, resolve_eq_walk]
  simp [Tree.walk, s.tree.root]

theorem find_spell_dir (f slash : Bool) (dir : s.tree.entry n = some .dir) :
    s.find f (spell n slash) = some (.at n) := by
  rw [find_spell s f slash fun name member => (s.tree.proper _ _ dir name member).noSlash,
    resolve_location dir, resolve_eq_walk]
  split <;> simp [Tree.walk, dir]

theorem find_spell_name (f : Bool) (isDir : s.tree.entry dir = some .dir) (proper : Proper name) :
    s.find f (spell (dir ++ [name]) false) = s.tree.walk f (s.tree.follow f s.maxSymlinks) dir
      [name] := by
  have noSlash : ∀ c ∈ dir ++ [name], '/' ∉ c := by
    intro c member
    rcases mem_append.mp member with above | last
    · exact (s.tree.proper _ _ isDir c above).noSlash
    · rw [mem_singleton.mp last]
      exact proper.noSlash
  rw [find_spell s f false noSlash, if_neg (by simp), append_nil, resolve_location isDir,
    resolve_eq_walk]

theorem find_spell_file (f : Bool) (file : s.tree.entry n = some .file) :
    s.find f (spell n false) = some (.at n) := by
  rcases eq_nil_or_concat n with rfl | ⟨dir, name, rfl⟩
  · rw [s.tree.root] at file
    cases file
  rw [concat_eq_append] at file ⊢
  have isDir : s.tree.entry dir = some .dir := entry_above file (by simp)
  have proper := s.tree.proper _ _ file name (by simp)
  rw [find_spell_name s f isDir proper]
  simp [Tree.walk, isDir, proper.nonempty, proper.notDot, proper.notDotDot, file]

private theorem find_spell_missing (f : Bool) (isDir : s.tree.entry dir = some .dir)
    (free : s.tree.entry (dir ++ [name]) = none) (proper : Proper name) :
    s.find f (spell (dir ++ [name]) false) = some (.missing dir name) := by
  rw [find_spell_name s f isDir proper]
  simp [Tree.walk, isDir, proper.nonempty, proper.notDot, proper.notDotDot, free]

/-! ### The two names that are compared -/

theorem resolvedName_of_found {slash : Bool}
    (proper : ∀ name ∈ n, Proper name) (real : realpath (spell n slash) = some (pathOf n)) :
    s.resolvedName realpath (spell n slash) = some (spell n slash) := by
  rw [resolvedName, real]
  simp only [getLast_spell slash proper, pathOf_eq_spell, ne_eq, getLast_spell false proper]
  by_cases root : n = []
  · simp [root, spell]
  · cases slash <;> simp [root, spell]

theorem dirPart_append {front : List Char} (noSlash : '/' ∉ name) :
    dirPart (front ++ '/' :: name) = some front := by
  have skip : (name.reverse ++ '/' :: front.reverse).dropWhile (· ≠ '/') =
      '/' :: front.reverse := by
    rw [dropWhile_append_of_pos (by
      intro c member
      have other : c ≠ '/' := fun same => noSlash (same ▸ mem_reverse.mp member)
      simpa using other)]
    simp
  have reversed : (front ++ '/' :: name).reverse = name.reverse ++ '/' :: front.reverse := by simp
  rw [dirPart, reversed, skip]
  simp

/-- A path that does not exist is judged by the directory in which it would be created. -/
theorem resolvedName_of_missing {resolved : List Char} (isDir : s.tree.entry dir = some .dir)
    (free : s.tree.entry (dir ++ [name]) = none) (proper : Proper name)
    (found : s.resolvedName s.canonical (spell (dir ++ [name]) false) = some resolved) :
    resolved = spell dir false := by
  have unread : s.readlink (spell (dir ++ [name]) false) = none := by
    rw [readlink, find_spell_missing s false isDir free proper]
  have text : spell (dir ++ [name]) false = render dir ++ '/' :: name := by
    simp [spell, render_append]
  rw [resolvedName, canonical, find_spell_missing s true isDir free proper] at found
  simp only [unread, Option.getD_none] at found
  rw [text, dirPart_append proper.noSlash, Option.bind_some, existingPart] at found
  by_cases root : dir = []
  · -- nothing is left of the path, and the empty path does not resolve
    rw [root] at found
    simp [canonical, find, dirPart] at found
  have same : render dir = spell dir false := by simp [spell, root]
  rw [same, canonical, find_spell_dir s true false isDir] at found
  rw [← pathOf_eq_spell]
  exact (Option.some.inj found).symm

/-- The location that the check takes an entry of the setting for. -/
def region (basedir : List Char) : Option (List (List Char)) :=
  s.expandedNames (if basedir = ['.'] then pathOf s.cwd else basedir)

/-- An entry that resolves to the root without a slash at its end becomes `//`. -/
def BareRoot (basedir : List Char) : Prop :=
  s.region basedir = some [] ∧ basedir.getLast? ≠ some '/'

instance (basedir : List Char) : Decidable (s.BareRoot basedir) :=
  inferInstanceAs (Decidable (_ ∧ _))

private theorem resolvedBasedir_eq (basedir : List Char) :
    s.resolvedBasedir basedir = (s.region basedir).map fun names =>
      if s.BareRoot basedir then ['/', '/'] else render names ++ ['/'] := by
  rw [resolvedBasedir, expandFilepath_eq, region]
  cases expanded : s.expandedNames (if basedir = ['.'] then pathOf s.cwd else basedir) with
  | none => rfl
  | some names =>
    have proper := s.expandedNames_proper expanded
    simp only [Option.map_some, Option.some.injEq, BareRoot, region, expanded]
    by_cases dot : basedir = ['.']
    · -- the current directory is spelled without a slash unless it is the root
      rw [dot, pathOf_eq_spell] at expanded
      have here : names = s.cwd := s.expandedNames_follows
        (s.find_spell_dir true false s.isDir) expanded
      rw [here] at proper
      rw [dot, pathOf_eq_spell, here]
      by_cases root : s.cwd = []
      · simp [root, spell]
      · simp [root, spell, getLast_render proper]
    · rw [if_neg dot]
      by_cases slash : basedir.getLast? = some '/'
      · simp [slash, spell]
      · by_cases root : names = [] <;> simp [slash, spell, root]

/-- The entry lets the location through: `//` is only the root itself. -/
structure Covers (basedir : List Char) (loc : List (List Char)) : Prop where
  below : ∃ b, s.region basedir = some b ∧ b <+: loc
  bareRoot : s.BareRoot basedir → loc = []

private theorem checkSpecificOpenBasedir_iff {slash : Bool} (proper : ∀ name ∈ n, Proper name)
    (name : (s.expandFilepath path).bind (s.resolvedName realpath) = some (spell n slash)) :
    s.checkSpecificOpenBasedir realpath e path = true ↔ s.Covers e n := by
  rw [checkSpecificOpenBasedir, name, resolvedBasedir_eq]
  cases region : s.region e with
  | none =>
    refine iff_of_false (by simp) fun covers => ?_
    obtain ⟨b, some, _⟩ := covers.below
    cases region.symm.trans some
  | some b =>
    have basePart := s.expandedNames_proper region
    simp only [Option.map_some]
    by_cases bare : s.BareRoot e
    · rw [if_pos bare, within_doubleSlash slash proper]
      constructor
      · rintro rfl
        exact ⟨⟨[], bare.1, prefix_rfl⟩, fun _ => rfl⟩
      · exact fun covers => covers.bareRoot bare
    rw [if_neg bare, within_spell slash basePart proper]
    constructor
    · exact fun below => ⟨⟨b, region, below⟩, fun bare' => absurd bare' bare⟩
    intro covers
    obtain ⟨b', same, below⟩ := covers.below
    cases region.symm.trans same
    exact below

theorem checkOpenBasedirEx_iff {slash : Bool} {setting : List Char} (set : setting ≠ [])
    (proper : ∀ name ∈ n, Proper name)
    (name : (s.expandFilepath path).bind (s.resolvedName realpath) = some (spell n slash)) :
    s.checkOpenBasedirEx realpath setting path = true ↔ ∃ e ∈ entries setting, s.Covers e n := by
  rw [checkOpenBasedirEx, if_neg set, any_eq_true]
  simp only [s.checkSpecificOpenBasedir_iff proper name]

/-! ### Soundness -/

/-- An absolute path that leads to a directory without a link on the way. -/
def LinkFreeDir (basedir : List Char) (loc : List (List Char)) : Prop :=
  absolute basedir = true ∧ s.tree.resolve true 0 [] (basedir.splitOn '/') = some (.at loc) ∧
    s.tree.entry loc = some .dir

private theorem region_of_linkFree {d b : List (List Char)} (linkFree : s.LinkFreeDir e d)
    (region : s.region e = some b) : b = d := by
  obtain ⟨root, resolved, _⟩ := linkFree
  have some : e ≠ [] := by
    rintro rfl
    cases root
  have notDot : e ≠ ['.'] := by
    rintro rfl
    cases root
  rw [System.region, if_neg notDot] at region
  have found : s.find true e = .some (.at d) := by
    rw [find, if_neg some, if_pos root]
    exact resolve_mono (Nat.zero_le _) resolved
  exact s.expandedNames_follows found region

/-- The check is made about a location on the way to the file that is opened. -/
theorem resolvedName_opens {loc : List (List Char)} (reached : s.opens path = some loc)
    (named : (s.expandFilepath path).bind (s.resolvedName s.canonical) = some name) :
    ∃ n slash, name = spell n slash ∧ n <+: loc ∧ ∀ c ∈ n, Proper c := by
  obtain ⟨expanded, expands, resolved⟩ := Option.bind_eq_some_iff.mp named
  rw [expandFilepath_eq] at expands
  obtain ⟨names, same, rfl⟩ := Option.map_eq_some_iff.mp expands
  have proper := s.expandedNames_proper same
  rw [opens] at reached
  cases found : s.find true path with
  | none => simp [found] at reached
  | some r =>
    have ends := s.find_ends found
    cases s.expandedNames_follows found same
    cases r with
    | «at» d =>
      rw [found] at reached
      cases reached
      refine ⟨loc, decide (path.getLast? = some '/'), ?_, prefix_rfl, proper⟩
      have real : s.canonical (spell loc (path.getLast? = some '/')) = some (pathOf loc) := by
        rw [canonical]
        rcases ends with dir | file
        · rw [find_spell_dir s true _ dir]
        have bare : path.getLast? ≠ some '/' := by
          intro slash
          obtain ⟨d', same, dir⟩ := s.find_of_trailing slash found
          cases same
          rw [file] at dir
          cases dir
        rw [decide_eq_false bare, find_spell_file s true file]
      exact Option.some.inj (resolved.symm.trans (s.resolvedName_of_found proper real))
    | missing dir last =>
      rw [found] at reached
      cases reached
      have bare : path.getLast? ≠ some '/' := by
        intro slash
        obtain ⟨d', same, _⟩ := s.find_of_trailing slash found
        cases same
      rw [decide_eq_false bare] at resolved
      refine ⟨dir, false, ?_, prefix_append dir [last], ?_⟩
      · exact s.resolvedName_of_missing ends.1 ends.2 (proper last (by simp [Found.loc])) resolved
      · exact fun c member => proper c (by simp [Found.loc, member])

/-- A path that the check accepts leads into a listed directory, also if the file does not
exist yet. -/
theorem checkOpenBasedirEx_sound {setting : List Char} {loc : List (List Char)} (set : setting ≠ [])
    (listed : ∀ e ∈ entries setting, ∃ d, s.LinkFreeDir e d)
    (accepted : s.checkOpenBasedirEx s.canonical setting path = true)
    (reached : s.opens path = some loc) :
    ∃ e ∈ entries setting, ∃ d, s.LinkFreeDir e d ∧ d <+: loc := by
  have some : ((s.expandFilepath path).bind (s.resolvedName s.canonical)).isSome := by
    rw [checkOpenBasedirEx, if_neg set, any_eq_true] at accepted
    obtain ⟨e, _, inside⟩ := accepted
    rw [checkSpecificOpenBasedir] at inside
    cases named : (s.expandFilepath path).bind (s.resolvedName s.canonical) with
    | none => simp [named] at inside
    | some name => rfl
  obtain ⟨name, named⟩ := Option.isSome_iff_exists.mp some
  obtain ⟨n, slash, rfl, below, proper⟩ := s.resolvedName_opens reached named
  obtain ⟨e, member, covers⟩ := (s.checkOpenBasedirEx_iff set proper named).mp accepted
  obtain ⟨d, linkFree⟩ := listed e member
  obtain ⟨b, region, above⟩ := covers.below
  cases s.region_of_linkFree linkFree region
  exact ⟨e, member, d, linkFree, above.trans below⟩

end System

/-- One directory and a link to it. -/
def linkedTree : Tree :=
  Tree.ofList [([['b']], .dir), ([['l']], .link ['b'])] (by decide) (by decide)

theorem checkOpenBasedirEx_sound_newFile :
    let s : System := ⟨linkedTree, 40, 32, [], rfl⟩
    s.checkOpenBasedirEx s.canonical "/b".toList "/l/x".toList = true ∧
      ∃ e ∈ entries "/b".toList, ∃ d, s.LinkFreeDir e d ∧ d <+: [['b'], ['x']] := by
  intro s
  have accepted : s.checkOpenBasedirEx s.canonical "/b".toList "/l/x".toList = true := by
    decide +kernel
  refine ⟨accepted, s.checkOpenBasedirEx_sound (by decide) ?_ accepted (by decide +kernel)⟩
  intro e member
  have listed : entries "/b".toList = ["/b".toList] := by decide +kernel
  rw [listed, mem_singleton] at member
  rw [member]
  exact ⟨[['b']], rfl, by decide +kernel, rfl⟩

end Jonj.Basedir
