import Jonj.Basedir.Basic

/-!
# Lemmas about path resolution

How the resolution of a path splits at its last component, and what `tsrm_realpath_r`
makes of a path that the kernel resolves.
-/
namespace Jonj.Basedir

open SlashPath List

variable {links : Nat} {r : Found}
    {next : List (List Char) → Mode → Bool → Option (List (List Char))}
    {next' : List (List Char) → List (List Char) → Option Found} {cs : List (List Char)}

section resolve

variable {t : Tree} {f : Bool} {cur D : List (List Char)} {cs : List (List Char)}
  {next : List (List Char) → List (List Char) → Option Found}

/-- What happens after a link. -/
def Tree.follow (t : Tree) (f : Bool) : Nat → List (List Char) → List (List Char) → Option Found
  | 0 => fun _ _ => none
  | links + 1 => t.resolve f links

theorem resolve_eq_walk (t : Tree) (f : Bool) (links : Nat) :
    t.resolve f links = t.walk f (t.follow f links) := by
  cases links <;> rfl

@[simp] theorem resolve_nil (t : Tree) (f : Bool) (links : Nat) (cur : List (List Char)) :
    t.resolve f links cur [] = some (.at cur) := by
  rw [resolve_eq_walk, Tree.walk]

private theorem walk_append (links : Nat) (after : ∀ cur cs, next cur cs = some (.at D) →
      ∃ left ≤ links,
      ∀ f more, more ≠ [] →
        t.follow f links cur (cs ++ more) = t.resolve f left D more)
          (found : t.walk true next cur cs = some (.at D)) :
    ∃ left ≤ links, ∀ f more, more ≠ [] → t.walk f (t.follow f links) cur (cs ++ more) =
      t.resolve f left D more := by
  fun_induction Tree.walk t true next cur cs with
  | case1 cur =>
    cases found
    exact ⟨links, le_rfl, fun f more _ => by rw [resolve_eq_walk, nil_append]⟩
  | case2 => cases found
  | case3 cur c rest dir same ih => simpa [Tree.walk, dir, same] using ih found
  | case4 cur rest dir name ih => simpa [Tree.walk, dir] using ih found
  | case5 | case6 => cases found
  | case7 cur c rest dir name up text entry last => simp at last
  | case8 cur c rest dir name up text entry last =>
    -- the components after the link are appended to its text
    obtain ⟨left, bound, same⟩ := after _ _ found
    refine ⟨left, bound, fun f more some => ?_⟩
    rw [← same f more some]
    simp [Tree.walk, dir, name, up, entry, some]
  | case9 cur c rest dir name up e other entry ih =>
    obtain ⟨left, bound, same⟩ := ih found
    refine ⟨left, bound, fun f more some => ?_⟩
    rw [← same f more some]
    cases e <;> simp_all [Tree.walk]

/-- Once the components before have led somewhere, only that place matters. -/
theorem resolve_append (found : t.resolve true links cur cs = some (.at D)) :
    ∃ left ≤ links, ∀ f more, more ≠ [] →
      t.resolve f links cur (cs ++ more) = t.resolve f left D more := by
  induction links generalizing cur cs with
  | zero => exact walk_append 0 (fun _ _ none => by cases none) found
  | succ links ih =>
    refine walk_append (links + 1) (fun _ _ later => ?_) found
    obtain ⟨left, bound, same⟩ := ih later
    exact ⟨left, by omega, same⟩

private theorem walk_prefix {c : List Char}
    (after : ∀ cur cs, next cur (cs ++ [c]) = some r → ∃ D, next' cur cs = some (.at D))
    (found : t.walk f next cur (cs ++ [c]) = some r) :
    ∃ D, t.walk true next' cur cs = some (.at D) := by
  fun_induction Tree.walk t true next' cur cs with
  | case1 cur => exact ⟨cur, rfl⟩
  | case2 cur d rest dir => simp [Tree.walk, dir] at found
  | case3 cur d rest dir same ih => exact ih (by simpa [Tree.walk, dir, same] using found)
  | case4 cur rest dir name ih => exact ih (by simpa [Tree.walk, dir] using found)
  | case5 | case6 => simp_all [Tree.walk]
  | case7 cur d rest dir name up text entry last => simp at last
  | case8 cur d rest dir name up text entry last =>
    exact after _ _ (by simpa [Tree.walk, dir, name, up, entry] using found)
  | case9 cur d rest dir name up e other entry ih =>
    cases e <;> simp_all [Tree.walk]

theorem resolve_prefix {c : List Char} (found : t.resolve f links cur (cs ++ [c]) = some r) :
    ∃ D, t.resolve true links cur cs = some (.at D) := by
  induction links generalizing cur cs with
  | zero => exact walk_prefix (fun _ _ none => by cases none) found
  | succ links ih => exact walk_prefix (fun _ _ later => ih later) found

private theorem walk_mono (after : ∀ cur cs, next cur cs = some r → next' cur cs = some r)
    (found : t.walk f next cur cs = some r) : t.walk f next' cur cs = some r := by
  fun_induction Tree.walk t f next cur cs with
  | case1 | case2 | case5 | case6 | case7 => simp_all [Tree.walk]
  | case3 cur c rest dir same ih => simpa [Tree.walk, dir, same] using ih found
  | case4 cur rest dir name ih => simpa [Tree.walk, dir] using ih found
  | case8 cur c rest dir name up text entry last =>
    simp only [Tree.walk, if_neg dir, if_neg name, if_neg up, entry, if_neg last]
    exact after _ _ found
  | case9 cur c rest dir name up e other entry ih =>
    cases e <;> simp_all [Tree.walk]

theorem resolve_mono {more : Nat} (le : links ≤ more)
    (found : t.resolve f links cur cs = some r) : t.resolve f more cur cs = some r := by
  induction links generalizing more cur cs with
  | zero =>
    rw [resolve_eq_walk] at found ⊢
    exact walk_mono (fun _ _ none => by cases none) found
  | succ links ih =>
    obtain ⟨more, rfl⟩ := Nat.exists_eq_succ_of_ne_zero (show more ≠ 0 by omega)
    exact walk_mono (fun _ _ later => ih (by omega) later) found

/-- Where no link is met, it does not matter whether the last one is followed. -/
theorem resolve_zero_noFollow {d : List (List Char)}
    (found : t.resolve true 0 cur cs = some (.at d)) : t.resolve false 0 cur cs = some (.at d) := by
  rw [Tree.resolve] at found ⊢
  fun_induction Tree.walk t true (fun _ _ => none) cur cs with
  | case1 | case2 | case5 | case6 | case7 | case8 => simp_all [Tree.walk]
  | case3 cur c rest dir same ih => simpa [Tree.walk, dir, same] using ih found
  | case4 cur rest dir name ih => simpa [Tree.walk, dir] using ih found
  | case9 cur c rest dir name up e other entry ih =>
    cases e <;> simp_all [Tree.walk]

/-! ### What is found -/

/-- Where a file is, or where it would be created. -/
def Found.loc : Found → List (List Char)
  | .at loc => loc
  | .missing dir name => dir ++ [name]

/-- A directory or a file, or a free name in a directory. -/
def Tree.Ends (t : Tree) : Found → Prop
  | .at loc => t.entry loc = some .dir ∨ t.entry loc = some .file
  | .missing dir name => t.entry dir = some .dir ∧ t.entry (dir ++ [name]) = none

private theorem entry_dropLast {loc : List (List Char)} (dir : t.entry loc = some .dir) :
    t.entry loc.dropLast = some .dir := by
  by_cases root : loc = []
  · rw [root]
    exact t.root
  · exact t.parent loc _ dir root

private theorem walk_ends
    (after : ∀ cur cs, t.entry cur = some .dir → next cur cs = some r → t.Ends r)
    (start : t.Ends (.at cur)) (found : t.walk true next cur cs = some r) : t.Ends r := by
  fun_induction Tree.walk t true next cur cs with
  | case1 cur =>
    cases found
    exact start
  | case2 | case6 => cases found
  | case3 cur c rest dir same ih => exact ih start found
  | case4 cur rest dir name ih => exact ih (.inl (entry_dropLast (not_not.mp dir))) found
  | case5 cur c dir name up entry =>
    cases found
    exact ⟨not_not.mp dir, entry⟩
  | case7 cur c rest dir name up text entry last => simp at last
  | case8 cur c rest dir name up text entry last =>
    refine after _ _ ?_ found
    split
    · exact t.root
    · exact not_not.mp dir
  | case9 cur c rest dir name up e other entry ih =>
    refine ih ?_ found
    cases e with
    | dir => exact .inl entry
    | file => exact .inr entry
    | link text => exact absurd rfl (other text)

theorem resolve_ends (start : t.Ends (.at cur)) (found : t.resolve true links cur cs = some r) :
    t.Ends r := by
  induction links generalizing cur cs with
  | zero => exact walk_ends (fun _ _ _ none => by cases none) start found
  | succ links ih => exact walk_ends (fun _ _ dir later => ih (.inl dir) later) start found

/-! ### Locations -/

theorem entry_above {first second : List (List Char)} {e : Entry}
    (entry : t.entry (first ++ second) = some e) (more : second ≠ []) :
    t.entry first = some .dir := by
  induction second using reverseRecOn generalizing e with
  | nil => exact absurd rfl more
  | append_singleton second c ih =>
    have above : t.entry (first ++ second) = some .dir := by
      have parent := t.parent _ _ entry (by simp)
      rwa [← append_assoc, dropLast_concat] at parent
    by_cases only : second = []
    · rwa [only, append_nil] at above
    · exact ih above only

private theorem walk_location (pre : List (List Char)) {loc : List (List Char)}
    (dir : t.entry (pre ++ loc) = some .dir) (more : List (List Char)) :
    t.walk f next pre (loc ++ more) = t.walk f next (pre ++ loc) more := by
  induction loc generalizing pre with
  | nil => rw [nil_append, append_nil]
  | cons c loc ih =>
    have proper := t.proper _ _ dir c (by simp)
    have above : t.entry pre = some .dir := entry_above dir (by simp)
    have assoc : pre ++ c :: loc = pre ++ [c] ++ loc := by simp
    rw [assoc] at dir ⊢
    rw [← ih (pre ++ [c]) dir]
    have here : t.entry (pre ++ [c]) = some .dir := by
      by_cases last : loc = []
      · rwa [last, append_nil] at dir
      · exact entry_above dir last
    simp [Tree.walk, above, here, proper.nonempty, proper.notDot, proper.notDotDot]

theorem resolve_location {loc : List (List Char)} (dir : t.entry loc = some .dir)
    (more : List (List Char)) :
    t.resolve f links [] (loc ++ more) = t.resolve f links loc more := by
  rw [resolve_eq_walk]
  exact walk_location [] dir more

end resolve

/-! ### `tsrm_realpath_r` -/

variable {names : List (List Char)} {isDir : Bool}

section realpath

variable (s : System)

/-- On a path without links it finds what the kernel finds. -/
theorem realpathStep_of_linkFree (next : List (List Char) → Mode → Bool → Option (List (List Char)))
    {d : List (List Char)} (found : s.tree.resolve true 0 [] cs = some (.at d)) (mode : Mode)
    (dir : isDir = true → s.tree.entry d = some .dir) :
    s.realpathStep next cs.reverse mode isDir = some d := by
  induction cs using reverseRecOn generalizing d mode isDir with
  | nil =>
    cases found
    rfl
  | append_singleton cs c ih =>
    obtain ⟨D, before⟩ := resolve_prefix found
    obtain ⟨left, bound, last⟩ := resolve_append before
    rw [Nat.le_zero.mp bound] at last
    have step := last true [c] (by simp)
    rw [found, resolve_eq_walk, Tree.walk] at step
    rw [reverse_append, reverse_singleton, singleton_append, System.realpathStep]
    split at step
    · cases step
    next isDir' =>
    have parent := not_not.mp isDir'
    split at step
    next same =>
      rw [if_pos same]
      cases step
      exact ih before mode fun _ => parent
    next name =>
    rw [if_neg name]
    split at step
    next up =>
      rw [if_pos up]
      cases step
      rw [ih before mode fun _ => parent]
      rfl
    next proper =>
    rw [if_neg proper]
    have seen : s.lstat (c :: cs.reverse).reverse = s.tree.entry d := by
      rw [reverse_cons, reverse_reverse, System.lstat,
        resolve_mono (Nat.zero_le _) (resolve_zero_noFollow found)]
    rw [seen]
    cases entry : s.tree.entry (D ++ [c]) with
    | none => simp [entry] at step
    | some e =>
      rw [entry] at step
      cases e with
      | link text => simp [Tree.follow] at step
      | dir =>
        cases step
        rw [entry]
        simp only
        rw [if_neg (by simp), ih before .filepath fun _ => parent]
        rfl
      | file =>
        cases step
        have plain : isDir = false := by
          by_contra set
          rw [entry] at dir
          have wrong := dir (by simpa using set)
          cases wrong
        rw [entry]
        simp only
        rw [if_neg (by simp [plain]), ih before .filepath fun _ => parent]
        rfl

private theorem lstat_of_resolve {rest D : List (List Char)} {c : List Char}
    (few : links ≤ s.maxSymlinks) (proper : ¬ (c = [] ∨ c = ['.']) ∧ c ≠ ['.', '.'])
    (dir : s.tree.entry D = some .dir)
    (last : ∃ left, s.tree.resolve false links [] (rest ++ [c]) = s.tree.resolve false left D [c]) :
    s.lstat (rest ++ [c]) = s.tree.entry (D ++ [c]) := by
  obtain ⟨left, same⟩ := last
  rw [resolve_eq_walk _ _ left] at same
  simp only [Tree.walk, dir, ne_eq, not_true_eq_false, if_false, if_neg proper.1,
    if_neg proper.2, true_and, if_true] at same
  rw [System.lstat]
  cases entry : s.tree.entry (D ++ [c]) with
  | none =>
    rw [entry] at same
    rw [resolve_mono few same]
  | some e =>
    have there : s.tree.resolve false links [] (rest ++ [c]) = some (.at (D ++ [c])) := by
      rw [same, entry]
      cases e <;> simp
    rw [resolve_mono few there]
    exact entry

private theorem realpathStep_follows (after : ∀ links ≤ s.maxSymlinks, ∀ cs r isDir names,
      s.tree.resolve true links [] cs = some r →
      next cs.reverse .filepath isDir = some names → names = r.loc)
    (few : links ≤ s.maxSymlinks) (found : s.tree.resolve true links [] cs = some r)
    (expanded : s.realpathStep next cs.reverse .filepath isDir = some names) : names = r.loc := by
  induction cs using reverseRecOn generalizing r isDir names with
  | nil =>
    rw [resolve_nil] at found
    cases found
    cases expanded
    rfl
  | append_singleton cs c ih =>
    obtain ⟨D, before⟩ := resolve_prefix found
    obtain ⟨left, bound, last⟩ := resolve_append before
    have step := last true [c] (by simp)
    rw [found, resolve_eq_walk, Tree.walk] at step
    rw [reverse_append, reverse_singleton, singleton_append,
      System.realpathStep] at expanded
    split at step
    · cases step
    next isDir' =>
    have dir := not_not.mp isDir'
    split at step
    next same =>
      rw [if_pos same] at expanded
      cases step
      exact ih before expanded
    next name =>
    rw [if_neg name] at expanded
    split at step
    next up =>
      rw [if_pos up] at expanded
      cases step
      obtain ⟨parent, above, rfl⟩ := Option.map_eq_some_iff.mp expanded
      exact congrArg dropLast (ih before above)
    next up =>
    have seen : s.lstat (c :: cs.reverse).reverse = s.tree.entry (D ++ [c]) := by
      rw [reverse_cons, reverse_reverse]
      exact lstat_of_resolve s few ⟨name, up⟩ dir ⟨left, last false [c] (by simp)⟩
    -- a component that is not a link is put after what becomes of the ones before it
    have plain : (s.realpathStep next cs.reverse .filepath true).map (· ++ [c]) = some names →
        names = D ++ [c] := by
      intro mapped
      obtain ⟨parent, above, rfl⟩ := Option.map_eq_some_iff.mp mapped
      rw [ih before above]
      rfl
    rw [if_neg up, seen] at expanded
    cases entry : s.tree.entry (D ++ [c]) with
    | none =>
      rw [entry] at step expanded
      cases step
      exact plain expanded
    | some e =>
      rw [entry] at step expanded
      cases e with
      | link text =>
        simp only [not_true_eq_false, and_false, if_false, append_nil] at step
        obtain ⟨l, rfl⟩ : ∃ l, left = l + 1 := by
          refine Nat.exists_eq_succ_of_ne_zero fun zero => ?_
          rw [zero] at step
          cases step
        simp only at expanded
        by_cases root : absolute text = true
        · rw [if_pos root] at step expanded
          rw [append_nil] at expanded
          exact after l (by omega) _ _ _ _ step.symm expanded
        rw [if_neg root] at step expanded
        rw [← reverse_append] at expanded
        refine after links few _ _ _ _ ?_ expanded
        rw [last true _ (splitOn_ne_nil '/' text)]
        exact resolve_mono (Nat.le_succ l) step.symm
      | dir =>
        cases step
        simp only at expanded
        split at expanded
        · cases expanded
        · exact plain expanded
      | file =>
        cases step
        simp only at expanded
        split at expanded
        · cases expanded
        · exact plain expanded

theorem tsrmRealpathR_follows {n : Nat} (few : links ≤ s.maxSymlinks)
    (found : s.tree.resolve true links [] cs = some r)
    (expanded : s.tsrmRealpathR n cs.reverse .filepath isDir = some names) : names = r.loc := by
  induction n generalizing links cs names r isDir with
  | zero =>
    exact realpathStep_follows s (fun _ _ _ _ _ _ _ none => by cases none) few found expanded
  | succ n ih =>
    refine realpathStep_follows s ?_ few found expanded
    intro links few cs r isDir names found later
    exact ih few found later

private theorem realpathStep_proper (after : ∀ cs mode isDir names, (∀ c ∈ cs, '/' ∉ c) →
      next cs mode isDir = some names →
      ∀ name ∈ names, Proper name) {mode : Mode} (noSlash : ∀ c ∈ cs, '/' ∉ c)
    (found : s.realpathStep next cs mode isDir = some names) : ∀ name ∈ names, Proper name := by
  induction cs generalizing mode isDir names with
  | nil =>
    cases found
    simp
  | cons c rest ih =>
    have later : ∀ c ∈ rest, '/' ∉ c := fun d member => noSlash d (mem_cons_of_mem c member)
    rw [System.realpathStep] at found
    split at found
    · exact ih later found
    next name =>
    split at found
    · obtain ⟨before, parent, rfl⟩ := Option.map_eq_some_iff.mp found
      exact fun name member => ih later parent name (dropLast_subset _ member)
    next up =>
    rw [not_or] at name
    have here : Proper c := ⟨name.1, noSlash c mem_cons_self, name.2, up⟩
    have extend : ∀ {before : Option (List (List Char))},
        (∀ ns, before = some ns → ∀ name ∈ ns, Proper name) →
        before.map (· ++ [c]) = some names → ∀ name ∈ names, Proper name := by
      intro before proper mapped
      obtain ⟨ns, same, rfl⟩ := Option.map_eq_some_iff.mp mapped
      intro name member
      rcases mem_append.mp member with inside | last
      · exact proper ns same name inside
      · rw [mem_singleton.mp last]
        exact here
    split at found
    · split at found
      · cases found
      · exact extend (fun ns same => ih later same) found
    next text _ =>
      refine after _ _ _ _ ?_ found
      intro d member
      rcases mem_append.mp member with inside | outside
      · exact not_mem_of_mem_splitOn (mem_reverse.mp inside)
      · split at outside
        · cases outside
        · exact later d outside
    next e _ _ =>
      split at found
      · cases found
      · exact extend (fun ns same => ih later same) found

theorem tsrmRealpathR_proper {mode : Mode} (noSlash : ∀ c ∈ cs, '/' ∉ c)
    (found : s.tsrmRealpathR links cs mode isDir = some names) : ∀ name ∈ names, Proper name := by
  induction links generalizing cs names mode isDir with
  | zero => exact realpathStep_proper s (fun _ _ _ _ _ none => by cases none) noSlash found
  | succ links ih =>
    exact realpathStep_proper s (fun _ _ _ _ plain later => ih plain later) noSlash found

end realpath

end Jonj.Basedir
