import Jonj.Lib.SlashPath

/-!
# File trees and path resolution

What the operating system does with a path: it starts at the root or at the current
directory, takes one component after the other, and follows a symbolic link from the
directory that contains it.
-/
namespace Jonj.Basedir

open SlashPath

inductive Entry where
  | dir
  | file
  | link (text : List Char)
  deriving DecidableEq, Repr

/-- A location is the list of names that leads to it from the root. -/
structure Tree where
  entry : List (List Char) → Option Entry
  root : entry [] = some .dir
  parent : ∀ loc e, entry loc = some e → loc ≠ [] → entry loc.dropLast = some .dir
  proper : ∀ loc e, entry loc = some e → ∀ name ∈ loc, Proper name

def Tree.ofList (l : List (List (List Char) × Entry))
    (closed : ∀ x ∈ l, x.1.dropLast = [] ∨ l.lookup x.1.dropLast = some .dir)
    (proper : ∀ x ∈ l, ∀ name ∈ x.1, Proper name) : Tree where
  entry loc := if loc = [] then some .dir else l.lookup loc
  root := if_pos rfl
  parent := by
    intro loc e entry notRoot
    rw [if_neg notRoot] at entry
    obtain ⟨before, after, rfl, _⟩ := List.lookup_eq_some_iff.mp entry
    split
    · rfl
    next deeper => exact (closed (loc, e) (by simp)).resolve_left deeper
  proper := by
    intro loc e entry
    split at entry
    next root => simp [root]
    next =>
      obtain ⟨before, after, rfl, _⟩ := List.lookup_eq_some_iff.mp entry
      exact proper (loc, e) (by simp)

/-- A file that exists, or the place where a file can be created. -/
inductive Found where
  | at (loc : List (List Char))
  | missing (dir : List (List Char)) (name : List Char)
  deriving DecidableEq, Repr

def absolute (path : List Char) : Bool := path.head? = some '/'

/-- From directory `cur` along the components; `next` goes on after a link. The last
component is not followed if it is a link and `follow` is not set. -/
def Tree.walk (t : Tree) (follow : Bool)
    (next : List (List Char) → List (List Char) → Option Found) :
    List (List Char) → List (List Char) → Option Found
  | cur, [] => some (.at cur)
  | cur, c :: rest =>
    if t.entry cur ≠ some .dir then none
    else if c = [] ∨ c = ['.'] then t.walk follow next cur rest
    else if c = ['.', '.'] then t.walk follow next cur.dropLast rest
    else
      match t.entry (cur ++ [c]) with
      | none => if rest = [] then some (.missing cur c) else none
      | some (.link text) =>
        if rest = [] ∧ ¬ follow then some (.at (cur ++ [c]))
        else next (if absolute text then [] else cur) (text.splitOn '/' ++ rest)
      | some _ => t.walk follow next (cur ++ [c]) rest

/-- At most as many links are followed as the number says. -/
def Tree.resolve (t : Tree) (follow : Bool) :
    Nat → List (List Char) → List (List Char) → Option Found
  | 0 => t.walk follow fun _ _ => none
  | links + 1 => t.walk follow (t.resolve follow links)

/-- A file tree with a current directory. -/
structure System where
  tree : Tree
  /-- How many links the kernel follows before it gives up. -/
  maxSymlinks : Nat
  /-- `LINK_MAX`. -/
  linkMax : Nat
  cwd : List (List Char)
  isDir : tree.entry cwd = some .dir

namespace System

variable (s : System)

def find (follow : Bool) (path : List Char) : Option Found :=
  if path = [] then none
  else s.tree.resolve follow s.maxSymlinks (if absolute path then [] else s.cwd) (path.splitOn '/')

/-- `lstat` of the absolute path with these components. -/
def lstat (components : List (List Char)) : Option Entry :=
  match s.tree.resolve false s.maxSymlinks [] components with
  | some (.at loc) => s.tree.entry loc
  | _ => none

def readlink (path : List Char) : Option (List Char) :=
  match s.find false path with
  | some (.at loc) =>
    match s.tree.entry loc with
    | some (.link text) => some text
    | _ => none
  | _ => none

def canonical (path : List Char) : Option (List Char) :=
  match s.find true path with
  | some (.at loc) => some (pathOf loc)
  | _ => none

/-- The file that `open` reaches or creates. -/
def opens (path : List Char) : Option (List (List Char)) :=
  match s.find true path with
  | some (.at loc) => some loc
  | some (.missing dir name) => some (dir ++ [name])
  | none => none

end System

end Jonj.Basedir
