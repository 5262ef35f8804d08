import Jonj.Basedir.Tree

/-!
# open_basedir

`expand_filepath`, the check of a path against the setting, and the handler that changes
the setting at run time. The realpath cache is off while the setting is in force. Paths are
shorter than `MAXPATHLEN`, and `getcwd` succeeds.
-/
namespace Jonj.Basedir

open SlashPath

/-- `use_realpath`; `CWD_EXPAND` is not used here. -/
inductive Mode where
  | filepath
  | realpath
  deriving DecidableEq, Repr

namespace System

variable (s : System)

/-- `tsrm_realpath_r` on an absolute path, whose components are given from the last one
on. `next` goes on after a link. -/
def realpathStep (next : List (List Char) → Mode → Bool → Option (List (List Char))) :
    List (List Char) → Mode → Bool → Option (List (List Char))
  | [], _, _ => some []
  | c :: rest, mode, isDir =>
    if c = [] ∨ c = ['.'] then realpathStep next rest mode true
    else if c = ['.', '.'] then (realpathStep next rest mode true).map List.dropLast
    else
      match s.lstat (c :: rest).reverse with
      | none =>
        -- the resolution goes on anyway, unless the file has to exist
        if mode = .realpath then none
        else (realpathStep next rest mode true).map (· ++ [c])
      | some (.link text) =>
        next ((text.splitOn '/').reverse ++ if absolute text then [] else rest) mode isDir
      | some e =>
        if isDir ∧ e ≠ .dir then none
        else (realpathStep next rest .filepath true).map (· ++ [c])

/-- With the number of links that may still be followed. -/
def tsrmRealpathR : Nat → List (List Char) → Mode → Bool → Option (List (List Char))
  | 0 => s.realpathStep fun _ _ _ => none
  | links + 1 => s.realpathStep (tsrmRealpathR links)

def virtualFileEx (mode : Mode) (path : List Char) : Option (List Char) :=
  if path = [] then none
  else
    let components := (if absolute path then [] else s.cwd) ++ path.splitOn '/'
    (s.tsrmRealpathR s.linkMax components.reverse mode false).map fun names =>
      if mode ≠ .realpath ∧ path.getLast? = some '/' ∧ names ≠ [] then render names ++ ['/']
      else pathOf names

def expandFilepath (path : List Char) : Option (List Char) := s.virtualFileEx .filepath path

/-- `tsrm_realpath`; `realpath("")` returns the current directory. -/
def tsrmRealpath (path : List Char) : Option (List Char) :=
  s.virtualFileEx .realpath (if path = [] then pathOf s.cwd else path)

end System

/-- The path up to its last slash. -/
def dirPart (path : List Char) : Option (List Char) :=
  match path.reverse.dropWhile (· ≠ '/') with
  | [] => none
  | _ :: front => some front.reverse

/-- The path is cut until something resolves. Each round makes it shorter. -/
def existingPart (realpath : List Char → Option (List Char)) : Nat → List Char → Option (List Char)
  | 0, _ => none
  | fuel + 1, path =>
    match realpath path with
    | some name => some name
    | none => (dirPart path).bind (existingPart realpath fuel)

namespace System

variable (s : System) (realpath : List Char → Option (List Char))

/-- The `resolved_name` of the check for the expanded path. -/
def resolvedName (expanded : List Char) : Option (List Char) :=
  match realpath expanded with
  | some name =>
    some (if expanded.getLast? = some '/' ∧ name.getLast? ≠ some '/' then name ++ ['/'] else name)
  | none =>
    -- the text of a broken link takes the place of the path
    let pathTmp := (s.readlink expanded).getD expanded
    (dirPart pathTmp).bind fun path => existingPart realpath (path.length + 1) path

def resolvedBasedir (basedir : List Char) : Option (List Char) :=
  let localBasedir := if basedir = ['.'] then pathOf s.cwd else basedir
  (s.expandFilepath localBasedir).map fun base =>
    if basedir.getLast? = some '/' then
      if base.getLast? ≠ some '/' then base ++ ['/'] else base
    else base ++ ['/']

end System

/-- The comparison of the two names. -/
def within (base name : List Char) : Bool :=
  if base.isPrefixOf name then
    ¬ (name.length > base.length ∧ name[base.length - 1]? ≠ some '/')
  else base.length = name.length + 1 ∧ base.getLast? = some '/' ∧ name.isPrefixOf base

namespace System

variable (s : System) (realpath : List Char → Option (List Char))

/-- Whether `jonj_check_specific_open_basedir` returns 0. -/
def checkSpecificOpenBasedir (basedir path : List Char) : Bool :=
  match (s.expandFilepath path).bind (s.resolvedName realpath), s.resolvedBasedir basedir with
  | some name, some base => within base name
  | _, _ => false

end System

/-- The entries that the loops over a setting visit: they stop at the end of the string. -/
def entries (setting : List Char) : List (List Char) :=
  let parts := setting.splitOn ':'
  if parts.getLast? = some [] then parts.dropLast else parts

namespace System

variable (s : System) (realpath : List Char → Option (List Char))

/-- Whether `jonj_check_open_basedir_ex` returns 0. -/
def checkOpenBasedirEx (setting path : List Char) : Bool :=
  if setting = [] then true
  else (entries setting).any fun basedir => s.checkSpecificOpenBasedir realpath basedir path

/-- `OnUpdateBaseDir` at run time; `none` is a failure. -/
def onUpdateBaseDir (setting newValue : List Char) : Option (List Char) :=
  if setting = [] then some newValue
  else if newValue = [] then none
  else if (entries newValue).all fun path => s.checkOpenBasedirEx realpath setting path then
    some newValue
  else none

end System

end Jonj.Basedir
