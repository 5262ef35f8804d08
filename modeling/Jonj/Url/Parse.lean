import Jonj.Lib.CChar
import Jonj.Operators.NumericString

/-!
# URLs

`jonj_url_parse_ex`. A pointer into the string is the list of the bytes from there on, up to `ue`; a
label of the source is a function of the result so far and of the pointer `s`.
-/
namespace Jonj.Url

open List Decimal

structure JonjUrl where
  scheme : Option Bytes := none
  user : Option Bytes := none
  pass : Option Bytes := none
  host : Option Bytes := none
  port : Nat := 0
  path : Option Bytes := none
  query : Option Bytes := none
  fragment : Option Bytes := none
  deriving DecidableEq

/-- `jonj_replace_controlchars_ex` -/
def replaceControlchars (str : Bytes) : Bytes := str.map fun c => if c < 32 ∨ c = 127 then 95 else c

def isAlpha (c : UInt8) : Bool := (65 ≤ c && c ≤ 90) || (97 ≤ c && c ≤ 122)

def isSchemeChar (c : UInt8) : Bool := isAlpha c || isDigit c || c = 43 || c = 46 || c = 45

/-- `strncasecmp` finds no difference from `file`. -/
def isFile (scheme : Bytes) : Prop :=
  (scheme.map fun c => if 65 ≤ c ∧ c ≤ 90 then c + 32 else c) = [102, 105, 108, 101]

instance (scheme : Bytes) : Decidable (isFile scheme) := inferInstanceAs (Decidable (_ = _))

/-- What follows the first such byte, if something does. -/
def behind (c : UInt8) (s : Bytes) : Option Bytes :=
  if (s.dropWhile (· ≠ c)).tail = [] then none else some (s.dropWhile (· ≠ c)).tail

def justPath (ret : JonjUrl) (s : Bytes) : JonjUrl :=
  let upToFragment := s.takeWhile (· ≠ 35)
  let path := upToFragment.takeWhile (· ≠ 63)
  { ret with
    fragment := (behind 35 s).map replaceControlchars
    query := (behind 63 upToFragment).map replaceControlchars
    path := if path ≠ [] ∨ s = [] then some (replaceControlchars path) else none }

/-- `zend_memrchr`: what stands in front of the last such byte, and what behind it. -/
def memrchr (c : UInt8) : Bytes → Option (Bytes × Bytes)
  | [] => none
  | b :: s =>
    match memrchr c s with
    | some (front, back) => some (b :: front, back)
    | none => if b = c then some ([], s) else none

/-- The user and the password of the authority, and what follows the login. -/
def readLogin (authority : Bytes) : Option Bytes × Option Bytes × Bytes :=
  match memrchr 64 authority with
  | none => (none, none, authority)
  | some (login, s) =>
    let user := login.takeWhile (· ≠ 58)
    if 58 ∈ login then
      (some (replaceControlchars user), some (replaceControlchars (login.drop (user.length + 1))),
        s)
    else (some (replaceControlchars login), none, s)

/-- The port, unless it is known, and what stands in front of it. Where `s` and `e` are equal, `*s`
is no bracket. -/
def readPort (known : Nat) (s : Bytes) : Option (Nat × Bytes) :=
  if s.head? = some 91 ∧ s.getLast? = some 93 then some (known, s)
  else
    match memrchr 58 s with
    | none => some (known, s)
    | some (host, port) =>
      if known ≠ 0 then some (known, host)
      else if port.length > 5 then none
      else if port = [] then some (0, host)
      else
        let value := Operators.strtol .ten port
        if 0 < value ∧ value ≤ 65535 then some (value.toNat, host) else none

def parseHost (ret : JonjUrl) (s : Bytes) : Option JonjUrl :=
  let authority := ((s.takeWhile (· ≠ 47)).takeWhile (· ≠ 63)).takeWhile (· ≠ 35)
  let rest := s.drop authority.length
  match readPort ret.port (readLogin authority).2.2 with
  | none => none
  | some (port, host) =>
    if host = [] then none
    else
      let ret := { ret with
        user := (readLogin authority).1, pass := (readLogin authority).2.1, port, host :=
          some (replaceControlchars host) }
      if rest = [] then some ret else some (justPath ret rest)

def parseRelative (ret : JonjUrl) (str : Bytes) : Option JonjUrl :=
  if [47, 47] <+: str then parseHost ret (str.drop 2) else some (justPath ret str)

/-- `parse_port`, where `after` is what follows the colon. -/
def parsePort (str after : Bytes) : Option JonjUrl :=
  let digits := (after.take 6).takeWhile isDigit
  if 0 < digits.length ∧ digits.length < 6 ∧ (digits = after ∨ after[digits.length]? = some 47) then
    let port := Operators.strtol .ten digits
    if 0 < port ∧ port ≤ 65535 then parseHost { port := port.toNat }
      (if [47, 47] <+: str then str.drop 2 else str) else none
  else if after = [] then none
  else parseRelative {} str

def urlParseEx (str : Bytes) : Option JonjUrl :=
  let scheme := str.takeWhile (· ≠ 58)
  let after := str.drop (scheme.length + 1)
  if 58 ∉ str then parseRelative {} str
  else if scheme = [] then parsePort str after
  else if ¬ scheme.all isSchemeChar then if after ≠ [] then parsePort str after
    else some (justPath {} str)
  else
    let ret : JonjUrl := { scheme := some (replaceControlchars scheme) }
    match after with
    | [] => some ret
    | 47 :: 47 :: s =>
      if isFile scheme ∧ s.head? = some 47 then
        -- windows drive letters as in file:///c:/somedir/file.txt
        some (justPath ret (if s[2]? = some 58 then s.tail else s))
      else parseHost ret s
    | 47 :: _ => some (justPath ret after)
    | _ =>
      -- a port as in a.com:80
      let digits := after.takeWhile isDigit
      if (digits = after ∨ after[digits.length]? = some 47) ∧ digits.length + 1 < 7 then
        parsePort str after
      else some (justPath ret after)

/-! ### Which bytes the parts come from -/

theorem memrchr_eq_none {c : UInt8} {s : Bytes} (none : memrchr c s = none) : c ∉ s := by
  induction s with
  | nil => exact not_mem_nil
  | cons b s ih =>
    rw [memrchr] at none
    split at none
    · cases none
    next later =>
      refine not_mem_cons_of_ne_of_not_mem ?_ (ih later)
      rintro rfl
      simp at none

theorem memrchr_eq_some {c : UInt8} {s front back : Bytes}
    (found : memrchr c s = some (front, back)) :
    s = front ++ c :: back ∧ c ∉ back := by
  induction s generalizing front with
  | nil => cases found
  | cons b s ih =>
    rw [memrchr] at found
    split at found
    next later =>
      cases found
      obtain ⟨rfl, last⟩ := ih later
      exact ⟨rfl, last⟩
    next none =>
      split at found
      next here =>
        cases found
        exact ⟨by rw [here]; rfl, memrchr_eq_none none⟩
      · cases found

private theorem mem_readLogin {authority : Bytes} {c : UInt8}
    (member : c ∈ (readLogin authority).2.2) :
    c ∈ authority ∧ c ≠ 64 := by
  rw [readLogin] at member
  split at member
  next none =>
    refine ⟨member, ?_⟩
    rintro rfl
    exact memrchr_eq_none none member
  next login s found =>
    obtain ⟨rfl, last⟩ := memrchr_eq_some found
    have inside : c ∈ s := by
      split at member <;> exact member
    refine ⟨by simp [inside], ?_⟩
    rintro rfl
    exact last inside

private theorem mem_of_readPort {known port : Nat} {s host : Bytes}
    (read : readPort known s = some (port, host)) {c : UInt8} (member : c ∈ host) : c ∈ s := by
  rw [readPort] at read
  split at read
  · cases read
    exact member
  split at read
  · cases read
    exact member
  next front back found =>
    have inside : host = front := by grind
    rw [(memrchr_eq_some found).1, ← inside]
    exact mem_append_left _ member

def login (authority : Bytes) : Option JonjUrl := parseHost {} authority

def trailer (remainder : Bytes) : JonjUrl := if remainder = [] then {} else justPath {} remainder

variable {scheme authority remainder : Bytes}

theorem takeWhile_authority (inside : ∀ c ∈ authority, c ≠ 47 ∧ c ≠ 63 ∧ c ≠ 35)
    (starts : ∀ c ∈ remainder.head?, c = 47 ∨ c = 63 ∨ c = 35) :
    (((authority ++ remainder).takeWhile (· ≠ 47)).takeWhile (· ≠ 63)).takeWhile (· ≠ 35) =
      authority := by
  induction authority with
  | nil =>
    cases remainder with
    | nil => rfl
    | cons c remainder => rcases starts c rfl with rfl | rfl | rfl <;> simp
  | cons c authority ih =>
    obtain ⟨noSlash, noQuery, noFragment⟩ := inside c mem_cons_self
    simp only [cons_append, takeWhile_cons, noSlash, noQuery, noFragment, ne_eq, not_false_eq_true,
      decide_true, if_true]
    rw [ih fun c member => inside c (mem_cons_of_mem _ member)]

theorem takeWhile_alone (inside : ∀ c ∈ authority, c ≠ 47 ∧ c ≠ 63 ∧ c ≠ 35) :
    ((authority.takeWhile (· ≠ 47)).takeWhile (· ≠ 63)).takeWhile (· ≠ 35) = authority := by
  have ends := @takeWhile_authority authority [] inside (by simp)
  rwa [append_nil] at ends

/-- The bytes of the host are bytes of the authority and no `@`, or an underscore. -/
theorem mem_host {read : JonjUrl} {host : Bytes}
    (inside : ∀ c ∈ authority, c ≠ 47 ∧ c ≠ 63 ∧ c ≠ 35) (isRead : login authority = some read)
    (isHost : read.host = some host) {c : UInt8} (member : c ∈ host) :
    c = 95 ∨ c ∈ authority ∧ c ≠ 64 := by
  have alone := takeWhile_alone inside
  simp only [login, parseHost, alone, drop_length, if_true] at isRead
  split at isRead
  · cases isRead
  next port found isFound =>
    split at isRead
    · cases isRead
    cases isRead
    cases isHost
    obtain ⟨d, isByte, rfl⟩ := mem_map.mp member
    split
    · exact .inl rfl
    · exact .inr (mem_readLogin (mem_of_readPort isFound isByte))

private theorem parseHost_append (inside : ∀ c ∈ authority, c ≠ 47 ∧ c ≠ 63 ∧ c ≠ 35)
    (starts : ∀ c ∈ remainder.head?, c = 47 ∨ c = 63 ∨ c = 35) (ret : JonjUrl)
    (fresh : ret.port = 0) :
    parseHost ret (authority ++ remainder) = (login authority).map fun read =>
      let ret :=
  { ret with user := read.user, pass := read.pass, host := read.host, port := read.port }
      if remainder = [] then ret else justPath ret remainder := by
  have alone := takeWhile_alone inside
  simp only [login, parseHost, takeWhile_authority inside starts, alone, drop_left,
    drop_length, fresh]
  split
  · rfl
  split
  · rfl
  · split <;> simp

/-- The user, the password, the host and the port come from the authority, the rest from the
remainder. -/
theorem urlParseEx_parts (valid : scheme ≠ [] ∧ scheme.all isSchemeChar) (notFile : ¬ isFile scheme)
    (inside : ∀ c ∈ authority, c ≠ 47 ∧ c ≠ 63 ∧ c ≠ 35)
    (starts : ∀ c ∈ remainder.head?, c = 47 ∨ c = 63 ∨ c = 35) :
    (urlParseEx (scheme ++ [58, 47, 47] ++ (authority ++ remainder)) =
      (login authority).map fun read =>
      { scheme := some (replaceControlchars scheme), user := read.user, pass := read.pass,
        host := read.host, port := read.port,
        path := (trailer remainder).path, query := (trailer remainder).query, fragment :=
          (trailer remainder).fragment }) ∧
      ∀ read ∈ login authority, ∀ host ∈ read.host, ∀ c ∈ host, c ≠ 47 ∧ c ≠ 63 ∧ c ≠ 35 ∧
        c ≠ 64 := by
  constructor
  · have noColon : ∀ c ∈ scheme, decide (c ≠ 58) = true := by
      intro c member
      have isChar := all_eq_true.mp valid.2 c member
      refine decide_eq_true ?_
      rintro rfl
      exact absurd isChar (by decide)
    have front : (scheme ++ [58, 47, 47] ++ (authority ++ remainder)).takeWhile (· ≠ 58) =
        scheme := by
      rw [append_assoc, takeWhile_append_of_pos noColon]
      simp
    have after : (scheme ++ [58, 47, 47] ++ (authority ++ remainder)).drop (scheme.length + 1) =
        47 :: 47 :: (authority ++ remainder) := by
      simp
    rw [urlParseEx]
    simp only [front, after, valid, notFile]
    simp only [mem_append, mem_cons, true_or, or_true, not_true_eq_false, if_false, false_and]
    rw [parseHost_append inside starts _ rfl]
    congr 1
    funext read
    split
    next empty => simp [trailer, empty]
    next some => simp [trailer, some, justPath]
  · intro read isRead host isHost c member
    rcases mem_host inside isRead isHost member with rfl | ⟨isByte, notAt⟩
    · decide
    · obtain ⟨noSlash, noQuery, noFragment⟩ := inside c isByte
      exact ⟨noSlash, noQuery, noFragment, notAt⟩

/-- `a://b@c/` -/
theorem urlParseEx_parts_short : urlParseEx ([97] ++ [58, 47, 47] ++ ([98, 64, 99] ++ [47])) =
    (login [98, 64, 99]).map fun read =>
      { scheme := some (replaceControlchars [97]), user := read.user, pass := read.pass,
        host := read.host, port := read.port,
        path := (trailer [47]).path, query := (trailer [47]).query, fragment :=
          (trailer [47]).fragment } :=
  (urlParseEx_parts (by decide) (by decide) (by simp) (by simp)).1

/-- `FILE:///` has a path, and `FILE://?` is refused. -/
theorem urlParseEx_file :
    urlParseEx [70, 73, 76, 69, 58, 47, 47, 47] ≠ none ∧
      urlParseEx [70, 73, 76, 69, 58, 47, 47, 63] = none := by
  decide

end Jonj.Url
