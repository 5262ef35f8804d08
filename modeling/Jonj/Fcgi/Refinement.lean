import Jonj.Fcgi.Hash

/-!
# The table is a map of its keys

A key of the table is a name together with the hash value that it was stored under. On such keys
the operations are those of a finite map in order of insertion, whatever the hash values are.
-/

namespace Jonj.Fcgi

open SinglyLinked List Function

/-! ### Copies of strings -/

namespace Data

/-- The segments hold a string of the length, with its terminator, that no later copy touches. -/
def Owns (d : Data) (p : Ptr) (len : Nat) : Prop :=
  p.1 < d.seg ∨ (p.1 = d.seg ∧ p.2 + len + 1 ≤ d.pos)

theorem length_read (d : Data) (p : Ptr) (len : Nat) : (d.read p len).length = len := by
  simp [read]

/-- A new segment is begun if the string does not fit. -/
theorem reserve_cases (d : Data) (strLen : UInt32) :
    (d.reserve strLen).bytes = d.bytes ∧ ((d.reserve strLen).seg = d.seg + 1 ∧
      (d.reserve strLen).pos = 0 ∨
      d.reserve strLen = d) := by
  rw [reserve]
  split
  · exact ⟨rfl, .inl ⟨rfl, rfl⟩⟩
  · exact ⟨rfl, .inr rfl⟩

/-- The terminator is counted; only the longest length wraps around. -/
theorem strndup_fits (d : Data) (str : Bytes) {strLen : UInt32}
    (short : strLen.toNat < 2 ^ 32 - 1) :
    (d.strndup str strLen).1.pos ≤ (d.strndup str strLen).1.size := by
  have noWrap : (strLen + 1).toNat = strLen.toNat + 1 := by
    exact Nat.mod_eq_of_lt (by simpa using by omega)
  simp only [strndup, reserve, write]
  split
  next =>
    simp only
    split
    next large => omega
    next small =>
    have := UInt32.not_lt.mp small
    rw [UInt32.le_iff_toNat_le] at this
    omega
  next room => omega

theorem owns_strndup_self (d : Data) (str : Bytes) (strLen : UInt32) :
    (d.strndup str strLen).1.Owns (d.strndup str strLen).2 strLen.toNat :=
  .inr ⟨rfl, Nat.le_refl _⟩

/-- What has just been copied can be read. -/
theorem read_strndup_self (d : Data) (str : Bytes) {strLen : UInt32}
    (len : strLen.toNat = str.length) :
    (d.strndup str strLen).1.read (d.strndup str strLen).2 strLen.toNat = str := by
  apply ext_getElem
  · rw [length_read, len]
  · intro i below below'
    have inside : i < str.length := below'
    simp only [read, strndup, write, len, take_length, getElem_map, getElem_range,
      Nat.le_add_right, and_self, if_true, Nat.add_sub_cancel_left]
    rw [getElem?_append_left inside, getElem?_eq_getElem inside, Option.getD_some]

/-- Later copies leave a string as it is. -/
theorem Owns.strndup {d : Data} {p : Ptr} {n : Nat} (owns : d.Owns p n) (str : Bytes)
    (strLen : UInt32) :
    (d.strndup str strLen).1.Owns p n ∧ (d.strndup str strLen).1.read p n = d.read p n := by
  obtain ⟨bytes, place⟩ := reserve_cases d strLen
  -- the copy begins where the strings of its segment end
  have apart : (d.reserve strLen).Owns p n := by
    rcases place with ⟨seg, pos⟩ | same
    · refine .inl ?_
      rcases owns with earlier | ⟨current, -⟩ <;> omega
    · rw [same]
      exact owns
  constructor
  · rcases apart with earlier | ⟨current, below⟩
    · exact .inl earlier
    · refine .inr ⟨current, ?_⟩
      simp only [Data.strndup]
      omega
  refine map_congr_left fun i member => ?_
  have inside := mem_range.mp member
  have outside : ¬ (p.1 = (d.reserve strLen).seg ∧ (d.reserve strLen).pos ≤ p.2 + i) := by
    rcases apart with earlier | ⟨-, above⟩ <;> omega
  simp only [Data.strndup, Data.write, if_neg outside, bytes]

end Data

variable {h : Hash} {a p : Addr} {m : OrderedMap (UInt32 × Bytes) Bytes} {all : List Addr}
    {varLen hashValue : UInt32} {var : Bytes} {k : UInt32 × Bytes}

namespace Hash

/-! ### Buckets and entries -/

def place (a : Addr) : Nat := a.1 * hashTableSize + a.2

def key (h : Hash) (a : Addr) : UInt32 × Bytes :=
  ((h.mem a).hashValue, h.data.read (h.mem a).var (h.mem a).varLen.toNat)

def entry (h : Hash) (a : Addr) : Option ((UInt32 × Bytes) × Bytes) :=
  (h.mem a).val.map fun val => (h.key a, h.data.read val (h.mem a).valLen.toNat)

/-- A chain of the table: its links, and the buckets on it. -/
structure Chain (h : Hash) (all : List Addr) (i : Nat) (c : List Addr) : Prop where
  linked : Linked (fun a => (h.mem a).next) (h.hashTable i) c
  nodup : c.Nodup
  mem_iff : ∀ a, a ∈ c ↔ a ∈ all ∧ (h.mem a).val ≠ none ∧ slot (h.mem a).hashValue = i

/-- The buckets in use are on the list, and those that were not deleted are on their chains. -/
structure Wf (h : Hash) (all : List Addr) : Prop where
  linked : Linked (fun a => (h.mem a).listNext) h.list all
  nodup : all.Nodup
  allocated : ∀ a ∈ all, a.2 < hashTableSize ∧ place a < h.bound
  idx : h.idx ≤ hashTableSize
  chains : ∀ i, ∃ c, Chain h all i c
  var : ∀ a ∈ all, h.data.Owns (h.mem a).var (h.mem a).varLen.toNat
  val : ∀ a ∈ all, ∀ val, (h.mem a).val = some val → h.data.Owns val (h.mem a).valLen.toNat
  distinct : ∀ a ∈ all, ∀ b ∈ all, (h.mem a).val ≠ none → (h.mem b).val ≠ none →
    h.key a = h.key b → a = b

/-- The table holds the entries of the map, the newest first. -/
def Represents (h : Hash) (m : OrderedMap (UInt32 × Bytes) Bytes) : Prop :=
  ∃ all, h.Wf all ∧ all.filterMap h.entry = m.entries.reverse

/-- A chain has at most as many buckets as were handed out, so that the bound suffices. -/
theorem Wf.length_le {c : List Addr} (wf : h.Wf all) (nodup : c.Nodup) (subset : ∀ a ∈ c, a ∈ all) :
    c.length ≤ h.bound := by
  have distinct : (c.map place).Nodup := by
    apply Nodup.map_on _ nodup
    intro a inC b inC' same
    have first := (wf.allocated a (subset a inC)).1
    have second := (wf.allocated b (subset b inC')).1
    unfold place hashTableSize at *
    ext <;> omega
  have inRange : c.map place ⊆ range h.bound := by
    intro n member
    obtain ⟨a, inC, rfl⟩ := mem_map.mp member
    exact mem_range.mpr (wf.allocated a (subset a inC)).2
  have bound := (distinct.subperm inRange).length_le
  rwa [length_map, length_range] at bound

/-! ### Looking up -/

theorem matches_iff (h : Hash) (len : varLen.toNat = var.length) (a : Addr) :
    h.matches_ hashValue var varLen a = true ↔ h.key a = (hashValue, var) := by
  simp only [matches_, Bool.and_eq_true, decide_eq_true_eq, key, Prod.mk.injEq, len, take_length]
  constructor
  · rintro ⟨⟨hash, length⟩, bytes⟩
    rw [length, len]
    exact ⟨hash, bytes⟩
  rintro ⟨hash, bytes⟩
  have lengths := congrArg length bytes
  rw [Data.length_read] at lengths
  have same : (h.mem a).varLen = varLen := UInt32.toNat_inj.mp (lengths.trans len.symm)
  rw [same, len] at bytes
  exact ⟨⟨hash, same⟩, bytes⟩

/-- The search is over after the length of the chain. -/
theorem find_eq {c : List Addr} {n : Nat}
    {p : Option Addr} (linked : Linked (fun a => (h.mem a).next) p c) (enough : c.length ≤ n) :
    h.find hashValue var varLen n p = c.find? (h.matches_ hashValue var varLen) := by
  induction c generalizing n p with
  | nil =>
    obtain rfl : p = none := linked
    cases n <;> rfl
  | cons a c ih =>
    obtain ⟨rfl, rest⟩ := linked
    cases n with
    | zero => simp at enough
    | succ n =>
      rw [find, find?_cons]
      split
      next found => simp [found]
      next notFound =>
        simp only [notFound]
        exact ih rest (by simpa using enough)

/-- What is found is in use and has the key. -/
theorem Wf.find_some (wf : h.Wf all) (len : varLen.toNat = var.length)
    (found : h.find hashValue var varLen h.bound (h.hashTable (slot hashValue)) = some a) :
    a ∈ all ∧ (h.mem a).val ≠ none ∧ h.key a = (hashValue, var) := by
  obtain ⟨c, chain⟩ := wf.chains (slot hashValue)
  have subset : ∀ a ∈ c, a ∈ all := fun a member => ((chain.mem_iff a).mp member).1
  rw [find_eq chain.linked (wf.length_le chain.nodup subset)] at found
  have onChain := (chain.mem_iff a).mp (mem_of_find?_eq_some found)
  exact ⟨onChain.1, onChain.2.1, (h.matches_iff len a).mp (find?_some found)⟩

/-- What is not found is nowhere in the table. -/
theorem Wf.find_none (wf : h.Wf all) (len : varLen.toNat = var.length)
    (notFound : h.find hashValue var varLen h.bound (h.hashTable (slot hashValue)) = none)
    (member : a ∈ all) (live : (h.mem a).val ≠ none) : h.key a ≠ (hashValue, var) := by
  obtain ⟨c, chain⟩ := wf.chains (slot hashValue)
  have subset : ∀ a ∈ c, a ∈ all := fun a member => ((chain.mem_iff a).mp member).1
  rw [find_eq chain.linked (wf.length_le chain.nodup subset), find?_eq_none] at notFound
  intro isKey
  have onChain : a ∈ c := (chain.mem_iff a).mpr ⟨member, live, by rw [(Prod.mk.inj isKey).1]⟩
  exact notFound a onChain ((h.matches_iff len a).mpr isKey)

theorem entry_eq_some_iff {v : Bytes} : h.entry a = some (k, v) ↔
      h.key a = k ∧ ∃ val, (h.mem a).val = some val ∧
        h.data.read val (h.mem a).valLen.toNat = v := by
  simp only [entry, Option.map_eq_some_iff, Prod.mk.injEq]
  constructor
  · rintro ⟨val, isVal, isKey, bytes⟩
    exact ⟨isKey, val, isVal, bytes⟩
  · rintro ⟨isKey, val, isVal, bytes⟩
    exact ⟨val, isVal, isKey, bytes⟩

/-- The entries of the map are the buckets that have a value. -/
theorem mem_entries_iff (entries : all.filterMap h.entry = m.entries.reverse) {v : Bytes} :
    (k, v) ∈ m.entries ↔ ∃ a ∈ all, h.entry a = some (k, v) := by
  rw [← mem_reverse, ← entries, mem_filterMap]

theorem mem_keys_iff (entries : all.filterMap h.entry = m.entries.reverse) :
    k ∈ m.keys ↔ ∃ a ∈ all, (h.mem a).val ≠ none ∧ h.key a = k := by
  rw [OrderedMap.keys, mem_map]
  constructor
  · rintro ⟨⟨_, v⟩, inMap, rfl⟩
    obtain ⟨a, member, isEntry⟩ := (mem_entries_iff entries).mp inMap
    obtain ⟨isKey, val, isVal, -⟩ := entry_eq_some_iff.mp isEntry
    exact ⟨a, member, by simp [isVal], isKey⟩
  rintro ⟨a, member, live, isKey⟩
  obtain ⟨val, isVal⟩ := Option.ne_none_iff_exists'.mp live
  exact ⟨(k, _), (mem_entries_iff entries).mpr
    ⟨a, member, entry_eq_some_iff.mpr ⟨isKey, val, isVal, rfl⟩⟩, rfl⟩

/-- `fcgi_hash_get` looks up in the map. -/
theorem Represents.get_eq (rep : h.Represents m) (len : varLen.toNat = var.length) :
    h.get hashValue var varLen = m.lookup (hashValue, var) := by
  obtain ⟨all, wf, entries⟩ := rep
  rw [get]
  cases found : h.find hashValue var varLen h.bound (h.hashTable (slot hashValue)) with
  | none =>
    symm
    rw [Option.bind_eq_bind, Option.bind_none, OrderedMap.lookup_eq_none_iff, mem_keys_iff entries]
    rintro ⟨a, member, live, isKey⟩
    exact wf.find_none len found member live isKey
  | some a =>
    obtain ⟨member, live, isKey⟩ := wf.find_some len found
    obtain ⟨val, isVal⟩ := Option.ne_none_iff_exists'.mp live
    symm
    simp only [Option.bind_eq_bind, Option.bind_some, isVal]
    rw [OrderedMap.lookup_eq_some_iff, mem_entries_iff entries]
    exact ⟨a, member, entry_eq_some_iff.mpr ⟨isKey, val, isVal, rfl⟩⟩

/-- `fcgi_hash_apply` visits the entries, the newest first. -/
theorem Represents.apply_eq (rep : h.Represents m) :
    h.apply = m.entries.reverse.map fun e => (e.1.2, e.2) := by
  obtain ⟨all, wf, entries⟩ := rep
  have walk : ∀ (l : List Addr) (n : Nat) (p : Option Addr),
    Linked (fun a => (h.mem a).listNext) p l →
      l.length ≤ n → h.applyFrom n p = (l.filterMap h.entry).map fun e => (e.1.2, e.2) := by
    intro l
    induction l with
    | nil =>
      intro n p linked _
      obtain rfl : p = none := linked
      cases n <;> rfl
    | cons a l ih =>
      intro n p linked enough
      obtain ⟨rfl, rest⟩ := linked
      cases n with
      | zero => simp at enough
      | succ n =>
        rw [applyFrom, ih n _ rest (by simpa using enough)]
        cases isVal : (h.mem a).val <;> simp [entry, key, isVal]
  rw [apply, walk all h.bound h.list wf.linked (wf.length_le wf.nodup fun _ => id), entries]

/-! ### Storing -/

theorem setVal_mem (h : Hash) (p : Addr) (data : Data) (valLen : UInt32) (val : Option Ptr)
    (a : Addr) :
    (h.setVal p data valLen val).mem a = { h.mem a with
      valLen := if a = p then valLen else (h.mem a).valLen
      val := if a = p then val else (h.mem a).val } := by
  by_cases self : a = p
  · subst self
    simp [setVal]
  · simp [setVal, self]

/-- A new value for a key that is present. -/
theorem Wf.replace (wf : h.Wf all) (member : p ∈ all) (live : (h.mem p).val ≠ none) (str : Bytes)
    {strLen : UInt32} (len : strLen.toNat = str.length) :
    (h.setVal p (h.data.strndup str strLen).1 strLen (some (h.data.strndup str strLen).2)).Wf all ∧
      ∀ a ∈ all, (h.setVal p (h.data.strndup str strLen).1 strLen
        (some (h.data.strndup str strLen).2)).entry a =
        if a = p then some (h.key p, str) else h.entry a := by
  generalize copied : h.data.strndup str strLen = copy
  have keeps : ∀ q n, h.data.Owns q n → copy.1.Owns q n ∧ copy.1.read q n = h.data.read q n := by
    intro q n owns
    rw [← copied]
    exact owns.strndup str strLen
  have copyOwned : copy.1.Owns copy.2 strLen.toNat := copied ▸ h.data.owns_strndup_self str strLen
  have copyRead : copy.1.read copy.2 strLen.toNat = str := copied ▸ h.data.read_strndup_self str len
  have key : ∀ a ∈ all, (h.setVal p copy.1 strLen (some copy.2)).key a = h.key a := by
    intro a inAll
    simp only [Hash.key, setVal_mem]
    exact congrArg (Prod.mk _) (keeps _ _ (wf.var a inAll)).2
  have liveIff : ∀ a, ((h.setVal p copy.1 strLen (some copy.2)).mem a).val ≠ none ↔
      (h.mem a).val ≠ none := by
    intro a
    by_cases self : a = p
    · subst self
      simp [setVal_mem, live]
    · simp [setVal_mem, self]
  constructor
  · constructor
    · exact wf.linked.congr fun a _ => by rw [setVal_mem]
    · exact wf.nodup
    · exact wf.allocated
    · exact wf.idx
    · intro i
      obtain ⟨c, chain⟩ := wf.chains i
      refine ⟨c, chain.linked.congr fun a _ => by rw [setVal_mem], chain.nodup, fun a => ?_⟩
      rw [chain.mem_iff, liveIff, setVal_mem]
    · intro a inAll
      rw [setVal_mem]
      exact (keeps _ _ (wf.var a inAll)).1
    · intro a inAll val isVal
      by_cases self : a = p
      · simp only [setVal_mem, if_pos self, Option.some.injEq] at isVal ⊢
        exact isVal ▸ copyOwned
      · simp only [setVal_mem, if_neg self] at isVal ⊢
        exact (keeps _ _ (wf.val a inAll val isVal)).1
    · intro a inAll b inAll' liveA liveB same
      rw [liveIff] at liveA liveB
      rw [key a inAll, key b inAll'] at same
      exact wf.distinct a inAll b inAll' liveA liveB same
  · intro a inAll
    split
    next self =>
      subst self
      simp only [entry, key a inAll, setVal_mem, if_true, Option.map_some]
      exact congrArg (fun v => some (h.key a, v)) copyRead
    next different =>
    simp only [entry, key a inAll, setVal_mem, if_neg different]
    cases isVal : (h.mem a).val with
    | none => rfl
    | some val =>
      exact congrArg (fun v => some (h.key a, v)) (keeps _ _ (wf.val a inAll val isVal)).2

/-- The next bucket, behind all of the buckets in use. -/
theorem fresh_place (idx : h.idx ≤ hashTableSize) :
    h.fresh.2 < hashTableSize ∧ place h.fresh = h.bound := by
  unfold fresh place bound
  unfold hashTableSize at *
  split
  next full =>
    constructor
    · exact Nat.zero_lt_succ 127
    · omega
  next room =>
  constructor
  · omega
  · rfl

/-- A new bucket, in front of its chain and of the list. -/
def withNew (h : Hash) (data : Data) (b : Bucket) : Hash where
  hashTable := update h.hashTable (slot b.hashValue) (some h.fresh)
  list := some h.fresh
  block := h.fresh.1
  idx := h.fresh.2 + 1
  mem := update h.mem h.fresh b
  data := data

section new

variable {data : Data} {b : Bucket}

theorem withNew_self : (h.withNew data b).mem h.fresh = b := update_self _ _ _

/-- The place of the new bucket is behind those of the old ones. -/
theorem Wf.fresh_notMem (wf : h.Wf all) : h.fresh ∉ all := by
  intro member
  have used := (wf.allocated _ member).2
  have next := (fresh_place wf.idx).2
  omega

theorem Wf.withNew_mem (wf : h.Wf all) {a : Addr} (member : a ∈ all) :
    (h.withNew data b).mem a = h.mem a := by
  refine update_of_ne ?_ _ _
  rintro rfl
  exact wf.fresh_notMem member

/-- The new bucket is in front of its own chain; the others stay as they are. -/
theorem Wf.withNew_chain (wf : h.Wf all) (live : b.val ≠ none)
    (next : b.next = h.hashTable (slot b.hashValue)) (i : Nat) :
    ∃ c, Chain (h.withNew data b) (h.fresh :: all) i c := by
  obtain ⟨c, chain⟩ := wf.chains i
  have onChain : ∀ a ∈ c, a ∈ all := fun a member => ((chain.mem_iff a).mp member).1
  have linked : Linked (fun a => ((h.withNew data b).mem a).next) (h.hashTable i) c :=
    chain.linked.congr fun a member => by rw [wf.withNew_mem (onChain a member)]
  have old : ∀ a, a ∈ c ↔ a ∈ all ∧ ((h.withNew data b).mem a).val ≠ none ∧
      slot ((h.withNew data b).mem a).hashValue = i := by
    intro a
    rw [chain.mem_iff]
    exact and_congr_right fun member => by rw [wf.withNew_mem member]
  by_cases here : slot b.hashValue = i
  · subst here
    refine ⟨h.fresh :: c, ⟨update_self _ _ _, ?_⟩, ?_, fun a => ?_⟩
    · simp only [withNew_self, next]
      exact linked
    · exact nodup_cons.mpr ⟨fun member => wf.fresh_notMem (onChain _ member), chain.nodup⟩
    · rw [mem_cons, mem_cons, old a, or_and_right]
      refine or_congr_left ⟨?_, And.left⟩
      rintro rfl
      rw [withNew_self]
      exact ⟨rfl, live, rfl⟩
  · have unchanged : (h.withNew data b).hashTable i = h.hashTable i :=
      update_of_ne (Ne.symm here) _ _
    refine ⟨c, by rw [unchanged]; exact linked, chain.nodup, fun a => ?_⟩
    rw [mem_cons, old a, or_and_right]
    refine (or_iff_right ?_).symm
    rintro ⟨rfl, -, slot⟩
    rw [withNew_self] at slot
    exact here slot

variable (keeps : ∀ q n, h.data.Owns q n → data.Owns q n ∧ data.read q n = h.data.read q n)

include keeps

theorem Wf.withNew_key (wf : h.Wf all) {a : Addr} (member : a ∈ all) :
    (h.withNew data b).key a = h.key a := by
  simp only [Hash.key, wf.withNew_mem member]
  exact congrArg (Prod.mk _) (keeps _ _ (wf.var a member)).2

/-- The keys stay distinct, if the new one is not the key of another bucket. -/
theorem Wf.withNew_distinct (wf : h.Wf all) (newKey : ∀ a ∈ all, (h.mem a).val ≠ none →
      h.key a ≠ (h.withNew data b).key h.fresh) :
    ∀ a ∈ h.fresh :: all, ∀ c ∈ h.fresh :: all, ((h.withNew data b).mem a).val ≠ none →
      ((h.withNew data b).mem c).val ≠ none → (h.withNew data b).key a =
        (h.withNew data b).key c → a = c := by
  intro a memberA c memberC liveA liveC same
  rcases mem_cons.mp memberA with rfl | oldA <;> rcases mem_cons.mp memberC with rfl | oldC
  · rfl
  · rw [wf.withNew_mem oldC] at liveC
    rw [wf.withNew_key keeps oldC] at same
    exact absurd same.symm (newKey c oldC liveC)
  · rw [wf.withNew_mem oldA] at liveA
    rw [wf.withNew_key keeps oldA] at same
    exact absurd same (newKey a oldA liveA)
  · rw [wf.withNew_mem oldA] at liveA
    rw [wf.withNew_mem oldC] at liveC
    rw [wf.withNew_key keeps oldA, wf.withNew_key keeps oldC] at same
    exact wf.distinct a oldA c oldC liveA liveC same

/-- The table with a bucket for a new key. -/
theorem Wf.new (wf : h.Wf all) {val : Ptr} (varOwned : data.Owns b.var b.varLen.toNat)
    (isVal : b.val = some val) (valOwned : data.Owns val b.valLen.toNat)
    (next : b.next = h.hashTable (slot b.hashValue)) (listNext : b.listNext = h.list)
    (newKey : ∀ a ∈ all, (h.mem a).val ≠ none →
      h.key a ≠ (b.hashValue, data.read b.var b.varLen.toNat)) :
    (h.withNew data b).Wf (h.fresh :: all) ∧ (h.withNew data b).entry h.fresh =
        some ((b.hashValue, data.read b.var b.varLen.toNat), data.read val b.valLen.toNat) ∧
      ∀ a ∈ all, (h.withNew data b).entry a = h.entry a := by
  obtain ⟨small, place⟩ := fresh_place wf.idx
  have newIs : (h.withNew data b).key h.fresh = (b.hashValue, data.read b.var b.varLen.toNat) := by
    simp only [Hash.key, withNew_self]
    rfl
  have bound : (h.withNew data b).bound = h.bound + 1 := by
    rw [← place]
    rfl
  refine ⟨?_, ?_, ?_⟩
  · constructor
    · refine ⟨rfl, ?_⟩
      simp only [withNew_self, listNext]
      exact wf.linked.congr fun a member => by rw [wf.withNew_mem member]
    · exact nodup_cons.mpr ⟨wf.fresh_notMem, wf.nodup⟩
    · rw [bound]
      exact forall_mem_cons.mpr ⟨⟨small, by omega⟩, fun a old =>
        ⟨(wf.allocated a old).1, Nat.lt_succ_of_lt (wf.allocated a old).2⟩⟩
    · exact small
    · exact wf.withNew_chain (by simp [isVal]) next
    · refine forall_mem_cons.mpr ⟨by rwa [withNew_self], fun a old => ?_⟩
      rw [wf.withNew_mem old]
      exact (keeps _ _ (wf.var a old)).1
    · refine forall_mem_cons.mpr ⟨fun v isV => ?_, fun a old v isV => ?_⟩
      · rw [withNew_self] at isV ⊢
        obtain rfl := Option.some.inj (isVal.symm.trans isV)
        exact valOwned
      · rw [wf.withNew_mem old] at isV ⊢
        exact (keeps _ _ (wf.val a old v isV)).1
    · exact wf.withNew_distinct keeps (by rwa [newIs])
  · simp only [entry, newIs, withNew_self, isVal, Option.map_some]
    rfl
  · intro a member
    simp only [entry, wf.withNew_key keeps member, wf.withNew_mem member]
    cases isV : (h.mem a).val with
    | none => rfl
    | some v =>
      exact congrArg (fun bytes => some (h.key a, bytes)) (keeps _ _ (wf.val a member v isV)).2

end new

/-- `fcgi_hash_set` stores in the map. -/
theorem Represents.set (rep : h.Represents m) (hashValue : UInt32)
    (lenVar : varLen.toNat = var.length) {val : Bytes} {valLen : UInt32}
    (lenVal : valLen.toNat = val.length) :
    (h.set hashValue var varLen val valLen).Represents (m.put (hashValue, var) val) := by
  obtain ⟨all, wf, entries⟩ := rep
  rw [Hash.set]
  cases found : h.find hashValue var varLen h.bound (h.hashTable (slot hashValue)) with
  | some p =>
    obtain ⟨member, live, isKey⟩ := wf.find_some lenVar found
    obtain ⟨wf', entry'⟩ := wf.replace member live val lenVal
    refine ⟨all, wf', ?_⟩
    have present : (hashValue, var) ∈ m.keys := (mem_keys_iff entries).mpr ⟨p, member, live, isKey⟩
    rw [OrderedMap.put_present present, OrderedMap.replaceEntries, ← map_reverse, ← entries,
      map_filterMap]
    apply filterMap_congr
    intro a inAll
    refine (entry' a inAll).trans ?_
    split
    next self =>
      subst self
      obtain ⟨old, isOld⟩ := Option.ne_none_iff_exists'.mp live
      simp [entry, isOld, isKey]
    next different =>
    cases isOld : (h.mem a).val with
    | none => simp [entry, isOld]
    | some old =>
      have otherKey : h.key a ≠ (hashValue, var) := by
        intro same
        exact different (wf.distinct a inAll p member (by simp [isOld]) live
          (same.trans isKey.symm))
      simp [entry, isOld, otherKey]
  | none =>
    have keepsTwo : ∀ q n, h.data.Owns q n →
        ((h.data.strndup var varLen).1.strndup val valLen).1.Owns q n ∧
          ((h.data.strndup var varLen).1.strndup val valLen).1.read q n = h.data.read q n := by
      intro q n owns
      obtain ⟨once, readOnce⟩ := owns.strndup var varLen
      obtain ⟨twice, readTwice⟩ := once.strndup val valLen
      exact ⟨twice, readTwice.trans readOnce⟩
    obtain ⟨varOwned, varRead⟩ := (h.data.owns_strndup_self var varLen).strndup val valLen
    rw [h.data.read_strndup_self var lenVar] at varRead
    have absent : (hashValue, var) ∉ m.keys := by
      rw [mem_keys_iff entries]
      rintro ⟨a, member, live, isKey⟩
      exact wf.find_none lenVar found member live isKey
    let b : Bucket := ⟨hashValue, varLen, (h.data.strndup var varLen).2, valLen,
      some ((h.data.strndup var varLen).1.strndup val valLen).2,
        h.hashTable (slot hashValue), h.list⟩
    obtain ⟨wf', newEntry, oldEntries⟩ := wf.new (b := b) keepsTwo varOwned rfl
      ((h.data.strndup var varLen).1.owns_strndup_self val valLen) rfl rfl
      (fun a member live same => wf.find_none lenVar found member live (by rw [same, varRead]))
    change (h.withNew ((h.data.strndup var varLen).1.strndup val valLen).1 b).Represents _
    refine ⟨h.fresh :: all, wf', ?_⟩
    rw [varRead, (h.data.strndup var varLen).1.read_strndup_self val lenVal] at newEntry
    rw [OrderedMap.put_absent absent, reverse_append, reverse_singleton, ← entries,
      filterMap_cons_some newEntry]
    congr 1
    exact filterMap_congr fun a member => oldEntries a member

/-! ### Deleting -/

/-- The loop of `fcgi_hash_del` stops at the link to the bucket. -/
theorem findLink_eq {c : List Addr} {n : Nat} (prev : Option Addr) {p : Option Addr}
    (linked : Linked (fun a => (h.mem a).next) p c) (enough : c.length ≤ n) :
    (h.findLink hashValue var varLen n prev p = none ∧
      ∀ a ∈ c, ¬ h.matches_ hashValue var varLen a = true) ∨
      ∃ l a r, c = l ++ a :: r ∧ h.matches_ hashValue var varLen a = true ∧
        h.findLink hashValue var varLen n prev p = some (l.getLast?.or prev, a) := by
  induction c generalizing n prev p with
  | nil =>
    obtain rfl : p = none := linked
    exact .inl ⟨by cases n <;> rfl, by simp⟩
  | cons a c ih =>
    obtain ⟨rfl, rest⟩ := linked
    cases n with
    | zero => simp at enough
    | succ n =>
      rw [findLink]
      split
      next found => exact .inr ⟨[], a, c, rfl, found, rfl⟩
      next notFound =>
      rcases ih (some a) rest (by simpa using enough) with ⟨none, others⟩ | ⟨l, b, r, rfl,
        found, link⟩
      · refine .inl ⟨none, fun b member => ?_⟩
        rcases mem_cons.mp member with rfl | later
        · exact notFound
        · exact others b later
      refine .inr ⟨a :: l, b, r, rfl, found, ?_⟩
      rw [link]
      cases l with
      | nil => rfl
      | cons d l => simp [getLast?_eq_some_getLast]

/-- In `h'` the bucket `p` has no value and has left its chain, from between `l` and `r`. -/
structure Unlinked (h h' : Hash) (p : Addr) (l r : List Addr) : Prop where
  linked : Linked (fun a => (h'.mem a).next) (h'.hashTable (slot (h.mem p).hashValue)) (l ++ r)
  links : ∀ a, a ∉ l → (h'.mem a).next = (h.mem a).next
  slots : ∀ i, i ≠ slot (h.mem p).hashValue → h'.hashTable i = h.hashTable i
  list : h'.list = h.list
  bound : h'.bound = h.bound
  idx : h'.idx = h.idx
  data : h'.data = h.data
  listNext : ∀ a, (h'.mem a).listNext = (h.mem a).listNext
  hashValue : ∀ a, (h'.mem a).hashValue = (h.mem a).hashValue
  var : ∀ a, (h'.mem a).var = (h.mem a).var ∧ (h'.mem a).varLen = (h.mem a).varLen
  deleted : (h'.mem p).val = none
  vals : ∀ a, a ≠ p → (h'.mem a).val = (h.mem a).val ∧ (h'.mem a).valLen = (h.mem a).valLen

section unlink

variable {h' : Hash} {l r : List Addr} (unlinked : Unlinked h h' p l r)

include unlinked

theorem Unlinked.key (a : Addr) : h'.key a = h.key a := by
  simp only [Hash.key, unlinked.hashValue, unlinked.var, unlinked.data]

theorem Unlinked.live (a : Addr) : (h'.mem a).val ≠ none ↔ a ≠ p ∧ (h.mem a).val ≠ none := by
  by_cases self : a = p
  · subst self
    simp [unlinked.deleted]
  · rw [(unlinked.vals a self).1]
    exact (and_iff_right self).symm

theorem Unlinked.entry (a : Addr) : h'.entry a = if a = p then none else h.entry a := by
  split
  next self =>
    subst self
    simp [Hash.entry, unlinked.deleted]
  next different => simp only [Hash.entry, unlinked.key, unlinked.data, unlinked.vals a different]

variable (chain : h.Chain all (slot (h.mem p).hashValue) (l ++ p :: r))

include chain

/-- The chain of the bucket, without it. -/
theorem Unlinked.ownChain : h'.Chain all (slot (h.mem p).hashValue) (l ++ r) := by
  have nodup := nodup_middle.mp chain.nodup
  refine ⟨unlinked.linked, (nodup_cons.mp nodup).2, fun a => ?_⟩
  have inMiddle : a ∈ l ++ r ↔ a ≠ p ∧ a ∈ l ++ p :: r := by
    constructor
    · intro inRest
      refine ⟨?_, by simp only [mem_append, mem_cons] at inRest ⊢; tauto⟩
      rintro rfl
      exact (nodup_cons.mp nodup).1 inRest
    · rintro ⟨different, inAll⟩
      simp only [mem_append, mem_cons] at inAll ⊢
      tauto
  rw [inMiddle, chain.mem_iff, unlinked.live, unlinked.hashValue]
  tauto

/-- No bucket of another chain is on this one. -/
theorem Unlinked.otherChain {i : Nat} {c : List Addr} (different : i ≠ slot (h.mem p).hashValue)
    (other : h.Chain all i c) : h'.Chain all i c := by
  have apart : ∀ a ∈ c, a ∉ l := by
    intro a inC inL
    have first := ((other.mem_iff a).mp inC).2.2
    have second := ((chain.mem_iff a).mp (by simp [inL])).2.2
    exact different (first.symm.trans second)
  refine ⟨?_, other.nodup, fun a => ?_⟩
  · rw [unlinked.slots i different]
    exact other.linked.congr fun a inC => unlinked.links a (apart a inC)
  rw [other.mem_iff, unlinked.live, unlinked.hashValue]
  constructor
  · rintro ⟨inAll, notNone, isSlot⟩
    refine ⟨inAll, ⟨?_, notNone⟩, isSlot⟩
    rintro rfl
    exact different isSlot.symm
  · rintro ⟨inAll, ⟨-, notNone⟩, isSlot⟩
    exact ⟨inAll, notNone, isSlot⟩

/-- A deleted bucket stays on the list and has left its chain. -/
theorem Unlinked.wf (wf : h.Wf all) : h'.Wf all where
  linked := by
    rw [unlinked.list]
    exact wf.linked.congr fun a _ => unlinked.listNext a
  nodup := wf.nodup
  allocated := by
    rw [unlinked.bound]
    exact wf.allocated
  idx := by
    rw [unlinked.idx]
    exact wf.idx
  chains i := by
    by_cases here : i = slot (h.mem p).hashValue
    · exact ⟨l ++ r, here ▸ unlinked.ownChain chain⟩
    · obtain ⟨c, other⟩ := wf.chains i
      exact ⟨c, unlinked.otherChain chain here other⟩
  var a inAll := by
    rw [unlinked.data, (unlinked.var a).1, (unlinked.var a).2]
    exact wf.var a inAll
  val a inAll val isVal := by
    have different : a ≠ p := ((unlinked.live a).mp (by simp [isVal])).1
    rw [(unlinked.vals a different).1] at isVal
    rw [unlinked.data, (unlinked.vals a different).2]
    exact wf.val a inAll val isVal
  distinct a inAll b inAll' liveA liveB same := by
    rw [unlinked.key, unlinked.key] at same
    exact wf.distinct a inAll b inAll' ((unlinked.live a).mp liveA).2
      ((unlinked.live b).mp liveB).2 same

end unlink

private theorem setNext_mem (h : Hash) (p : Addr) (next : Option Addr) (a : Addr) :
    (h.setNext p next).mem a = { h.mem a with next := if a = p then next else (h.mem a).next } := by
  by_cases self : a = p
  · subst self
    simp [setNext]
  · simp [setNext, self]

/-- The bucket is taken off from behind the head of the chain or from behind another bucket. -/
theorem Chain.unlinked {l r : List Addr} (chain : h.Chain all (slot hashValue) (l ++ p :: r))
    (isHash : (h.mem p).hashValue = hashValue)
    (link : h.findLink hashValue var varLen h.bound none (h.hashTable (slot hashValue)) =
      some (l.getLast?.or none, p)) : Unlinked h (h.del hashValue var varLen) p l r := by
  subst isHash
  rw [Hash.del, link]
  rcases eq_nil_or_concat l with rfl | ⟨l, b, rfl⟩
  · constructor
    case linked => simpa [setVal_mem] using chain.linked.2
    case slots => exact fun i different => update_of_ne different _ _
    case vals => exact fun a different => by simp [setVal_mem, different]
    all_goals first | rfl | simp [setVal_mem]
  · rw [concat_eq_append] at chain ⊢
    have nodup := chain.nodup
    simp only [getLast?_concat, Option.some_or]
    constructor
    case linked =>
      have linked := chain.linked
      rw [append_assoc] at linked nodup ⊢
      refine (linked.unlink nodup).congr fun a _ => ?_
      simp only [setNext_mem, setVal_mem, update_apply]
    case links =>
      intro a notIn
      have apart : a ≠ b := by
        rintro rfl
        exact notIn (by simp)
      simp [setNext_mem, setVal_mem, apart]
    case slots => exact fun _ _ => rfl
    case vals => exact fun a apart => by simp [setNext_mem, setVal_mem, apart]
    all_goals first | rfl | simp [setNext_mem, setVal_mem]

/-- `fcgi_hash_del` deletes from the map. -/
theorem Represents.del (rep : h.Represents m) (hashValue : UInt32)
    (lenVar : varLen.toNat = var.length) :
    (h.del hashValue var varLen).Represents (m.erase (hashValue, var)) := by
  obtain ⟨all, wf, entries⟩ := rep
  obtain ⟨c, chain⟩ := wf.chains (slot hashValue)
  have subset : ∀ a ∈ c, a ∈ all := fun a member => ((chain.mem_iff a).mp member).1
  have erased : (m.erase (hashValue, var)).entries.reverse =
      all.filterMap fun a => (h.entry a).filter fun e => decide (e.1 ≠ (hashValue, var)) := by
    rw [OrderedMap.erase, ← filter_reverse, ← entries, filter_filterMap]
  rcases findLink_eq none chain.linked (wf.length_le chain.nodup subset) with
    ⟨notFound, others⟩ | ⟨l, p, r, rfl, found, link⟩
  · rw [Hash.del, notFound]
    refine ⟨all, wf, ?_⟩
    rw [erased]
    apply filterMap_congr
    intro a member
    cases isVal : (h.mem a).val with
    | none => simp [entry, isVal]
    | some val =>
      have otherKey : h.key a ≠ (hashValue, var) := by
        intro isKey
        have onChain : a ∈ c := (chain.mem_iff a).mpr
          ⟨member, by simp [isVal], by rw [(Prod.mk.inj isKey).1]⟩
        exact others a onChain ((h.matches_iff lenVar a).mpr isKey)
      simp [entry, isVal, otherKey, Option.filter_some]
  · have isKey := (h.matches_iff lenVar p).mp found
    have unlinked := chain.unlinked (Prod.mk.inj isKey).1 link
    have facts := (chain.mem_iff p).mp (by simp)
    have own : h.Chain all (slot (h.mem p).hashValue) (l ++ p :: r) := by rwa [facts.2.2]
    refine ⟨all, unlinked.wf own wf, ?_⟩
    rw [erased]
    apply filterMap_congr
    intro a member
    rw [unlinked.entry]
    split
    next self =>
      subst self
      cases isVal : (h.mem a).val <;> simp [entry, isVal, isKey, Option.filter_some]
    next different =>
    cases isVal : (h.mem a).val with
    | none => simp [entry, isVal]
    | some val =>
      have otherKey : h.key a ≠ (hashValue, var) := by
        intro same
        exact different (wf.distinct a member p facts.1 (by simp [isVal]) facts.2.1
          (same.trans isKey.symm))
      simp [entry, isVal, otherKey, Option.filter_some]

end Hash

end Jonj.Fcgi
