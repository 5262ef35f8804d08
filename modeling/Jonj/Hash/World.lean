import Jonj.Hash.Transfer
import Jonj.Lib.Runs

/-!
# Sequences of calls

A world is the bucket memory and the tables that have been initialised, by number.
Every call of the interface is an `Op`. The same calls act on a family of abstract
tables; the two machines answer alike, and every table of a world that calls can
produce refines its abstract counterpart.
-/
namespace Jonj.Hash

open DoublyLinked Runs Function

variable {α : Type}

structure World (α : Type) where
  mem : Mem α
  tables : Nat → Option HashTable

/-- No table and no bucket; memory that is not allocated may hold anything. -/
def World.start (garbage : Addr → Bucket α) : World α := ⟨⟨garbage, [], 0⟩, fun _ => none⟩

inductive Op (α : Type) where
  | init (t : Nat) (nSize : UInt32)
  | add (t : Nat) (key : Key) (v : α)
  | update (t : Nat) (key : Key) (v : α)
  | quickAdd (t : Nat) (key : Key) (v : α)
  | quickUpdate (t : Nat) (key : Key) (v : α)
  | indexUpdate (t : Nat) (h : UInt64) (v : α)
  | nextIndexInsert (t : Nat) (v : α)
  | del (t : Nat) (key : Key)
  | quickDel (t : Nat) (key : Key)
  | indexDel (t : Nat) (h : UInt64)
  | clean (t : Nat)
  | copy (target source : Nat) (ctor : Option (α → α))
  | merge (target source : Nat) (ctor : Option (α → α)) (overwrite : Bool)

def Key.hash (key : Key) : UInt64 := zendInlineHashFunc key.bytes key.nKeyLength

def World.set (w : World α) (t : Nat) (mem : Mem α) (ht : HashTable) : World α :=
  ⟨mem, Function.update w.tables t (some ht)⟩

def World.insert (w : World α) (t : Nat) (call : Mem α → HashTable → Inserted α) :
    Option (World α × Bool) := do
  let ht ← w.tables t
  let r := call w.mem ht
  some (w.set t r.mem r.ht, r.pDest.isSome)

def World.remove (w : World α) (t : Nat) (call : Mem α → HashTable → Mem α × HashTable × Bool) :
    Option (World α × Bool) := do
  let ht ← w.tables t
  let r := call w.mem ht
  some (w.set t r.1 r.2.1, r.2.2)

/-- A call that reads a second table. The insertion functions assert that the data
they are handed is not the data they overwrite, so the tables are different ones. -/
def World.combine (w : World α) (t u : Nat)
    (call : Mem α → HashTable → HashTable → Mem α × HashTable) : Option (World α × Bool) :=
  if t = u then none
  else do
    let target ← w.tables t
    let source ← w.tables u
    let r := call w.mem target source
    some (w.set t r.1 r.2, true)

/-- One call; `none` where a table has not been initialised. The flag of the answer
is SUCCESS. -/
def Op.step (pemalloc : Pemalloc) (w : World α) : Op α → Option (World α × Bool)
  | .init t nSize => some (w.set t w.mem (zendHashInit nSize), true)
  | .add t key v => w.insert t fun mem ht =>
    zendHashAddOrUpdate pemalloc mem ht key.toCStr key.nKeyLength v .add
  | .update t key v => w.insert t fun mem ht =>
    zendHashAddOrUpdate pemalloc mem ht key.toCStr key.nKeyLength v .update
  | .quickAdd t key v => w.insert t fun mem ht =>
    zendHashQuickAddOrUpdate pemalloc mem ht key.toCStr key.nKeyLength key.hash v .add
  | .quickUpdate t key v => w.insert t fun mem ht =>
    zendHashQuickAddOrUpdate pemalloc mem ht key.toCStr key.nKeyLength key.hash v .update
  | .indexUpdate t h v => w.insert t fun mem ht =>
    zendHashIndexUpdateOrNextInsert pemalloc mem ht h v .update
  | .nextIndexInsert t v => w.insert t fun mem ht =>
    zendHashIndexUpdateOrNextInsert pemalloc mem ht 0 v .nextInsert
  | .del t key => w.remove t fun mem ht =>
    zendHashDelKeyOrIndex mem ht key.toCStr key.nKeyLength 0 .key
  | .quickDel t key => w.remove t fun mem ht =>
    zendHashDelKeyOrIndex mem ht key.toCStr key.nKeyLength key.hash .keyQuick
  | .indexDel t h => w.remove t fun mem ht => zendHashDelKeyOrIndex mem ht .null 0 h .index
  | .clean t => w.remove t fun mem ht =>
    ((zendHashClean mem ht).1, (zendHashClean mem ht).2, true)
  | .copy t u ctor => w.combine t u fun mem target source =>
    zendHashCopy pemalloc mem target source ctor
  | .merge t u ctor overwrite => w.combine t u fun mem target source =>
    zendHashMerge pemalloc mem target source ctor overwrite

/-- Equal key pointers mean equal keys: where the caller's pointer is the key pointer
of an allocated bucket, the caller's bytes are the ones stored there. -/
def Op.Honest (w : World α) : Op α → Prop
  | .add _ key _ | .update _ key _ | .quickAdd _ key _ | .quickUpdate _ key _ =>
    key.toCStr.Agrees w.mem
  | _ => True

/-! ### The abstract tables -/

abbrev Specs (α : Type) := Nat → Option (Spec α)

def Specs.apply (s : Specs α) (t : Nat) (call : Spec α → Spec α × Bool) :
    Option (Specs α × Bool) := do
  let sp ← s t
  let r := call sp
  some (Function.update s t (some r.1), r.2)

def Specs.combine (s : Specs α) (t u : Nat) (call : Spec α → Spec α → Spec α) :
    Option (Specs α × Bool) :=
  if t = u then none
  else do
    let target ← s t
    let source ← s u
    some (Function.update s t (some (call target source)), true)

def Op.specStep (s : Specs α) : Op α → Option (Specs α × Bool)
  | .init t _ => some (Function.update s t (some Spec.init), true)
  | .add t key v | .quickAdd t key v => s.apply t fun sp => sp.insert (.str key.bytes) v .add
  | .update t key v | .quickUpdate t key v =>
    s.apply t fun sp => sp.insert (.str key.bytes) v .update
  | .indexUpdate t h v => s.apply t fun sp => sp.insert (.int h) v .update
  | .nextIndexInsert t v => s.apply t fun sp => sp.insert (.int sp.nextFree) v .nextInsert
  | .del t key | .quickDel t key => s.apply t fun sp => sp.delete (.str key.bytes)
  | .indexDel t h => s.apply t fun sp => sp.delete (.int h)
  | .clean t => s.apply t fun _ => (Spec.init, true)
  | .copy t u ctor => s.combine t u fun sp source =>
    sp.copyFrom (ctor.getD id) source.map.entries
  | .merge t u ctor overwrite => s.combine t u fun sp source =>
    sp.mergeFrom (ctor.getD id) overwrite source.map.entries

/-! ### The relation between the two machines -/

/-- Every table is related to its abstract table, and no two tables share a bucket. -/
structure WorldRel (w : World α) (s : Specs α) (buckets : Nat → List Addr) : Prop where
  ok : MemOk w.mem
  table : ∀ t, Option.Rel (fun ht sp => TableRel w.mem ht (buckets t) sp) (w.tables t) (s t)
  idle : ∀ t, w.tables t = none → buckets t = []
  apart : ∀ t u, t ≠ u → ∀ p ∈ buckets t, p ∉ buckets u

section

variable {w : World α} {s : Specs α} {buckets : Nat → List Addr} (rel : WorldRel w s buckets)

include rel

theorem WorldRel.live (t : Nat) : ∀ p ∈ buckets t, p ∈ w.mem.live := by
  cases known : w.tables t with
  | none => simp [rel.idle t known]
  | some ht =>
    obtain ⟨sp, _, tableRel⟩ := rel_some_left (rel.table t) known
    exact tableRel.wf.live

theorem WorldRel.moved {t : Nat} {mem : Mem α} {ht : HashTable} {xs : List Addr}
    {sp : Spec α} (moved : Moved w.mem (buckets t) mem ht xs sp) :
    WorldRel (w.set t mem ht) (update s t (some sp)) (update buckets t xs) := by
  refine ⟨moved.ok, ?_, ?_, ?_⟩
  · intro u
    by_cases same : u = t
    · subst same
      simp only [World.set, update_self]
      exact .some moved.rel
    · simp only [World.set, update_of_ne same]
      refine rel_imp (rel.table u) fun _ _ tableRel => ?_
      exact tableRel.frame moved.frame (rel.apart u t same)
  · intro u unknown
    by_cases same : u = t
    · subst same
      simp [World.set] at unknown
    · simp only [World.set, update_of_ne same] at unknown ⊢
      exact rel.idle u unknown
  · intro u v different
    by_cases left : u = t
    · subst left
      simp only [update_self, update_of_ne (Ne.symm different)]
      have disjoint := moved.frame.disjoint (rel.live v) (rel.apart v u (Ne.symm different))
      exact fun p inside other => disjoint p other inside
    by_cases right : v = t
    · subst right
      simp only [update_self, update_of_ne left]
      exact moved.frame.disjoint (rel.live u) (rel.apart u v different)
    · simp only [update_of_ne left, update_of_ne right]
      exact rel.apart u v different

end

def Related (w : World α) (s : Specs α) : Prop := ∃ buckets, WorldRel w s buckets

section calls

variable {w : World α} {s : Specs α} {buckets : Nat → List Addr}

private theorem insert_alike (rel : WorldRel w s buckets) {t : Nat}
    {call : Mem α → HashTable → Inserted α} {spec : Spec α → Spec α × Bool}
    (each : ∀ ht sp, TableRel w.mem ht (buckets t) sp →
      ∃ k v xs', Outcome w.mem (buckets t) k v (spec sp) (call w.mem ht) xs') :
    Option.Rel (Alike Related) (w.insert t call) (s.apply t spec) := by
  refine rel_bind (rel.table t) fun ht sp _ tableRel => ?_
  obtain ⟨k, v, xs', outcome⟩ := each ht sp tableRel
  exact .some ⟨outcome.status, _, rel.moved outcome.toMoved⟩

private theorem remove_alike (rel : WorldRel w s buckets) {t : Nat}
    {call : Mem α → HashTable → Mem α × HashTable × Bool} {spec : Spec α → Spec α × Bool}
    (each : ∀ ht sp, TableRel w.mem ht (buckets t) sp →
      ∃ xs', Moved w.mem (buckets t) (call w.mem ht).1 (call w.mem ht).2.1 xs' (spec sp).1 ∧
        (call w.mem ht).2.2 = (spec sp).2) :
          Option.Rel (Alike Related) (w.remove t call) (s.apply t spec) := by
  refine rel_bind (rel.table t) fun ht sp _ tableRel => ?_
  obtain ⟨xs', moved, status⟩ := each ht sp tableRel
  exact .some ⟨status, _, rel.moved moved⟩

private theorem combine_alike (rel : WorldRel w s buckets) {t u : Nat}
    {call : Mem α → HashTable → HashTable → Mem α × HashTable} {spec : Spec α → Spec α → Spec α}
    (each : ∀ target sp source sourceSp, TableRel w.mem target (buckets t) sp →
      TableRel w.mem source (buckets u) sourceSp → (∀ p ∈ buckets u, p ∉ buckets t) →
      ∃ xs', Moved w.mem (buckets t) (call w.mem target source).1 (call w.mem target source).2 xs'
        (spec sp sourceSp)) :
    Option.Rel (Alike Related) (w.combine t u call) (s.combine t u spec) := by
  unfold World.combine Specs.combine
  by_cases same : t = u
  · rw [if_pos same, if_pos same]
    exact .none
  rw [if_neg same, if_neg same]
  refine rel_bind (rel.table t) fun target sp _ tableRel => ?_
  refine rel_bind (rel.table u) fun source sourceSp _ sourceRel => ?_
  obtain ⟨xs', moved⟩ := each target sp source sourceSp tableRel sourceRel
    (rel.apart u t (Ne.symm same))
  exact .some ⟨rfl, _, rel.moved moved⟩

end calls

private theorem tableBits_bounds {nSize : UInt32} (small : nSize.toNat ≤ 2 ^ 31) (fuel i : Nat)
    (bound : i ≤ 31) : i ≤ tableBits nSize fuel i ∧ tableBits nSize fuel i ≤ 31 := by
  induction fuel generalizing i with
  | zero => exact ⟨le_refl i, bound⟩
  | succ fuel ih =>
    simp only [tableBits]
    split
    next more =>
      have below : i < 31 := (Nat.pow_lt_pow_iff_right (by decide)).mp (more.trans_le small)
      have rest := ih (i + 1) below
      omega
    next done => exact ⟨le_refl i, bound⟩

private theorem zendHashInit_size (nSize : UInt32) :
    ∃ k, 3 ≤ k ∧ k < 32 ∧ (zendHashInit nSize).nTableSize.toNat = 2 ^ k := by
  simp only [zendHashInit]
  split
  next large => exact ⟨31, by decide, by decide, by decide⟩
  next small =>
  have below : nSize.toNat ≤ 2 ^ 31 := by
    have lt := UInt32.lt_iff_toNat_lt.mp (UInt32.not_le.mp small)
    exact lt.le
  obtain ⟨low, high⟩ := tableBits_bounds below 32 3 (by decide)
  have fits : 2 ^ tableBits nSize 32 3 < 2 ^ 32 := Nat.pow_lt_pow_right (by decide) (by omega)
  exact ⟨tableBits nSize 32 3, low, by omega, UInt32.toNat_ofNat_of_lt' fits⟩

theorem zendHashInit_rel (mem : Mem α) (nSize : UInt32) :
    TableRel mem (zendHashInit nSize) [] Spec.init := by
  exact ⟨⟨⟨List.nodup_nil, rfl, rfl, links_nil _ _⟩, by simp, chains_nil (fun _ _ => rfl),
    zendHashInit_size nSize, .inl ⟨rfl, rfl⟩, rfl, by simp [zendHashInit]⟩, by simp [Plain], rfl,
    rfl⟩

private theorem step_alike {pemalloc : Pemalloc} (fresh : pemalloc.Fresh) (w : World α)
    (s : Specs α) (op : Op α) (related : Related w s) (honest : op.Honest w) :
    Option.Rel (Alike Related) (op.step pemalloc w) (op.specStep s) := by
  obtain ⟨buckets, rel⟩ := related
  unfold Op.step Op.specStep
  cases op with
  | init t nSize =>
    -- a table that is initialised again forgets its buckets without releasing them
    have fresh : Frame w.mem w.mem (buckets t) [] :=
      ⟨fun _ _ _ => rfl, fun _ live _ => live, by simp⟩
    exact .some ⟨rfl, _, rel.moved ⟨zendHashInit_rel w.mem nSize, rel.ok, fresh⟩⟩
  | add t key v | update t key v =>
    refine insert_alike rel fun ht sp tableRel => ⟨.str key.bytes, v, ?_⟩
    rw [zendHashAddOrUpdate_eq]
    exact zendHashQuickAddOrUpdate_rel fresh rel.ok tableRel key.passed honest v (by simp)
  | quickAdd t key v | quickUpdate t key v =>
    refine insert_alike rel fun ht sp tableRel => ⟨.str key.bytes, v, ?_⟩
    exact zendHashQuickAddOrUpdate_rel fresh rel.ok tableRel key.passed honest v (by simp)
  | indexUpdate t h v =>
    refine insert_alike rel fun ht sp tableRel => ⟨.int h, v, ?_⟩
    exact zendHashIndexUpdateOrNextInsert_rel fresh rel.ok tableRel h v .update rfl
  | nextIndexInsert t v =>
    refine insert_alike rel fun ht sp tableRel => ⟨.int sp.nextFree, v, ?_⟩
    exact zendHashIndexUpdateOrNextInsert_rel fresh rel.ok tableRel 0 v .nextInsert rfl
  | del t key | quickDel t key =>
    refine remove_alike rel fun ht sp tableRel => delete_rel rel.ok tableRel ?_
    exact search_del_key tableRel.wf rel.ok tableRel.distinct key.passed
  | indexDel t h =>
    refine remove_alike rel fun ht sp tableRel => delete_rel rel.ok tableRel ?_
    exact search_del_index tableRel.wf tableRel.distinct .null h
  | clean t =>
    exact remove_alike rel fun ht sp tableRel =>
      ⟨[], zendHashClean_rel rel.ok tableRel, rfl⟩
  | copy t u ctor =>
    exact combine_alike rel fun target sp source sourceSp tableRel sourceRel disjoint =>
      zendHashCopy_rel fresh ctor rel.ok tableRel sourceRel disjoint
  | merge t u ctor overwrite =>
    exact combine_alike rel fun target sp source sourceSp tableRel sourceRel disjoint =>
      zendHashMerge_rel fresh ctor rel.ok tableRel sourceRel disjoint overwrite

/-! ### What the relation says about one table -/

/-- Follow `pListNext` from the head, at most `n` buckets far. -/
def forwardWalk (mem : Mem α) (ht : HashTable) (n : Nat) : List Addr :=
  walk (fun p => (mem.cells p).pListNext) n ht.pListHead

theorem Ordered.forwardWalk {mem : Mem α} {ht : HashTable} {xs : List Addr}
    (ordered : Ordered mem ht xs) {n : Nat} (enough : xs.length ≤ n) :
    forwardWalk mem ht n = xs := by
  rw [Hash.forwardWalk, ordered.head, walk_links ordered.links n enough]

/-- Follow `pListLast` from the tail, at most `n` buckets far. -/
def backwardWalk (mem : Mem α) (ht : HashTable) (n : Nat) : List Addr :=
  walk (fun p => (mem.cells p).pListLast) n ht.pListTail

/-- The table implements the ordered map `m`; `xs` are its buckets. -/
structure Refines (mem : Mem α) (ht : HashTable) (m : OrderedMap HKey α) (xs : List Addr) :
    Prop where
  find : ∀ key : Key, key.toCStr.Agrees mem →
    zendHashFind mem ht key.toCStr key.nKeyLength = m.lookup (.str key.bytes)
  quickFind : ∀ key : Key, key.toCStr.Agrees mem →
    zendHashQuickFind mem ht key.toCStr key.nKeyLength key.hash = m.lookup (.str key.bytes)
  exist : ∀ key : Key, key.toCStr.Agrees mem →
    zendHashExists mem ht key.toCStr key.nKeyLength = m.contains (.str key.bytes)
  quickExists : ∀ key : Key, key.toCStr.Agrees mem →
    zendHashQuickExists mem ht key.toCStr key.nKeyLength key.hash = m.contains (.str key.bytes)
  indexFind : ∀ h, zendHashIndexFind mem ht h = m.lookup (.int h)
  indexExists : ∀ h, zendHashIndexExists mem ht h = m.contains (.int h)
  count : ht.nNumOfElements.toNat = m.size % 2 ^ 32
  size : m.size = xs.length
  nodup : xs.Nodup
  live : ∀ p ∈ xs, p ∈ mem.live
  entries : xs.map (entry mem) = m.entries
  forward : ∀ n, m.size ≤ n → forwardWalk mem ht n = xs
  backward : ∀ n, m.size ≤ n → backwardWalk mem ht n = xs.reverse
  chains : Chains mem ht xs
  slot : ∀ p ∈ xs, ht.nIndex (mem.cells p).h ≤ ht.nTableMask.toNat
  cursor : ∀ p, ht.pInternalPointer = some p → p ∈ xs

theorem TableRel.refines {mem : Mem α} {ht : HashTable} {xs : List Addr} {sp : Spec α}
    (ok : MemOk mem) (rel : TableRel mem ht xs sp) : Refines mem ht sp.map xs := by
  have size : sp.map.size = xs.length := by
    rw [OrderedMap.size, rel.entries, List.length_map]
  have string : ∀ key : Key, key.toCStr.Agrees mem →
      (search mem ht key.hash (keyMatches key.toCStr key.nKeyLength key.hash)).map
        (fun p => (mem.cells p).pData) = sp.map.lookup (.str key.bytes) := by
    intro key agrees
    rw [rel.lookup_eq, Key.hash, search_key rel.wf ok rel.plain rel.distinct key.passed agrees]
  have index : ∀ h, (search mem ht h (indexMatches h)).map (fun p => (mem.cells p).pData) =
      sp.map.lookup (.int h) := by
    intro h
    rw [rel.lookup_eq, search_index rel.wf rel.distinct]
  have known : ∀ key : Key, key.toCStr.Agrees mem →
      (search mem ht key.hash (keyMatches key.toCStr key.nKeyLength key.hash)).isSome =
        sp.map.contains (.str key.bytes) := by
    intro key agrees
    rw [← OrderedMap.lookup_isSome, ← string key agrees, Option.isSome_map]
  refine ⟨string, string, known, known, index, ?_, ?_, size, rel.wf.ordered.nodup, rel.wf.live,
    rel.entries.symm, ?_, ?_, rel.wf.chains, fun _ _ => nIndex_le ht _, rel.wf.cursor⟩
  · intro h
    rw [← OrderedMap.lookup_isSome, ← index h, Option.isSome_map]
    rfl
  · rw [rel.wf.count, size, UInt32.toNat_ofNat']
  · exact fun n enough => rel.wf.ordered.forwardWalk (size ▸ enough)
  · intro n enough
    rw [backwardWalk, rel.wf.ordered.tail]
    exact walk_links_reverse rel.wf.ordered.links n (size ▸ enough)

/-- Every table of the world implements the abstract table of the same number. -/
def RefinesAll (w : World α) (s : Specs α) : Prop :=
  ∀ t, Option.Rel (fun ht sp => ∃ xs, Refines w.mem ht sp.map xs) (w.tables t) (s t)

theorem Related.refines {w : World α} {s : Specs α} (related : Related w s) : RefinesAll w s := by
  obtain ⟨buckets, rel⟩ := related
  exact fun t => rel_imp (rel.table t) fun ht sp tableRel => ⟨_, tableRel.refines rel.ok⟩

private theorem start_related (garbage : Addr → Bucket α) :
    Related (World.start garbage) (fun _ => none) :=
  ⟨fun _ => [], ⟨by simp [World.start], by simp [World.start]⟩, fun _ => .none, fun _ _ => rfl,
    by simp⟩

theorem run_related {pemalloc : Pemalloc} (fresh : pemalloc.Fresh) (garbage : Addr → Bucket α)
    (ops : List (Op α))
    (honest : Guarded (Op.step pemalloc) (fun w op => op.Honest w) (World.start garbage) ops) :
    Option.Rel (Alike Related) (run (Op.step pemalloc) (World.start garbage) ops)
      (run Op.specStep (fun _ => none) ops) :=
  run_alike (step_alike fresh) ops _ _ (start_related garbage) honest

/-- Over every sequence of calls the tables answer as the ordered maps do and go on
implementing them. -/
theorem calls_refine_orderedMaps {pemalloc : Pemalloc} (fresh : pemalloc.Fresh)
    (garbage : Addr → Bucket α) (ops : List (Op α))
    (honest : Guarded (Op.step pemalloc) (fun w op => op.Honest w) (World.start garbage) ops) :
    Option.Rel (Alike RefinesAll) (run (Op.step pemalloc) (World.start garbage) ops)
      (run Op.specStep (fun _ => none) ops) :=
  rel_imp (run_related fresh garbage ops honest) fun _ _ alike => ⟨alike.1, alike.2.refines⟩

def nextAddress : Pemalloc := fun _ live => live.foldr max 0 + 1

theorem nextAddress_fresh : nextAddress.Fresh := by
  intro clock live member
  have bound : ∀ x ∈ live, x ≤ live.foldr max 0 := by
    clear member
    induction live with
    | nil => simp
    | cons y live ih =>
      intro x inside
      rcases List.mem_cons.mp inside with first | later
      · simp [first]
      · exact (ih x later).trans (le_max_right _ _)
  exact absurd (bound _ member) (by simp [nextAddress])

def blankBucket : Bucket Unit where
  h := 0
  nKeyLength := 0
  pData := ()
  pListNext := none
  pListLast := none
  pNext := none
  pLast := none
  arKey := .null

/-- `$a = array("a" => 0, "b" => 1, 2); $b = $a; unset($a["a"]); $b["b"] = 3;` -/
def sampleCalls : List (Op Nat) :=
  [.init 0 8, .update 0 ⟨⟨.interned 0, [97, 0]⟩, by simp, by simp, by simp⟩ 0,
    .quickUpdate 0 ⟨⟨.other 0, [98, 0]⟩, by simp, by simp, by simp⟩ 1, .nextIndexInsert 0 2,
    .init 1 8, .copy 1 0 none, .del 0 ⟨⟨.other 0, [97, 0]⟩, by simp, by simp, by simp⟩,
    .update 1 ⟨⟨.interned 2, [98, 0]⟩, by simp, by simp, by simp⟩ 3]

theorem calls_refine_orderedMaps_sample :
    Option.Rel (Alike RefinesAll)
      (run (Op.step nextAddress) (World.start fun _ => { blankBucket with pData := 0 }) sampleCalls)
      (run Op.specStep (fun _ => none) sampleCalls) := by
  apply calls_refine_orderedMaps nextAddress_fresh
  refine ⟨trivial, ?_⟩
  rintro _ _ ⟨⟩
  refine ⟨by simp [Op.Honest, CStr.Agrees, World.set, World.start], ?_⟩
  rintro _ _ ⟨⟩
  refine ⟨by unfold Op.Honest CStr.Agrees; decide, ?_⟩
  rintro _ _ ⟨⟩
  refine ⟨trivial, ?_⟩
  rintro _ _ ⟨⟩
  refine ⟨trivial, ?_⟩
  rintro _ _ ⟨⟩
  refine ⟨trivial, ?_⟩
  rintro _ _ ⟨⟩
  refine ⟨trivial, ?_⟩
  rintro _ _ ⟨⟩
  exact ⟨by unfold Op.Honest CStr.Agrees; decide, fun _ _ _ => trivial⟩

/-! ### The element count is a 32-bit field -/

/-- Store `count` integer keys from `first` on. -/
def fill (first : Nat) : Nat → List (Op Unit)
  | 0 => []
  | count + 1 => .indexUpdate 0 (UInt64.ofNat first) () :: fill (first + 1) count

private theorem fill_honest (count first : Nat) (w : World Unit) :
    ∀ op ∈ fill first count, op.Honest w := by
  induction count generalizing first with
  | zero => simp [fill]
  | succ count ih =>
    intro op member
    rcases List.mem_cons.mp member with head | tail
    · rw [head]
      trivial
    · exact ih (first + 1) op tail

theorem entries_store {sp : Spec α} {k : HKey} (absent : k ∉ sp.map.keys) (v : α) :
    (sp.store k v).map.entries = sp.map.entries ++ [(k, v)] :=
  OrderedMap.put_absent absent

private theorem mem_keys_store {sp : Spec α} {k : HKey} (absent : k ∉ sp.map.keys) (v : α)
    (key : HKey) :
    key ∈ (sp.store k v).map.keys ↔ key ∈ sp.map.keys ∨ key = k := by
  rw [OrderedMap.keys, entries_store absent, List.map_append]
  simp [OrderedMap.keys]

/-- Distinct integer keys are all new, so each of them counts. -/
theorem fill_size (count first : Nat) (s : Specs Unit) (sp : Spec Unit) (table : s 0 = some sp)
    (below : ∀ k ∈ sp.map.keys, ∃ j < first, k = .int (UInt64.ofNat j))
    (fits : first + count ≤ 2 ^ 64) :
    ∃ s' outputs sp', run Op.specStep s (fill first count) = some (s', outputs) ∧
      s' 0 = some sp' ∧ sp'.map.size = sp.map.size + count := by
  induction count generalizing first s sp with
  | zero => exact ⟨s, [], sp, rfl, table, rfl⟩
  | succ count ih =>
    have absent : HKey.int (UInt64.ofNat first) ∉ sp.map.keys := by
      intro present
      obtain ⟨j, small, same⟩ := below _ present
      have equal := congrArg UInt64.toNat (HKey.int.inj same)
      simp only [UInt64.toNat_ofNat'] at equal
      omega
    have below' : ∀ k ∈ (sp.store (.int (UInt64.ofNat first)) ()).map.keys,
        ∃ j < first + 1, k = .int (UInt64.ofNat j) := by
      intro k member
      rcases (mem_keys_store absent () k).mp member with old | new
      · obtain ⟨j, small, same⟩ := below k old
        exact ⟨j, by omega, same⟩
      · exact ⟨first, by omega, new⟩
    obtain ⟨s', outputs, sp', ran, table', size⟩ := ih (first + 1)
      (update s 0 (some (sp.store (.int (UInt64.ofNat first)) ()))) _
      (update_self ..) below' (by omega)
    refine ⟨s', true :: outputs, sp', ?_, table', ?_⟩
    · simp [fill, run, Op.specStep, Specs.apply, table, insert_absent absent, ran]
    · rw [size, OrderedMap.size, entries_store absent, List.length_append, OrderedMap.size]
      simp only [List.length_singleton]
      omega

/-- After 2^32 insertions of distinct keys `nNumOfElements` is 0 again. -/
theorem nNumOfElements_wraps :
    ∃ ops w s outputs ht sp, Guarded (Op.step nextAddress) (fun w op => op.Honest w)
        (World.start fun _ => blankBucket) ops ∧
      run (Op.step nextAddress) (World.start fun _ => blankBucket) ops = some (w, outputs) ∧
      run Op.specStep (fun _ => none) ops = some (s, outputs) ∧
      w.tables 0 = some ht ∧ s 0 = some sp ∧ ht.nNumOfElements.toNat ≠ sp.map.size := by
  -- the number stays a variable, so that no list of that length is computed
  obtain ⟨n, value⟩ : ∃ n, n = 2 ^ 32 := ⟨_, rfl⟩
  have honest : Guarded (Op.step nextAddress) (fun w op => op.Honest w)
      (World.start fun _ => blankBucket) (.init 0 8 :: fill 0 n) := by
    refine ⟨trivial, fun w _ _ => guarded_of_forall _ (fun op member w => ?_) w⟩
    exact fill_honest n 0 w op member
  have alike := run_related nextAddress_fresh _ _ honest
  obtain ⟨s, outputs, sp, ran, table, size⟩ := fill_size n 0
    (update (fun _ => none) 0 (some Spec.init)) Spec.init (update_self ..)
    (by simp [Spec.init, OrderedMap.empty, OrderedMap.keys]) (by omega)
  have total : sp.map.size = n := by
    rw [size]
    exact Nat.zero_add n
  have specRan : run Op.specStep (fun _ => none) (.init 0 8 :: fill 0 n) =
      some (s, true :: outputs) := by
    simp [run, Op.specStep, ran]
  obtain ⟨⟨w, answers⟩, worldRan, rfl, related⟩ := rel_some_right alike specRan
  obtain ⟨ht, known, xs, refines⟩ := rel_some_right (related.refines 0) table
  refine ⟨_, w, s, _, ht, sp, honest, worldRan, specRan, known, table, ?_⟩
  rw [refines.count, total, value]
  norm_num

end Jonj.Hash
