import Jonj.Gc.Basic
import Jonj.Lib.TrialDeletion.Mark
import Jonj.Lib.TrialDeletion.Collect
import Jonj.Lib.Runs

/-!
# The heap as a graph

The references the collector follows, and the lemmas about painting and counting
that the three passes share.
-/
namespace Jonj.Gc

open TrialDeletion Function

variable {Z O : Type}

/-- The references of a node, in the order in which they are visited. The symbol
table is inert: it is neither counted nor entered. -/
def Heap.graph (heap : Heap Z O) : Graph (Node Z O) where
  succ n := match n with
    | .inl pz => match heap.kind pz with
      | .object handle => if heap.objectBuckets then [.inr handle] else []
      | .array symbolTable elements => if symbolTable then [] else elements.map .inl
      | .other => []
    | .inr handle => if heap.objectBuckets then (heap.values handle).map .inl else []
  inert n := match n with
    | .inl pz => heap.isSymbolTable pz
    | .inr _ => false
  inert_succ n inert := by
    cases n with
    | inr handle => cases inert
    | inl pz =>
      simp only [Heap.isSymbolTable] at inert ⊢
      cases kind : heap.kind pz with
      | object handle => simp [kind] at inert
      | other => simp [kind] at inert
      | array symbolTable elements => simp_all

theorem graph_inert_zval (heap : Heap Z O) (pz : Z) :
    heap.graph.inert (.inl pz) = heap.isSymbolTable pz :=
  rfl

section kinds

variable {heap : Heap Z O} {pz : Z} {handle : O} {elements : List Z}

theorem succ_object (kind : heap.kind pz = .object handle) (store : heap.objectBuckets = true) :
    heap.graph.succ (.inl pz) = [.inr handle] := by
  simp [Heap.graph, kind, store]

/-- Without an objects store the object of a zval is not followed. -/
theorem succ_object_no_store (kind : heap.kind pz = .object handle)
    (store : heap.objectBuckets = false) : heap.graph.succ (.inl pz) = [] := by
  simp [Heap.graph, kind, store]

theorem succ_array (kind : heap.kind pz = .array false elements) :
    heap.graph.succ (.inl pz) = elements.map .inl := by
  simp [Heap.graph, kind]

theorem succ_other (kind : heap.kind pz = .other) : heap.graph.succ (.inl pz) = [] := by
  simp [Heap.graph, kind]

theorem succ_handle (store : heap.objectBuckets = true) :
    heap.graph.succ (.inr handle) = (heap.values handle).map .inl := by
  simp [Heap.graph, store]

theorem isSymbolTable_array {symbolTable : Bool}
    (kind : heap.kind pz = .array symbolTable elements) :
    heap.isSymbolTable pz = symbolTable := by
  simp [Heap.isSymbolTable, kind]

end kinds

theorem refcount_pos_iff {count : BitVec 32} : 0 < count ↔ count ≠ 0 := by
  bv_omega

/-! ### Painting -/

/-- Only counts and colours differ. -/
structure Painted (g g' : GcState Z O) : Prop where
  rest : g' = { g with refcount := g'.refcount, buffered := g'.buffered }
  address : g'.address = g.address

theorem Painted.refl (g : GcState Z O) : Painted g g := ⟨rfl, rfl⟩

theorem Painted.trans {a b c : GcState Z O} (ab : Painted a b) (bc : Painted b c) :
    Painted a c := by
  refine ⟨?_, bc.address.trans ab.address⟩
  rw [bc.rest, ab.rest]

/-- The zvals whose colour satisfies `p`; their number bounds the recursion. -/
def GcState.zvals [Fintype Z] (g : GcState Z O) (p : Color → Bool) : Finset Z :=
  Finset.univ.filter fun z => p (g.color (.inl z))

variable {g : GcState Z O} {p : Color → Bool}

theorem mem_zvals [Fintype Z] {z : Z} : z ∈ g.zvals p ↔ p (g.color (.inl z)) := by
  simp [GcState.zvals]

def isColor (c d : Color) : Bool := decide (d = c)

def Fewer (c : Color) (g g' : GcState Z O) : Prop := ∀ n, g'.color n = c → g.color n = c

variable {c : Color}

/-- The measure of the recursion: painting leaves fewer zvals of the colour. -/
theorem Fewer.zvals [Fintype Z] {g' : GcState Z O} (fewer : Fewer c g g') :
    g'.zvals (isColor c) ⊆ g.zvals (isColor c) := by
  intro z
  simpa [mem_zvals, isColor] using fewer (.inl z)

theorem Fewer.refl (c : Color) (g : GcState Z O) : Fewer c g g := fun _ => id

theorem Fewer.trans {g₁ g₂ g₃ : GcState Z O} (first : Fewer c g₁ g₂)
    (second : Fewer c g₂ g₃) : Fewer c g₁ g₃ := fun n painted => first n (second n painted)

variable [DecidableEq Z] [DecidableEq O]

section tags

variable (g : GcState Z O) (n : Node Z O) (c : Color) (p : Ptr Z)

@[simp] theorem setColor_color : (g.setColor n c).color = update g.color n c :=
  comp_update Tagged.color g.buffered n _

@[simp] theorem setColor_address : (g.setColor n c).address = g.address :=
  (comp_update Tagged.addr g.buffered n _).trans (update_eq_self n g.address)

@[simp] theorem setAddress_color : (g.setAddress n p).color = g.color :=
  (comp_update Tagged.color g.buffered n _).trans (update_eq_self n g.color)

@[simp] theorem setAddress_address : (g.setAddress n p).address = update g.address n p :=
  comp_update Tagged.addr g.buffered n _

theorem painted_setColor : Painted g (g.setColor n c) :=
  ⟨rfl, setColor_address g n c⟩

theorem painted_addRef : Painted g (g.addRef n) := ⟨rfl, rfl⟩

theorem painted_delRef : Painted g (g.delRef n) := ⟨rfl, rfl⟩

end tags

theorem toNat_addRef {zv : Z} (small : (g.refcount (.inl zv)).toNat + 1 < 2 ^ 32) (z : Z) :
    ((g.addRef (.inl zv)).refcount (.inl z)).toNat = (g.refcount (.inl z)).toNat + if z = zv then 1
      else 0 := by
  by_cases same : z = zv
  · subst same
    simp only [GcState.addRef, update_self, if_true]
    exact Nat.mod_eq_of_lt small
  · simp [GcState.addRef, same]

/-- The counts are 32 bits wide; a count that is positive does not wrap around. -/
theorem toNat_delRef {zv : Z} (positive : 0 < (g.refcount (.inl zv)).toNat) (z : Z) :
    ((g.delRef (.inl zv)).refcount (.inl z)).toNat = (g.refcount (.inl z)).toNat - if z = zv then 1
      else 0 := by
  by_cases same : z = zv
  · subst same
    simp only [GcState.delRef, update_self, if_true]
    have one : (1 : BitVec 32).toNat = 1 := rfl
    rw [BitVec.toNat_sub]
    omega
  · simp [GcState.delRef, same]

section children

variable (heap : Heap Z O) (g : GcState Z O) (pz : Z)

@[simp] theorem delRefChild_color : (g.delRefChild heap pz).color = g.color := by
  unfold GcState.delRefChild
  split <;> rfl

@[simp] theorem addRefChild_color : (g.addRefChild heap pz).color = g.color := by
  unfold GcState.addRefChild
  split <;> rfl

/-- A child loses one reference, unless it is the symbol table. -/
theorem delRefChild_refcount :
    (g.delRefChild heap pz).refcount = heap.graph.drop g.refcount (.inl pz) := by
  unfold GcState.delRefChild Graph.drop
  rw [graph_inert_zval]
  split <;> rfl

/-- The scan and the collection give back what the mark phase took. -/
theorem addRefChild_refcount :
    (g.addRefChild heap pz).refcount = heap.graph.restore g.refcount (.inl pz) := by
  unfold GcState.addRefChild Graph.restore
  rw [graph_inert_zval]
  split <;> rfl

theorem painted_addRefChild : Painted g (g.addRefChild heap pz) := by
  unfold GcState.addRefChild
  split
  · exact Painted.refl g
  · exact painted_addRef g _

theorem painted_delRefChild : Painted g (g.delRefChild heap pz) := by
  unfold GcState.delRefChild
  split
  · exact Painted.refl g
  · exact painted_delRef g _

end children

/-! ### How many zvals of a colour are left -/

theorem fewer_setColor (g : GcState Z O) (n : Node Z O) {d : Color} (paint : d ≠ c) :
    Fewer c g (g.setColor n d) := by
  intro m painted
  rw [setColor_color] at painted
  by_cases same : m = n
  · subst same
    rw [update_self] at painted
    exact absurd painted paint
  · rwa [update_of_ne same] at painted

theorem Fewer.settled {g' : GcState Z O} {n : Node Z O} {d : Color}
    (fewer : Fewer c (g.setColor n d) g') (paint : d ≠ c) : g'.color n ≠ c := by
  intro painted
  have still := fewer n painted
  rw [setColor_color, update_self] at still
  exact paint still

section left

variable [Fintype Z]

theorem zvals_setColor {pz : Z} (gone : p c = false) :
    (g.setColor (.inl pz) c).zvals p = (g.zvals p).erase pz := by
  ext z
  by_cases same : z = pz
  · simp [mem_zvals, same, gone]
  · simp [mem_zvals, same, update_of_ne]

/-- A node that is painted leaves room for one more level of the recursion. -/
theorem card_zvals_setColor {pz : Z} {depth : Nat} (gone : p c = false)
    (here : p (g.color (.inl pz))) (room : (g.zvals p).card < depth + 1) :
    ((g.setColor (.inl pz) c).zvals p).card < depth := by
  rw [zvals_setColor gone]
  have smaller := Finset.card_erase_lt_of_mem (mem_zvals.mpr here)
  omega

end left

end Jonj.Gc
