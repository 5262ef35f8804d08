import Jonj.Gc.Graph

/-!
# `zval_mark_grey` and `zobj_mark_grey`

Both functions keep the invariant of the mark phase. The inlined visit of an
object, with its own count and colour, is one more reference followed.
-/
namespace Jonj.Gc

open TrialDeletion Runs Function

def notGrey (c : Color) : Bool := decide (c ≠ .grey)

variable {Z O : Type}

def MoreMarked (heap : Heap Z O) (g g' : GcState Z O) : Prop :=
  ∀ n, heap.graph.Marked g.color n → heap.graph.Marked g'.color n

theorem MoreMarked.trans {heap : Heap Z O} {a b c : GcState Z O} (ab : MoreMarked heap a b)
    (bc : MoreMarked heap b c) : MoreMarked heap a c := fun n marked => bc n (ab n marked)

variable [DecidableEq Z] [DecidableEq O]

theorem moreMarked_grey (heap : Heap Z O) (g : GcState Z O) (n : Node Z O) :
    MoreMarked heap g (g.setColor n .grey) := by
  intro m marked
  rw [setColor_color]
  by_cases same : m = n
  · exact .inl (by rw [same, update_self])
  · rw [Graph.Marked, update_of_ne same]
    exact marked

section mark

variable [Fintype Z] [Fintype O] (heap : Heap Z O) (rc₀ : Node Z O → BitVec 32)
    (color₀ : Node Z O → Color) (isRoot : Node Z O → Prop)

/-- The mark phase with the zvals of `rest` as the references to follow next. -/
structure Marking (start : GcState Z O) (pending : List (Node Z O)) (depth : Nat)
    (g : GcState Z O) (rest : List Z) : Prop where
  inv : MarkInv heap.graph rc₀ color₀ isRoot g.refcount g.color (rest.map .inl ++ pending) none
  painted : Painted start g
  more : MoreMarked heap start g
  fewer : g.zvals notGrey ⊆ start.zvals notGrey
  room : (g.zvals notGrey).card < depth

/-- What `zval_mark_grey` does, to be shown by induction on the depth. -/
def MarksZval (depth : Nat) : Prop :=
  ∀ (g : GcState Z O) (pz : Z) (pending : List (Node Z O)), (g.zvals notGrey).card < depth →
    MarkInv heap.graph rc₀ color₀ isRoot g.refcount g.color pending (some (.inl pz)) →
    ∃ g', zvalMarkGrey heap depth g pz = some g' ∧ Painted g g' ∧ MoreMarked heap g g' ∧
      heap.graph.Marked g'.color (.inl pz) ∧ g'.zvals notGrey ⊆ g.zvals notGrey ∧
      MarkInv heap.graph rc₀ color₀ isRoot g'.refcount g'.color pending none

variable {heap rc₀ color₀ isRoot}

theorem markChildren {depth : Nat} (calls : MarksZval heap rc₀ color₀ isRoot depth)
    {g : GcState Z O} {values : List Z} {pending : List (Node Z O)}
    (room : (g.zvals notGrey).card < depth)
    (inv : MarkInv heap.graph rc₀ color₀ isRoot g.refcount g.color
      (values.map .inl ++ pending) none) :
    ∃ g', values.foldlM (fun g pz => zvalMarkGrey heap depth (g.delRefChild heap pz) pz) g =
        some g' ∧ Painted g g' ∧ MoreMarked heap g g' ∧ g'.zvals notGrey ⊆ g.zvals notGrey ∧
      MarkInv heap.graph rc₀ color₀ isRoot g'.refcount g'.color pending none := by
  obtain ⟨g', looped, final⟩ := foldlM_pending
    (f := fun g pz => zvalMarkGrey heap depth (g.delRefChild heap pz) pz)
    (I := Marking heap rc₀ color₀ isRoot g pending depth)
    (by
      intro h pz rest now
      have follow := now.inv.follow
      rw [← delRefChild_refcount, ← delRefChild_color heap h pz] at follow
      have same : (h.delRefChild heap pz).zvals notGrey = h.zvals notGrey := by
        simp [GcState.zvals]
      obtain ⟨h', called, painted, more, _, fewer, inv'⟩ :=
        calls (h.delRefChild heap pz) pz (rest.map .inl ++ pending) (same ▸ now.room) follow
      rw [same] at fewer
      refine ⟨h', called, inv', ?_, ?_, fewer.trans now.fewer, ?_⟩
      · exact now.painted.trans ((painted_delRefChild heap h pz).trans painted)
      · exact now.more.trans fun n marked => more n (by simpa using marked)
      · exact (Finset.card_le_card fewer).trans_lt now.room)
    values [] g (by
      simpa using ⟨inv, Painted.refl g, fun _ => id, Finset.Subset.refl _, room⟩)
  exact ⟨g', looped, final.painted, final.more, final.fewer, by simpa using final.inv⟩

/-- Painting an object and following its references, as both functions do. -/
theorem markObject {depth : Nat} (calls : MarksZval heap rc₀ color₀ isRoot depth)
    (store : heap.objectBuckets = true) {g : GcState Z O} {handle : O}
    {pending : List (Node Z O)} (room : (g.zvals notGrey).card < depth)
    (inv : MarkInv heap.graph rc₀ color₀ isRoot g.refcount g.color pending (some (.inr handle))) :
    ∃ g', zobjMarkGrey heap depth g handle = some g' ∧ Painted g g' ∧ MoreMarked heap g g' ∧
      heap.graph.Marked g'.color (.inr handle) ∧ g'.zvals notGrey ⊆ g.zvals notGrey ∧
      MarkInv heap.graph rc₀ color₀ isRoot g'.refcount g'.color pending none := by
  unfold zobjMarkGrey
  split
  next fresh =>
    have entered := inv.enter rfl fresh
    rw [← setColor_color, succ_handle store] at entered
    have room' : ((g.setColor (.inr handle) .grey).zvals notGrey).card < depth := by
      exact room
    obtain ⟨g', looped, painted, more, fewer, final⟩ := markChildren calls room' entered
    refine ⟨g', looped, (painted_setColor g _ _).trans painted,
      (moreMarked_grey heap g _).trans more, more _ (.inl ?_), fewer, final⟩
    rw [setColor_color, update_self]
  next grey =>
    have marked : heap.graph.Marked g.color (.inr handle) := .inl (not_not.mp grey)
    exact ⟨g, rfl, Painted.refl g, fun _ => id, marked, Finset.Subset.refl _, inv.skip marked⟩

theorem zvalMarkGrey_spec (depth : Nat) : MarksZval heap rc₀ color₀ isRoot depth := by
  induction depth with
  | zero => exact fun _ _ _ room => absurd room (Nat.not_lt_zero _)
  | succ depth ih =>
    intro g pz pending room inv
    unfold zvalMarkGrey
    split
    next fresh =>
      have here : notGrey (g.color (.inl pz)) = true := by simpa [notGrey] using fresh
      have room' : ((g.setColor (.inl pz) .grey).zvals notGrey).card < depth :=
        card_zvals_setColor (by decide) here room
      have fewer : (g.setColor (.inl pz) .grey).zvals notGrey ⊆ g.zvals notGrey := by
        rw [zvals_setColor (by decide)]
        exact Finset.erase_subset ..
      have own : heap.graph.Marked (g.setColor (.inl pz) .grey).color (.inl pz) :=
        .inl (by rw [setColor_color, update_self])
      have before : MoreMarked heap g (g.setColor (.inl pz) .grey) := moreMarked_grey heap g _
      -- the node is grey now, and what follows depends on its kind
      cases kind : heap.kind pz with
      | object handle =>
        have entered := inv.enter (by rw [graph_inert_zval]; simp [Heap.isSymbolTable, kind]) fresh
        rw [← setColor_color] at entered
        simp only
        split
        next store =>
          rw [succ_object kind store] at entered
          have follow := entered.follow
          obtain ⟨g', called, painted, more, _, fewer', final⟩ := markObject ih store
            (g := (g.setColor (.inl pz) .grey).delRef (.inr handle)) room' follow
          exact ⟨g', called, ((painted_setColor g _ _).trans (painted_delRef _ _)).trans painted,
            before.trans more, more _ own, fewer'.trans fewer, final⟩
        next noStore =>
          rw [succ_object_no_store kind (by simpa using noStore)] at entered
          exact ⟨_, rfl, painted_setColor g _ _, before, own, fewer, entered⟩
      | array symbolTable elements =>
        simp only
        split
        next table =>
          -- the symbol table is painted black again and is not entered
          have inert : heap.graph.inert (.inl pz) = true := (isSymbolTable_array kind).trans table
          have blackened := inv.enterInert inert
          have color : ((g.setColor (.inl pz) .grey).setColor (.inl pz) .black).color =
              update g.color (.inl pz) .black := by
            rw [setColor_color, setColor_color, update_idem]
          refine ⟨_, rfl, (painted_setColor g _ _).trans (painted_setColor _ _ _), ?_, ?_, ?_, ?_⟩
          · intro n marked
            rw [color]
            by_cases same : n = .inl pz
            · exact .inr ⟨same ▸ inert, by rw [same, update_self]⟩
            · rw [Graph.Marked, update_of_ne same]
              exact marked
          · exact .inr ⟨inert, by rw [color, update_self]⟩
          · intro z
            rw [mem_zvals, mem_zvals, color]
            by_cases same : z = pz
            · subst same
              exact fun _ => here
            · rw [update_of_ne (by simpa using same)]
              exact id
          · rw [color]
            exact blackened
        next plain =>
          have kind' : heap.kind pz = .array false elements := by
            rw [kind, Bool.eq_false_of_not_eq_true plain]
          have entered := inv.enter (isSymbolTable_array kind') fresh
          rw [← setColor_color, succ_array kind'] at entered
          obtain ⟨g', looped, painted, more, fewer', final⟩ := markChildren ih room' entered
          exact ⟨g', looped, (painted_setColor g _ _).trans painted, before.trans more,
            more _ own, fewer'.trans fewer, final⟩
      | other =>
        have entered := inv.enter (by rw [graph_inert_zval]; simp [Heap.isSymbolTable, kind]) fresh
        rw [← setColor_color, succ_other kind] at entered
        exact ⟨_, rfl, painted_setColor g _ _, before, own, fewer, entered⟩
    next grey =>
      have marked : heap.graph.Marked g.color (.inl pz) := .inl (not_not.mp grey)
      exact ⟨g, rfl, Painted.refl g, fun _ => id, marked, Finset.Subset.refl _, inv.skip marked⟩

end mark

end Jonj.Gc
