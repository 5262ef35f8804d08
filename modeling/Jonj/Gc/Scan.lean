import Jonj.Gc.Graph

/-!
# `zval_scan`, `zval_scan_black` and their counterparts for objects

`zval_scan_black` gives back what the mark phase took from the children of a node
that turns out to be alive; it may meet nodes that are already white.
-/
namespace Jonj.Gc

open TrialDeletion Runs

def notBlack (c : Color) : Bool := decide (c ≠ .black)

variable {Z O : Type} [DecidableEq Z] [DecidableEq O] [Fintype Z]

variable {scans : List (Node Z O)} {g : GcState Z O} {depth : Nat}

section black

variable (heap : Heap Z O) (rcM : Node Z O → BitVec 32) (colorM : Node Z O → Color)
    (area : Finset (Node Z O))

/-- What `zval_scan_black` does, to be shown by induction on the depth. -/
def BlackensZval (depth : Nat) : Prop :=
  ∀ (g : GcState Z O) (pz : Z) (scans blacks : List (Node Z O)),
    (g.zvals notBlack).card < depth → g.color (.inl pz) ≠ .black →
    ScanInv heap.graph rcM colorM area g.refcount g.color scans blacks none (some (.inl pz)) →
    ∃ g', zvalScanBlack heap depth g pz = some g' ∧ Painted g g' ∧
      Fewer .grey (g.setColor (.inl pz) .black) g' ∧ g'.zvals notBlack ⊆ g.zvals notBlack ∧
      ScanInv heap.graph rcM colorM area g'.refcount g'.color scans blacks none none

/-- The references of `rest` are still to be given back. -/
structure Blackening (start : GcState Z O) (scans blacks : List (Node Z O))
    (depth : Nat) (g : GcState Z O) (rest : List Z) : Prop where
  inv : ScanInv heap.graph rcM colorM area g.refcount g.color scans (rest.map .inl ++ blacks)
    none none
  painted : Painted start g
  greys : Fewer .grey start g
  fewer : g.zvals notBlack ⊆ start.zvals notBlack
  room : (g.zvals notBlack).card < depth

variable {heap rcM colorM area}

theorem blackenChildren (calls : BlackensZval heap rcM colorM area depth) {values : List Z}
    {blacks : List (Node Z O)}
    (room : (g.zvals notBlack).card < depth)
    (inv : ScanInv heap.graph rcM colorM area g.refcount g.color scans
      (values.map .inl ++ blacks) none none) :
    ∃ g', values.foldlM (fun (g : GcState Z O) pz =>
        let g := g.addRefChild heap pz
        if g.color (.inl pz) ≠ .black then zvalScanBlack heap depth g pz else some g) g =
        some g' ∧ Painted g g' ∧ Fewer .grey g g' ∧ g'.zvals notBlack ⊆ g.zvals notBlack ∧
      ScanInv heap.graph rcM colorM area g'.refcount g'.color scans blacks none none := by
  obtain ⟨g', looped, final⟩ := foldlM_pending
    (f := fun (g : GcState Z O) pz =>
      let g := g.addRefChild heap pz
      if g.color (.inl pz) ≠ .black then zvalScanBlack heap depth g pz else some g)
    (I := Blackening heap rcM colorM area g scans blacks depth)
    (by
      intro h pz rest now
      have given := now.inv.giveBack
      rw [← addRefChild_refcount] at given
      have painted := now.painted.trans (painted_addRefChild heap h pz)
      have same : (h.addRefChild heap pz).zvals notBlack = h.zvals notBlack := by
        simp [GcState.zvals]
      simp only [addRefChild_color]
      split
      next fresh =>
        obtain ⟨h', called, painted', greys, fewer, inv'⟩ :=
          calls (h.addRefChild heap pz) pz scans (rest.map .inl ++ blacks) (same ▸ now.room)
            (by simpa using fresh) (by simpa using given)
        rw [same] at fewer
        refine ⟨h', called, inv', painted.trans painted', ?_, fewer.trans now.fewer, ?_⟩
        · intro n grey
          have before := fewer_setColor _ _ (by decide) n (greys n grey)
          exact now.greys n (by simpa using before)
        · exact (Finset.card_le_card fewer).trans_lt now.room
      next black =>
        have done := given.blackSkip (not_not.mp black)
        refine ⟨_, rfl, by simpa using done, painted, ?_, same ▸ now.fewer, same ▸ now.room⟩
        intro n grey
        exact now.greys n (by simpa using grey))
    values [] g (by
      simpa using ⟨inv, Painted.refl g, fun _ => id, Finset.Subset.refl _, room⟩)
  exact ⟨g', looped, final.painted, final.greys, final.fewer, by simpa using final.inv⟩

theorem zobjScanBlack_spec (calls : BlackensZval heap rcM colorM area depth)
    (store : heap.objectBuckets = true) {handle : O}
    {blacks : List (Node Z O)} (room : (g.zvals notBlack).card < depth)
    (fresh : g.color (.inr handle) ≠ .black)
    (inv : ScanInv heap.graph rcM colorM area g.refcount g.color scans blacks none
      (some (.inr handle))) :
    ∃ g', zobjScanBlack heap depth g handle = some g' ∧ Painted g g' ∧
      Fewer .grey (g.setColor (.inr handle) .black) g' ∧ g'.zvals notBlack ⊆ g.zvals notBlack ∧
      ScanInv heap.graph rcM colorM area g'.refcount g'.color scans blacks none none := by
  have blackened := inv.blacken fresh
  rw [← setColor_color, succ_handle store] at blackened
  obtain ⟨g', looped, painted, greys, fewer, final⟩ := blackenChildren calls
    (g := g.setColor (.inr handle) .black)
    (by exact room) blackened
  exact ⟨g', looped, (painted_setColor g _ _).trans painted, greys, fewer, final⟩

theorem zvalScanBlack_spec (depth : Nat) : BlackensZval heap rcM colorM area depth := by
  induction depth with
  | zero => exact fun _ _ _ _ room => absurd room (Nat.not_lt_zero _)
  | succ depth ih =>
    intro g pz scans blacks room fresh inv
    have here : notBlack (g.color (.inl pz)) = true := by simpa [notBlack] using fresh
    have room' : ((g.setColor (.inl pz) .black).zvals notBlack).card < depth :=
      card_zvals_setColor (by decide) here room
    have fewer : (g.setColor (.inl pz) .black).zvals notBlack ⊆ g.zvals notBlack := by
      rw [zvals_setColor (by decide)]
      exact Finset.erase_subset ..
    have blackened := inv.blacken fresh
    rw [← setColor_color] at blackened
    unfold zvalScanBlack
    cases kind : heap.kind pz with
    | object handle =>
      simp only
      split
      next store =>
        rw [succ_object kind store] at blackened
        have given := blackened.giveBack
        have painted : Painted g ((g.setColor (.inl pz) .black).addRef (.inr handle)) :=
          (painted_setColor g _ _).trans (painted_addRef _ _)
        split
        next freshObject =>
          obtain ⟨g', called, painted', greys', fewer', final⟩ := zobjScanBlack_spec ih store
            (g := (g.setColor (.inl pz) .black).addRef (.inr handle)) room' freshObject given
          exact ⟨g', called, painted.trans painted',
            (fewer_setColor _ _ (by decide)).trans greys', fewer'.trans fewer, final⟩
        next black =>
          exact ⟨_, rfl, painted, fun _ => id, fewer, given.blackSkip (not_not.mp black)⟩
      next noStore =>
        rw [succ_object_no_store kind (by simpa using noStore)] at blackened
        exact ⟨_, rfl, painted_setColor g _ _, fun _ => id, fewer, blackened⟩
    | array symbolTable elements =>
      have kind' : heap.kind pz = .array false elements := by
        have inside : Sum.inl pz ∈ area := (inv.due _ (.inr rfl)).resolve_right fresh
        have active := inv.active _ inside
        rw [graph_inert_zval, isSymbolTable_array kind] at active
        rw [kind, active]
      rw [kind] at kind'
      cases kind'
      rw [succ_array kind] at blackened
      obtain ⟨g', looped, painted, greys', fewer', final⟩ := blackenChildren ih room' blackened
      refine ⟨g', ?_, (painted_setColor g _ _).trans painted, greys', fewer'.trans fewer, final⟩
      simpa using looped
    | other =>
      rw [succ_other kind] at blackened
      exact ⟨_, rfl, painted_setColor g _ _, fun _ => id, fewer, blackened⟩

end black

section scan

variable (heap : Heap Z O) (rcM : Node Z O → BitVec 32) (colorM : Node Z O → Color)
    (area : Finset (Node Z O))

/-- What a scan of the node `n` leaves behind. -/
structure ScannedTo (scans : List (Node Z O)) (n : Node Z O) (g g' : GcState Z O) :
    Prop where
  painted : Painted g g'
  greys : Fewer .grey g g'
  settled : g'.color n ≠ .grey
  inv : ScanInv heap.graph rcM colorM area g'.refcount g'.color scans [] none none

/-- What `zval_scan` does, to be shown by induction on the depth. -/
def ScansZval (maxDepth depth : Nat) : Prop :=
  ∀ (g : GcState Z O) (pz : Z) (scans : List (Node Z O)), (g.zvals (isColor .grey)).card < depth →
    ScanInv heap.graph rcM colorM area g.refcount g.color scans [] (some (.inl pz)) none →
    ∃ g', zvalScan heap maxDepth depth g pz = some g' ∧
      ScannedTo heap rcM colorM area scans (.inl pz) g g'

structure Scanning (start : GcState Z O) (scans : List (Node Z O)) (depth : Nat)
    (g : GcState Z O) (rest : List Z) : Prop where
  inv : ScanInv heap.graph rcM colorM area g.refcount g.color (rest.map .inl ++ scans) [] none none
  painted : Painted start g
  greys : Fewer .grey start g
  room : (g.zvals (isColor .grey)).card < depth

variable {heap rcM colorM area} {maxDepth : Nat}

theorem scanChildren (calls : ScansZval heap rcM colorM area maxDepth depth) {values : List Z}
    (room : (g.zvals (isColor .grey)).card < depth)
    (inv : ScanInv heap.graph rcM colorM area g.refcount g.color (values.map .inl ++ scans)
      [] none none) :
    ∃ g', values.foldlM (fun g pz => zvalScan heap maxDepth depth g pz) g = some g' ∧ Painted g g' ∧
      Fewer .grey g g' ∧
      ScanInv heap.graph rcM colorM area g'.refcount g'.color scans [] none none := by
  obtain ⟨g', looped, final⟩ := foldlM_pending
    (f := fun g pz => zvalScan heap maxDepth depth g pz)
    (I := Scanning heap rcM colorM area g scans depth)
    (by
      intro h pz rest now
      obtain ⟨h', called, scanned⟩ := calls h pz (rest.map .inl ++ scans) now.room now.inv.scanNext
      refine ⟨h', called, scanned.inv, now.painted.trans scanned.painted,
        now.greys.trans scanned.greys, ?_⟩
      exact (Finset.card_le_card scanned.greys.zvals).trans_lt now.room)
    values [] g (by simpa using ⟨inv, Painted.refl g, fun _ => id, room⟩)
  exact ⟨g', looped, final.painted, final.greys, by simpa using final.inv⟩

/-- Scanning an object, as `zval_scan` does inline and `zobj_scan` for a root. -/
theorem scanObject (calls : ScansZval heap rcM colorM area maxDepth depth)
    (deep : Fintype.card Z < maxDepth) (store : heap.objectBuckets = true) {handle : O}
    (room : (g.zvals (isColor .grey)).card < depth)

    (inv : ScanInv heap.graph rcM colorM area g.refcount g.color scans []
      (some (.inr handle)) none) :
    ∃ g', (if g.color (.inr handle) = .grey then if 0 < g.refcount (.inr handle) then
      zobjScanBlack heap maxDepth g handle
        else (heap.values handle).foldlM (fun g pz => zvalScan heap maxDepth depth g pz)
          (g.setColor (.inr handle) .white)
      else some g) = some g' ∧ ScannedTo heap rcM colorM area scans (.inr handle) g g' := by
  split
  next grey =>
    split
    next counted =>
      have fresh : g.color (.inr handle) ≠ .black := by simp [grey]
      have due := inv.turnBlack grey (refcount_pos_iff.mp counted)
      obtain ⟨g', called, painted, greys, _, final⟩ := zobjScanBlack_spec
        (zvalScanBlack_spec maxDepth) store ((Finset.card_le_univ _).trans_lt deep) fresh due
      exact ⟨g', called, painted, (fewer_setColor g _ (by decide)).trans greys,
        greys.settled (by decide), final⟩
    next zero =>
      have whitened := inv.turnWhite grey (not_not.mp fun left => zero (refcount_pos_iff.mpr left))
      rw [← setColor_color, succ_handle store] at whitened
      have room' : ((g.setColor (.inr handle) .white).zvals (isColor .grey)).card < depth := by
        exact room
      obtain ⟨g', looped, painted, greys, final⟩ := scanChildren calls room' whitened
      exact ⟨g', looped, (painted_setColor g _ _).trans painted,
        (fewer_setColor g _ (by decide)).trans greys, greys.settled (by decide), final⟩
  next settled => exact ⟨g, rfl, Painted.refl g, fun _ => id, settled, inv.scanSkip settled⟩

theorem zvalScan_spec (deep : Fintype.card Z < maxDepth) (depth : Nat) :
    ScansZval heap rcM colorM area maxDepth depth := by
  induction depth with
  | zero => exact fun _ _ _ room => absurd room (Nat.not_lt_zero _)
  | succ depth ih =>
    intro g pz scans room inv
    unfold zvalScan
    split
    next grey =>
      have inside : Sum.inl pz ∈ area := by
        by_contra outside
        exact (inv.outside _ outside).2 grey
      split
      next counted =>
        obtain ⟨g', called, painted, greys, _, final⟩ := zvalScanBlack_spec maxDepth g pz scans []
          ((Finset.card_le_univ _).trans_lt deep) (by simp [grey])
            (inv.turnBlack grey (refcount_pos_iff.mp counted))
        exact ⟨g', called, painted, (fewer_setColor g _ (by decide)).trans greys,
          greys.settled (by decide), final⟩
      next zero =>
      have whitened := inv.turnWhite grey (not_not.mp fun left => zero (refcount_pos_iff.mpr left))
      rw [← setColor_color] at whitened
      have room' : ((g.setColor (.inl pz) .white).zvals (isColor .grey)).card < depth :=
        card_zvals_setColor (by decide) (by simp [isColor, grey]) room
      have greys : Fewer .grey g (g.setColor (.inl pz) .white) := fewer_setColor g _ (by decide)
      -- from here on only the node itself matters: it is white
      have whitening : ∀ {x : Option (GcState Z O)}, (∃ g', x = some g' ∧
          Painted (g.setColor (.inl pz) .white) g' ∧
          Fewer .grey (g.setColor (.inl pz) .white) g' ∧
          ScanInv heap.graph rcM colorM area g'.refcount g'.color scans [] none none) →
          ∃ g', x = some g' ∧ ScannedTo heap rcM colorM area scans (.inl pz) g g' := by
        rintro x ⟨g', called, painted, greys', final⟩
        exact ⟨g', called, (painted_setColor g _ _).trans painted, greys.trans greys',
          greys'.settled (by decide), final⟩
      refine whitening ?_
      cases kind : heap.kind pz with
      | object handle =>
        simp only
        split
        next store =>
          rw [succ_object kind store] at whitened
          obtain ⟨g', called, scanned⟩ := scanObject ih deep store room' whitened.scanNext
          exact ⟨g', called, scanned.painted, scanned.greys, scanned.inv⟩
        next noStore =>
          rw [succ_object_no_store kind (by simpa using noStore)] at whitened
          exact ⟨_, rfl, Painted.refl _, fun _ => id, whitened⟩
      | array symbolTable elements =>
        have active := inv.active _ inside
        rw [graph_inert_zval, isSymbolTable_array kind] at active
        subst active
        rw [succ_array kind] at whitened
        simpa using scanChildren ih room' whitened
      | other =>
        rw [succ_other kind] at whitened
        exact ⟨_, rfl, Painted.refl _, fun _ => id, whitened⟩
    next settled => exact ⟨g, rfl, Painted.refl g, fun _ => id, settled, inv.scanSkip settled⟩

theorem zobjScan_spec (deep : Fintype.card Z < maxDepth) {handle : O}
    (store : heap.objectBuckets = true)

    (inv : ScanInv heap.graph rcM colorM area g.refcount g.color scans []
      (some (.inr handle)) none) :
    ∃ g', zobjScan heap maxDepth g handle = some g' ∧
      ScannedTo heap rcM colorM area scans (.inr handle) g g' := by
  unfold zobjScan
  rw [if_pos store]
  exact scanObject (zvalScan_spec deep maxDepth) deep store
    ((Finset.card_le_univ _).trans_lt deep) inv

end scan

end Jonj.Gc
