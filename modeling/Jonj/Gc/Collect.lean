import Jonj.Gc.Graph

/-!
# `zval_collect_white` and `zobj_collect_white`

A white zval is painted black and put on the list to free, a white object is
painted purple. What is still buffered is left to its own entry in the buffer.
-/
namespace Jonj.Gc

open TrialDeletion Runs List Function GcState

variable {Z O : Type}

/-- The list that starts at `p`, linked through the `u.next` fields of its zvals. -/
def FreeChain (g : GcState Z O) : Ptr Z → List Z → Prop
  | p, [] => p = .freeListEnd
  | p, z :: rest =>
    p = .zval z ∧ g.color (.inl z) = .black ∧ FreeChain g (g.address (.inl z)) rest

variable {g : GcState Z O}

theorem FreeChain.congr {g' : GcState Z O} {l : List Z} {p : Ptr Z} (chain : FreeChain g p l)
    (same : ∀ z ∈ l, g'.buffered (.inl z) = g.buffered (.inl z)) : FreeChain g' p l := by
  induction l generalizing p with
  | nil => exact chain
  | cons z l ih =>
    obtain ⟨head, black, rest⟩ := chain
    have here := same z mem_cons_self
    have later := ih rest fun y member => same y (mem_cons_of_mem z member)
    refine ⟨head, ?_, ?_⟩
    · rw [color, here]
      exact black
    · rw [address, here]
      exact later

/-- What is on the list to free is black. -/
theorem FreeChain.black {l : List Z} {p : Ptr Z} (chain : FreeChain g p l)
    {z : Z} (member : z ∈ l) : g.color (.inl z) = .black := by
  induction l generalizing p with
  | nil => cases member
  | cons y l ih =>
    obtain ⟨_, black, rest⟩ := chain
    rcases mem_cons.mp member with rfl | later
    · exact black
    · exact ih rest later

def taken (whites : Finset (Node Z O)) (g : GcState Z O) : Finset (Node Z O) :=
  whites.filter fun n => g.color n ≠ .white

variable {n : Node Z O}

theorem mem_taken {whites : Finset (Node Z O)} :
    n ∈ taken whites g ↔ n ∈ whites ∧ g.color n ≠ .white := by
  simp [taken]

/-- Only the fields that the collect phase writes differ. -/
def Swept (g g' : GcState Z O) : Prop :=
  g' = { g with refcount := g'.refcount, buffered := g'.buffered, zvalToFree := g'.zvalToFree }

theorem Swept.trans {a b c : GcState Z O} (ab : Swept a b) (bc : Swept b c) : Swept a c := by
  unfold Swept at *
  rw [bc, ab]

/-- A call takes its node if that is not buffered. -/
def Takes (n : Node Z O) (g g' : GcState Z O) : Prop :=
  g.address n = .null → g'.color n ≠ .white

theorem takes_of_other (other : g.buffered n ≠ ⟨.null, .white⟩) : Takes n g g := by
  intro null white
  have addr : (g.buffered n).addr = .null := null
  have color : (g.buffered n).color = .white := white
  exact other (by rw [← addr, ← color])

variable [DecidableEq Z] [DecidableEq O]

theorem takes_of_found {g' : GcState Z O} {c : Color} (paint : c ≠ .white)
    (fewer : Fewer .white (g.setColor n c) g') : Takes n g g' := fun _ => fewer.settled paint

private theorem taken_setColor {whites : Finset (Node Z O)} {c : Color} (white : n ∈ whites)
    (paint : c ≠ .white) :
    taken whites (g.setColor n c) = insert n (taken whites g) := by
  ext m
  by_cases same : m = n
  · subst same
    simp [mem_taken, white, paint]
  · simp [mem_taken, same, update_of_ne]

section collecting

variable (heap : Heap Z O) (rcS : Node Z O → BitVec 32) (whites : Finset (Node Z O))
    (base : Node Z O → Tagged Z) (g : GcState Z O) (freed : List Z)
    (tasks : List (Pending (Node Z O))) (due : Option (Node Z O))

/-- The collect phase in progress. `base` is the `buffered` field of the nodes that
have not been taken, `freed` the list built so far. -/
structure Collecting : Prop where
  inv : CollectInv heap.graph Sum.isLeft rcS whites g.refcount (taken whites g)
    (fun n => g.address n ≠ .null) (freed.map .inl) tasks due
  chain : FreeChain g g.zvalToFree freed
  untouched : ∀ n, n ∉ taken whites g → g.buffered n = base n
  white : ∀ n, (base n).color = .white ↔ n ∈ whites
  let_go : ∀ n ∈ taken whites g, (base n).addr = .null
  object : ∀ handle, Sum.inr handle ∈ taken whites g → g.buffered (.inr handle) = ⟨.null, .purple⟩

variable {heap rcS whites base g freed tasks due}

theorem Collecting.freed_taken (now : Collecting heap rcS whites base g freed tasks due) {z : Z}
    (member : z ∈ freed) : Sum.inl z ∈ taken whites g :=
  now.inv.freed_taken (mem_map_of_mem member)

theorem Collecting.perm {tasks' : List (Pending (Node Z O))}
    (now : Collecting heap rcS whites base g freed tasks due) (same : tasks.Perm tasks') :
    Collecting heap rcS whites base g freed tasks' due :=
  ⟨now.inv.perm same, now.chain, now.untouched, now.white, now.let_go, now.object⟩

/-- A reference is counted again when it is followed. -/
theorem Collecting.giveBack {pz : Z}
    (now : Collecting heap rcS whites base g freed (.edge (.inl pz) :: tasks) none) :
    Collecting heap rcS whites base (g.addRefChild heap pz) freed tasks (some (.inl pz)) := by
  have given := now.inv.giveBack rfl
  rw [← addRefChild_refcount] at given
  have same : (g.addRefChild heap pz).buffered = g.buffered := by
    unfold addRefChild
    split <;> rfl
  have list : (g.addRefChild heap pz).zvalToFree = g.zvalToFree := by
    unfold addRefChild
    split <;> rfl
  have color : (g.addRefChild heap pz).color = g.color := addRefChild_color heap g pz
  have address : (g.addRefChild heap pz).address = g.address := by
    unfold address
    rw [same]
  have same_taken : taken whites (g.addRefChild heap pz) = taken whites g := by
    unfold taken
    rw [color]
  refine ⟨?_, ?_, ?_, now.white, ?_, ?_⟩
  · rw [same_taken, address]
    exact given
  · rw [list]
    exact now.chain.congr fun z _ => by rw [same]
  · rw [same_taken, same]
    exact now.untouched
  · rw [same_taken]
    exact now.let_go
  · rw [same_taken, same]
    exact now.object

theorem Collecting.pass {handle : O}
    (now : Collecting heap rcS whites base g freed (.edge (.inr handle) :: tasks) none) :
    Collecting heap rcS whites base g freed tasks (some (.inr handle)) :=
  ⟨now.inv.pass rfl, now.chain, now.untouched, now.white, now.let_go, now.object⟩

/-- A white node is taken, and its references become pending. -/
theorem Collecting.take {c : Color} (paint : c ≠ .white) (shade : n.isRight → c = .purple)
    (now : Collecting heap rcS whites base g freed tasks (some n))
    (found : g.buffered n = ⟨.null, .white⟩) :
    Collecting heap rcS whites base (g.setColor n c) freed
      (heap.graph.work Sum.isLeft n ++ tasks) none := by
  have white : g.color n = .white := by rw [color, found]
  have fresh : n ∉ taken whites g := fun member => (mem_taken.mp member).2 white
  have here : base n = ⟨.null, .white⟩ := (now.untouched n fresh).symm.trans found
  have inside : n ∈ whites := (now.white n).mp (by rw [here])
  have grown : taken whites (g.setColor n c) = insert n (taken whites g) :=
    taken_setColor inside paint
  have other : ∀ m, m ≠ n → (g.setColor n c).buffered m = g.buffered m := by
    intro m apart
    simp [setColor, setBuffered, update_of_ne apart]
  refine ⟨?_, ?_, ?_, now.white, ?_, ?_⟩
  · rw [grown, setColor_address]
    exact now.inv.take inside fresh
  · refine now.chain.congr fun z member => other _ fun same => fresh ?_
    rw [← same]
    exact now.freed_taken member
  · intro m outside
    rw [grown, Finset.mem_insert, not_or] at outside
    rw [other m outside.1]
    exact now.untouched m outside.2
  · intro m member
    rw [grown] at member
    rcases Finset.mem_insert.mp member with rfl | old
    · rw [here]
    · exact now.let_go m old
  · intro handle member
    rw [grown] at member
    by_cases same : Sum.inr handle = n
    · subst same
      simp [setColor, setBuffered, found, shade rfl]
    · rw [other _ same]
      exact now.object handle ((Finset.mem_insert.mp member).resolve_left same)

/-- A node that is not white, or is still a root, is left to others. -/
theorem Collecting.skip (now : Collecting heap rcS whites base g freed tasks (some n))
    (found : g.buffered n ≠ ⟨.null, .white⟩) :
    Collecting heap rcS whites base g freed tasks none := by
  refine ⟨now.inv.skip fun inside => ?_, now.chain, now.untouched, now.white, now.let_go,
    now.object⟩
  by_cases white : g.color n = .white
  · refine .inr fun null => found ?_
    have addr : (g.buffered n).addr = .null := null
    have color : (g.buffered n).color = .white := white
    rw [← addr, ← color]
  · exact .inl (mem_taken.mpr ⟨inside, white⟩)

/-- `restore refcount and put into list to free`. -/
theorem Collecting.push {pz : Z}
    (now : Collecting heap rcS whites base g freed (.push (.inl pz) :: tasks) due) :
    Collecting heap rcS whites base (g.putToFree pz) (pz :: freed) tasks due := by
  obtain ⟨⟨inside, _⟩, absent⟩ := now.inv.push_fresh
  have fresh : pz ∉ freed := fun member => absent (mem_map_of_mem member)
  have other : ∀ m, m ≠ .inl pz → (g.putToFree pz).buffered m = g.buffered m := by
    intro m apart
    simp [putToFree, setBuffered, addRef, update_of_ne apart]
  have own : (g.putToFree pz).buffered (.inl pz) = ⟨g.zvalToFree, .black⟩ := by
    simp [putToFree, setBuffered, addRef]
  have same : taken whites (g.putToFree pz) = taken whites g := by
    ext m
    rw [mem_taken, mem_taken, color]
    by_cases here : m = .inl pz
    · rw [here, own]
      have before := mem_taken.mp inside
      simp [before.1, before.2]
    · rw [other m here]
      rfl
  refine ⟨?_, ?_, ?_, now.white, ?_, ?_⟩
  · have pushed := now.inv.push
    rw [same]
    refine pushed.rehold fun m outside held => ?_
    have apart : m ≠ .inl pz := fun eq => outside (eq ▸ inside)
    rw [address, other m apart]
    exact held
  · refine ⟨rfl, by rw [color, own], ?_⟩
    rw [address, own]
    refine now.chain.congr fun z member => other _ fun eq => fresh ?_
    rw [← Sum.inl.inj eq]
    exact member
  · intro m outside
    rw [same] at outside
    have apart : m ≠ .inl pz := fun eq => outside (eq ▸ inside)
    rw [other m apart]
    exact now.untouched m outside
  · rw [same]
    exact now.let_go
  · intro handle member
    rw [same] at member
    exact now.object handle member

/-- In the end every zval that was taken is on the list. -/
theorem Collecting.mem_freed (now : Collecting heap rcS whites base g freed [] none) {z : Z}
    (inside : Sum.inl z ∈ taken whites g) : z ∈ freed := by
  simpa using now.inv.mem_freed inside rfl

theorem Collecting.nodup (now : Collecting heap rcS whites base g freed [] none) : freed.Nodup :=
  Nodup.of_map _ now.inv.nodup

theorem Collecting.congr {g' : GcState Z O}
    (now : Collecting heap rcS whites base g freed tasks due) (refcount : g'.refcount = g.refcount)
    (buffered : g'.buffered = g.buffered) (list : g'.zvalToFree = g.zvalToFree) :
    Collecting heap rcS whites base g' freed tasks due := by
  have color : g'.color = g.color := by
    unfold color
    rw [buffered]
  have address : g'.address = g.address := by
    unfold address
    rw [buffered]
  have same : taken whites g' = taken whites g := by
    unfold taken
    rw [color]
  refine ⟨?_, ?_, ?_, now.white, ?_, ?_⟩
  · rw [same, address, refcount]
    exact now.inv
  · rw [list]
    exact now.chain.congr fun z _ => by rw [buffered]
  · rw [same, buffered]
    exact now.untouched
  · rw [same]
    exact now.let_go
  · rw [same, buffered]
    exact now.object

/-- A root may be taken once its slot is freed. -/
theorem Collecting.release (now : Collecting heap rcS whites base g freed tasks none)
    (held : (base n).addr ≠ .null) :
    Collecting heap rcS whites (update base n { base n with addr := .null })
      (g.setAddress n .null) freed tasks (some n) := by
  have fresh : n ∉ taken whites g := fun member => held (now.let_go n member)
  have same : taken whites (g.setAddress n .null) = taken whites g := by
    unfold taken
    rw [setAddress_color]
  have other : ∀ m, m ≠ n → (g.setAddress n .null).buffered m = g.buffered m := by
    intro m apart
    simp [setAddress, setBuffered, update_of_ne apart]
  refine ⟨?_, ?_, ?_, ?_, ?_, ?_⟩
  · rw [same, setAddress_address]
    refine now.inv.release fun m apart held => ?_
    rw [update_of_ne apart]
    exact held
  · refine now.chain.congr fun z member => other _ fun eq => fresh ?_
    rw [← eq]
    exact now.freed_taken member
  · intro m outside
    rw [same] at outside
    by_cases here : m = n
    · subst here
      rw [← now.untouched m outside]
      simp [setAddress, setBuffered]
    · rw [update_of_ne here, other m here]
      exact now.untouched m outside
  · intro m
    rw [← now.white m]
    by_cases here : m = n
    · rw [here, update_self]
    · rw [update_of_ne here]
  · intro m member
    rw [same] at member
    have apart : m ≠ n := fun eq => fresh (eq ▸ member)
    rw [update_of_ne apart]
    exact now.let_go m member
  · intro handle member
    rw [same] at member
    rw [other _ fun eq => fresh (eq ▸ member)]
    exact now.object handle member

end collecting

/-! ### The functions -/

theorem swept_setColor (g : GcState Z O) (n : Node Z O) (c : Color) : Swept g (g.setColor n c) :=
  rfl

theorem swept_putToFree (g : GcState Z O) (pz : Z) : Swept g (g.putToFree pz) := rfl

private theorem swept_addRefChild (heap : Heap Z O) (g : GcState Z O) (pz : Z) :
    Swept g (g.addRefChild heap pz) := by
  unfold addRefChild
  split <;> rfl

theorem fewer_putToFree (g : GcState Z O) (pz : Z) : Fewer .white g (g.putToFree pz) := by
  intro n white
  by_cases same : n = .inl pz
  · subst same
    simp [color, putToFree, setBuffered] at white
  · simpa [color, putToFree, setBuffered, addRef, same, update_of_ne] using white

variable {tasks : List (Pending (Node Z O))}

section functions

variable (heap : Heap Z O) (rcS : Node Z O → BitVec 32) (whites : Finset (Node Z O))
    (base : Node Z O → Tagged Z)

/-- Where a call of the collect phase ends: with nothing of its own pending. -/
structure CollectedTo (tasks : List (Pending (Node Z O))) (g g' : GcState Z O) : Prop where
  now : ∃ freed, Collecting heap rcS whites base g' freed tasks none
  swept : Swept g g'
  fewer : Fewer .white g g'

def CollectsZval [Fintype Z] (depth : Nat) : Prop :=
  ∀ (g : GcState Z O) (pz : Z) (freed : List Z) (tasks : List (Pending (Node Z O))),
    (g.zvals (isColor .white)).card < depth →
    Collecting heap rcS whites base g freed tasks (some (.inl pz)) →
    ∃ g', zvalCollectWhite heap depth g pz = some g' ∧
      CollectedTo heap rcS whites base tasks g g' ∧ Takes (.inl pz) g g'

variable {heap rcS whites base}

theorem CollectedTo.after {a b c : GcState Z O} (rest : CollectedTo heap rcS whites base tasks b c)
    (swept : Swept a b) (fewer : Fewer .white a b) : CollectedTo heap rcS whites base tasks a c :=
  ⟨rest.now, swept.trans rest.swept, fewer.trans rest.fewer⟩

variable [Fintype Z]

section

variable {depth : Nat} (calls : CollectsZval heap rcS whites base depth)

include calls

/-- The loop over the elements or properties. -/
theorem collectChildren {values : List Z} {freed : List Z}
    (room : (g.zvals (isColor .white)).card < depth) (now : Collecting heap rcS whites base g freed
      ((values.map Sum.inl).map Pending.edge ++ tasks) none) :
    ∃ g', values.foldlM (fun g pz => zvalCollectWhite heap depth (g.addRefChild heap pz) pz) g =
        some g' ∧ CollectedTo heap rcS whites base tasks g g' := by
  obtain ⟨g', looped, final⟩ := foldlM_pending
    (f := fun g pz => zvalCollectWhite heap depth (g.addRefChild heap pz) pz)
    (I := fun h rest => CollectedTo heap rcS whites base
      ((rest.map Sum.inl).map Pending.edge ++ tasks) g h)
    (by
      intro h pz rest before
      obtain ⟨list, current⟩ := before.now
      have fewer : Fewer .white g (h.addRefChild heap pz) :=
        before.fewer.trans fun n white => by simpa using white
      obtain ⟨h', called, after, _⟩ := calls _ pz list _
        ((Finset.card_le_card fewer.zvals).trans_lt room) current.giveBack
      exact ⟨h', called, after.after (before.swept.trans (swept_addRefChild heap h pz)) fewer⟩)
    values [] g (by
      rw [append_nil]
      exact ⟨⟨freed, now⟩, rfl, Fewer.refl _ g⟩)
  exact ⟨g', looped, final⟩

/-- `zobj_collect_white` of an object that has just got a reference. -/
theorem zobjCollectWhite_spec (store : heap.objectBuckets = true) {handle : O} {freed : List Z}
    (room : (g.zvals (isColor .white)).card < depth)
    (now : Collecting heap rcS whites base g freed tasks (some (.inr handle))) :
    ∃ g', zobjCollectWhite heap depth g handle = some g' ∧
      CollectedTo heap rcS whites base tasks g g' ∧ Takes (.inr handle) g g' := by
  unfold zobjCollectWhite
  rw [if_pos store]
  split
  next found =>
    have took := now.take (c := .purple) (by decide) (fun _ => rfl) found
    have work : heap.graph.work Sum.isLeft (.inr handle) =
        ((heap.values handle).map Sum.inl).map Pending.edge := by
      simp [Graph.work, succ_handle store]
    rw [work] at took
    have fewer : Fewer .white g (g.setColor (.inr handle) .purple) := fewer_setColor g _ (by decide)
    obtain ⟨g', looped, final⟩ := collectChildren calls
      ((Finset.card_le_card fewer.zvals).trans_lt room) took
    exact ⟨g', looped, final.after (swept_setColor g _ _) fewer,
      takes_of_found (by decide) final.fewer⟩
  next other =>
    exact ⟨g, rfl, ⟨⟨freed, now.skip other⟩, rfl, Fewer.refl _ g⟩, takes_of_other other⟩

private theorem collectObject (store : heap.objectBuckets = true) {pz : Z} {handle : O}
    {freed : List Z}
    (room : (g.zvals (isColor .white)).card < depth)
    (found : g.buffered (.inr handle) = ⟨.null, .white⟩)
    (now : Collecting heap rcS whites base g freed
      (.push (.inl pz) :: .edge (.inr handle) :: tasks) none) :
    ∃ g', (match heap.gcData handle with
        | some data =>
          match data.props with
          | none => data.table.reduceOption.foldlM
              (fun g pz => zvalCollectWhite heap depth (g.addRefChild heap pz) pz)
              ((g.setColor (.inr handle) .purple).putToFree pz)
          | some props => do
            let g ← data.table.reduceOption.foldlM
              (fun g pz => zvalCollectWhite heap depth (g.addRefChild heap pz) pz)
              (g.setColor (.inr handle) .purple)
            props.foldlM (fun g pz => zvalCollectWhite heap depth (g.addRefChild heap pz) pz)
              (g.putToFree pz)
        | none => some ((g.setColor (.inr handle) .purple).putToFree pz)) = some g' ∧
      CollectedTo heap rcS whites base tasks g g' := by
  have took := ((now.perm (Perm.swap ..)).pass).take (c := .purple) (by decide) (fun _ => rfl) found
  have fewer : Fewer .white g (g.setColor (.inr handle) .purple) := fewer_setColor g _ (by decide)
  have room' := (Finset.card_le_card fewer.zvals).trans_lt room
  have work : heap.graph.work Sum.isLeft (.inr handle) =
      ((heap.values handle).map Sum.inl).map Pending.edge := by
    simp [Graph.work, succ_handle store]
  rw [work] at took
  cases data : heap.gcData handle with
  | none =>
    have values : heap.values handle = [] := by simp [Heap.values, data]
    rw [values] at took
    exact ⟨_, rfl, ⟨_, took.push⟩, rfl, fewer.trans (fewer_putToFree _ pz)⟩
  | some d =>
    cases props : d.props with
    | none =>
      have values : heap.values handle = d.table.reduceOption := by
        simp [Heap.values, data, GcData.values, props]
      rw [values] at took
      have pushed := (took.perm perm_middle).push
      have listed := fewer_putToFree (g.setColor (.inr handle) .purple) pz
      obtain ⟨g', looped, final⟩ := collectChildren calls
        ((Finset.card_le_card listed.zvals).trans_lt room') pushed
      simp only [props]
      exact ⟨g', looped, final.after rfl (fewer.trans listed)⟩
    | some rest =>
      have values : heap.values handle = d.table.reduceOption ++ rest := by
        simp [Heap.values, data, GcData.values, props]
      rw [values, map_append, map_append, append_assoc] at took
      have ordered := took.perm (Perm.append_left _ perm_middle)
      obtain ⟨h, first, middle⟩ := collectChildren calls room' ordered
      obtain ⟨list, current⟩ := middle.now
      have listed := middle.fewer.trans (fewer_putToFree h pz)
      obtain ⟨g', second, final⟩ := collectChildren calls
        ((Finset.card_le_card listed.zvals).trans_lt room') current.push
      simp only [props]
      refine ⟨g', ?_, final.after ((swept_setColor g _ _).trans
        (middle.swept.trans (swept_putToFree h pz))) (fewer.trans listed)⟩
      rw [first]
      exact second

end

/-- By induction on the depth; the white zvals bound it. -/
theorem zvalCollectWhite_spec (depth : Nat) : CollectsZval heap rcS whites base depth := by
  induction depth with
  | zero => exact fun _ _ _ _ room => absurd room (Nat.not_lt_zero _)
  | succ depth ih =>
    intro g pz freed tasks room now
    unfold zvalCollectWhite
    split
    next found =>
      have took := now.take (c := .black) (by decide) (by simp) found
      have white : isColor .white (g.color (.inl pz)) = true := by
        simp [isColor, color, found]
      have room' : ((g.setColor (.inl pz) .black).zvals (isColor .white)).card < depth :=
        card_zvals_setColor (by decide) white room
      have fewer : Fewer .white g (g.setColor (.inl pz) .black) := fewer_setColor g _ (by decide)
      have listed := fewer_putToFree (g.setColor (.inl pz) .black) pz
      -- whatever happens after the zval has been painted, it is not white again
      have conclude : ∀ {g'}, CollectedTo heap rcS whites base tasks
          (g.setColor (.inl pz) .black) g' →
          CollectedTo heap rcS whites base tasks g g' ∧ Takes (.inl pz) g g' := fun final =>
        ⟨final.after (swept_setColor g _ _) fewer, takes_of_found (by decide) final.fewer⟩
      have alone : heap.graph.succ (.inl pz) = [] → ∃ g',
          some ((g.setColor (.inl pz) .black).putToFree pz) = some g' ∧
            CollectedTo heap rcS whites base tasks g g' ∧ Takes (.inl pz) g g' := by
        intro none
        have work : heap.graph.work Sum.isLeft (.inl pz) = [.push (.inl pz)] := by
          simp [Graph.work, none]
        rw [work] at took
        exact ⟨_, rfl, conclude ⟨⟨_, took.push⟩, rfl, listed⟩⟩
      cases kind : heap.kind pz with
      | object handle =>
        simp only
        by_cases store : heap.objectBuckets = true
        · have work : heap.graph.work Sum.isLeft (.inl pz) =
              [.push (.inl pz), .edge (.inr handle)] := by
            simp [Graph.work, succ_object kind store]
          rw [work] at took
          split
          next both =>
            obtain ⟨g', called, final⟩ := collectObject ih store room' both.2 took
            exact ⟨g', called, conclude final⟩
          next neither =>
          have pushed := (took.perm (Perm.swap ..)).pass.skip fun here =>
            neither ⟨store, here⟩
          exact ⟨_, rfl, conclude ⟨⟨_, pushed.push⟩, rfl, listed⟩⟩
        · rw [if_neg fun both => store both.1]
          exact alone (succ_object_no_store kind (by simpa using store))
      | array symbolTable elements =>
        have inside : Sum.inl pz ∈ whites := by
          rw [← now.white, ← now.untouched _ fun member => (mem_taken.mp member).2 (by
            rw [color, found]), found]
        have active := now.inv.active _ inside
        rw [graph_inert_zval, isSymbolTable_array kind] at active
        subst active
        have work : heap.graph.work Sum.isLeft (.inl pz) =
            .push (.inl pz) :: (elements.map Sum.inl).map .edge := by
          simp [Graph.work, succ_array kind]
        rw [work] at took
        obtain ⟨g', looped, final⟩ := collectChildren ih
          ((Finset.card_le_card listed.zvals).trans_lt room') took.push
        exact ⟨g', looped, conclude (final.after (swept_putToFree _ pz) listed)⟩
      | other => exact alone (succ_other kind)
    next other =>
      exact ⟨g, rfl, ⟨⟨freed, now.skip other⟩, rfl, Fewer.refl _ g⟩, takes_of_other other⟩

end functions

end Jonj.Gc
