import Jonj.Lib.TrialDeletion.Mark

/-!
# The scan phase

Within the area that the mark phase painted, a node is black in the end exactly
when some node with a remaining count leads to it.
-/
namespace Jonj.TrialDeletion

open List Function

variable {N R : Type} [DecidableEq N] [CommRing R]

/-- The area is what the mark phase painted grey. `scans` are nodes to be scanned,
`blacks` references of black nodes that have not been given back yet; `scanDue` and
`blackDue` are a node about to be scanned and one about to be painted black. -/
structure ScanInv (G : Graph N) (rcM : N → R) (colorM : N → Color) (area : Finset N)
    (rc : N → R) (color : N → Color) (scans blacks : List N) (scanDue blackDue : Option N) :
    Prop where
  active : ∀ v ∈ area, G.inert v = false
  stays : ∀ u ∈ area, ∀ v ∈ G.succ u, v ∈ area ∨ G.inert v ∧ color v = .black
  palette : ∀ v ∈ area, color v = .grey ∨ color v = .white ∨ color v = .black
  outside : ∀ v, v ∉ area → color v = colorM v ∧ color v ≠ .grey
  inert : ∀ v, G.inert v → rc v = rcM v
  count : ∀ v, G.inert v = false → rc v + (blacks.count v : R) =
    rcM v + (G.edgesFrom (area.filter fun u => color u = .black) v : R)
  closed : ∀ u ∈ area, color u = .black → ∀ v ∈ G.succ u,
    color v = .black ∨ v ∈ blacks ∨ blackDue = some v
  white : ∀ u ∈ area, color u = .white → rc u = 0 ∨ blackDue = some u
  greyEdge : ∀ u ∈ area, color u = .white → ∀ v ∈ G.succ u, color v = .grey →
    v ∈ scans ∨ scanDue = some v ∨ v ∈ blacks ∨ blackDue = some v
  due : ∀ v, v ∈ blacks ∨ blackDue = some v → v ∈ area ∨ color v = .black
  cause : ∀ v, v ∈ area → color v = .black ∨ v ∈ blacks ∨ blackDue = some v →
    ∃ w ∈ area, rcM w ≠ 0 ∧ G.Reach w v

section scan

variable {G : Graph N} {rcM rc : N → R} {colorM color : N → Color} {area : Finset N}
  {scans blacks : List N} {v : N}

theorem filter_black_update {c : Color} (notBlack : c ≠ .black) (before : color v ≠ .black) :
    (area.filter fun u => update color v c u = .black) = area.filter fun u => color u = .black := by
  ext w
  by_cases same : w = v
  · simp [same, notBlack, before]
  · simp [update_of_ne same]

theorem filter_insert_black (member : v ∈ area) :
    (area.filter fun u => update color v .black u = .black) =
      insert v (area.filter fun u => color u = .black) := by
  ext w
  by_cases same : w = v <;> simp [same, member]

theorem MarkInv.scan [Fintype N] {rc₀ : N → R} {color₀ : N → Color} {isRoot : N → Prop}
    (inv : MarkInv G rc₀ color₀ isRoot rc color [] none) :
    ScanInv G rc color (colored color .grey) rc color [] [] none none := by
  have noBlack : (colored color .grey).filter (fun u => color u = .black) = ∅ := by
    simp +contextual
  refine ⟨?_, ?_, ?_, ?_, fun _ _ => rfl, ?_, ?_, ?_, ?_, ?_, ?_⟩
  · intro v grey
    by_contra inert
    exact (inv.inert v (by simpa using inert)).1 (mem_colored.mp grey)
  · intro u grey v edge
    simpa [Graph.Marked] using inv.closed u (mem_colored.mp grey) v edge
  · exact fun v grey => .inl (mem_colored.mp grey)
  · exact fun v other => ⟨rfl, fun grey => other (mem_colored.mpr grey)⟩
  · rw [noBlack]
    simp [Graph.edgesFrom]
  · intro u grey black
    simp [mem_colored.mp grey] at black
  · intro u grey white
    simp [mem_colored.mp grey] at white
  · intro u grey white
    simp [mem_colored.mp grey] at white
  · simp
  · intro v grey pending
    simp [mem_colored.mp grey] at pending

/-- What is to be done next may change, as long as nothing that is needed is forgotten. -/
theorem ScanInv.reschedule {scans' : List N} {scanDue scanDue' blackDue blackDue' : Option N}
    (inv : ScanInv G rcM colorM area rc color scans blacks scanDue blackDue)
    (scanning : ∀ w, color w = .grey → w ∈ scans ∨ scanDue = some w → w ∈ scans' ∨
      scanDue' = some w ∨ blackDue' = some w)
    (kept : ∀ w, color w ≠ .black → blackDue = some w → blackDue' = some w)
    (reason : ∀ w, blackDue' = some w → w ∈ area ∧ ∃ x ∈ area, rcM x ≠ 0 ∧ G.Reach x w) :
    ScanInv G rcM colorM area rc color scans' blacks scanDue' blackDue' where
  __ := inv
  closed u inside black w edge := by
    by_cases done : color w = .black
    · exact .inl done
    · exact (inv.closed u inside black w edge).imp_right (Or.imp_right (kept w done))
  white u inside white := (inv.white u inside white).imp_right (kept u (by simp [white]))
  greyEdge u inside white w edge grey := by
    have later := scanning w grey
    have due := kept w (by simp [grey])
    have before := inv.greyEdge u inside white w edge grey
    tauto
  due w pending := pending.elim (fun rest => inv.due w (.inl rest)) fun due => .inl (reason w due).1
  cause w inside cases := by
    rcases cases with black | rest | due
    · exact inv.cause w inside (.inl black)
    · exact inv.cause w inside (.inr (.inl rest))
    · exact (reason w due).2

theorem ScanInv.scan (inv : ScanInv G rcM colorM area rc color scans blacks none none) (v : N) :
    ScanInv G rcM colorM area rc color scans blacks (some v) none :=
  inv.reschedule (by simp +contextual) (by simp) (by simp)

theorem ScanInv.scanNext (inv : ScanInv G rcM colorM area rc color (v :: scans) blacks none none) :
    ScanInv G rcM colorM area rc color scans blacks (some v) none :=
  inv.reschedule (by simp [or_comm, eq_comm]) (by simp) (by simp)

section

variable (inv : ScanInv G rcM colorM area rc color scans blacks (some v) none)

include inv

theorem ScanInv.scanSkip (settled : color v ≠ .grey) :
    ScanInv G rcM colorM area rc color scans blacks none none := by
  refine inv.reschedule (fun w grey due => due.imp_right fun same => ?_) (by simp) (by simp)
  cases same
  exact absurd grey settled

/-- A grey node that nothing counts turns white and its children are scanned. -/
theorem ScanInv.turnWhite (grey : color v = .grey) (zero : rc v = 0) :
    ScanInv G rcM colorM area rc (update color v .white) (G.succ v ++ scans) blacks none none := by
  have member : v ∈ area := by
    by_contra outside
    exact (inv.outside v outside).2 grey
  have notBlack : color v ≠ .black := by simp [grey]
  have blackIff : ∀ w, update color v .white w = .black ↔ color w = .black := by
    intro w
    by_cases same : w = v
    · simp [same, notBlack]
    · rw [update_of_ne same]
  refine ⟨inv.active, ?_, ?_, ?_, inv.inert, ?_, ?_, ?_, ?_, ?_, ?_⟩
  · intro u inside w edge
    rw [blackIff]
    exact inv.stays u inside w edge
  · intro w inside
    by_cases same : w = v
    · exact .inr (.inl (by rw [same, update_self]))
    · rw [update_of_ne same]
      exact inv.palette w inside
  · intro w outside
    have apart : w ≠ v := fun same => outside (same ▸ member)
    rw [update_of_ne apart]
    exact inv.outside w outside
  · intro w active
    rw [filter_black_update (by decide) notBlack]
    exact inv.count w active
  · intro u inside black w edge
    rw [blackIff] at black ⊢
    exact inv.closed u inside black w edge
  · intro u inside white
    by_cases same : u = v
    · exact .inl (same ▸ zero)
    · rw [update_of_ne same] at white
      exact inv.white u inside white
  · intro u inside white w edge stillGrey
    have apart : w ≠ v := by
      rintro rfl
      simp at stillGrey
    rw [update_of_ne apart] at stillGrey
    by_cases source : u = v
    · exact .inl (mem_append_left _ (source ▸ edge))
    rw [update_of_ne source] at white
    rcases inv.greyEdge u inside white w edge stillGrey with later | same | rest
    · exact .inl (mem_append_right _ later)
    · exact absurd (Option.some.inj same).symm apart
    · exact .inr (.inr rest)
  · intro w pending
    rw [blackIff]
    exact inv.due w pending
  · intro w inside cases
    rw [blackIff] at cases
    exact inv.cause w inside cases

end

/-- A grey node that is still counted is painted black, and there is a reason for it. -/
theorem ScanInv.turnBlack (inv : ScanInv G rcM colorM area rc color scans [] (some v) none)
    (grey : color v = .grey) (counted : rc v ≠ 0) :
    ScanInv G rcM colorM area rc color scans [] none (some v) := by
  have member : v ∈ area := by
    by_contra outside
    exact (inv.outside v outside).2 grey
  have reason : ∃ w ∈ area, rcM w ≠ 0 ∧ G.Reach w v := by
    have count := inv.count v (inv.active v member)
    rw [count_nil, Nat.cast_zero, add_zero] at count
    by_cases external : rcM v = 0
    · -- then the count comes from a black node
      have referred : G.edgesFrom (area.filter fun u => color u = .black) v ≠ 0 := by
        intro none
        rw [external, none, Nat.cast_zero, add_zero] at count
        exact counted count
      rw [Ne, Graph.edgesFrom_eq_zero_iff] at referred
      push Not at referred
      obtain ⟨u, inside, edge⟩ := referred
      rw [Finset.mem_filter] at inside
      obtain ⟨w, source, positive, path⟩ := inv.cause u inside.1 (.inl inside.2)
      exact ⟨w, source, positive, path.step edge⟩
    · exact ⟨v, member, external, Relation.ReflTransGen.refl⟩
  refine inv.reschedule (fun w _ due => due.imp_right .inr) (by simp) fun w same => ?_
  cases same
  exact ⟨member, reason⟩

theorem ScanInv.blacken (inv : ScanInv G rcM colorM area rc color scans blacks none (some v))
    (fresh : color v ≠ .black) :
    ScanInv G rcM colorM area rc (update color v .black) scans (G.succ v ++ blacks) none none := by
  have member : v ∈ area := (inv.due v (.inr rfl)).resolve_right fresh
  have grows : ∀ w, color w = .black → update color v .black w = .black := by
    intro w black
    by_cases same : w = v
    · rw [same, update_self]
    · rw [update_of_ne same, black]
  have other : ∀ w c, c ≠ .black → update color v .black w = c → color w = c ∧ w ≠ v := by
    intro w c notBlack painted
    by_cases same : w = v
    · rw [same, update_self] at painted
      exact absurd painted.symm notBlack
    · exact ⟨by rwa [update_of_ne same] at painted, same⟩
  -- what has made `v` live makes its successors live
  have reason := inv.cause v member (.inr (.inr rfl))
  refine ⟨inv.active, ?_, ?_, ?_, inv.inert, ?_, ?_, ?_, ?_, ?_, ?_⟩
  · intro u inside w edge
    exact (inv.stays u inside w edge).imp_right fun inert => ⟨inert.1, grows w inert.2⟩
  · intro w inside
    by_cases same : w = v
    · exact .inr (.inr (by rw [same, update_self]))
    · rw [update_of_ne same]
      exact inv.palette w inside
  · intro w outside
    have apart : w ≠ v := fun same => outside (same ▸ member)
    rw [update_of_ne apart]
    exact inv.outside w outside
  · intro w active
    have new : v ∉ area.filter fun u => color u = .black := by simp [fresh]
    rw [filter_insert_black member, G.edgesFrom_insert new, count_append]
    have count := inv.count w active
    push_cast
    linear_combination count
  · intro u inside black w edge
    by_cases target : w = v
    · exact .inl (by rw [target, update_self])
    by_cases source : u = v
    · exact .inr (.inl (mem_append_left _ (source ▸ edge)))
    rw [update_of_ne source] at black
    rcases inv.closed u inside black w edge with done | rest | same
    · exact .inl (grows w done)
    · exact .inr (.inl (mem_append_right _ rest))
    · exact absurd (Option.some.inj same).symm target
  · intro u inside white
    obtain ⟨white, apart⟩ := other u .white (by decide) white
    rcases inv.white u inside white with zero | same
    · exact .inl zero
    · exact absurd (Option.some.inj same).symm apart
  · intro u inside white w edge stillGrey
    obtain ⟨white, _⟩ := other u .white (by decide) white
    obtain ⟨stillGrey, apart⟩ := other w .grey (by decide) stillGrey
    rcases inv.greyEdge u inside white w edge stillGrey with later | none | rest | same
    · exact .inl later
    · cases none
    · exact .inr (.inr (.inl (mem_append_right _ rest)))
    · exact absurd (Option.some.inj same).symm apart
  · intro w pending
    rcases pending with rest | none
    · rcases mem_append.mp rest with child | rest
      · exact (inv.stays v member w child).imp_right fun inert => grows w inert.2
      · exact (inv.due w (.inl rest)).imp_right (grows w)
    · cases none
  · intro w inside cases
    by_cases same : w = v
    · rw [same]
      exact reason
    rw [update_of_ne same] at cases
    rcases cases with black | rest | none
    · exact inv.cause w inside (.inl black)
    · rcases mem_append.mp rest with child | rest
      · obtain ⟨x, source, positive, path⟩ := reason
        exact ⟨x, source, positive, path.step child⟩
      · exact inv.cause w inside (.inr (.inl rest))
    · cases none

theorem ScanInv.giveBack (inv : ScanInv G rcM colorM area rc color scans (v :: blacks) none none) :
    ScanInv G rcM colorM area (G.restore rc v) color scans blacks none (some v) := by
  have other : ∀ w, w ≠ v → G.restore rc v w = rc w := by
    intro w apart
    unfold Graph.restore
    split
    · rfl
    · exact update_of_ne apart ..
  refine ⟨inv.active, inv.stays, inv.palette, inv.outside, ?_, ?_, ?_, ?_, ?_, ?_, ?_⟩
  · intro w inert
    rw [← inv.inert w inert]
    by_cases same : w = v
    · subst same
      rw [Graph.restore, if_pos inert]
    · exact other w same
  · intro w active
    have count := inv.count w active
    by_cases same : w = v
    · subst same
      rw [count_cons_self] at count
      rw [Graph.restore, active, if_neg (by decide), update_self]
      push_cast at count
      linear_combination count
    · rw [List.count_cons_of_ne (Ne.symm same)] at count
      rw [other w same]
      exact count
  · intro u inside black w edge
    rcases inv.closed u inside black w edge with done | rest | none
    · exact .inl done
    · rcases mem_cons.mp rest with same | rest
      · exact .inr (.inr (by rw [same]))
      · exact .inr (.inl rest)
    · cases none
  · intro u inside white
    by_cases same : u = v
    · exact .inr (by rw [same])
    rw [other u same]
    rcases inv.white u inside white with zero | none
    · exact .inl zero
    · cases none
  · intro u inside white w edge grey
    rcases inv.greyEdge u inside white w edge grey with later | none | rest | none
    · exact .inl later
    · cases none
    · rcases mem_cons.mp rest with same | rest
      · exact .inr (.inr (.inr (by rw [same])))
      · exact .inr (.inr (.inl rest))
    · cases none
  · intro w pending
    apply inv.due
    rcases pending with rest | same
    · exact .inl (mem_cons_of_mem v rest)
    · cases same
      exact .inl mem_cons_self
  · intro w inside cases
    apply inv.cause w inside
    rcases cases with black | rest | same
    · exact .inl black
    · exact .inr (.inl (mem_cons_of_mem v rest))
    · cases same
      exact .inr (.inl mem_cons_self)

theorem ScanInv.blackSkip (inv : ScanInv G rcM colorM area rc color scans blacks none (some v))
    (black : color v = .black) :
    ScanInv G rcM colorM area rc color scans blacks none none := by
  refine inv.reschedule (by simp +contextual) (fun w notBlack same => ?_) (by simp)
  cases same
  exact absurd black notBlack

end scan

theorem ScanInv.settled {G : Graph N} {rcM rc : N → R} {colorM color : N → Color} {area : Finset N}
    {isRoot : N → Prop} (inv : ScanInv G rcM colorM area rc color [] [] none none)
    (scanned : ∀ r, isRoot r → color r ≠ .grey) (roots : ∀ r, isRoot r → r ∈ area ∨ G.inert r)
    (reach : ∀ v ∈ area, ∃ r, isRoot r ∧ G.Reach r v) : ∀ v ∈ area, color v ≠ .grey := by
  intro v member
  obtain ⟨r, root, path⟩ := reach v member
  have along : color v ≠ .grey ∧ (v ∈ area ∨ G.inert v) := by
    clear member
    induction path with
    | refl => exact ⟨scanned r root, roots r root⟩
    | @tail x y path edge ih =>
      obtain ⟨settled, inside | inert⟩ := ih
      · refine ⟨fun grey => ?_, (inv.stays x inside y edge).imp_right And.left⟩
        rcases inv.palette x inside with still | white | black
        · exact settled still
        · simpa using inv.greyEdge x inside white y edge grey
        · simpa [grey] using inv.closed x inside black y edge
      · simp [G.inert_succ x inert] at edge
  exact along.1

structure Scanned (G : Graph N) (rcM : N → R) (area : Finset N) (rc : N → R)
    (color : N → Color) : Prop where
  palette : ∀ v ∈ area, color v = .white ∨ color v = .black
  black_iff : ∀ v ∈ area, color v = .black ↔ ∃ w ∈ area, rcM w ≠ 0 ∧ G.Reach w v
  closed : ∀ u ∈ area, color u = .black → ∀ v ∈ G.succ u, color v = .black
  stays : ∀ u ∈ area, ∀ v ∈ G.succ u, v ∈ area ∨ G.inert v ∧ color v = .black
  white : ∀ v ∈ area, color v = .white → rc v = 0
  count : ∀ v, G.inert v = false →
    rc v = rcM v + (G.edgesFrom (area.filter fun u => color u = .black) v : R)
  inert : ∀ v, G.inert v → rc v = rcM v

theorem ScanInv.scanned {G : Graph N} {rcM rc : N → R} {colorM color : N → Color}
    {area : Finset N} (inv : ScanInv G rcM colorM area rc color [] [] none none)
    (settled : ∀ v ∈ area, color v ≠ .grey) : Scanned G rcM area rc color := by
  have palette : ∀ v ∈ area, color v = .white ∨ color v = .black := fun v member =>
    (inv.palette v member).resolve_left (settled v member)
  have closed : ∀ u ∈ area, color u = .black → ∀ v ∈ G.succ u, color v = .black := by
    intro u member black v edge
    simpa using inv.closed u member black v edge
  have count : ∀ v, G.inert v = false →
      rc v = rcM v + (G.edgesFrom (area.filter fun u => color u = .black) v : R) := by
    intro v active
    simpa using inv.count v active
  have white : ∀ v ∈ area, color v = .white → rc v = 0 := by
    intro v member white
    simpa using inv.white v member white
  refine ⟨palette, ?_, closed, inv.stays, white, count, inv.inert⟩
  intro v member
  constructor
  · exact fun black => inv.cause v member (.inl black)
  rintro ⟨w, source, positive, path⟩
  -- the source kept a count, so it is black, and black is closed under references
  have start : color w = .black := by
    rcases palette w source with white' | black
    · -- black nodes do not refer to white ones
      have none : G.edgesFrom (area.filter fun u => color u = .black) w = 0 := by
        rw [Graph.edgesFrom_eq_zero_iff]
        intro u member edge
        rw [Finset.mem_filter] at member
        have black := closed u member.1 member.2 w edge
        rw [white'] at black
        cases black
      have sum := count w (inv.active w source)
      rw [white w source white', none, Nat.cast_zero, add_zero] at sum
      exact absurd sum.symm positive
    · exact black
  have along : color v = .black ∧ (v ∈ area ∨ G.inert v) := by
    clear member
    induction path with
    | refl => exact ⟨start, .inl source⟩
    | @tail x y path edge ih =>
      obtain ⟨black, inside | inert⟩ := ih
      · exact ⟨closed x inside black y edge, (inv.stays x inside y edge).imp_right And.left⟩
      · simp [G.inert_succ x inert] at edge
  exact along.1

end Jonj.TrialDeletion
