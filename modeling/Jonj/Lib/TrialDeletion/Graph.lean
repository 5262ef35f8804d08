import Mathlib.Tactic

/-!
# Trial deletion on a finite graph

The mark phase takes the references of every node it paints grey away from their
targets. The scan phase gives those of the black nodes back and leaves white what
nothing counts any more; the collect phase gives the white nodes' references back.

Each phase is described by an invariant over the reference counts, the colours
and the work that is still pending. The rules below say how a single elementary
action (following a reference, painting a node) changes the pending work, so a
traversal written in any style is verified by composing them.

An `inert` node takes no part: its counts are not touched and it has no references.

Counts live in a commutative ring, so counters that wrap around are covered: what a
phase takes away and gives back again cancels whether or not it went through zero.
-/
namespace Jonj.TrialDeletion

inductive Color where
  | black
  | white
  | grey
  | purple
  deriving DecidableEq, Repr

/-- A directed multigraph; a reference that is held twice occurs twice in `succ`. -/
structure Graph (N : Type) where
  succ : N → List N
  inert : N → Bool
  inert_succ : ∀ v, inert v → succ v = []

variable {N : Type}

def Graph.Reach (G : Graph N) : N → N → Prop := Relation.ReflTransGen fun u v => v ∈ G.succ u

theorem Graph.Reach.step {G : Graph N} {u v w : N} (path : G.Reach u v) (edge : w ∈ G.succ v) :
    G.Reach u w := Relation.ReflTransGen.tail path edge

/-- An inert node leads nowhere but to itself. -/
theorem Graph.Reach.active {G : Graph N} {u v : N} (path : G.Reach u v)
    (active : G.inert v = false) : G.inert u = false := by
  by_contra inert
  rcases Relation.ReflTransGen.cases_head path with same | ⟨w, edge, _⟩
  · exact inert (same ▸ active)
  · simp [G.inert_succ u (by simpa using inert)] at edge

section edges

variable [DecidableEq N]

/-- How many references the nodes of `S` hold on `v`. -/
def Graph.edgesFrom (G : Graph N) (S : Finset N) (v : N) : Nat := ∑ u ∈ S, (G.succ u).count v

/-- A node adds its own references, counted as often as they are held. -/
theorem Graph.edgesFrom_insert (G : Graph N) {S : Finset N} {u : N} (new : u ∉ S) (v : N) :
    G.edgesFrom (insert u S) v = (G.succ u).count v + G.edgesFrom S v := by
  exact Finset.sum_insert new

theorem Graph.edgesFrom_mono (G : Graph N) {S T : Finset N} (subset : S ⊆ T) (v : N) :
    G.edgesFrom S v ≤ G.edgesFrom T v :=
  Finset.sum_le_sum_of_subset subset

/-- No reference comes from the set. -/
theorem Graph.edgesFrom_eq_zero_iff {G : Graph N} {S : Finset N} {v : N} :
    G.edgesFrom S v = 0 ↔ ∀ u ∈ S, v ∉ G.succ u := by
  simp only [Graph.edgesFrom, Finset.sum_eq_zero_iff, List.count_eq_zero]

variable {R : Type} [CommRing R]

def Graph.drop (G : Graph N) (rc : N → R) (v : N) : N → R :=
  if G.inert v then rc else Function.update rc v (rc v - 1)

def Graph.restore (G : Graph N) (rc : N → R) (v : N) : N → R :=
  if G.inert v then rc else Function.update rc v (rc v + 1)

end edges

end Jonj.TrialDeletion
