import LiteralSieve.Proofs.Forest.StoredTrees
import LiteralSieve.Proofs.Forest.Walking

namespace LiteralSieve

/-!
# Walks of bounded depth

Walks over a pattern tree call themselves for every level, and a pattern may be as long as one
likes. But groups can be open only up to a limit, so no tree that is read has more levels than that
allows, whatever passes are done. A walk over a stored tree gets along with as many calls, and shows
every node that can be reached once, parents before their children, until the visitor is done.
-/

namespace StoredTree

/-- The nodes are shown to `visit` until that is done, with at most `depth` calls inside each
other. -/
def traverse {σ : Type} (depth : Nat) (stored : StoredTree)
    (visit : Forest.Sight → σ → ForInStep σ) (acc : σ) : Except PatternError (ForInStep σ) :=
  match stored.root with
  | none => .ok (.yield acc)
  | some id => Forest.walkAt visit depth stored.forest 0 id acc

variable {stored : StoredTree} {tree : PatternTree} {node : Node} {n : Nat}

/-- The walk over a stored tree needs one call for each level. -/
theorem Fits.exists_sights (h : stored.Fits tree) (hnode : tree.root = some node)
    (hheight : node.height ≤ n) :
    ∃ root sights, stored.root = some root ∧ stored.forest.WalkOrder root sights ∧
      List.Forall₂ stored.forest.Shows sights tree.outline ∧
      WalksOver (fun visit acc result => stored.traverse (n + 1) visit acc = .ok result)
        sights := by
  obtain ⟨id, root, print, hid, hroot, hholds, hnodup, -⟩ := h.root
  obtain rfl := Option.some.inj (hroot.symm.trans hnode)
  have hlt : root.height < n + 1 := Nat.lt_succ_of_le hheight
  refine ⟨id, Forest.sightsAt (n + 1) stored.forest 0 id, hid, hholds.walkOrder hnodup hlt, ?_, ?_⟩
  · simpa [PatternTree.outline, hroot] using hholds.shows_outline hlt 0
  · intro σ visit acc
    obtain ⟨result, log, rfl, rfl, hends⟩ := walksOver_visitAll _ visit acc
    simp only [traverse, hid]
    exact ⟨_, _, hholds.walkAt_eq visit hlt 0 acc, hholds.walkAt_eq _ hlt 0 _, hends⟩

end StoredTree

namespace PatternTree

variable {pattern : String} {expansion : Bool} {compiled : PatternTree}

/-- No pass makes a tree deeper than groups can be nested in a pattern. -/
theorem height_afterPasses_le {root : Node} {reading : Reading}
    (h : (parse reading pattern).root = .ok root) (passes : List Pass) :
    (root.afterPasses passes).height ≤ 3 * maxDepth + 4 :=
  (Node.kept_height _).afterPasses (Node.hereditary_height.parse h) passes

/-- If a pattern can be read, then after any passes all nodes have a bounded depth. A walk shows
each node that can be reached exactly once, with its depth and before its children, and shows
nothing after the first node with which the visitor is done. In place, it makes no more calls inside
each other than the bound has levels. -/
theorem traverse_bounded (old : PatternTree)
    (h : old.compile pattern expansion = (compiled, .ok ())) (passes : List Pass) :
    ∃ simplified stored root sights, compiled.afterPasses passes = .ok simplified ∧
      (StoredTree.read ⟨expansion, old.caseSensitive⟩ pattern).afterPasses passes = .ok stored ∧
      stored.Fits simplified ∧ stored.root = some root ∧
      (∀ entry ∈ simplified.outline, entry.level ≤ 3 * maxDepth + 4) ∧
      (∀ sight ∈ sights, sight.level ≤ 3 * maxDepth + 4) ∧
      stored.forest.WalkOrder root sights ∧
      List.Forall₂ stored.forest.Shows sights simplified.outline ∧
      WalksOver (fun visit acc result => simplified.traverse visit acc = result)
        simplified.outline ∧
      WalksOver (fun visit acc result =>
        stored.traverse (3 * maxDepth + 5) visit acc = .ok result) sights := by
  obtain ⟨node, hroot, -, hparse⟩ := root_of_compile h
  obtain ⟨stored, simplified, hstored, hsimplified, hfits⟩ :=
    (StoredTree.fits_read h).afterPasses passes
  obtain ⟨last, hlast, hnode, -⟩ := afterPasses_of_root hroot passes
  obtain rfl := Except.ok.inj (hsimplified.symm.trans hlast)
  have hheight := height_afterPasses_le hparse passes
  obtain ⟨root, sights, hid, horder, hshows, hwalks⟩ := hfits.exists_sights hnode hheight
  have hentries : ∀ entry ∈ simplified.outline, entry.level ≤ 3 * maxDepth + 4 := by
    intro entry hentry
    rw [outline, hnode] at hentry
    exact (Node.level_le_of_mem_outline hentry).trans (by omega)
  have hsights : ∀ sight ∈ sights, sight.level ≤ 3 * maxDepth + 4 := by
    intro sight hsight
    obtain ⟨entry, hentry, hsame⟩ := exists_mem_of_forall₂ hshows sight hsight
    exact hsame.level ▸ hentries entry hentry
  exact ⟨simplified, stored, root, sights, hsimplified, hstored, hfits, hid, hentries, hsights,
    horder, hshows, walksOver_visitAll _, hwalks⟩

/-- A pattern with groups and sets that may be absent, under passes that take some levels away. -/
theorem traverse_bounded_optional :
    let pattern := "((?:x[ab]?|(y)?z)?[cd]?)?e"
    let passes : List Pass := [.mark, .merge, .adjust]
    ∃ compiled simplified stored root sights, empty.compile pattern true = (compiled, .ok ()) ∧
      compiled.afterPasses passes = .ok simplified ∧
      (StoredTree.read ⟨true, false⟩ pattern).afterPasses passes = .ok stored ∧
      stored.Fits simplified ∧ stored.root = some root ∧
      (∀ sight ∈ sights, sight.level ≤ 772) ∧ stored.forest.WalkOrder root sights ∧
      WalksOver (fun visit acc result => stored.traverse 773 visit acc = .ok result) sights := by
  intro pattern passes
  let compiled := (empty.compile pattern true).1
  have hcompiled : empty.compile pattern true = (compiled, .ok ()) :=
    Prod.ext rfl (by decide +kernel)
  obtain ⟨simplified, stored, root, sights, hsimplified, hstored, hfits, hid, -, hsights, horder,
    -, -, hwalks⟩ := traverse_bounded empty hcompiled passes
  exact ⟨compiled, simplified, stored, root, sights, hcompiled, hsimplified, hstored, hfits, hid,
    hsights, horder, hwalks⟩

/-- Each group around an optional set can add three levels. -/
example : ((empty.compile "(?:(?:[ab]?)?)?" true).1.outline.map (·.level)).max? =
    some (3 * 2 + 4) := by
  decide +kernel

end PatternTree

end LiteralSieve
