import LiteralSieve.Proofs.Matcher.Sessions

namespace LiteralSieve

/-!
# All operations of a matcher

A matcher may also be compiled as a whole, searched with a verifier, given another number of groups,
cleared, and asked to give memory back. A group that goes takes its automaton along. Its patterns
stay known, but are in no group any more, even when the number of groups grows again.
-/

/-! ## Other group numbers -/

def Accepted.regroup (f : Nat → Nat) (entry : Accepted) : Accepted :=
  { entry with group := f entry.group }

def StoredBranch.regroup (f : Nat → Nat) (branch : StoredBranch) : StoredBranch :=
  { branch with group := f branch.group }

def Label.regroup (f : Nat → Nat) (label : Label) : Label := { label with group := f label.group }

theorem storedBranches_regroup (f : Nat → Nat) (entries : List Accepted) :
    storedBranches (entries.map (.regroup f)) =
      (storedBranches entries).map (.regroup f) := by
  induction entries using List.reverseRecOn with
  | nil => rfl
  | append_singleton entries entry ih =>
      rw [List.map_append, List.map_cons, List.map_nil, storedBranches_concat, ih,
        storedBranches_concat, List.map_append, List.map_map, List.length_map]
      rfl

theorem allLabels_regroup (f : Nat → Nat) (branches : List StoredBranch) :
    allLabels (branches.map (.regroup f)) = (allLabels branches).map (.regroup f) := by
  induction branches using List.reverseRecOn with
  | nil => rfl
  | append_singleton branches branch ih =>
      rw [List.map_append, List.map_cons, List.map_nil, allLabels_concat, ih, allLabels_concat,
        List.map_append, List.length_map]
      simp only [StoredBranch.labels, List.map_map]
      rfl

theorem groupAdditions_regroup (wholeWord : Bool) {f : Nat → Nat} {labels : List Label} {g old : Nat}
    (h : ∀ label ∈ labels, f label.group = g ↔ label.group = old) :
    groupAdditions wholeWord (labels.map (.regroup f)) g = groupAdditions wholeWord labels old := by
  induction labels using List.reverseRecOn with
  | nil => rfl
  | append_singleton labels label ih =>
      have hlast : f label.group = g ↔ label.group = old := h label (by simp)
      rw [List.map_append, List.map_cons, List.map_nil, groupAdditions_concat,
        groupAdditions_concat, ih fun other hother => h other (by simp [hother]), List.length_map]
      simp only [Label.regroup, hlast]
      rfl

theorem groupAdditions_eq_nil (wholeWord : Bool) {labels : List Label} {g : Nat}
    (h : ∀ label ∈ labels, label.group ≠ g) : groupAdditions wholeWord labels g = [] :=
  groupAdditions_append wholeWord [] labels h

/-- The number of a group after a change of the number of groups: that of a group which is there no
more is the one after the last. -/
def refiled (kept groups g : Nat) : Nat := if g < kept then g else groups

theorem refiled_eq_iff {kept groups g old : Nat} (hkept : kept ≤ groups) (hg : g < kept) :
    refiled kept groups old = g ↔ old = g := by
  rw [refiled]
  split_ifs <;> omega

theorem refiled_ne {kept groups g old : Nat} (hkept : kept ≤ g) (hg : g < groups) :
    refiled kept groups old ≠ g := by
  rw [refiled]
  split_ifs <;> omega

theorem getElem?_extendArray {α : Type} (xs : Array α) (n : Nat) (a : α) (i : Nat) :
    (extendArray xs n a)[i]? =
      if i < xs.size then xs[i]? else if i < n then some a else none := by
  rw [extendArray, Array.getElem?_append]
  split_ifs with hi hn
  · rfl
  · rw [Array.getElem?_replicate, if_pos (by omega)]
  · rw [Array.getElem?_replicate, if_neg (by omega)]

namespace Matcher

variable {P : Type} {matcher : Matcher P} {config : MatcherConfig} {entries : List Accepted}

/-! ## What the operations do -/

inductive Operation (P : Type) : Type 1 where
  | call (call : MatcherCall P)
  | compileAll
  | searchVerified (g : Nat) (text : Bytes) (mode : EscapeMode)
  | resize (groups : Nat)
  | clear
  /-- Memory is given back, and nothing else is changed. -/
  | shrink

def perform [Verifier P] (matcher : Matcher P) : Operation P → Matcher P
  | .call call => matcher.after call
  | .compileAll => matcher.compileAll.1
  | .searchVerified g text mode => (matcher.searchVerified g text mode).1
  | .resize groups => matcher.resize groups
  | .clear => matcher.clear
  | .shrink => matcher

/-- The patterns that are stored after an operation, with their groups. -/
def held (matcher : Matcher P) (entries : List Accepted) : Operation P → List Accepted
  | .call call => entries ++ matcher.storedBy call
  | .resize groups => entries.map (.regroup (refiled (min matcher.groups.size groups) groups))
  | .clear => []
  | _ => entries

def heldAll [Verifier P] (matcher : Matcher P) (entries : List Accepted) :
    List (Operation P) → List Accepted
  | [] => entries
  | operation :: operations =>
    heldAll (matcher.perform operation) (matcher.held entries operation) operations

/-- A new matcher after some operations. -/
def performed [Verifier P] (config : MatcherConfig) (operations : List (Operation P)) : Matcher P :=
  operations.foldl perform (new config)

/-- The patterns that a new matcher has stored after some operations. -/
def stored [Verifier P] (config : MatcherConfig) (operations : List (Operation P)) : List Accepted :=
  (new config).heldAll [] operations

/-! ## What is stored -/

/-- What every step keeps holds after the steps, also if one of them fails. -/
theorem untilFailure_of_step {σ α ε : Type} {step : σ → α → σ × Except ε Unit} {Q : σ → Prop}
    (hstep : ∀ s a, Q s → Q (step s a).1) {s : σ} (h : Q s) (xs : List α) :
    Q (untilFailure step s xs).1 := by
  induction xs generalizing s with
  | nil => exact h
  | cons a xs ih =>
      have hnext := hstep s a h
      rw [untilFailure]
      split
      case h_1 heq =>
        rw [heq] at hnext
        exact ih hnext
      case h_2 heq =>
        rw [heq] at hnext
        exact hnext

theorem Indexed.compileAll (h : matcher.Indexed config entries) :
    matcher.compileAll.1.Indexed config entries :=
  untilFailure_of_step (fun _ g hindexed => hindexed.compile g) h _

theorem Indexed.clear (h : matcher.Indexed config entries) :
    matcher.clear.Indexed config [] where
  config_eq := h.config_eq
  patterns_size := rfl
  pieces_eq := rfl
  frames_eq := rfl
  built := by
    intro g automaton hg
    obtain ⟨old, hold, rfl⟩ := Option.map_eq_some_iff.mp ((Array.getElem?_map).symm.trans hg)
    rw [Automaton.clear, (h.built hold).stores.config_eq]
    exact .new
  literals_ne_nil := by simp [storedBranches]

theorem getElem?_groups_resize (matcher : Matcher P) (groups g : Nat) :
    (matcher.resize groups).groups[g]? =
      if g < min matcher.groups.size groups then matcher.groups[g]?
      else if g < groups then some (.new matcher.config.automatonConfig) else none := by
  have hsize : (matcher.groups.take groups).size = min matcher.groups.size groups := by
    rw [Array.take_eq_extract, Array.size_extract, Nat.sub_zero, min_comm]
  rw [resize, getElem?_extendArray, hsize]
  split_ifs with hkept hg
  · rw [Array.take_eq_extract, Array.getElem?_extract, if_pos (by omega), Nat.zero_add]
  · rfl
  · rfl

theorem Indexed.resize (h : matcher.Indexed config entries) (groups : Nat) :
    (matcher.resize groups).Indexed { config with groups := groups }
      (entries.map (.regroup (refiled (min matcher.groups.size groups) groups))) where
  config_eq := congrArg (fun c : MatcherConfig => { c with groups := groups }) h.config_eq
  patterns_size := by
    rw [List.length_map]
    exact h.patterns_size
  pieces_eq := by
    rw [storedBranches_regroup, List.map_map]
    exact h.pieces_eq
  frames_eq := by
    rw [storedBranches_regroup, allLabels_regroup, List.map_map]
    exact h.frames_eq
  built := by
    intro g automaton hg
    rw [storedBranches_regroup, allLabels_regroup]
    rw [getElem?_groups_resize] at hg
    split_ifs at hg with hkept hnew
    · have hsame : ∀ old, refiled (min matcher.groups.size groups) groups old = g ↔ old = g :=
        fun old => refiled_eq_iff (Nat.min_le_right _ _) hkept
      rw [groupAdditions_regroup _ fun label _ => hsame label.group]
      exact h.built hg
    · obtain rfl := Option.some.inj hg
      rw [groupAdditions_eq_nil, h.config_eq]
      · exact .new
      · intro label hlabel
        obtain ⟨old, -, rfl⟩ := List.mem_map.mp hlabel
        exact refiled_ne (Nat.not_lt.mp hkept) hnew
  literals_ne_nil := by
    rw [storedBranches_regroup]
    exact List.forall_mem_map.mpr h.literals_ne_nil

/-- Every operation keeps what is stored in line with the patterns. -/
theorem Indexed.perform [Verifier P] (h : matcher.Indexed matcher.config entries)
    (operation : Operation P) :
    (matcher.perform operation).Indexed (matcher.perform operation).config
      (matcher.held entries operation) := by
  have hself : ∀ {next : Matcher P} {config : MatcherConfig} {entries : List Accepted},
      next.Indexed config entries → next.Indexed next.config entries := by
    intro next config entries hnext
    rwa [hnext.config_eq]
  cases operation with
  | call call => exact hself (h.after call)
  | compileAll => exact hself h.compileAll
  | searchVerified g text mode =>
      have hscan := h.after (.scan (.findAll g text mode))
      rw [storedBy, List.append_nil] at hscan
      exact hself hscan
  | resize groups => exact hself (h.resize groups)
  | clear => exact hself h.clear
  | shrink => exact h

theorem Indexed.performAll [Verifier P] (h : matcher.Indexed matcher.config entries)
    (operations : List (Operation P)) :
    (operations.foldl Matcher.perform matcher).Indexed
      (operations.foldl Matcher.perform matcher).config (matcher.heldAll entries operations) := by
  induction operations generalizing matcher entries with
  | nil => exact h
  | cons operation operations ih => exact ih (h.perform operation)

theorem indexed_performed [Verifier P] (config : MatcherConfig) (operations : List (Operation P)) :
    (performed config operations).Indexed (performed config operations).config
      (stored config operations) :=
  Indexed.performAll (indexed_new config) operations

end Matcher

end LiteralSieve
