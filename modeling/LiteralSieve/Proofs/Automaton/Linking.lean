import LiteralSieve.Proofs.Automaton.LongestEnds

namespace LiteralSieve

/-!
# Compiling a trie

The links of a trie are set state by state, in an order in which shorter words come first. At every
step all states up to the length of the current one have their links, so that those of its children
can be found. The table is filled in the same order, each row from that of a shorter word.
-/

namespace TrieState

/-- What linking leaves alone. -/
def core (state : TrieState) : TrieState := { state with fail := none, output := none }

end TrieState

namespace Trie

/-- The tries differ in their links at most. -/
def Relinked (old new : Trie) : Prop := new.map TrieState.core = old.map TrieState.core

namespace Relinked

variable {old new : Trie} {s : Nat}

theorem refl (trie : Trie) : Relinked trie trie := Eq.refl (trie.map TrieState.core)

theorem trans {a b c : Trie} (hab : Relinked a b) (hbc : Relinked b c) : Relinked a c :=
  Eq.trans hbc hab

theorem sameShape (h : Relinked old new) : SameShape old new := by
  have hmap : ∀ trie : Trie, (trie.map TrieState.core).map TrieState.shape =
      trie.map TrieState.shape := fun trie => by
    rw [Array.map_map]
    rfl
  rw [SameShape, ← hmap new, ← hmap old, h]

theorem size_eq (h : Relinked old new) : new.size = old.size := h.sameShape.size_eq

theorem word_eq (h : Relinked old new) : new.word s = old.word s := h.sameShape.word_eq

theorem depth_eq (h : Relinked old new) : new.depth s = old.depth s := h.sameShape.depth_eq

theorem wellFormed (h : Relinked old new) (hwf : old.WellFormed) : new.WellFormed :=
  h.sameShape.wellFormed hwf

theorem terminal_eq (h : Relinked old new) : new.terminal? s = old.terminal? s := by
  have hcore : (new[s]?).map TrieState.core = (old[s]?).map TrieState.core := by
    rw [← Array.getElem?_map, ← Array.getElem?_map, h]
  have hs := congrArg (Option.bind · TrieState.terminal) hcore
  simp only [Option.bind_map] at hs
  exact hs

theorem longest (h : Relinked old new) {past : Bytes} (hlongest : old.Longest past s) :
    new.Longest past s where
  lt_size := h.size_eq ▸ hlongest.lt_size
  isPrefix := h.word_eq ▸ hlongest.isPrefix
  depth_le := by
    intro t ht hpre
    rw [h.size_eq] at ht
    rw [h.word_eq] at hpre
    simpa only [h.depth_eq] using hlongest.depth_le t ht hpre

theorem longestKey (h : Relinked old new) {past : Bytes} {key : Option StateId}
    (hkey : old.LongestKey past key) : new.LongestKey past key := by
  cases key with
  | none =>
      intro t ht hk hpre
      rw [h.size_eq] at ht
      rw [IsKey, h.terminal_eq] at hk
      rw [h.word_eq] at hpre
      exact hkey t ht hk hpre
  | some o =>
      simpa only [LongestKey, IsKey, h.size_eq, h.terminal_eq, h.word_eq, h.depth_eq] using hkey

/-- A state that was not touched keeps what its links are worth. -/
theorem linkedAt (h : Relinked old new) (hget : new[s]? = old[s]?) (hlinked : old.LinkedAt s) :
    new.LinkedAt s where
  fail_root := by
    intro hroot
    simpa only [fail?, hget] using hlinked.fail_root hroot
  fail := by
    intro hroot
    obtain ⟨f, hf, hlongest⟩ := hlinked.fail hroot
    refine ⟨f, by simpa only [fail?, hget] using hf, ?_⟩
    rw [h.word_eq]
    exact h.longest hlongest
  output_root := by
    intro hroot
    simpa only [output?, hget] using hlinked.output_root hroot
  output := by
    intro hroot
    have hkey := h.longestKey (hlinked.output hroot)
    simpa only [output?, hget, h.word_eq] using hkey

end Relinked

/-! ## The order of the states -/

/-- All states, those of shorter words first. -/
structure BreadthFirst (trie : Trie) (order : List StateId) : Prop where
  lt_size : ∀ s ∈ order, s < trie.size
  complete : ∀ s < trie.size, s ∈ order
  sorted : order.Pairwise fun s t => trie.depth s ≤ trie.depth t

theorem BreadthFirst.relinked {old new : Trie} {order : List StateId} (h : Relinked old new)
    (horder : old.BreadthFirst order) : new.BreadthFirst order where
  lt_size := h.size_eq ▸ horder.lt_size
  complete := h.size_eq ▸ horder.complete
  sorted := horder.sorted.imp fun hle => by rwa [h.depth_eq, h.depth_eq]

/-- A state with a shorter word than the next one is among those before. -/
theorem BreadthFirst.mem_before {trie : Trie} {done rest : List StateId} {s r : Nat}
    (h : trie.BreadthFirst (done ++ s :: rest)) (hr : r < trie.size)
    (hlt : trie.depth r < trie.depth s) : r ∈ done := by
  rcases List.mem_append.mp (h.complete r hr) with hdone | hafter
  · exact hdone
  · have hsorted := (List.pairwise_append.mp h.sorted).2.1
    rcases List.mem_cons.mp hafter with rfl | hrest
    · exact (lt_irrefl _ hlt).elim
    · have hle := (List.pairwise_cons.mp hsorted).1 r hrest
      omega

/-- The states of one length. -/
def IsLevel (trie : Trie) (d : Nat) (level : List StateId) : Prop :=
  ∀ s, s ∈ level ↔ s < trie.size ∧ trie.depth s = d

theorem WellFormed.mem_children_map {trie : Trie} (h : trie.WellFormed) {s t : Nat} :
    t ∈ (trie[s]?.map (·.children.map Prod.snd)).getD [] ↔
      s < trie.size ∧ t < trie.size ∧ ∃ letter, trie.word t = letter :: trie.word s := by
  cases hget : trie[s]? with
  | none =>
      have hle := Array.getElem?_eq_none_iff.mp hget
      simp only [Option.map_none, Option.getD_none, List.not_mem_nil, false_iff, not_and]
      omega
  | some state =>
      have hs : s < trie.size := (Array.getElem?_eq_some_iff.mp hget).1
      simp only [Option.map_some, Option.getD_some, List.mem_map, Prod.exists, exists_eq_right,
        h.mem_children hget, exists_and_left, hs, true_and]

theorem WellFormed.isLevel_next {trie : Trie} (h : trie.WellFormed) {d : Nat}
    {level : List StateId} (hlevel : trie.IsLevel d level) :
    trie.IsLevel (d + 1)
      (level.flatMap fun s => (trie[s]?.map (·.children.map Prod.snd)).getD []) := by
  intro t
  simp only [List.mem_flatMap, h.mem_children_map]
  constructor
  · rintro ⟨s, hs, -, ht, letter, hword⟩
    refine ⟨ht, ?_⟩
    rw [depth_eq, hword, List.length_cons, ← depth_eq, ((hlevel s).mp hs).2]
  · rintro ⟨ht, hdepth⟩
    have hroot : t ≠ root := by
      rintro rfl
      simp [depth_eq, h.word_root] at hdepth
    obtain ⟨s, hs, letter, hword⟩ := h.parent ht hroot
    have hlt := hs.trans ht
    refine ⟨s, (hlevel s).mpr ⟨hlt, ?_⟩, hlt, ht, letter, hword⟩
    rw [depth_eq, hword, List.length_cons, ← depth_eq] at hdepth
    omega

/-- Beyond an empty level there is nothing. -/
theorem WellFormed.depth_lt_of_isLevel_nil {trie : Trie} (h : trie.WellFormed) {d : Nat}
    (hlevel : trie.IsLevel d []) {s : Nat} (hs : s < trie.size) : trie.depth s < d := by
  induction s using Nat.strong_induction_on with
  | _ s ih =>
    have hne : trie.depth s ≠ d := fun e => List.not_mem_nil ((hlevel s).mpr ⟨hs, e⟩)
    by_cases hroot : s = root
    · subst hroot
      rw [depth_eq, h.word_root] at hne ⊢
      exact Nat.pos_of_ne_zero hne.symm
    · obtain ⟨r, hr, letter, hword⟩ := h.parent hs hroot
      have hlt := ih r hr (hr.trans hs)
      rw [depth_eq, hword, List.length_cons, ← depth_eq] at hne ⊢
      omega

theorem WellFormed.levels_spec {trie : Trie} (h : trie.WellFormed) (fuel : Nat) {d : Nat}
    {level : List StateId} (hlevel : trie.IsLevel d level) :
    (∀ s ∈ trie.levels fuel level, s < trie.size ∧ d ≤ trie.depth s) ∧
      (∀ s < trie.size, d ≤ trie.depth s → trie.depth s < d + fuel → s ∈ trie.levels fuel level) ∧
        (trie.levels fuel level).Pairwise fun s t => trie.depth s ≤ trie.depth t := by
  induction fuel generalizing d level with
  | zero =>
      refine ⟨by simp [levels], fun s _ hle hlt => ?_, by simp [levels]⟩
      omega
  | succ fuel ih =>
      by_cases hempty : level = []
      · subst hempty
        refine ⟨by simp [levels], fun s hs hle _ => ?_, by simp [levels]⟩
        have hlt := h.depth_lt_of_isLevel_nil hlevel hs
        omega
      · obtain ⟨hbound, hcomplete, hsorted⟩ := ih (h.isLevel_next hlevel)
        simp only [levels, List.isEmpty_iff, hempty, if_false]
        refine ⟨?_, ?_, ?_⟩
        · intro s hs
          rcases List.mem_append.mp hs with hs | hs
          · exact ⟨((hlevel s).mp hs).1, ((hlevel s).mp hs).2.ge⟩
          · exact ⟨(hbound s hs).1, (Nat.le_succ d).trans (hbound s hs).2⟩
        · intro s hs hle hlt
          rcases hle.eq_or_lt with heq | hgt
          · exact List.mem_append_left _ ((hlevel s).mpr ⟨hs, heq.symm⟩)
          · exact List.mem_append_right _ (hcomplete s hs hgt (by omega))
        · refine List.pairwise_append.mpr ⟨?_, hsorted, ?_⟩
          · refine List.pairwise_of_forall_mem_list fun s hs t ht => ?_
            rw [((hlevel s).mp hs).2, ((hlevel t).mp ht).2]
          · intro s hs t ht
            rw [((hlevel s).mp hs).2]
            exact (Nat.le_succ d).trans (hbound t ht).2

theorem WellFormed.breadthFirst {trie : Trie} (h : trie.WellFormed) :
    trie.BreadthFirst trie.breadthFirst := by
  have hlevel : trie.IsLevel 0 [root] := by
    intro s
    simp only [List.mem_singleton]
    constructor
    · rintro rfl
      exact ⟨h.root_lt, by simp [depth_eq, h.word_root]⟩
    · rintro ⟨hs, hdepth⟩
      exact h.eq_root hs (List.length_eq_zero_iff.mp hdepth)
  obtain ⟨hbound, hcomplete, hsorted⟩ := h.levels_spec trie.size hlevel
  refine ⟨fun s hs => (hbound s hs).1, fun s hs => ?_, hsorted⟩
  exact hcomplete s hs (Nat.zero_le _) (by have := h.depth_le hs; omega)

/-! ## Setting the links -/

theorem relinked_modify (trie : Trie) (s : StateId) {f : TrieState → TrieState}
    (hf : ∀ state, (f state).core = state.core) : Relinked trie (trie.modify s f) := by
  refine Array.ext_getElem? fun i => ?_
  rw [Array.getElem?_map, Array.getElem?_map, Array.getElem?_modify]
  split_ifs with h
  · rw [Option.map_map, show TrieState.core ∘ f = TrieState.core from funext hf]
  · rfl

section Link

variable {trie : Trie} {s child : Nat} {letter : UInt8}

/-- All states up to the length of `s` have their links. -/
def LinkedUpTo (trie : Trie) (s : StateId) : Prop :=
  ∀ t < trie.size, trie.depth t ≤ trie.depth s → trie.LinkedAt t

theorem linkChild_spec (hwf : trie.WellFormed) (hs : s < trie.size) (hlinked : trie.LinkedUpTo s)
    (hchild : child < trie.size) (hword : trie.word child = letter :: trie.word s) :
    ∃ new, linkChild s trie (letter, child) = some new ∧ Relinked trie new ∧
      (∀ t, t ≠ child → new[t]? = trie[t]?) ∧ new.LinkedAt child := by
  let shorter := trie.childFail s letter
  let output := trie.nearestKey shorter
  let new : Trie := trie.modify child fun state => { state with fail := some shorter, output := output }
  have hnew : linkChild s trie (letter, child) = some new := by rw [linkChild, if_pos hword]
  have hrel : Relinked trie new := relinked_modify trie child fun _ => rfl
  have hget : ∀ t, new[t]? = if child = t then
      trie[t]?.map fun state => { state with fail := some shorter, output := output }
      else trie[t]? := fun t => Array.getElem?_modify
  have hlongest : trie.Longest (trie.word child).dropLast shorter := by
    rw [hword]
    exact childFail_longest hwf hs hlinked
  have hroot : child ≠ root := by
    rintro rfl
    simp [hwf.word_root] at hword
  have hshorter : trie.LinkedAt shorter := by
    apply hlinked _ hlongest.lt_size
    have hlt := hlongest.depth_lt hwf hchild hroot
    rw [depth_eq trie child, hword, List.length_cons, ← depth_eq] at hlt
    omega
  have hat : new[child]? = some { trie[child] with fail := some shorter, output := output } := by
    rw [hget, if_pos rfl, Array.getElem?_eq_getElem hchild, Option.map_some]
  refine ⟨new, hnew, hrel, fun t ht => by rw [hget, if_neg ht.symm], ?_, ?_, ?_, ?_⟩
  · exact fun e => (hroot e).elim
  · intro _
    refine ⟨shorter, by simp [fail?, hat], ?_⟩
    rw [hrel.word_eq]
    exact hrel.longest hlongest
  · exact fun e => (hroot e).elim
  · intro _
    have hkey := hlongest.longestKey (hshorter.nearestKey hwf hlongest.lt_size)
    rw [hrel.word_eq, show new.output? child = output by simp [output?, hat]]
    exact hrel.longestKey hkey

/-- The links of some children of `s` are set, and nothing else changes. -/
theorem linkEdges_spec (edges : List (UInt8 × StateId)) {trie : Trie} (hwf : trie.WellFormed)
    (hs : s < trie.size) (hlinked : trie.LinkedUpTo s)
    (hedges : ∀ edge ∈ edges, edge.2 < trie.size ∧ trie.word edge.2 = edge.1 :: trie.word s) :
    ∃ new, edges.foldlM (linkChild s) trie = some new ∧ Relinked trie new ∧
      (∀ t, (∀ edge ∈ edges, edge.2 ≠ t) → new[t]? = trie[t]?) ∧
        ∀ edge ∈ edges, new.LinkedAt edge.2 := by
  induction edges generalizing trie with
  | nil => exact ⟨trie, rfl, Relinked.refl trie, fun _ _ => rfl, by simp⟩
  | cons edge edges ih =>
      obtain ⟨letter, child⟩ := edge
      obtain ⟨hchild, hword⟩ := hedges (letter, child) List.mem_cons_self
      obtain ⟨mid, hmid, hrel, hsame, hat⟩ := linkChild_spec hwf hs hlinked hchild hword
      have hlinked' : mid.LinkedUpTo s := by
        intro t ht hle
        rw [hrel.size_eq] at ht
        rw [hrel.depth_eq, hrel.depth_eq] at hle
        refine hrel.linkedAt (hsame t ?_) (hlinked t ht hle)
        rintro rfl
        rw [depth_eq, hword, List.length_cons, ← depth_eq] at hle
        omega
      have hedges' : ∀ edge ∈ edges,
          edge.2 < mid.size ∧ mid.word edge.2 = edge.1 :: mid.word s := by
        intro edge hedge
        rw [hrel.size_eq, hrel.word_eq, hrel.word_eq]
        exact hedges edge (List.mem_cons_of_mem _ hedge)
      obtain ⟨new, hnew, hrel', hsame', hat'⟩ :=
        ih (hrel.wellFormed hwf) (hrel.size_eq ▸ hs) hlinked' hedges'
      refine ⟨new, by rw [List.foldlM_cons, hmid]; exact hnew, hrel.trans hrel', ?_, ?_⟩
      · intro t ht
        rw [hsame' t fun edge hedge => ht edge (List.mem_cons_of_mem _ hedge)]
        exact hsame t (ht (letter, child) List.mem_cons_self).symm
      · intro edge hedge
        rcases List.mem_cons.mp hedge with rfl | hedge
        · -- The child may come again, and then the later links are the ones that stay.
          by_cases hagain : ∃ other ∈ edges, other.2 = child
          · obtain ⟨other, hother, heq⟩ := hagain
            exact heq ▸ hat' other hother
          · push Not at hagain
            exact hrel'.linkedAt (hsame' child hagain) hat
        · exact hat' edge hedge

theorem linkChildren_spec (hwf : trie.WellFormed) (hs : s < trie.size)
    (hlinked : trie.LinkedUpTo s) :
    ∃ new, linkChildren trie s = some new ∧ Relinked trie new ∧
      ∀ t < trie.size, (trie.LinkedAt t ∨ ∃ letter, trie.word t = letter :: trie.word s) →
        new.LinkedAt t := by
  have hget : trie[s]? = some trie[s] := Array.getElem?_eq_getElem hs
  have hmem : ∀ edge : UInt8 × StateId, edge ∈ trie[s].children ↔
      edge.2 < trie.size ∧ trie.word edge.2 = edge.1 :: trie.word s :=
    fun edge => hwf.mem_children hget
  obtain ⟨new, hnew, hrel, hsame, hat⟩ :=
    linkEdges_spec trie[s].children hwf hs hlinked fun edge hedge => (hmem edge).mp hedge
  refine ⟨new, by simpa [linkChildren, hget] using hnew, hrel, ?_⟩
  intro t ht hcase
  by_cases hchild : ∃ letter, trie.word t = letter :: trie.word s
  · obtain ⟨letter, hword⟩ := hchild
    exact hat (letter, t) ((hmem (letter, t)).mpr ⟨ht, hword⟩)
  · refine hrel.linkedAt (hsame t ?_) (hcase.resolve_right hchild)
    rintro edge hedge rfl
    exact hchild ⟨edge.1, ((hmem edge).mp hedge).2⟩

/-- The root and the children of these states have their links. -/
def LinkedThrough (trie : Trie) (done : List StateId) : Prop :=
  ∀ t < trie.size, t = root ∨ (∃ s ∈ done, ∃ letter, trie.word t = letter :: trie.word s) →
    trie.LinkedAt t

theorem linkAll_spec (order : List StateId) {trie : Trie} (done : List StateId)
    (hwf : trie.WellFormed) (horder : trie.BreadthFirst (done ++ order))
    (hdone : trie.LinkedThrough done) :
    ∃ new, order.foldlM linkChildren trie = some new ∧ Relinked trie new ∧
      new.LinkedThrough (done ++ order) := by
  induction order generalizing trie done with
  | nil => exact ⟨trie, rfl, Relinked.refl trie, by simpa using hdone⟩
  | cons s order ih =>
      have hs : s < trie.size := horder.lt_size s (by simp)
      -- Parents of states that are no longer than `s` are shorter, so they were before `s`.
      have hlinked : trie.LinkedUpTo s := by
        intro t ht hle
        by_cases hroot : t = root
        · exact hdone t ht (Or.inl hroot)
        · obtain ⟨r, hr, letter, hword⟩ := hwf.parent ht hroot
          refine hdone t ht (Or.inr ⟨r, horder.mem_before (hr.trans ht) ?_, letter, hword⟩)
          rw [depth_eq, hword, List.length_cons, ← depth_eq] at hle
          omega
      obtain ⟨mid, hmid, hrel, hat⟩ := linkChildren_spec hwf hs hlinked
      have hdone' : mid.LinkedThrough (done ++ [s]) := by
        intro t ht hcase
        rw [hrel.size_eq] at ht
        apply hat t ht
        rcases hcase with hroot | ⟨r, hr, letter, hword⟩
        · exact Or.inl (hdone t ht (Or.inl hroot))
        · rw [hrel.word_eq, hrel.word_eq] at hword
          rcases List.mem_append.mp hr with hr | hr
          · exact Or.inl (hdone t ht (Or.inr ⟨r, hr, letter, hword⟩))
          · rw [List.mem_singleton.mp hr] at hword
            exact Or.inr ⟨letter, hword⟩
      have horder' : mid.BreadthFirst ((done ++ [s]) ++ order) := by
        simpa using horder.relinked hrel
      obtain ⟨new, hnew, hrel', hthrough⟩ := ih _ (hrel.wellFormed hwf) horder' hdone'
      refine ⟨new, by rw [List.foldlM_cons, hmid]; exact hnew, hrel.trans hrel', ?_⟩
      simpa using hthrough

/-- Linking always succeeds, whatever links there were before. -/
theorem link_spec (hwf : trie.WellFormed) :
    ∃ new, trie.link = some new ∧ Relinked trie new ∧ new.Linked := by
  let cleared : Trie := trie.modify root fun state => { state with fail := none, output := none }
  have hrel : Relinked trie cleared := relinked_modify trie root fun _ => rfl
  have hcleared := hrel.wellFormed hwf
  have hget : cleared[root]? = trie[root]?.map fun state =>
      { state with fail := none, output := none } := by
    simp [cleared, Array.getElem?_modify]
  have hstart : cleared.LinkedThrough [] := by
    rintro t ht (rfl | ⟨s, hs, -⟩)
    · refine ⟨fun _ => ?_, fun h => (h rfl).elim, fun _ => ?_, fun h => (h rfl).elim⟩
      · cases h : trie[root]? <;> simp [fail?, hget, h]
      · cases h : trie[root]? <;> simp [output?, hget, h]
    · simp at hs
  obtain ⟨new, hnew, hrel', hthrough⟩ :=
    linkAll_spec cleared.breadthFirst [] hcleared (by simpa using hcleared.breadthFirst) hstart
  refine ⟨new, hnew, hrel.trans hrel', ?_⟩
  intro t ht
  apply hthrough t ht
  by_cases hroot : t = root
  · exact Or.inl hroot
  · have hwf' := hrel'.wellFormed hcleared
    obtain ⟨r, hr, letter, hword⟩ := hwf'.parent ht hroot
    have hrlt : r < cleared.size := hrel'.size_eq ▸ hr.trans ht
    exact Or.inr ⟨r, by simpa using hcleared.breadthFirst.complete r hrlt, letter, hword⟩

end Link

end Trie

end LiteralSieve
