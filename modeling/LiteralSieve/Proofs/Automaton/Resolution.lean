import LiteralSieve.Automaton.Check
import LiteralSieve.Proofs.Automaton.OrderedTable

namespace LiteralSieve

/-!
# Resolved automata

Compiling an automaton resolves every state: its link, its output and its row of the table are the
states of longest ends. An automaton that counts as compiled is always resolved, for the keys that
it has at that time, and passes its checks. So does one that is not compiled, of which only the
children are looked at.
-/

/-! ## Checks -/

namespace Trie

variable {trie : Trie} {past word : Bytes} {s t : Nat}

theorem Longest.unique (hwf : trie.WellFormed) (hs : trie.Longest past s)
    (ht : trie.Longest past t) : s = t := by
  have hdepth : trie.depth s = trie.depth t := by
    apply le_antisymm
    · exact ht.depth_le s hs.lt_size hs.isPrefix
    · exact hs.depth_le t ht.lt_size ht.isPrefix
  have hpre : trie.word s <+: trie.word t := ht.prefix_word hs.lt_size hs.isPrefix
  exact hwf.word_inj hs.lt_size ht.lt_size (hpre.eq_of_length hdepth)

theorem isAscending_of_ascending {children : List (UInt8 × StateId)}
    (h : TrieState.Ascending children) : isAscending children = true := by
  fun_induction isAscending children with
  | case1 a s b t rest ih =>
      have hhead := List.pairwise_cons.mp h
      rw [Bool.and_eq_true, decide_eq_true_eq]
      exact ⟨hhead.1 b List.mem_cons_self, ih hhead.2⟩
  | case2 => rfl

theorem WellFormed.checkChildren (h : trie.WellFormed) {state : TrieState}
    (hget : trie[s]? = some state) : trie.checkChildren state = true := by
  rw [Trie.checkChildren, Bool.and_eq_true, List.all_eq_true]
  refine ⟨isAscending_of_ascending (h.ascending hget), ?_⟩
  rintro ⟨letter, child⟩ hedge
  obtain ⟨hlt, hword⟩ := (h.mem_children hget).mp hedge
  have hchild : trie[child]? = some trie[child] := Array.getElem?_eq_getElem hlt
  rw [word_eq hchild, word_eq hget] at hword
  simp [hchild, hword]

/-- On the way along the outputs, keys get shorter, so the fuel suffices for as many letters. -/
theorem Linked.checkOutputs (hlinked : trie.Linked) (hwf : trie.WellFormed) {fuel depth : Nat}
    {key : Option StateId} (hkey : trie.LongestKey past key) (hpast : past <+: word)
    (hdepth : past.length < depth) (hfuel : past.length < fuel) :
    trie.checkOutputs word fuel depth key = true := by
  induction fuel generalizing past depth key with
  | zero => omega
  | succ fuel ih =>
      cases key with
      | none => simp [Trie.checkOutputs]
      | some o =>
          obtain ⟨ho, hiskey, hpre, -⟩ := hkey
          have hget : trie[o]? = some trie[o] := Array.getElem?_eq_getElem ho
          have hword : trie.word o = trie[o].word := word_eq hget
          have hterminal : trie[o].terminal.isSome = true := by
            simpa [IsKey, terminal?, hget] using hiskey
          have houtput : trie.output? o = trie[o].output := by simp [output?, hget]
          have hlength : (trie.word o).length ≤ past.length := hpre.length_le
          have hrest : trie.checkOutputs word fuel trie[o].depth trie[o].output = true := by
            rw [← houtput]
            by_cases hroot : o = root
            · rw [(hlinked o ho).output_root hroot]
              simp [Trie.checkOutputs]
            · have hpos := List.length_pos_iff.mpr (hwf.word_ne_nil ho hroot)
              have hshort : (trie.word o).dropLast.length < (trie.word o).length := by
                rw [List.length_dropLast]
                omega
              apply ih ((hlinked o ho).output hroot)
              · exact (List.dropLast_prefix _).trans (hpre.trans hpast)
              · rwa [TrieState.depth, ← hword]
              · omega
          simp only [Trie.checkOutputs, hget, Option.any_some, Bool.and_eq_true,
            decide_eq_true_eq, List.isPrefixOf_iff_prefix, TrieState.depth, ← hword]
          exact ⟨⟨⟨hterminal, hlength.trans_lt hdepth⟩, hpre.trans hpast⟩, by
            simpa only [TrieState.depth, ← hword] using hrest⟩

theorem Linked.checkLinks (hlinked : trie.Linked) (hwf : trie.WellFormed) {state : TrieState}
    (hget : trie[s]? = some state) : trie.checkLinks s state = true := by
  have hs : s < trie.size := (Array.getElem?_eq_some_iff.mp hget).1
  have hword : trie.word s = state.word := word_eq hget
  have hfail : trie.fail? s = state.fail := by simp [fail?, hget]
  have houtput : trie.output? s = state.output := by simp [output?, hget]
  by_cases hroot : s = root
  · rw [Trie.checkLinks, if_pos hroot, ← hfail, (hlinked s hs).fail_root hroot]
    rfl
  · obtain ⟨f, hf, hlongest⟩ := (hlinked s hs).fail hroot
    have hdepth := hlongest.depth_lt hwf hs hroot
    have hkey := (hlinked s hs).output hroot
    have hshort : (trie.word s).dropLast.length < (trie.word s).length := by
      have hpos := List.length_pos_iff.mpr (hwf.word_ne_nil hs hroot)
      rw [List.length_dropLast]
      omega
    rw [hword, houtput] at hkey
    rw [hword] at hshort
    rw [Trie.checkLinks, if_neg hroot, ← hfail, hf]
    simp only [Bool.and_eq_true, decide_eq_true_eq, List.isPrefixOf_iff_prefix]
    refine ⟨⟨?_, ?_⟩, hlinked.checkOutputs hwf hkey (List.dropLast_prefix _) hshort hshort⟩
    · rwa [depth_eq trie s, hword] at hdepth
    · rw [← hword]
      exact hlongest.isPrefix.trans (List.dropLast_prefix _)

/-- New links are right where the old table is. -/
theorem Relinked.tabled {old new : Trie} (h : Relinked old new) {moves : Array (Array StateId)}
    (htabled : old.Tabled moves) : new.Tabled moves := by
  refine ⟨h.size_eq ▸ htabled.1, fun s hs => ?_⟩
  obtain ⟨row, hrow, hsize, hright⟩ := htabled.2 s (h.size_eq ▸ hs)
  refine ⟨row, hrow, hsize, fun letter => ?_⟩
  obtain ⟨t, ht, hlongest⟩ := hright letter
  rw [h.word_eq]
  exact ⟨t, ht, h.longest hlongest⟩

end Trie

namespace Automaton

variable {V : Type} {config : AutomatonConfig} {additions : List (Addition V)}
  {automaton : Automaton V}

namespace Stores

theorem checkSiblings (h : Stores config additions automaton) :
    automaton.checkSiblings = true := by
  rw [Automaton.checkSiblings, Array.all_eq_true]
  intro s hs
  exact h.wellFormed.checkChildren (Array.getElem?_eq_getElem hs)

theorem checkFail (h : Stores config additions automaton) : automaton.checkFail = true := by
  rw [Automaton.checkFail, Bool.or_eq_true, Bool.not_eq_true', List.all_eq_true]
  cases hcompiled : automaton.compiled with
  | false => exact Or.inl rfl
  | true =>
      refine Or.inr ?_
      rintro ⟨state, s⟩ hstate
      have hget : automaton.trie[s]? = some state := by
        simpa using List.mem_zipIdx_iff_getElem?.mp hstate
      exact (h.compiled hcompiled).1.checkLinks h.wellFormed hget

theorem checkMove (h : Stores config additions automaton) : automaton.checkMove = true := by
  rw [Automaton.checkMove, Bool.or_eq_true, Bool.not_eq_true', Bool.and_eq_true, beq_iff_eq]
  cases hcompiled : automaton.compiled with
  | false => exact Or.inl rfl
  | true =>
      obtain ⟨hlinked, htabled⟩ := h.compiled hcompiled
      refine Or.inr ⟨htabled.1, ?_⟩
      simp only [List.all_eq_true, List.mem_range, beq_iff_eq]
      intro s hs letter _
      apply (longest_move htabled hs letter).unique h.wellFormed
      exact Trie.follow_longest h.wellFormed hs (fun t ht _ => hlinked t ht) (Nat.lt_succ_self _)

theorem check (h : Stores config additions automaton) : automaton.check = true := by
  rw [Automaton.check, h.checkSiblings, h.checkFail, h.checkMove]
  rfl

end Stores

/-! ## Keys and states -/

section Keys

variable (hstores : Stores config additions automaton) {s : Nat}

include hstores

/-- The states with a terminal are those of the keys. -/
theorem Stores.isKey_iff (hs : s < automaton.trie.size) :
    automaton.trie.IsKey s ↔ (automaton.trie.word s).reverse ∈ foldedKeys config additions := by
  have hentry : (automaton.trie.word s).reverse ∈ foldedKeys config additions ↔
      ∃ entry, entryAt? config additions (automaton.trie.word s).reverse = some entry := by
    rw [← Option.ne_none_iff_exists', ne_eq, entryAt?_eq_none_iff, not_not]
  rw [Trie.IsKey, hentry, Option.isSome_iff_exists]
  constructor
  · rintro ⟨id, hid⟩
    obtain ⟨terminal, hget, rfl⟩ := hstores.terminal_iff.mp hid
    exact ⟨_, hstores.entry_eq hget⟩
  · rintro ⟨entry, hsome⟩
    obtain ⟨id, terminal, hget, hword⟩ := hstores.exists_terminal hsome
    rw [List.reverse_reverse] at hword
    have hstate : terminal.state = s :=
      hstores.wellFormed.word_inj (hstores.state_lt hget) hs hword
    exact ⟨id, hstores.terminal_iff.mpr ⟨terminal, hget, hstate⟩⟩

theorem Stores.not_isKey_root : ¬ automaton.trie.IsKey Trie.root := by
  intro hkey
  obtain ⟨id, hid⟩ := Option.isSome_iff_exists.mp hkey
  obtain ⟨terminal, hget, hroot⟩ := hstores.terminal_iff.mp hid
  exact hstores.state_ne_root hget hroot

end Keys

/-- The states are the beginnings of these folded keys, and each has been resolved: what it links to
and leads to are the states of longest ends. Words have their last letter in front, so their ends are
prefixes, and the proper ones are those of `dropLast`. -/
structure Resolved (keys : List Bytes) (automaton : Automaton V) : Prop where
  exists_state_iff : ∀ beginning, (∃ s < automaton.trie.size,
    (automaton.trie.word s).reverse = beginning) ↔ beginning = [] ∨ beginning ∈ beginnings keys
  word_inj : ∀ s < automaton.trie.size, ∀ t < automaton.trie.size,
    automaton.trie.word s = automaton.trie.word t → s = t
  isKey_iff : ∀ s < automaton.trie.size,
    automaton.trie.IsKey s ↔ (automaton.trie.word s).reverse ∈ keys
  fail_root : automaton.trie.fail? Trie.root = none
  fail : ∀ s < automaton.trie.size, s ≠ Trie.root → ∃ f, automaton.trie.fail? s = some f ∧
    automaton.trie.Longest (automaton.trie.word s).dropLast f
  output : ∀ s < automaton.trie.size,
    automaton.trie.LongestKey (automaton.trie.word s).dropLast (automaton.trie.output? s)
  move : ∀ s < automaton.trie.size, ∀ letter,
    automaton.trie.Longest (letter :: automaton.trie.word s) (automaton.move s letter)

theorem Stores.resolved (hstores : Stores config additions automaton)
    (hordered : Ordered config additions automaton) (hcompiled : automaton.compiled = true) :
    automaton.Resolved (foldedKeys config additions) := by
  have hwf := hstores.wellFormed
  obtain ⟨hlinked, htabled⟩ := hstores.compiled hcompiled
  refine ⟨fun _ => hstores.exists_state_iff hordered, fun s hs t ht => hwf.word_inj hs ht,
    fun s hs => hstores.isKey_iff hs, (hlinked _ hwf.root_lt).fail_root rfl,
    fun s hs => (hlinked s hs).fail, fun s hs => ?_, fun s hs => longest_move htabled hs⟩
  by_cases hroot : s = Trie.root
  · -- Only the root is an end of nothing, and it is no key.
    rw [(hlinked s hs).output_root hroot, hroot, hwf.word_root]
    intro t ht hkey hpre
    have htroot := hwf.eq_root ht (List.prefix_nil.mp hpre)
    exact hstores.not_isKey_root (htroot ▸ hkey)
  · exact (hlinked s hs).output hroot

/-! ## Operations -/

/-- What can be done with an automaton. -/
inductive Operation (V : Type) where
  | add (a : Addition V)
  | compile
  | compileLinks
  | compileTable
  | clear
  /-- Memory is given back, and nothing else is changed. -/
  | shrink

/-- The automaton after an operation. A key that is refused changes nothing. -/
def perform (automaton : Automaton V) : Operation V → Automaton V
  | .add a =>
    match automaton.addWith a.key a.id a.wholeWord a.update with
    | .ok (next, _) => next
    | .error _ => automaton
  | .compile => automaton.compile.1
  | .compileLinks => automaton.compileLinks.1
  | .compileTable => automaton.compileTable.1
  | .clear => automaton.clear
  | .shrink => automaton

/-- The additions that an automaton keeps after an operation. -/
def keep (config : AutomatonConfig) (additions : List (Addition V)) :
    Operation V → List (Addition V)
  | .add a => if config.validate a.key = .ok () then additions ++ [a] else additions
  | .clear => []
  | _ => additions

/-- A new automaton after some operations. -/
def performed (config : AutomatonConfig) (operations : List (Operation V)) : Automaton V :=
  operations.foldl perform (.new config)

/-- The additions that a new automaton keeps after some operations. -/
def kept (config : AutomatonConfig) (operations : List (Operation V)) : List (Addition V) :=
  operations.foldl (keep config) []

/-- The automaton is the ordered table of these additions. -/
structure Maintains (config : AutomatonConfig) (additions : List (Addition V))
    (automaton : Automaton V) : Prop where
  stores : Stores config additions automaton
  ordered : Ordered config additions automaton

namespace Maintains

theorem add (h : Maintains config additions automaton) (a : Addition V) :
    Maintains config (keep config additions (.add a)) (automaton.perform (.add a)) := by
  have hvalidate : automaton.validate a.key = config.validate a.key := by
    rw [Automaton.validate, h.stores.config_eq]
  cases hvalid : config.validate a.key with
  | ok =>
      obtain ⟨next, id, hadd⟩ :=
        addWith_of_validate (hvalidate.trans hvalid) a.id a.wholeWord a.update
      rw [keep, if_pos hvalid, perform, hadd]
      exact ⟨h.stores.addWith a hadd, (h.ordered.addWith h.stores a hadd).1⟩
  | error cause =>
      have hadd : automaton.addWith a.key a.id a.wholeWord a.update = .error cause := by
        rw [Automaton.addWith, hvalidate, hvalid]
      rw [keep, if_neg (by simp [hvalid]), perform, hadd]
      exact h

/-- New links replace right ones by right ones, and any others by right ones too. -/
theorem compileLinks (h : Maintains config additions automaton) :
    Maintains config additions automaton.compileLinks.1 := by
  obtain ⟨trie, htrie, hrel, hlinked⟩ := Trie.link_spec h.stores.wellFormed
  rw [Automaton.compileLinks, htrie]
  refine ⟨h.stores.relinked hrel fun hcompiled => ?_, h.ordered.relinked hrel _ _⟩
  exact ⟨hlinked, hrel.tabled (h.stores.compiled hcompiled).2⟩

/-- A table is only made of the links that are there, which are right if it counts. -/
theorem compileTable (h : Maintains config additions automaton) :
    Maintains config additions automaton.compileTable.1 := by
  have hrel := Trie.Relinked.refl automaton.trie
  rw [Automaton.compileTable]
  split
  case h_1 moves hmoves =>
    refine ⟨h.stores.relinked hrel fun hcompiled => ?_, h.ordered.relinked hrel _ _⟩
    have hlinked := (h.stores.compiled hcompiled).1
    obtain ⟨right, hright, htabled⟩ := Trie.table_spec h.stores.wellFormed hlinked
    obtain rfl := Option.some.inj (hmoves.symm.trans hright)
    exact ⟨hlinked, htabled⟩
  case h_2 => exact h

theorem perform (h : Maintains config additions automaton) (operation : Operation V) :
    Maintains config (keep config additions operation) (automaton.perform operation) := by
  cases operation with
  | add a => exact h.add a
  | compile => exact ⟨h.stores.compile, h.ordered.compile h.stores⟩
  | compileLinks => exact h.compileLinks
  | compileTable => exact h.compileTable
  | clear =>
      rw [Automaton.perform, Automaton.clear, h.stores.config_eq]
      exact ⟨stores_new config, ordered_new config⟩
  | shrink => exact h

end Maintains

theorem maintains_performed (config : AutomatonConfig) (operations : List (Operation V)) :
    Maintains config (kept config operations) (performed config operations) := by
  induction operations using List.reverseRecOn with
  | nil => exact ⟨stores_new config, ordered_new config⟩
  | append_singleton operations operation ih =>
      rw [kept, performed, List.foldl_concat, List.foldl_concat]
      exact ih.perform operation

/-- Whatever was done with an automaton, compiling it succeeds and its checks hold; and while it
counts as compiled, every state is resolved for the keys that are kept. -/
theorem performed_resolved (config : AutomatonConfig) (operations : List (Operation V)) :
    (performed config operations).compile.2 = true ∧
      (performed config operations).check = true ∧
        ((performed config operations).compiled = true →
          (performed config operations).Resolved (foldedKeys config (kept config operations))) := by
  obtain ⟨hstores, hordered⟩ := maintains_performed config operations
  obtain ⟨trie, moves, hcompile, -⟩ := hstores.compile_eq
  refine ⟨?_, hstores.check, hstores.resolved hordered⟩
  rw [hcompile]

/-- A link is set before there are the keys that it should lead to, a key is refused, and one that
was cleared does not come back. -/
def maintenance : List (Operation PatternId) :=
  let add (key : String) : Operation PatternId := .add ⟨utf8 key, 0, false, (·.getD 0)⟩
  [add "gone", .compile, .clear, add "she", .compileLinks, add "he", add "", .compileTable,
    add "hers", .shrink, .compile, .compileLinks, add "", .compileTable]

theorem performed_resolved_maintenance :
    let automaton := performed .standard maintenance
    foldedKeys .standard (kept .standard maintenance) = ["SHE", "HE", "HERS"].map utf8 ∧
    automaton.compiled = true ∧ automaton.compile.2 = true ∧ automaton.check = true ∧
    automaton.Resolved (["SHE", "HE", "HERS"].map utf8) ∧
    (List.range automaton.stateCount).map automaton.trie.fail? =
      [none, some 0, some 4, some 5, some 0, some 0, some 0, some 1] ∧
    (List.range automaton.stateCount).map automaton.trie.output? =
      [none, none, none, some 5, none, none, none, none] ∧
    automaton.move 3 (0x52 : UInt8) = 6 := by
  intro automaton
  have hcompiled : automaton.compiled = true := by decide +kernel
  have hkeys : foldedKeys .standard (kept .standard maintenance) =
      ["SHE", "HE", "HERS"].map utf8 := by decide +kernel
  obtain ⟨hcompile, hcheck, hresolved⟩ := performed_resolved .standard maintenance
  have hfound := hresolved hcompiled
  rw [hkeys] at hfound
  exact ⟨hkeys, hcompiled, hcompile, hcheck, hfound, by decide +kernel, by decide +kernel,
    by decide +kernel⟩

end Automaton

end LiteralSieve
