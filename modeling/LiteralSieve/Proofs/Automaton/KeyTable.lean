import LiteralSieve.Proofs.Automaton.Table

namespace LiteralSieve.Automaton

/-!
# What an automaton stores

An automaton stands for a table from folded keys to what was said when they were added: the text and
the identifier of the first addition, the value that all additions made in their order, and whether
all of them ask for whole words. Its trie has a state for every key, at the folded key as a word.
-/

/-- A key to be added, with what is kept with it. -/
structure Addition (V : Type) where
  key : Bytes
  id : PatternId
  wholeWord : Bool
  update : Option V → V

/-- What a table has at a folded key. -/
structure KeyEntry (V : Type) where
  key : Bytes
  id : PatternId
  value : V
  wholeWord : Bool

variable {V : Type}

/-- The entry of the additions that have the same folded key. -/
def combined : List (Addition V) → Option (KeyEntry V)
  | [] => none
  | first :: rest =>
    some ⟨first.key, first.id,
      rest.foldl (fun value a => a.update (some value)) (first.update none),
      first.wholeWord && rest.all (·.wholeWord)⟩

/-- The entry of a folded key after these additions. -/
def entryAt? (config : AutomatonConfig) (additions : List (Addition V)) (folded : Bytes) :
    Option (KeyEntry V) :=
  combined (additions.filter fun a => a.key.map config.fold = folded)

/-- An addition does to an entry what it does to a terminal. -/
def KeyEntry.extend (a : Addition V) : Option (KeyEntry V) → KeyEntry V
  | none => ⟨a.key, a.id, a.update none, a.wholeWord⟩
  | some entry =>
    { entry with value := a.update (some entry.value), wholeWord := entry.wholeWord && a.wholeWord }

theorem combined_concat (additions : List (Addition V)) (a : Addition V) :
    combined (additions ++ [a]) = some (KeyEntry.extend a (combined additions)) := by
  cases additions with
  | nil => simp [combined, KeyEntry.extend]
  | cons first rest => simp [combined, KeyEntry.extend, List.foldl_append, Bool.and_assoc]

theorem entryAt?_concat (config : AutomatonConfig) (additions : List (Addition V)) (a : Addition V)
    (folded : Bytes) :
    entryAt? config (additions ++ [a]) folded =
      if a.key.map config.fold = folded then
        some (KeyEntry.extend a (entryAt? config additions folded))
      else entryAt? config additions folded := by
  rw [entryAt?, List.filter_append]
  split_ifs with h
  · rw [List.filter_cons_of_pos (by simpa using h), List.filter_nil, combined_concat, entryAt?]
  · rw [List.filter_cons_of_neg (by simpa using h), List.filter_nil, List.append_nil, entryAt?]

/-- An entry keeps a key that was added under its fold. -/
theorem exists_addition {config : AutomatonConfig} {additions : List (Addition V)}
    {folded : Bytes} {entry : KeyEntry V} (h : entryAt? config additions folded = some entry) :
    ∃ a ∈ additions, a.key = entry.key ∧ a.key.map config.fold = folded := by
  rw [entryAt?] at h
  cases hfilter : additions.filter fun a => a.key.map config.fold = folded with
  | nil => simp [hfilter, combined] at h
  | cons first rest =>
      have hmem : first ∈ additions.filter fun a => a.key.map config.fold = folded := by
        simp [hfilter]
      rw [hfilter, combined] at h
      obtain rfl := Option.some.inj h
      have hboth := List.mem_filter.mp hmem
      exact ⟨first, hboth.1, rfl, by simpa using hboth.2⟩

theorem fold_key_of_entryAt? {config : AutomatonConfig} {additions : List (Addition V)}
    {folded : Bytes} {entry : KeyEntry V} (h : entryAt? config additions folded = some entry) :
    entry.key.map config.fold = folded := by
  obtain ⟨a, -, hkey, hfold⟩ := exists_addition h
  rwa [hkey] at hfold

/-- An entry is for whole words as all additions are. -/
theorem wholeWord_of_entryAt? {config : AutomatonConfig} {additions : List (Addition V)}
    {wholeWord : Bool} (h : ∀ a ∈ additions, a.wholeWord = wholeWord) {folded : Bytes}
    {entry : KeyEntry V} (hentry : entryAt? config additions folded = some entry) :
    entry.wholeWord = wholeWord := by
  induction additions using List.reverseRecOn generalizing entry with
  | nil => cases hentry
  | append_singleton additions a ih =>
      have hlast := h a (by simp)
      have hbefore : ∀ b ∈ additions, b.wholeWord = wholeWord := fun b hb => h b (by simp [hb])
      rw [entryAt?_concat] at hentry
      split_ifs at hentry
      · obtain rfl := Option.some.inj hentry
        cases hold : entryAt? config additions folded with
        | none => exact hlast
        | some old => simp [KeyEntry.extend, ih hbefore hold, hlast]
      · exact ih hbefore hentry

/-- The automata that are reached by adding keys, and compiling at any time in between. -/
inductive Built (config : AutomatonConfig) : List (Addition V) → Automaton V → Prop where
  | new : Built config [] (.new config)
  | add {additions automaton next id} (a : Addition V) (h : Built config additions automaton)
      (hadd : automaton.addWith a.key a.id a.wholeWord a.update = .ok (next, id)) :
      Built config (additions ++ [a]) next
  | compile {additions automaton} (h : Built config additions automaton) :
      Built config additions automaton.compile.1

/-! ## The terminals are the table -/

def entryOf (terminal : Terminal V) : KeyEntry V :=
  ⟨terminal.key, terminal.id, terminal.value, terminal.wholeWord⟩

/-- The terminals hold the entries of the additions, each at the state of its folded key, and links
and table are right whenever the automaton says that it is compiled. -/
structure Stores (config : AutomatonConfig) (additions : List (Addition V))
    (automaton : Automaton V) : Prop where
  config_eq : automaton.config = config
  wellFormed : automaton.trie.WellFormed
  terminal_iff : ∀ {s id : Nat}, automaton.trie.terminal? s = some id ↔
    ∃ terminal, automaton.terminals.get? id = some terminal ∧ terminal.state = s
  state_lt : ∀ {id terminal}, automaton.terminals.get? id = some terminal →
    terminal.state < automaton.trie.size
  state_ne_root : ∀ {id terminal}, automaton.terminals.get? id = some terminal →
    terminal.state ≠ Trie.root
  entry_eq : ∀ {id terminal}, automaton.terminals.get? id = some terminal →
    entryAt? config additions (automaton.trie.word terminal.state).reverse = some (entryOf terminal)
  exists_terminal : ∀ {folded entry}, entryAt? config additions folded = some entry →
    ∃ id terminal, automaton.terminals.get? id = some terminal ∧
      automaton.trie.word terminal.state = folded.reverse
  length_le : ∀ {id terminal}, automaton.terminals.get? id = some terminal →
    terminal.key.length ≤ automaton.maxLength
  compiled : automaton.compiled = true →
    automaton.trie.Linked ∧ automaton.trie.Tabled automaton.moves

theorem stores_new (config : AutomatonConfig) :
    Stores config ([] : List (Addition V)) (.new config) where
  config_eq := rfl
  wellFormed := Trie.wellFormed_start
  terminal_iff := by
    intro s id
    have hnone : Trie.start.terminal? s = none := by
      cases s <;> simp [Trie.start, Trie.terminal?, TrieState.leaf]
    simp [new, hnone]
  state_lt := by simp [new]
  state_ne_root := by simp [new]
  entry_eq := by simp [new]
  exists_terminal := by simp [entryAt?, combined]
  length_le := by simp [new]
  compiled := by simp [new]

namespace Stores

variable {config : AutomatonConfig} {additions : List (Addition V)} {automaton : Automaton V}

/-- A state is the key of one terminal at most. -/
theorem id_inj (h : Stores config additions automaton) {id other : Nat}
    {terminal another : Terminal V} (hid : automaton.terminals.get? id = some terminal)
    (hother : automaton.terminals.get? other = some another)
    (hstate : terminal.state = another.state) : id = other := by
  have hfirst := h.terminal_iff.mpr ⟨terminal, hid, rfl⟩
  have hsecond := h.terminal_iff.mpr ⟨another, hother, rfl⟩
  rw [hstate, hsecond] at hfirst
  exact (Option.some.inj hfirst).symm

/-- Other links and another table leave the terminals as they are. -/
theorem relinked (h : Stores config additions automaton) {trie : Trie}
    (hrel : Trie.Relinked automaton.trie trie) {moves : Array (Array StateId)} {compiled : Bool}
    (hcompiled : compiled = true → trie.Linked ∧ trie.Tabled moves) :
    Stores config additions
      { automaton with trie := trie, moves := moves, compiled := compiled } where
  config_eq := h.config_eq
  wellFormed := hrel.wellFormed h.wellFormed
  terminal_iff := by
    intro s id
    rw [hrel.terminal_eq]
    exact h.terminal_iff
  state_lt := fun hget => hrel.size_eq ▸ h.state_lt hget
  state_ne_root := h.state_ne_root
  entry_eq := by
    intro id terminal hget
    rw [hrel.word_eq]
    exact h.entry_eq hget
  exists_terminal := by
    intro folded entry hentry
    simpa only [hrel.word_eq] using h.exists_terminal hentry
  length_le := h.length_le
  compiled := hcompiled

/-- Compiling always succeeds, and only sets links and table. -/
theorem compile_eq (h : Stores config additions automaton) :
    ∃ trie moves, automaton.compile =
        ({ automaton with trie := trie, moves := moves, compiled := true }, true) ∧
      Trie.Relinked automaton.trie trie ∧ trie.Linked ∧ trie.Tabled moves := by
  obtain ⟨trie, htrie, hrel, hlinked⟩ := Trie.link_spec h.wellFormed
  obtain ⟨moves, hmoves, htabled⟩ := Trie.table_spec (hrel.wellFormed h.wellFormed) hlinked
  refine ⟨trie, moves, ?_, hrel, hlinked, htabled⟩
  simp [compile, compileLinks, compileTable, htrie, hmoves]

theorem compile (h : Stores config additions automaton) :
    Stores config additions automaton.compile.1 := by
  obtain ⟨trie, moves, heq, hrel, hlinked, htabled⟩ := h.compile_eq
  rw [heq]
  exact h.relinked hrel fun _ => ⟨hlinked, htabled⟩

theorem insert_spec (h : Stores config additions automaton) (key : Bytes) :
    (automaton.trie.insert Trie.root (automaton.foldKey key)).1.WellFormed ∧
      Trie.Grows automaton.trie (automaton.trie.insert Trie.root (automaton.foldKey key)).1 ∧
        (automaton.trie.insert Trie.root (automaton.foldKey key)).2 <
            (automaton.trie.insert Trie.root (automaton.foldKey key)).1.size ∧
          (automaton.trie.insert Trie.root (automaton.foldKey key)).1.word
              (automaton.trie.insert Trie.root (automaton.foldKey key)).2 =
            (key.map config.fold).reverse := by
  have hfold : automaton.foldKey key = key.map config.fold := by
    rw [← h.config_eq]
    rfl
  obtain ⟨hwf, hgrows, hlt, hword⟩ :=
    h.wellFormed.insert_spec h.wellFormed.root_lt (automaton.foldKey key)
  refine ⟨hwf, hgrows, hlt, ?_⟩
  rw [hword, hfold, h.wellFormed.word_root, List.append_nil]

end Stores

/-- The automaton after the change has this terminal, where there was none or in the place of the one
with the same state. -/
structure Placed (automaton next : Automaton V) (terminal : Terminal V) (id : Nat) : Prop where
  config_eq : next.config = automaton.config
  wellFormed : next.trie.WellFormed
  size_le : automaton.trie.size ≤ next.trie.size
  word_eq : ∀ {s}, s < automaton.trie.size → next.trie.word s = automaton.trie.word s
  state_lt : terminal.state < next.trie.size
  terminal_eq : ∀ s, next.trie.terminal? s =
    if s = terminal.state then some id else automaton.trie.terminal? s
  get?_eq : ∀ i, next.terminals.get? i =
    if i = id then some terminal else automaton.terminals.get? i
  id_iff : ∀ {i other}, automaton.terminals.get? i = some other →
    (i = id ↔ other.state = terminal.state)
  maxLength_le : automaton.maxLength ≤ next.maxLength
  length_le : terminal.key.length ≤ next.maxLength
  compiled_eq : next.compiled = false

section Placed

variable {config : AutomatonConfig} {additions : List (Addition V)} {automaton next : Automaton V}
  {terminal : Terminal V} {id : Nat}

/-- A terminal is the one in place, or was there before at another state. -/
theorem Placed.eq_or_old (h : Placed automaton next terminal id) {i : Nat} {found : Terminal V}
    (hget : next.terminals.get? i = some found) :
    (i = id ∧ found = terminal) ∨
      automaton.terminals.get? i = some found ∧ i ≠ id ∧ found.state ≠ terminal.state := by
  rw [h.get?_eq] at hget
  split_ifs at hget with hi
  · exact Or.inl ⟨hi, (Option.some.inj hget).symm⟩
  · exact Or.inr ⟨hget, hi, mt (h.id_iff hget).mpr hi⟩

theorem Placed.terminal_iff (h : Placed automaton next terminal id)
    (hstores : Stores config additions automaton) {s i : Nat} :
    next.trie.terminal? s = some i ↔
      ∃ found, next.terminals.get? i = some found ∧ found.state = s := by
  rw [h.terminal_eq]
  constructor
  · intro hs
    split_ifs at hs with hstate
    · obtain rfl := Option.some.inj hs
      exact ⟨terminal, by rw [h.get?_eq, if_pos rfl], hstate.symm⟩
    · obtain ⟨found, hget, rfl⟩ := hstores.terminal_iff.mp hs
      exact ⟨found, by rw [h.get?_eq, if_neg (mt (h.id_iff hget).mp hstate), hget], rfl⟩
  · rintro ⟨found, hget, rfl⟩
    obtain ⟨rfl, rfl⟩ | ⟨hold, -, hstate⟩ := h.eq_or_old hget
    · rw [if_pos rfl]
    · rw [if_neg hstate]
      exact hstores.terminal_iff.mpr ⟨found, hold, rfl⟩

/-- If the terminal in place is what the entry of its folded key becomes, then the table is that of
one more addition. -/
theorem Placed.stores (h : Placed automaton next terminal id)
    (hstores : Stores config additions automaton) (a : Addition V) (hkey : a.key ≠ [])
    (hword : next.trie.word terminal.state = (a.key.map config.fold).reverse)
    (hentry : entryOf terminal =
      KeyEntry.extend a (entryAt? config additions (a.key.map config.fold))) :
    Stores config (additions ++ [a]) next := by
  have hold_lt : ∀ {i found}, automaton.terminals.get? i = some found →
      found.state < next.trie.size := fun hget => (hstores.state_lt hget).trans_le h.size_le
  exact {
    config_eq := h.config_eq.trans hstores.config_eq
    wellFormed := h.wellFormed
    terminal_iff := h.terminal_iff hstores
    state_lt := by
      intro i found hget
      obtain ⟨-, rfl⟩ | ⟨hold, -, -⟩ := h.eq_or_old hget
      · exact h.state_lt
      · exact hold_lt hold
    state_ne_root := by
      intro i found hget
      obtain ⟨-, rfl⟩ | ⟨hold, -, -⟩ := h.eq_or_old hget
      · intro hroot
        rw [hroot, h.wellFormed.word_root] at hword
        simp [hkey] at hword
      · exact hstores.state_ne_root hold
    entry_eq := by
      intro i found hget
      rw [entryAt?_concat]
      obtain ⟨-, rfl⟩ | ⟨hold, -, hstate⟩ := h.eq_or_old hget
      · rw [hword, List.reverse_reverse, if_pos rfl, hentry]
      · rw [h.word_eq (hstores.state_lt hold), if_neg, hstores.entry_eq hold]
        -- Words tell states apart, so the folded key is not that of another terminal.
        intro hfold
        apply hstate
        apply h.wellFormed.word_inj (hold_lt hold) h.state_lt
        rw [hword, hfold, List.reverse_reverse, h.word_eq (hstores.state_lt hold)]
    exists_terminal := by
      intro folded entry hsome
      rw [entryAt?_concat] at hsome
      split_ifs at hsome with hfold
      · exact ⟨id, terminal, by rw [h.get?_eq, if_pos rfl], by rw [hword, hfold]⟩
      · obtain ⟨i, found, hget, hfolded⟩ := hstores.exists_terminal hsome
        rw [← h.word_eq (hstores.state_lt hget)] at hfolded
        have hi : i ≠ id := by
          intro hi
          rw [(h.id_iff hget).mp hi, hword] at hfolded
          exact hfold (List.reverse_injective hfolded)
        exact ⟨i, found, by rw [h.get?_eq, if_neg hi, hget], hfolded⟩
    length_le := by
      intro i found hget
      obtain ⟨-, rfl⟩ | ⟨hold, -, -⟩ := h.eq_or_old hget
      · exact h.length_le
      · exact (hstores.length_le hold).trans h.maxLength_le
    compiled := by
      intro hcompiled
      rw [h.compiled_eq] at hcompiled
      cases hcompiled }

end Placed

/-- An addition that is taken makes the states of its letters. The last of them has a terminal that
is changed, or gets a new one. -/
theorem addWith_cases {automaton next : Automaton V} {a : Addition V} {id : TerminalId}
    (hadd : automaton.addWith a.key a.id a.wholeWord a.update = .ok (next, id)) :
    a.key ≠ [] ∧ ∃ trie s,
      automaton.trie.insert Trie.root (automaton.foldKey a.key) = (trie, s) ∧
        (trie.terminal? s = some id ∧
            next = (automaton.withPath trie).updateTerminal id a.wholeWord a.update ∨
          trie.terminal? s = none ∧
            (automaton.withPath trie).addTerminal ⟨s, a.key, a.id, a.update none, a.wholeWord⟩ =
              (next, id)) := by
  constructor
  · intro hnil
    simp [Automaton.addWith, validate, AutomatonConfig.validate, hnil] at hadd
  · refine ⟨_, _, rfl, ?_⟩
    rw [Automaton.addWith] at hadd
    split at hadd
    · cases hadd
    · dsimp only at hadd
      split at hadd
      case _ found hterminal =>
        obtain ⟨rfl, rfl⟩ := Prod.mk.inj (Except.ok.inj hadd)
        exact Or.inl ⟨hterminal, rfl⟩
      case _ hterminal => exact Or.inr ⟨hterminal, Except.ok.inj hadd⟩

namespace Stores

variable {config : AutomatonConfig} {additions : List (Addition V)} {automaton : Automaton V}

/-- A key that was there changes the terminal at its state. -/
theorem update {trie : Trie} {s : Nat} (h : Stores config additions automaton) (a : Addition V)
    (hkey : a.key ≠ []) (hwf : trie.WellFormed) (hgrows : Trie.Grows automaton.trie trie)
    (hword : trie.word s = (a.key.map config.fold).reverse) {id : Nat}
    (hterminal : trie.terminal? s = some id) :
    Stores config (additions ++ [a])
      ((automaton.withPath trie).updateTerminal id a.wholeWord a.update) := by
  obtain ⟨target, htarget, rfl⟩ := h.terminal_iff.mp (hgrows.terminal_eq s ▸ hterminal)
  let changed : Terminal V :=
    { target with
      value := a.update (some target.value), wholeWord := target.wholeWord && a.wholeWord }
  have hplaced : Placed automaton
      ((automaton.withPath trie).updateTerminal id a.wholeWord a.update) changed id := {
    config_eq := rfl
    wellFormed := hwf
    size_le := hgrows.size_le
    word_eq := hgrows.word_eq
    state_lt := (h.state_lt htarget).trans_le hgrows.size_le
    terminal_eq := by
      intro r
      split_ifs with hr
      · exact hr ▸ hterminal
      · exact hgrows.terminal_eq r
    get?_eq := by
      intro i
      refine (Pool.get?_modify automaton.terminals id i _).trans ?_
      by_cases hi : i = id
      · rw [if_pos hi.symm, if_pos hi, hi, htarget]
        rfl
      · rw [if_neg (Ne.symm hi), if_neg hi]
    id_iff := by
      intro i other hother
      refine ⟨?_, fun hstate => h.id_inj hother htarget hstate⟩
      rintro rfl
      rw [Option.some.inj (hother.symm.trans htarget)]
    maxLength_le := le_rfl
    length_le := (h.length_le htarget :)
    compiled_eq := rfl }
  have hentry := h.entry_eq htarget
  rw [← hgrows.word_eq (h.state_lt htarget), hword, List.reverse_reverse] at hentry
  exact hplaced.stores h a hkey hword (by rw [hentry]; rfl)

/-- No addition had a key whose state has no terminal. -/
theorem entryAt?_eq_none {trie : Trie} {s : Nat} (h : Stores config additions automaton)
    (hwf : trie.WellFormed) (hgrows : Trie.Grows automaton.trie trie) (hs : s < trie.size)
    (hterminal : trie.terminal? s = none) :
    entryAt? config additions (trie.word s).reverse = none := by
  rw [Option.eq_none_iff_forall_ne_some]
  intro entry hentry
  obtain ⟨i, terminal, hget, hfolded⟩ := h.exists_terminal hentry
  rw [List.reverse_reverse, ← hgrows.word_eq (h.state_lt hget)] at hfolded
  have hstate := hwf.word_inj ((h.state_lt hget).trans_le hgrows.size_le) hs hfolded
  rw [hgrows.terminal_eq, h.terminal_iff.mpr ⟨terminal, hget, hstate⟩] at hterminal
  cases hterminal

/-- A key that was not there gets a terminal of its own. -/
theorem insert {trie : Trie} {s : Nat} (h : Stores config additions automaton) (a : Addition V)
    (hkey : a.key ≠ []) (hwf : trie.WellFormed) (hgrows : Trie.Grows automaton.trie trie)
    (hs : s < trie.size) (hword : trie.word s = (a.key.map config.fold).reverse)
    (hterminal : trie.terminal? s = none) :
    Stores config (additions ++ [a]) ((automaton.withPath trie).addTerminal
      ⟨s, a.key, a.id, a.update none, a.wholeWord⟩).1 := by
  let id := automaton.terminals.size
  let added : Terminal V := ⟨s, a.key, a.id, a.update none, a.wholeWord⟩
  have hshape : Trie.SameShape trie (trie.setTerminal s id) :=
    Trie.sameShape_modify trie s fun _ => rfl
  have hplaced : Placed automaton ((automaton.withPath trie).addTerminal added).1 added id := {
    config_eq := rfl
    wellFormed := hshape.wellFormed hwf
    size_le := hgrows.size_le.trans hshape.size_eq.ge
    word_eq := fun hr => hshape.word_eq.trans (hgrows.word_eq hr)
    state_lt := hs.trans_eq hshape.size_eq.symm
    terminal_eq := fun r => (Trie.terminal?_setTerminal hs id r).trans (by rw [hgrows.terminal_eq])
    get?_eq := Pool.get?_push automaton.terminals added
    id_iff := by
      -- No terminal has the new number, and none is at the state, which has no terminal yet.
      intro i other hother
      refine iff_of_false (Pool.lt_size_of_get? hother).ne fun hstate => ?_
      rw [hgrows.terminal_eq, h.terminal_iff.mpr ⟨other, hother, hstate⟩] at hterminal
      cases hterminal
    maxLength_le := le_max_left _ _
    length_le := le_max_right _ _
    compiled_eq := rfl }
  have hfresh := h.entryAt?_eq_none hwf hgrows hs hterminal
  rw [hword, List.reverse_reverse] at hfresh
  exact hplaced.stores h a hkey (hshape.word_eq.trans hword) (by rw [hfresh]; rfl)

theorem addWith (h : Stores config additions automaton) (a : Addition V) {next : Automaton V}
    {id : TerminalId}
    (hadd : automaton.addWith a.key a.id a.wholeWord a.update = .ok (next, id)) :
    Stores config (additions ++ [a]) next := by
  obtain ⟨hkey, trie, s, htrie, hcases⟩ := addWith_cases hadd
  obtain ⟨hwf, hgrows, hs, hword⟩ := htrie ▸ h.insert_spec a.key
  rcases hcases with ⟨hterminal, rfl⟩ | ⟨hterminal, hnext⟩
  · exact h.update a hkey hwf hgrows hword hterminal
  · obtain ⟨rfl, -⟩ := Prod.mk.inj hnext
    exact h.insert a hkey hwf hgrows hs hword hterminal

end Stores

theorem addWith_of_validate {automaton : Automaton V} {key : Bytes}
    (h : automaton.validate key = .ok ()) (id : PatternId) (wholeWord : Bool)
    (update : Option V → V) :
    ∃ next terminal, automaton.addWith key id wholeWord update = .ok (next, terminal) := by
  rw [Automaton.addWith, h]
  dsimp only
  split
  · exact ⟨_, _, rfl⟩
  · exact ⟨_, _, rfl⟩

theorem Built.stores {config : AutomatonConfig} {additions : List (Addition V)}
    {automaton : Automaton V} (h : Built config additions automaton) :
    Stores config additions automaton := by
  induction h with
  | new => exact stores_new config
  | add a _ hadd ih => exact ih.addWith a hadd
  | compile _ ih => exact ih.compile

end LiteralSieve.Automaton
