import LiteralSieve.Proofs.Automaton.Lookup

namespace LiteralSieve

/-!
# An automaton as an ordered table

What an automaton tells about its keys is what a table tells that keeps its entries in the order in
which they came first. Keys that are refused leave no trace in it, and compiling changes nothing.
The states are those that the table needs: one for every beginning of a folded key.
-/

/-! ## States of a new word -/

namespace Trie

variable {trie : Trie} {s r : Nat}

theorem word_of_new_extend {letter : UInt8} (hnew : trie.size ≤ r)
    (hr : r < (trie.extend s letter).1.size) :
    (trie.extend s letter).1.word r = letter :: trie.word s := by
  rw [extend] at hr ⊢
  cases hchild : trie.child? s letter with
  | some next =>
      simp only [hchild] at hr
      omega
  | none =>
      simp only [hchild, Array.size_push, Array.size_modify] at hr ⊢
      exact (word_grow r).trans (if_pos (by omega))

/-- The states that a word needs are at its beginnings. -/
theorem WellFormed.word_of_new_insert (h : trie.WellFormed) (hs : s < trie.size) {letters : Bytes}
    (hnew : trie.size ≤ r) (hr : r < (trie.insert s letters).1.size) :
    ∃ beginning, beginning <+: letters ∧
      (trie.insert s letters).1.word r = beginning.reverse ++ trie.word s := by
  induction letters generalizing trie s with
  | nil => exact absurd hr (Nat.not_lt.mpr hnew)
  | cons letter letters ih =>
      obtain ⟨hwf, -, hlt, hword⟩ := h.extend_spec hs letter
      obtain ⟨-, hgrows, -, -⟩ := hwf.insert_spec hlt letters
      rw [insert] at hr ⊢
      by_cases hfirst : r < (trie.extend s letter).1.size
      · refine ⟨[letter], ⟨letters, rfl⟩, ?_⟩
        rw [hgrows.word_eq hfirst, word_of_new_extend hnew hfirst]
        rfl
      · obtain ⟨beginning, hbeginning, hat⟩ := ih hwf hlt (Nat.not_lt.mp hfirst) hr
        refine ⟨letter :: beginning, List.cons_prefix_cons.mpr ⟨rfl, hbeginning⟩, ?_⟩
        rw [hat, hword, List.reverse_cons, List.append_assoc]
        rfl

end Trie

namespace Automaton

variable {V : Type} {config : AutomatonConfig} {additions : List (Addition V)}
  {automaton next : Automaton V}

/-! ## Folded keys -/

/-- The folded keys of the additions, in the order in which they came first. -/
def foldedKeys (config : AutomatonConfig) (additions : List (Addition V)) : List Bytes :=
  (additions.map fun a => a.key.map config.fold).eraseDups

theorem mem_foldedKeys {folded : Bytes} :
    folded ∈ foldedKeys config additions ↔ ∃ a ∈ additions, a.key.map config.fold = folded := by
  rw [foldedKeys, List.mem_eraseDups, List.mem_map]

theorem eraseDups_concat (words : List Bytes) (word : Bytes) :
    (words ++ [word]).eraseDups =
      if word ∈ words then words.eraseDups else words.eraseDups ++ [word] := by
  rw [List.eraseDups_append, List.removeAll]
  by_cases h : word ∈ words
  · rw [if_pos h, List.filter_cons_of_neg (by simpa using h)]
    exact List.append_nil _
  · rw [if_neg h, List.filter_cons_of_pos (by simpa using h)]
    rfl

theorem foldedKeys_concat (config : AutomatonConfig) (additions : List (Addition V))
    (a : Addition V) : foldedKeys config (additions ++ [a]) =
      if a.key.map config.fold ∈ foldedKeys config additions then foldedKeys config additions
      else foldedKeys config additions ++ [a.key.map config.fold] := by
  simp only [foldedKeys, List.map_append, List.map_singleton, eraseDups_concat, List.mem_eraseDups]

theorem entryAt?_eq_none_iff {folded : Bytes} :
    entryAt? config additions folded = none ↔ folded ∉ foldedKeys config additions := by
  rw [mem_foldedKeys, entryAt?]
  cases hfilter : additions.filter fun a => a.key.map config.fold = folded with
  | nil => simpa [combined] using hfilter
  | cons first rest =>
      have hfirst : first ∈ additions.filter fun a => a.key.map config.fold = folded := by
        simp [hfilter]
      obtain ⟨hmem, hfold⟩ := List.mem_filter.mp hfirst
      refine iff_of_false (by simp [combined]) (not_not_intro ⟨first, hmem, ?_⟩)
      exact of_decide_eq_true hfold

/-- The beginnings of these words, but for the empty one. -/
def beginnings (words : List Bytes) : Finset Bytes := (words.flatMap List.inits).toFinset.erase []

theorem mem_beginnings {words : List Bytes} {beginning : Bytes} :
    beginning ∈ beginnings words ↔ beginning ≠ [] ∧ ∃ word ∈ words, beginning <+: word := by
  simp [beginnings]

/-! ## Least and greatest lengths -/

/-- The least of the numbers, and `0` if there are none. -/
def least (numbers : List Nat) : Nat := numbers.min?.getD 0

def greatest (numbers : List Nat) : Nat := numbers.max?.getD 0

theorem least_concat (numbers : List Nat) (n : Nat) :
    least (numbers ++ [n]) = if numbers.length = 0 then n else min (least numbers) n := by
  cases numbers with
  | nil => rfl
  | cons first rest =>
      rw [least, least, List.cons_append, List.min?_cons', List.min?_cons', List.foldl_append]
      rfl

theorem greatest_concat (numbers : List Nat) (n : Nat) :
    greatest (numbers ++ [n]) = max (greatest numbers) n := by
  cases numbers with
  | nil => exact (Nat.zero_max n).symm
  | cons first rest =>
      rw [greatest, greatest, List.cons_append, List.max?_cons', List.max?_cons',
        List.foldl_append]
      rfl

/-! ## The order of the terminals -/

theorem map_key_updateTerminal {α : Type} (automaton : Automaton V) (id : TerminalId)
    (wholeWord : Bool) (update : Option V → V) (f : Bytes → α) :
    (automaton.updateTerminal id wholeWord update).toList.map (fun terminal => f terminal.key) =
      automaton.toList.map fun terminal => f terminal.key := by
  refine List.ext_getElem? fun i => ?_
  simp only [List.getElem?_map, toList, updateTerminal, Pool.getElem?_toList, Pool.get?_modify]
  split_ifs
  · rw [Option.map_map]
    rfl
  · rfl

/-- What an automaton keeps besides its entries: their order, and what it counts. -/
structure Ordered (config : AutomatonConfig) (additions : List (Addition V))
    (automaton : Automaton V) : Prop where
  folded_eq : automaton.toList.map (fun terminal => terminal.key.map config.fold) =
    foldedKeys config additions
  insertions_eq : automaton.insertions = additions.length
  minLength_eq : automaton.minLength = least ((foldedKeys config additions).map List.length)
  maxLength_eq : automaton.maxLength = greatest ((foldedKeys config additions).map List.length)
  word_mem : ∀ s < automaton.trie.size, s ≠ Trie.root →
    (automaton.trie.word s).reverse ∈ beginnings (foldedKeys config additions)

theorem ordered_new (config : AutomatonConfig) :
    Ordered config ([] : List (Addition V)) (.new config) where
  folded_eq := rfl
  insertions_eq := rfl
  minLength_eq := rfl
  maxLength_eq := rfl
  word_mem := by
    intro s hs hroot
    exact absurd (Nat.lt_one_iff.mp hs) hroot

namespace Ordered

theorem size_eq (h : Ordered config additions automaton) :
    automaton.size = (foldedKeys config additions).length := by
  rw [← h.folded_eq, List.length_map]
  rfl

/-- Other links and another table leave the order as it is. -/
theorem relinked (h : Ordered config additions automaton) {trie : Trie}
    (hrel : Trie.Relinked automaton.trie trie) (moves : Array (Array StateId)) (compiled : Bool) :
    Ordered config additions
      { automaton with trie := trie, moves := moves, compiled := compiled } := by
  refine ⟨h.folded_eq, h.insertions_eq, h.minLength_eq, h.maxLength_eq, fun s hs hroot => ?_⟩
  rw [hrel.word_eq]
  exact h.word_mem s (hs.trans_eq hrel.size_eq) hroot

theorem compile (h : Ordered config additions automaton)
    (hstores : Stores config additions automaton) :
    Ordered config additions automaton.compile.1 := by
  obtain ⟨trie, moves, heq, hrel, -, -⟩ := hstores.compile_eq
  rw [heq]
  exact h.relinked hrel moves true

/-- The states of one more key are at its beginnings, those of the keys before stay. -/
theorem word_mem_insert (h : Ordered config additions automaton)
    (hstores : Stores config additions automaton) (a : Addition V) {trie : Trie} {s r : Nat}
    (htrie : automaton.trie.insert Trie.root (automaton.foldKey a.key) = (trie, s))
    (hr : r < trie.size) (hroot : r ≠ Trie.root) :
    (trie.word r).reverse ∈ beginnings (foldedKeys config (additions ++ [a])) := by
  obtain ⟨hwf, hgrows, -, -⟩ := htrie ▸ hstores.insert_spec a.key
  rw [mem_beginnings]
  by_cases hold : r < automaton.trie.size
  · rw [hgrows.word_eq hold]
    obtain ⟨hne, folded, hfolded, hpre⟩ := mem_beginnings.mp (h.word_mem r hold hroot)
    obtain ⟨b, hb, hfold⟩ := mem_foldedKeys.mp hfolded
    exact ⟨hne, folded, mem_foldedKeys.mpr ⟨b, List.mem_append_left _ hb, hfold⟩, hpre⟩
  · obtain ⟨beginning, hpre, hword⟩ := hstores.wellFormed.word_of_new_insert
      hstores.wellFormed.root_lt (Nat.not_lt.mp hold) (by rwa [htrie])
    rw [htrie, hstores.wellFormed.word_root, List.append_nil] at hword
    have hfold : automaton.foldKey a.key = a.key.map config.fold := by
      rw [← hstores.config_eq]
      rfl
    rw [hfold] at hpre
    have hmem : a.key.map config.fold ∈ foldedKeys config (additions ++ [a]) :=
      mem_foldedKeys.mpr ⟨a, List.mem_append_right _ (List.mem_singleton_self a), rfl⟩
    refine ⟨?_, _, hmem, by rwa [hword, List.reverse_reverse]⟩
    exact List.reverse_ne_nil_iff.mpr (hwf.word_ne_nil hr hroot)

/-- A key that was there leaves the order as it is. -/
theorem update (h : Ordered config additions automaton) (a : Addition V) {trie : Trie}
    (hwords : ∀ r < trie.size, r ≠ Trie.root →
      (trie.word r).reverse ∈ beginnings (foldedKeys config (additions ++ [a])))
    (hmem : a.key.map config.fold ∈ foldedKeys config additions) (id : TerminalId) :
    Ordered config (additions ++ [a])
      ((automaton.withPath trie).updateTerminal id a.wholeWord a.update) := by
  have hfolded : foldedKeys config (additions ++ [a]) = foldedKeys config additions := by
    rw [foldedKeys_concat, if_pos hmem]
  constructor
  · rw [hfolded]
    exact (map_key_updateTerminal (automaton.withPath trie) id a.wholeWord a.update
      (·.map config.fold)).trans h.folded_eq
  · rw [List.length_append]
    exact congrArg (· + 1) h.insertions_eq
  · rw [hfolded]
    exact h.minLength_eq
  · rw [hfolded]
    exact h.maxLength_eq
  · exact hwords

/-- A key that was not there comes last. -/
theorem insert (h : Ordered config additions automaton) (a : Addition V) {trie : Trie}
    (hwords : ∀ r < trie.size, r ≠ Trie.root →
      (trie.word r).reverse ∈ beginnings (foldedKeys config (additions ++ [a])))
    (hmem : a.key.map config.fold ∉ foldedKeys config additions) (s : StateId) :
    Ordered config (additions ++ [a]) ((automaton.withPath trie).addTerminal
      ⟨s, a.key, a.id, a.update none, a.wholeWord⟩).1 := by
  have hshape : Trie.SameShape trie (trie.setTerminal s automaton.terminals.size) :=
    Trie.sameShape_modify trie s fun _ => rfl
  have hfolded : foldedKeys config (additions ++ [a]) =
      foldedKeys config additions ++ [a.key.map config.fold] := by
    rw [foldedKeys_concat, if_neg hmem]
  have hlengths : (foldedKeys config (additions ++ [a])).map List.length =
      (foldedKeys config additions).map List.length ++ [a.key.length] := by
    rw [hfolded, List.map_append, List.map_singleton, List.length_map]
  constructor
  · have hlist : (automaton.terminals.push ⟨s, a.key, a.id, a.update none, a.wholeWord⟩).toList =
        automaton.toList ++ [⟨s, a.key, a.id, a.update none, a.wholeWord⟩] := Pool.toList_push _ _
    rw [hfolded, ← h.folded_eq]
    exact (congrArg (List.map fun terminal => terminal.key.map config.fold) hlist).trans
      List.map_append
  · rw [List.length_append]
    exact congrArg (· + 1) h.insertions_eq
  · rw [hlengths, least_concat, List.length_map, ← h.size_eq, ← h.minLength_eq]
    rfl
  · rw [hlengths, greatest_concat, ← h.maxLength_eq]
    rfl
  · intro r hr hroot
    have hword := hwords r (hr.trans_eq hshape.size_eq) hroot
    rwa [← hshape.word_eq] at hword

/-- An addition that is taken answers with the place of its folded key in the order. -/
theorem addWith (h : Ordered config additions automaton)
    (hstores : Stores config additions automaton) (a : Addition V) {id : TerminalId}
    (hadd : automaton.addWith a.key a.id a.wholeWord a.update = .ok (next, id)) :
    Ordered config (additions ++ [a]) next ∧
      (foldedKeys config (additions ++ [a]))[id]? = some (a.key.map config.fold) := by
  obtain ⟨-, trie, s, htrie, hcases⟩ := addWith_cases hadd
  obtain ⟨hwf, hgrows, hs, hword⟩ := htrie ▸ hstores.insert_spec a.key
  have hwords : ∀ r < trie.size, r ≠ Trie.root →
      (trie.word r).reverse ∈ beginnings (foldedKeys config (additions ++ [a])) :=
    fun r hr hroot => h.word_mem_insert hstores a htrie hr hroot
  rcases hcases with ⟨hterminal, rfl⟩ | ⟨hterminal, hnext⟩
  · obtain ⟨target, htarget, rfl⟩ := hstores.terminal_iff.mp (hgrows.terminal_eq s ▸ hterminal)
    have hentry := hstores.entry_eq htarget
    rw [← hgrows.word_eq (hstores.state_lt htarget), hword, List.reverse_reverse] at hentry
    have hplace : (foldedKeys config additions)[id]? = some (a.key.map config.fold) := by
      rw [← h.folded_eq, List.getElem?_map, toList, Pool.getElem?_toList, htarget]
      exact congrArg some (fold_key_of_entryAt? hentry)
    have hmem := List.mem_of_getElem? hplace
    refine ⟨h.update a hwords hmem id, ?_⟩
    rw [foldedKeys_concat, if_pos hmem]
    exact hplace
  · obtain ⟨rfl, rfl⟩ := Prod.mk.inj hnext
    have hentry := hstores.entryAt?_eq_none hwf hgrows hs hterminal
    rw [hword, List.reverse_reverse] at hentry
    have hmem := entryAt?_eq_none_iff.mp hentry
    refine ⟨h.insert a hwords hmem s, ?_⟩
    rw [foldedKeys_concat, if_neg hmem]
    exact (congrArg _ h.size_eq).trans List.getElem?_concat_length

end Ordered

/-! ## What the automaton tells -/

theorem nodup_foldedKeys (config : AutomatonConfig) (additions : List (Addition V)) :
    (foldedKeys config additions).Nodup := by
  induction additions using List.reverseRecOn with
  | nil => exact List.nodup_nil
  | append_singleton additions a ih =>
      rw [foldedKeys_concat]
      split_ifs with hmem
      · exact ih
      · rw [← List.concat_eq_append]
        exact ih.concat hmem

section Tells

variable (hstores : Stores config additions automaton)

include hstores

theorem Stores.find?_eq (key : Bytes) :
    automaton.find? key = (entryAt? config additions (key.map config.fold)).map (·.value) := by
  have hfold : ∀ key, automaton.foldKey key = key.map config.fold := fun _ => by
    rw [← hstores.config_eq]
    rfl
  rw [Automaton.find?_eq]
  cases hterminal : automaton.terminalOf? key with
  | some id =>
      obtain ⟨terminal, hget, hkey⟩ := hstores.terminalOf?_eq_some_iff.mp hterminal
      have hentry := hstores.entry_eq hget
      rw [hstores.word_state hget, List.reverse_reverse, hkey, hfold] at hentry
      rw [hentry, Option.bind_some, hget]
      rfl
  | none =>
      cases hentry : entryAt? config additions (key.map config.fold) with
      | none => rfl
      | some entry =>
          obtain ⟨id, terminal, hget, hword⟩ := hstores.exists_terminal hentry
          rw [hstores.word_state hget, List.reverse_inj, ← hfold] at hword
          rw [hstores.terminalOf?_eq_some_iff.mpr ⟨terminal, hget, hword⟩] at hterminal
          cases hterminal

theorem Stores.toList_eq (h : Ordered config additions automaton) :
    automaton.toList.map (fun terminal => some (entryOf terminal)) =
      (foldedKeys config additions).map (entryAt? config additions) := by
  rw [← h.folded_eq, List.map_map]
  refine List.map_congr_left fun terminal hterminal => ?_
  obtain ⟨id, hid⟩ := List.mem_iff_getElem?.mp hterminal
  rw [toList, Pool.getElem?_toList] at hid
  have hentry := hstores.entry_eq hid
  rw [hstores.word_state hid, List.reverse_reverse, ← hstores.config_eq] at hentry
  rw [← hstores.config_eq]
  exact hentry.symm

/-- There is a state for every beginning of a folded key, the root for the empty one. -/
theorem Stores.exists_state_iff (h : Ordered config additions automaton) {beginning : Bytes} :
    (∃ s < automaton.trie.size, (automaton.trie.word s).reverse = beginning) ↔
      beginning = [] ∨ beginning ∈ beginnings (foldedKeys config additions) := by
  have hwf := hstores.wellFormed
  constructor
  · rintro ⟨s, hs, rfl⟩
    by_cases hroot : s = Trie.root
    · exact Or.inl (by rw [hroot, hwf.word_root, List.reverse_nil])
    · exact Or.inr (h.word_mem s hs hroot)
  · rintro (rfl | hmem)
    · exact ⟨Trie.root, hwf.root_lt, by rw [hwf.word_root, List.reverse_nil]⟩
    · obtain ⟨-, folded, hfolded, rest, rfl⟩ := mem_beginnings.mp hmem
      obtain ⟨entry, hentry⟩ := Option.ne_none_iff_exists'.mp
        (mt entryAt?_eq_none_iff.mp (not_not_intro hfolded))
      obtain ⟨id, terminal, hget, hword⟩ := hstores.exists_terminal hentry
      rw [List.reverse_append] at hword
      obtain ⟨s, hs, hat⟩ := hwf.exists_of_word_eq_append (hstores.state_lt hget) hword
      exact ⟨s, hs, by rw [hat, List.reverse_reverse]⟩

theorem Stores.stateCount_eq (h : Ordered config additions automaton) :
    automaton.stateCount = 1 + (beginnings (foldedKeys config additions)).card := by
  have hwf := hstores.wellFormed
  have himage : ((Finset.range automaton.trie.size).image fun s =>
      (automaton.trie.word s).reverse) =
        Insert.insert [] (beginnings (foldedKeys config additions)) := by
    ext beginning
    simp only [Finset.mem_image, Finset.mem_range, Finset.mem_insert]
    exact hstores.exists_state_iff h
  have hinj : Set.InjOn (fun s => (automaton.trie.word s).reverse)
      (Finset.range automaton.trie.size : Finset Nat) := by
    intro s hs t ht heq
    exact hwf.word_inj (Finset.mem_range.mp hs) (Finset.mem_range.mp ht)
      (List.reverse_injective heq)
  have hroot : [] ∉ beginnings (foldedKeys config additions) :=
    fun hmem => (mem_beginnings.mp hmem).1 rfl
  calc automaton.trie.size
      = ((Finset.range automaton.trie.size).image
          fun s => (automaton.trie.word s).reverse).card := by
        rw [Finset.card_image_of_injOn hinj, Finset.card_range]
    _ = 1 + (beginnings (foldedKeys config additions)).card := by
        rw [himage, Finset.card_insert_of_notMem hroot, Nat.add_comm]

end Tells

/-! ## Calls -/

/-- A call to an automaton: a key is added, or it is compiled. -/
inductive Call (V : Type) where
  | add (a : Addition V)
  | compile

/-- The addition of a call, if its key is taken. -/
def Call.taken? (config : AutomatonConfig) : Call V → Option (Addition V)
  | add a => if config.validate a.key = .ok () then some a else none
  | compile => none

/-- An automaton with the additions that it took, and the terminals that it answered. -/
structure Log (V : Type) where
  automaton : Automaton V
  answered : List (Addition V × TerminalId)

namespace Log

variable {log : Log V}

def accepted (log : Log V) : List (Addition V) := log.answered.map Prod.fst

/-- A key that is refused changes nothing. -/
def after (log : Log V) : Call V → Log V
  | .add a =>
    match log.automaton.addWith a.key a.id a.wholeWord a.update with
    | .ok (next, id) => ⟨next, log.answered ++ [(a, id)]⟩
    | .error _ => log
  | .compile => ⟨log.automaton.compile.1, log.answered⟩

/-- The log of these calls to a new automaton. -/
def ofCalls (config : AutomatonConfig) (calls : List (Call V)) : Log V :=
  calls.foldl after ⟨.new config, []⟩

/-- The automaton is the one that the accepted additions build, and they were answered with the
places of their folded keys. -/
structure Sound (config : AutomatonConfig) (log : Log V) : Prop where
  stores : Stores config log.accepted log.automaton
  ordered : Ordered config log.accepted log.automaton
  place_eq : ∀ entry ∈ log.answered,
    (foldedKeys config log.accepted)[entry.2]? = some (entry.1.key.map config.fold)

theorem sound_new (config : AutomatonConfig) : Sound config (⟨.new config, []⟩ : Log V) where
  stores := stores_new config
  ordered := ordered_new config
  place_eq _ h := nomatch h

/-- The place of a folded key is the same after more additions. -/
theorem place_concat {folded : Bytes} {id : Nat}
    (h : (foldedKeys config additions)[id]? = some folded) (a : Addition V) :
    (foldedKeys config (additions ++ [a]))[id]? = some folded := by
  rw [foldedKeys_concat]
  split_ifs
  · exact h
  · rw [List.getElem?_append_left (List.getElem?_eq_some_iff.mp h).1, h]

/-- A valid key is added, and any other leaves the log as it is. -/
theorem after_add (h : log.Sound config) (a : Addition V) :
    (config.validate a.key = .ok () ∧ ∃ next id,
      log.automaton.addWith a.key a.id a.wholeWord a.update = .ok (next, id) ∧
        log.after (.add a) = ⟨next, log.answered ++ [(a, id)]⟩) ∨
      (config.validate a.key ≠ .ok () ∧ log.after (.add a) = log) := by
  have hvalidate : log.automaton.validate a.key = config.validate a.key := by
    rw [Automaton.validate, h.stores.config_eq]
  cases hvalid : config.validate a.key with
  | ok =>
      obtain ⟨next, id, hadd⟩ :=
        addWith_of_validate (hvalidate.trans hvalid) a.id a.wholeWord a.update
      exact Or.inl ⟨rfl, next, id, hadd, by rw [after, hadd]⟩
  | error cause =>
      have hadd : log.automaton.addWith a.key a.id a.wholeWord a.update = .error cause := by
        rw [Automaton.addWith, hvalidate, hvalid]
      exact Or.inr ⟨by simp, by rw [after, hadd]⟩

/-- One call keeps a log sound. -/
theorem Sound.after (h : log.Sound config) (call : Call V) : (log.after call).Sound config := by
  cases call with
  | compile => exact ⟨h.stores.compile, h.ordered.compile h.stores, h.place_eq⟩
  | add a =>
      rcases after_add h a with ⟨-, next, id, hadd, hafter⟩ | ⟨-, hafter⟩
      · have haccepted : (log.after (.add a)).accepted = log.accepted ++ [a] := by
          rw [hafter, accepted, List.map_append]
          rfl
        obtain ⟨hordered, hplace⟩ := h.ordered.addWith h.stores a hadd
        constructor
        · rw [haccepted, hafter]
          exact h.stores.addWith a hadd
        · rw [haccepted, hafter]
          exact hordered
        · rw [haccepted, hafter]
          intro entry hentry
          rcases List.mem_append.mp hentry with hold | hnew
          · exact place_concat (h.place_eq entry hold) a
          · rw [List.mem_singleton.mp hnew]
            exact hplace
      · rw [hafter]
        exact h

theorem accepted_after (h : log.Sound config) (call : Call V) :
    (log.after call).accepted = log.accepted ++ (call.taken? config).toList := by
  cases call with
  | compile => exact (List.append_nil _).symm
  | add a =>
      rcases after_add h a with ⟨hvalid, next, id, -, hafter⟩ | ⟨hvalid, hafter⟩
      · rw [hafter, Call.taken?, if_pos hvalid, accepted, List.map_append]
        rfl
      · rw [hafter, Call.taken?, if_neg hvalid]
        exact (List.append_nil _).symm

theorem sound_ofCalls (config : AutomatonConfig) (calls : List (Call V)) :
    (ofCalls config calls).Sound config := by
  induction calls using List.reverseRecOn with
  | nil => exact sound_new config
  | append_singleton calls call ih =>
      rw [ofCalls, List.foldl_append]
      exact ih.after call

theorem accepted_ofCalls (config : AutomatonConfig) (calls : List (Call V)) :
    (ofCalls config calls).accepted = calls.filterMap (Call.taken? config) := by
  induction calls using List.reverseRecOn with
  | nil => rfl
  | append_singleton calls call ih =>
      rw [ofCalls, List.foldl_append, List.filterMap_append, ← ih]
      exact (accepted_after (sound_ofCalls config calls) call).trans
        (by cases hcall : call.taken? config <;> simp [hcall, ofCalls])

/-- The automaton of a log tells of its keys what the table of the accepted additions says: the
entry of every folded key, in the order in which these came first. -/
structure Tells (config : AutomatonConfig) (log : Log V) : Prop where
  find?_eq : ∀ key, log.automaton.find? key =
    (entryAt? config log.accepted (key.map config.fold)).map (·.value)
  find?_eq_none_iff : ∀ key, log.automaton.find? key = none ↔
    ∀ a ∈ log.accepted, a.key.map config.fold ≠ key.map config.fold
  find?_nil : log.automaton.find? [] = none
  toList_eq : log.automaton.toList.map (fun terminal => some (entryOf terminal)) =
    (foldedKeys config log.accepted).map (entryAt? config log.accepted)
  size_eq : log.automaton.size = (foldedKeys config log.accepted).length
  insertions_eq : log.automaton.insertions = log.accepted.length
  id_eq_iff : ∀ first ∈ log.answered, ∀ second ∈ log.answered,
    first.2 = second.2 ↔ first.1.key.map config.fold = second.1.key.map config.fold
  minLength_eq : log.automaton.minLength =
    least ((foldedKeys config log.accepted).map List.length)
  maxLength_eq : log.automaton.maxLength =
    greatest ((foldedKeys config log.accepted).map List.length)
  stateCount_eq : log.automaton.stateCount =
    1 + (beginnings (foldedKeys config log.accepted)).card

theorem Sound.find?_nil (h : log.Sound config) : log.automaton.find? [] = none := by
  rw [h.stores.find?_eq, Option.map_eq_none_iff, Option.eq_none_iff_forall_ne_some]
  intro entry hentry
  obtain ⟨id, terminal, hget, hword⟩ := h.stores.exists_terminal hentry
  exact h.stores.state_ne_root hget
    (h.stores.wellFormed.eq_root (h.stores.state_lt hget) hword)

theorem Sound.id_eq_iff (h : log.Sound config) {first second : Addition V × TerminalId}
    (hfirst : first ∈ log.answered) (hsecond : second ∈ log.answered) :
    first.2 = second.2 ↔ first.1.key.map config.fold = second.1.key.map config.fold := by
  have hplace := h.place_eq first hfirst
  have hother := h.place_eq second hsecond
  constructor
  · intro hid
    rw [hid, hother] at hplace
    exact (Option.some.inj hplace).symm
  · intro hfold
    rw [hfold, ← hother] at hplace
    have hlt := (List.getElem?_eq_some_iff.mp (h.place_eq first hfirst)).1
    exact (List.getElem?_inj hlt (nodup_foldedKeys config log.accepted)).mp hplace

theorem Sound.tells (h : log.Sound config) : log.Tells config where
  find?_eq := h.stores.find?_eq
  find?_eq_none_iff := by
    intro key
    rw [h.stores.find?_eq, Option.map_eq_none_iff, entryAt?_eq_none_iff, mem_foldedKeys]
    simp
  find?_nil := h.find?_nil
  toList_eq := h.stores.toList_eq h.ordered
  size_eq := h.ordered.size_eq
  insertions_eq := h.ordered.insertions_eq
  id_eq_iff _ hfirst _ hsecond := h.id_eq_iff hfirst hsecond
  minLength_eq := h.ordered.minLength_eq
  maxLength_eq := h.ordered.maxLength_eq
  stateCount_eq := h.stores.stateCount_eq h.ordered

-- The second key is refused, and the third is the first one in the other case.
example :
    let count (key : String) : Call Nat := .add ⟨utf8 key, 7, true, fun n => n.getD 0 + 1⟩
    let log := ofCalls ⟨true, 0x41, 0x5A⟩ [count "ab", count "a1", .compile, count "Ab", count "b"]
    log.answered.map Prod.snd = [0, 0, 1] ∧
    log.automaton.toList.map (fun terminal => (terminal.key, terminal.value)) =
      [(utf8 "ab", 2), (utf8 "b", 1)] ∧
    log.automaton.find? (utf8 "AB") = some 2 ∧ log.automaton.find? (utf8 "a") = none ∧
    log.automaton.stateCount = 4 := by
  decide +kernel

end Log

end Automaton

end LiteralSieve
