import LiteralSieve.Proofs.Automaton.Scanning

namespace LiteralSieve

/-!
# Looking up a key

The path of the letters of a key leads from the root to the state whose word they are, if there is
one. So a key has a terminal exactly if a key with the same fold was added.
-/

namespace Trie.WellFormed

variable {trie : Trie} {s t : Nat}

theorem exists_of_word_eq_append (h : trie.WellFormed) (hs : s < trie.size) {last rest : Bytes}
    (hword : trie.word s = last ++ rest) : ∃ r < trie.size, trie.word r = rest := by
  induction last generalizing s with
  | nil => exact ⟨s, hs, hword⟩
  | cons letter last ih =>
      obtain ⟨r, hr, hrest⟩ := h.exists_of_word_eq_cons hs hword
      exact ih hr hrest

theorem find?_eq_some_iff (h : trie.WellFormed) (hs : s < trie.size) (letters : Bytes) :
    trie.find? s letters = some t ↔
      t < trie.size ∧ trie.word t = letters.reverse ++ trie.word s := by
  induction letters generalizing s with
  | nil =>
      simp only [find?, Option.some_inj, List.reverse_nil, List.nil_append]
      constructor
      · rintro rfl
        exact ⟨hs, rfl⟩
      · rintro ⟨ht, hword⟩
        exact h.word_inj hs ht hword.symm
  | cons letter letters ih =>
      simp only [find?, Option.bind_eq_some_iff, List.reverse_cons, List.append_assoc,
        List.singleton_append]
      constructor
      · rintro ⟨next, hnext, hfind⟩
        obtain ⟨hlt, hword⟩ := (h.child?_eq_some_iff hs).mp hnext
        rw [← hword]
        exact (ih hlt).mp hfind
      · rintro ⟨ht, hword⟩
        obtain ⟨next, hlt, hnext⟩ := h.exists_of_word_eq_append ht hword
        refine ⟨next, (h.child?_eq_some_iff hs).mpr ⟨hlt, hnext⟩, (ih hlt).mpr ⟨ht, ?_⟩⟩
        rw [hnext, hword]

end Trie.WellFormed

namespace Automaton

variable {V : Type} {config : AutomatonConfig} {additions : List (Addition V)}
  {automaton : Automaton V}

/-- The terminal that a key has. -/
def terminalOf? (automaton : Automaton V) (key : Bytes) : Option TerminalId :=
  (automaton.trie.find? Trie.root (automaton.foldKey key)).bind automaton.trie.terminal?

/-- The value of a key is that of its terminal. -/
theorem find?_eq (automaton : Automaton V) (key : Bytes) :
    automaton.find? key =
      ((automaton.terminalOf? key).bind automaton.terminals.get?).map (·.value) := by
  rw [find?, terminalOf?]
  cases automaton.trie.find? Trie.root (automaton.foldKey key) with
  | none => rfl
  | some s =>
      simp only [Option.bind_eq_bind, Option.bind_some]
      cases automaton.trie.terminal? s with
      | none => rfl
      | some id => cases hget : automaton.terminals.get? id <;> simp [hget]

theorem Stores.terminalOf?_eq_some_iff (h : Stores config additions automaton) {key : Bytes}
    {id : Nat} : automaton.terminalOf? key = some id ↔ ∃ terminal,
      automaton.terminals.get? id = some terminal ∧
        automaton.foldKey terminal.key = automaton.foldKey key := by
  simp only [terminalOf?, Option.bind_eq_some_iff,
    h.wellFormed.find?_eq_some_iff h.wellFormed.root_lt, h.wellFormed.word_root, List.append_nil]
  constructor
  · rintro ⟨s, ⟨-, hword⟩, hterminal⟩
    obtain ⟨terminal, hget, rfl⟩ := h.terminal_iff.mp hterminal
    rw [h.word_state hget] at hword
    exact ⟨terminal, hget, List.reverse_injective hword⟩
  · rintro ⟨terminal, hget, hfold⟩
    refine ⟨terminal.state, ⟨h.state_lt hget, ?_⟩, h.terminal_iff.mpr ⟨terminal, hget, rfl⟩⟩
    rw [h.word_state hget, hfold]

theorem Stores.terminalOf?_eq_id_iff (h : Stores config additions automaton) {key : Bytes}
    {hit : Hit V} (hstored : automaton.terminals.get? hit.id = some hit.terminal) :
    automaton.terminalOf? key = some hit.id ↔
      key.map config.fold = hit.terminal.key.map config.fold := by
  rw [h.terminalOf?_eq_some_iff, ← h.config_eq]
  constructor
  · rintro ⟨terminal, hget, hfold⟩
    obtain rfl := Option.some.inj (hstored.symm.trans hget)
    exact hfold.symm
  · exact fun hfold => ⟨hit.terminal, hstored, hfold.symm⟩

end Automaton

end LiteralSieve
