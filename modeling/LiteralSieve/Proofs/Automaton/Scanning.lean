import LiteralSieve.Automaton.Scan
import LiteralSieve.Proofs.Automaton.KeyTable

namespace LiteralSieve

/-!
# What a scan finds

The state of a scan is that of the longest end of the letters read so far, and its outputs are the
keys among the ends of its word. So a scan shows every key where it ends, in the order of these ends
and with longer keys before shorter ones.
-/

namespace Trie

variable {trie : Trie}

theorem LongestKey.key_iff_eq_root (hwf : trie.WellFormed) {past : Bytes}
    (h : trie.LongestKey past (some root)) (t : StateId) :
    t < trie.size ∧ trie.IsKey t ∧ trie.word t <+: past ↔ t = root := by
  obtain ⟨hroot, hiskey, hpre, hmax⟩ := h
  constructor
  · rintro ⟨ht, hk, hp⟩
    have hle := hmax t ht hk hp
    rw [depth_eq, depth_eq, hwf.word_root, List.length_nil, Nat.le_zero,
      List.length_eq_zero_iff] at hle
    exact hwf.eq_root ht hle
  · rintro rfl
    exact ⟨hroot, hiskey, hpre⟩

/-- The keys at an end of the text are the longest one and those at a proper end of it. -/
theorem LongestKey.key_iff_eq_or (hwf : trie.WellFormed) {past : Bytes} {o : StateId}
    (h : trie.LongestKey past (some o)) (t : StateId) :
    t < trie.size ∧ trie.IsKey t ∧ trie.word t <+: past ↔
      t = o ∨ t < trie.size ∧ trie.IsKey t ∧ trie.word t <+: (trie.word o).dropLast := by
  obtain ⟨ho, hiskey, hpre, hmax⟩ := h
  constructor
  · rintro ⟨ht, hk, hp⟩
    have hdepth := hmax t ht hk hp
    have hin : trie.word t <+: trie.word o := List.prefix_of_prefix_length_le hp hpre hdepth
    by_cases he : (trie.word t).length = (trie.word o).length
    · exact Or.inl (hwf.word_inj ht ho (hin.eq_of_length he))
    · refine Or.inr ⟨ht, hk, prefix_dropLast_iff.mpr ⟨hin, ?_⟩⟩
      simp only [depth_eq] at hdepth
      omega
  · rintro (rfl | ⟨ht, hk, hp⟩)
    · exact ⟨ho, hiskey, hpre⟩
    · exact ⟨ht, hk, (prefix_dropLast_iff.mp hp).1.trans hpre⟩

/-- The outputs from the longest key on are all keys at an end of the text, longer ones first. -/
theorem outputsFrom_spec (hwf : trie.WellFormed) (hlinked : trie.Linked) {fuel : Nat}
    {past : Bytes} {key : Option StateId} (hkey : trie.LongestKey past key)
    (hfuel : past.length < fuel) :
    (∀ t, t ∈ trie.outputsFrom fuel key ↔ t < trie.size ∧ trie.IsKey t ∧ trie.word t <+: past) ∧
      (trie.outputsFrom fuel key).Pairwise fun s t => trie.depth t < trie.depth s := by
  induction fuel generalizing past key with
  | zero => omega
  | succ fuel ih =>
      cases key with
      | none =>
          refine ⟨fun t => ?_, .nil⟩
          simp only [outputsFrom, List.not_mem_nil, false_iff, not_and]
          exact hkey t
      | some o =>
          have ho : o < trie.size := hkey.1
          rw [outputsFrom]
          by_cases hroot : o = root
          · -- The root has no output, but it may be a key itself.
            subst hroot
            have hnil : trie.outputsFrom fuel none = [] := by cases fuel <;> rfl
            rw [(hlinked root ho).output_root rfl, hnil]
            refine ⟨fun t => ?_, List.pairwise_singleton _ _⟩
            rw [List.mem_singleton, hkey.key_iff_eq_root hwf]
          · have hpos := List.length_pos_iff.mpr (hwf.word_ne_nil ho hroot)
            have hle := hkey.2.2.1.length_le
            have hshort : (trie.word o).dropLast.length < fuel := by
              rw [List.length_dropLast]
              omega
            obtain ⟨hmem, hpairs⟩ := ih ((hlinked o ho).output hroot) hshort
            refine ⟨fun t => ?_, List.pairwise_cons.mpr ⟨fun t ht => ?_, hpairs⟩⟩
            · rw [List.mem_cons, hmem, hkey.key_iff_eq_or hwf]
            · have hbound := (prefix_dropLast_iff.mp ((hmem t).mp ht).2.2).2
              simp only [depth_eq]
              omega

/-- The outputs of a state are the keys at an end of its word. -/
theorem mem_outputs_iff (hwf : trie.WellFormed) (hlinked : trie.Linked) {s : Nat}
    (hs : s < trie.size) {t : StateId} :
    t ∈ trie.outputs s ↔ t < trie.size ∧ trie.IsKey t ∧ trie.word t <+: trie.word s :=
  (outputsFrom_spec hwf hlinked ((hlinked s hs).nearestKey hwf hs) (Nat.lt_succ_self _)).1 t

theorem outputs_pairwise (hwf : trie.WellFormed) (hlinked : trie.Linked) {s : Nat}
    (hs : s < trie.size) : (trie.outputs s).Pairwise fun s t => trie.depth t < trie.depth s :=
  (outputsFrom_spec hwf hlinked ((hlinked s hs).nearestKey hwf hs) (Nat.lt_succ_self _)).2

end Trie

namespace Automaton

variable {V : Type} {config : AutomatonConfig} {additions : List (Addition V)}
  {automaton : Automaton V}

/-- The folds of the letters read, the last one first. -/
def foldPast (automaton : Automaton V) (past : List Letter) : Bytes :=
  past.map fun letter => automaton.fold letter.byte

/-- The hit's key ends with the last letter read, and its limits hold. -/
structure Found (automaton : Automaton V) (past : List Letter) (ahead : Option Letter)
    (hit : Hit V) : Prop where
  stored : automaton.terminals.get? hit.id = some hit.terminal
  ends : (automaton.foldKey hit.terminal.key).reverse <+: automaton.foldPast past
  limits : hit.terminal.wholeWord = true →
    touchesWord past[hit.terminal.key.length]? = false ∧ touchesWord ahead = false
  offset_eq : past[hit.terminal.key.length - 1]?.map (·.start) = some hit.offset
  stop_eq : past.head?.map (·.stop) = some hit.stop

theorem Stores.word_state (h : Stores config additions automaton) {id : Nat}
    {terminal : Terminal V} (hget : automaton.terminals.get? id = some terminal) :
    automaton.trie.word terminal.state = (automaton.foldKey terminal.key).reverse := by
  have hfold := fold_key_of_entryAt? (h.entry_eq hget)
  rw [← List.reverse_eq_iff, ← hfold, ← h.config_eq]
  rfl

theorem Stores.depth_state (h : Stores config additions automaton) {id : Nat}
    {terminal : Terminal V} (hget : automaton.terminals.get? id = some terminal) :
    automaton.trie.depth terminal.state = terminal.key.length := by
  rw [Trie.depth_eq, h.word_state hget, List.length_reverse, foldKey, List.length_map]

theorem Stores.key_ne_nil (h : Stores config additions automaton) {id : Nat}
    {terminal : Terminal V} (hget : automaton.terminals.get? id = some terminal) :
    terminal.key ≠ [] := by
  intro hnil
  apply h.wellFormed.word_ne_nil (h.state_lt hget) (h.state_ne_root hget)
  rw [h.word_state hget, hnil]
  rfl

/-- The terminal of a folded key that is in the table. -/
theorem Stores.exists_terminal_key (h : Stores config additions automaton) {folded : Bytes}
    {entry : KeyEntry V} (hentry : entryAt? config additions folded = some entry) :
    ∃ id terminal, automaton.terminals.get? id = some terminal ∧
      automaton.foldKey terminal.key = folded ∧ entryOf terminal = entry := by
  obtain ⟨id, terminal, hget, hword⟩ := h.exists_terminal hentry
  have hstored := h.entry_eq hget
  rw [hword, List.reverse_reverse, hentry] at hstored
  rw [h.word_state hget] at hword
  exact ⟨id, terminal, hget, List.reverse_injective hword, (Option.some.inj hstored).symm⟩

/-- What is kept of the letters read, for keys of this length and one letter more. -/
def window (automaton : Automaton V) (past : List Letter) : List Letter :=
  past.take (automaton.maxLength + 1)

/-- A terminal gives a hit exactly where its key ends; the letters kept suffice to tell. -/
theorem Stores.hitAt?_eq_some_iff (h : Stores config additions automaton) {past : List Letter}
    {ahead : Option Letter} {id : Nat} {terminal : Terminal V}
    (hget : automaton.terminals.get? id = some terminal)
    (hpre : automaton.trie.word terminal.state <+: automaton.foldPast past) {hit : Hit V} :
    automaton.hitAt? (automaton.window past) ahead terminal.state = some hit ↔
      hit.id = id ∧ automaton.Found past ahead hit := by
  have hterm : automaton.trie.terminal? terminal.state = some id :=
    h.terminal_iff.mpr ⟨terminal, hget, rfl⟩
  have hpos : 0 < terminal.key.length := List.length_pos_iff.mpr (h.key_ne_nil hget)
  have hbound := h.length_le hget
  have hlen : terminal.key.length ≤ past.length := by
    have hle := hpre.length_le
    rw [h.word_state hget] at hle
    simpa [foldKey, foldPast] using hle
  have hwindow : ∀ i ≤ terminal.key.length, (automaton.window past)[i]? = past[i]? := by
    intro i hi
    rw [window, List.getElem?_take, if_pos (by omega)]
  have hhead : (automaton.window past).head? = past.head? := by
    rw [List.head?_eq_getElem?, List.head?_eq_getElem?, hwindow 0 (by omega)]
  obtain ⟨last, hlast⟩ : ∃ last, past.head? = some last :=
    ⟨_, List.head?_eq_some_head (List.length_pos_iff.mp (by omega))⟩
  obtain ⟨first, hfirst⟩ : ∃ first, past[terminal.key.length - 1]? = some first :=
    ⟨_, List.getElem?_eq_getElem (by omega)⟩
  simp only [hitAt?, hterm, hget, h.depth_state hget, hhead, hlast, hwindow _ (Nat.sub_le _ 1),
    hfirst, hwindow _ le_rfl, Option.bind_eq_bind, Option.bind_some]
  constructor
  · intro hit?
    split_ifs at hit? with hlimit
    obtain rfl := Option.some.inj hit?
    refine ⟨rfl, hget, h.word_state hget ▸ hpre, fun hwhole => ?_, by simp [hfirst],
      by simp [hlast]⟩
    simpa using mt (fun htouch => Bool.and_eq_true_iff.mpr ⟨hwhole, htouch⟩) hlimit
  · rintro ⟨rfl, hfound⟩
    obtain rfl := Option.some.inj (hget.symm.trans hfound.stored)
    have hoffset := hfound.offset_eq
    have hstop := hfound.stop_eq
    simp only [hfirst, hlast, Option.map_some, Option.some.injEq] at hoffset hstop
    rw [if_neg]
    · rw [hoffset, hstop]
    · intro hlimit
      obtain ⟨hwhole, htouch⟩ := Bool.and_eq_true_iff.mp hlimit
      obtain ⟨hbefore, hafter⟩ := hfound.limits hwhole
      simp [hbefore, hafter] at htouch

/-- The order in which hits with the same end are shown. -/
def Longer (a b : Hit V) : Prop := b.terminal.key.length < a.terminal.key.length

theorem Stores.hitsAt_spec (h : Stores config additions automaton)
    (hlinked : automaton.trie.Linked) {past : List Letter} {s : Nat}
    (hs : automaton.trie.Longest (automaton.foldPast past) s) (ahead : Option Letter) :
    (∀ hit, hit ∈ automaton.hitsAt (automaton.window past) ahead s ↔
        automaton.Found past ahead hit) ∧
      (automaton.hitsAt (automaton.window past) ahead s).Pairwise Longer := by
  have hout : ∀ t ∈ automaton.trie.outputs s, ∃ id terminal,
      automaton.terminals.get? id = some terminal ∧ terminal.state = t ∧
        automaton.trie.word t <+: automaton.foldPast past := by
    intro t ht
    obtain ⟨-, hkey, hpre⟩ := (Trie.mem_outputs_iff h.wellFormed hlinked hs.lt_size).mp ht
    obtain ⟨id, hid⟩ := Option.isSome_iff_exists.mp hkey
    obtain ⟨terminal, hget, hstate⟩ := h.terminal_iff.mp hid
    exact ⟨id, terminal, hget, hstate, hpre.trans hs.isPrefix⟩
  refine ⟨fun hit => ?_, ?_⟩
  · rw [hitsAt, List.mem_filterMap]
    constructor
    · rintro ⟨t, ht, hhit⟩
      obtain ⟨id, terminal, hget, rfl, hpre⟩ := hout t ht
      exact ((h.hitAt?_eq_some_iff hget hpre).mp hhit).2
    · intro hfound
      have hword := h.word_state hfound.stored
      have hpre : automaton.trie.word hit.terminal.state <+: automaton.foldPast past :=
        hword ▸ hfound.ends
      have hlt := h.state_lt hfound.stored
      refine ⟨hit.terminal.state, ?_, (h.hitAt?_eq_some_iff hfound.stored hpre).mpr ⟨rfl, hfound⟩⟩
      refine (Trie.mem_outputs_iff h.wellFormed hlinked hs.lt_size).mpr
        ⟨hlt, ?_, hs.prefix_word hlt hpre⟩
      exact Option.isSome_iff_exists.mpr
        ⟨hit.id, h.terminal_iff.mpr ⟨hit.terminal, hfound.stored, rfl⟩⟩
  · rw [hitsAt, List.pairwise_filterMap]
    refine List.Pairwise.imp_of_mem ?_
      (Trie.outputs_pairwise h.wellFormed hlinked hs.lt_size)
    intro t u ht hu hdepth a ha b hb
    obtain ⟨i, first, hfirst, rfl, hpre⟩ := hout t ht
    obtain ⟨j, second, hsecond, rfl, hpre'⟩ := hout u hu
    obtain ⟨rfl, hfa⟩ := (h.hitAt?_eq_some_iff hfirst hpre).mp ha
    obtain ⟨rfl, hfb⟩ := (h.hitAt?_eq_some_iff hsecond hpre').mp hb
    obtain rfl := Option.some.inj (hfirst.symm.trans hfa.stored)
    obtain rfl := Option.some.inj (hsecond.symm.trans hfb.stored)
    rwa [h.depth_state hfirst, h.depth_state hsecond] at hdepth

/-- What a table says of a state and a letter. -/
theorem longest_move (htabled : automaton.trie.Tabled automaton.moves) {s : Nat}
    (hs : s < automaton.trie.size) (letter : UInt8) :
    automaton.trie.Longest (letter :: automaton.trie.word s) (automaton.move s letter) := by
  obtain ⟨row, hrow, -, hright⟩ := htabled.2 s hs
  obtain ⟨t, ht, hlongest⟩ := hright letter
  have hmove : automaton.move s letter = t := by simp [move, hrow, ht]
  rwa [hmove]

theorem Stores.move_longest (h : Stores config additions automaton)
    (hcompiled : automaton.compiled = true) {past : List Letter} {s : Nat}
    (hs : automaton.trie.Longest (automaton.foldPast past) s) (letter : Letter) :
    automaton.trie.Longest (automaton.foldPast (letter :: past))
      (automaton.move s (automaton.fold letter.byte)) :=
  hs.cons h.wellFormed (longest_move (h.compiled hcompiled).2 hs.lt_size _)

/-- A hit together with the number of letters that were read when it was shown. -/
abbrev Located (V : Type) := Nat × Hit V

/-- Hits are shown in the order of their ends, and longer ones first where they end together. -/
def Located.Before (a b : Located V) : Prop := a.1 < b.1 ∨ a.1 = b.1 ∧ Longer a.2 b.2

theorem Stores.hitsFrom_spec (h : Stores config additions automaton)
    (hcompiled : automaton.compiled = true) (letters past : List Letter) {s : Nat}
    (hs : automaton.trie.Longest (automaton.foldPast past) s) :
    ∃ located : List (Located V),
      automaton.hitsFrom s (automaton.window past) letters = located.map Prod.snd ∧
        located.Pairwise Located.Before ∧
          ∀ e hit, (e, hit) ∈ located ↔ ∃ front letter back, letters = front ++ letter :: back ∧
            e = past.length + front.length + 1 ∧
              automaton.Found (letter :: (front.reverse ++ past)) back.head? hit := by
  -- The invariant is `hs`: the state stands for the longest end of what was read.
  induction letters generalizing past s with
  | nil => exact ⟨[], rfl, .nil, by simp⟩
  | cons letter rest ih =>
      have hnext := h.move_longest hcompiled hs letter
      obtain ⟨hmem, hpairs⟩ := h.hitsAt_spec (h.compiled hcompiled).1 hnext rest.head?
      obtain ⟨located, hlater, hbefore, hlocated⟩ := ih (letter :: past) hnext
      have hwindow : (letter :: automaton.window past).take (automaton.maxLength + 1) =
          automaton.window (letter :: past) := by
        simp [window, List.take_take]
      let here := automaton.hitsAt (automaton.window (letter :: past)) rest.head?
        (automaton.move s (automaton.fold letter.byte))
      refine ⟨here.map (past.length + 1, ·) ++ located, ?_, ?_, fun e hit => ?_⟩
      · rw [hitsFrom]
        simp only [hwindow, hlater, List.map_append, List.map_map]
        congr 1
        exact (List.map_id _).symm
      · refine List.pairwise_append.mpr ⟨?_, hbefore, ?_⟩
        · exact List.pairwise_map.mpr (hpairs.imp fun hlonger => Or.inr ⟨rfl, hlonger⟩)
        · rintro a ha ⟨e, hit⟩ hb
          obtain ⟨_, -, rfl⟩ := List.mem_map.mp ha
          obtain ⟨front, _, _, -, rfl, -⟩ := (hlocated e hit).mp hb
          refine Or.inl ?_
          simp only [List.length_cons]
          omega
      · rw [List.mem_append, hlocated]
        constructor
        · rintro (hin | ⟨front, last, back, rfl, rfl, hfound⟩)
          · obtain ⟨_, hat, heq⟩ := List.mem_map.mp hin
            obtain ⟨rfl, rfl⟩ := Prod.mk.inj heq
            exact ⟨[], letter, rest, rfl, rfl, (hmem _).mp hat⟩
          · exact ⟨letter :: front, last, back, rfl, by simp; omega, by simpa using hfound⟩
        · rintro ⟨front, last, back, heq, rfl, hfound⟩
          cases front with
          | nil =>
              obtain ⟨rfl, rfl⟩ := List.cons.inj heq
              exact Or.inl (List.mem_map.mpr ⟨hit, (hmem hit).mpr hfound, rfl⟩)
          | cons first front =>
              obtain ⟨rfl, rfl⟩ := List.cons.inj heq
              exact Or.inr ⟨front, last, back, rfl, by simp; omega, by simpa using hfound⟩

/-- A scan of a compiled automaton finds every key where it ends, in order. -/
theorem Stores.findAll_spec (h : Stores config additions automaton)
    (hcompiled : automaton.compiled = true) (text : Bytes) (mode : EscapeMode) :
    ∃ located : List (Located V), automaton.findAll text mode = located.map Prod.snd ∧
      located.Pairwise Located.Before ∧
        ∀ e hit, (e, hit) ∈ located ↔ ∃ front back, mode.letters text = front ++ back ∧
          e = front.length ∧ automaton.Found front.reverse back.head? hit := by
  rw [findAll]
  split_ifs with hscan
  · obtain ⟨located, hall, hbefore, hmem⟩ :=
      h.hitsFrom_spec hcompiled (mode.letters text) [] (Trie.longest_nil h.wellFormed)
    refine ⟨located, hall, hbefore, fun e hit => (hmem e hit).trans ?_⟩
    constructor
    · rintro ⟨front, last, back, heq, rfl, hfound⟩
      exact ⟨front ++ [last], back, by simpa using heq, by simp, by simpa using hfound⟩
    · rintro ⟨front, back, heq, rfl, hfound⟩
      rcases List.eq_nil_or_concat front with rfl | ⟨front, last, rfl⟩
      · exact absurd hfound.stop_eq (by simp)
      · exact ⟨front, last, back, by simpa using heq, by simp, by simpa using hfound⟩
  · refine ⟨[], rfl, .nil, fun e hit => ?_⟩
    simp only [List.not_mem_nil, false_iff]
    rintro ⟨front, back, -, -, hfound⟩
    have hlt := Pool.lt_size_of_get? hfound.stored
    have hsize : automaton.terminals.size = 0 := by
      simpa [hcompiled, isEmpty, Pool.isEmpty, Pool.size] using hscan
    rw [hsize] at hlt
    exact Nat.not_lt_zero _ hlt

end Automaton

end LiteralSieve
