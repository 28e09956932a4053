import LiteralSieve.Proofs.Automaton.Occurrences
import Mathlib.Data.List.Sections

namespace LiteralSieve

/-!
# Chains of literals

A branch is chained in a text if its literals occur there one after another. They may overlap, and
they may even end together if the later one is shorter, since that is the order in which a scan
shows them. So a branch is chained exactly if its folded literals are a sublist of what is shown.
-/

open Automaton
open scoped List

/-- The literal takes the last of the first `e` letters, if both are folded. -/
structure OccursAt (config : AutomatonConfig) (letters literal : Bytes) (e : Nat) : Prop where
  le_length : e ≤ letters.length
  ends : literal.map config.fold <:+ (letters.take e).map config.fold

/-- The literals occur with these ends, one after another. -/
structure Chain (config : AutomatonConfig) (letters : Bytes) (literals : List Bytes)
    (ends : List Nat) : Prop where
  occurs : List.Forall₂ (OccursAt config letters) literals ends
  follows : (literals.zip ends).IsChain Precedes

def Chained (config : AutomatonConfig) (letters : Bytes) (literals : List Bytes) : Prop :=
  ∃ ends, Chain config letters literals ends

/-- The least end of the last literal in a chain. -/
structure LeastEnd (config : AutomatonConfig) (letters : Bytes) (literals : List Bytes)
    (e : Nat) : Prop where
  exists_chain : ∃ ends, Chain config letters literals ends ∧ ends.getLast? = some e
  le : ∀ ends, Chain config letters literals ends → ∀ e', ends.getLast? = some e' → e ≤ e'

/-- The end of the occurrence of a literal that ends first. -/
structure FirstEnd (config : AutomatonConfig) (letters literal : Bytes) (e : Nat) : Prop where
  occurs : OccursAt config letters literal e
  le : ∀ e', OccursAt config letters literal e' → e ≤ e'

/-! ## Going through the chains -/

instance (config : AutomatonConfig) (letters literal : Bytes) (e : Nat) :
    Decidable (OccursAt config letters literal e) :=
  decidable_of_iff (e ≤ letters.length ∧
    literal.map config.fold <:+ (letters.take e).map config.fold)
    ⟨fun h => ⟨h.1, h.2⟩, fun h => ⟨h.le_length, h.ends⟩⟩

/-- All ends of a literal, the first one first. -/
def endsIn (config : AutomatonConfig) (letters literal : Bytes) : List Nat :=
  (List.range (letters.length + 1)).filter fun e => OccursAt config letters literal e

theorem mem_endsIn {config : AutomatonConfig} {letters literal : Bytes} {e : Nat} :
    e ∈ endsIn config letters literal ↔ OccursAt config letters literal e := by
  simp only [endsIn, List.mem_filter, List.mem_range, decide_eq_true_eq]
  exact and_iff_right_of_imp fun h => Nat.lt_succ_of_le h.le_length

/-- A chain takes one of the ends of every literal. -/
theorem chained_iff_exists_mem_sections {config : AutomatonConfig} {letters : Bytes}
    {literals : List Bytes} : Chained config letters literals ↔
      ∃ ends ∈ (literals.map (endsIn config letters)).sections,
        (literals.zip ends).IsChain Precedes := by
  have hoccurs : ∀ ends, ends ∈ (literals.map (endsIn config letters)).sections ↔
      List.Forall₂ (OccursAt config letters) literals ends := by
    intro ends
    rw [List.mem_sections, List.forall₂_map_right_iff]
    simp only [mem_endsIn]
    exact ⟨List.Forall₂.flip, List.Forall₂.flip⟩
  constructor
  · rintro ⟨ends, hends, hfollows⟩
    exact ⟨ends, (hoccurs ends).mpr hends, hfollows⟩
  · rintro ⟨ends, hends, hfollows⟩
    exact ⟨ends, (hoccurs ends).mp hends, hfollows⟩

instance (config : AutomatonConfig) (letters : Bytes) (literals : List Bytes) :
    Decidable (Chained config letters literals) :=
  decidable_of_iff _ chained_iff_exists_mem_sections.symm

/-! ## What a scan shows -/

/-- What a scan shows: where the letters end with a stored key, in order. -/
structure Shown (config : AutomatonConfig) (letters : Bytes) (stored : Bytes → Prop)
    (shown : List (Bytes × Nat)) : Prop where
  mem_iff : ∀ {folded e}, (folded, e) ∈ shown ↔
    stored folded ∧ e ≤ letters.length ∧ folded <:+ (letters.take e).map config.fold
  ordered : shown.Pairwise Precedes

theorem Precedes.trans {a b c : Bytes × Nat} (hab : Precedes a b) (hbc : Precedes b c) :
    Precedes a c := by
  rcases hab with hab | ⟨hab, hlen⟩ <;> rcases hbc with hbc | ⟨hbc, hlen'⟩
  · exact Or.inl (hab.trans hbc)
  · exact Or.inl (hbc ▸ hab)
  · exact Or.inl (hab ▸ hbc)
  · exact Or.inr ⟨hab.trans hbc, hlen'.trans hlen⟩

theorem Precedes.snd_le {a b : Bytes × Nat} (h : Precedes a b) : a.2 ≤ b.2 := by
  rcases h with h | ⟨h, -⟩
  · exact h.le
  · exact h.le

instance : Trans Precedes Precedes Precedes := ⟨Precedes.trans⟩

instance : Std.Antisymm Precedes where
  antisymm _ _ hab hba := ((Precedes.trans hab hba).ne rfl).elim

/-- Occurrences of literals, with the literals folded. -/
def foldZip (config : AutomatonConfig) (literals : List Bytes) (ends : List Nat) :
    List (Bytes × Nat) :=
  (literals.map (·.map config.fold)).zip ends

section FoldZip

variable {config : AutomatonConfig} {letters : Bytes} {literals : List Bytes} {ends : List Nat}

/-- Folding keeps lengths, and so the order of occurrences. -/
theorem isChain_foldZip (config : AutomatonConfig) : (foldZip config literals ends).IsChain Precedes ↔
    (literals.zip ends).IsChain Precedes := by
  rw [foldZip, List.zip_map_left, List.isChain_map]
  simp only [Precedes, Prod.map_fst, Prod.map_snd, List.length_map, id_eq]
  rfl

theorem foldZip_fst (h : literals.length = ends.length) :
    (foldZip config literals ends).map Prod.fst = literals.map (·.map config.fold) := by
  rw [foldZip, List.map_fst_zip]
  simp [h]

theorem foldZip_snd (h : literals.length = ends.length) :
    (foldZip config literals ends).map Prod.snd = ends := by
  rw [foldZip, List.map_snd_zip]
  simp [h]

theorem mem_foldZip {x : Bytes × Nat} (h : x ∈ foldZip config literals ends) :
    ∃ literal, (literal, x.2) ∈ literals.zip ends ∧ x.1 = literal.map config.fold := by
  rw [foldZip, List.zip_map_left] at h
  obtain ⟨⟨literal, e⟩, hmem, rfl⟩ := List.mem_map.mp h
  exact ⟨literal, hmem, rfl⟩

theorem Chain.length_eq (h : Chain config letters literals ends) :
    literals.length = ends.length :=
  h.occurs.length_eq

end FoldZip

namespace Shown

variable {config : AutomatonConfig} {letters : Bytes} {stored : Bytes → Prop}
  {shown : List (Bytes × Nat)} {literals : List Bytes} {ends : List Nat}

/-- A chain of stored literals is shown in its order. -/
theorem sublist_of_chain (h : Shown config letters stored shown)
    (hstored : ∀ literal ∈ literals, stored (literal.map config.fold))
    (hchain : Chain config letters literals ends) : foldZip config literals ends <+ shown := by
  have hpairs : (foldZip config literals ends).Pairwise Precedes :=
    ((isChain_foldZip config).mpr hchain.follows).pairwise
  refine List.sublist_of_subperm_of_pairwise (List.subperm_of_subset ?_ ?_) hpairs h.ordered
  · exact hpairs.imp Precedes.ne
  · intro x hx
    obtain ⟨literal, hmem, hfold⟩ := mem_foldZip hx
    have hoccurs : OccursAt config letters literal x.2 :=
      List.forall₂_zip hchain.occurs hmem
    refine h.mem_iff.mpr ⟨?_, hoccurs.le_length, hfold ▸ hoccurs.ends⟩
    exact hfold ▸ hstored literal (List.of_mem_zip hmem).1

/-- What is shown in the order of the literals is a chain. -/
theorem chain_of_sublist (h : Shown config letters stored shown) {found : List (Bytes × Nat)}
    (hsub : found <+ shown) (hfold : found.map Prod.fst = literals.map (·.map config.fold)) :
    Chain config letters literals (found.map Prod.snd) := by
  have hlength : literals.length = (found.map Prod.snd).length := by
    have hlength := congrArg List.length hfold
    simpa using hlength.symm
  have hzip : foldZip config literals (found.map Prod.snd) = found := by
    rw [foldZip, ← hfold]
    exact (List.zip_of_prod rfl rfl).symm
  refine ⟨?_, ?_⟩
  · refine List.forall₂_iff_zip.mpr ⟨hlength, fun {literal e} hmem => ?_⟩
    have hin : (literal.map config.fold, e) ∈ foldZip config literals (found.map Prod.snd) := by
      rw [foldZip, List.zip_map_left]
      exact List.mem_map.mpr ⟨(literal, e), hmem, rfl⟩
    rw [hzip] at hin
    obtain ⟨-, hle, hends⟩ := h.mem_iff.mp (hsub.subset hin)
    exact ⟨hle, hends⟩
  · rw [← isChain_foldZip config, hzip]
    exact (h.ordered.sublist hsub).isChain

/-- A branch is chained exactly if its literals are shown in their order. -/
theorem chained_iff (h : Shown config letters stored shown)
    (hstored : ∀ literal ∈ literals, stored (literal.map config.fold)) :
    Chained config letters literals ↔ literals.map (·.map config.fold) <+ shown.map Prod.fst := by
  constructor
  · rintro ⟨ends, hchain⟩
    rw [← foldZip_fst hchain.length_eq]
    exact (h.sublist_of_chain hstored hchain).map Prod.fst
  · intro hsub
    obtain ⟨found, hfound, hfold⟩ := List.sublist_map_iff.mp hsub
    exact ⟨_, h.chain_of_sublist hfound hfold.symm⟩

/-- What is shown later ends no earlier. -/
theorem snd_le (h : Shown config letters stored shown) {before after : List (Bytes × Nat)}
    {x y : Bytes × Nat} (hshown : shown = before ++ x :: after) (hy : y ∈ x :: after) :
    x.2 ≤ y.2 := by
  rcases List.mem_cons.mp hy with rfl | hy
  · exact le_rfl
  · have hordered := h.ordered
    rw [hshown] at hordered
    have htail := List.pairwise_cons.mp (List.pairwise_append.mp hordered).2.1
    exact Precedes.snd_le (htail.1 y hy)

/-- Where the literals are complete for the first time, the last one has its least end. -/
theorem leastEnd (h : Shown config letters stored shown)
    (hstored : ∀ literal ∈ literals, stored (literal.map config.fold))
    {before after : List (Bytes × Nat)} {x : Bytes × Nat} (hshown : shown = before ++ x :: after)
    (hnew : literals.map (·.map config.fold) <+ (before ++ [x]).map Prod.fst)
    (hold : ¬ literals.map (·.map config.fold) <+ before.map Prod.fst) :
    LeastEnd config letters literals x.2 where
  exists_chain := by
    obtain ⟨found, hfound, hfold⟩ := List.sublist_map_iff.mp hnew
    have hsub : before ++ [x] <+ shown := by
      rw [hshown]
      exact List.Sublist.append_left (by simp) before
    refine ⟨_, h.chain_of_sublist (hfound.trans hsub) hfold.symm, ?_⟩
    obtain ⟨front, last, rfl, hfront, hlast⟩ := List.sublist_append_iff.mp hfound
    rcases List.sublist_singleton.mp hlast with rfl | rfl
    · rw [List.append_nil] at hfold
      exact (hold (hfold ▸ hfront.map Prod.fst)).elim
    · simp
  le := by
    intro ends hchain e he
    -- A chain with an earlier end would be shown before `x`, against `hold`.
    by_contra hlt
    have hsub := h.sublist_of_chain hstored hchain
    rw [hshown] at hsub
    obtain ⟨front, last, hzip, hfront, hlast⟩ := List.sublist_append_iff.mp hsub
    rcases List.eq_nil_or_concat last with rfl | ⟨rest, y, rfl⟩
    · rw [List.append_nil] at hzip
      apply hold
      rw [← foldZip_fst hchain.length_eq, hzip]
      exact hfront.map Prod.fst
    · have hy : y.2 = e := by
        rw [← foldZip_snd hchain.length_eq, hzip] at he
        simpa using he
      have hle := h.snd_le hshown (hlast.subset (by simp) : y ∈ x :: after)
      omega

/-- Where a literal is shown for the first time, it ends first. -/
theorem firstEnd (h : Shown config letters stored shown) {literal : Bytes}
    {before after : List (Bytes × Nat)} {x : Bytes × Nat} (hshown : shown = before ++ x :: after)
    (hfold : x.1 = literal.map config.fold)
    (hold : ∀ y ∈ before, y.1 ≠ literal.map config.fold) :
    FirstEnd config letters literal x.2 := by
  obtain ⟨hstored, hle, hends⟩ := h.mem_iff.mp (show (x.1, x.2) ∈ shown by simp [hshown])
  refine ⟨⟨hle, hfold ▸ hends⟩, fun e hoccurs => ?_⟩
  have hmem : (literal.map config.fold, e) ∈ shown :=
    h.mem_iff.mpr ⟨hfold ▸ hstored, hoccurs.le_length, hoccurs.ends⟩
  rw [hshown] at hmem
  rcases List.mem_append.mp hmem with hmem | hmem
  · exact (hold _ hmem rfl).elim
  · exact h.snd_le hshown hmem

end Shown

/-! ## What a scan shows -/

namespace Automaton

variable {V : Type} {config : AutomatonConfig} {additions : List (Addition V)}
  {automaton : Automaton V} {letters front back : List Letter} {hit : Hit V}

/-- Offset and end of a hit are those of the letters that its key takes. -/
structure HitPlace (letters : List Letter) (e : Nat) (hit : Hit V) : Prop where
  offset_eq : letters[e - hit.terminal.key.length]?.map (·.start) = some hit.offset
  stop_eq : letters[e - 1]?.map (·.stop) = some hit.stop

theorem foldPast_reverse (h : Stores config additions automaton) (front : List Letter) :
    automaton.foldPast front.reverse = ((front.map (·.byte)).map config.fold).reverse := by
  rw [foldPast, List.map_reverse, List.map_map, ← h.config_eq]
  rfl

theorem length_le_of_found (hfound : automaton.Found front.reverse back.head? hit) :
    hit.terminal.key.length ≤ front.length := by
  have hle := hfound.ends.length_le
  simpa [foldKey, foldPast] using hle

theorem hitPlace_of_found (h : Stores config additions automaton)
    (hfound : automaton.Found front.reverse back.head? hit) :
    HitPlace (front ++ back) front.length hit := by
  have hpos : 0 < hit.terminal.key.length :=
    List.length_pos_iff.mpr (h.key_ne_nil hfound.stored)
  have hle := length_le_of_found hfound
  have hoffset := hfound.offset_eq
  have hstop := hfound.stop_eq
  rw [List.getElem?_reverse (by omega)] at hoffset
  rw [List.head?_reverse, List.getLast?_eq_getElem?] at hstop
  constructor
  · rw [List.getElem?_append_left (by omega), ← hoffset]
    congr 2
    omega
  · rw [List.getElem?_append_left (by omega), ← hstop]

theorem exists_found (h : Stores config additions automaton) {id : Nat} {terminal : Terminal V}
    (hget : automaton.terminals.get? id = some terminal) (hwhole : terminal.wholeWord = false)
    (hends : automaton.foldKey terminal.key <:+ (front.map (·.byte)).map config.fold)
    (ahead : Option Letter) :
    ∃ hit, hit.terminal = terminal ∧ automaton.Found front.reverse ahead hit := by
  have hpos : 0 < terminal.key.length := List.length_pos_iff.mpr (h.key_ne_nil hget)
  have hle : terminal.key.length ≤ front.length := by
    have hle := hends.length_le
    simpa [foldKey] using hle
  obtain ⟨first, hfirst⟩ : ∃ first, front.reverse[terminal.key.length - 1]? = some first :=
    ⟨_, List.getElem?_eq_getElem (by rw [List.length_reverse]; omega)⟩
  obtain ⟨last, hlast⟩ : ∃ last, front.reverse.head? = some last := by
    rw [List.head?_reverse]
    exact ⟨_, List.getLast?_eq_some_getLast (List.length_pos_iff.mp (by omega))⟩
  refine ⟨⟨first.start, last.stop, id, terminal⟩, rfl, hget, ?_, ?_, by simp [hfirst],
    by simp [hlast]⟩
  · rw [foldPast_reverse h, List.reverse_prefix]
    exact hends
  · intro htrue
    simp [hwhole] at htrue

/-- Where no key is for whole words, a scan shows the stored keys wherever the text ends with
them. -/
theorem Stores.shown_spec (h : Stores config additions automaton)
    (hcompiled : automaton.compiled = true) (hwhole : ∀ a ∈ additions, a.wholeWord = false)
    (text : Bytes) (mode : EscapeMode) :
    ∃ located : List (Located V), automaton.findAll text mode = located.map Prod.snd ∧
      Shown config (mode.decode text) (fun folded => ∃ entry,
        entryAt? config additions folded = some entry) (located.map automaton.occurrence) ∧
      ∀ x ∈ located, automaton.terminals.get? x.2.id = some x.2.terminal ∧
        HitPlace (mode.letters text) x.1 x.2 := by
  obtain ⟨located, hall, hbefore, hmem⟩ := h.findAll_spec hcompiled text mode
  refine ⟨located, hall, ⟨fun {folded e} => ?_, ?_⟩, fun x hx => ?_⟩
  · rw [List.mem_map]
    constructor
    · rintro ⟨⟨e, hit⟩, hin, heq⟩
      obtain ⟨rfl, rfl⟩ := Prod.mk.inj heq
      obtain ⟨front, back, hsplit, rfl, hfound⟩ := (hmem e hit).mp hin
      have hends := hfound.ends
      rw [foldPast_reverse h, List.reverse_prefix] at hends
      have hentry := h.entry_eq hfound.stored
      rw [h.word_state hfound.stored, List.reverse_reverse] at hentry
      rw [EscapeMode.decode, hsplit]
      exact ⟨⟨_, hentry⟩, by simp, by simpa using hends⟩
    · rintro ⟨⟨entry, hentry⟩, hle, hends⟩
      obtain ⟨id, terminal, hget, rfl, rfl⟩ := h.exists_terminal_key hentry
      have hfree : terminal.wholeWord = false := wholeWord_of_entryAt? hwhole hentry
      let front := (mode.letters text).take e
      have hlength : front.length = e := by
        rw [List.length_take]
        refine Nat.min_eq_left (hle.trans ?_)
        simp [EscapeMode.decode]
      have htake : front.map (·.byte) = (mode.decode text).take e := by
        rw [List.map_take]
        rfl
      obtain ⟨hit, rfl, hfound⟩ := exists_found h hget hfree (htake ▸ hends)
        ((mode.letters text).drop e).head?
      exact ⟨(e, hit), (hmem e hit).mpr
        ⟨front, _, (List.take_append_drop _ _).symm, hlength.symm, hfound⟩, rfl⟩
  · exact pairwise_occurrence hbefore
  · obtain ⟨front, back, hsplit, he, hfound⟩ := (hmem x.1 x.2).mp hx
    rw [hsplit, he]
    exact ⟨hfound.stored, hitPlace_of_found h hfound⟩

end Automaton

end LiteralSieve
