import LiteralSieve.Pattern.Tree
import LiteralSieve.Proofs.Pattern.Reading

namespace LiteralSieve

/-!
# Matching of parentheses

Where a pattern is made of letters, digits, bars and parentheses alone, only the parentheses can be
at fault. A scan that remembers where they were opened, and nothing else, finds the same fault as
the parser: with each character, the step of the parser follows the step of the scan.
-/

namespace Parentheses

/-- A letter, a digit, a bar or a parenthesis. -/
def Plain (c : Char) : Prop := c.isAlphanum = true ∨ c = '|' ∨ c = '(' ∨ c = ')'
deriving Decidable

/-- The offsets of the parentheses that are open after the character at the offset, the innermost
first, or the fault at the character. -/
def next (offset : Nat) (opened : List Nat) : Char → Except Fault (List Nat)
  | '(' => if 256 ≤ opened.length then .error ⟨.depthLimit, offset⟩ else .ok (offset :: opened)
  | ')' =>
    match opened with
    | [] => .error ⟨.unmatchedCloseParen, offset⟩
    | _ :: opened => .ok opened
  | _ => .ok opened

/-- The first fault from the offset on, where the parentheses at the offsets are open. -/
def scan (offset : Nat) (opened : List Nat) : List Char → Except Fault Unit
  | [] =>
    match opened with
    | [] => .ok ()
    | opening :: _ => .error ⟨.unmatchedOpenParen, opening⟩
  | c :: rest =>
    match next offset opened c with
    | .error fault => .error fault
    | .ok opened => scan (offset + 1) opened rest

variable {c : Char} {rest : List Char}

theorem notMem_of_isAlphanum {signs : List Char} (h : c.isAlphanum = true)
    (hsigns : signs.all (fun d => !d.isAlphanum) = true) : c ∉ signs := by
  intro hmem
  have hnot := List.all_eq_true.mp hsigns c hmem
  rw [h] at hnot
  cases hnot

theorem next_of_isAlphanum (h : c.isAlphanum = true) (offset : Nat) (opened : List Nat) :
    next offset opened c = .ok opened := by
  unfold next
  split
  · cases h
  · cases h
  · rfl

theorem utf8Size_of_isAlphanum (h : c.isAlphanum = true) : c.utf8Size = 1 := by
  have hbound : ∀ {last : UInt32}, c.val ≤ last → last ≤ 127 → c.utf8Size = 1 :=
    fun hlast hle => Char.utf8Size_eq_one_iff.mpr (UInt32.le_trans hlast hle)
  rcases Bool.or_eq_true_iff.mp h with halpha | hdigit
  · rcases Bool.or_eq_true_iff.mp halpha with hupper | hlower
    · exact hbound (of_decide_eq_true hupper).2 (by decide)
    · exact hbound (of_decide_eq_true (Bool.and_eq_true_iff.mp hlower).2) (by decide)
  · exact hbound (of_decide_eq_true (Bool.and_eq_true_iff.mp hdigit).2) (by decide)

theorem Plain.utf8Size (h : Plain c) : c.utf8Size = 1 := by
  rcases h with halphanum | rfl | rfl | rfl
  · exact utf8Size_of_isAlphanum halphanum
  · rfl
  · rfl
  · rfl

theorem Plain.notMem_quantifierSigns (h : Plain c) : c ∉ quantifierSigns := by
  rcases h with halphanum | rfl | rfl | rfl
  · exact notMem_of_isAlphanum halphanum (by decide)
  · decide
  · decide
  · decide

theorem unquantified_of_plain (h : ∀ c ∈ rest, Plain c) : Unquantified rest :=
  fun c hc => (h c (List.mem_of_mem_head? hc)).notMem_quantifierSigns

end Parentheses

/-- No options are set, and the groups at the offsets are open. -/
structure ParserState.Holds (opened : List Nat) (state : ParserState) : Prop where
  flags : state.flags = .none
  opened : state.outer.map (·.opening) = opened
  around : ∀ outer ∈ state.outer, outer.flags = .none

/-- The step does what the scan does with a character: it fails with the same fault, or goes on to
the cursor with the same parentheses open. -/
def ParserStep.Follows (cursor : Cursor) (found : Except Fault (List Nat)) : ParserStep → Prop
  | done result => ∃ fault, found = .error fault ∧ result.root = .error fault
  | next state stop => stop = cursor ∧ ∃ opened, found = .ok opened ∧ state.Holds opened

namespace ParserState

open Parentheses

variable {reading : Reading} {state : ParserState} {opened : List Nat} {offset : Nat} {c : Char}
  {rest : List Char}

theorem holds_initial : initial.Holds [] where
  flags := rfl
  opened := rfl
  around _ hmem := nomatch hmem

/-- Without a quantifier after it, an atom changes the draft alone. -/
theorem Holds.addAtom (h : state.Holds opened) (hrest : Unquantified rest) (start : Nat)
    (atom : Atom) :
    (addAtom reading state start atom ⟨offset, rest⟩).Follows ⟨offset, rest⟩ (.ok opened) := by
  have hplain : state.flags.extended = false := by
    rw [h.flags]
    rfl
  rw [addAtom_bare hplain (Quantifier.starts_of_unquantified hrest)]
  exact ⟨rfl, opened, rfl, h.flags, h.opened, h.around⟩

theorem Holds.openGroup (h : state.Holds opened) :
    (state.openGroup offset false .none ⟨offset + 1, rest⟩).Follows ⟨offset + 1, rest⟩
      (next offset opened '(') := by
  have hlength : state.outer.length = opened.length := by
    rw [← h.opened, List.length_map]
  rw [ParserState.openGroup, next, maxDepth, hlength]
  split
  case isTrue => exact ⟨_, rfl, rfl⟩
  case isFalse =>
    refine ⟨rfl, _, rfl, rfl, ?_, List.forall_mem_cons.mpr ⟨h.flags, h.around⟩⟩
    rw [List.map_cons, h.opened]

theorem Holds.closeGroup (h : state.Holds opened) (hrest : Unquantified rest) :
    (state.closeGroup reading offset ⟨offset + 1, rest⟩).Follows ⟨offset + 1, rest⟩
      (next offset opened ')') := by
  obtain ⟨flags, level, outer⟩ := state
  cases outer with
  | nil =>
      obtain rfl : opened = [] := h.opened.symm
      exact ⟨_, rfl, rfl⟩
  | cons outer others =>
      obtain rfl := h.opened
      have hothers := List.forall_mem_cons.mp h.around
      refine Holds.addAtom ?_ hrest _ _
      exact ⟨hothers.1, rfl, hothers.2⟩

/-- One character further, the parser does what the scan does. -/
theorem Holds.step (h : state.Holds opened) (hc : Plain c) (hrest : Unquantified rest)
    (reading : Reading) (offset : Nat) :
    (state.step reading ⟨offset, c :: rest⟩).Follows ⟨offset + 1, rest⟩
      (next offset opened c) := by
  have hstep : ∀ {lexeme : Lexeme}, ReadsAs .none [c] lexeme rest →
      state.step reading ⟨offset, c :: rest⟩ =
        state.apply reading offset ⟨offset + 1, rest⟩ lexeme := by
    intro lexeme hreads
    rw [← h.flags] at hreads
    rw [← List.singleton_append, step_of_readsAs hreads, width_cons, hc.utf8Size]
    rfl
  rcases hc with halphanum | rfl | rfl | rfl
  · have hreads : ReadsAs .none [c] (.atom (.char c)) rest :=
      readsAs_plain (notMem_of_isAlphanum halphanum (by decide)) rest
    rw [hstep hreads, next_of_isAlphanum halphanum]
    exact h.addAtom hrest _ _
  · rw [hstep (readsAs_bar _ rest)]
    exact ⟨rfl, opened, rfl, h.flags, h.opened, h.around⟩
  · have hreads : ReadsAs .none ['('] (.body false .none) rest := readsAs_opening .capturing hrest
    rw [hstep hreads]
    exact h.openGroup
  · rw [hstep (readsAs_close _ rest)]
    exact h.closeGroup hrest

/-- At the end, the innermost group that is still open is at fault. -/
theorem Holds.finish (h : state.Holds opened) (offset : Nat) :
    (state.finish offset).root.map (fun _ => ()) = scan offset opened [] := by
  obtain ⟨flags, level, outer⟩ := state
  obtain rfl := h.opened
  cases outer <;> rfl

/-- From a state on in which the parentheses at the offsets are open, the run ends as the scan. -/
theorem Holds.run (h : state.Holds opened) (hrest : ∀ c ∈ rest, Plain c) (reading : Reading)
    (offset : Nat) :
    (state.run reading ⟨offset, rest⟩).root.map (fun _ => ()) = scan offset opened rest := by
  induction rest generalizing state opened offset with
  | nil =>
      rw [run_of_done rfl]
      exact h.finish offset
  | cons c rest ih =>
      obtain ⟨hc, hrest⟩ := List.forall_mem_cons.mp hrest
      have hfollows := h.step hc (unquantified_of_plain hrest) reading offset
      rw [scan]
      cases hstep : state.step reading ⟨offset, c :: rest⟩ with
      | done result =>
          rw [hstep] at hfollows
          obtain ⟨fault, hnext, hroot⟩ := hfollows
          rw [run_of_done hstep, hnext, hroot]
          rfl
      | next later stop =>
          rw [hstep] at hfollows
          obtain ⟨rfl, opened, hnext, hlater⟩ := hfollows
          rw [run_of_next hstep, hnext]
          exact ih hlater hrest _

end ParserState

namespace PatternTree

open Parentheses

/-- Letters, digits, bars and parentheses are a pattern exactly if the parentheses match and no more
than 256 are open at once; otherwise the fault is the first one that the scan comes by. -/
theorem compile_eq_scan (tree : PatternTree) (pattern : String) (expansion : Bool)
    (h : ∀ c ∈ pattern.toList, Plain c) :
    (tree.compile pattern expansion).2 =
      (scan 0 [] pattern.toList).mapError (PatternError.malformed · pattern) := by
  rw [← ParserState.holds_initial.run h ⟨expansion, tree.caseSensitive⟩ 0]
  change (compile _ _ _).2 = ((parse _ _).root.map _).mapError _
  unfold compile
  dsimp only
  cases (parse ⟨expansion, tree.caseSensitive⟩ pattern).root <;> rfl

/-- Two groups are open at the end, behind one that is closed with an empty one in it. -/
theorem compile_eq_scan_nested :
    let pattern := "(a|()b)|0((Z)"
    (∀ c ∈ pattern.toList, Plain c) ∧
      (empty.compile pattern true).2 =
        (scan 0 [] pattern.toList).mapError (PatternError.malformed · pattern) ∧
      scan 0 [] pattern.toList = .error ⟨.unmatchedOpenParen, 9⟩ := by
  intro pattern
  have hall : pattern.toList.all (fun c => decide (Plain c)) = true := by decide +kernel
  have hplain : ∀ c ∈ pattern.toList, Plain c :=
    fun c hc => decide_eq_true_eq.mp (List.all_eq_true.mp hall c hc)
  exact ⟨hplain, compile_eq_scan empty pattern true hplain, by decide +kernel⟩

end PatternTree

end LiteralSieve
