import LiteralSieve.Pattern.Lexeme
import Mathlib.Data.List.TakeWhile

namespace LiteralSieve

/-!
# Lengths of what is read

Every reader counts the characters that belong to what it found. No count goes past the end of the
pattern: it is at most the number of characters ahead.
-/

theorem length_takeWhile_le (p : Char → Bool) (rest : List Char) :
    (rest.takeWhile p).length ≤ rest.length :=
  (List.takeWhile_prefix p).length_le

/-- What stands behind a stretch of characters is inside the pattern as well. -/
theorem length_add_one_le_of_head? {rest : List Char} {n : Nat} {c : Char}
    (h : (rest.drop n).head? = some c) : n + 1 ≤ rest.length := by
  rw [List.head?_drop] at h
  exact (List.getElem?_eq_some_iff.mp h).1

/-! ## Quantifiers and layout -/

theorem commentLength_le (rest : List Char) : commentLength rest ≤ rest.length := by
  induction rest with
  | nil => exact Nat.le_refl 0
  | cons c rest ih =>
      rw [commentLength, List.length_cons]
      split
      · exact Nat.le_add_left 1 _
      · exact Nat.add_le_add_right ih 1

theorem layoutLength_le (rest : List Char) : layoutLength rest ≤ rest.length := by
  fun_induction layoutLength rest with
  | case1 => exact Nat.le_refl 0
  | case2 c rest hlayout ih => exact Nat.add_le_add_right ih 1
  | case3 rest hlayout ih =>
      have hcomment := commentLength_le rest
      rw [List.length_drop] at ih
      rw [List.length_cons]
      omega
  | case4 => exact Nat.zero_le _

namespace Quantifier

variable {rest : List Char} {q : Quantifier} {n : Nat}

theorem length_interval?_le (h : interval? rest = some (q, n)) : n ≤ rest.length := by
  unfold interval? at h
  dsimp only at h
  split at h
  · cases h
  · split at h
    · rename_i tail hdrop
      obtain ⟨-, rfl⟩ := Prod.mk.inj (Option.some.inj h)
      exact length_add_one_le_of_head? (c := '}') (by rw [hdrop, List.head?_cons])
    · rename_i tail hdrop
      split at h
      case isTrue hclose =>
        obtain ⟨-, rfl⟩ := Prod.mk.inj (Option.some.inj h)
        have hlength := congrArg List.length hdrop
        have hmore := length_add_one_le_of_head? hclose
        rw [List.length_drop, List.length_cons] at hlength
        omega
      case isFalse => cases h
    · cases h

theorem length_leading?_le (h : leading? rest = some (q, n)) : n ≤ rest.length := by
  unfold leading? at h
  split at h
  case h_4 rest =>
    obtain ⟨found, hfound, heq⟩ := Option.map_eq_some_iff.mp h
    obtain ⟨-, rfl⟩ := Prod.mk.inj heq
    exact Nat.add_le_add_right (length_interval?_le hfound) 1
  case h_5 => cases h
  all_goals
    obtain ⟨-, rfl⟩ := Prod.mk.inj (Option.some.inj h)
    exact Nat.le_add_left 1 _

theorem suffixLength_le (rest : List Char) : suffixLength rest ≤ rest.length := by
  unfold suffixLength
  split
  · exact Nat.le_add_left 1 _
  · exact Nat.le_add_left 1 _
  · exact Nat.zero_le _

/-- A quantifier ends inside the pattern. -/
theorem length_read_le {extended : Bool} {cursor : Cursor} {q : Option Quantifier}
    (h : read extended cursor = .ok (q, n)) : n ≤ cursor.rest.length := by
  have hlayout : (if extended then layoutLength cursor.rest else 0) ≤ cursor.rest.length := by
    split
    · exact layoutLength_le _
    · exact Nat.zero_le _
  unfold read at h
  dsimp only at h
  generalize (if extended then layoutLength cursor.rest else 0) = layout at h hlayout
  split at h
  · obtain ⟨-, rfl⟩ := Prod.mk.inj (Except.ok.inj h)
    exact hlayout
  case h_2 found m hleading =>
    split at h
    · cases h
    · split at h
      · cases h
      · obtain ⟨-, rfl⟩ := Prod.mk.inj (Except.ok.inj h)
        have hfront := length_leading?_le hleading
        have hsuffix := suffixLength_le ((cursor.advance layout).rest.drop m)
        rw [List.length_drop] at hsuffix
        rw [Cursor.rest_advance, List.length_drop] at hfront hsuffix
        rw [Cursor.rest_advance]
        omega

end Quantifier

/-! ## Escapes -/

namespace Escaped

variable {rest : List Char} {code n : Nat}

theorem length_leadingDigits_le (base limit : Nat) (rest : List Char) :
    (leadingDigits base limit rest).length ≤ rest.length :=
  (length_takeWhile_le _ _).trans (List.length_take_le' _ _)

theorem length_digits?_le {base limit : Nat} (h : digits? base limit rest = some (code, n)) :
    n ≤ rest.length := by
  unfold digits? at h
  dsimp only at h
  split at h
  · cases h
  · obtain ⟨-, rfl⟩ := Prod.mk.inj (Option.some.inj h)
    exact length_leadingDigits_le base limit rest

theorem length_braced?_le {base limit : Nat} (h : braced? base limit rest = some (code, n)) :
    n ≤ rest.length := by
  unfold braced? at h
  split at h
  case h_1 rest =>
    split at h
    case h_1 found m hdigits =>
      split at h
      case isTrue hclose =>
        obtain ⟨-, rfl⟩ := Prod.mk.inj (Option.some.inj h)
        exact Nat.add_le_add_right (length_add_one_le_of_head? hclose.1) 1
      case isFalse => cases h
    case h_2 => cases h
  case h_2 => cases h

theorem length_hex?_le (h : hex? rest = some (code, n)) : n ≤ rest.length := by
  unfold hex? at h
  split at h
  · exact length_braced?_le h
  · exact length_digits?_le h

theorem length_unicode_le (rest : List Char) : (unicode rest).2 ≤ rest.length := by
  unfold unicode
  split
  case h_1 found hdigits => exact length_digits?_le hdigits
  case h_2 => exact Nat.zero_le _

theorem length_control?_le (h : control? rest = some (code, n)) : n ≤ rest.length := by
  unfold control? at h
  split at h
  case h_1 c rest =>
    split at h
    · obtain ⟨-, rfl⟩ := Prod.mk.inj (Option.some.inj h)
      exact Nat.le_add_left 1 _
    · cases h
  case h_2 => cases h

theorem length_delimited?_le {closer : Char} (h : delimited? closer rest = some n) :
    n ≤ rest.length := by
  unfold delimited? at h
  split at h
  case h_1 m hfound =>
    obtain rfl := Option.some.inj h
    have hlt := (List.findIdx?_eq_some_iff_getElem.mp hfound).1
    rw [List.length_drop] at hlt
    omega
  case h_2 => cases h

theorem length_property?_le (h : property? rest = some n) : n ≤ rest.length := by
  unfold property? at h
  split at h
  · exact length_delimited?_le h
  · split at h
    · obtain rfl := Option.some.inj h
      exact Nat.le_add_left 1 _
    · cases h
  · cases h

theorem length_reference?_le {numeric : Bool} (h : reference? numeric rest = some n) :
    n ≤ rest.length := by
  unfold reference? at h
  split at h
  · exact length_delimited?_le h
  · exact length_delimited?_le h
  case h_3 c rest hbrace hangle =>
    dsimp only at h
    have hdigits := Nat.add_le_add_right (length_takeWhile_le Char.isDigit rest) 1
    split at h
    · exact length_delimited?_le h
    · split at h
      · split at h
        · exact Option.some.inj h ▸ hdigits
        · split at h
          · exact Option.some.inj h ▸ hdigits
          · cases h
      · cases h
  case h_4 => cases h

/-- A quotation stands where it is read, with what closes it if there is something. -/
theorem quotation_eq (rest : List Char) :
    (quotation rest).1 <+: rest ∧ (quotation rest).1.length ≤ (quotation rest).2 ∧
      (quotation rest).2 ≤ rest.length := by
  fun_induction quotation rest with
  | case1 => exact ⟨List.nil_prefix, Nat.le_refl 0, Nat.le_refl 0⟩
  | case2 rest =>
      refine ⟨List.nil_prefix, Nat.zero_le 2, ?_⟩
      rw [List.length_cons, List.length_cons]
      omega
  | case3 c rest hclose text n hread ih =>
      rw [hread] at ih
      exact ⟨List.cons_prefix_cons.mpr ⟨rfl, ih.1⟩, Nat.add_le_add_right ih.2.1 1,
        Nat.add_le_add_right ih.2.2 1⟩

theorem length_ofLetter?_le {c : Char} {atom : Atom} (h : ofLetter? c rest = some (atom, n)) :
    n ≤ rest.length := by
  have hcoded : ∀ {found : Option (Nat × Nat)}, found.map coded = some (atom, n) →
      (∀ code m, found = some (code, m) → m ≤ rest.length) → n ≤ rest.length := by
    intro found hmap hle
    obtain ⟨⟨code, m⟩, hfound, heq⟩ := Option.map_eq_some_iff.mp hmap
    exact (Prod.mk.inj heq).2 ▸ hle code m hfound
  have hgap : ∀ {found : Option Nat}, found.map (fun n => (Atom.gap, n)) = some (atom, n) →
      found = some n := by
    intro found hmap
    obtain ⟨m, hfound, heq⟩ := Option.map_eq_some_iff.mp hmap
    exact (Prod.mk.inj heq).2 ▸ hfound
  unfold ofLetter? at h
  split at h
  · exact length_property?_le (hgap h)
  · exact length_property?_le (hgap h)
  · obtain ⟨-, rfl⟩ := Prod.mk.inj (Option.some.inj h)
    exact (quotation_eq rest).2.2
  · obtain ⟨-, rfl⟩ := Prod.mk.inj (Option.some.inj h)
    exact Nat.zero_le _
  · exact hcoded h fun _ _ => length_control?_le
  · obtain ⟨-, rfl⟩ := Prod.mk.inj (Option.some.inj h)
    exact length_leadingDigits_le 8 2 rest
  · exact length_reference?_le (hgap h)
  · exact length_reference?_le (hgap h)
  · exact hcoded h fun _ _ => length_braced?_le
  · exact hcoded h fun _ _ => length_hex?_le
  · obtain ⟨-, rfl⟩ := Prod.mk.inj (Option.some.inj h)
    exact length_unicode_le rest
  · split at h
    · obtain ⟨-, rfl⟩ := Prod.mk.inj (Option.some.inj h)
      exact Nat.zero_le _
    · split at h
      · obtain ⟨-, rfl⟩ := Prod.mk.inj (Option.some.inj h)
        exact length_takeWhile_le _ _
      · obtain ⟨-, rfl⟩ := Prod.mk.inj (Option.some.inj h)
        exact Nat.zero_le _

theorem length_atom?_le {c : Char} {atom : Atom} (h : atom? c rest = some (atom, n)) :
    n ≤ rest.length := by
  rw [atom?] at h
  split at h
  · obtain ⟨-, rfl⟩ := Prod.mk.inj (Option.some.inj h)
    exact Nat.zero_le _
  · exact length_ofLetter?_le h

end Escaped

/-! ## Classes -/

namespace ClassMember

variable {rest : List Char} {member : ClassMember} {n : Nat}

theorem length_ofLetter?_le {c : Char} (h : ofLetter? c rest = some (member, n)) :
    n ≤ rest.length := by
  have hcoded : ∀ {found : Option (Nat × Nat)}, found.map coded = some (member, n) →
      (∀ code m, found = some (code, m) → m ≤ rest.length) → n ≤ rest.length := by
    intro found hmap hle
    obtain ⟨⟨code, m⟩, hfound, heq⟩ := Option.map_eq_some_iff.mp hmap
    exact (Prod.mk.inj heq).2 ▸ hle code m hfound
  have hwide : ∀ {found : Option Nat}, found.map (fun n => (wide, n)) = some (member, n) →
      found = some n := by
    intro found hmap
    obtain ⟨m, hfound, heq⟩ := Option.map_eq_some_iff.mp hmap
    exact (Prod.mk.inj heq).2 ▸ hfound
  have hnone : ∀ {found : ClassMember}, some (found, 0) = some (member, n) → n ≤ rest.length := by
    intro found heq
    exact (Prod.mk.inj (Option.some.inj heq)).2 ▸ Nat.zero_le _
  unfold ofLetter? at h
  split at h
  · exact hnone h
  · exact hcoded h fun _ _ => Escaped.length_control?_le
  · exact hcoded h fun _ _ => Escaped.length_hex?_le
  · exact hcoded h fun _ _ => Escaped.length_braced?_le
  · obtain ⟨-, rfl⟩ := Prod.mk.inj (Option.some.inj h)
    exact Escaped.length_unicode_le rest
  · exact Escaped.length_property?_le (hwide h)
  · exact Escaped.length_property?_le (hwide h)
  · exact hnone h
  · exact hnone h
  · exact hnone h
  · exact hnone h
  · obtain ⟨-, rfl⟩ := Prod.mk.inj (Option.some.inj h)
    exact (Escaped.quotation_eq rest).2.2
  · split at h
    · -- The letter is a digit itself, so one digit less is ahead.
      obtain ⟨-, rfl⟩ := Prod.mk.inj (Option.some.inj h)
      have hdigits := Escaped.length_leadingDigits_le 8 3 (c :: rest)
      rw [List.length_cons] at hdigits
      exact Nat.sub_le_of_le_add hdigits
    · exact hnone h

theorem length_ofEscape?_le {c : Char} (h : ofEscape? c rest = some (member, n)) :
    n ≤ rest.length := by
  rw [ofEscape?] at h
  split at h
  · obtain ⟨-, rfl⟩ := Prod.mk.inj (Option.some.inj h)
    exact Nat.zero_le _
  · exact length_ofLetter?_le h

theorem length_bracketName?_le {negated : Bool} {name : String}
    (h : bracketName? rest = some (negated, name, n)) : n ≤ rest.length := by
  unfold bracketName? at h
  split at h
  case h_1 rest =>
    dsimp only at h
    generalize (rest.head? == some '^') = hat at h
    generalize htail : (if hat = true then rest.drop 1 else rest) = tail at h
    split at h
    case isTrue hclose =>
      simp only [Option.some.injEq, Prod.mk.injEq] at h
      obtain ⟨-, -, rfl⟩ := h
      have hlength := congrArg List.length hclose
      rw [List.length_take, List.length_drop, List.length_cons, List.length_singleton] at hlength
      rw [List.length_cons]
      cases hat with
      | false =>
          rw [if_neg Bool.false_ne_true] at htail ⊢
          rw [htail]
          omega
      | true =>
          have hdropped := congrArg List.length htail
          rw [if_pos rfl, List.length_drop] at hdropped
          rw [if_pos rfl]
          omega
    case isFalse => cases h
  case h_2 => cases h

/-- A member ends inside the pattern, where its first character stands. -/
theorem length_read_lt {start : Nat} {cursor : Cursor} (h : read start cursor = .ok (member, n)) :
    n < cursor.rest.length := by
  unfold read at h
  split at h
  · cases h
  case h_2 offset rest =>
    split at h
    · obtain ⟨-, rfl⟩ := Prod.mk.inj (Except.ok.inj h)
      exact Nat.succ_pos _
    case h_2 hname =>
      split at h
      · cases h
      · obtain ⟨-, rfl⟩ := Prod.mk.inj (Except.ok.inj h)
        exact Nat.lt_succ_of_le (length_bracketName?_le hname)
  · cases h
  case h_4 offset c rest =>
    split at h
    · cases h
    case h_2 hescape =>
      obtain ⟨-, rfl⟩ := Prod.mk.inj (Except.ok.inj h)
      exact Nat.succ_lt_succ (Nat.lt_succ_of_le (length_ofEscape?_le hescape))
  · obtain ⟨-, rfl⟩ := Prod.mk.inj (Except.ok.inj h)
    exact Nat.succ_pos _

theorem length_readItem_lt {start : Nat} {cursor : Cursor}
    (h : readItem start cursor = .ok (member, n)) : n < cursor.rest.length := by
  unfold readItem at h
  cases hfirst : read start cursor with
  | error fault =>
      rw [hfirst] at h
      cases h
  | ok found =>
      obtain ⟨first, m⟩ := found
      have hm := length_read_lt hfirst
      rw [hfirst] at h
      cases first with
      | byte lo =>
          change (if startsRange (cursor.advance (m + 1)).rest = true then _ else _) = _ at h
          split at h
          case isTrue hrange =>
            cases hlast : read start ((cursor.advance (m + 1)).advance 1) with
            | error fault =>
                rw [hlast] at h
                cases h
            | ok found =>
                obtain ⟨last, k⟩ := found
                have hk := length_read_lt hlast
                rw [hlast] at h
                cases hitem : range lo (cursor.advance (m + 1)).offset last with
                | error fault =>
                    change (range lo (cursor.advance (m + 1)).offset last >>= _) = _ at h
                    rw [hitem] at h
                    cases h
                | ok item =>
                    change (range lo (cursor.advance (m + 1)).offset last >>= _) = _ at h
                    rw [hitem] at h
                    obtain ⟨-, rfl⟩ := Prod.mk.inj (Except.ok.inj h)
                    simp only [Cursor.rest_advance, List.length_drop] at hk
                    omega
          case isFalse =>
            obtain ⟨-, rfl⟩ := Prod.mk.inj (Except.ok.inj h)
            exact hm
      | _ =>
          obtain ⟨-, rfl⟩ := Prod.mk.inj (Except.ok.inj h)
          exact hm

end ClassMember

theorem ClassContent.length_readFrom_le {start : Nat} {first : Bool} {content found : ClassContent}
    {cursor : Cursor} {n : Nat} (h : readFrom start first content cursor = .ok (found, n)) :
    n ≤ cursor.rest.length := by
  fun_induction readFrom start first content cursor generalizing found n with
  | case1 => cases h
  | case2 first content offset c rest hclose =>
      obtain ⟨-, rfl⟩ := Prod.mk.inj (Except.ok.inj h)
      exact Nat.le_add_left 1 _
  | case3 => cases h
  | case4 => cases h
  | case5 first content offset c rest hclose item m hitem last k hlast ih =>
      obtain ⟨-, rfl⟩ := Prod.mk.inj (Except.ok.inj h)
      have hm := ClassMember.length_readItem_lt hitem
      have hk := ih hlast
      rw [Cursor.rest_advance, List.length_drop] at hk
      omega

theorem length_readClass_le {offset : Nat} {rest : List Char} {atom : Atom} {n : Nat}
    (h : readClass ⟨offset, '[' :: rest⟩ = .ok (atom, n)) : n ≤ rest.length := by
  unfold readClass at h
  dsimp only [Cursor.rest_advance, List.drop_one, List.tail_cons] at h
  have hhat : (if (rest.head? == some '^') = true then 1 else 0) ≤ rest.length := by
    cases rest with
    | nil => exact Nat.le_refl 0
    | cons c rest =>
        split
        · exact Nat.le_add_left 1 _
        · exact Nat.zero_le _
  generalize hread : ClassContent.readFrom offset true .empty _ = read at h
  cases read with
  | error fault => cases h
  | ok found =>
      obtain ⟨content, m⟩ := found
      have hn : (if (rest.head? == some '^') = true then 1 else 0) + m = n :=
        (Prod.mk.inj (Except.ok.inj h)).2
      have hm := ClassContent.length_readFrom_le hread
      simp only [Cursor.rest_advance, List.drop_one, List.tail_cons, List.length_drop] at hm
      omega

/-! ## Groups -/

namespace Opener

variable {rest : List Char} {opener : Opener} {n : Nat}

theorem length_name?_le {closer : Char} (h : name? closer rest = some n) : n ≤ rest.length := by
  unfold name? at h
  dsimp only at h
  split at h
  case isTrue hclose =>
    obtain rfl := Option.some.inj h
    exact length_add_one_le_of_head? hclose.2
  case isFalse => cases h

theorem length_closeLength?_le (h : closeLength? rest = some n) : n ≤ rest.length := by
  obtain ⟨m, hfound, rfl⟩ := Option.map_eq_some_iff.mp h
  exact (List.findIdx?_eq_some_iff_getElem.mp hfound).1

theorem length_balancedLength?_le {inClass : Bool} {depth : Nat}
    (h : balancedLength? inClass depth rest = some n) : n ≤ rest.length := by
  fun_induction balancedLength? inClass depth rest generalizing n with
  | case1 => cases h
  | case2 => cases h
  | case10 =>
      obtain rfl := Option.some.inj h
      exact Nat.le_add_left 1 _
  | _ =>
      rename_i ih
      obtain ⟨m, hfound, rfl⟩ := Option.map_eq_some_iff.mp h
      have hm := ih hfound
      simp only [List.length_cons]
      omega

theorem length_skipTo_le {before m : Nat} {found : Option Nat} {other : Opener}
    (h : skipTo other before found = .ok (opener, n))
    (hle : ∀ k, found = some k → k ≤ m) : n ≤ before + m := by
  cases found with
  | none => cases h
  | some k =>
      obtain ⟨-, rfl⟩ := Prod.mk.inj (Except.ok.inj h)
      exact Nat.add_le_add_left (hle k rfl) before

theorem length_named_le {flags : Flags} {before m : Nat} {found : Option Nat}
    (h : named flags before found = .ok (opener, n)) (hle : ∀ k, found = some k → k ≤ m) :
    n ≤ before + m := by
  cases found with
  | none => cases h
  | some k =>
      obtain ⟨-, rfl⟩ := Prod.mk.inj (Except.ok.inj h)
      exact Nat.add_le_add_left (hle k rfl) before

theorem ok_of_map {kind : Except FaultKind (Opener × Nat)}
    (h : kind.map (fun (opener, n) => (opener, n + 1)) = .ok (opener, n)) :
    ∃ m, kind = .ok (opener, m) ∧ n = m + 1 := by
  cases kind with
  | error kind => cases h
  | ok found =>
      obtain ⟨rfl, rfl⟩ := Prod.mk.inj (Except.ok.inj h)
      exact ⟨_, rfl, rfl⟩

theorem length_readOptions_le {on : Bool} {flags : Flags}
    (h : readOptions on flags rest = .ok (opener, n)) : n ≤ rest.length := by
  fun_induction readOptions on flags rest generalizing n with
  | case1 => cases h
  | case2 on flags rest =>
      obtain ⟨-, rfl⟩ := Prod.mk.inj (Except.ok.inj h)
      exact Nat.le_add_left 1 _
  | case3 on flags rest =>
      obtain ⟨-, rfl⟩ := Prod.mk.inj (Except.ok.inj h)
      exact Nat.le_add_left 1 _
  | case4 => cases h
  | case5 on flags c rest hclose hcolon next =>
      rename_i ih
      obtain ⟨m, hread, rfl⟩ := ok_of_map h
      exact Nat.add_le_add_right (ih hread) 1

theorem length_readSpecial_le {flags : Flags} (h : readSpecial flags rest = .ok (opener, n)) :
    n ≤ rest.length := by
  unfold readSpecial at h
  split at h
  · cases h
  case h_2 rest =>
    exact (length_skipTo_le h fun _ => length_closeLength?_le).trans_eq (Nat.add_comm _ _)
  · obtain ⟨-, rfl⟩ := Prod.mk.inj (Except.ok.inj h)
    exact Nat.le_add_left 2 _
  · obtain ⟨-, rfl⟩ := Prod.mk.inj (Except.ok.inj h)
    exact Nat.le_add_left 2 _
  case h_5 rest _ _ =>
    exact (length_named_le h fun _ => length_name?_le).trans_eq (Nat.add_comm _ _)
  case h_6 rest =>
    exact (length_named_le h fun _ => length_name?_le).trans_eq (Nat.add_comm _ _)
  case h_7 rest =>
    exact (length_skipTo_le h fun _ => length_closeLength?_le).trans_eq (Nat.add_comm _ _)
  case h_8 rest =>
    exact (length_skipTo_le h fun _ => length_closeLength?_le).trans_eq (Nat.add_comm _ _)
  · cases h
  case h_10 rest =>
    exact (length_skipTo_le h fun _ => length_balancedLength?_le).trans_eq (Nat.add_comm _ _)
  case h_11 c rest _ _ _ _ _ _ _ _ _ =>
    have hone : 1 ≤ (c :: rest).length := Nat.le_add_left 1 _
    have hskip : ∀ {other : Opener}, skipTo other 1 (closeLength? rest) = .ok (opener, n) →
        n ≤ (c :: rest).length := by
      intro other hskip
      exact (length_skipTo_le hskip fun _ => length_closeLength?_le).trans_eq (Nat.add_comm _ _)
    split at h
    · exact (Prod.mk.inj (Except.ok.inj h)).2 ▸ hone
    · split at h
      · exact (Prod.mk.inj (Except.ok.inj h)).2 ▸ hone
      · split at h
        · exact (length_named_le h fun _ => length_name?_le).trans_eq (Nat.add_comm _ _)
        · split at h
          · exact hskip h
          · split at h
            · exact hskip h
            · exact length_readOptions_le h

theorem length_read_le {flags : Flags} (h : read flags rest = .ok (opener, n)) :
    n ≤ rest.length := by
  unfold read at h
  split at h
  case h_1 c rest =>
    split at h
    · exact (length_skipTo_le h fun _ => length_closeLength?_le).trans_eq (Nat.add_comm _ _)
    · cases h
  · cases h
  case h_3 rest =>
    obtain ⟨m, hread, rfl⟩ := ok_of_map h
    exact Nat.add_le_add_right (length_readSpecial_le hread) 1
  · obtain ⟨-, rfl⟩ := Prod.mk.inj (Except.ok.inj h)
    exact Nat.zero_le _

end Opener

/-! ## Lexemes -/

/-- A lexeme ends inside the pattern. -/
theorem Lexeme.length_read_le {flags : Flags} {offset : Nat} {c : Char} {rest : List Char}
    {lexeme : Lexeme} {n : Nat} (h : read flags offset c rest = .ok (lexeme, n)) :
    n ≤ rest.length := by
  have hnone : ∀ {found : Lexeme}, (Except.ok (found, 0) : Except Fault _) = .ok (lexeme, n) →
      n ≤ rest.length :=
    fun heq => (Prod.mk.inj (Except.ok.inj heq)).2 ▸ Nat.zero_le _
  unfold Lexeme.read at h
  split at h
  · exact hnone h
  · exact hnone h
  · split at h
    · cases h
    · split at h
      · cases h
      case h_2 hescape =>
        obtain ⟨-, rfl⟩ := Prod.mk.inj (Except.ok.inj h)
        exact Nat.add_le_add_right (Escaped.length_atom?_le hescape) 1
  · split at h
    · cases h
    case h_2 hopener =>
      obtain ⟨-, rfl⟩ := Prod.mk.inj (Except.ok.inj h)
      exact Opener.length_read_le hopener
  · split at h
    · cases h
    case h_2 hclass =>
      obtain ⟨-, rfl⟩ := Prod.mk.inj (Except.ok.inj h)
      exact length_readClass_le hclass
  · exact hnone h
  · exact hnone h
  · exact hnone h
  · split at h
    · cases h
    · split at h
      · exact hnone h
      · split at h
        · obtain ⟨-, rfl⟩ := Prod.mk.inj (Except.ok.inj h)
          exact commentLength_le rest
        · exact hnone h

end LiteralSieve
