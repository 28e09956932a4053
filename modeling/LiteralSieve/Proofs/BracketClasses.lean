import LiteralSieve.Pattern.Tree
import LiteralSieve.Proofs.Pattern.Characters
import LiteralSieve.Proofs.Pattern.Induction
import LiteralSieve.Proofs.Pattern.ReadPaths

namespace LiteralSieve

/-!
# Trees of bracket classes

A class in brackets stands for a set of bytes, which its items and the groups around it determine.
The tree shows that set: one literal or a choice of literals where the members can be spelled out,
and a gap otherwise. A range whose ends are in the wrong order is at fault, and the first one is
found.
-/

open Node

namespace Grammar

/-! ## Classes as they are written -/

/-- How an ASCII byte is written in a class. -/
inductive SpellsByte (b : UInt8) : List Char → Prop
  | raw (h : Byte.isAlphanum b = true) : SpellsByte b [Byte.toChar b]
  | code {digits : Bytes} (hascii : Byte.isAscii b = true) (h : Numeral 16 b.toNat digits)
      (hlength : digits.length = 2) : SpellsByte b ('\\' :: 'x' :: digitChars digits)

structure WrittenByte where
  byte : UInt8
  text : List Char
  spells : SpellsByte byte text

inductive ListedItem where
  | byte (b : WrittenByte)
  | range (lo hi : WrittenByte)
  | escaped (negated : Bool) (set : EscapedSet)
  | named (negated : Bool) (set : NamedSet)

namespace ListedItem

def text : ListedItem → List Char
  | byte b => b.text
  | range lo hi => lo.text ++ '-' :: hi.text
  | escaped negated set => set.text negated
  | named negated set => set.text negated

def isMember (b : UInt8) : ListedItem → Bool
  | byte c => c.byte == b
  | range lo hi => lo.byte ≤ b && b ≤ hi.byte
  | escaped negated set => set.isMember b != negated
  | named negated set => set.isMember b != negated

/-- Only the ends of a range can be in the wrong order. -/
def Ordered : ListedItem → Prop
  | range lo hi => lo.byte ≤ hi.byte
  | _ => True

end ListedItem

/-- The items of a class, which may be negated as a whole. -/
structure ListedClass where
  negated : Bool
  items : List ListedItem
  ne_nil : items ≠ []

namespace ListedClass

def text (c : ListedClass) : List Char :=
  '[' :: hat c.negated ++ c.items.flatMap ListedItem.text ++ [']']

def isMember (c : ListedClass) (b : UInt8) : Bool :=
  c.items.any (ListedItem.isMember b) != c.negated

/-- The bytes of the class in ascending order; `closed` adds the other case of every letter. -/
def members (closed : Bool) (c : ListedClass) : Bytes :=
  Byte.all.filter fun b =>
    c.isMember b || (closed && Byte.isAlpha b && c.isMember (Byte.flipCase b))

end ListedClass

/-- The text in groups with these openings, the outermost first. -/
def nest : List Opening → List Char → List Char
  | [], text => text
  | opening :: openings, text => opening.text ++ nest openings text ++ [')']

/-! ## Items that are read -/

variable {b lo hi : UInt8} {text : List Char} {start offset : Nat} {rest : List Char}

theorem toChar_of_isAlphanum (h : Byte.isAlphanum b = true) :
    Byte.toChar b ∉ ['[', '\\', '^', '-', ']'] ∧ (Byte.toChar b).toNat = b.toNat ∧
      b.toNat < 0x80 := by
  have hall := Byte.forall_of_all
    (fun b => Byte.isAlphanum b = true → Byte.toChar b ∉ ['[', '\\', '^', '-', ']'] ∧
      (Byte.toChar b).toNat = b.toNat ∧ b.toNat < 0x80)
    (by decide +kernel)
  exact hall b h

theorem ofCode_toNat (h : b.toNat < 0x80) : ClassMember.ofCode b.toNat = .byte b := by
  rw [ClassMember.ofCode, if_pos h, UInt8.ofNat_toNat]

theorem SpellsByte.readsByte (h : SpellsByte b text) : ReadsByte b text := by
  cases h with
  | raw h =>
      obtain ⟨hsigns, hvalue, hlt⟩ := toChar_of_isAlphanum h
      simp only [List.mem_cons, List.not_mem_nil, or_false, not_or] at hsigns
      obtain ⟨hbracket, hbackslash, hhat, hdash, hclose⟩ := hsigns
      refine ⟨⟨Byte.toChar b, [], rfl, by simp [hhat, hdash, hclose]⟩, fun start offset rest => ?_⟩
      rw [List.singleton_append]
      unfold ClassMember.read
      split
      case h_5 heq =>
        obtain ⟨rfl, -⟩ := List.cons.inj (Cursor.mk.inj heq).2
        rw [hvalue, ofCode_toNat hlt]
        rfl
      all_goals simp_all
  | @code digits hascii h hlength =>
      refine ⟨⟨'\\', _, rfl, by decide⟩, fun start offset rest => ?_⟩
      have hlt : b.toNat < 0x80 := UInt8.lt_iff_toNat_lt.mp (of_decide_eq_true hascii)
      have hescape : ClassMember.ofEscape? 'x' (digitChars digits ++ rest) =
          some (.byte b, digits.length) := by
        change (Escaped.hex? _).map ClassMember.coded = _
        rw [h.hex?_digitChars (hlt.le.trans (by decide)) hlength, Option.map_some,
          ClassMember.coded, ofCode_toNat hlt]
      rw [List.cons_append, List.cons_append, ClassMember.read, hescape]
      simp [length_digitChars]

theorem ListedItem.exists_readItem (item : ListedItem) (h : item.Ordered) :
    ∃ read : ReadItem, read.text = item.text ∧ ∀ b, read.member.has b = item.isMember b := by
  cases item with
  | byte c =>
      have hreads := c.spells.readsByte
      exact ⟨⟨c.text, .byte c.byte, rfl, hreads.text_eq_cons,
        fun start offset _ hrest => hreads.readItem hrest⟩, rfl, fun b => rfl⟩
  | range lo hi =>
      have hlo := lo.spells.readsByte
      have hhi := hi.spells.readsByte
      have hfirst : ∃ first tail, lo.text ++ '-' :: hi.text = first :: tail ∧
          first ∉ ['^', '-', ']'] := by
        obtain ⟨first, tail, htext, hfirst⟩ := hlo.text_eq_cons
        exact ⟨first, tail ++ '-' :: hi.text, by rw [htext, List.cons_append], hfirst⟩
      refine ⟨⟨lo.text ++ '-' :: hi.text, .set (ByteSet.empty.insertRange lo.byte hi.byte), rfl,
        hfirst, fun start offset rest _ => ?_⟩, rfl, fun b => ?_⟩
      · have hrange : ClassMember.range lo.byte (offset + width lo.text) (.byte hi.byte) =
            .ok (.set (ByteSet.empty.insertRange lo.byte hi.byte)) := if_pos h
        rw [List.append_assoc, List.cons_append, hlo.readItem_range hhi, hrange]
        simp [Except.map]
      · simp [ClassMember.has, ByteSet.contains_insertRange, isMember]
  | escaped negated set =>
      exact ⟨(SetItem.escaped negated set).asRead, rfl, contains_signedSet negated set.isMember⟩
  | named negated set =>
      exact ⟨(SetItem.named negated set).asRead, rfl, contains_signedSet negated set.isMember⟩

theorem exists_readItems {items : List ListedItem} (h : ∀ item ∈ items, item.Ordered) :
    ∃ read : List ReadItem, read.flatMap (·.text) = items.flatMap ListedItem.text ∧
      (read = [] → items = []) ∧
      ∀ b, read.any (·.member.has b) = items.any (ListedItem.isMember b) := by
  induction items with
  | nil => exact ⟨[], rfl, fun _ => rfl, fun b => rfl⟩
  | cons item items ih =>
      obtain ⟨hitem, hitems⟩ := List.forall_mem_cons.mp h
      obtain ⟨first, htext, hmember⟩ := item.exists_readItem hitem
      obtain ⟨read, htexts, -, hmembers⟩ := ih hitems
      refine ⟨first :: read, ?_, fun hnil => absurd hnil (List.cons_ne_nil _ _), fun b => ?_⟩
      · rw [List.flatMap_cons, List.flatMap_cons, htext, htexts]
      · rw [List.any_cons, List.any_cons, hmember, hmembers]

theorem ReadsByte.readItem_reversed {loText hiText : List Char} (hlo : ReadsByte lo loText)
    (hhi : ReadsByte hi hiText) (hlt : hi < lo) (start offset : Nat) (rest : List Char) :
    ClassMember.readItem start ⟨offset, loText ++ '-' :: (hiText ++ rest)⟩ =
      .error ⟨.invalidRange, offset + width loText⟩ := by
  rw [hlo.readItem_range hhi, ClassMember.range, if_neg (UInt8.not_le.mpr hlt)]
  rfl

/-- Where an item is at fault, the class is. -/
theorem readFrom_of_error {fault : Fault} (first : Bool) (content : ClassContent)
    {c : Char} {tail : List Char} (htext : text = c :: tail) (hclose : c ≠ ']')
    (h : ClassMember.readItem start ⟨offset, text⟩ = .error fault) :
    ClassContent.readFrom start first content ⟨offset, text⟩ = .error fault := by
  subst htext
  rw [ClassContent.readFrom, if_neg (fun hboth => hclose hboth.1), h]

namespace ListedClass

/-- A class whose ranges are in order is read as the set of its members. -/
theorem exists_readClass (c : ListedClass) (h : ∀ item ∈ c.items, item.Ordered) :
    ∃ s : ByteSet, (∀ b, s.contains b = c.isMember b) ∧
      ∀ offset rest, readClass ⟨offset, c.text ++ rest⟩ = .ok (.set s, c.text.length - 1) := by
  obtain ⟨read, htexts, hnil, hmembers⟩ := exists_readItems h
  have hne : read ≠ [] := fun hread => c.ne_nil (hnil hread)
  have htext : c.text = bracketText c.negated read := by rw [text, bracketText, htexts]
  refine ⟨bracketMembers c.negated read, fun b => ?_, fun offset rest => ?_⟩
  · rw [contains_bracketMembers, hmembers, isMember]
  · rw [htext]
    exact readClass_bracketText c.negated hne

theorem readsAs (c : ListedClass) {s : ByteSet}
    (h : ∀ offset rest, readClass ⟨offset, c.text ++ rest⟩ = .ok (.set s, c.text.length - 1))
    (flags : Flags) (rest : List Char) : ReadsAs flags c.text (.atom (.set s)) rest := by
  refine ⟨'[', c.text.tail, rfl, fun offset => ?_⟩
  have hread : readClass ⟨offset, '[' :: (c.text.tail ++ rest)⟩ =
      .ok (.set s, c.text.tail.length) := h offset rest
  rw [Lexeme.read, hread]

/-- The first range that is not in order is at fault, and shown at its dash. -/
theorem readClass_error (c : ListedClass) {before after : List ListedItem} {lo hi : WrittenByte}
    (hitems : c.items = before ++ .range lo hi :: after) (hbefore : ∀ item ∈ before, item.Ordered)
    (hlt : hi.byte < lo.byte) (offset : Nat) (rest : List Char) :
    readClass ⟨offset, c.text ++ rest⟩ = .error ⟨.invalidRange, offset +
      width ('[' :: hat c.negated ++ before.flatMap ListedItem.text ++ lo.text)⟩ := by
  obtain ⟨read, htexts, -, -⟩ := exists_readItems hbefore
  have hlo := lo.spells.readsByte
  have hhi := hi.spells.readsByte
  obtain ⟨first, tail, hfirst, hsign⟩ := hlo.text_eq_cons
  let later := after.flatMap ListedItem.text ++ ']' :: rest
  have htext : c.text ++ rest = '[' ::
      (hat c.negated ++ (read.flatMap (·.text) ++ (lo.text ++ '-' :: (hi.text ++ later)))) := by
    rw [htexts, text, hitems]
    simp [ListedItem.text, later]
  have hinside : Cursor.advance ⟨offset, c.text ++ rest⟩ 1 = ⟨offset + width ['['],
      hat c.negated ++ (read.flatMap (·.text) ++ (lo.text ++ '-' :: (hi.text ++ later)))⟩ := by
    rw [htext]
    exact Cursor.advance_append offset ['['] _
  have hhead : ∀ {sign}, sign ∈ ['^', '-', ']'] →
      (lo.text ++ '-' :: (hi.text ++ later)).head? ≠ some sign := by
    intro sign hmem heq
    rw [hfirst] at heq
    exact hsign (Option.some.inj heq ▸ hmem)
  have hstart : lo.text ++ '-' :: (hi.text ++ later) =
      first :: (tail ++ '-' :: (hi.text ++ later)) := by rw [hfirst, List.cons_append]
  have hclose : first ≠ ']' := by
    rintro rfl
    exact hsign (by decide)
  have hhat : (read.flatMap (·.text) ++ (lo.text ++ '-' :: (hi.text ++ later))).head? ≠
      some '^' := head?_items read (by decide) (hhead (by decide))
  rw [readClass, hinside]
  dsimp only
  rw [head?_hat c.negated hhat, ← length_hat, Cursor.advance_append,
    readFrom_items read _ _ (hhead (by decide)),
    readFrom_of_error _ _ hstart hclose (hlo.readItem_reversed hhi hlt _ _ _)]
  simp only [Except.map, bind, Except.bind, width_append, width_cons, htexts, List.cons_append,
    width_nil, Nat.add_assoc, Nat.zero_add]

end ListedClass

end Grammar

open Grammar

/-! ## What a class leaves in a tree -/

namespace Node

/-- One literal for each byte. -/
def byteLeaves (members : Bytes) (source : Extent) : List Node :=
  members.map fun b => .literal [b] source

/-- The node shows this set: by its only member if that is ASCII, by all members if there are more,
all of them ASCII, and sets are expanded, and by a gap otherwise. -/
inductive ShowsSet (expansion : Bool) : Bytes → Node → Prop
  | one {b : UInt8} {source : Extent} (hascii : Byte.isAscii b = true) :
      ShowsSet expansion [b] (.literal [b] source)
  | each {members : Bytes} {inner source : Extent} (hexpansion : expansion = true)
      (hlength : 2 ≤ members.length) (hascii : ∀ b ∈ members, Byte.isAscii b = true) :
      ShowsSet expansion members (.choice (byteLeaves members inner) false source)
  | none {members : Bytes} {source : Extent}
      (hone : ∀ b, members = [b] → Byte.isAscii b = false)
      (heach : ¬(expansion = true ∧ 2 ≤ members.length ∧ ∀ b ∈ members, Byte.isAscii b = true)) :
      ShowsSet expansion members (.gap source)

variable {expansion : Bool} {members : Bytes} {node : Node} {source : Extent}

theorem length_byteLeaves (members : Bytes) (source : Extent) :
    (byteLeaves members source).length = members.length := List.length_map _

theorem adjustChoice_byteLeaves (members : Bytes) (source : Extent) :
    adjustChoice (byteLeaves members source) = byteLeaves members source := by
  rw [adjustChoice_eq_flatMap, byteLeaves, List.flatMap_map, List.map_eq_flatMap]
  rfl

theorem markAll_byteLeaves (members : Bytes) (source : Extent) :
    markAll (byteLeaves members source) = byteLeaves members source := by
  rw [markAll_eq_map, byteLeaves, List.map_map]
  rfl

theorem mergeAll_byteLeaves (members : Bytes) (source : Extent) :
    mergeAll (byteLeaves members source) = byteLeaves members source := by
  rw [mergeAll_eq_map, byteLeaves, List.map_map]
  rfl

theorem anyHollow_byteLeaves (members : Bytes) (source : Extent) :
    anyHollow (byteLeaves members source) = false := by
  apply Bool.eq_false_iff.mpr
  intro hany
  obtain ⟨leaf, hmem, hhollow⟩ := anyHollow_iff.mp hany
  obtain ⟨b, -, rfl⟩ := List.mem_map.mp hmem
  cases hhollow

/-- Two or more nodes in a choice stay one. -/
theorem ofChoice_of_two_le {disabled : Bool} {nodes : List Node} (h : 2 ≤ nodes.length) :
    ofChoice disabled source nodes = choice nodes disabled source := by
  match nodes, h with
  | _ :: _ :: _, _ => rfl

namespace ShowsSet

/-- Simplifying leaves a shown set as it is. -/
theorem mergeLiterals_mark (h : ShowsSet expansion members node) :
    ShowsSet expansion members node.mark.mergeLiterals := by
  cases h with
  | one hascii => exact .one hascii
  | none hone heach => exact .none hone heach
  | each hexpansion hlength hascii =>
      rw [mark, mergeLiterals, isHollow, anyHollow_byteLeaves, markAll_byteLeaves,
        mergeAll_byteLeaves]
      exact .each hexpansion hlength hascii

/-- The wrappers of a group go, and the set is shown in its place. -/
theorem adjust_wrapped (h : ShowsSet expansion members node.adjust) (inner outer : Extent) :
    ShowsSet expansion members (choice [sequence [node] false inner] false outer).adjust := by
  have hadjust : (choice [sequence [node] false inner] false outer).adjust =
      ofChoice false outer (ofSequence false inner node.adjust.sequenceItems).choiceItems := by
    simp only [adjust, adjustChoice, adjustSequence, List.append_nil]
  rw [hadjust]
  generalize node.adjust = adjusted at h ⊢
  cases h with
  | one hascii => exact .one hascii
  | none hone heach => exact .none hone heach
  | @each _ leaves source hexpansion hlength hascii =>
      change ShowsSet _ _ (ofChoice false outer (byteLeaves members leaves))
      rw [ofChoice_of_two_le ((length_byteLeaves members leaves).symm ▸ hlength)]
      exact .each hexpansion hlength hascii

end ShowsSet

/-- A set with no literal of its own is spelled out or a gap. -/
theorem showsSet_node (expansion : Bool) (s : ByteSet) (source : Extent)
    (hone : ∀ b, s.toList = [b] → Byte.isAscii b = false) :
    ShowsSet expansion s.toList (s.node expansion source).adjust := by
  rw [ByteSet.node, ByteSet.isEmpty_eq, ByteSet.isAscii_eq]
  split
  case isTrue hgap =>
    apply ShowsSet.none hone
    rintro ⟨rfl, hlength, hascii⟩
    obtain hempty | ⟨b, hb, hwide⟩ : s.toList = [] ∨ ∃ b ∈ s.toList, Byte.isAscii b = false := by
      simpa using hgap
    · rw [hempty] at hlength
      cases hlength
    · exact Bool.eq_false_iff.mp hwide (hascii b hb)
  case isFalse hspelled =>
    obtain ⟨⟨rfl, hne⟩, hascii⟩ : (expansion = true ∧ s.toList ≠ []) ∧
        ∀ b ∈ s.toList, Byte.isAscii b = true := by simpa using hspelled
    have hmany : s.toList.length ≠ 1 := by
      intro hsingle
      obtain ⟨b, hlist⟩ := List.length_eq_one_iff.mp hsingle
      have hb : Byte.isAscii b = true := hascii b (hlist ▸ List.mem_singleton_self b)
      exact Bool.eq_false_iff.mp (hone b hlist) hb
    have hlength : 2 ≤ s.toList.length := by
      have hpos := List.length_pos_iff.mpr hne
      omega
    have hleaves : adjustChoice (s.toList.map fun b => literal [b] source) =
        byteLeaves s.toList source := adjustChoice_byteLeaves _ _
    rw [adjust, hleaves, ofChoice_of_two_le ((length_byteLeaves _ _).symm ▸ hlength)]
    exact .each rfl hlength hascii

/-- The node of a set without a quantifier shows it. -/
theorem showsSet_toNode (expansion : Bool) (s : ByteSet) (source : Extent) :
    ShowsSet expansion s.toList ((Atom.set s).toNode expansion source).adjust := by
  rw [Atom.toNode]
  split
  case h_1 b hliteral =>
    obtain ⟨hlist, hascii⟩ := ByteSet.literal?_eq_some_iff.mp hliteral
    rw [hlist]
    exact .one hascii
  case h_2 hliteral =>
    apply showsSet_node
    intro b hlist
    apply Bool.eq_false_iff.mpr
    intro hascii
    have hsome : s.literal? = some b := ByteSet.literal?_eq_some_iff.mpr ⟨hlist, hascii⟩
    rw [hliteral] at hsome
    cases hsome

end Node

/-! ## Reading a class in its groups -/

theorem Draft.flush_add_set (expansion : Bool) (made : Nat) (s : ByteSet) (source : Extent)
    (stop : Nat) :
    ((Draft.start made).add expansion none (.set s) source stop).flush.nodes =
      [(Atom.set s).toNode expansion source] := by
  change (Draft.addOnce _ _ _ _).flush.nodes = _
  rw [Draft.addOnce, Atom.toNode]
  split
  · rfl
  · rw [Draft.flush_push]
    rfl

/-- Under options a set stays a set, with the other cases of its letters if they count. -/
theorem Atom.exists_under_set (reading : Reading) (scope : Bool) {s : ByteSet}
    {isMember : UInt8 → Bool} (h : ∀ b, s.contains b = isMember b) :
    ∃ t : ByteSet, (Atom.set s).under ⟨false, scope⟩ reading.caseSensitive = .set t ∧
      t.toList = Byte.all.filter fun b => isMember b ||
        (scope && reading.caseSensitive && Byte.isAlpha b && isMember (Byte.flipCase b)) := by
  have hvalue : ((Atom.set s).under ⟨false, scope⟩ reading.caseSensitive).HasValue _ :=
    Atom.hasValue_set_under reading scope h
  generalize hatom : (Atom.set s).under ⟨false, scope⟩ reading.caseSensitive = atom at hvalue
  generalize hset : Value.ofSet reading scope isMember = value at hvalue
  cases hvalue with
  | set t => exact ⟨t, rfl, (Value.oneOf.inj hset).symm⟩
  | _ => cases hset

theorem unquantified_nest (openings : List Opening) {text rest : List Char}
    (h : Unquantified (text ++ rest)) : Unquantified (nest openings text ++ rest) := by
  cases openings with
  | nil => exact h
  | cons opening openings => cases opening <;> exact unquantified_cons (by decide)

namespace ParserState

variable {reading : Reading} {offset : Nat} {rest : List Char} {scope : Bool} {state : ParserState}

/-- The state inside a group that opens at an offset and whose contents start at another. -/
def inGroup (state : ParserState) (opening start : Nat) (flags : Flags) : ParserState :=
  ⟨flags, .fresh start state.level.made, ⟨opening, false, state.flags, state.level⟩ :: state.outer⟩

/-- The outermost group is opened first. -/
theorem run_nest_cons {opening : Opening} {openings : List Opening} {text : List Char}
    (htext : Unquantified (text ++ ')' :: rest)) (hflags : state.flags = ⟨false, scope⟩)
    (hdepth : state.outer.length < maxDepth) :
    run reading state ⟨offset, nest (opening :: openings) text ++ rest⟩ =
      run reading (state.inGroup offset (offset + width opening.text) ⟨false, opening.scope scope⟩)
        ⟨offset + width opening.text, nest openings text ++ ')' :: rest⟩ := by
  have hreads : ReadsAs state.flags opening.text (.body false ⟨false, opening.scope scope⟩)
      (nest openings text ++ ')' :: rest) :=
    hflags ▸ readsAs_groupOpening opening (unquantified_nest openings htext)
  have hnest : nest (opening :: openings) text ++ rest =
      opening.text ++ (nest openings text ++ ')' :: rest) := by
    simp [nest]
  rw [hnest]
  exact run_open_of_lt hreads hdepth

/-- A group that is closed before anything else is read around it is the only node there. -/
theorem run_close_only {inside : ParserState} {draft : Draft} {node : Node} {made start stop : Nat}
    {flags : Flags} (hrest : Unquantified rest) (hplain : state.flags.extended = false)
    (hdraft : state.level.draft = .start made) (hnodes : draft.flush.nodes = [node])
    (hinside : inside = (state.inGroup offset start flags).withDraft draft) :
    ∃ next last, run reading inside ⟨stop, ')' :: rest⟩ =
        run reading (state.withDraft next) ⟨last, rest⟩ ∧
      next.flush.nodes = [.choice [.sequence [node] false ⟨start, stop⟩] false ⟨start, stop⟩] := by
  subst hinside
  let inside := (state.inGroup offset start flags).withDraft draft
  let around := state.withDraft { state.level.draft with made := inside.level.madeAtEnd }
  have hclose : step reading inside ⟨stop, ')' :: rest⟩ =
      addAtom reading around offset (.node (inside.level.node stop)) ⟨stop + width [')'], rest⟩ :=
    step_close rfl
  have haround : around.flags.extended = false := hplain
  rw [addAtom_bare haround (Quantifier.starts_of_unquantified hrest)] at hclose
  refine ⟨_, _, run_of_next hclose, ?_⟩
  change (Draft.add _ { state.level.draft with made := _ } _ _ _ _).flush.nodes = _
  rw [hdraft, ← hnodes]
  rfl

/-- A class in groups is read as one node, which shows its members. -/
theorem run_nest (c : ListedClass) (h : ∀ item ∈ c.items, item.Ordered) (reading : Reading)
    (openings : List Opening) {made : Nat} (hrest : Unquantified rest)
    (hflags : state.flags = ⟨false, scope⟩) (hdraft : state.level.draft = .start made)
    (hdepth : state.outer.length + openings.length ≤ maxDepth) :
    ∃ draft stop node, run reading state ⟨offset, nest openings c.text ++ rest⟩ =
        run reading (state.withDraft draft) ⟨stop, rest⟩ ∧
      draft.flush.nodes = [node] ∧
      ShowsSet reading.expansion
        (c.members (openings.foldl Opening.scope scope && reading.caseSensitive)) node.adjust := by
  have hplain : state.flags.extended = false := by rw [hflags]
  induction openings generalizing scope state made offset rest with
  | nil =>
      obtain ⟨s, hmembers, hread⟩ := c.exists_readClass h
      obtain ⟨t, hunder, hlist⟩ := Atom.exists_under_set reading scope hmembers
      have hunit : (Atom.set s).IsUnit := trivial
      have hstep : step reading state ⟨offset, c.text ++ rest⟩ =
          state.addAtom reading offset (.set t) ⟨offset + width c.text, rest⟩ := by
        rw [step_of_readsAs (c.readsAs hread state.flags rest), apply_of_isUnit hunit, hflags,
          hunder]
      rw [addAtom_bare hplain (Quantifier.starts_of_unquantified hrest), hdraft] at hstep
      have hshows := showsSet_toNode reading.expansion t ⟨offset, offset + width c.text⟩
      rw [hlist] at hshows
      exact ⟨_, _, _, run_of_next hstep, Draft.flush_add_set _ _ _ _ _, hshows⟩
  | cons opening openings ih =>
      rw [List.length_cons] at hdepth
      let inside := state.inGroup offset (offset + width opening.text) ⟨false, opening.scope scope⟩
      have hinside : state.outer.length + 1 + openings.length ≤ maxDepth := by omega
      have hopen : run reading state ⟨offset, nest (opening :: openings) c.text ++ rest⟩ =
          run reading inside ⟨offset + width opening.text, nest openings c.text ++ ')' :: rest⟩ :=
        run_nest_cons (unquantified_cons (by decide)) hflags (by omega)
      have hend : Unquantified (')' :: rest) := unquantified_cons (by decide)
      obtain ⟨draft, stop, node, hrun, hnodes, hshows⟩ := ih hend
        (show inside.flags = ⟨false, opening.scope scope⟩ from rfl) rfl hinside rfl
      obtain ⟨next, last, hclose, hgroup⟩ := run_close_only hrest hplain hdraft hnodes rfl
      exact ⟨next, last, _, hopen.trans (hrun.trans hclose), hgroup, hshows.adjust_wrapped _ _⟩

/-- A class that is at fault is so in any groups, which stand before the fault. -/
theorem root_run_nest_error {text : List Char} {kind : FaultKind} {n : Nat}
    (h : ∀ offset rest, readClass ⟨offset, '[' :: (text ++ rest)⟩ = .error ⟨kind, offset + n⟩)
    (reading : Reading) (openings : List Opening) (hflags : state.flags = ⟨false, scope⟩)
    (hdepth : state.outer.length + openings.length ≤ maxDepth) :
    (run reading state ⟨offset, nest openings ('[' :: text) ++ rest⟩).root =
      .error ⟨kind, offset + width (openings.flatMap Opening.text) + n⟩ := by
  induction openings generalizing scope state offset rest with
  | nil =>
      have hread : Lexeme.read state.flags offset '[' (text ++ rest) =
          .error ⟨kind, offset + n⟩ := by
        rw [Lexeme.read, h]
      have hstep : step reading state ⟨offset, '[' :: (text ++ rest)⟩ =
          state.fail ⟨kind, offset + n⟩ := by
        rw [step, hread]
      rw [nest, List.cons_append, run_of_done hstep]
      rfl
  | cons opening openings ih =>
      rw [List.length_cons] at hdepth
      let inside := state.inGroup offset (offset + width opening.text) ⟨false, opening.scope scope⟩
      have hinside : state.outer.length + 1 + openings.length ≤ maxDepth := by omega
      have hbracket : Unquantified ('[' :: text ++ ')' :: rest) := unquantified_cons (by decide)
      rw [run_nest_cons hbracket hflags (by omega),
        ih (show inside.flags = ⟨false, opening.scope scope⟩ from rfl) hinside, List.flatMap_cons,
        width_append, Nat.add_assoc offset]

end ParserState

/-- The tree of a class in groups shows its members as soon as the wrappers are gone. -/
theorem parse_nest (c : ListedClass) (h : ∀ item ∈ c.items, item.Ordered) (reading : Reading)
    (openings : List Opening) (hdepth : openings.length ≤ maxDepth) :
    ∃ root, (parse reading (String.ofList (nest openings c.text))).root = .ok root ∧
      ShowsSet reading.expansion
        (c.members (openings.foldl Opening.scope false && reading.caseSensitive)) root.adjust := by
  have hinitial : ParserState.initial.outer.length + openings.length ≤ maxDepth := by
    rwa [ParserState.initial, List.length_nil, Nat.zero_add]
  obtain ⟨draft, stop, node, hrun, hnodes, hshows⟩ := ParserState.run_nest c h reading openings
    unquantified_nil (show ParserState.initial.flags = ⟨false, false⟩ from rfl) rfl hinitial
  have hroot : (ParserState.initial.withDraft draft).level.node stop =
      .choice [.sequence [node] false ⟨0, stop⟩] false ⟨0, stop⟩ := by
    rw [← hnodes]
    rfl
  refine ⟨_, ?_, hroot ▸ hshows.adjust_wrapped _ _⟩
  rw [parse_ofList, ← List.append_nil (nest openings c.text), hrun]
  exact ParserState.root_run_end reading _ stop

theorem parse_nest_error (c : ListedClass) {before after : List ListedItem} {lo hi : WrittenByte}
    (hitems : c.items = before ++ .range lo hi :: after) (hbefore : ∀ item ∈ before, item.Ordered)
    (hlt : hi.byte < lo.byte) (reading : Reading) (openings : List Opening)
    (hdepth : openings.length ≤ maxDepth) :
    (parse reading (String.ofList (nest openings c.text))).root = .error ⟨.invalidRange,
      width (openings.flatMap Opening.text ++
        ('[' :: hat c.negated ++ before.flatMap ListedItem.text ++ lo.text))⟩ := by
  have hinitial : ParserState.initial.outer.length + openings.length ≤ maxDepth := by
    rwa [ParserState.initial, List.length_nil, Nat.zero_add]
  have hread : ∀ offset rest, readClass ⟨offset, '[' :: (c.text.tail ++ rest)⟩ = _ :=
    c.readClass_error hitems hbefore hlt
  have hfault : (ParserState.run reading .initial ⟨0, nest openings c.text ++ []⟩).root = _ :=
    ParserState.root_run_nest_error hread reading openings rfl hinitial
  rw [List.append_nil] at hfault
  rw [parse_ofList, hfault, Nat.zero_add, ← width_append]

namespace PatternTree

/-- A bracket class in groups, of which the last one that sets the case decides whether case counts
for it. If its ranges are in order, the simplified tree shows the set of its members, closed under
case where that counts for the tree but not in the groups; otherwise the fault is shown at the dash
of the first range that is not. -/
theorem compile_class (tree : PatternTree) (expansion : Bool) (openings : List Opening)
    (c : ListedClass) (hdepth : openings.length ≤ 256) :
    let pattern := String.ofList (nest openings c.text)
    ((∀ item ∈ c.items, item.Ordered) →
      ∃ compiled merged found root, tree.compile pattern expansion = (compiled, .ok ()) ∧
        compiled.merge = .ok (merged, found) ∧ merged.root = some root ∧
        root.ShowsSet expansion
          (c.members (openings.foldl Opening.scope false && tree.caseSensitive))) ∧
    ∀ before lo hi after, c.items = before ++ .range lo hi :: after →
      (∀ item ∈ before, item.Ordered) → hi.byte < lo.byte →
      (tree.compile pattern expansion).2 = .error (.malformed ⟨.invalidRange,
        width (openings.flatMap Opening.text ++
          ('[' :: hat c.negated ++ before.flatMap ListedItem.text ++ lo.text))⟩ pattern) := by
  intro pattern
  refine ⟨fun hordered => ?_, fun before lo hi after hitems hbefore hlt => ?_⟩
  · obtain ⟨root, hparse, hshows⟩ :=
      parse_nest c hordered ⟨expansion, tree.caseSensitive⟩ openings hdepth
    let compiled : PatternTree :=
      ⟨(parse ⟨expansion, tree.caseSensitive⟩ pattern).made, pattern, some root, tree.caseSensitive⟩
    have hcompile : tree.compile pattern expansion = (compiled, .ok ()) := by
      rw [compile, hparse]
    exact ⟨compiled, _, _, _, hcompile, rfl, rfl, hshows.mergeLiterals_mark⟩
  · rw [compile, parse_nest_error c hitems hbefore hlt _ openings hdepth]

/-- Letters in a range get their other case. Of two ranges in the wrong order the first is at fault,
behind a code and a named set. -/
theorem compile_class_caseless :
    let tree := empty.setCaseSensitive true
    (∃ compiled merged found root, tree.compile "(?i:[b-c1])" true = (compiled, .ok ()) ∧
      compiled.merge = .ok (merged, found) ∧ merged.root = some root ∧
      root.ShowsSet true [0x31, 0x42, 0x43, 0x62, 0x63]) ∧
    (tree.compile "[^\\x31[:digit:]z-a9-0]" false).2 =
      .error (.malformed ⟨.invalidRange, 16⟩ "[^\\x31[:digit:]z-a9-0]") := by
  intro tree
  have hthree : WritesDigit 3 0x33 := .figure (by decide)
  have hone : WritesDigit 1 0x31 := .figure (by decide)
  have hcode : Numeral 16 (3 * 16 + 1) [0x33, 0x31] :=
    .concat (.digit (by decide) hthree) (by decide) hone
  let raw (b : UInt8) (h : Byte.isAlphanum b = true) : WrittenByte := ⟨b, _, .raw h⟩
  let set : ListedClass :=
    ⟨false, [.range (raw 0x62 rfl) (raw 0x63 rfl), .byte (raw 0x31 rfl)], List.cons_ne_nil _ _⟩
  let before : List ListedItem := [.byte ⟨0x31, _, .code rfl hcode rfl⟩, .named false .digit]
  let faulty : ListedClass :=
    ⟨true, before ++ [.range (raw 0x7A rfl) (raw 0x61 rfl), .range (raw 0x39 rfl) (raw 0x30 rfl)],
      List.cons_ne_nil _ _⟩
  have hordered : ∀ item ∈ set.items, item.Ordered := by
    refine List.forall_mem_cons.mpr ⟨?_, List.forall_mem_singleton.mpr trivial⟩
    exact show (0x62 : UInt8) ≤ 0x63 by decide
  have hbefore : ∀ item ∈ before, item.Ordered :=
    List.forall_mem_cons.mpr ⟨trivial, List.forall_mem_singleton.mpr trivial⟩
  have hlt : (0x61 : UInt8) < 0x7A := by decide
  have hmembers : set.members true = [0x31, 0x42, 0x43, 0x62, 0x63] := by decide +kernel
  have hclosed : ([Opening.caseless].foldl Opening.scope false && tree.caseSensitive) = true := rfl
  have hpattern : String.ofList (nest [.caseless] set.text) = "(?i:[b-c1])" := rfl
  have hfault : String.ofList (nest [] faulty.text) = "[^\\x31[:digit:]z-a9-0]" := rfl
  have hbehind : ([] : List Opening).flatMap Opening.text ++ ('[' :: hat faulty.negated ++
      before.flatMap ListedItem.text ++ (raw 0x7A rfl).text) = "[^\\x31[:digit:]z".toList := rfl
  have hwidth : width "[^\\x31[:digit:]z".toList = 16 := by decide +kernel
  have hset := (compile_class tree true [.caseless] set (by decide)).1 hordered
  have hfaulty := (compile_class tree false [] faulty (by decide)).2 before _ _ _ rfl hbefore hlt
  rw [hclosed, hmembers, hpattern] at hset
  rw [hfault, hbehind, hwidth] at hfaulty
  exact ⟨hset, hfaulty⟩

end PatternTree

end LiteralSieve
