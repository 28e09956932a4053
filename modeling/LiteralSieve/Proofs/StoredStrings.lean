import LiteralSieve.Store.ByteStore
import Mathlib.Algebra.GroupWithZero.Nat
import Mathlib.Algebra.Order.BigOperators.Group.List
import Mathlib.Data.List.Forall2

namespace LiteralSieve

/-!
# Stored strings stay

A byte store is only added to, so what a span addresses is not touched by later calls. As long as
all results together fit in 32 bits, neither the start nor the length of a span is cut off. Then
every span that was given out reads its string, whatever is called afterwards, and no call reads
beyond the end of the buffer.
-/

namespace ByteStore

/-- A call to a store. The parts of a joined string are named by their places among all results so
far; a place where there is none stands for nothing. -/
inductive Call where
  | push (bytes : Bytes)
  | concat (parts : List Nat)

/-- The elements of a list at these places. -/
def pick {α : Type} (xs : List α) (places : List Nat) : List α := places.filterMap (xs[·]?)

/-- The string that a call asks for after these results. -/
def Call.result (results : List Bytes) : Call → Bytes
  | push bytes => bytes
  | concat parts => (pick results parts).flatten

/-- The strings after these results that the calls ask for, with the results. -/
def resultsFrom (results : List Bytes) (calls : List Call) : List Bytes :=
  calls.foldl (fun results call => results ++ [call.result results]) results

def resultsOf (calls : List Call) : List Bytes := resultsFrom [] calls

def totalLength (strings : List Bytes) : Nat := (strings.map List.length).sum

/-- A store with the spans that it gave out, the first one first. -/
structure Session where
  store : ByteStore
  spans : List Span

namespace Session

def start : Session := ⟨ByteStore.empty, []⟩

def record (session : Session) (result : ByteStore × Span) : Session :=
  ⟨result.1, session.spans ++ [result.2]⟩

def perform (session : Session) : Call → Session
  | .push bytes => session.record (session.store.push bytes)
  | .concat parts => session.record (session.store.concat (pick session.spans parts))

def after (session : Session) (calls : List Call) : Session := calls.foldl perform session

end Session

/-- The span lies inside the buffer. -/
def Covers (store : ByteStore) (span : Span) : Prop := span.start.toNat + span.size ≤ store.size

/-- Each part lies inside the buffer when it is its turn. -/
def CoversEach (store : ByteStore) : List Span → Prop
  | [] => True
  | part :: parts => store.Covers part ∧ CoversEach ⟨store.buffer ++ store.get part⟩ parts

/-- A call reads nothing but what is in the buffer. -/
def Session.ReadsInside (session : Session) : Call → Prop
  | .push _ => True
  | .concat parts => session.store.CoversEach (pick session.spans parts)

/-- The store gives the string for the span, which is the empty span for the empty string alone. -/
structure Gives (store : ByteStore) (span : Span) (bytes : Bytes) : Prop where
  covers : store.Covers span
  get : store.get span = bytes
  empty : span = Span.empty ↔ bytes = []

/-! ## Strings in the buffer -/

/-- The string stands in the buffer where the span says. -/
structure Keeps (store : ByteStore) (span : Span) (bytes : Bytes) : Prop where
  split : ∃ front back, store.buffer.toList = front ++ bytes ++ back ∧
    span.start.toNat = front.length ∧ span.size = bytes.length
  empty : span = Span.empty ↔ bytes = []

variable {store later : ByteStore} {span : Span} {bytes : Bytes} {parts spans : List Span}
  {strings results : List Bytes} {session : Session} {call : Call} {calls : List Call}

theorem Keeps.gives (h : store.Keeps span bytes) : store.Gives span bytes := by
  obtain ⟨front, back, hbuffer, hstart, hsize⟩ := h.split
  have hlength := congrArg List.length hbuffer
  simp only [Array.length_toList, List.length_append] at hlength
  refine ⟨?_, ?_, h.empty⟩
  · simp only [Covers, size, hstart, hsize]
    omega
  · simp [get, hbuffer, hstart, hsize]

/-- A string stays when more is added behind. -/
theorem Keeps.mono (h : store.Keeps span bytes)
    (hlater : store.buffer.toList <+: later.buffer.toList) : later.Keeps span bytes := by
  obtain ⟨front, back, hbuffer, hstart, hsize⟩ := h.split
  obtain ⟨more, hmore⟩ := hlater
  refine ⟨⟨front, back ++ more, ?_, hstart, hsize⟩, h.empty⟩
  rw [← hmore, hbuffer, List.append_assoc]

theorem keeps_empty (store : ByteStore) : store.Keeps Span.empty [] :=
  ⟨⟨[], store.buffer.toList, rfl, rfl, rfl⟩, iff_of_true rfl rfl⟩

/-- A string that was just added is kept, if the numbers of its span are small enough. -/
theorem keeps_added (hne : bytes ≠ []) (hsmall : store.size + bytes.length < 2 ^ 32) :
    Keeps ⟨store.buffer ++ bytes⟩ ⟨store.size.toUInt32, bytes.length.toUInt32⟩ bytes := by
  have hpos := List.length_pos_iff.mpr hne
  have hstart : store.size.toUInt32.toNat = store.size :=
    UInt32.toNat_ofNat_of_lt' (by simp [UInt32.size]; omega)
  have hlength : bytes.length.toUInt32.toNat = bytes.length :=
    UInt32.toNat_ofNat_of_lt' (by simp [UInt32.size]; omega)
  refine ⟨⟨store.buffer.toList, [], by simp, hstart, hlength⟩, iff_of_false ?_ hne⟩
  intro hempty
  have hzero : bytes.length = 0 := hlength.symm.trans (congrArg Span.size hempty)
  omega

theorem totalLength_append (strings more : List Bytes) :
    totalLength (strings ++ more) = totalLength strings + totalLength more := by
  simp [totalLength]

/-- What the calls have to keep: the spans give the results, and there is nothing else. -/
structure Session.Tells (session : Session) (results : List Bytes) : Prop where
  spans : List.Forall₂ session.store.Keeps session.spans results
  size : session.store.size = totalLength results

/-! ## One call -/

@[simp] theorem size_mk_append (buffer : Array UInt8) (bytes : Bytes) :
    size ⟨buffer ++ bytes⟩ = buffer.size + bytes.length := by
  have hlength : (buffer ++ bytes).toList.length = buffer.size + bytes.length := by simp
  exact hlength

theorem buffer_push (store : ByteStore) (bytes : Bytes) :
    (store.push bytes).1.buffer = store.buffer ++ bytes := by
  rw [push]
  cases bytes <;> simp

theorem keeps_push (hsmall : store.size + bytes.length < 2 ^ 32) :
    (store.push bytes).1.Keeps (store.push bytes).2 bytes := by
  rw [push]
  cases bytes with
  | nil => exact keeps_empty store
  | cons b bytes => exact keeps_added (List.cons_ne_nil _ _) hsmall

/-- The parts are copied one behind the other, and none is changed by the copies of those before. -/
theorem foldl_concat (hparts : List.Forall₂ store.Keeps parts strings) :
    parts.foldl (fun buffer part => buffer ++ get ⟨buffer⟩ part) store.buffer =
      store.buffer ++ strings.flatten ∧ store.CoversEach parts := by
  induction parts generalizing store strings with
  | nil =>
      cases hparts
      simp [CoversEach]
  | cons part parts ih =>
      obtain ⟨string, strings, hpart, hrest, rfl⟩ := List.forall₂_cons_left_iff.mp hparts
      have hgives := hpart.gives
      have hlater : List.Forall₂ (Keeps ⟨store.buffer ++ store.get part⟩) parts strings :=
        hrest.imp fun _ _ hkeeps => hkeeps.mono (by simp)
      obtain ⟨hfold, hcovers⟩ := ih hlater
      refine ⟨?_, hgives.covers, hcovers⟩
      rw [List.foldl_cons]
      refine hfold.trans (Array.toList_inj.mp ?_)
      simp [hgives.get]

theorem buffer_concat (hparts : List.Forall₂ store.Keeps parts strings) :
    (store.concat parts).1.buffer = store.buffer ++ strings.flatten := by
  rw [concat, (foldl_concat hparts).1]
  split <;> rfl

theorem keeps_concat (hparts : List.Forall₂ store.Keeps parts strings)
    (hsmall : store.size + strings.flatten.length < 2 ^ 32) :
    (store.concat parts).1.Keeps (store.concat parts).2 strings.flatten := by
  have hadded : (store.buffer ++ strings.flatten).size - store.size = strings.flatten.length :=
    (congrArg (· - store.size) (size_mk_append _ _)).trans (Nat.add_sub_cancel_left _ _)
  rw [concat, (foldl_concat hparts).1, hadded]
  split
  case isTrue hnil =>
    rw [List.eq_nil_of_length_eq_zero hnil]
    exact keeps_empty _
  case isFalse hne =>
    exact keeps_added (fun hnil => hne (by simp [hnil])) hsmall

/-- The same places of two lists hold what goes together. -/
theorem forall₂_pick {α β : Type} {R : α → β → Prop} {xs : List α} {ys : List β}
    (h : List.Forall₂ R xs ys) (places : List Nat) :
    List.Forall₂ R (pick xs places) (pick ys places) := by
  have hlength := h.length_eq
  induction places with
  | nil => exact .nil
  | cons i places ih =>
      by_cases hi : i < xs.length
      · have hj : i < ys.length := hlength ▸ hi
        have hxs : pick xs (i :: places) = xs[i] :: pick xs places := by simp [pick, hi]
        have hys : pick ys (i :: places) = ys[i] :: pick ys places := by simp [pick, hj]
        rw [hxs, hys]
        exact .cons (h.get hi hj) ih
      · have hj : ¬i < ys.length := hlength ▸ hi
        have hxs : pick xs (i :: places) = pick xs places := by simp [pick, hi]
        have hys : pick ys (i :: places) = pick ys places := by simp [pick, hj]
        rw [hxs, hys]
        exact ih

namespace Session

theorem Tells.record (h : session.Tells results) {result : ByteStore × Span}
    (hbuffer : result.1.buffer = session.store.buffer ++ bytes)
    (hkeeps : result.1.Keeps result.2 bytes) :
    (session.record result).Tells (results ++ [bytes]) := by
  refine ⟨List.rel_append ?_ ?_, ?_⟩
  · exact h.spans.imp fun _ _ hold => hold.mono (by simp [Session.record, hbuffer])
  · exact .cons hkeeps .nil
  · have hsize : result.1.size = session.store.size + bytes.length :=
      (congrArg Array.size hbuffer).trans (size_mk_append _ _)
    simp [Session.record, hsize, h.size, totalLength]

/-- One call adds its result to those that are told. -/
theorem Tells.perform (h : session.Tells results)
    (hsmall : totalLength (results ++ [call.result results]) < 2 ^ 32) :
    (session.perform call).Tells (results ++ [call.result results]) ∧ session.ReadsInside call := by
  have htotal : session.store.size + (call.result results).length < 2 ^ 32 := by
    rw [h.size]
    simpa [totalLength_append, totalLength] using hsmall
  cases call with
  | push bytes => exact ⟨h.record (buffer_push _ _) (keeps_push htotal), trivial⟩
  | concat places =>
      have hparts := forall₂_pick h.spans places
      exact ⟨h.record (buffer_concat hparts) (keeps_concat hparts htotal), (foldl_concat hparts).2⟩

/-! ## All calls -/

theorem tells_start : start.Tells [] := ⟨.nil, rfl⟩

theorem after_append (session : Session) (calls more : List Call) :
    session.after (calls ++ more) = (session.after calls).after more :=
  List.foldl_append

theorem spans_perform (session : Session) (call : Call) :
    ∃ span, (session.perform call).spans = session.spans ++ [span] := by
  cases call <;> exact ⟨_, rfl⟩

/-- A span that was given out is never taken back. -/
theorem spans_prefix_after (session : Session) (calls : List Call) :
    session.spans <+: (session.after calls).spans := by
  induction calls generalizing session with
  | nil => exact List.prefix_rfl
  | cons call calls ih =>
      obtain ⟨span, hspan⟩ := session.spans_perform call
      have hone : session.spans <+: (session.perform call).spans :=
        hspan ▸ List.prefix_append _ _
      exact hone.trans (ih (session.perform call))

end Session

theorem prefix_resultsFrom (results : List Bytes) (calls : List Call) :
    results <+: resultsFrom results calls := by
  induction calls generalizing results with
  | nil => exact List.prefix_rfl
  | cons call calls ih => exact (List.prefix_append _ _).trans (ih _)

theorem resultsFrom_append (results : List Bytes) (calls more : List Call) :
    resultsFrom results (calls ++ more) = resultsFrom (resultsFrom results calls) more :=
  List.foldl_append

theorem totalLength_mono {more : List Bytes} (h : strings <+: more) :
    totalLength strings ≤ totalLength more := by
  obtain ⟨rest, rfl⟩ := h
  rw [totalLength_append]
  exact Nat.le_add_right _ _

/-- All calls add their results, one after the other. -/
theorem Session.Tells.after (h : session.Tells results)
    (hsmall : totalLength (resultsFrom results calls) < 2 ^ 32) :
    (session.after calls).Tells (resultsFrom results calls) := by
  induction calls generalizing session results with
  | nil => exact h
  | cons call calls ih =>
      have hone : totalLength (results ++ [call.result results]) < 2 ^ 32 :=
        (totalLength_mono (prefix_resultsFrom _ calls)).trans_lt hsmall
      exact ih (h.perform hone).1 hsmall

/-- After any calls with results that fit in 32 bits together, the spans that were given out before
give their strings still: inside the buffer, byte for byte, and with the empty span for the empty
string alone. The buffer has the length of all results, and no call reads beyond its end. -/
theorem spans_stay {calls more : List Call}
    (hsmall : totalLength (resultsOf (calls ++ more)) < 2 ^ 32) :
    (Session.start.after calls).spans <+: (Session.start.after (calls ++ more)).spans ∧
      List.Forall₂ (Session.start.after (calls ++ more)).store.Gives
        (Session.start.after calls).spans (resultsOf calls) ∧
      (Session.start.after (calls ++ more)).store.size =
        totalLength (resultsOf (calls ++ more)) ∧
      ∀ call rest, more = call :: rest → (Session.start.after calls).ReadsInside call := by
  have hresults : resultsOf calls <+: resultsOf (calls ++ more) := by
    simp only [resultsOf, resultsFrom_append]
    exact prefix_resultsFrom _ more
  have hspans :
      (Session.start.after calls).spans <+: (Session.start.after (calls ++ more)).spans := by
    rw [Session.after_append]
    exact Session.spans_prefix_after _ more
  have hbefore : (Session.start.after calls).Tells (resultsOf calls) :=
    Session.tells_start.after ((totalLength_mono hresults).trans_lt hsmall)
  have hlater : (Session.start.after (calls ++ more)).Tells (resultsOf (calls ++ more)) :=
    Session.tells_start.after hsmall
  refine ⟨hspans, ?_, hlater.size, ?_⟩
  · have htake := List.forall₂_take (Session.start.after calls).spans.length hlater.spans
    rw [← List.prefix_iff_eq_take.mp hspans, hbefore.spans.length_eq,
      ← List.prefix_iff_eq_take.mp hresults] at htake
    exact htake.imp fun _ _ hkeeps => hkeeps.gives
  · rintro call rest rfl
    refine (hbefore.perform (lt_of_le_of_lt (totalLength_mono ?_) hsmall)).2
    simp only [resultsOf, resultsFrom_append]
    exact prefix_resultsFrom _ rest

/-- A string is joined from two others, with the first one once more, while a third one follows. -/
theorem spans_stay_joined :
    let calls : List Call := [.push [0x61, 0x62], .push [], .push [0x63], .concat [0, 1, 2, 0]]
    let more : List Call := [.concat [1], .push [0x64], .concat [3, 4, 3]]
    totalLength (resultsOf (calls ++ more)) < 2 ^ 32 ∧
      resultsOf calls = [[0x61, 0x62], [], [0x63], [0x61, 0x62, 0x63, 0x61, 0x62]] ∧
      List.Forall₂ (Session.start.after (calls ++ more)).store.Gives
        (Session.start.after calls).spans (resultsOf calls) := by
  intro calls more
  have hsmall : totalLength (resultsOf (calls ++ more)) < 2 ^ 32 := by decide
  exact ⟨hsmall, by decide, (spans_stay hsmall).2.1⟩

end ByteStore

end LiteralSieve
