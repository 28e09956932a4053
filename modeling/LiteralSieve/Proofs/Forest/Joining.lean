import LiteralSieve.Proofs.Forest.Flattening

namespace LiteralSieve

/-!
# Joining literals in a forest

The literals of a sequence that follow each other are joined to a new one, which takes their place.
A sequence that has one child left becomes a copy of it in its own slot, and the slot of the child
is no longer part of the tree.
-/

namespace Node

/-! ## Runs of literals -/

/-- One literal more at the end of a run. -/
def Run.grow (run : Run) (part : Bytes × Extent) : Run :=
  ⟨run.bytes ++ part.1, run.source.through part.2, run.count + 1⟩

/-- The run of these literals, if there are any. -/
def runOf : List (Bytes × Extent) → Option Run
  | [] => none
  | part :: parts => some (parts.foldl Run.grow ⟨part.1, part.2, 1⟩)

def literals (parts : List (Bytes × Extent)) : List Node :=
  parts.map fun part => literal part.1 part.2

theorem foldl_grow (run : Run) (part : Bytes × Extent) (parts : List (Bytes × Extent)) :
    (part :: parts).foldl Run.grow run = ⟨run.bytes ++ (part :: parts).flatMap Prod.fst,
      run.source.through ((part :: parts).getLast (List.cons_ne_nil _ _)).2,
      run.count + (parts.length + 1)⟩ := by
  induction parts generalizing run part with
  | nil =>
      rw [List.flatMap_singleton]
      rfl
  | cons next parts ih =>
      have hbytes : (part :: next :: parts).flatMap Prod.fst =
          part.1 ++ (next :: parts).flatMap Prod.fst := List.flatMap_cons
      have hcount : run.count + 1 + (parts.length + 1) = run.count + (parts.length + 1 + 1) := by
        omega
      rw [List.foldl_cons, ih, hbytes, List.getLast_cons_cons, ← List.append_assoc, List.length_cons,
        ← hcount]
      rfl

theorem runOf_concat (parts : List (Bytes × Extent)) (part : Bytes × Extent) :
    runOf (parts ++ [part]) =
      some (((runOf parts).map (Run.grow · part)).getD ⟨part.1, part.2, 1⟩) := by
  cases parts with
  | nil => rfl
  | cons first parts => rw [List.cons_append, runOf, List.foldl_concat]; rfl

variable (parts : List (Bytes × Extent)) (nodes : List Node)

theorem joinLiterals_literal (bytes : Bytes) (source : Extent) :
    joinLiterals (runOf parts) (literal bytes source :: nodes) =
      joinLiterals (runOf (parts ++ [(bytes, source)])) nodes := by
  rw [runOf_concat]
  cases runOf parts with
  | none => rw [joinLiterals]; rfl
  | some run => rw [joinLiterals]; rfl

theorem joinedCount_literal (bytes : Bytes) (source : Extent) :
    joinedCount (runOf parts) (literal bytes source :: nodes) =
      joinedCount (runOf (parts ++ [(bytes, source)])) nodes := by
  rw [runOf_concat]
  cases runOf parts with
  | none => rw [joinedCount]; rfl
  | some run => rw [joinedCount]; rfl

end Node

namespace Forest

/-! ## The pass -/

def isLiteralAt (forest : Forest) (id : Nat) : Bool := (forest.slot? id).any Slot.isLiteral

/-- Literals that follow each other, as one. -/
def flushRun (forest : Forest) : List Nat → Forest × List Nat
  | [] => (forest, [])
  | [only] => (forest, [only])
  | first :: second :: later =>
    let last := (second :: later).getLast (List.cons_ne_nil _ _)
    (forest.addLiteral ((first :: second :: later).flatMap forest.literalAt)
      ((forest.sourceAt first).through (forest.sourceAt last)), [forest.size])

/-- The slots after each was visited and every run of literals was joined. The literals of `run`
come before them. -/
def joinAll (visit : Forest → Nat → Except PatternError (Forest × Unit)) :
    List Nat → Forest → List Nat → Except PatternError (Forest × List Nat)
  | run, forest, [] => .ok (forest.flushRun run)
  | run, forest, id :: ids => do
    let (forest, _) ← visit forest id
    if forest.isLiteralAt id then joinAll visit (run ++ [id]) forest ids
    else
      let (forest, joined) := forest.flushRun run
      let (forest, later) ← joinAll visit [] forest ids
      .ok (forest, joined ++ id :: later)

/-- A sequence with these children, or a copy of the only one. -/
def settleMerged (forest : Forest) (id : Nat) : List Nat → Forest
  | [only] =>
    match forest.slot? only with
    | none => forest
    | some copied => forest.modify id fun _ => copied
  | ids => forest.modify id fun slot => { slot with sequence := ids }

/-- Literals that follow each other in a sequence become one, from a slot on. -/
def mergeAt : Nat → Forest → Nat → Except PatternError (Forest × Unit)
  | 0, _, _ => .error .corruptTree
  | depth + 1, forest, id =>
    match forest.slot? id with
    | none => .error .corruptTree
    | some slot =>
      match slot.kind with
      | .leaf => .ok (forest, ())
      | .sequence => do
        let (forest, merged) ← joinAll (mergeAt depth) [] forest slot.sequence
        .ok (forest.settleMerged id merged, ())
      | .choice => do
        let (forest, _) ← visitEach (mergeAt depth) forest slot.choice
        .ok (forest, ())

variable {before after forest : Forest} {print print' ids run : List Nat} {nodes : List Node}
  {node : Node} {parts : List (Bytes × Extent)} {id only made depth : Nat} {slot : Slot}

/-! ## Runs -/

theorem HoldsAll.flatMap_literalAt (h : HoldsAll forest run (Node.literals parts) print) :
    run.flatMap forest.literalAt = parts.flatMap Prod.fst := by
  induction parts generalizing run print with
  | nil =>
      cases h
      rfl
  | cons part parts ih =>
      cases h with
      | cons hnode hnodes =>
          cases hnode with
          | literal hslot hreads =>
              rw [List.flatMap_cons, List.flatMap_cons, ih hnodes, literalAt, hslot, Option.map_some]
              exact congrArg (· ++ _) hreads.bytesAt_eq

theorem HoldsAll.spelled (h : HoldsAll forest run (Node.literals parts) print)
    (hsound : forest.Sound) : Spelled (parts.flatMap Prod.fst) := by
  induction parts generalizing run print with
  | nil => exact spelled_nil
  | cons part parts ih =>
      cases h with
      | cons hnode hnodes =>
          cases hnode with
          | literal hslot hreads =>
              obtain ⟨bytes, hbytes, hspelled⟩ := (hsound _ _ hslot).literal
              have hsame : bytes = part.1 := hbytes.bytesAt_eq.symm.trans hreads.bytesAt_eq
              rw [List.flatMap_cons]
              exact (hsame ▸ hspelled).append (ih hnodes)

/-- The run becomes one literal: a new one if there are at least two. -/
theorem turns_flushRun (h : HoldsAll forest run (Node.literals parts) print) (hnodup : print.Nodup) :
    ∃ print', Turns forest print (forest.flushRun run).1 (forest.flushRun run).2
      (Node.runLiteral (Node.runOf parts)) (Node.joinedCount (Node.runOf parts) []) print' := by
  match run, parts, h.length_eq with
  | [], [], _ =>
      cases h
      exact ⟨_, .refl .nil List.nodup_nil⟩
  | [only], [part], _ => exact ⟨_, .refl h hnodup⟩
  | first :: second :: later, part :: next :: parts, _ =>
      have hbytes := h.flatMap_literalAt
      have hsources : (first :: second :: later).map forest.sourceAt =
          (part :: next :: parts).map Prod.snd := by
        rw [h.map_sourceAt, Node.literals, List.map_map]
        rfl
      obtain ⟨hfirst, hlater⟩ := List.cons.inj hsources
      have hlast : forest.sourceAt ((second :: later).getLast (List.cons_ne_nil _ _)) =
          ((next :: parts).getLast (List.cons_ne_nil _ _)).2 := by
        have hne : (second :: later).map forest.sourceAt ≠ [] := List.cons_ne_nil _ _
        rw [← List.getLast_map (f := forest.sourceAt) hne]
        simp only [hlater]
        exact List.getLast_map _
      have hrun : Node.runOf (part :: next :: parts) =
          some ⟨(part :: next :: parts).flatMap Prod.fst,
            part.2.through ((next :: parts).getLast (List.cons_ne_nil _ _)).2,
            1 + (parts.length + 1)⟩ := by
        rw [Node.runOf, Node.foldl_grow]
        rfl
      obtain ⟨hchange, hliteral⟩ := holds_addLiteral forest (fun hsound => h.spelled hsound)
        (part.2.through ((next :: parts).getLast (List.cons_ne_nil _ _)).2)
      have htwo : 2 ≤ 1 + (parts.length + 1) := by omega
      have hcount : Node.joinedCount (Node.runOf (part :: next :: parts)) [] = 1 := by
        rw [hrun, Node.joinedCount]
        exact if_pos htwo
      rw [hcount, hrun, flushRun, hbytes, hfirst, hlast]
      refine ⟨_, hchange.mono (List.nil_subset _), size_addLiteral _ _ _, hliteral.all,
        (renews_singleton _).mono (List.nil_subset _)⟩

theorem isLiteralAt_literal {bytes : Bytes} {source : Extent}
    (h : Holds forest id (.literal bytes source) print) : forest.isLiteralAt id = true := by
  cases h with
  | literal hslot hreads =>
      rw [isLiteralAt, hslot]
      rfl

theorem isLiteralAt_other (h : Holds forest id node print)
    (hnode : ∀ bytes source, node = .literal bytes source → False) :
    forest.isLiteralAt id = false := by
  cases h with
  | literal hslot hreads => exact (hnode _ _ rfl).elim
  | gap hslot =>
      rw [isLiteralAt, hslot]
      rfl
  | sequence hslot hchildren =>
      rw [isLiteralAt, hslot]
      rfl
  | choice hslot hne hchildren =>
      rw [isLiteralAt, hslot]
      rfl

/-- A run that ends before a node that was visited. -/
theorem turns_endRun {middle : Forest} {before first first' : List Nat}
    (hrun : HoldsAll forest run (Node.literals parts) before)
    (hturn : Turns forest first middle [id] [node] made first') (hnodup : (before ++ first).Nodup)
    (hfirst : ∀ other ∈ first, other < forest.size) :
    ∃ print', Turns forest (before ++ first) (middle.flushRun run).1 ((middle.flushRun run).2 ++ [id])
      (Node.runLiteral (Node.runOf parts) ++ [node])
      (made + Node.joinedCount (Node.runOf parts) []) print' := by
  obtain ⟨hbefore, -, hapart⟩ := List.nodup_append'.mp hnodup
  have hvisited := (Turns.refl hrun hbefore).append hturn hnodup hfirst
  have hprints := List.disjoint_of_nodup_append hvisited.renews.nodup
  obtain ⟨flushed, hflush⟩ := turns_flushRun
    (hrun.frame hturn.changes fun _ hin hout => hapart hin hout) hbefore
  have hkept := hturn.holds.frame hflush.changes fun _ hin hout => hprints hout hin
  have hended := hvisited.trans (hflush.append (.refl hkept hturn.renews.nodup)
    hvisited.renews.nodup hturn.holds.print_lt)
  rw [Nat.zero_add, Nat.add_zero] at hended
  exact ⟨_, hended⟩

theorem joinAll_literal {visit : Forest → Nat → Except PatternError (Forest × Unit)}
    {middle : Forest} (hvisit : visit forest id = .ok (middle, ()))
    (hliteral : middle.isLiteralAt id = true) :
    joinAll visit run forest (id :: ids) = joinAll visit (run ++ [id]) middle ids := by
  rw [joinAll, hvisit]
  dsimp only [bind, Except.bind]
  rw [if_pos hliteral]

theorem joinAll_other {visit : Forest → Nat → Except PatternError (Forest × Unit)}
    {middle : Forest} {found : List Nat} (hvisit : visit forest id = .ok (middle, ()))
    (hother : middle.isLiteralAt id = false)
    (hjoin : joinAll visit [] (middle.flushRun run).1 ids = .ok (after, found)) :
    joinAll visit run forest (id :: ids) = .ok (after, (middle.flushRun run).2 ++ id :: found) := by
  rw [joinAll, hvisit]
  dsimp only [bind, Except.bind]
  rw [hother, if_neg Bool.false_ne_true, hjoin]

/-- What `joinAll` does: it joins the visited nodes to the literals that come before. -/
theorem turns_joinAll {visit : Forest → Nat → Except PatternError (Forest × Unit)}
    (hvisits : Visits visit depth Node.mergeLiterals Node.mergeCost fun _ => ())
    {before : List Nat} (hrun : HoldsAll forest run (Node.literals parts) before)
    (h : HoldsAll forest ids nodes print) (hnodup : (before ++ print).Nodup)
    (hsize : Node.sizeAll nodes ≤ depth) :
    ∃ after found print', joinAll visit run forest ids = .ok (after, found) ∧
      Turns forest (before ++ print) after found
        (Node.joinLiterals (Node.runOf parts) (Node.mergeAll nodes))
        (Node.mergeCostAll nodes + Node.joinedCount (Node.runOf parts) (Node.mergeAll nodes))
        print' := by
  induction nodes generalizing forest ids print run parts before with
  | nil =>
      cases h
      rw [List.append_nil] at hnodup ⊢
      obtain ⟨print', hturns⟩ := turns_flushRun hrun hnodup
      rw [Node.mergeAll, Node.joinLiterals_nil, Node.mergeCostAll, Nat.zero_add]
      exact ⟨_, _, print', rfl, hturns⟩
  | cons node nodes ih =>
      rw [Node.sizeAll] at hsize
      cases h with
      | @cons id ids _ _ first later hnode hnodes =>
          rw [← List.append_assoc] at hnodup ⊢
          obtain ⟨hboth, hlater, hdisjoint⟩ := List.nodup_append'.mp hnodup
          obtain ⟨hbefore, hfirst, hapart⟩ := List.nodup_append'.mp hboth
          obtain ⟨middle, first', hvisit, hturn⟩ :=
            hvisits hnode hfirst ((Nat.le_add_right _ _).trans hsize)
          have hrest : Node.sizeAll nodes ≤ depth := (Nat.le_add_left _ _).trans hsize
          have hvisited := (Turns.refl hrun hbefore).append hturn hboth hnode.print_lt
          have hnext := hnodes.frame hvisited.changes fun _ hin hout => hdisjoint hout hin
          rw [Node.mergeAll, Node.mergeCostAll]
          by_cases hliteral : ∃ bytes source, node.mergeLiterals = .literal bytes source
          · -- The run grows.
            obtain ⟨bytes, source, hmerged⟩ := hliteral
            rw [hmerged] at hturn hvisited ⊢
            have hgrown : HoldsAll middle (run ++ [id]) (Node.literals (parts ++ [(bytes, source)]))
                (before ++ first') := by
              rw [Node.literals, List.map_append]
              exact hvisited.holds
            have hkept := hvisited.append (.refl hnext hlater) hnodup hnodes.print_lt
            obtain ⟨after, found, print', hjoin, hturns⟩ := ih hgrown hnext hkept.renews.nodup hrest
            have hall := hkept.trans hturns
            rw [Nat.zero_add, Nat.add_zero, ← Nat.add_assoc] at hall
            rw [Node.joinLiterals_literal, Node.joinedCount_literal,
              joinAll_literal hvisit (isLiteralAt_literal hturn.holds.single)]
            exact ⟨after, found, print', hjoin, hall⟩
          · -- The run ends, and the node stands after it.
            have hother : ∀ bytes source, node.mergeLiterals = .literal bytes source → False :=
              fun bytes source heq => hliteral ⟨bytes, source, heq⟩
            obtain ⟨flushed, hended⟩ := turns_endRun hrun hturn hboth hnode.print_lt
            have hnone : HoldsAll (middle.flushRun run).1 [] (Node.literals []) [] := .nil
            obtain ⟨after, found, print', hjoin, hturns⟩ := ih hnone
              (hnodes.frame hended.changes fun _ hin hout => hdisjoint hout hin) hlater hrest
            have hall := hended.append hturns hnodup hnodes.print_lt
            refine ⟨after, _, flushed ++ print',
              joinAll_other hvisit (isLiteralAt_other hturn.holds.single hother) hjoin, ?_⟩
            rw [Node.joinLiterals_other _ hother, Node.joinedCount_other _ hother,
              List.append_cons (middle.flushRun run).2, List.append_cons (Node.runLiteral _),
              Nat.add_add_add_comm]
            exact hall

/-! ## The pass -/

/-- A slot becomes a copy of the only child that is left. -/
theorem Turns.copy (h : Turns before print after [only] [node] made print')
    (hold : before.slot? id = some slot) (hout : id ∉ print) :
    ∃ copied print'', after.slot? only = some copied ∧
      Turns before (id :: print) (after.modify id fun _ => copied) [id] [node] made print'' := by
  cases h.holds.single with
  | @literal _ span bytes source hslot hreads =>
      have hnone : Turns before print after [] [] made [] :=
        ⟨h.changes, h.size, .nil, h.renews.sublist (List.nil_sublist _)⟩
      refine ⟨_, _, hslot, hnone.modify hold hout (fun hsound => hsound _ _ hslot) ?_⟩
      intro final hbuffer hnew hall
      cases hall
      exact .literal hnew (hreads.mono hbuffer)
  | gap hslot =>
      have hnone : Turns before print after [] [] made [] :=
        ⟨h.changes, h.size, .nil, h.renews.sublist (List.nil_sublist _)⟩
      refine ⟨_, _, hslot, hnone.modify hold hout (fun hsound => hsound _ _ hslot) ?_⟩
      intro final _ hnew hall
      cases hall
      exact .gap hnew
  | sequence hslot hchildren =>
      have hbelow := h.renews.sublist (List.sublist_cons_self _ _)
      have hinner : Turns before print after _ _ made _ := ⟨h.changes, h.size, hchildren, hbelow⟩
      exact ⟨_, _, hslot, hinner.modify hold hout (fun hsound => hsound _ _ hslot)
        fun final _ hnew hall => .sequence hnew hall⟩
  | choice hslot hne hchildren =>
      have hbelow := h.renews.sublist (List.sublist_cons_self _ _)
      have hinner : Turns before print after _ _ made _ := ⟨h.changes, h.size, hchildren, hbelow⟩
      exact ⟨_, _, hslot, hinner.modify hold hout (fun hsound => hsound _ _ hslot)
        fun final _ hnew hall => .choice hnew hne hall⟩

theorem Turns.settleMerged {olds : List Nat} {hollow : Bool} {source : Extent}
    (h : Turns before print after ids nodes made print')
    (hold : before.slot? id = some (.ofSequence olds hollow source)) (hout : id ∉ print) :
    ∃ print'', Turns before (id :: print) (after.settleMerged id ids) [id]
      [.ofMerged hollow source nodes] made print'' := by
  match ids, nodes, h.holds.length_eq with
  | [only], [node], _ =>
      obtain ⟨copied, print'', hslot, hcopy⟩ := h.copy hold hout
      rw [Forest.settleMerged, hslot]
      exact ⟨print'', hcopy⟩
  | [], [], _ =>
      exact ⟨_, h.modify hold hout (fun _ => slotSound_ofSequence h.holds.ids_lt hollow source)
        fun final _ hslot hall => .sequence hslot hall⟩
  | _ :: _ :: _, _ :: _ :: _, _ =>
      exact ⟨_, h.modify hold hout (fun _ => slotSound_ofSequence h.holds.ids_lt hollow source)
        fun final _ hslot hall => .sequence hslot hall⟩

theorem mergeAt_sequence {hollow : Bool} {source : Extent} {found : List Nat}
    (hslot : forest.slot? id = some (.ofSequence ids hollow source))
    (hjoin : joinAll (mergeAt depth) [] forest ids = .ok (after, found)) :
    mergeAt (depth + 1) forest id = .ok (after.settleMerged id found, ()) := by
  have hseen : joinAll (mergeAt depth) [] forest (Slot.ofSequence ids hollow source).sequence =
      .ok (after, found) := hjoin
  rw [mergeAt, hslot]
  dsimp only [Slot.kind_ofSequence]
  rw [hseen]
  rfl

theorem mergeAt_choice {disabled : Bool} {source : Extent} {found : List Unit}
    (hslot : forest.slot? id = some (.ofChoice ids disabled source)) (hne : ids ≠ [])
    (hvisit : visitEach (mergeAt depth) forest ids = .ok (after, found)) :
    mergeAt (depth + 1) forest id = .ok (after, ()) := by
  have hseen : visitEach (mergeAt depth) forest (Slot.ofChoice ids disabled source).choice =
      .ok (after, found) := hvisit
  rw [mergeAt, hslot]
  dsimp only
  rw [Slot.kind_ofChoice hne]
  dsimp only
  rw [hseen]
  rfl

theorem visits_mergeAt (depth : Nat) :
    Visits (mergeAt depth) depth Node.mergeLiterals Node.mergeCost fun _ => () := by
  intro forest id node print h hnodup hsize
  induction depth generalizing forest id node print with
  | zero => exact absurd hsize (Nat.not_le.mpr (Node.size_pos node))
  | succ depth ih =>
      cases h with
      | literal hslot hreads =>
          rw [Node.mergeLiterals, Node.mergeCost]
          refine ⟨forest, _, ?_, .refl (Holds.literal hslot hreads).all hnodup⟩
          rw [mergeAt, hslot]
          rfl
      | gap hslot =>
          rw [Node.mergeLiterals, Node.mergeCost]
          refine ⟨forest, _, ?_, .refl (Holds.gap hslot).all hnodup⟩
          rw [mergeAt, hslot]
          rfl
      | sequence hslot hchildren =>
          obtain ⟨hout, hbelow⟩ := List.nodup_cons.mp hnodup
          have hnone : HoldsAll forest [] (Node.literals []) [] := .nil
          obtain ⟨after, found, print', hjoin, hturns⟩ :=
            turns_joinAll ih hnone hchildren hbelow (Nat.le_of_succ_le_succ hsize)
          obtain ⟨print'', hsettle⟩ := hturns.settleMerged hslot hout
          rw [Node.mergeLiterals, Node.mergeCost]
          exact ⟨_, print'', mergeAt_sequence hslot hjoin, hsettle⟩
      | choice hslot hne hchildren =>
          obtain ⟨hout, hbelow⟩ := List.nodup_cons.mp hnodup
          obtain ⟨after, print', hvisit, hturns⟩ :=
            Visits.each ih hchildren hbelow (Nat.le_of_succ_le_succ hsize)
          rw [Node.mergeLiterals, Node.mergeCost, Node.mergeAll_eq_map, Node.mergeCostAll_eq_sum]
          exact ⟨after, _, mergeAt_choice hslot hne hvisit,
            hturns.keep hslot hout fun hkept hall => .choice hkept hne hall⟩

end Forest

end LiteralSieve
