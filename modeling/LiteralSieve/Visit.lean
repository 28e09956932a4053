namespace LiteralSieve

/-!
# Walks with an early end

A visitor is shown the elements of a list in order, together with what it made of those before, and
may say that it is done. Then it is shown no more. Likewise a step may fail, and then no step
follows, but what the steps before have done stays.
-/

variable {α σ ε : Type}

/-- The list is shown to `visit` until that is done. -/
def visitAll (visit : α → σ → ForInStep σ) : List α → σ → ForInStep σ
  | [], acc => .yield acc
  | a :: rest, acc =>
    match visit a acc with
    | .done acc => .done acc
    | .yield acc => visitAll visit rest acc

@[simp] theorem visitAll_nil (visit : α → σ → ForInStep σ) (acc : σ) :
    visitAll visit [] acc = .yield acc := rfl

/-- A visitor that is never done folds the list. -/
theorem visitAll_eq_foldl (next : σ → α → σ) (xs : List α) (acc : σ) :
    visitAll (fun a acc => .yield (next acc a)) xs acc = .yield (xs.foldl next acc) := by
  induction xs generalizing acc with
  | nil => rfl
  | cons a xs ih => exact ih (next acc a)

/-- The steps for the elements of a list up to the first that fails, with what they made. -/
def untilFailure (step : σ → α → σ × Except ε Unit) : σ → List α → σ × Except ε Unit
  | state, [] => (state, .ok ())
  | state, a :: rest =>
    match step state a with
    | (state, .ok ()) => untilFailure step state rest
    | (state, .error cause) => (state, .error cause)

end LiteralSieve
