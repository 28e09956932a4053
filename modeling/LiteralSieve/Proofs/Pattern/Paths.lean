import LiteralSieve.Pattern.Branches
import LiteralSieve.Pattern.Simplify

namespace LiteralSieve

/-!
# Paths

A path is a branch without the extents and the borders of its literals: the bytes that it asks for,
and the gaps between them. Simplifying a tree changes its branches, but not its paths, nor their
order.
-/

/-- What a path meets: a byte, or something that literals cannot say. -/
inductive PathItem where
  | byte (b : UInt8)
  | gap
deriving DecidableEq, Inhabited

abbrev Path := List PathItem

namespace Path

def literal (bytes : Bytes) : Path := bytes.map .byte

@[simp] theorem literal_nil : literal [] = [] := rfl

/-! ## Products -/

/-- Every path of the first list followed by every path of the second. -/
def product (heads tails : List Path) : List Path :=
  heads.flatMap fun head => tails.map fun tail => head ++ tail

variable {heads middles tails : List Path}

@[simp] theorem product_nil : product [] tails = [] := rfl

theorem product_cons (head : Path) :
    product (head :: heads) tails = tails.map (head ++ ·) ++ product heads tails := rfl

@[simp] theorem product_one_left : product [[]] tails = tails := by
  simp [product]

@[simp] theorem product_one_right : product heads [[]] = heads := by
  simp [product]

theorem product_literals (xs ys : Bytes) :
    product [literal xs] [literal ys] = [literal (xs ++ ys)] := by
  simp [product, literal]

theorem product_append (xs ys : List Path) :
    product (xs ++ ys) tails = product xs tails ++ product ys tails :=
  List.flatMap_append

theorem product_map_append (head : Path) :
    product (heads.map (head ++ ·)) tails = (product heads tails).map (head ++ ·) := by
  simp [product, List.flatMap_map, List.map_flatMap, List.append_assoc, Function.comp_def]

theorem product_assoc :
    product (product heads middles) tails = product heads (product middles tails) := by
  induction heads with
  | nil => rfl
  | cons head heads ih =>
      rw [product_cons, product_append, product_map_append, ih, product_cons]

theorem length_product : (product heads tails).length = heads.length * tails.length := by
  induction heads with
  | nil => simp
  | cons head heads ih =>
      rw [product_cons, List.length_append, List.length_map, ih, List.length_cons,
        Nat.succ_mul, Nat.add_comm]

theorem product_ne_nil (hheads : heads ≠ []) (htails : tails ≠ []) : product heads tails ≠ [] := by
  rw [← List.length_pos_iff, length_product]
  exact Nat.mul_pos (List.length_pos_iff.mpr hheads) (List.length_pos_iff.mpr htails)

/-! ## Runs of bytes -/

/-- The bytes between the gaps, from the first to the last. -/
def runs : Path → List Bytes
  | [] => [[]]
  | .gap :: rest => [] :: runs rest
  | .byte b :: rest => (runs rest).modifyHead (b :: ·)

/-- The runs that are long enough for a keyword. -/
def keywords (minLength : Nat) (path : Path) : List Bytes :=
  path.runs.filter (minLength ≤ ·.length)

theorem modifyHead_nil_append (found : List Bytes) : found.modifyHead ([] ++ ·) = found := by
  cases found <;> rfl

theorem runs_literal_append (bytes : Bytes) (path : Path) :
    runs (literal bytes ++ path) = path.runs.modifyHead (bytes ++ ·) := by
  induction bytes with
  | nil => exact (modifyHead_nil_append path.runs).symm
  | cons b bytes ih =>
      have hcons : runs (literal (b :: bytes) ++ path) =
          (runs (literal bytes ++ path)).modifyHead (b :: ·) := rfl
      rw [hcons, ih, List.modifyHead_modifyHead]
      rfl

theorem modifyHead_runs_gap_cons (run : Bytes) (path : Path) :
    (runs (.gap :: path)).modifyHead (run ++ ·) = run :: path.runs := by
  simp [runs]

end Path

/-! ## Branches as paths -/

/-- A leaf as it counts in a path. -/
def Node.items : Node → Path
  | literal bytes _ => Path.literal bytes
  | _ => [.gap]

/-- A branch as a path. -/
def Branch.items (branch : Branch) : Path := branch.flatMap Node.items

theorem Branch.items_append (first second : Branch) :
    Branch.items (first ++ second) = Branch.items first ++ Branch.items second :=
  List.flatMap_append

theorem map_items_combine (heads tails : List Branch) :
    (combine heads tails).map Branch.items =
      Path.product (heads.map Branch.items) (tails.map Branch.items) := by
  simp [combine, Path.product, List.map_flatMap, List.flatMap_map, Branch.items_append,
    Function.comp_def]

theorem length_combine (heads tails : List Branch) :
    (combine heads tails).length = heads.length * tails.length := by
  rw [← List.length_map Branch.items, map_items_combine, Path.length_product, List.length_map,
    List.length_map]

theorem finishedRun_append (minLength : Nat) (run : Bytes) (found : List Bytes) :
    finishedRun minLength run ++ found.filter (minLength ≤ ·.length) =
      (run :: found).filter (minLength ≤ ·.length) := by
  rw [finishedRun, List.filter_cons]
  simp only [decide_eq_true_eq]
  split <;> rfl

theorem keywordsFrom_eq (minLength : Nat) (run : Bytes) (branch : Branch) :
    keywordsFrom minLength run branch =
      ((Branch.items branch).runs.modifyHead (run ++ ·)).filter (minLength ≤ ·.length) := by
  fun_induction keywordsFrom minLength run branch with
  | case1 run => simp [finishedRun, Branch.items, Path.runs, List.filter_cons]
  | case2 run bytes source branch ih =>
      have hitems : Branch.items (.literal bytes source :: branch) =
          Path.literal bytes ++ Branch.items branch := rfl
      rw [ih, hitems, Path.runs_literal_append, List.modifyHead_modifyHead]
      simp [Function.comp_def, List.append_assoc]
  | case3 run node branch hnode ih =>
      have hitems : Branch.items (node :: branch) = .gap :: Branch.items branch := by
        cases node with
        | literal bytes source => exact (hnode bytes source rfl).elim
        | _ => rfl
      rw [ih, hitems, Path.modifyHead_runs_gap_cons, Path.modifyHead_nil_append,
        finishedRun_append]

theorem Branch.keywords_eq (minLength : Nat) (branch : Branch) :
    Branch.keywords minLength branch = (Branch.items branch).keywords minLength := by
  rw [Branch.keywords, keywordsFrom_eq, Path.modifyHead_nil_append, Path.keywords]

/-! ## Trees as paths -/

namespace Node

/-- The branches of a node as paths, in order. -/
def paths (node : Node) : List Path := node.branches.map Branch.items

def pathsOfAll (nodes : List Node) : List Path := (branchesOfAll nodes).map Branch.items

def pathsOfAny (nodes : List Node) : List Path := (branchesOfAny nodes).map Branch.items

@[simp] theorem paths_literal (bytes : Bytes) (source : Extent) :
    (literal bytes source).paths = [Path.literal bytes] := by
  simp [paths, branches, Branch.items, items]

@[simp] theorem paths_gap (source : Extent) : (gap source).paths = [[.gap]] := by
  simp [paths, branches, Branch.items, items]

@[simp] theorem paths_sequence (children : List Node) (hollow : Bool) (source : Extent) :
    (sequence children hollow source).paths = pathsOfAll children := by
  rw [paths, branches, pathsOfAll]

@[simp] theorem paths_choice (children : List Node) (disabled : Bool) (source : Extent) :
    (choice children disabled source).paths = pathsOfAny children := by
  rw [paths, branches, pathsOfAny]

@[simp] theorem pathsOfAll_nil : pathsOfAll [] = [[]] := rfl

@[simp] theorem pathsOfAll_cons (node : Node) (nodes : List Node) :
    pathsOfAll (node :: nodes) = Path.product node.paths (pathsOfAll nodes) := by
  rw [pathsOfAll, branchesOfAll, map_items_combine, paths, pathsOfAll]

@[simp] theorem pathsOfAny_nil : pathsOfAny [] = [] := rfl

@[simp] theorem pathsOfAny_cons (node : Node) (nodes : List Node) :
    pathsOfAny (node :: nodes) = node.paths ++ pathsOfAny nodes := by
  rw [pathsOfAny, branchesOfAny, List.map_append, paths, pathsOfAny]

theorem pathsOfAll_append (xs ys : List Node) :
    pathsOfAll (xs ++ ys) = Path.product (pathsOfAll xs) (pathsOfAll ys) := by
  induction xs with
  | nil => simp
  | cons node nodes ih => simp [ih, Path.product_assoc]

theorem pathsOfAny_append (xs ys : List Node) :
    pathsOfAny (xs ++ ys) = pathsOfAny xs ++ pathsOfAny ys := by
  induction xs with
  | nil => simp
  | cons node nodes ih => simp [ih]

theorem pathsOfAny_bytes (bytes : Bytes) (source : Extent) :
    pathsOfAny (bytes.map fun b => literal [b] source) = bytes.map fun b => [.byte b] := by
  induction bytes with
  | nil => rfl
  | cons b bytes ih => simp [ih, Path.literal]

end Node

/-! ## Counting -/

theorem boundedAdd_min (m n : Nat) :
    boundedAdd (min m maxCount) (min n maxCount) = min (m + n) maxCount := by
  rw [boundedAdd]
  omega

theorem boundedMul_min (m n : Nat) :
    boundedMul (min m maxCount) (min n maxCount) = min (m * n) maxCount := by
  have hlarge : ∀ {a b : Nat}, maxCount ≤ a → b ≠ 0 → min (a * b) maxCount = maxCount :=
    fun ha hb => Nat.min_eq_right
      (Nat.le_trans ha (Nat.le_mul_of_pos_right _ (Nat.pos_of_ne_zero hb)))
  have hcount : maxCount ≠ 0 := by decide
  rw [boundedMul]
  by_cases hm : m = 0
  · simp [hm]
  by_cases hn : n = 0
  · simp [hn]
  rcases Nat.le_total maxCount m with hle | hle
  · rw [hlarge hle hn, Nat.min_eq_right hle, hlarge Nat.le.refl (by omega)]
  rcases Nat.le_total maxCount n with hle' | hle'
  · rw [Nat.mul_comm m n, hlarge hle' hm, Nat.min_eq_right hle', Nat.mul_comm,
      hlarge Nat.le.refl (by omega)]
  · rw [Nat.min_eq_left hle, Nat.min_eq_left hle']

namespace Node

mutual

/-- The count is that of the branches, up to the largest one. -/
theorem branchCount_eq (node : Node) : node.branchCount = min node.branches.length maxCount := by
  cases node with
  | literal bytes source => rfl
  | gap source => rfl
  | sequence children hollow source =>
      have hone : min 1 maxCount = 1 := rfl
      rw [branchCount, branches, ← hone, countProduct_eq, Nat.one_mul]
  | choice children disabled source =>
      have hzero : min 0 maxCount = 0 := rfl
      rw [branchCount, branches, ← hzero, countSum_eq, Nat.zero_add]

theorem countProduct_eq (acc : Nat) (nodes : List Node) :
    countProduct (min acc maxCount) nodes =
      min (acc * (branchesOfAll nodes).length) maxCount := by
  cases nodes with
  | nil => rw [countProduct, branchesOfAll, List.length_singleton, Nat.mul_one]
  | cons node nodes =>
      rw [countProduct, branchCount_eq, boundedMul_min, countProduct_eq, branchesOfAll,
        length_combine, Nat.mul_assoc]

theorem countSum_eq (acc : Nat) (nodes : List Node) :
    countSum (min acc maxCount) nodes = min (acc + (branchesOfAny nodes).length) maxCount := by
  cases nodes with
  | nil => rw [countSum, branchesOfAny, List.length_nil, Nat.add_zero]
  | cons node nodes =>
      rw [countSum, branchCount_eq, boundedAdd_min, countSum_eq, branchesOfAny,
        List.length_append, Nat.add_assoc]

end

theorem branchCount_eq_length_paths (node : Node) :
    node.branchCount = min node.paths.length maxCount := by
  rw [branchCount_eq, paths, List.length_map]

end Node

end LiteralSieve
