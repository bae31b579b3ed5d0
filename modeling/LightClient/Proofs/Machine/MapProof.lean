import LightClient.Proofs.Machine.Path
import LightClient.Proofs.Trie.Root

/-! Checking a map proof stays within its bounds. The contour, as a vector, is the
stack of `Trie.Contour` upside down and is never empty; folding it into a root begins
with two nodes, which is what is left when the smaller cases are taken out. -/

namespace LightClient.Machine.MapProof

open Trie (MapKey Path Node Contour)

/-! ## The contour -/

/-- A stack as a vector: the nearest node comes last. -/
def vector (top : Node) (below : List Node) : List Node := (top :: below).reverse

@[simp] theorem length_vector (top : Node) (below : List Node) :
    (vector top below).length = below.length + 1 := by
  simp [vector]

@[simp] theorem vector_concat (top node : Node) (below : List Node) :
    vector top below ++ [node] = vector node (top :: below) := by
  simp [vector]

theorem join_eq (path : Path) (left right : Node) :
    join path left right = .ok (.join path left right) := by
  rw [join, Path.toRaw_eq, ok_bind, Path.toRaw_eq, ok_bind]
  rfl

/-- One fold joins the two nearest nodes. -/
theorem fold_vector (top left : Node) (below : List Node) (shared : Path) :
    ∃ next, fold (vector top (left :: below)) shared =
        .ok (vector (.join shared left top) below, next) ∧
      next.getD shared = Contour.sharedBelow shared below := by
  refine ⟨below.head?.map fun next => next.path.commonPrefix shared, ?_, ?_⟩
  · unfold fold
    rw [← vector_concat, pop_concat]
    have hleft : vector left below = below.reverse ++ [left] := by simp [vector]
    simp only [hleft, pop_concat, join_eq, ok_bind, List.getLast?_reverse]
    cases below with
    | nil => rfl
    | cons next rest =>
      simp [Path.commonPrefix_eq, vector]
  · cases below <;> rfl

section
variable {more : Path → Bool} {contour folded : List Node} {shared : Path} {below : Option Path}

theorem foldWhile_of_not (h : ¬ (1 < contour.length ∧ more shared)) :
    foldWhile more contour shared = .ok (contour, shared) := by
  rw [foldWhile, dif_neg h]

theorem foldWhile_of_fold (h : 1 < contour.length ∧ more shared)
    (hfold : fold contour shared = .ok (folded, below)) :
    foldWhile more contour shared = foldWhile more folded (below.getD shared) := by
  rw [foldWhile, dif_pos h]
  split
  · rename_i htrap
    rw [hfold] at htrap
    cases htrap
  · rename_i heq
    rw [hfold] at heq
    cases heq
    rfl

end

/-- The loop before a push is `Contour.collapse`. -/
theorem foldWhile_collapse (depth : Nat) (top : Node) (below : List Node) (shared : Path) :
    foldWhile (fun path => depth < path.bits) (vector top below) shared =
      .ok (vector (Contour.collapse depth top below shared).top
        (Contour.collapse depth top below shared).below,
        (Contour.collapse depth top below shared).shared) := by
  induction below generalizing top shared with
  | nil => exact foldWhile_of_not (by simp)
  | cons left below ih =>
    obtain ⟨next, hfold, hnext⟩ := fold_vector top left below shared
    unfold Contour.collapse
    split
    · rename_i hdepth
      rw [foldWhile_of_fold ⟨by simp, decide_eq_true hdepth⟩ hfold, hnext]
      exact ih _ _
    · rename_i hdepth
      exact foldWhile_of_not fun h => hdepth (of_decide_eq_true h.2)

/-- The loop at the end is `Contour.close`. -/
theorem foldWhile_close (top : Node) (below : List Node) (shared : Path) :
    ∃ path, foldWhile (fun _ => true) (vector top below) shared =
      .ok ([Contour.close top below shared], path) := by
  induction below generalizing top shared with
  | nil => exact ⟨shared, foldWhile_of_not (by simp)⟩
  | cons left below ih =>
    obtain ⟨next, hfold, hnext⟩ := fold_vector top left below shared
    rw [foldWhile_of_fold ⟨by simp, rfl⟩ hfold, hnext]
    exact ih _ _

/-- **Step.** There is a last node to push onto. -/
theorem push_vector (c : Contour) (node : Node) :
    push (vector c.top c.below, c.shared) node =
      .ok (vector (c.push node).top (c.push node).below, (c.push node).shared) := by
  have hlast : (vector c.top c.below)[c.below.length]? = some c.top := by simp [vector]
  have hsub : sub (vector c.top c.below).length 1 = .ok c.below.length := by
    rw [length_vector]
    exact sub_of_le (Nat.le_add_left _ _)
  rw [push, hsub, ok_bind, get_of_getElem? hlast, ok_bind, Path.commonPrefix_eq, ok_bind,
    foldWhile_collapse, ok_bind]
  simp only [vector_concat]
  rfl

/-- **Run.** The contour stays a stack while all remaining nodes are pushed. -/
theorem foldlM_push (c : Contour) (rest : List Node) :
    rest.foldlM push (vector c.top c.below, c.shared) =
      .ok (vector (rest.foldl Contour.push c).top (rest.foldl Contour.push c).below,
        (rest.foldl Contour.push c).shared) := by
  induction rest generalizing c with
  | nil => rfl
  | cons node rest ih =>
    rw [List.foldlM_cons, push_vector, ok_bind, List.foldl_cons]
    exact ih _

/-- Two nodes are enough for every access of the fold. -/
theorem foldContour_of_two_le {nodes : List Node} (h : 2 ≤ nodes.length) :
    foldContour nodes = .ok (Trie.foldContour nodes) := by
  match nodes, h with
  | first :: second :: rest, _ =>
    have hrest : slice (first :: second :: rest) 2 (first :: second :: rest).length = .ok rest := by
      rw [slice_of_le (by simp) (Nat.le_refl _), List.take_length]
      rfl
    let start : Contour := ⟨second, [first], first.path.commonPrefix second.path⟩
    let last := rest.foldl Contour.push start
    have hpush : rest.foldlM push ([first, second], first.path.commonPrefix second.path) =
        .ok (vector last.top last.below, last.shared) := foldlM_push start rest
    obtain ⟨path, hclose⟩ := foldWhile_close last.top last.below last.shared
    have hfirst : get (first :: second :: rest) 0 = .ok first := rfl
    have hsecond : get (first :: second :: rest) 1 = .ok second := rfl
    rw [foldContour, hfirst, ok_bind, hsecond, ok_bind, Path.commonPrefix_eq, ok_bind, hrest,
      ok_bind, hpush, ok_bind]
    simp only [hclose, ok_bind]
    rfl

/-- With fewer nodes one of the two first accesses is out of bounds. -/
theorem foldContour_of_lt {nodes : List Node} (h : nodes.length < 2) :
    foldContour nodes = .error (.index nodes.length nodes.length) := by
  match nodes, h with
  | [], _ => rfl
  | [_], _ => rfl

/-! ## Sorting -/

theorem sort_eq (nodes : List Node) : sort nodes = .ok (nodes.mergeSort Node.le) := by
  have hrow : ∀ a ∈ nodes, (nodes.mapM fun b => Path.cmp a.path b.path) =
      .ok (nodes.map fun b => a.path.cmp b.path) :=
    fun a _ => mapM_of_ok fun b _ => Path.cmp_eq a.path b.path
  have htotal : (∀ a ∈ nodes, ∀ b ∈ nodes, a.le b || b.le a) ∧
      (∀ a ∈ nodes, ∀ b ∈ nodes, ∀ c ∈ nodes, a.le b → b.le c → a.le c) :=
    ⟨fun a _ b _ => Node.le_total a b, fun a _ b _ c _ => Node.le_trans a b c⟩
  rw [sort, mapM_of_ok hrow, ok_bind, if_pos htotal]
  rfl

/-! ## Checking -/

/-- The two accesses to a pair of neighbours. -/
theorem checkPair_eq (a b : Node) : checkPair [a, b] = .of (Trie.MapProof.checkOrder [a, b]) := by
  have hfirst : get [a, b] 0 = .ok a := rfl
  have hsecond : get [a, b] 1 = .ok b := rfl
  have hshown := Path.shown_eq a.path
  have hshown' := Path.shown_eq b.path
  rw [checkPair, Guarded.lift_bind hfirst, Guarded.lift_bind hsecond, Trie.MapProof.checkOrder]
  split
  · rw [Guarded.lift_bind hshown]
    rfl
  · rw [Guarded.lift_bind (Path.cmp_eq _ _)]
    split
    · rw [Guarded.lift_bind hshown, Guarded.lift_bind hshown']
      rfl
    · rw [Guarded.lift_bind (Path.isPrefixOf_eq _ _)]
      split
      · rw [Guarded.lift_bind hshown, Guarded.lift_bind hshown']
        rfl
      · rfl

theorem checkOrder_cons (a b : Node) (rest : List Node) :
    Trie.MapProof.checkOrder (a :: b :: rest) =
      Trie.MapProof.checkOrder [a, b] >>= fun _ => Trie.MapProof.checkOrder (b :: rest) := by
  rw [Trie.MapProof.checkOrder, Trie.MapProof.checkOrder]
  repeat' split
  all_goals rfl

theorem checkOrder_eq (nodes : List Node) :
    checkOrder nodes = .of (Trie.MapProof.checkOrder nodes) := by
  match nodes with
  | [] => rfl
  | [_] => rfl
  | a :: b :: rest =>
    rw [checkOrder_cons]
    exact Guarded.bind_eq_of (checkPair_eq a b) fun _ _ => checkOrder_eq (b :: rest)

theorem findAbove_eq (path : Path) (nodes : List Node) :
    findAbove path nodes = .ok (nodes.find? fun node => node.path.isPrefixOf path) := by
  induction nodes with
  | nil => rfl
  | cons node rest ih =>
    rw [findAbove, Path.isPrefixOf_eq, ok_bind, List.find?_cons]
    cases node.path.isPrefixOf path with
    | true => rfl
    | false => exact ih

theorem checkCovered_eq (nodes : List Node) (keys : List MapKey) :
    checkCovered nodes keys = .of (Trie.MapProof.checkCovered nodes keys) := by
  induction keys with
  | nil => rfl
  | cons key rest ih =>
    unfold checkCovered Trie.MapProof.checkCovered
    rw [List.forM_eq_forM, List.forM_cons, Guarded.lift_bind (findAbove_eq (.leaf key) nodes)]
    cases nodes.find? fun node => node.path.isPrefixOf (.leaf key) with
    | some node =>
      simp only
      rw [Guarded.lift_bind (Path.shown_eq node.path)]
      rfl
    | none => exact ih

theorem singleRoot_eq (path : Path) (hash : Digest) :
    singleRoot path hash = .ok (Trie.singleRoot path hash) := by
  rw [singleRoot, Path.toRaw_eq]
  rfl

/-- Two nodes or more are sorted and folded. -/
theorem sort_foldContour {ε : Type} {nodes : List Node} (h : 2 ≤ nodes.length) :
    (do foldContour (← sort nodes) : Guarded ε Digest) =
      .of (.ok (Trie.foldContour (nodes.mergeSort Node.le))) := by
  rw [Guarded.lift_bind (sort_eq nodes),
    foldContour_of_two_le (by rwa [(List.mergeSort_perm nodes _).length_eq])]
  rfl

theorem computeRoot_eq (proof : Trie.MapProof) : computeRoot proof = .of proof.computeRoot := by
  obtain ⟨nodes, entries, missing⟩ := proof
  -- what is left after the small cases has two nodes at least
  match nodes, entries with
  | [], [] => rfl
  | [node], [] =>
    unfold computeRoot Trie.MapProof.computeRoot
    simp only [singleRoot_eq]
    split <;> rfl
  | [], [e] =>
    unfold computeRoot Trie.MapProof.computeRoot
    simp only [singleRoot_eq]
    rfl
  | _ :: _ :: _, [] => exact sort_foldContour (by simp)
  | [], _ :: _ :: _ => exact sort_foldContour (by simp)
  | [_], _ :: _ => exact sort_foldContour (by simp)
  | _ :: _ :: _, _ :: _ => exact sort_foldContour (by simp; omega)

theorem check_eq (proof : Trie.MapProof) (expected : Digest) :
    check proof expected = .of (proof.check expected) := by
  refine Guarded.bind_eq_of (checkOrder_eq _) fun _ _ => ?_
  refine Guarded.bind_eq_of rfl fun entries _ => ?_
  refine Guarded.bind_eq_of rfl fun missing _ => ?_
  refine Guarded.bind_eq_of (checkCovered_eq _ _) fun _ _ => ?_
  refine Guarded.bind_eq_of (computeRoot_eq _) fun root _ => ?_
  split <;> rfl

end LightClient.Machine.MapProof
