import LightClient.Proofs.Trie.Tree
import LightClient.Trie.Proof

/-! The pass over the contour builds a sound tree. The stack holds trees that
part higher and higher up from top to bottom; `Contour.collapse` joins those that
part below the next node, so each join is a fork where its two sides part. -/

namespace LightClient.Trie

/-! ## What is hashed -/

namespace Contour

/-- The byte strings that `collapse` hashes. -/
def collapseInputs (depth : Nat) (top : Node) : List Node → Path → List Bytes
  | [], _ => []
  | left :: below, shared =>
    if depth < shared.bits then
      branchInput left top ::
        collapseInputs depth (.join shared left top) below (sharedBelow shared below)
    else []

/-- The byte strings that `push` hashes. -/
def pushInputs (c : Contour) (node : Node) : List Bytes :=
  collapseInputs (c.top.path.commonPrefix node.path).bits c.top c.below c.shared

/-- The byte strings that `close` hashes. -/
def closeInputs (top : Node) : List Node → Path → List Bytes
  | [], _ => []
  | left :: below, shared =>
    branchInput left top :: closeInputs (.join shared left top) below (sharedBelow shared below)

/-- The byte strings hashed while the remaining nodes are pushed and all is closed. -/
def passInputs (c : Contour) : List Node → List Bytes
  | [] => closeInputs c.top c.below c.shared
  | node :: rest => c.pushInputs node ++ (c.push node).passInputs rest

end Contour

/-- The byte strings that `foldContour` hashes. -/
def foldInputs : List Node → List Bytes
  | first :: second :: rest =>
    Contour.passInputs ⟨second, [first], first.path.commonPrefix second.path⟩ rest
  | _ => []

/-! ## Stacks of trees -/

/-- Sound trees, the nearest first, that part from each other higher and higher
up, and all above `depth`. -/
def Stacked : Nat → Tree → List Tree → Prop
  | _, t, [] => t.Sound
  | depth, t, u :: us =>
    t.Sound ∧ ∃ pre, Parts pre u.top.bits t.top.bits ∧ pre.length < depth ∧ Stacked pre.length u us

/-- `shared` is where the two nearest trees part. -/
def SharedAt (shared : Path) (t : Tree) : List Tree → Prop
  | [] => True
  | u :: _ => Parts shared.bitString u.top.bits t.top.bits

/-- The tips of all trees, the farthest first. -/
def stackTips (t : Tree) : List Tree → List Node
  | [] => t.tips
  | u :: us => stackTips u us ++ t.tips

def stackInputs (t : Tree) : List Tree → List Bytes
  | [] => t.inputs
  | u :: us => stackInputs u us ++ t.inputs

theorem Stacked.sound {depth : Nat} {t : Tree} {ts : List Tree} (h : Stacked depth t ts) :
    t.Sound := by
  cases ts with
  | nil => exact h
  | cons u us => exact h.1

/-- Joining the two nearest trees keeps the stack in shape. -/
theorem Stacked.join {depth : Nat} {t u : Tree} {us : List Tree} {shared : Path}
    (h : Stacked depth t (u :: us)) (hshared : SharedAt shared t (u :: us)) :
    Stacked shared.bits (.fork shared u t) us ∧
      SharedAt (Contour.sharedBelow shared (us.map Tree.top)) (.fork shared u t) us := by
  obtain ⟨ht, pre, hpre, -, hus⟩ := h
  obtain rfl : shared.bitString = pre := hshared.unique hpre
  have hsound : (Tree.fork shared u t).Sound := ⟨hpre, hus.sound, ht⟩
  rw [Path.length_bitString] at hus
  cases us with
  | nil => exact ⟨hsound, trivial⟩
  | cons w ws =>
    obtain ⟨-, pre', hpre', hlt, hws⟩ := hus
    -- the tree below parts from the new fork where it parted from its left side
    have hparts : Parts pre' w.top.bits (Tree.fork shared u t).top.bits :=
      hpre'.of_prefix_right hpre.prefix_left (by simpa using hlt)
    refine ⟨⟨hsound, pre', hparts, hlt, hws⟩, ?_⟩
    have hbits := Path.bitString_commonPrefix_of_parts (p := w.top.path) (q := shared) hparts
    simpa only [SharedAt, List.map_cons, Contour.sharedBelow, hbits] using hparts

theorem stackTips_join (shared : Path) (t u : Tree) (us : List Tree) :
    stackTips (.fork shared u t) us = stackTips t (u :: us) := by
  cases us with
  | nil => rfl
  | cons w ws => simp [stackTips, Tree.tips]

theorem stackInputs_join_subset (shared : Path) (t u : Tree) (us : List Tree) :
    stackInputs (.fork shared u t) us ⊆
      stackInputs t (u :: us) ++ [branchInput u.top t.top] := by
  intro x hx
  cases us <;> simp [stackInputs, Tree.inputs] at hx ⊢ <;> grind

/-! ## The steps of the pass -/

/-- Collapsing before a node that parts from the top at `q`: what is left on the
stack parts above `q`, and nothing is lost. -/
theorem Stacked.collapse {q : List Bool} {x : Node} {depth : Nat} {t : Tree} {ts : List Tree}
    {shared : Path} (h : Stacked depth t ts) (hshared : SharedAt shared t ts)
    (hx : Parts q t.top.bits x.bits) :
    ∃ t' ts', (Contour.collapse q.length t.top (ts.map Tree.top) shared).top = t'.top ∧
      (Contour.collapse q.length t.top (ts.map Tree.top) shared).below = ts'.map Tree.top ∧
      Stacked q.length t' ts' ∧ Parts q t'.top.bits x.bits ∧
      stackTips t' ts' = stackTips t ts ∧
      stackInputs t' ts' ⊆ stackInputs t ts ++
        Contour.collapseInputs q.length t.top (ts.map Tree.top) shared := by
  induction ts generalizing depth t shared with
  | nil => exact ⟨t, [], rfl, rfl, h, hx, rfl, by simp⟩
  | cons u us ih =>
    by_cases hlt : q.length < shared.bits
    · obtain ⟨hstack, hshared'⟩ := h.join hshared
      have hprefix : shared.bitString <+: t.top.bits := Parts.prefix_right hshared
      have hx' : Parts q (Tree.fork shared u t).top.bits x.bits :=
        hx.of_prefix_left hprefix (by simpa using hlt)
      obtain ⟨t', ts', htop, hbelow, hstack', hparts, htips, hinputs⟩ := ih hstack hshared' hx'
      refine ⟨t', ts', ?_, ?_, hstack', hparts, ?_, ?_⟩
      · simpa only [List.map_cons, Contour.collapse, if_pos hlt, Tree.top_fork] using htop
      · simpa only [List.map_cons, Contour.collapse, if_pos hlt, Tree.top_fork] using hbelow
      · rw [htips, stackTips_join]
      · intro y hy
        simp only [List.map_cons, Contour.collapseInputs, if_pos hlt]
        rcases List.mem_append.mp (hinputs hy) with hy | hy
        · have := stackInputs_join_subset shared t u us hy
          simp only [List.mem_append, List.mem_singleton] at this
          rcases this with hy | rfl <;> simp [*]
        · exact List.mem_append_right _ (List.mem_cons_of_mem _ hy)
    · refine ⟨t, u :: us, ?_, ?_, ?_, hx, rfl, ?_⟩
      · simp only [List.map_cons, Contour.collapse, if_neg hlt]
      · simp only [List.map_cons, Contour.collapse, if_neg hlt]
      · obtain ⟨ht, pre, hpre, -, hus⟩ := h
        obtain rfl : shared.bitString = pre := hshared.unique hpre
        -- the top cannot part from its two neighbours at one depth
        have hne := hpre.length_ne hx
        rw [Path.length_bitString] at hne
        refine ⟨ht, _, hpre, ?_, hus⟩
        rw [Path.length_bitString]
        omega
      · exact List.subset_append_left _ _

/-- Closing a stack yields one sound tree over all its tips. -/
theorem Stacked.close {depth : Nat} {t : Tree} {ts : List Tree} {shared : Path}
    (h : Stacked depth t ts) (hshared : SharedAt shared t ts) :
    ∃ u : Tree, u.Sound ∧ u.top = Contour.close t.top (ts.map Tree.top) shared ∧
      u.tips = stackTips t ts ∧
      u.inputs ⊆ stackInputs t ts ++ Contour.closeInputs t.top (ts.map Tree.top) shared := by
  induction ts generalizing depth t shared with
  | nil => exact ⟨t, h, rfl, rfl, by simp [stackInputs]⟩
  | cons u us ih =>
    obtain ⟨hstack, hshared'⟩ := h.join hshared
    obtain ⟨v, hv, htop, htips, hinputs⟩ := ih hstack hshared'
    refine ⟨v, hv, htop, ?_, ?_⟩
    · rw [htips, stackTips_join]
    · intro y hy
      simp only [List.map_cons, Contour.closeInputs]
      rcases List.mem_append.mp (hinputs hy) with hy | hy
      · have := stackInputs_join_subset shared t u us hy
        simp only [List.mem_append, List.mem_singleton] at this
        rcases this with hy | rfl <;> simp [*]
      · exact List.mem_append_right _ (List.mem_cons_of_mem _ hy)

/-- The trees that a contour stands for; the nearest is the last node pushed. -/
structure Contour.Holds (c : Contour) (last : Node) (ts : List Tree) : Prop where
  top_eq : c.top = last
  below_eq : c.below = ts.map Tree.top
  stacked : ∃ depth, Stacked depth (.tip last) ts
  shared : SharedAt c.shared (.tip last) ts

/-- **Step.** Pushing the next node in order keeps the contour a stack of trees. -/
theorem Contour.Holds.push {c : Contour} {last node : Node} {ts : List Tree}
    (h : c.Holds last ts) (hbefore : Before last.bits node.bits) :
    ∃ ts', (c.push node).Holds node ts' ∧
      stackTips (.tip node) ts' = stackTips (.tip last) ts ++ [node] ∧
      stackInputs (.tip node) ts' ⊆ stackInputs (.tip last) ts ++ c.pushInputs node := by
  obtain ⟨q, hq⟩ := hbefore
  obtain ⟨depth, hstack⟩ := h.stacked
  have hbits := Path.bits_commonPrefix_of_parts hq
  have hshared := Path.bitString_commonPrefix_of_parts hq
  obtain ⟨t', ts', htop, hbelow, hstack', hparts, htips, hinputs⟩ :=
    hstack.collapse (x := node) h.shared hq
  refine ⟨t' :: ts', ⟨rfl, ?_, ⟨q.length + 1, ?_⟩, ?_⟩, ?_, ?_⟩
  · simp only [Contour.push, h.top_eq, h.below_eq, hbits]
    rw [List.map_cons, ← htop, ← hbelow]
    rfl
  · exact ⟨trivial, q, hparts, Nat.lt_succ_self _, hstack'⟩
  · simp only [Contour.push, h.top_eq, SharedAt, hshared]
    exact hparts
  · rw [stackTips, htips]
    rfl
  · simp only [Contour.pushInputs, h.top_eq, h.below_eq, hbits]
    simpa only [stackInputs, Tree.inputs, Tree.top_tip, List.append_nil] using hinputs

/-- **Run.** Pushing all remaining nodes and closing yields one sound tree. -/
theorem Contour.Holds.pass {c : Contour} {last : Node} {ts : List Tree} {rest : List Node}
    (h : c.Holds last ts) (horder : InOrder (last :: rest)) :
    ∃ u : Tree, u.Sound ∧ u.tips = stackTips (.tip last) ts ++ rest ∧
      u.top = Contour.close (rest.foldl Contour.push c).top (rest.foldl Contour.push c).below
        (rest.foldl Contour.push c).shared ∧
      u.inputs ⊆ stackInputs (.tip last) ts ++ c.passInputs rest := by
  induction rest generalizing c last ts with
  | nil =>
    obtain ⟨depth, hstack⟩ := h.stacked
    obtain ⟨u, hu, htop, htips, hinputs⟩ := hstack.close h.shared
    refine ⟨u, hu, by simpa using htips, ?_, ?_⟩
    · rw [List.foldl_nil, h.top_eq, h.below_eq]
      exact htop
    · rw [Contour.passInputs, h.top_eq, h.below_eq]
      exact hinputs
  | cons node rest ih =>
    have hbefore := List.rel_of_pairwise_cons horder List.mem_cons_self
    obtain ⟨ts', hholds, htips, hinputs⟩ := h.push hbefore
    obtain ⟨u, hu, htips', htop, hinputs'⟩ := ih hholds (List.Pairwise.tail horder)
    refine ⟨u, hu, ?_, htop, ?_⟩
    · rw [htips', htips, List.append_assoc]
      rfl
    · intro y hy
      rw [Contour.passInputs, ← List.append_assoc]
      rcases List.mem_append.mp (hinputs' hy) with hy | hy
      · exact List.mem_append_left _ (hinputs hy)
      · exact List.mem_append_right _ hy

/-- The pass over at least two nodes in order is the hash of a sound tree over them. -/
theorem exists_tree_foldContour {first second : Node} {rest : List Node}
    (h : InOrder (first :: second :: rest)) :
    ∃ t : Tree, t.Sound ∧ t.tips = first :: second :: rest ∧
      t.top.hash = foldContour (first :: second :: rest) ∧
      t.inputs ⊆ foldInputs (first :: second :: rest) := by
  obtain ⟨pre, hpre⟩ := List.rel_of_pairwise_cons h List.mem_cons_self
  have hshared := Path.bitString_commonPrefix_of_parts hpre
  have hstart : Contour.Holds ⟨second, [first], first.path.commonPrefix second.path⟩ second
      [.tip first] :=
    ⟨rfl, rfl, ⟨pre.length + 1, trivial, pre, hpre, Nat.lt_succ_self _, trivial⟩,
      by simpa only [SharedAt, hshared, Tree.top_tip] using hpre⟩
  obtain ⟨t, ht, htips, htop, hinputs⟩ := hstart.pass (List.Pairwise.tail h)
  refine ⟨t, ht, htips, ?_, ?_⟩
  · rw [htop]
    rfl
  · simpa [stackInputs, Tree.inputs, foldInputs] using hinputs

/-- The pass over the tips of a sound tree gives the hash of its top. -/
theorem Tree.Sound.foldContour_tips {t : Tree} (h : t.Sound) (hlen : 2 ≤ t.tips.length) :
    foldContour t.tips = t.top.hash := by
  have horder := h.inOrder_tips
  match htips : t.tips, horder, hlen with
  | first :: second :: rest, horder, _ =>
    obtain ⟨u, hu, hutips, hutop, -⟩ := exists_tree_foldContour horder
    obtain rfl := hu.unique h (hutips.trans htips.symm)
    exact hutop.symm

end LightClient.Trie
