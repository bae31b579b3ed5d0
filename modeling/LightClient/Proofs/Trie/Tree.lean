import LightClient.Proofs.Hash
import LightClient.Proofs.Trie.Split

/-! The hash tree over nodes in path order, with the byte strings that are hashed
to build it. A sound tree is fixed by its tips; two sound trees with one top have
tips that agree, unless the inputs of their hashes collide. -/

namespace LightClient.Trie

/-- What `branchHash` hashes. -/
def branchInput (left right : Node) : Bytes :=
  [left.hash.toList, right.hash.toList, left.path.toRaw, right.path.toRaw].flatten

theorem sha256_branchInput (left right : Node) :
    sha256 (branchInput left right) = branchHash left right := rfl

@[simp] theorem length_branchInput (left right : Node) :
    (branchInput left right).length = 132 := by
  simp [branchInput]

theorem Node.eq_of {m n : Node} (hpath : m.path = n.path) (hhash : m.hash = n.hash) : m = n := by
  cases m
  cases n
  simp_all

@[simp] theorem Node.path_join (path : Path) (left right : Node) :
    (Node.join path left right).path = path := rfl

theorem branchInput_injective {l r l' r' : Node} (h : branchInput l r = branchInput l' r') :
    l = l' ∧ r = r' := by
  simp only [branchInput, List.flatten_cons] at h
  obtain ⟨hl, h⟩ := List.append_inj h (by simp)
  obtain ⟨hr, h⟩ := List.append_inj h (by simp)
  obtain ⟨hlp, h⟩ := List.append_inj h (by simp)
  obtain ⟨hrp, -⟩ := List.append_inj h (by simp)
  exact ⟨Node.eq_of (Path.toRaw_injective hlp) (FixedBytes.toList_injective hl),
    Node.eq_of (Path.toRaw_injective hrp) (FixedBytes.toList_injective hr)⟩

/-! ## Trees -/

inductive Tree
  | tip (node : Node)
  | fork (path : Path) (left right : Tree)

namespace Tree

/-- The node that stands for the whole tree. -/
def top : Tree → Node
  | tip node => node
  | fork path left right => .join path left.top right.top

@[simp] theorem top_tip (node : Node) : (tip node).top = node := rfl

@[simp] theorem top_fork (path : Path) (left right : Tree) :
    (fork path left right).top = .join path left.top right.top := rfl

/-- The nodes the tree is built from, from left to right. -/
def tips : Tree → List Node
  | tip node => [node]
  | fork _ left right => left.tips ++ right.tips

/-- The byte strings that are hashed to build the tree from its tips. -/
def inputs : Tree → List Bytes
  | tip _ => []
  | fork _ left right => branchInput left.top right.top :: (left.inputs ++ right.inputs)

/-- Every fork stands where its two sides part. -/
def Sound : Tree → Prop
  | tip _ => True
  | fork path left right =>
    Parts path.bitString left.top.bits right.top.bits ∧ left.Sound ∧ right.Sound

theorem tips_ne_nil (t : Tree) : t.tips ≠ [] := by
  induction t with
  | tip n => simp [tips]
  | fork path l r ihl _ => simp [tips, ihl]

theorem Sound.top_above {t : Tree} (h : t.Sound) {n : Node} (hn : n ∈ t.tips) :
    t.top.bits <+: n.bits := by
  induction t with
  | tip m =>
    rw [List.mem_singleton.mp hn]
    exact List.prefix_refl _
  | fork path l r ihl ihr =>
    obtain ⟨hparts, hl, hr⟩ := h
    rcases List.mem_append.mp hn with hn | hn
    · exact hparts.prefix_left.trans (ihl hl hn)
    · exact hparts.prefix_right.trans (ihr hr hn)

/-- A tip on the left of a fork and one on its right part there. -/
theorem Sound.parts_tips {path : Path} {l r : Tree} (h : (fork path l r).Sound) {m n : Node}
    (hm : m ∈ l.tips) (hn : n ∈ r.tips) : Parts path.bitString m.bits n.bits :=
  h.1.mono (h.2.1.top_above hm) (h.2.2.top_above hn)

theorem Sound.inOrder_tips {t : Tree} (h : t.Sound) : InOrder t.tips := by
  induction t with
  | tip n => exact List.pairwise_singleton _ _
  | fork path l r ihl ihr =>
    refine List.pairwise_append.mpr ⟨ihl h.2.1, ihr h.2.2, ?_⟩
    intro m hm n hn
    exact ⟨_, h.parts_tips hm hn⟩

/-- The tips of a fork fix its path. -/
theorem Sound.path_unique {path path' : Path} {l r l' r' : Tree} (h : (fork path l r).Sound)
    (h' : (fork path' l' r').Sound) (htips : (fork path l r).tips = (fork path' l' r').tips) :
    path = path' := by
  obtain ⟨a, ls, hl⟩ := List.exists_cons_of_ne_nil l.tips_ne_nil
  obtain ⟨a', ls', hl'⟩ := List.exists_cons_of_ne_nil l'.tips_ne_nil
  obtain ⟨rs, b, hr⟩ := List.eq_nil_or_concat r.tips |>.resolve_left r.tips_ne_nil
  obtain ⟨rs', b', hr'⟩ := List.eq_nil_or_concat r'.tips |>.resolve_left r'.tips_ne_nil
  have hfirst : a = a' := by
    have := congrArg List.head? htips
    simpa [tips, hl, hl'] using this
  have hlast : b = b' := by
    have := congrArg List.getLast? htips
    simpa [tips, hr, hr'] using this
  have hab := h.parts_tips (m := a) (n := b) (by simp [hl]) (by simp [hr])
  have hab' := h'.parts_tips (m := a') (n := b') (by simp [hl']) (by simp [hr'])
  rw [← hfirst, ← hlast] at hab'
  exact Path.bitString_injective (hab.unique hab')

/-- The tips of a fork fix the tips of its two sides. -/
theorem Sound.tips_unique {path : Path} {l r l' r' : Tree} (h : (fork path l r).Sound)
    (h' : (fork path l' r').Sound) (htips : (fork path l r).tips = (fork path l' r').tips) :
    l.tips = l'.tips ∧ r.tips = r'.tips := by
  have hsides : ∀ n, n ∈ l.tips → n ∈ r'.tips → False := fun n hl hr =>
    left_right_absurd (h.1.1.trans (h.2.1.top_above hl)) (h'.1.2.trans (h'.2.2.top_above hr))
  have hsides' : ∀ n, n ∈ l'.tips → n ∈ r.tips → False := fun n hl hr =>
    left_right_absurd (h'.1.1.trans (h'.2.1.top_above hl)) (h.1.2.trans (h.2.2.top_above hr))
  rcases List.append_eq_append_iff.mp htips with ⟨mid, hl', hr⟩ | ⟨mid, hl, hr'⟩
  · cases mid with
    | nil => exact ⟨by simpa using hl'.symm, by simpa using hr⟩
    | cons n mid => exact (hsides' n (by simp [hl']) (by simp [hr])).elim
  · cases mid with
    | nil => exact ⟨by simpa using hl, by simpa using hr'.symm⟩
    | cons n mid => exact (hsides n (by simp [hl]) (by simp [hr'])).elim

theorem length_tips_pos (t : Tree) : 0 < t.tips.length :=
  List.length_pos_iff.mpr t.tips_ne_nil

/-- Sound trees with the same tips are the same. -/
theorem Sound.unique {t u : Tree} (ht : t.Sound) (hu : u.Sound) (h : t.tips = u.tips) : t = u := by
  induction t generalizing u with
  | tip n =>
    cases u with
    | tip m => rw [List.singleton_inj.mp h]
    | fork path l r =>
      have hlen := congrArg List.length h
      have hl := l.length_tips_pos
      have hr := r.length_tips_pos
      simp only [tips, List.length_singleton, List.length_append] at hlen
      omega
  | fork path l r ihl ihr =>
    cases u with
    | tip m =>
      have hlen := congrArg List.length h
      have hl := l.length_tips_pos
      have hr := r.length_tips_pos
      simp only [tips, List.length_singleton, List.length_append] at hlen
      omega
    | fork path' l' r' =>
      obtain rfl := ht.path_unique hu h
      obtain ⟨hl, hr⟩ := ht.tips_unique hu h
      rw [ihl ht.2.1 hu.2.1 hl, ihr ht.2.2 hu.2.2 hr]

end Tree

/-! ## Agreement -/

/-- One of two positions lies at or below the other. -/
def Meets (m n : Node) : Prop := m.bits <+: n.bits ∨ n.bits <+: m.bits

theorem Meets.symm {m n : Node} (h : Meets m n) : Meets n m := Or.symm h

/-- Two lists of nodes cut one trie: each node of one meets a node of the other,
and at one position both have one hash. -/
structure Agree (ms ns : List Node) : Prop where
  left : ∀ m ∈ ms, ∃ n ∈ ns, Meets m n
  right : ∀ n ∈ ns, ∃ m ∈ ms, Meets m n
  hash_eq : ∀ m ∈ ms, ∀ n ∈ ns, m.path = n.path → m.hash = n.hash

theorem Agree.symm {ms ns : List Node} (h : Agree ms ns) : Agree ns ms where
  left n hn := by
    obtain ⟨m, hm, hmn⟩ := h.right n hn
    exact ⟨m, hm, hmn.symm⟩
  right m hm := by
    obtain ⟨n, hn, hmn⟩ := h.left m hm
    exact ⟨n, hn, hmn.symm⟩
  hash_eq n hn m hm hpath := (h.hash_eq m hm n hn hpath.symm).symm

theorem Agree.refl_singleton (n : Node) : Agree [n] [n] where
  left m hm := ⟨m, hm, Or.inl (List.prefix_refl _)⟩
  right m hm := ⟨m, hm, Or.inl (List.prefix_refl _)⟩
  hash_eq m hm m' hm' _ := by rw [List.mem_singleton.mp hm, List.mem_singleton.mp hm']

namespace Tree

/-- A single tip at the place of a fork agrees with all below it. -/
theorem Sound.agree_tip {path : Path} {l r : Tree} (h : (fork path l r).Sound) :
    Agree [(fork path l r).top] (fork path l r).tips where
  left m hm := by
    rw [List.mem_singleton.mp hm]
    obtain ⟨n, ns, hn⟩ := List.exists_cons_of_ne_nil (fork path l r).tips_ne_nil
    have hmem : n ∈ (fork path l r).tips := hn ▸ List.mem_cons_self
    exact ⟨n, hmem, Or.inl (h.top_above hmem)⟩
  right n hn := ⟨_, List.mem_singleton_self _, Or.inl (h.top_above hn)⟩
  hash_eq m hm n hn hpath := by
    -- a tip never lies at the fork itself
    exfalso
    rw [List.mem_singleton.mp hm] at hpath
    have hbits : n.bits = path.bitString := (congrArg Path.bitString hpath).symm
    rcases List.mem_append.mp hn with hl | hr
    · have hlen := (h.1.1.trans (h.2.1.top_above hl)).length_le
      rw [hbits, List.length_append, List.length_singleton] at hlen
      omega
    · have hlen := (h.1.2.trans (h.2.2.top_above hr)).length_le
      rw [hbits, List.length_append, List.length_singleton] at hlen
      omega

/-- Agreement on both sides of a fork is agreement on the fork. -/
theorem Sound.agree_fork {path : Path} {l r l' r' : Tree} (h : (fork path l r).Sound)
    (h' : (fork path l' r').Sound) (hl : Agree l.tips l'.tips) (hr : Agree r.tips r'.tips) :
    Agree (fork path l r).tips (fork path l' r').tips where
  left m hm := by
    rcases List.mem_append.mp hm with hm | hm
    · obtain ⟨n, hn, hmn⟩ := hl.left m hm
      exact ⟨n, List.mem_append_left _ hn, hmn⟩
    · obtain ⟨n, hn, hmn⟩ := hr.left m hm
      exact ⟨n, List.mem_append_right _ hn, hmn⟩
  right n hn := by
    rcases List.mem_append.mp hn with hn | hn
    · obtain ⟨m, hm, hmn⟩ := hl.right n hn
      exact ⟨m, List.mem_append_left _ hm, hmn⟩
    · obtain ⟨m, hm, hmn⟩ := hr.right n hn
      exact ⟨m, List.mem_append_right _ hm, hmn⟩
  hash_eq m hm n hn hpath := by
    have hbits : m.bits = n.bits := congrArg Path.bitString hpath
    rcases List.mem_append.mp hm with hm | hm <;> rcases List.mem_append.mp hn with hn | hn
    · exact hl.hash_eq m hm n hn hpath
    · have hleft := h.1.1.trans (h.2.1.top_above hm)
      have hright := h'.1.2.trans (h'.2.2.top_above hn)
      exact (left_right_absurd (hbits ▸ hleft) hright).elim
    · have hright := h.1.2.trans (h.2.2.top_above hm)
      have hleft := h'.1.1.trans (h'.2.1.top_above hn)
      exact (left_right_absurd hleft (hbits ▸ hright)).elim
    · exact hr.hash_eq m hm n hn hpath

/-- Forks with one hash have the same two sides below them. -/
theorem tops_eq_of_hash_eq {path path' : Path} {l r l' r' : Tree}
    (hsafe : ¬ Collision ((fork path l r).inputs ++ (fork path' l' r').inputs))
    (h : (fork path l r).top.hash = (fork path' l' r').top.hash) :
    l.top = l'.top ∧ r.top = r'.top := by
  apply branchInput_injective
  exact eq_of_sha256_eq hsafe (by simp [inputs]) (by simp [inputs]) h

theorem left_inputs_subset (path : Path) (l r : Tree) : l.inputs ⊆ (fork path l r).inputs :=
  List.subset_cons_of_subset _ (List.subset_append_left _ _)

theorem right_inputs_subset (path : Path) (l r : Tree) : r.inputs ⊆ (fork path l r).inputs :=
  List.subset_cons_of_subset _ (List.subset_append_right _ _)

/-- **Descent.** Sound trees with one top agree, by descending both at once. -/
theorem Sound.agree {t u : Tree} (ht : t.Sound) (hu : u.Sound)
    (hsafe : ¬ Collision (t.inputs ++ u.inputs)) (htop : t.top = u.top) :
    Agree t.tips u.tips := by
  induction t generalizing u with
  | tip n =>
    cases u with
    | tip m =>
      obtain rfl : n = m := htop
      exact Agree.refl_singleton n
    | fork path l r =>
      obtain rfl : n = (fork path l r).top := htop
      exact hu.agree_tip
  | fork path l r ihl ihr =>
    cases u with
    | tip m =>
      obtain rfl : (fork path l r).top = m := htop
      exact ht.agree_tip.symm
    | fork path' l' r' =>
      obtain rfl : path = path' := congrArg Node.path htop
      obtain ⟨hl, hr⟩ := tops_eq_of_hash_eq hsafe (congrArg Node.hash htop)
      refine ht.agree_fork hu (ihl ht.2.1 hu.2.1 ?_ hl) (ihr ht.2.2 hu.2.2 ?_ hr)
      · exact not_collision_of_subset hsafe (left_inputs_subset path l r)
          (left_inputs_subset path l' r')
      · exact not_collision_of_subset hsafe (right_inputs_subset path l r)
          (right_inputs_subset path l' r')

end Tree

end LightClient.Trie
