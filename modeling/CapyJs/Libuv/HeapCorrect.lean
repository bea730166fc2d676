import CapyJs.Libuv.HeapShape

/-!
# The timer heap is a priority queue

The loops that move a node end, with the nodes in order, and so the heap holds a set of nodes
the smallest of which is at its root: `heap_insert` adds a node to the set, and `heap_remove`
takes one out.
-/
namespace CapyJs.Libuv.Heap
open CapyJs.Heap

variable {ι κ : Type*} [DecidableEq ι] [LinearOrder κ] {key : ι → κ} {h : Heap ι}
  {nodeAt : ℕ → ι} {n p : ℕ} {x : ι}

/-- The order that the keys of the nodes give. -/
def byKey (key : ι → κ) (x y : ι) : Bool := decide (key x < key y)

/-! ## The number of nodes -/

@[simp] theorem nelts_setNode (h : Heap ι) (x : ι) (node : HeapNode ι) :
    (h.setNode x node).nelts = h.nelts := rfl

@[simp] theorem nelts_setParent (h : Heap ι) (parent : ι) (o : Option ι) :
    (h.setParent parent o).nelts = h.nelts := by
  cases o <;> rfl

@[simp] theorem nelts_replaceChild (h : Heap ι) (old new : ι) (o : Option ι) :
    (h.replaceChild old new o).nelts = h.nelts := by
  unfold replaceChild
  split
  · rfl
  · split_ifs <;> rfl

@[simp] theorem nelts_nodeSwap (h : Heap ι) (parent child : ι) :
    (h.nodeSwap parent child).nelts = h.nelts := by
  simp only [nodeSwap]
  split_ifs <;> simp [relink, setLeft, setRight, setNode]

@[simp] theorem nelts_takeOver (h : Heap ι) (node child : ι) :
    (h.takeOver node child).nelts = h.nelts := by
  simp [takeOver, setNode]

@[simp] theorem nelts_assign (h : Heap ι) (value : Option ι) (l : Link ι) :
    (h.assign value l).nelts = h.nelts := by
  cases l <;> rfl

/-! ## Moving a node -/

/-- The walk up ends, with the tree in order. -/
theorem walkUp_spec (fuel : ℕ) (hl : Laid h nodeAt n) (ha : Around key nodeAt n p)
    (hb : Below key nodeAt n p) (hp : 1 ≤ p) (hn : p ≤ n) (hfuel : p ≤ fuel) :
    ∃ h' nodeAt', walkUp (byKey key) (nodeAt p) fuel h = some h' ∧ h'.nelts = h.nelts ∧
      Laid h' nodeAt' n ∧ Ordered key nodeAt' n ∧ nodes nodeAt' n = nodes nodeAt n := by
  induction fuel generalizing h nodeAt p with
  | zero => omega
  | succ fuel ih =>
    rw [walkUp, hl.node p hp hn, linksAt]
    by_cases hroot : p = 1
    · have hord : Ordered key nodeAt n := ha.ordered hb fun hp2 => by omega
      exact ⟨h, nodeAt, by simp [hroot, occupant], rfl, hl, hord, rfl⟩
    · have hparent : occupant nodeAt n (p / 2) = some (nodeAt (p / 2)) :=
        occupant_of_mem (by omega) (by omega)
      by_cases hless : key (nodeAt p) < key (nodeAt (p / 2))
      · obtain ⟨ha', hb'⟩ := ha.up (by omega) hn hless
        obtain ⟨h', nodeAt', hwalk, hnelts, hl', hord, hnodes⟩ :=
          ih (hl.nodeSwap (by omega) hn) ha' hb' (by omega) (by omega) (by omega)
        rw [exchange_left] at hwalk
        refine ⟨h', nodeAt', by simpa [hparent, byKey, hless] using hwalk, ?_, hl', hord, ?_⟩
        · rw [hnelts, nelts_nodeSwap]
        · rw [hnodes, nodes_exchange ⟨by omega, by omega⟩ ⟨hp, hn⟩]
      · have hord : Ordered key nodeAt n := ha.ordered hb fun _ => not_lt.mp hless
        exact ⟨h, nodeAt, by simp [hparent, byKey, hless], rfl, hl, hord, rfl⟩

omit [DecidableEq ι] in
/-- One comparison of the walk down, with the node that may be at place `d`. -/
theorem exists_smaller (key : ι → κ) (nodeAt : ℕ → ι) (c d : ℕ) (hc : 1 ≤ c ∧ c ≤ n) (hd : 1 ≤ d) :
    ∃ e, (e = c ∨ e = d) ∧ 1 ≤ e ∧ e ≤ n ∧
      smaller (byKey key) (nodeAt c) (occupant nodeAt n d) = nodeAt e ∧
      key (nodeAt e) ≤ key (nodeAt c) ∧ (d ≤ n → key (nodeAt e) ≤ key (nodeAt d)) := by
  by_cases hdn : d ≤ n
  · rw [occupant_of_mem hd hdn]
    by_cases hless : key (nodeAt d) < key (nodeAt c)
    · exact ⟨d, .inr rfl, hd, hdn, by simp [smaller, byKey, hless], hless.le, fun _ => le_rfl⟩
    · exact ⟨c, .inl rfl, hc.1, hc.2, by simp [smaller, byKey, hless], le_rfl,
        fun _ => not_lt.mp hless⟩
  · exact ⟨c, .inl rfl, hc.1, hc.2, by simp [smaller, occupant, hdn], le_rfl, fun h => absurd h hdn⟩

omit [DecidableEq ι] in
/-- The walk down finds the place of the smallest of a node and its children. -/
theorem Laid.exists_smallest (hl : Laid h nodeAt n) (key : ι → κ) (hp : 1 ≤ p) (hn : p ≤ n) :
    ∃ c, (c = p ∨ c / 2 = p) ∧ c ≤ n ∧
      smaller (byKey key) (smaller (byKey key) (nodeAt p) (h.node (nodeAt p)).left)
        (h.node (nodeAt p)).right = nodeAt c ∧
      key (nodeAt c) ≤ key (nodeAt p) ∧
      ∀ d, d ≤ n → d / 2 = p → key (nodeAt c) ≤ key (nodeAt d) := by
  obtain ⟨b, hb, hb1, hbn, hfirst, hbp, hbl⟩ :=
    exists_smaller key nodeAt p (2 * p) ⟨hp, hn⟩ (by omega)
  obtain ⟨c, hc, hc1, hcn, hsecond, hcb, hcr⟩ :=
    exists_smaller key nodeAt b (2 * p + 1) ⟨hb1, hbn⟩ (by omega)
  refine ⟨c, by omega, hcn, ?_, hcb.trans hbp, ?_⟩
  · rw [hl.node p hp hn, linksAt, hfirst, hsecond]
  · intro d hd hhalf
    obtain rfl | rfl : d = 2 * p ∨ d = 2 * p + 1 := by omega
    · exact hcb.trans (hbl hd)
    · exact hcr hd

/-- The walk down ends, and the node is then not below its children. -/
theorem walkDown_spec (fuel : ℕ) (hl : Laid h nodeAt n) (ha : Around key nodeAt n p)
    (hp : 1 ≤ p) (hn : p ≤ n) (hfuel : n < p + fuel) :
    ∃ h' nodeAt' q, walkDown (byKey key) (nodeAt p) fuel h = some h' ∧ h'.nelts = h.nelts ∧
      Laid h' nodeAt' n ∧ Around key nodeAt' n q ∧ Below key nodeAt' n q ∧
      1 ≤ q ∧ q ≤ n ∧ nodeAt' q = nodeAt p ∧ nodes nodeAt' n = nodes nodeAt n := by
  induction fuel generalizing h nodeAt p with
  | zero => omega
  | succ fuel ih =>
    obtain ⟨c, hc, hcn, hsmallest, _, hchildren⟩ := hl.exists_smallest key hp hn
    rw [walkDown]
    simp only [hsmallest]
    by_cases hcp : c = p
    · subst hcp
      exact ⟨h, nodeAt, c, by simp, rfl, hl, ha, hchildren, hp, hn, rfl, rfl⟩
    · have hhalf : c / 2 = p := by omega
      have hne : nodeAt c ≠ nodeAt p := mt (hl.nodeAt_eq (by omega) hcn hp hn).mp hcp
      have hswap := hl.nodeSwap (p := c) (by omega) hcn
      rw [hhalf] at hswap
      obtain ⟨h', nodeAt', q, hwalk, hnelts, hl', ha', hb', hq, hqn, hat, hnodes⟩ :=
        ih hswap (ha.down hp hcn hhalf hchildren) (by omega) hcn (by omega)
      rw [exchange_right] at hwalk hat
      refine ⟨h', nodeAt', q, by rw [if_neg hne]; exact hwalk, ?_, hl', ha', hb', hq, hqn, hat, ?_⟩
      · rw [hnelts, nelts_nodeSwap]
      · rw [hnodes, nodes_exchange ⟨hp, hn⟩ ⟨by omega, hcn⟩]

/-! ## The set of nodes -/

/-- The heap holds the nodes of `S`, in the order of their keys. -/
def Holds (key : ι → κ) (h : Heap ι) (S : Finset ι) : Prop :=
  h.nelts < 2 ^ 32 ∧ ∃ nodeAt, Laid h nodeAt h.nelts ∧ Ordered key nodeAt h.nelts ∧
    nodes nodeAt h.nelts = S

theorem Holds.of_laid {S : Finset ι} (hsize : h.nelts < 2 ^ 32) (hn : h.nelts = n)
    (hl : Laid h nodeAt n) (hord : Ordered key nodeAt n) (hS : nodes nodeAt n = S) :
    Holds key h S := by
  subst hn
  exact ⟨hsize, nodeAt, hl, hord, hS⟩

/-- `heap_init` -/
theorem Holds.of_init [Inhabited ι] (node : ι → HeapNode ι) : Holds key ⟨none, 0, node⟩ ∅ := by
  have hl : Laid ⟨none, 0, node⟩ (fun _ => default) 0 := by
    refine ⟨rfl, ?_, ?_⟩
    · intro p q hp hn
      omega
    · intro p hp hn
      omega
  have hord : Ordered key (fun _ => default) 0 := by
    intro q hq hn
    omega
  exact Holds.of_laid (Nat.two_pow_pos _) rfl hl hord rfl

theorem Holds.card {S : Finset ι} (hh : Holds key h S) : S.card = h.nelts := by
  obtain ⟨_, nodeAt, hl, _, rfl⟩ := hh
  rw [nodes, Finset.card_image_of_injOn, Nat.card_Icc]
  · omega
  · intro p hp q hq heq
    have hpm := Finset.mem_Icc.mp hp
    have hqm := Finset.mem_Icc.mp hq
    exact hl.injective p q hpm.1 hpm.2 hqm.1 hqm.2 heq

/-- The heap's root is a node with the smallest key. -/
theorem Holds.min {S : Finset ι} (hh : Holds key h S) :
    (h.min = none ↔ S = ∅) ∧ ∀ x, h.min = some x → x ∈ S ∧ ∀ y ∈ S, key x ≤ key y := by
  obtain ⟨_, nodeAt, hl, hord, rfl⟩ := hh
  rw [hl.min]
  by_cases hn : 1 ≤ h.nelts
  · rw [occupant_of_mem le_rfl hn]
    have hroot : nodeAt 1 ∈ nodes nodeAt h.nelts := mem_nodes.mpr ⟨1, le_rfl, hn, rfl⟩
    refine ⟨by simp [Finset.ne_empty_of_mem hroot], ?_⟩
    rintro x ⟨⟩
    refine ⟨hroot, fun y hy => ?_⟩
    obtain ⟨p, hp, hpn, rfl⟩ := mem_nodes.mp hy
    exact hord.root_le hp hpn
  · have hzero : h.nelts = 0 := by omega
    simp [occupant, nodes, hzero]

/-- Only the keys of the nodes in the heap matter. -/
theorem Holds.congr {key' : ι → κ} {S : Finset ι} (hh : Holds key h S)
    (hkey : ∀ x ∈ S, key' x = key x) : Holds key' h S := by
  obtain ⟨hsize, nodeAt, hl, hord, rfl⟩ := hh
  refine ⟨hsize, nodeAt, hl, fun q hq hqn => ?_, rfl⟩
  rw [hkey _ (mem_nodes.mpr ⟨q / 2, by omega, by omega, rfl⟩),
    hkey _ (mem_nodes.mpr ⟨q, by omega, hqn, rfl⟩)]
  exact hord q hq hqn

omit [DecidableEq ι] [LinearOrder κ] in
/-- The way to place `m` ends at its link; the parent of a new last node is at `m / 2`. -/
theorem Laid.follow_pathTo (hl : Laid h nodeAt n) {m : ℕ} (hm : 1 ≤ m) (hsize : m < 2 ^ 32)
    (hroom : m / 2 ≤ n) :
    ∃ parent, h.follow (pathTo m).2 (pathTo m).1 .min .min = some (parent, linkTo nodeAt m) ∧
      (n < m → h.deref parent = occupant nodeAt n (m / 2)) := by
  have hend := descend_pathTo hm hsize
  have hfollow := hl.follow (pathTo m).2 (pathTo m).1 le_rfl .min fun _ => by rwa [hend]
  rw [hend] at hfollow
  refine ⟨_, hfollow, fun hlast => ?_⟩
  by_cases hk : (pathTo m).2 = 0
  · rw [hk] at hend
    have hroot : m = 1 := hend.symm
    have hnone : n = 0 := by omega
    rw [if_pos hk, deref, hl.min, hroot, hnone]
    rfl
  · obtain ⟨k, hk'⟩ := Nat.exists_eq_succ_of_ne_zero hk
    have hhalf := le_descend_half 1 (pathTo m).1 k
    rw [hk'] at hend
    rw [hend] at hhalf
    rw [if_neg hk, hl.deref_linkTo hhalf (by omega)]

theorem setNode_setNode (h : Heap ι) (x : ι) (node node' : HeapNode ι) :
    (h.setNode x node).setNode x node' = h.setNode x node' := by
  simp [Heap.setNode]

/-- What is not in the heap may change. -/
theorem Laid.setNode (hl : Laid h nodeAt n) (hx : ∀ q, 1 ≤ q → q ≤ n → nodeAt q ≠ x)
    (node : HeapNode ι) : Laid (h.setNode x node) nodeAt n where
  min := hl.min
  injective := hl.injective
  node p hp hn := by rw [node_setNode_of_ne (hx p hp hn), hl.node p hp hn]

/-- A heap with a new last node, which then walks up. -/
theorem Laid.walkUp_last (hl : Laid h (Function.update nodeAt (n + 1) x) (n + 1))
    (hord : Ordered key nodeAt n) (hsize : n + 1 < 2 ^ 32) (hnelts : h.nelts = n + 1) :
    ∃ h', walkUp (byKey key) x (n + 2) h = some h' ∧
      Holds key h' (Insert.insert x (nodes nodeAt n)) := by
  have hbelow : Below key (Function.update nodeAt (n + 1) x) (n + 1) (n + 1) := by
    intro c hc hhalf
    omega
  obtain ⟨h', nodeAt', hwalk, hsame, hl', hord', hnodes⟩ :=
    walkUp_spec (n + 2) hl (hord.around_succ x) hbelow (by omega) le_rfl (by omega)
  rw [Function.update_self] at hwalk
  rw [nodes_succ (Function.update nodeAt (n + 1) x), Function.update_self,
    nodes_update_of_lt _ _ (Nat.lt_succ_self n)] at hnodes
  exact ⟨h', hwalk, .of_laid (by omega) (hsame.trans hnelts) hl' hord' hnodes⟩

/-- `heap_insert` adds a node. -/
theorem Holds.insert {S : Finset ι} (hh : Holds key h S) (hx : x ∉ S)
    (hroom : S.card + 1 < 2 ^ 32) :
    ∃ h', insert (byKey key) h x = some h' ∧ Holds key h' (Insert.insert x S) := by
  rw [hh.card] at hroom
  obtain ⟨_, nodeAt, hl, hord, rfl⟩ := hh
  obtain ⟨n, hn⟩ : ∃ n, n = h.nelts := ⟨_, rfl⟩
  rw [← hn] at hl hord hroom hx ⊢
  have hoff : ∀ q, 1 ≤ q → q ≤ n → nodeAt q ≠ x := fun q hq hqn heq =>
    hx (mem_nodes.mpr ⟨q, hq, hqn, heq⟩)
  obtain ⟨parent, hfollow, hparent⟩ :=
    (hl.setNode hoff ⟨none, none, none⟩).follow_pathTo (m := n + 1) (by omega) hroom (by omega)
  have hm : (1 + h.nelts) % 2 ^ 32 = n + 1 := by omega
  have hm' : (h.nelts + 1) % 2 ^ 32 = n + 1 := by omega
  simp only [Heap.insert, nelts_setNode, hm, hfollow, Option.bind_eq_bind, Option.bind_some,
    hparent (Nat.lt_succ_self n), node_setNode_self, setNode_setNode, nelts_assign, hm']
  have hhang := hl.hang hoff
  exact Laid.walkUp_last ⟨hhang.min, hhang.injective, hhang.node⟩ hord hroom rfl

/-- The last node, cut off, takes the place `p` and walks down or up. -/
theorem Laid.walk_replaced (hl : Laid h nodeAt n) (hord : Ordered key nodeAt n) (hp : 1 ≤ p)
    (hn : p ≤ n) (hx : ∀ q, 1 ≤ q → q ≤ n → nodeAt q ≠ x) (hsize : n < 2 ^ 32)
    (hnelts : h.nelts = n) :
    ∃ h' h'', walkDown (byKey key) x (n + 1) (h.takeOver (nodeAt p) x) = some h' ∧
      h'.nelts = n ∧ walkUp (byKey key) x (n + 1) h' = some h'' ∧
      Holds key h'' (nodes (Function.update nodeAt p x) n) := by
  have haround : Around key (Function.update nodeAt p x) n p :=
    (hord.around hn).congr (fun q _ _ hne => Function.update_of_ne hne ..) hn
  obtain ⟨h', nodeAt', q, hdown, hsame, hl', ha', hb', hq, hqn, hat, hnodes⟩ :=
    walkDown_spec (n + 1) (hl.takeOver hp hn hx) haround hp hn (by omega)
  obtain ⟨h'', nodeAt'', hup, hsame', hl'', hord', hnodes'⟩ :=
    walkUp_spec (n + 1) hl' ha' hb' hq hqn (by omega)
  rw [Function.update_self] at hdown hat
  rw [nelts_takeOver, hnelts] at hsame
  rw [hat] at hup
  rw [hsame] at hsame'
  exact ⟨h', h'', hdown, hsame, hup, .of_laid (by omega) hsame' hl'' hord' (hnodes'.trans hnodes)⟩

/-- `heap_remove` takes a node out. -/
theorem Holds.remove {S : Finset ι} (hh : Holds key h S) (hx : x ∈ S) :
    ∃ h', remove (byKey key) h x = some h' ∧ Holds key h' (S.erase x) := by
  obtain ⟨hsize, nodeAt, hl, hord, rfl⟩ := hh
  obtain ⟨p, hp, hpn, rfl⟩ := mem_nodes.mp hx
  obtain ⟨n, hn⟩ : ∃ n, h.nelts = n + 1 := ⟨h.nelts - 1, by omega⟩
  rw [hn] at hl hord hsize hpn ⊢
  obtain ⟨parent, hfollow, _⟩ := hl.follow_pathTo (m := n + 1) (by omega) hsize (by omega)
  -- the heap once the last node is no longer counted
  have hl' : Laid { h with nelts := n } nodeAt (n + 1) := ⟨hl.min, hl.injective, hl.node⟩
  have hmax : ({ h with nelts := n } : Heap ι).deref (linkTo nodeAt (n + 1)) =
      some (nodeAt (n + 1)) := by
    rw [hl'.deref_linkTo (by omega) (by omega), occupant_of_mem (by omega) le_rfl]
  have hoff : ∀ q, 1 ≤ q → q ≤ n → nodeAt q ≠ nodeAt (n + 1) := fun q hq hqn =>
    mt (hl.nodeAt_eq hq (by omega) (by omega) le_rfl).mp (by omega)
  have hcut := hl'.cut
  have hordn : Ordered key nodeAt n := fun q hq hqn => hord q hq (by omega)
  simp only [Heap.remove, hn, Nat.add_one_ne_zero, if_false, hfollow, Option.bind_eq_bind,
    Option.bind_some, Nat.add_sub_cancel, hmax]
  by_cases hlast : p = n + 1
  · have hmin : ¬(({ h with nelts := n } : Heap ι).assign none (linkTo nodeAt (n + 1))).min =
        some (nodeAt (n + 1)) := by
      rw [hcut.min]
      unfold occupant
      split_ifs with hroot
      · exact fun heq => hoff 1 hroot.1 hroot.2 (Option.some.inj heq)
      · simp
    rw [hlast, if_pos rfl, if_neg hmin]
    refine ⟨_, rfl, .of_laid ?_ (nelts_assign ..) hcut hordn ?_⟩
    · rw [nelts_assign]
      exact Nat.lt_of_succ_lt hsize
    · rw [nodes_succ, Finset.erase_insert]
      exact fun hmem => by
        obtain ⟨q, hq, hqn, heq⟩ := mem_nodes.mp hmem
        exact hoff q hq hqn heq
  · rw [if_neg fun heq => hoff p hp (by omega) heq.symm]
    obtain ⟨h', h'', hdown, hnelts, hup, hholds⟩ :=
      hcut.walk_replaced hordn hp (by omega) hoff (by omega) (nelts_assign ..)
    have hat : ∀ q, 1 ≤ q → q ≤ n → nodeAt q = nodeAt p → q = p := fun q hq hqn =>
      hl.injective q p hq (by omega) hp hpn
    rw [nodes_update _ hp (by omega) hat, ← Finset.erase_insert_of_ne
      (hoff p hp (by omega)).symm, ← nodes_succ] at hholds
    refine ⟨h'', ?_, hholds⟩
    simp only [nelts_takeOver, nelts_assign, hdown, Option.bind_some, hnelts, hup]

end CapyJs.Libuv.Heap
