import CapyJs.Libuv.Heap

/-!
# The links of the timer heap

`Laid` says that the links make a complete tree of the nodes at the places `1` to `n`.
-/
namespace CapyJs.Libuv.Heap
open CapyJs.Heap

variable {ι : Type*} {h : Heap ι} {nodeAt : ℕ → ι} {n p : ℕ}

/-- The node at place `q`, if there is one. -/
def occupant (nodeAt : ℕ → ι) (n q : ℕ) : Option ι :=
  if 1 ≤ q ∧ q ≤ n then some (nodeAt q) else none

/-- What the links of the node at place `p` have to be. -/
def linksAt (nodeAt : ℕ → ι) (n p : ℕ) : HeapNode ι :=
  ⟨occupant nodeAt n (2 * p), occupant nodeAt n (2 * p + 1), occupant nodeAt n (p / 2)⟩

structure Laid (h : Heap ι) (nodeAt : ℕ → ι) (n : ℕ) : Prop where
  min : h.min = occupant nodeAt n 1
  injective : ∀ p q, 1 ≤ p → p ≤ n → 1 ≤ q → q ≤ n → nodeAt p = nodeAt q → p = q
  node : ∀ p, 1 ≤ p → p ≤ n → h.node (nodeAt p) = linksAt nodeAt n p

theorem occupant_of_mem (hp : 1 ≤ p) (hn : p ≤ n) : occupant nodeAt n p = some (nodeAt p) :=
  if_pos ⟨hp, hn⟩

theorem Laid.occupant_eq (hl : Laid h nodeAt n) (hp : 1 ≤ p) (hn : p ≤ n) (q : ℕ) :
    occupant nodeAt n q = some (nodeAt p) ↔ q = p := by
  unfold occupant
  constructor
  · intro h
    split_ifs at h with hq
    exact hl.injective q p hq.1 hq.2 hp hn (Option.some.inj h)
  · rintro rfl
    rw [if_pos ⟨hp, hn⟩]

theorem Laid.nodeAt_eq (hl : Laid h nodeAt n) {q : ℕ} (hp : 1 ≤ p) (hn : p ≤ n) (hq : 1 ≤ q)
    (hqn : q ≤ n) : nodeAt p = nodeAt q ↔ p = q :=
  ⟨hl.injective p q hp hn hq hqn, fun h => by rw [h]⟩

theorem occupant_exchange {q : ℕ} (hp : 1 ≤ p) (hn : p ≤ n) (hq : 1 ≤ q) (hqn : q ≤ n) (r : ℕ) :
    occupant (exchange nodeAt q p) n r =
      if r = q then some (nodeAt p) else if r = p then some (nodeAt q) else
        occupant nodeAt n r := by
  unfold occupant
  by_cases hrq : r = q
  · subst hrq
    simp [hq, hqn]
  · by_cases hrp : r = p
    · subst hrp
      simp [hp, hn, hrq]
    · simp [hrq, hrp, exchange_of_ne hrq hrp]

/-! ## The way to a place -/

/-- The place reached from `q` by the lowest `k` bits of a path. -/
def descend (q path : ℕ) : ℕ → ℕ
  | 0 => q
  | k + 1 => descend (2 * q + path % 2) (path / 2) k

theorem le_descend_half (q path k : ℕ) : q ≤ descend q path (k + 1) / 2 := by
  induction k generalizing q path with
  | zero => simp only [descend]; omega
  | succ k ih =>
    rw [descend]
    have := ih (2 * q + path % 2) (path / 2)
    omega

/-- `(path << 1) | (n & 1)` -/
theorem append_bit (path n : ℕ) : path <<< 1 ||| n &&& 1 = 2 * path + n % 2 := by
  have hbit : n % 2 < 2 ^ 1 := by omega
  rw [Nat.and_one_is_mod, ← Nat.shiftLeft_add_eq_or_of_lt hbit, Nat.shiftLeft_eq]
  omega

theorem pathLoop_descend (fuel path n k : ℕ) (hn : 1 ≤ n) (hfuel : n < 2 ^ fuel)
    (hpath : path < 2 ^ k) (hsize : n * 2 ^ k < 2 ^ 32) :
    descend 1 (pathLoop fuel path n k).1 (pathLoop fuel path n k).2 = descend n path k := by
  induction fuel generalizing path n k with
  | zero => omega
  | succ fuel ih =>
    unfold pathLoop
    split_ifs with h
    · have hbits : 2 * path + n % 2 < 2 ^ (k + 1) := by
        rw [pow_succ]
        omega
      have hhalf : n / 2 * 2 ^ (k + 1) ≤ n * 2 ^ k := by
        rw [pow_succ, Nat.mul_comm (2 ^ k) 2, ← Nat.mul_assoc]
        exact Nat.mul_le_mul_right _ (Nat.div_mul_le_self n 2)
      have hfits : 2 ^ (k + 1) ≤ n / 2 * 2 ^ (k + 1) := Nat.le_mul_of_pos_left _ (by omega)
      rw [append_bit, Nat.mod_eq_of_lt (by omega), ih _ _ _ (by omega)
        (by rw [pow_succ] at hfuel; omega) hbits (by omega), descend]
      congr 1
      · omega
      · omega
    · have hroot : n = 1 := by omega
      rw [hroot]

theorem descend_pathTo {m : ℕ} (hm : 1 ≤ m) (hsize : m < 2 ^ 32) :
    descend 1 (pathTo m).1 (pathTo m).2 = m :=
  pathLoop_descend 32 0 m 0 hm hsize (by simp) (by simpa using hsize)

/-- The link that the node at place `q` hangs on. -/
def linkTo (nodeAt : ℕ → ι) (q : ℕ) : Link ι :=
  if q = 1 then .min else if q % 2 = 1 then .right (nodeAt (q / 2)) else .left (nodeAt (q / 2))

theorem Laid.deref_linkTo (hl : Laid h nodeAt n) {q : ℕ} (hq : 1 ≤ q) (hn : q / 2 ≤ n) :
    h.deref (linkTo nodeAt q) = occupant nodeAt n q := by
  unfold linkTo
  split_ifs with hroot hodd
  · rw [hroot]
    exact hl.min
  · rw [deref, hl.node _ (by omega) hn]
    exact congrArg (occupant nodeAt n) (by omega)
  · rw [deref, hl.node _ (by omega) hn]
    exact congrArg (occupant nodeAt n) (by omega)

/-- Following a path from a place leads to the link of the place at its end. -/
theorem Laid.follow (hl : Laid h nodeAt n) (k path : ℕ) {q : ℕ} (hq : 1 ≤ q) (parent : Link ι)
    (hroom : k ≠ 0 → descend q path k / 2 ≤ n) :
    h.follow k path parent (linkTo nodeAt q) =
      some (if k = 0 then parent else linkTo nodeAt (descend q path k / 2),
        linkTo nodeAt (descend q path k)) := by
  induction k generalizing q path parent with
  | zero => simp [Heap.follow, descend]
  | succ k ih =>
    have hqn : q ≤ n := (le_descend_half q path k).trans (hroom (by omega))
    have hnext : (if path &&& 1 = 1 then Link.right (nodeAt q) else .left (nodeAt q)) =
        linkTo nodeAt (2 * q + path % 2) := by
      have hhalf : (2 * q + path % 2) / 2 = q := by omega
      have hbit : (2 * q + path % 2) % 2 = 1 ↔ path % 2 = 1 := by omega
      simp only [linkTo, hhalf, hbit, Nat.and_one_is_mod,
        if_neg (show 2 * q + path % 2 ≠ 1 by omega)]
    have hderef : h.deref (linkTo nodeAt q) = some (nodeAt q) := by
      rw [hl.deref_linkTo hq (by omega), occupant_of_mem hq hqn]
    simp only [Heap.follow, hderef, hnext, Nat.shiftRight_one]
    rw [ih (path / 2) (by omega) _ fun _ => hroom (by omega)]
    cases k with
    | zero =>
      have hhalf : (2 * q + path % 2) / 2 = q := by omega
      simp [descend, hhalf]
    | succ k => simp [descend]

/-! ## One assignment -/

variable [DecidableEq ι]

@[simp] theorem node_setNode_self (h : Heap ι) (x : ι) (node : HeapNode ι) :
    (h.setNode x node).node x = node := Function.update_self ..

theorem node_setNode_of_ne {x y : ι} (hne : x ≠ y) (h : Heap ι) (node : HeapNode ι) :
    (h.setNode y node).node x = h.node x := Function.update_of_ne hne ..

theorem node_setParent (h : Heap ι) (parent : ι) (o : Option ι) (x : ι) :
    (h.setParent parent o).node x =
      if o = some x then { h.node x with parent := some parent } else h.node x := by
  cases o with
  | none => simp [setParent]
  | some y =>
    by_cases hxy : x = y
    · subst hxy
      simp [setParent, setNode]
    · simp [setParent, setNode, hxy, Ne.symm hxy]

theorem node_replaceChild (h : Heap ι) (old new : ι) (o : Option ι) (x : ι) :
    (h.replaceChild old new o).node x =
      if o = some x then
        if (h.node x).left = some old then { h.node x with left := some new }
        else { h.node x with right := some new }
      else h.node x := by
  cases o with
  | none => simp [replaceChild]
  | some y =>
    by_cases hxy : x = y
    · subst hxy
      by_cases hleft : (h.node x).left = some old <;>
        simp [replaceChild, setLeft, setRight, setNode, hleft]
    · by_cases hleft : (h.node y).left = some old <;>
        simp [replaceChild, setLeft, setRight, setNode, hleft, hxy, Ne.symm hxy]

/-- The two nodes have exchanged their links, and the parent hangs below the child. -/
def Crossed (h h' : Heap ι) (parent child : ι) : Prop :=
  h'.min = h.min ∧ ∀ x, h'.node x =
    if x = parent then { h.node child with parent := some child }
    else if x = child then
      if (h.node parent).left = some child then { h.node parent with left := some parent }
      else { h.node parent with right := some parent }
    else h.node x

theorem exists_crossed {parent child : ι} (hne : parent ≠ child) :
    ∃ h', h.Crossed h' parent child ∧ h.nodeSwap parent child = h'.relink parent child
      (if (h.node parent).left = some child then (h.node parent).right
        else (h.node parent).left) := by
  by_cases hleft : (h.node parent).left = some child
  · refine ⟨((((h.setNode parent (h.node child)).setNode child (h.node parent)).setParent child
      (some parent)).setLeft child (some parent)), ⟨rfl, fun x => ?_⟩, ?_⟩
    · by_cases hp : x = parent
      · subst hp
        simp [setParent, setLeft, setNode, hne, hne.symm]
      · by_cases hc : x = child
        · subst hc
          simp [setParent, setLeft, setNode, hne, hne.symm, hleft]
        · simp [setParent, setLeft, setNode, hp, hc]
    · simp [nodeSwap, setParent, setLeft, setNode, hne, hne.symm, hleft]
  · refine ⟨((((h.setNode parent (h.node child)).setNode child (h.node parent)).setParent child
      (some parent)).setRight child (some parent)), ⟨rfl, fun x => ?_⟩, ?_⟩
    · by_cases hp : x = parent
      · subst hp
        simp [setParent, setRight, setNode, hne, hne.symm]
      · by_cases hc : x = child
        · subst hc
          simp [setParent, setRight, setNode, hne, hne.symm, hleft]
        · simp [setParent, setRight, setNode, hp, hc]
    · simp [nodeSwap, setParent, setRight, setNode, hne, hne.symm, hleft]

@[simp] theorem left_setParent (h : Heap ι) (parent : ι) (o : Option ι) (x : ι) :
    ((h.setParent parent o).node x).left = (h.node x).left := by
  rw [node_setParent]
  split_ifs <;> rfl

@[simp] theorem right_setParent (h : Heap ι) (parent : ι) (o : Option ι) (x : ι) :
    ((h.setParent parent o).node x).right = (h.node x).right := by
  rw [node_setParent]
  split_ifs <;> rfl

theorem parent_setParent (h : Heap ι) (parent : ι) (o : Option ι) (x : ι) :
    ((h.setParent parent o).node x).parent =
      if o = some x then some parent else (h.node x).parent := by
  rw [node_setParent]
  split_ifs <;> rfl

@[simp] theorem min_setParent (h : Heap ι) (parent : ι) (o : Option ι) :
    (h.setParent parent o).min = h.min := by
  cases o <;> rfl

/-- Who is beside the two nodes after `heap_node_swap` has crossed them. -/
structure Beside (h : Heap ι) (parent child : ι) (l r sibling g : Option ι) : Prop where
  left : (h.node parent).left = l
  right : (h.node parent).right = r
  grand : (h.node child).parent = g
  left_ne : l ≠ some child
  right_ne : r ≠ some child
  sibling_ne : sibling ≠ some child

section Relink
variable {parent child : ι} {l r sibling g : Option ι}

theorem node_relink (hb : Beside h parent child l r sibling g) (x : ι) :
    (h.relink parent child sibling).node x =
      let up := if r = some x ∨ l = some x then some parent
        else if sibling = some x then some child else (h.node x).parent
      if g = some x then
        if (h.node x).left = some parent then ⟨some child, (h.node x).right, up⟩
        else ⟨(h.node x).left, some child, up⟩
      else ⟨(h.node x).left, (h.node x).right, up⟩ := by
  obtain ⟨rfl, rfl, rfl, hl, hr, hs⟩ := hb
  simp only [relink, node_replaceChild, left_setParent, right_setParent, parent_setParent,
    if_neg hl, if_neg hr, if_neg hs]
  have hup : ∀ y, ((((h.setParent child sibling).setParent parent (h.node parent).left).setParent
      parent (h.node parent).right).node y) = ⟨(h.node y).left, (h.node y).right,
        if (h.node parent).right = some y ∨ (h.node parent).left = some y then some parent
        else if sibling = some y then some child else (h.node y).parent⟩ := by
    intro y
    simp only [node_setParent]
    split_ifs <;> simp_all
  simp only [hup, ite_or]

theorem min_relink (hb : Beside h parent child l r sibling g) :
    (h.relink parent child sibling).min = if g = none then some child else h.min := by
  obtain ⟨rfl, rfl, rfl, hl, hr, hs⟩ := hb
  simp only [relink, left_setParent, right_setParent, parent_setParent, if_neg hl, if_neg hr,
    if_neg hs]
  cases hg : (h.node child).parent with
  | none => simp [replaceChild]
  | some g =>
    simp only [replaceChild, reduceCtorEq, if_false]
    split_ifs <;> simp [setLeft, setRight, setNode]

end Relink

/-! ## Exchanging a node with its parent -/

/-- The node at `p` and its parent have been crossed, and the sibling is at place `b`. -/
structure Halfway (h h' : Heap ι) (nodeAt : ℕ → ι) (n q p b : ℕ) : Prop where
  sibling : (b = 2 * q ∨ b = 2 * q + 1) ∧ b ≠ p
  min : h'.min = h.min
  parent : h'.node (nodeAt q) =
    ⟨occupant nodeAt n (2 * p), occupant nodeAt n (2 * p + 1), some (nodeAt p)⟩
  child : h'.node (nodeAt p) =
    if 2 * q = p then ⟨some (nodeAt q), occupant nodeAt n (2 * q + 1), occupant nodeAt n (q / 2)⟩
    else ⟨occupant nodeAt n (2 * q), some (nodeAt q), occupant nodeAt n (q / 2)⟩
  others : ∀ r, 1 ≤ r → r ≤ n → r ≠ q → r ≠ p → h'.node (nodeAt r) = linksAt nodeAt n r
  swap : h.nodeSwap (nodeAt q) (nodeAt p) =
    h'.relink (nodeAt q) (nodeAt p) (occupant nodeAt n b)

section Swap
variable {h' : Heap ι} {q b r : ℕ}

theorem Laid.exists_halfway (hl : Laid h nodeAt n) (hp : 2 ≤ p) (hn : p ≤ n) (hq : q = p / 2) :
    ∃ h' b, Halfway h h' nodeAt n q p b := by
  have hne : nodeAt q ≠ nodeAt p := mt (hl.injective q p (by omega) (by omega) (by omega) hn)
    (by omega)
  obtain ⟨h', ⟨hmin, hcross⟩, heq⟩ := exists_crossed (h := h) hne
  have hP := hl.node q (by omega) (by omega)
  have hchild : occupant nodeAt n (2 * q) = some (nodeAt p) ↔ 2 * q = p :=
    hl.occupant_eq (by omega) hn _
  have hparent : h'.node (nodeAt q) =
      ⟨occupant nodeAt n (2 * p), occupant nodeAt n (2 * p + 1), some (nodeAt p)⟩ := by
    rw [hcross, if_pos rfl, hl.node p (by omega) hn, linksAt]
  have hlinks : h'.node (nodeAt p) = if 2 * q = p then
        ⟨some (nodeAt q), occupant nodeAt n (2 * q + 1), occupant nodeAt n (q / 2)⟩
      else ⟨occupant nodeAt n (2 * q), some (nodeAt q), occupant nodeAt n (q / 2)⟩ := by
    rw [hcross, if_neg hne.symm, if_pos rfl, hP, linksAt]
    simp only [hchild]
  have hothers : ∀ r, 1 ≤ r → r ≤ n → r ≠ q → r ≠ p →
      h'.node (nodeAt r) = linksAt nodeAt n r := by
    intro r hr hrn hrq hrp
    rw [hcross, if_neg (mt (hl.injective r q hr hrn (by omega) (by omega)) hrq),
      if_neg (mt (hl.injective r p hr hrn (by omega) hn) hrp), hl.node r hr hrn]
  simp only [hP, linksAt] at heq
  by_cases heven : 2 * q = p
  · rw [if_pos (hchild.mpr heven)] at heq
    exact ⟨h', 2 * q + 1, ⟨.inr rfl, by omega⟩, hmin, hparent, hlinks, hothers, heq⟩
  · rw [if_neg (mt hchild.mp heven)] at heq
    exact ⟨h', 2 * q, ⟨.inl rfl, heven⟩, hmin, hparent, hlinks, hothers, heq⟩

theorem Halfway.beside (hh : Halfway h h' nodeAt n q p b) (hl : Laid h nodeAt n) (hp : 2 ≤ p)
    (hn : p ≤ n) :
    Beside h' (nodeAt q) (nodeAt p) (occupant nodeAt n (2 * p)) (occupant nodeAt n (2 * p + 1))
      (occupant nodeAt n b) (occupant nodeAt n (q / 2)) := by
  have hoff : ∀ t, t ≠ p → occupant nodeAt n t ≠ some (nodeAt p) := fun t ht =>
    mt (hl.occupant_eq (by omega) hn t).mp ht
  refine ⟨by rw [hh.parent], by rw [hh.parent], ?_, hoff _ (by omega), hoff _ (by omega),
    hoff _ hh.sibling.2⟩
  rw [hh.child]
  split_ifs <;> rfl

/-- Each place has the links it should have, with the two nodes in each other's place. -/
theorem Halfway.node_relink (hh : Halfway h h' nodeAt n q p b) (hl : Laid h nodeAt n) (hp : 2 ≤ p)
    (hn : p ≤ n) (hq : q = p / 2) (hr : 1 ≤ r) (hrn : r ≤ n) :
    (h'.relink (nodeAt q) (nodeAt p) (occupant nodeAt n b)).node (exchange nodeAt q p r) =
      linksAt (exchange nodeAt q p) n r := by
  have hside := hh.beside hl hp hn
  have hsib := hh.sibling
  have hocc : ∀ t, occupant (exchange nodeAt q p) n t = _ :=
    occupant_exchange (by omega) hn (by omega) (by omega)
  have hatP : ∀ t, occupant nodeAt n t = some (nodeAt q) ↔ t = q :=
    hl.occupant_eq (by omega) (by omega)
  have hatC : ∀ t, occupant nodeAt n t = some (nodeAt p) ↔ t = p := hl.occupant_eq (by omega) hn
  by_cases hrq : r = q
  · subst hrq
    rw [exchange_left, Heap.node_relink hside, linksAt, hocc, hocc, hocc, hh.child]
    simp only [hatC, if_neg (show ¬(2 * p + 1 = p ∨ 2 * p = p) by omega), if_neg hsib.2,
      if_neg (show r / 2 ≠ p by omega), if_neg (show 2 * r ≠ r by omega),
      if_neg (show 2 * r + 1 ≠ r by omega), if_neg (show r / 2 ≠ r by omega)]
    by_cases heven : 2 * r = p
    · simp only [if_pos heven, if_neg (show 2 * r + 1 ≠ p by omega)]
    · simp only [if_neg heven, if_pos (show 2 * r + 1 = p by omega)]
  · by_cases hrp : r = p
    · subst hrp
      rw [exchange_right, Heap.node_relink hside, linksAt, hocc, hocc, hocc, hh.parent]
      simp only [hatP, if_neg (show ¬(2 * r + 1 = q ∨ 2 * r = q) by omega),
        if_neg (show b ≠ q by omega), if_neg (show q / 2 ≠ q by omega),
        if_neg (show 2 * r ≠ q by omega), if_neg (show 2 * r + 1 ≠ q by omega),
        if_neg (show 2 * r ≠ r by omega), if_neg (show 2 * r + 1 ≠ r by omega), if_pos hq.symm]
    · have hat : ∀ t, occupant nodeAt n t = some (nodeAt r) ↔ t = r := hl.occupant_eq hr hrn
      have hup : (if 2 * p + 1 = r ∨ 2 * p = r then some (nodeAt q)
          else if b = r then some (nodeAt p) else occupant nodeAt n (r / 2)) =
          if r / 2 = q then some (nodeAt p) else if r / 2 = p then some (nodeAt q)
            else occupant nodeAt n (r / 2) := by
        by_cases hbelow : r / 2 = p
        · rw [if_pos (by omega), if_neg (by omega), if_pos hbelow]
        · rw [if_neg (by omega), if_neg hbelow]
          by_cases hbeside : r / 2 = q
          · rw [if_pos (by omega), if_pos hbeside]
          · rw [if_neg (by omega), if_neg hbeside]
      rw [exchange_of_ne hrq hrp, Heap.node_relink hside, linksAt, hocc, hocc, hocc,
        hh.others r hr hrn hrq hrp]
      simp only [hat, linksAt, hatP, hup, if_neg (show 2 * r ≠ p by omega),
        if_neg (show 2 * r + 1 ≠ p by omega)]
      by_cases hgrand : q / 2 = r
      · by_cases heven : 2 * r = q
        · rw [if_pos hgrand, if_pos heven, if_pos heven, if_neg (show 2 * r + 1 ≠ q by omega)]
        · rw [if_pos hgrand, if_neg heven, if_neg heven, if_pos (show 2 * r + 1 = q by omega)]
      · rw [if_neg hgrand, if_neg (show 2 * r ≠ q by omega), if_neg (show 2 * r + 1 ≠ q by omega)]

theorem Laid.nodeSwap (hl : Laid h nodeAt n) (hp : 2 ≤ p) (hn : p ≤ n) :
    Laid (h.nodeSwap (nodeAt (p / 2)) (nodeAt p)) (exchange nodeAt (p / 2) p) n := by
  obtain ⟨q, hq⟩ : ∃ q, q = p / 2 := ⟨_, rfl⟩
  rw [← hq]
  obtain ⟨h', b, hh⟩ := hl.exists_halfway hp hn hq
  rw [hh.swap]
  refine ⟨?_, ?_, fun r hr hrn => hh.node_relink hl hp hn hq hr hrn⟩
  · rw [min_relink (hh.beside hl hp hn), hh.min, hl.min,
      occupant_exchange (by omega) hn (by omega) (by omega)]
    by_cases hroot : q = 1
    · simp [hroot, occupant]
    · have hup : occupant nodeAt n (q / 2) ≠ none := by
        rw [occupant_of_mem (by omega) (by omega)]
        simp
      rw [if_neg hup, if_neg (Ne.symm hroot), if_neg (by omega)]
  · intro r t hr hrn ht htn hrt
    have hmem : ∀ r, 1 ≤ r → r ≤ n → 1 ≤ Equiv.swap q p r ∧ Equiv.swap q p r ≤ n := by
      intro r hr hrn
      rw [Equiv.swap_apply_def]
      split_ifs <;> omega
    exact (Equiv.swap q p).injective (hl.injective _ _ (hmem r hr hrn).1 (hmem r hr hrn).2
      (hmem t ht htn).1 (hmem t ht htn).2 hrt)

end Swap

/-! ## One more place, one place less -/

omit [DecidableEq ι] in
theorem occupant_update (x : ι) (q : ℕ) (hp : 1 ≤ p) (hn : p ≤ n) :
    occupant (Function.update nodeAt p x) n q =
      if q = p then some x else occupant nodeAt n q := by
  unfold occupant
  by_cases hq : q = p
  · subst hq
    simp [hp, hn]
  · simp [hq]

omit [DecidableEq ι] in
theorem occupant_succ (x : ι) (q : ℕ) :
    occupant (Function.update nodeAt (n + 1) x) (n + 1) q =
      if q = n + 1 then some x else occupant nodeAt n q := by
  unfold occupant
  by_cases hq : q = n + 1
  · subst hq
    simp
  · simp only [hq, if_false, Function.update_of_ne hq]
    congr 1
    simp only [eq_iff_iff]
    omega

omit [DecidableEq ι] in
theorem Laid.injective_update (hl : Laid h nodeAt n) {m : ℕ} {x : ι}
    (hx : ∀ q, 1 ≤ q → q ≤ n → q ≠ p → nodeAt q ≠ x) (hm : ∀ q, 1 ≤ q → q ≤ m → q ≠ p → q ≤ n) :
    ∀ q r, 1 ≤ q → q ≤ m → 1 ≤ r → r ≤ m →
      Function.update nodeAt p x q = Function.update nodeAt p x r → q = r := by
  intro q r hq hqm hr hrm heq
  by_cases hqp : q = p
  · by_cases hrp : r = p
    · omega
    · subst hqp
      rw [Function.update_self, Function.update_of_ne hrp] at heq
      exact absurd heq.symm (hx r hr (hm r hr hrm hrp) hrp)
  · by_cases hrp : r = p
    · subst hrp
      rw [Function.update_self, Function.update_of_ne hqp] at heq
      exact absurd heq (hx q hq (hm q hq hqm hqp) hqp)
    · rw [Function.update_of_ne hqp, Function.update_of_ne hrp] at heq
      exact hl.injective q r hq (hm q hq hqm hqp) hr (hm r hr hrm hrp) heq

theorem node_assign (h : Heap ι) (value : Option ι) (q : ℕ) (x : ι) :
    (h.assign value (linkTo nodeAt q)).node x =
      if q ≠ 1 ∧ nodeAt (q / 2) = x then
        if q % 2 = 1 then { h.node x with right := value } else { h.node x with left := value }
      else h.node x := by
  unfold linkTo
  by_cases hroot : q = 1
  · simp [hroot, assign]
  · by_cases hx : nodeAt (q / 2) = x
    · by_cases hodd : q % 2 = 1 <;>
        simp [hroot, hodd, hx, assign, setLeft, setRight, setNode]
    · by_cases hodd : q % 2 = 1 <;>
        simp [hroot, hodd, hx, assign, setLeft, setRight, setNode, Ne.symm hx]

theorem min_assign (h : Heap ι) (value : Option ι) (q : ℕ) :
    (h.assign value (linkTo nodeAt q)).min = if q = 1 then value else h.min := by
  unfold linkTo
  split_ifs <;> rfl

/-- An assignment to the link of place `m`, as its parent sees it. -/
theorem node_assign_parent {m q : ℕ} {value up : Option ι} {occ : ℕ → Option ι} (hq : 1 ≤ q)
    (hat : m ≠ 1 → (nodeAt (m / 2) = nodeAt q ↔ m / 2 = q))
    (hnode : h.node (nodeAt q) = ⟨occ (2 * q), occ (2 * q + 1), up⟩) :
    (h.assign value (linkTo nodeAt m)).node (nodeAt q) =
      ⟨if 2 * q = m then value else occ (2 * q), if 2 * q + 1 = m then value else occ (2 * q + 1),
        up⟩ := by
  rw [node_assign, hnode]
  by_cases habove : m / 2 = q
  · rw [if_pos ⟨by omega, (hat (by omega)).mpr habove⟩]
    by_cases hodd : m % 2 = 1
    · rw [if_pos hodd, if_neg (show 2 * q ≠ m by omega), if_pos (show 2 * q + 1 = m by omega)]
    · rw [if_neg hodd, if_pos (show 2 * q = m by omega), if_neg (show 2 * q + 1 ≠ m by omega)]
  · rw [if_neg fun h => habove ((hat h.1).mp h.2), if_neg (show 2 * q ≠ m by omega),
      if_neg (show 2 * q + 1 ≠ m by omega)]

omit [DecidableEq ι] in
theorem occupant_of_lt {q : ℕ} (hq : n < q) : occupant nodeAt n q = none := if_neg (by omega)

/-- A new node hangs on the link behind the last place. -/
theorem Laid.hang (hl : Laid h nodeAt n) {x : ι} (hx : ∀ q, 1 ≤ q → q ≤ n → nodeAt q ≠ x) :
    Laid ((h.setNode x ⟨none, none, occupant nodeAt n ((n + 1) / 2)⟩).assign (some x)
      (linkTo nodeAt (n + 1))) (Function.update nodeAt (n + 1) x) (n + 1) := by
  refine ⟨?_, hl.injective_update (fun q hq hqn _ => hx q hq hqn) (by omega), ?_⟩
  · rw [occupant_succ, min_assign]
    by_cases hroot : n + 1 = 1
    · rw [if_pos hroot, if_pos hroot.symm]
    · rw [if_neg hroot, if_neg (Ne.symm hroot)]
      exact hl.min
  · intro q hq hqn
    rw [linksAt, occupant_succ, occupant_succ, occupant_succ]
    by_cases hlast : q = n + 1
    · have hself : ¬(n + 1 ≠ 1 ∧ nodeAt ((n + 1) / 2) = x) := fun h =>
        hx ((n + 1) / 2) (by omega) (by omega) h.2
      rw [hlast, Function.update_self, node_assign, if_neg hself, node_setNode_self,
        if_neg (show 2 * (n + 1) ≠ n + 1 by omega), if_neg (show 2 * (n + 1) + 1 ≠ n + 1 by omega),
        if_neg (show (n + 1) / 2 ≠ n + 1 by omega), occupant_of_lt (q := 2 * (n + 1)) (by omega),
        occupant_of_lt (q := 2 * (n + 1) + 1) (by omega)]
    · have hnode : (h.setNode x ⟨none, none, occupant nodeAt n ((n + 1) / 2)⟩).node (nodeAt q) =
          linksAt nodeAt n q := by
        rw [node_setNode_of_ne (hx q hq (by omega)), hl.node q hq (by omega)]
      rw [Function.update_of_ne hlast, if_neg (show q / 2 ≠ n + 1 by omega)]
      exact node_assign_parent hq (fun _ => hl.nodeAt_eq (by omega) (by omega) hq (by omega)) hnode

/-- The last node is cut off. -/
theorem Laid.cut (hl : Laid h nodeAt (n + 1)) :
    Laid (h.assign none (linkTo nodeAt (n + 1))) nodeAt n := by
  have hocc : ∀ q, occupant nodeAt n q =
      if q = n + 1 then none else occupant nodeAt (n + 1) q := by
    intro q
    unfold occupant
    split_ifs <;> first | omega | rfl
  refine ⟨?_, fun p q hp hpn hq hqn => hl.injective p q hp (by omega) hq (by omega), ?_⟩
  · rw [min_assign, hocc, hl.min]
    by_cases hroot : n + 1 = 1
    · rw [if_pos hroot, if_pos hroot.symm]
    · rw [if_neg hroot, if_neg (Ne.symm hroot)]
  · intro q hq hqn
    rw [linksAt, hocc, hocc, hocc, if_neg (show q / 2 ≠ n + 1 by omega)]
    exact node_assign_parent hq (fun _ => hl.nodeAt_eq (by omega) (by omega) hq (by omega))
      (hl.node q hq (by omega))

/-- The node that takes over and its new children, before its new parent points to it. -/
theorem Laid.exists_takingOver (hl : Laid h nodeAt n) (hp : 1 ≤ p) (hn : p ≤ n) {x : ι}
    (hx : ∀ q, occupant nodeAt n q ≠ some x) :
    ∃ h' : Heap ι, h'.min = h.min ∧ (∀ y, h'.node y =
      if y = x then linksAt nodeAt n p else ⟨(h.node y).left, (h.node y).right,
        if occupant nodeAt n (2 * p + 1) = some y ∨ occupant nodeAt n (2 * p) = some y then some x
        else (h.node y).parent⟩) ∧
      h.takeOver (nodeAt p) x = h'.replaceChild (nodeAt p) x (h'.node (nodeAt p)).parent := by
  refine ⟨((h.setNode x (h.node (nodeAt p))).setParent x (occupant nodeAt n (2 * p))).setParent x
    (occupant nodeAt n (2 * p + 1)), by simp [setNode], ?_, ?_⟩
  · intro y
    by_cases hy : y = x
    · subst hy
      simp [node_setParent, hx, hl.node p hp hn]
    · simp only [node_setParent, node_setNode_of_ne hy, if_neg hy]
      split_ifs <;> simp_all
  · simp [Heap.takeOver, hl.node p hp hn, linksAt]

/-- A node that was cut off comes to the place `p`. -/
theorem Laid.takeOver (hl : Laid h nodeAt n) (hp : 1 ≤ p) (hn : p ≤ n) {x : ι}
    (hx : ∀ q, 1 ≤ q → q ≤ n → nodeAt q ≠ x) :
    Laid (h.takeOver (nodeAt p) x) (Function.update nodeAt p x) n := by
  have hoff : ∀ q, occupant nodeAt n q ≠ some x := by
    intro q hq
    unfold occupant at hq
    split_ifs at hq with hmem
    exact hx q hmem.1 hmem.2 (Option.some.inj hq)
  have hat : ∀ q, occupant nodeAt n q = some (nodeAt p) ↔ q = p := hl.occupant_eq hp hn
  obtain ⟨h', hmin, hnode, heq⟩ := hl.exists_takingOver hp hn hoff
  have hparent : (h'.node (nodeAt p)).parent = occupant nodeAt n (p / 2) := by
    rw [hnode, if_neg (hx p hp hn), hl.node p hp hn, linksAt]
    simp only [hat]
    exact if_neg (by omega)
  rw [heq, hparent]
  refine ⟨?_, hl.injective_update (fun q hq hqn _ => hx q hq hqn) (by omega), ?_⟩
  · rw [occupant_update x _ hp hn]
    by_cases hroot : p = 1
    · simp [hroot, occupant, replaceChild]
    · rw [occupant_of_mem (by omega) (by omega), if_neg (Ne.symm hroot), ← hl.min, ← hmin,
        replaceChild]
      split_ifs <;> rfl
  · intro q hq hqn
    rw [linksAt, occupant_update x _ hp hn, occupant_update x _ hp hn, occupant_update x _ hp hn,
      node_replaceChild]
    by_cases hqp : q = p
    · rw [hqp, Function.update_self, if_neg (hoff _), hnode, if_pos rfl, linksAt,
        if_neg (show 2 * p ≠ p by omega), if_neg (show 2 * p + 1 ≠ p by omega),
        if_neg (show p / 2 ≠ p by omega)]
    · have hatq : ∀ t, occupant nodeAt n t = some (nodeAt q) ↔ t = q := hl.occupant_eq hq hqn
      have hup : (2 * p + 1 = q ∨ 2 * p = q) ↔ q / 2 = p := by omega
      rw [Function.update_of_ne hqp, hnode, if_neg (hx q hq hqn), hl.node q hq hqn, linksAt]
      simp only [hatq, hat, hup]
      by_cases habove : p / 2 = q
      · by_cases heven : 2 * q = p
        · rw [if_pos habove, if_pos heven, if_pos heven, if_neg (show 2 * q + 1 ≠ p by omega)]
        · rw [if_pos habove, if_neg heven, if_neg heven, if_pos (show 2 * q + 1 = p by omega)]
      · rw [if_neg habove, if_neg (show 2 * q ≠ p by omega), if_neg (show 2 * q + 1 ≠ p by omega)]

end CapyJs.Libuv.Heap
