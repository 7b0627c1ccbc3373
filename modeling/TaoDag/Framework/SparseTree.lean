import Mathlib.Logic.Function.Basic
import Mathlib.Data.List.Basic
import Mathlib.Data.List.Induction

namespace TaoDag.SparseTree

universe u v

variable {α : Type u} {K : Type v} (node : α → α → α)

/-- Root of the complete binary tree of height `n` with the value `f p` at the leaf with path
`p`, `false` leading left. -/
def root : Nat → (List Bool → α) → α
  | 0, f => f []
  | n+1, f => node (root n fun p => f (false :: p)) (root n fun p => f (true :: p))

/-- The value at the node with path `p` of a tree of height `n`. -/
def subtree (n : Nat) (f : List Bool → α) (p : List Bool) : α :=
  root node (n - p.length) fun q => f (p ++ q)

/-- Root of the tree of height `n` with one value at every leaf. -/
def emptyRoot (e : α) : Nat → α
  | 0 => e
  | n+1 => node (emptyRoot e n) (emptyRoot e n)

variable {node}

theorem root_congr {n : Nat} {f g : List Bool → α} (h : ∀ p, p.length = n → f p = g p) :
    root node n f = root node n g := by
  induction n generalizing f g with
  | zero => exact h [] rfl
  | succ n ih =>
    have hl := ih fun p hp => h (false :: p) (by simp [hp])
    have hr := ih fun p hp => h (true :: p) (by simp [hp])
    rw [root, root, hl, hr]

theorem root_const (n : Nat) (e : α) : root node n (fun _ => e) = emptyRoot node e n := by
  induction n with
  | zero => rfl
  | succ n ih => rw [root, emptyRoot, ih]

theorem subtree_nil (n : Nat) (f : List Bool → α) : subtree node n f [] = root node n f := rfl

theorem subtree_leaf {n : Nat} (f : List Bool → α) {p : List Bool} (h : p.length = n) :
    subtree node n f p = f p := by
  have h0 : n - p.length = 0 := by omega
  rw [subtree, h0, root, List.append_nil]

theorem subtree_node {n : Nat} (f : List Bool → α) {p : List Bool} (h : p.length < n) :
    subtree node n f p =
      node (subtree node n f (p ++ [false])) (subtree node n f (p ++ [true])) := by
  have hs : n - p.length = (n - (p.length + 1)) + 1 := by omega
  simp only [subtree, List.length_append, List.length_singleton, List.append_assoc,
    List.singleton_append]
  rw [hs, root]

/-- At no node do the trees with leaves `f` and `g` hash two pairs to one value. -/
def Separates (node : α → α → α) (n : Nat) (f g : List Bool → α) : Prop :=
  ∀ p : List Bool, p.length < n →
    node (subtree node n f (p ++ [false])) (subtree node n f (p ++ [true])) =
      node (subtree node n g (p ++ [false])) (subtree node n g (p ++ [true])) →
    ∀ side, subtree node n f (p ++ [side]) = subtree node n g (p ++ [side])

/-- Trees with one root agree at every node, unless at some node they hash two pairs to one
value. -/
theorem subtree_inj {n : Nat} {f g : List Bool → α} (hfree : Separates node n f g)
    (h : root node n f = root node n g) {p : List Bool} (hp : p.length ≤ n) :
    subtree node n f p = subtree node n g p := by
  induction p using List.reverseRecOn with
  | nil => exact h
  | append_singleton p side ih =>
    rw [List.length_append, List.length_singleton] at hp
    have hsame := ih (by omega)
    rw [subtree_node f hp, subtree_node g hp] at hsame
    exact hfree p hp hsame side

theorem root_inj {n : Nat} {f g : List Bool → α} (hfree : Separates node n f g)
    (h : root node n f = root node n g) {p : List Bool} (hp : p.length = n) : f p = g p := by
  have hsub := subtree_inj hfree h (Nat.le_of_eq hp)
  rwa [subtree_leaf f hp, subtree_leaf g hp] at hsub

section LeftEdge

variable (node)

/-- Hashes `x` up the left edge of a tree of height `n` that is empty elsewhere; `e` is its
sibling. -/
def leftEdge : Nat → α → α → α
  | 0, _, x => x
  | n+1, e, x => leftEdge n (node e e) (node x e)

variable {node}

theorem emptyRoot_succ (n : Nat) (e : α) :
    emptyRoot node (node e e) n = emptyRoot node e (n + 1) := by
  induction n with
  | zero => rfl
  | succ n ih =>
    rw [emptyRoot, ih]
    rfl

theorem leftEdge_succ (n : Nat) (e x : α) :
    leftEdge node (n + 1) e x = node (leftEdge node n e x) (emptyRoot node e n) := by
  induction n generalizing e x with
  | zero => rfl
  | succ n ih =>
    have hstep := ih (node e e) (node x e)
    rw [emptyRoot_succ] at hstep
    exact hstep

/-- The root of a tree whose only leaf is the first one. -/
theorem root_leftEdge {n : Nat} {f : List Bool → α} {e : α}
    (h : ∀ p, p.length = n → p ≠ List.replicate n false → f p = e) :
    root node n f = leftEdge node n e (f (List.replicate n false)) := by
  induction n generalizing f with
  | zero => rfl
  | succ n ih =>
    have hleft : root node n (fun p => f (false :: p)) =
        leftEdge node n e (f (false :: List.replicate n false)) := by
      refine ih fun p hp hne => h (false :: p) (by simp [hp]) fun heq => ?_
      rw [List.replicate_succ] at heq
      exact hne (List.cons.inj heq).2
    have hright : root node n (fun p => f (true :: p)) = emptyRoot node e n := by
      rw [← root_const]
      refine root_congr fun p hp => h (true :: p) (by simp [hp]) fun heq => ?_
      rw [List.replicate_succ] at heq
      cases (List.cons.inj heq).1
    rw [root, hleft, hright, leftEdge_succ, List.replicate_succ]

end LeftEdge

/-- A leaf is seen only by the subtrees on its path. -/
theorem subtree_update_of_not_prefix {n : Nat} {f : List Bool → α} {p q : List Bool} (v : α)
    (h : ¬q <+: p) : subtree node n (Function.update f p v) q = subtree node n f q := by
  refine root_congr fun r _ => Function.update_of_ne ?_ v f
  rintro rfl
  exact h (List.prefix_append q r)

section Climb

variable (node) (b : Nat → Bool) (sib : Nat → α)

/-- The two children of the node at depth `d` on the path with bits `b`, whose child on the path
is `x`. -/
def children (d : Nat) (x : α) : α × α := if b d then (sib d, x) else (x, sib d)

/-- Hashes `x` up the path with bits `b` from depth `d` to the root; `sib i` stands beside the
path at depth `i + 1`. -/
def climb : Nat → α → α
  | 0, x => x
  | d+1, x => climb d (node (children b sib d x).1 (children b sib d x).2)

/-- The pairs that are hashed on the way up. -/
def climbed : Nat → α → List (α × α)
  | 0, _ => []
  | d+1, x => children b sib d x ::
      climbed d (node (children b sib d x).1 (children b sib d x).2)

variable {node b sib}

/-- Beside the subtrees of a tree, the climb ends at its root. -/
theorem climb_subtree {n d : Nat} {f : List Bool → α} {p : List Bool} (hp : p.length = n)
    (hb : ∀ i < n, p.take (i + 1) = p.take i ++ [b i])
    (hsib : ∀ i < n, sib i = subtree node n f (p.take i ++ [!b i])) (hd : d ≤ n) :
    climb node b sib d (subtree node n f (p.take d)) = root node n f := by
  induction d with
  | zero => rw [climb, List.take_zero, subtree_nil]
  | succ d ih =>
    have hlen : (p.take d).length < n := by
      rw [List.length_take]
      omega
    rw [climb, ← ih (by omega), subtree_node f hlen, hb d hd, children, hsib d hd]
    cases b d <;> rfl

/-- Two climbs to one root start alike and pass the same siblings, unless at some depth they hash
two pairs to one value. -/
theorem climb_inj {sib' : Nat → α} {d : Nat} {x x' : α}
    (hfree : List.Forall₂ (fun c c' => node c.1 c.2 = node c'.1 c'.2 → c = c')
      (climbed node b sib d x) (climbed node b sib' d x'))
    (h : climb node b sib d x = climb node b sib' d x') :
    x = x' ∧ ∀ i < d, sib i = sib' i := by
  induction d generalizing x x' with
  | zero => exact ⟨h, fun i hi => absurd hi (Nat.not_lt_zero i)⟩
  | succ d ih =>
    rw [climbed, climbed, List.forall₂_cons] at hfree
    obtain ⟨hnode, hbelow⟩ := ih hfree.2 h
    have hpair := hfree.1 hnode
    have hlast : x = x' ∧ sib d = sib' d := by
      rw [children, children] at hpair
      split at hpair
      · exact ⟨(Prod.mk.inj hpair).2, (Prod.mk.inj hpair).1⟩
      · exact Prod.mk.inj hpair
    refine ⟨hlast.1, fun i hi => ?_⟩
    rcases Nat.lt_succ_iff_lt_or_eq.mp hi with hi | rfl
    · exact hbelow i hi
    · exact hlast.2

end Climb

section Keys

-- The leaves are addressed by keys, through their bits.
variable (bits : K → List Bool) (e : α)

open Classical in
/-- The leaves of a map from keys to values; `e` stands where no key leads. -/
noncomputable def leafAt (f : K → α) (p : List Bool) : α :=
  if h : ∃ k, bits k = p then f h.choose else e

variable {bits}

theorem leafAt_bits (hb : Function.Injective bits) (f : K → α) (k : K) :
    leafAt bits e f (bits k) = f k := by
  have h : ∃ k', bits k' = bits k := ⟨k, rfl⟩
  have hk : h.choose = k := hb h.choose_spec
  rw [leafAt, dif_pos h, hk]

theorem leafAt_update [DecidableEq K] (hb : Function.Injective bits) (f : K → α) (k : K) (v : α) :
    leafAt bits e (Function.update f k v) = Function.update (leafAt bits e f) (bits k) v := by
  funext p
  by_cases hp : ∃ k', bits k' = p
  · obtain ⟨k', rfl⟩ := hp
    rw [leafAt_bits e hb]
    by_cases hk : k' = k
    · subst hk
      simp
    · have hne : bits k' ≠ bits k := fun h => hk (hb h)
      rw [Function.update_of_ne hk, Function.update_of_ne hne, leafAt_bits e hb]
  · have hne : p ≠ bits k := fun h => hp ⟨k, h.symm⟩
    rw [Function.update_of_ne hne, leafAt, leafAt, dif_neg hp, dif_neg hp]

theorem leafAt_const (p : List Bool) : leafAt bits e (fun _ => e) p = e := by
  rw [leafAt]
  split <;> rfl

end Keys

end TaoDag.SparseTree
