import Mathlib.Data.List.Basic
import Mathlib.Data.Nat.Bitwise
import Mathlib.Logic.Function.Iterate

namespace TaoDag.PairTree

universe u

variable {α : Type u} (node : α → α → α)

/-- One level up: each node over two neighbours. -/
def pairs : List α → List α
  | a :: b :: rest => node a b :: pairs rest
  | _ => []

/-- The nodes `n` levels above the leaves. -/
def level (n : Nat) (leaves : List α) : List α := (pairs node)^[n] leaves

/-- Climbs from the value `x` at position `i`, with the siblings met on the way. -/
def walk : Nat → α → List α → α
  | _, x, [] => x
  | i, x, s :: rest => walk (i / 2) (if i % 2 = 0 then node x s else node s x) rest

/-- The two children of the first node of a walk. -/
def children (i : Nat) (x s : α) : α × α := if i % 2 = 0 then (x, s) else (s, x)

/-- The pairs that are joined on a walk. -/
def walked : Nat → α → List α → List (α × α)
  | _, _, [] => []
  | i, x, s :: rest => children i x s ::
      walked (i / 2) (if i % 2 = 0 then node x s else node s x) rest

/-- The pairs of neighbours in a list. -/
def neighbours : List α → List (α × α)
  | a :: b :: rest => (a, b) :: neighbours rest
  | _ => []

/-- The pairs that are joined in the `d` levels above the leaves. -/
def joined (d : Nat) (leaves : List α) : List (α × α) :=
  (List.range d).flatMap fun n => neighbours (level node n leaves)

variable {node}

theorem pairs_length (l : List α) : (pairs node l).length = l.length / 2 := by
  fun_induction pairs node l with
  | case1 a b rest ih =>
    rw [List.length_cons, ih, List.length_cons, List.length_cons]
    omega
  | case2 l h =>
    match l, h with
    | [], _ => simp
    | [a], _ => simp
    | a :: b :: rest, h => exact absurd rfl (h a b rest)

theorem getElem?_pairs (l : List α) (j : Nat) : (pairs node l)[j]? =
    (neighbours l)[j]?.map fun p => node p.1 p.2 := by
  fun_induction pairs node l generalizing j with
  | case1 a b rest ih =>
    rw [neighbours]
    cases j with
    | zero => rfl
    | succ j => exact ih j
  | case2 l h =>
    match l, h with
    | [], _ => rfl
    | [a], _ => rfl
    | a :: b :: rest, h => exact absurd rfl (h a b rest)

theorem getElem?_neighbours {l : List α} {j : Nat} {p : α × α} (h : (neighbours l)[j]? = some p) :
    l[2 * j]? = some p.1 ∧ l[2 * j + 1]? = some p.2 := by
  fun_induction neighbours l generalizing j with
  | case1 a b rest ih =>
    cases j with
    | zero =>
      cases h
      exact ⟨rfl, rfl⟩
    | succ j =>
      have hrest := ih h
      rw [show 2 * (j + 1) = 2 * j + 1 + 1 by omega]
      exact hrest
  | case2 l hl => cases h

/-- A value and its sibling are joined one level up. -/
theorem getElem?_pairs_sibling {l : List α} {i : Nat} {x s : α} (hx : l[i]? = some x)
    (hs : l[i ^^^ 1]? = some s) :
    (pairs node l)[i / 2]? = some (if i % 2 = 0 then node x s else node s x) := by
  fun_induction pairs node l generalizing i with
  | case1 a b rest ih =>
    match i, hx, hs with
    | 0, rfl, rfl => rfl
    | 1, rfl, rfl => rfl
    | i + 2, hx, hs =>
      have hxor : (i + 2) ^^^ 1 = (i ^^^ 1) + 2 := by
        rcases Nat.even_or_odd i with he | ho
        · rw [Nat.xor_one_of_even he, Nat.xor_one_of_even (he.add even_two)]
        · rw [Nat.xor_one_of_odd ho, Nat.xor_one_of_odd (ho.add_even even_two)]
          obtain ⟨k, hk⟩ := ho
          omega
      rw [hxor] at hs
      have hup := ih hx hs
      rw [Nat.add_div_right i Nat.two_pos, Nat.add_mod_right]
      exact hup
  | case2 l h =>
    match l, h, i, hx, hs with
    | [], _, _, hx, _ => cases hx
    | [a], _, 0, _, hs => cases hs
    | a :: b :: rest, h, _, _, _ => exact absurd rfl (h a b rest)

theorem level_succ (n : Nat) (leaves : List α) :
    level node (n + 1) leaves = pairs node (level node n leaves) :=
  Function.iterate_succ_apply' ..

theorem mem_joined {d n : Nat} {leaves : List α} {p : α × α} (hn : n < d)
    (h : p ∈ neighbours (level node n leaves)) : p ∈ joined node d leaves :=
  List.mem_flatMap.mpr ⟨n, List.mem_range.mpr hn, h⟩

theorem walk_append (i : Nat) (x : α) (s t : List α) :
    walk node i x (s ++ t) = walk node (i / 2^s.length) (walk node i x s) t := by
  induction s generalizing i x with
  | nil => simp [walk]
  | cons a s ih =>
    rw [List.cons_append, walk, walk, ih, List.length_cons, Nat.div_div_eq_div_mul, ← Nat.pow_succ']

theorem walked_append (i : Nat) (x : α) (s t : List α) :
    walked node i x (s ++ t) =
      walked node i x s ++ walked node (i / 2^s.length) (walk node i x s) t := by
  induction s generalizing i x with
  | nil => simp [walk, walked]
  | cons a s ih =>
    rw [List.cons_append, walked, walked, walk, ih, List.length_cons, Nat.div_div_eq_div_mul,
      ← Nat.pow_succ', List.cons_append]

/-- A walk that takes a step ends in a node of a pair it joined. -/
theorem walk_eq_node {i : Nat} {x : α} {sibs : List α} (h : sibs ≠ []) :
    ∃ p ∈ walked node i x sibs, walk node i x sibs = node p.1 p.2 := by
  induction sibs generalizing i x with
  | nil => exact absurd rfl h
  | cons s rest ih =>
    rw [walk, walked]
    cases rest with
    | nil =>
      refine ⟨children i x s, by simp, ?_⟩
      rw [walk, children]
      split <;> rfl
    | cons t rest =>
      obtain ⟨p, hp, heq⟩ := ih (i := i / 2) (x := if i % 2 = 0 then node x s else node s x)
        (by simp)
      exact ⟨p, List.mem_cons_of_mem _ hp, heq⟩

section Binding

variable {d : Nat} {leaves : List α} {top : α}

/-- A walk to the top of a tree that joins no two pairs in one node starts from the value at its
position, as many levels down as it is long. -/
theorem walk_level {i n : Nat} {x : α} {sibs : List α} (htop : level node d leaves = [top])
    (hn : n + sibs.length = d)
    (hinj : ∀ p ∈ walked node i x sibs, ∀ q ∈ joined node d leaves,
      node p.1 p.2 = node q.1 q.2 → p = q)
    (h : walk node i x sibs = top) : (level node n leaves)[i % 2^sibs.length]? = some x := by
  induction sibs generalizing i n x with
  | nil =>
    obtain rfl : n = d := hn
    rw [htop, List.length_nil, Nat.pow_zero, Nat.mod_one, ← h]
    rfl
  | cons s rest ih =>
    rw [List.length_cons] at hn ⊢
    rw [walked] at hinj
    have hup := ih (n := n + 1) (by omega)
      (fun p hp => hinj p (List.mem_cons_of_mem _ hp)) h
    rw [level_succ, getElem?_pairs, Option.map_eq_some_iff] at hup
    obtain ⟨q, hq, hnode⟩ := hup
    have hpair : children i x s = q := by
      refine hinj _ (by simp) q (mem_joined (by omega) (List.mem_of_getElem? hq)) ?_
      rw [hnode, children]
      split <;> rfl
    obtain ⟨hleft, hright⟩ := getElem?_neighbours hq
    have hmod : i % 2^(rest.length + 1) = 2 * (i / 2 % 2^rest.length) + i % 2 := by
      rw [Nat.pow_succ', Nat.mod_mul]
      omega
    rw [hmod, ← hpair] at *
    rw [children] at hleft hright
    split at hleft
    · rename_i heven
      rw [heven]
      exact hleft
    · rename_i hodd
      rw [if_neg hodd] at hright
      have hone : i % 2 = 1 := by omega
      rw [hone]
      exact hright

/-- A walk of any length to the top of a tree starts from the leaf at its position, the bits above
the height of the tree ignored, unless it starts from a node or passes through a leaf. -/
theorem walk_leaf {i : Nat} {x : α} {sibs : List α}
    (htop : level node d leaves = [top])
    (hinj : ∀ p ∈ walked node i x sibs, ∀ q ∈ joined node d leaves,
      node p.1 p.2 = node q.1 q.2 → p = q)
    (hnode : ∀ q ∈ joined node d leaves, x ≠ node q.1 q.2)
    (hleaf : ∀ y ∈ leaves, ∀ p ∈ walked node i x sibs, y ≠ node p.1 p.2)
    (h : walk node i x sibs = top) : leaves[i % 2^d]? = some x := by
  rcases Nat.lt_trichotomy sibs.length d with hlt | heq | hgt
  · have hx := walk_level (n := d - sibs.length) htop (by omega) hinj h
    obtain ⟨n, hn⟩ : ∃ n, d - sibs.length = n + 1 := ⟨d - sibs.length - 1, by omega⟩
    rw [hn, level_succ, getElem?_pairs, Option.map_eq_some_iff] at hx
    obtain ⟨q, hq, hx⟩ := hx
    exact absurd hx.symm (hnode q (mem_joined (by omega) (List.mem_of_getElem? hq)))
  · have hx := walk_level (n := 0) htop (by omega) hinj h
    rw [heq] at hx
    exact hx
  · have hsplit := List.take_append_drop (sibs.length - d) sibs
    have hfirst : (sibs.take (sibs.length - d)).length = sibs.length - d := by
      rw [List.length_take]
      omega
    have hrest : (sibs.drop (sibs.length - d)).length = d := by
      rw [List.length_drop]
      omega
    rw [← hsplit, walk_append] at h
    rw [← hsplit, walked_append] at hinj hleaf
    have hy := walk_level (n := 0) htop (by omega)
      (fun p hp => hinj p (List.mem_append_right _ hp)) h
    have hne : sibs.take (sibs.length - d) ≠ [] := by
      intro hnil
      rw [hnil, List.length_nil] at hfirst
      omega
    obtain ⟨p, hp, heq⟩ := walk_eq_node hne
    exact absurd heq (hleaf _ (List.mem_of_getElem? hy) p (List.mem_append_left _ hp))

end Binding

end TaoDag.PairTree
