import Mathlib.Data.List.Destutter
import Mathlib.Data.List.TakeWhile
import Mathlib.Data.Nat.Bitwise
import TaoDag.Core.Blake3
import TaoDag.Database.SmtTree

namespace TaoDag.Database

open Smt (height bit defaults emptyLeaf hash2 leafHash path)
open SparseTree (subtree root leafAt)

/-- A sparse Merkle tree as its sorted leaves: each key with its leaf hash. -/
structure SparseMerkleTree where
  leaves : List (Hash × Hash)

/-- The sibling hash at each level, from the root down. -/
structure MerkleProof where
  siblings : List Hash
  deriving DecidableEq

namespace SparseMerkleTree

variable (blake3 : Bytes → Hash)

/-- Builds the tree from pairs of a key and a value hash. Of equal keys the first is kept. -/
def fromEntries (entries : List (Hash × Hash)) : SparseMerkleTree :=
  let sorted := entries.mergeSort fun a b => decide (a.1.toNat ≤ b.1.toNat)
  ⟨(sorted.destutter fun a b => a.1 ≠ b.1).map fun e => (e.1, leafHash blake3 e.1 e.2)⟩

/-- The leaves below the two children of a node at `depth`: the slice is cut at its partition
point. -/
def split (leaves : List (Hash × Hash)) (depth : Nat) : List (Hash × Hash) × List (Hash × Hash) :=
  leaves.span fun l => !bit l.1 depth

/-- Root of the subtree of height `n`, at depth `height - n`, over the sorted `leaves`. -/
def subtreeRoot : Nat → List (Hash × Hash) → Hash
  | n, [] => defaults blake3 (height - n)
  | 0, leaf :: _ => leaf.2
  | n+1, leaf :: rest =>
      let (left, right) := split (leaf :: rest) (height - (n + 1))
      hash2 blake3 (subtreeRoot n left) (subtreeRoot n right)

/-- The state root. -/
def root (t : SparseMerkleTree) : Hash := subtreeRoot blake3 height t.leaves

/-- The siblings on the path of `key` below a node of height `n`. -/
def collectSiblings (key : Hash) : Nat → List (Hash × Hash) → List Hash
  | 0, _ => []
  | n+1, leaves =>
      let (left, right) := split leaves (height - (n + 1))
      if bit key (height - (n + 1)) then
        subtreeRoot blake3 n left :: collectSiblings key n right
      else subtreeRoot blake3 n right :: collectSiblings key n left

/-- Proof of the leaf of `key`, or of its absence. -/
def proof (t : SparseMerkleTree) (key : Hash) : MerkleProof :=
  ⟨collectSiblings blake3 key height t.leaves⟩

end SparseMerkleTree

/-- Proof for `key` read from the stored nodes. -/
def Smt.storedProof (blake3 : Bytes → Hash) (store : NodeStore) (key : Hash) : MerkleProof :=
  ⟨(List.range height).map fun depth =>
    (store.lookup (nodeId (flipBit key depth) (depth + 1))).getD (defaults blake3 (depth + 1))⟩

namespace Smt

theorem exists_path {p : List Bool} (h : p.length = 256) : ∃ key, path key = p := by
  refine ⟨(BitVec.ofBoolListBE p).cast h, List.ext_getElem (by simp [h]) fun i hi hp => ?_⟩
  have hbit : bit ((BitVec.ofBoolListBE p).cast h) i = p.getD i false := by
    rw [bit, BitVec.getMsbD_cast, BitVec.getMsbD_ofBoolListBE]
  simp only [path, List.getElem_map, List.getElem_range, hbit]
  rw [List.getD_eq_getElem?_getD, List.getElem?_eq_getElem hp]
  rfl

/-- Of two keys that agree above bit `d`, the one with that bit is the greater. -/
theorem lt_of_bit {a b : Hash} {d : Nat} (hd : d < 256) (hbelow : ∀ i < d, bit a i = bit b i)
    (ha : bit a d = false) (hb : bit b d = true) : a.toNat < b.toNat := by
  have htest : ∀ {x : Hash} {j}, j < 256 → x.toNat.testBit j = bit x (255 - j) := by
    intro x j hj
    have hlt : 255 - j < 256 := by omega
    have hsub : 256 - 1 - (255 - j) = j := by omega
    rw [bit, BitVec.getMsbD, hsub, BitVec.getLsbD, decide_eq_true hlt, Bool.true_and]
  have hself : 255 - (255 - d) = d := by omega
  refine Nat.lt_of_testBit (255 - d) ?_ ?_ fun j hj => ?_
  · rw [htest (by omega), hself, ha]
  · rw [htest (by omega), hself, hb]
  · by_cases hj' : j < 256
    · rw [htest hj', htest hj']
      exact hbelow _ (by omega)
    · have hge : 2^256 ≤ 2^j := Nat.pow_le_pow_right (by omega) (by omega)
      rw [Nat.testBit_lt_two_pow (a.isLt.trans_le hge), Nat.testBit_lt_two_pow (b.isLt.trans_le hge)]

end Smt

namespace SparseMerkleTree

variable {blake3 : Bytes → Hash} {f : List Bool → Hash} {p : List Bool}
  {leaves : List (Hash × Hash)} {key : Hash}

/-- The sorted `leaves` are those of the tree with leaves `f` below the node at path `p`. -/
structure Covers (f : List Bool → Hash) (p : List Bool) (leaves : List (Hash × Hash)) : Prop where
  sorted : leaves.Pairwise fun a b => a.1.toNat < b.1.toNat
  below : ∀ l ∈ leaves, (path l.1).take p.length = p
  present : ∀ l ∈ leaves, f (path l.1) = l.2
  absent : ∀ key, (path key).take p.length = p → (∀ l ∈ leaves, l.1 ≠ key) →
    f (path key) = emptyLeaf

/-- Past the partition point every leaf is on the right. -/
theorem Covers.right_bit (h : Covers f p leaves) (hp : p.length < 256) :
    ∀ l ∈ leaves.dropWhile (fun l => !bit l.1 p.length), bit l.1 p.length = true := by
  have hs := h.sorted
  have hb := h.below
  clear h
  induction leaves with
  | nil => simp
  | cons a rest ih =>
    rw [List.pairwise_cons] at hs
    cases ha : bit a.1 p.length with
    | false =>
      rw [List.dropWhile_cons_of_pos (by simp [ha])]
      exact ih hs.2 fun l hl => hb l (List.mem_cons_of_mem a hl)
    | true =>
      rw [List.dropWhile_cons_of_neg (by simp [ha])]
      intro l hl
      rcases List.mem_cons.mp hl with rfl | hl'
      · exact ha
      · by_contra hbit
        have hsame : (path l.1).take p.length = (path a.1).take p.length :=
          (hb l hl).trans (hb a List.mem_cons_self).symm
        have hlt := Smt.lt_of_bit hp ((Smt.take_path_eq_iff hp.le).mp hsame)
          (Bool.not_eq_true _ ▸ hbit) ha
        have hgt := hs.1 l hl'
        omega

theorem Covers.split (h : Covers f p leaves) (hp : p.length < 256) :
    Covers f (p ++ [false]) (split leaves p.length).1 ∧
      Covers f (p ++ [true]) (split leaves p.length).2 := by
  rw [SparseMerkleTree.split, List.span_eq_takeWhile_dropWhile]
  have hleft : ∀ l ∈ leaves.takeWhile (fun l => !bit l.1 p.length), bit l.1 p.length = false := by
    intro l hl
    simpa using List.mem_takeWhile_imp hl
  have hright := h.right_bit hp
  have hall : ∀ l ∈ leaves, l ∈ leaves.takeWhile (fun l => !bit l.1 p.length) ∨
      l ∈ leaves.dropWhile (fun l => !bit l.1 p.length) := by
    intro l hl
    rw [← List.mem_append, List.takeWhile_append_dropWhile]
    exact hl
  -- one side: its leaves have the side's bit, and the other side's do not
  have hside : ∀ (side : Bool) (l₁ l₂ : List (Hash × Hash)), l₁.Sublist leaves →
      (∀ l ∈ l₁, bit l.1 p.length = side) → (∀ l ∈ l₂, bit l.1 p.length = !side) →
      (∀ l ∈ leaves, l ∈ l₁ ∨ l ∈ l₂) → Covers f (p ++ [side]) l₁ := by
    intro side l₁ l₂ hsub h₁ h₂ hcover
    refine ⟨h.sorted.sublist hsub, fun l hl => ?_, fun l hl => h.present l (hsub.subset hl),
      fun key hkey habsent => ?_⟩
    · rw [List.length_append, List.length_singleton, Smt.take_path_succ hp,
        h.below l (hsub.subset hl), h₁ l hl]
    · rw [List.length_append, List.length_singleton, Smt.take_path_succ hp] at hkey
      obtain ⟨htake, hbit⟩ := List.append_inj' hkey rfl
      have hbit : bit key p.length = side := by simpa using hbit
      refine h.absent key htake fun l hl heq => ?_
      rcases hcover l hl with hl | hl
      · exact habsent l hl heq
      · rw [← heq, h₂ l hl] at hbit
        cases side <;> cases hbit
  exact ⟨hside false _ _ (List.takeWhile_sublist _) hleft hright hall,
    hside true _ _ (List.dropWhile_sublist _) hright hleft fun l hl => (hall l hl).symm⟩

/-- `subtree_root` computes the subtree that its slice covers. -/
theorem Covers.subtreeRoot {n : Nat} (h : Covers f p leaves) (hn : n + p.length = 256) :
    subtreeRoot blake3 n leaves = subtree (hash2 blake3) 256 f p := by
  induction n generalizing p leaves with
  | zero =>
    have hp : p.length = 256 := by omega
    obtain ⟨key, hkey⟩ := Smt.exists_path hp
    rw [SparseTree.subtree_leaf f hp]
    cases leaves with
    | nil =>
      have hall : (path key).take p.length = p := by rw [← hkey]; simp
      rw [← hkey]
      exact (h.absent key hall (by simp)).symm
    | cons l rest =>
      have hl : path l.1 = p := by
        have hb := h.below l List.mem_cons_self
        rwa [hp, List.take_of_length_le (by simp)] at hb
      rw [← hl]
      exact (h.present l List.mem_cons_self).symm
  | succ n ih =>
    cases leaves with
    | nil =>
      have hempty : ∀ q : List Bool, q.length = n + 1 → f (p ++ q) = emptyLeaf := by
        intro q hq
        obtain ⟨key, hkey⟩ := Smt.exists_path (p := p ++ q) (by simp; omega)
        rw [← hkey]
        exact h.absent key (by rw [hkey]; simp) (by simp)
      have hheight : 256 - p.length = n + 1 := by omega
      have hdepth : height - (height - (n + 1)) = n + 1 := by
        rw [height]
        omega
      rw [subtree, hheight, SparseTree.root_congr hempty, SparseTree.root_const,
        ← Smt.emptyRoot_eq]
      change Smt.emptyRoot blake3 (height - (height - (n + 1))) = _
      rw [hdepth]
    | cons l rest =>
      have hp : p.length < 256 := by omega
      have hdepth : height - (n + 1) = p.length := by
        rw [height]
        omega
      obtain ⟨hleft, hright⟩ := h.split hp
      rw [SparseTree.subtree_node f hp, SparseMerkleTree.subtreeRoot]
      simp only [hdepth]
      rw [ih hleft (by simp; omega), ih hright (by simp; omega)]

/-- `collect_siblings` lists the roots of the subtrees beside the path. -/
theorem Covers.collectSiblings {n : Nat} (h : Covers f p leaves) (hn : n + p.length = 256)
    (hkey : (path key).take p.length = p) :
    collectSiblings blake3 key n leaves = (List.range n).map fun i =>
      subtree (hash2 blake3) 256 f
        ((path key).take (p.length + i) ++ [!bit key (p.length + i)]) := by
  induction n generalizing p leaves with
  | zero => rfl
  | succ n ih =>
    have hp : p.length < 256 := by omega
    have hdepth : height - (n + 1) = p.length := by
      rw [height]
      omega
    have hnext : ∀ b, n + (p ++ [b]).length = 256 := by
      intro b
      simp
      omega
    obtain ⟨hleft, hright⟩ := h.split hp
    have hsucc : (path key).take (p.length + 1) = _ := Smt.take_path_succ hp
    rw [hkey] at hsucc
    rw [List.range_succ_eq_map, List.map_cons, List.map_map, SparseMerkleTree.collectSiblings]
    simp only [hdepth, Nat.add_zero, hkey]
    -- the siblings below are those of the child on the path
    have hrest : ∀ b, bit key p.length = b → ∀ l, Covers f (p ++ [b]) l →
        SparseMerkleTree.collectSiblings blake3 key n l =
          (List.range n).map ((fun i => subtree (hash2 blake3) 256 f
            ((path key).take (p.length + i) ++ [!bit key (p.length + i)])) ∘ Nat.succ) := by
      intro b hb l hl
      rw [ih hl (hnext b) (by simpa [hb] using hsucc)]
      refine List.map_congr_left fun i _ => ?_
      have hi : (p ++ [b]).length + i = p.length + i.succ := by
        simp
        omega
      rw [hi]
      rfl
    cases hb : bit key p.length with
    | false =>
      rw [hright.subtreeRoot (hnext true), hrest false hb _ hleft]
      rfl
    | true =>
      rw [hleft.subtreeRoot (hnext false), hrest true hb _ hright]
      rfl

section Incremental

variable (blake3 : Bytes → Hash)

/-- The leaf that `update_leaf` gets to set a value hash, or to remove the key. -/
def leafOf (key : Hash) : Option Hash → Hash
  | some valueHash => leafHash blake3 key valueHash
  | none => emptyLeaf

/-- The nodes that `update_leaf` calls on an empty store leave. -/
def storeOf (updates : List (Hash × Option Hash)) : NodeStore :=
  updates.foldl (fun store u => Smt.updateLeaf blake3 store u.1 (leafOf blake3 u.1 u.2)) ∅

/-- The value hashes that the calls leave. -/
def valuesOf (updates : List (Hash × Option Hash)) : Hash → Option Hash :=
  updates.foldl (fun values u => Function.update values u.1 u.2) fun _ => none

/-- The leaves of the tree over `values`. -/
noncomputable def leavesOf (values : Hash → Option Hash) : List Bool → Hash :=
  leafAt path emptyLeaf fun key => leafOf blake3 key (values key)

variable {blake3} {values : Hash → Option Hash} {entries : List (Hash × Hash)}
  {updates : List (Hash × Option Hash)}

theorem leavesOf_path (values : Hash → Option Hash) (key : Hash) :
    leavesOf blake3 values (path key) = leafOf blake3 key (values key) :=
  SparseTree.leafAt_bits _ Smt.path_injective _ key

theorem leavesOf_update (values : Hash → Option Hash) (key : Hash) (value : Option Hash) :
    leavesOf blake3 (Function.update values key value) =
      Function.update (leavesOf blake3 values) (path key) (leafOf blake3 key value) := by
  have hleaf : (fun k => leafOf blake3 k (Function.update values key value k)) =
      Function.update (fun k => leafOf blake3 k (values k)) key (leafOf blake3 key value) := by
    funext k
    by_cases hk : k = key
    · subst hk
      rw [Function.update_self, Function.update_self]
    · rw [Function.update_of_ne hk, Function.update_of_ne hk]
  rw [leavesOf, hleaf, SparseTree.leafAt_update _ Smt.path_injective]
  rfl

/-- After any calls the store holds the tree over the values that they leave. -/
theorem storeOf_represents (updates : List (Hash × Option Hash)) :
    Smt.Represents blake3 (storeOf blake3 updates) (leavesOf blake3 (valuesOf updates)) := by
  have hstep : ∀ (l : List (Hash × Option Hash)) (store : NodeStore) (values : Hash → Option Hash),
      Smt.Represents blake3 store (leavesOf blake3 values) →
      Smt.Represents blake3
        (l.foldl (fun store u => Smt.updateLeaf blake3 store u.1 (leafOf blake3 u.1 u.2)) store)
        (leavesOf blake3 (l.foldl (fun values u => Function.update values u.1 u.2) values)) := by
    intro l
    induction l with
    | nil => exact fun store values h => h
    | cons u rest ih =>
      intro store values h
      have hnext := h.updateLeaf u.1 (leafOf blake3 u.1 u.2)
      rw [← leavesOf_update] at hnext
      rw [List.foldl_cons, List.foldl_cons]
      exact ih _ _ hnext
  refine hstep updates ∅ _ ?_
  have hempty : leavesOf blake3 (fun _ => none) = fun _ => emptyLeaf :=
    funext fun p => SparseTree.leafAt_const emptyLeaf p
  rw [hempty]
  exact Smt.represents_empty

/-- The entries list a map: each key once, with its value. -/
structure Lists (entries : List (Hash × Hash)) (values : Hash → Option Hash) : Prop where
  nodup : (entries.map Prod.fst).Nodup
  mem : ∀ key value, (key, value) ∈ entries ↔ values key = some value

private theorem find?_destutter' (key : Hash) (l : List (Hash × Hash)) (a : Hash × Hash) :
    (l.destutter' (fun a b => a.1 ≠ b.1) a).find? (fun e => e.1 = key) =
      (a :: l).find? fun e => e.1 = key := by
  induction l generalizing a with
  | nil => rfl
  | cons b l ih =>
    by_cases hab : a.1 ≠ b.1
    · rw [List.destutter'_cons_pos l hab, List.find?_cons, List.find?_cons, ih b]
    · rw [List.destutter'_cons_neg l hab, ih a]
      simp only [not_not] at hab
      simp only [List.find?_cons, hab]
      split <;> rfl

/-- Of equal keys, the first pair stays the first after sorting and is the one kept. -/
private theorem find?_dedup (entries : List (Hash × Hash)) (key : Hash)
    {le : Hash × Hash → Hash × Hash → Bool} (hle : ∀ a b, le a b = true ↔ a.1.toNat ≤ b.1.toNat) :
    ((entries.mergeSort le).destutter fun a b => a.1 ≠ b.1).find? (fun e => e.1 = key) =
      entries.find? fun e => e.1 = key := by
  have htrans : ∀ a b c, le a b = true → le b c = true → le a c = true := by
    intro a b c hab hbc
    rw [hle] at hab hbc ⊢
    omega
  have htotal : ∀ a b, (le a b || le b a) = true := by
    intro a b
    rw [Bool.or_eq_true, hle, hle]
    omega
  have hdedup : ∀ l : List (Hash × Hash),
      (l.destutter fun a b => a.1 ≠ b.1).find? (fun e => e.1 = key) =
        l.find? fun e => e.1 = key := by
    intro l
    cases l with
    | nil => rfl
    | cons a l => exact find?_destutter' key l a
  -- the pairs of this key are in order already, so that the sort keeps their order
  have hsame : (entries.filter fun e => e.1 = key).Pairwise fun a b => le a b = true := by
    refine List.pairwise_of_forall_mem_list fun a ha b hb => ?_
    have ha := of_decide_eq_true (List.mem_filter.mp ha).2
    have hb := of_decide_eq_true (List.mem_filter.mp hb).2
    rw [hle, ha, hb]
  have hsub := (List.sublist_mergeSort htrans htotal hsame List.filter_sublist).filter
    fun e => e.1 = key
  rw [List.filter_filter] at hsub
  simp only [Bool.and_self] at hsub
  have hfilter := hsub.eq_of_length
    ((List.mergeSort_perm entries le).symm.filter fun e => e.1 = key).length_eq
  rw [hdedup, ← List.head?_filter, ← List.head?_filter, hfilter]

private theorem dedup_sorted {l : List (Hash × Hash)}
    (hl : l.Pairwise fun a b => a.1.toNat ≤ b.1.toNat) :
    (l.destutter fun a b => a.1 ≠ b.1).Pairwise fun a b => a.1.toNat < b.1.toNat := by
  have hchain := l.isChain_destutter fun a b => a.1 ≠ b.1
  have hsub : (l.destutter fun a b => a.1 ≠ b.1).Pairwise fun a b => a.1.toNat ≤ b.1.toNat :=
    hl.sublist (l.destutter_sublist _)
  have htrans : IsTrans (Hash × Hash) fun a b => a.1.toNat < b.1.toNat :=
    ⟨fun _ _ _ => Nat.lt_trans⟩
  refine List.IsChain.pairwise ?_
  generalize (l.destutter fun a b => a.1 ≠ b.1) = m at hchain hsub ⊢
  induction m with
  | nil => exact .nil
  | cons a m ih =>
    rw [List.pairwise_cons] at hsub
    cases m with
    | nil => exact .singleton a
    | cons b m =>
      rw [List.isChain_cons_cons] at hchain ⊢
      refine ⟨?_, ih hchain.2 hsub.2⟩
      have hneq : a.1.toNat ≠ b.1.toNat := fun heq => hchain.1 (BitVec.eq_of_toNat_eq heq)
      have hle := hsub.1 b List.mem_cons_self
      omega

/-- The value hash that a list of pairs gives a key. -/
def valueAt (entries : List (Hash × Hash)) (key : Hash) : Option Hash :=
  (entries.find? fun e => e.1 = key).map (·.2)

/-- `from_entries` gives the leaves of the tree over the entries, whatever their order and
repetitions. -/
theorem fromEntries_covers (entries : List (Hash × Hash)) :
    Covers (leavesOf blake3 (valueAt entries)) [] (fromEntries blake3 entries).leaves := by
  let le : Hash × Hash → Hash × Hash → Bool := fun a b => decide (a.1.toNat ≤ b.1.toNat)
  have hle : ∀ a b, le a b = true ↔ a.1.toNat ≤ b.1.toNat := fun a b => decide_eq_true_iff
  have hfind := fun key => find?_dedup entries key hle
  have hsorted : (entries.mergeSort le).Pairwise fun a b => a.1.toNat ≤ b.1.toNat := by
    refine (List.pairwise_mergeSort (fun a b c hab hbc => ?_) (fun a b => ?_) entries).imp
      fun {a b} h => (hle a b).mp h
    · rw [hle] at hab hbc ⊢
      omega
    · rw [Bool.or_eq_true, hle, hle]
      omega
  have hlt := dedup_sorted hsorted
  change Covers _ [] (List.map _ ((entries.mergeSort le).destutter fun a b => a.1 ≠ b.1))
  generalize (entries.mergeSort le).destutter (fun a b => a.1 ≠ b.1) = kept at hfind hlt ⊢
  refine ⟨List.pairwise_map.mpr hlt, fun _ _ => rfl, fun l hl => ?_, fun key _ habsent => ?_⟩
  · obtain ⟨e, he, rfl⟩ := List.mem_map.mp hl
    have hfirst : kept.find? (fun e' => e'.1 = e.1) = some e := by
      refine List.find?_eq_some_iff_append.mpr ⟨by simp, ?_⟩
      obtain ⟨pre, post, rfl⟩ := List.append_of_mem he
      refine ⟨pre, post, rfl, fun x hx => ?_⟩
      have hxe := (List.pairwise_append.mp hlt).2.2 x hx e List.mem_cons_self
      have hne : x.1 ≠ e.1 := fun heq => absurd hxe (by rw [heq]; omega)
      simpa using hne
    rw [leavesOf_path, valueAt, ← hfind e.1, hfirst]
    rfl
  · rw [leavesOf_path, valueAt, ← hfind key]
    cases hv : kept.find? (fun e => e.1 = key) with
    | none => rfl
    | some e =>
      have hkey : e.1 = key := by simpa using List.find?_some hv
      refine absurd hkey (habsent (e.1, leafHash blake3 e.1 e.2) ?_)
      exact List.mem_map.mpr ⟨e, List.mem_of_find?_eq_some hv, rfl⟩

/-- Of a list with each key once, the value of a key. -/
theorem Lists.valueAt (h : Lists entries values) : valueAt entries = values := by
  funext key
  rw [SparseMerkleTree.valueAt]
  cases hv : entries.find? (fun e => e.1 = key) with
  | none =>
    cases hval : values key with
    | none => rfl
    | some value =>
      have hnot := List.find?_eq_none.mp hv _ ((h.mem key value).mpr hval)
      simp at hnot
  | some e =>
    have hkey : e.1 = key := by simpa using List.find?_some hv
    rw [← hkey, (h.mem e.1 e.2).mp (List.mem_of_find?_eq_some hv)]
    rfl

/-- The incremental tree is the one built from scratch: after any calls of `update_leaf` on an
empty store, it has the root and the proofs of the tree over the values that the calls leave. -/
theorem storedRoot_eq_root (updates : List (Hash × Option Hash)) (entries : List (Hash × Hash))
    (h : Lists entries (valuesOf updates)) :
    Smt.storedRoot blake3 (storeOf blake3 updates) = (fromEntries blake3 entries).root blake3 ∧
      ∀ key, Smt.storedProof blake3 (storeOf blake3 updates) key =
        (fromEntries blake3 entries).proof blake3 key := by
  have hstore := @storeOf_represents blake3 updates
  have hcovers := @fromEntries_covers blake3 entries
  rw [h.valueAt] at hcovers
  refine ⟨?_, fun key => congrArg MerkleProof.mk ?_⟩
  · rw [hstore.storedRoot, SparseMerkleTree.root, height, hcovers.subtreeRoot rfl,
      SparseTree.subtree_nil]
  · rw [height, hcovers.collectSiblings rfl rfl]
    refine List.map_congr_left fun depth hdepth => ?_
    have hd : depth < 256 := List.mem_range.mp hdepth
    have hnode := hstore (Smt.flipBit key depth) (depth + 1) hd
    rw [Smt.take_path_flipBit hd] at hnode
    rw [List.length_nil, Nat.zero_add]
    exact hnode

/-- A key that is set and removed, and two that stay. -/
theorem storedRoot_eq_root_three :
    Smt.storedRoot Blake3.hash (storeOf Blake3.hash [(1, some 5), (3, some 6), (1, none), (2, some 7)]) =
      (fromEntries Blake3.hash [(3, 6), (2, 7)]).root Blake3.hash := by
  refine (storedRoot_eq_root _ _ ⟨by decide, fun key value => ?_⟩).1
  have hvalues : valuesOf [(1, some 5), (3, some 6), (1, none), (2, some 7)] key =
      if key = 2 then some 7 else if key = 1 then none else if key = 3 then some 6 else
        if key = 1 then some 5 else none := by
    simp only [valuesOf, List.foldl_cons, List.foldl_nil, Function.update_apply]
  rw [hvalues]
  by_cases h₂ : key = 2
  · subst h₂
    simp [eq_comm]
  · by_cases h₁ : key = 1
    · subst h₁
      simp
    · by_cases h₃ : key = 3
      · subst h₃
        simp [eq_comm]
      · simp only [List.mem_cons, Prod.mk.injEq, h₁, h₂, h₃, false_and, or_false, List.not_mem_nil,
          if_false, reduceCtorEq]

end Incremental

end SparseMerkleTree

end TaoDag.Database
