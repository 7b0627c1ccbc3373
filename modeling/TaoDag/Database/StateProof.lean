import TaoDag.Database.SparseMerkleTree

namespace TaoDag.Database

open Smt (height bit hash2 emptyLeaf leafHash path)
open SparseMerkleTree (fromEntries leavesOf leafOf valueAt Lists)
open SparseTree (climb climbed)

namespace Smt

variable (blake3 : Bytes → Hash)

/-- The loop of `verify`: fold `cur` through the siblings, from `depth` up to the root. -/
def foldUp (key : Hash) (siblings : List Hash) : Nat → Hash → Hash
  | 0, cur => cur
  | depth+1, cur =>
      let sib := siblings.getD depth 0
      foldUp key siblings depth (if bit key depth then hash2 blake3 sib cur else hash2 blake3 cur sib)

/-- Checks a leaf, or `emptyLeaf` for an absent key, against a root. -/
def verify (root key leaf : Hash) (proof : MerkleProof) : Bool :=
  if proof.siblings.length ≠ height then false
  else foldUp blake3 key proof.siblings height leaf == root

/-- The pairs that `verify` hashes, from the leaf up. -/
def hashedPairs (key leaf : Hash) (proof : MerkleProof) : List (Hash × Hash) :=
  climbed (hash2 blake3) (bit key) (fun i => proof.siblings.getD i 0) height leaf

/-- At no depth `hash2` maps two pairs to one hash, of those that two proofs for a key hash
there. -/
def CollisionFree (key leaf leaf' : Hash) (proof proof' : MerkleProof) : Prop :=
  List.Forall₂ (fun c c' => hash2 blake3 c.1 c.2 = hash2 blake3 c'.1 c'.2 → c = c')
    (hashedPairs blake3 key leaf proof) (hashedPairs blake3 key leaf' proof')

variable {blake3}

theorem foldUp_eq_climb (key : Hash) (siblings : List Hash) (depth : Nat) (cur : Hash) :
    foldUp blake3 key siblings depth cur =
      climb (hash2 blake3) (bit key) (fun i => siblings.getD i 0) depth cur := by
  induction depth generalizing cur with
  | zero => rfl
  | succ depth ih =>
    rw [foldUp, climb, SparseTree.children, ih]
    cases bit key depth <;> rfl

theorem verify_iff_climb {root key leaf : Hash} {proof : MerkleProof} :
    verify blake3 root key leaf proof = true ↔ proof.siblings.length = 256 ∧
      climb (hash2 blake3) (bit key) (fun i => proof.siblings.getD i 0) 256 leaf = root := by
  rw [verify, foldUp_eq_climb, height]
  split <;> simp_all

/-- The siblings beside the path of `key`, in the tree with leaves `f`. -/
def siblingsIn (blake3 : Bytes → Hash) (f : List Bool → Hash) (key : Hash) : List Hash :=
  (List.range 256).map fun i =>
    SparseTree.subtree (hash2 blake3) 256 f ((path key).take i ++ [!bit key i])

theorem siblingsIn_getD {f : List Bool → Hash} {key : Hash} {i : Nat} (hi : i < 256) :
    (siblingsIn blake3 f key).getD i 0 =
      SparseTree.subtree (hash2 blake3) 256 f ((path key).take i ++ [!bit key i]) := by
  simp [siblingsIn, List.getD_eq_getElem?_getD, hi]

/-- Any leaf of a tree verifies, with the siblings beside its path. -/
theorem verify_siblingsIn (f : List Bool → Hash) (key : Hash) :
    verify blake3 (SparseTree.root (hash2 blake3) 256 f) key (f (path key))
      ⟨siblingsIn blake3 f key⟩ = true := by
  refine verify_iff_climb.mpr ⟨by simp [siblingsIn], ?_⟩
  have hclimb : climb (hash2 blake3) (bit key) (fun i => (siblingsIn blake3 f key).getD i 0) 256
      (SparseTree.subtree (hash2 blake3) 256 f ((path key).take 256)) =
        SparseTree.root (hash2 blake3) 256 f :=
    SparseTree.climb_subtree (path_length key) (fun i hi => take_path_succ hi)
      (fun i hi => siblingsIn_getD hi) le_rfl
  rwa [List.take_of_length_le (by simp), SparseTree.subtree_leaf f (path_length key)] at hclimb

end Smt

namespace SparseMerkleTree

open Smt (verify CollisionFree siblingsIn)

variable {blake3 : Bytes → Hash} {f : List Bool → Hash} {leaves : List (Hash × Hash)}

theorem Covers.root (h : Covers f [] leaves) :
    (SparseMerkleTree.mk leaves).root blake3 = SparseTree.root (hash2 blake3) 256 f := by
  rw [SparseMerkleTree.root, height, h.subtreeRoot rfl, SparseTree.subtree_nil]

theorem Covers.proof (h : Covers f [] leaves) (key : Hash) :
    (SparseMerkleTree.mk leaves).proof blake3 key = ⟨siblingsIn blake3 f key⟩ := by
  have hsib : SparseMerkleTree.collectSiblings blake3 key 256 leaves = _ := h.collectSiblings rfl rfl
  simp only [List.length_nil, Nat.zero_add] at hsib
  exact congrArg MerkleProof.mk hsib

private theorem eq_of_getD {p p' : MerkleProof} {n : Nat} (hp : p.siblings.length = n)
    (hp' : p'.siblings.length = n) (h : ∀ i < n, p.siblings.getD i 0 = p'.siblings.getD i 0) :
    p = p' := by
  refine congrArg MerkleProof.mk (List.ext_getElem (hp.trans hp'.symm) fun i hi hi' => ?_)
  have hget := h i (by omega)
  rw [List.getD_eq_getElem?_getD, List.getD_eq_getElem?_getD, List.getElem?_eq_getElem hi,
    List.getElem?_eq_getElem hi'] at hget
  exact hget

/-- The proof of the tree verifies, for the leaf of a key or for its absence. -/
theorem verify_proof (entries : List (Hash × Hash)) (key : Hash) :
    verify blake3 ((fromEntries blake3 entries).root blake3) key
      (leafOf blake3 key (valueAt entries key)) ((fromEntries blake3 entries).proof blake3 key) =
        true := by
  have hcovers := @fromEntries_covers blake3 entries
  rw [hcovers.root, hcovers.proof, ← leavesOf_path]
  exact Smt.verify_siblingsIn _ key

/-- Nothing verifies against the root of a tree but the leaf of the key, or its absence, with the
proof of the tree. -/
theorem verify_iff (entries : List (Hash × Hash)) (key leaf : Hash) (p : MerkleProof)
    (hfree : CollisionFree blake3 key leaf (leafOf blake3 key (valueAt entries key)) p
      ((fromEntries blake3 entries).proof blake3 key)) :
    verify blake3 ((fromEntries blake3 entries).root blake3) key leaf p = true ↔
      leaf = leafOf blake3 key (valueAt entries key) ∧
        p = (fromEntries blake3 entries).proof blake3 key := by
  have hhonest := @verify_proof blake3 entries key
  refine ⟨fun h => ?_, fun h => ?_⟩
  · obtain ⟨hlen, hroot⟩ := Smt.verify_iff_climb.mp h
    obtain ⟨hlen', hroot'⟩ := Smt.verify_iff_climb.mp hhonest
    obtain ⟨hleaf, hsib⟩ := SparseTree.climb_inj hfree (hroot.trans hroot'.symm)
    exact ⟨hleaf, eq_of_getD hlen hlen' hsib⟩
  · rw [h.1, h.2]
    exact hhonest

private theorem collisionFree_refl (key leaf : Hash) (p : MerkleProof) :
    CollisionFree blake3 key leaf leaf p p :=
  List.forall₂_same.mpr fun _ _ _ => rfl

/-- A key of the tree and a key that it lacks. -/
theorem verify_iff_two :
    (verify Blake3.hash ((fromEntries Blake3.hash [(3, 6), (1, 5)]).root Blake3.hash) 1
        (leafHash Blake3.hash 1 5) ((fromEntries Blake3.hash [(3, 6), (1, 5)]).proof Blake3.hash 1) =
          true) ∧
      verify Blake3.hash ((fromEntries Blake3.hash [(3, 6), (1, 5)]).root Blake3.hash) 2
        emptyLeaf ((fromEntries Blake3.hash [(3, 6), (1, 5)]).proof Blake3.hash 2) = true :=
  ⟨(verify_iff [(3, 6), (1, 5)] 1 _ _ (collisionFree_refl 1 _ _)).mpr ⟨rfl, rfl⟩,
    (verify_iff [(3, 6), (1, 5)] 2 _ _ (collisionFree_refl 2 _ _)).mpr ⟨rfl, rfl⟩⟩

end SparseMerkleTree

end TaoDag.Database
