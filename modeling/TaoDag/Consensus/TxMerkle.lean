import TaoDag.Consensus.Block
import TaoDag.Framework.MerkleTree

namespace TaoDag.Consensus

open Merkle (height pairUp)

section Tree

variable (blake3 : Bytes → Hash)

/-- The 64 bytes an inner node hashes. -/
def nodeBytes (l r : Hash) : Bytes := Codec.bytes32.encode l ++ Codec.bytes32.encode r

/-- The byte strings hashed `n` levels above the transactions. -/
abbrev treeLevel (n : Nat) (transactions : List Bytes) : List Bytes :=
  Merkle.level blake3 nodeBytes n transactions

/-- Every byte string hashed for the root of `transactions`. -/
abbrev HashedStrings (transactions : List Bytes) : Set Bytes :=
  Merkle.Hashed blake3 nodeBytes transactions

/-- No two of these strings have one digest, and none has the all-zero digest, which stands
for the empty list. -/
structure CollisionFree (S : Set Bytes) : Prop where
  inj : Set.InjOn blake3 S
  ne_zero : ∀ x ∈ S, blake3 x ≠ 0

/-- Two transaction lists that the padded tree does not tell apart. -/
def Indistinct (l l' : List Bytes) : Prop :=
  (l = [] ∧ l' = []) ∨ (l ≠ [] ∧ l' ≠ [] ∧ Merkle.SameTree blake3 nodeBytes l l')

end Tree

variable {blake3 : Bytes → Hash}

theorem nodeBytes_inj (a b c d : Hash) (h : nodeBytes a b = nodeBytes c d) : a = c ∧ b = d := by
  obtain ⟨hac, hbd⟩ := Codec.encode_append_inj Codec.bytes32 trivial trivial h
  exact ⟨hac, Codec.encode_inj Codec.bytes32 trivial trivial hbd⟩

private theorem hashPairs_padOdd (level : List Hash) :
    hashPairs blake3 (padOdd level) =
      (pairUp level).map fun p => blake3 (nodeBytes p.1 p.2) := by
  induction level using TaoDag.Merkle.pairUp.induct with
  | case1 => rfl
  | case2 a => rfl
  | case3 a b rest ih =>
    have hpad : padOdd (a :: b :: rest) = a :: b :: padOdd rest := by
      cases rest with
      | nil => simp [padOdd]
      | cons c rest =>
        have hlast : (a :: b :: c :: rest).getLast? = (c :: rest).getLast? := by simp
        have hodd : (a :: b :: c :: rest).length % 2 = (c :: rest).length % 2 := by
          simp only [List.length_cons]
          omega
        unfold padOdd
        rw [hlast, hodd]
        split <;> rfl
    rw [hpad, hashPairs, ih]
    rfl

/-- One step of the loop is one level of the tree. -/
theorem hashPairs_level (l : List Bytes) :
    hashPairs blake3 (padOdd (l.map blake3)) =
      (Merkle.parents blake3 nodeBytes l).map blake3 := by
  rw [hashPairs_padOdd, Merkle.pairUp_map, Merkle.parents, List.map_map, List.map_map]
  rfl

/-- The loop climbs to the top of the tree. -/
theorem merkleLoop_eq (fuel : Nat) (l : List Bytes) (hl : l ≠ []) (hf : height l ≤ fuel) :
    merkleLoop blake3 fuel (l.map blake3) = (treeLevel blake3 (height l) l).map blake3 := by
  induction fuel generalizing l with
  | zero =>
    have h0 : height l = 0 := by omega
    rw [h0]
    rfl
  | succ fuel ih =>
    rw [merkleLoop, List.length_map]
    by_cases h1 : 1 < l.length
    · have hh := Merkle.height_parents blake3 nodeBytes h1
      have hne : Merkle.parents blake3 nodeBytes l ≠ [] := by
        intro h
        have hp := Merkle.parents_length blake3 nodeBytes l
        rw [h, List.length_nil] at hp
        omega
      rw [if_pos h1, hashPairs_level, ih _ hne (by omega), hh]
      rfl
    · have h0 : height l = 0 := Nat.clog_of_right_le_one (by omega) 2
      rw [if_neg h1, h0]
      rfl

theorem height_le_length (l : List Bytes) : height l ≤ l.length :=
  Nat.clog_le_of_le_pow (Nat.lt_two_pow_self).le

/-- The root of a nonempty list is the digest of the one string at the top. -/
theorem txMerkleRoot_eq_top (blake3 : Bytes → Hash) {l : List Bytes} (hl : l ≠ []) :
    ∃ x, treeLevel blake3 (height l) l = [x] ∧ txMerkleRoot blake3 l = blake3 x := by
  have htop := Merkle.level_length_of_le blake3 nodeBytes hl
  obtain ⟨x, hx⟩ := List.length_eq_one_iff.mp htop
  refine ⟨x, hx, ?_⟩
  have he : l.isEmpty = false := by simpa using hl
  rw [txMerkleRoot, he, merkleLoop_eq l.length l hl (height_le_length l), treeLevel, hx]
  rfl

private theorem top_mem_hashed {l : List Bytes} {x : Bytes}
    (hx : treeLevel blake3 (height l) l = [x]) : x ∈ HashedStrings blake3 l :=
  ⟨height l, le_rfl, by simp [hx]⟩

/-- Two lists have one root exactly when the padded tree does not tell them apart. -/
theorem txMerkleRoot_eq_iff {l l' : List Bytes}
    (h : CollisionFree blake3 (HashedStrings blake3 l ∪ HashedStrings blake3 l')) :
    txMerkleRoot blake3 l = txMerkleRoot blake3 l' ↔ Indistinct blake3 l l' := by
  by_cases hl : l = []
  · by_cases hl' : l' = []
    · subst hl hl'
      simp [Indistinct]
    · obtain ⟨x, hx, hroot⟩ := txMerkleRoot_eq_top blake3 hl'
      have hne := h.ne_zero x (Or.inr (top_mem_hashed hx))
      subst hl
      have h0 : txMerkleRoot blake3 [] = 0 := rfl
      rw [hroot, h0]
      exact iff_of_false (Ne.symm hne) (by simp [Indistinct, hl'])
  · obtain ⟨x, hx, hroot⟩ := txMerkleRoot_eq_top blake3 hl
    by_cases hl' : l' = []
    · have hne := h.ne_zero x (Or.inl (top_mem_hashed hx))
      subst hl'
      have h0 : txMerkleRoot blake3 [] = 0 := rfl
      rw [hroot, h0]
      exact iff_of_false hne (by simp [Indistinct, hl])
    · obtain ⟨y, hy, hroot'⟩ := txMerkleRoot_eq_top blake3 hl'
      have htop : treeLevel blake3 (height l) l = treeLevel blake3 (height l') l' ↔
          Merkle.SameTree blake3 nodeBytes l l' := Merkle.top_eq_iff nodeBytes_inj h.inj
      rw [hx, hy] at htop
      have hxy : blake3 x = blake3 y ↔ x = y :=
        h.inj.eq_iff (Or.inl (top_mem_hashed hx)) (Or.inr (top_mem_hashed hy))
      rw [hroot, hroot', hxy]
      simpa [Indistinct, hl, hl'] using htop

/-- Lists of one length are told apart. -/
theorem Indistinct.eq_of_length_eq {l l' : List Bytes} (h : Indistinct blake3 l l')
    (hlen : l.length = l'.length) : l = l' := by
  rcases h with ⟨rfl, rfl⟩ | ⟨_, _, h⟩
  · rfl
  · exact h.eq_of_length_eq hlen

end TaoDag.Consensus
