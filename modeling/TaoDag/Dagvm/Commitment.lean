import TaoDag.Consensus.TxMerkle
import TaoDag.Dagvm.Run
import TaoDag.Dagvm.Accept
import TaoDag.Runtime.Transfer

namespace TaoDag.Dagvm

open Consensus (DagBlock DagBlockHeader txMerkleRoot HashedStrings CollisionFree Indistinct)
open Database (AppendFault)
open TaoDag.Runtime (Env transferEnv)

variable {Tx : Type} {env : Env Tx}

namespace DagChain

theorem validateBlockIntrinsic_root {now : Int} {block : DagBlock}
    (h : validateBlockIntrinsic env now block = .ok ()) :
    txMerkleRoot env.blake3 block.transactions = block.header.txMerkleRoot := by
  by_contra hne
  simp only [validateBlockIntrinsic, ne_eq, hne, not_false_eq_true, if_true] at h
  repeat' split at h
  all_goals cases h

/-- A block that `accept` takes in, not knowing it yet, passes the checks. -/
theorem passes_of_accept {io : Option AppendFault} {now : Int} {c c' : DagChain Tx}
    {block : DagBlock} (hid : block.id env.blake3 ∉ c.blocks)
    (h : c.accept env io now block = .ok (.ok (), c')) : Passes env now c block := by
  rw [accept, if_neg hid] at h
  cases hv : validateBlockIntrinsic env now block with
  | error e =>
    rw [hv] at h
    cases h
  | ok u =>
    rw [hv] at h
    obtain ⟨v, hc, h⟩ := bind_eq_ok.mp h
    cases v with
    | error e => cases h
    | ok u => exact ⟨hid, hv, hc⟩

end DagChain

/-- One block, as a node that did not know it takes it in. -/
structure Acceptance (env : Env Tx) (block : DagBlock) where
  io : Option AppendFault
  now : Int
  before : DagChain Tx
  after : DagChain Tx
  unknown : block.id env.blake3 ∉ before.blocks
  accepts : before.accept env io now block = .ok (.ok (), after)

/-- What the block id leaves open: the root determines the transactions exactly when the padded
tree tells the two lists apart, as it does two lists of one length. The same holds of the bodies
that two nodes accept under one id. -/
theorem tx_merkle_root_determines_iff (env : Env Tx) (l l' : List Bytes)
    (hfree : CollisionFree env.blake3
      (HashedStrings env.blake3 l ∪ HashedStrings env.blake3 l')) :
    ((txMerkleRoot env.blake3 l = txMerkleRoot env.blake3 l' → l = l') ↔
      (Indistinct env.blake3 l l' → l = l')) ∧
    (l.length = l'.length → Indistinct env.blake3 l l' → l = l') ∧
    ∀ b b' : DagBlock, b.transactions = l → b'.transactions = l' → b.Fits → b'.Fits →
      Set.InjOn env.blake3 {b.header.serialize, b'.header.serialize} →
      b.id env.blake3 = b'.id env.blake3 → Acceptance env b → Acceptance env b' →
      (b.transactions = b'.transactions ↔ (Indistinct env.blake3 l l' → l = l')) := by
  have hroot := Consensus.txMerkleRoot_eq_iff hfree
  refine ⟨by rw [hroot], fun hlen h => h.eq_of_length_eq hlen, ?_⟩
  intro b b' hl hl' hfits hfits' hinj hid node node'
  have hser : b.header.serialize = b'.header.serialize :=
    hinj (by simp) (by simp) hid
  have hheader : b.header = b'.header :=
    DagBlockHeader.serialize_inj hfits.header hfits'.header hser
  have hb := DagChain.validateBlockIntrinsic_root
    (DagChain.passes_of_accept node.unknown node.accepts).intrinsic
  have hb' := DagChain.validateBlockIntrinsic_root
    (DagChain.passes_of_accept node'.unknown node'.accepts).intrinsic
  have hsame : txMerkleRoot env.blake3 l = txMerkleRoot env.blake3 l' := by
    rw [← hl, ← hl', hb, hb', hheader]
  have hind : Indistinct env.blake3 l l' := hroot.mp hsame
  rw [hl, hl']
  exact ⟨fun h _ => h, fun h => h hind⟩

/-- The encoding of a transaction without signatures, accounts or instructions. -/
def bareTransaction (blockhash : Bytes32) : Bytes :=
  Runtime.Transaction.codec.encode ⟨[], 0, 0, 0, [], blockhash, []⟩

def threeTransactions : List Bytes := [1, 2, 3].map bareTransaction

/-- The same three, with the repetition that pads their tree written out. -/
def fourTransactions : List Bytes := threeTransactions ++ [bareTransaction 3]

private theorem three_four_collisionFree :
    CollisionFree Blake3.hash
      (HashedStrings Blake3.hash threeTransactions ∪ HashedStrings Blake3.hash fourTransactions) := by
  let strings := Merkle.hashedList Blake3.hash Consensus.nodeBytes 2 threeTransactions ++
    Merkle.hashedList Blake3.hash Consensus.nodeBytes 2 fourTransactions
  have hheight : Merkle.height threeTransactions = 2 ∧ Merkle.height fourTransactions = 2 := by
    decide +kernel
  have hmem : ∀ x ∈ HashedStrings Blake3.hash threeTransactions ∪
      HashedStrings Blake3.hash fourTransactions, x ∈ strings := by
    rintro x (hx | hx)
    · rw [Merkle.mem_hashed_iff, hheight.1] at hx
      exact List.mem_append_left _ hx
    · rw [Merkle.mem_hashed_iff, hheight.2] at hx
      exact List.mem_append_right _ hx
  have hinj : ∀ x ∈ strings, ∀ y ∈ strings, Blake3.hash x = Blake3.hash y → x = y := by
    decide +kernel
  have hzero : ∀ x ∈ strings, Blake3.hash x ≠ 0 := by decide +kernel
  exact ⟨fun x hx y hy => hinj x (hmem x hx) y (hmem y hy), fun x hx => hzero x (hmem x hx)⟩

theorem tx_merkle_root_determines_three_four :
    ((txMerkleRoot Blake3.hash threeTransactions = txMerkleRoot Blake3.hash fourTransactions →
        threeTransactions = fourTransactions) ↔
      (Indistinct Blake3.hash threeTransactions fourTransactions →
        threeTransactions = fourTransactions)) :=
  (tx_merkle_root_determines_iff transferEnv _ _ three_four_collisionFree).1

/-- Two lists of one root, without a collision, and two blocks of one id that two nodes accept. -/
theorem tx_merkle_root_not_injective :
    CollisionFree Blake3.hash
      (HashedStrings Blake3.hash threeTransactions ∪ HashedStrings Blake3.hash fourTransactions) ∧
    txMerkleRoot Blake3.hash threeTransactions = txMerkleRoot Blake3.hash fourTransactions ∧
    threeTransactions ≠ fourTransactions ∧
    (easyChild threeTransactions).id Blake3.hash = (easyChild fourTransactions).id Blake3.hash ∧
    Nonempty (Acceptance transferEnv (easyChild threeTransactions)) ∧
    Nonempty (Acceptance transferEnv (easyChild fourTransactions)) := by
  have haccept : ∀ b ∈ [easyChild threeTransactions, easyChild fourTransactions],
      returnsWith (DagChain.openWithGenesis transferEnv easyParams []) (fun o =>
        returnsWith o fun c => decide (b.id Blake3.hash ∉ c.blocks) &&
          returnsWith (c.accept transferEnv none 1750000000 b) fun p =>
            returnsWith p.1 fun _ => true) = true := by
    decide +kernel
  have hnode : ∀ b ∈ [easyChild threeTransactions, easyChild fourTransactions],
      Nonempty (Acceptance transferEnv b) := by
    intro b hb
    obtain ⟨_, _, ho⟩ := returnsWith_iff.mp (haccept b hb)
    obtain ⟨c, rfl, hc⟩ := returnsWith_iff.mp ho
    obtain ⟨hid, hacc⟩ := (Bool.and_eq_true _ _).mp hc
    obtain ⟨⟨_, c'⟩, haccept, hr⟩ := returnsWith_iff.mp hacc
    obtain ⟨_, rfl, _⟩ := returnsWith_iff.mp hr
    exact ⟨⟨none, 1750000000, c, c', of_decide_eq_true hid, haccept⟩⟩
  refine ⟨three_four_collisionFree, by decide +kernel, by decide +kernel, by decide +kernel, ?_, ?_⟩
  · exact hnode _ (by simp)
  · exact hnode _ (by simp)

end TaoDag.Dagvm
