import TaoDag.Core.Machine
import TaoDag.Framework.Codec

namespace TaoDag.Database

/-- SMT nodes by node id; an absent node is the root of an empty subtree. -/
abbrev NodeStore := AList (fun _ : Bytes => Hash)

namespace Smt

/-- Tree height: the bit length of a key. -/
def height : Nat := 256

variable (blake3 : Bytes → Hash)

/-- An inner node, domain-separated from the leaves. -/
def hash2 (l r : Hash) : Hash := blake3 (1 :: (Codec.bytes32.encode l ++ Codec.bytes32.encode r))

/-- A leaf binds the key to its value hash. -/
def leafHash (key valueHash : Hash) : Hash :=
  blake3 (0 :: (Codec.bytes32.encode key ++ Codec.bytes32.encode valueHash))

/-- The leaf of an absent key. -/
def emptyLeaf : Hash := 0

/-- Root of an empty subtree of the given height. -/
def emptyRoot : Nat → Hash
  | 0 => emptyLeaf
  | n+1 => hash2 blake3 (emptyRoot n) (emptyRoot n)

/-- `defaults()[depth]`. -/
def defaults (depth : Nat) : Hash := emptyRoot blake3 (height - depth)

/-- Bit `depth` of `key`, most significant first. -/
def bit (key : Hash) (depth : Nat) : Bool := key.getMsbD depth

/-- `key[i]`. -/
def keyByte (key : Hash) (i : Nat) : UInt8 := (Codec.bytes32.encode key).getD i 0

/-- The node at `depth` on the path of `key`: the depth, then the key's first `depth` bits,
the rest of the last byte masked to zero. -/
def nodeId (key : Hash) (depth : Nat) : Bytes :=
  let nbytes := (depth + 7) / 8
  beBytes 2 depth ++ (List.range nbytes).map fun i =>
    let b := keyByte key i
    let used := depth - i * 8
    if i = nbytes - 1 ∧ used < 8 then b &&& ~~~((1 <<< UInt8.ofNat (8 - used)) - 1) else b

def flipBit (key : Hash) (depth : Nat) : Hash := key ^^^ BitVec.twoPow 256 (255 - depth)

/-- Stores a node, unless it is the default of its depth. -/
def putNode (store : NodeStore) (id : Bytes) (hash : Hash) (depth : Nat) : NodeStore :=
  if hash = defaults blake3 depth then store.erase id else store.insert id hash

/-- The loop of `update_leaf`: rehash the path of `key` from `depth` up to the root. -/
def updatePath (key : Hash) : Nat → Hash → NodeStore → NodeStore
  | 0, _, store => store
  | depth+1, cur, store =>
      let sib := (store.lookup (nodeId (flipBit key depth) (depth + 1))).getD
        (defaults blake3 (depth + 1))
      let parent := if bit key depth then hash2 blake3 sib cur else hash2 blake3 cur sib
      updatePath key depth parent (putNode blake3 store (nodeId key depth) parent depth)

/-- Sets the leaf of `key`; `emptyLeaf` removes it. -/
def updateLeaf (store : NodeStore) (key leaf : Hash) : NodeStore :=
  updatePath blake3 key height leaf (putNode blake3 store (nodeId key height) leaf height)

def storedRoot (store : NodeStore) : Hash :=
  (store.lookup (nodeId 0 0)).getD (defaults blake3 0)

end Smt

end TaoDag.Database
