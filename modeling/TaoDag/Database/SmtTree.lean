import TaoDag.Database.Smt
import TaoDag.Framework.SparseTree

namespace TaoDag.Database.Smt

private theorem leBytes_getElem? (n x i : Nat) :
    (leBytes n x)[i]? = if i < n then some (UInt8.ofNat (x / 256^i)) else none := by
  induction n generalizing x i with
  | zero => simp [leBytes]
  | succ n ih =>
    cases i with
    | zero => simp [leBytes]
    | succ i =>
      rw [leBytes, List.getElem?_cons_succ, ih, Nat.div_div_eq_div_mul, ← pow_succ']
      simp

theorem keyByte_eq {i : Nat} (key : Hash) (h : i < 32) :
    keyByte key i = UInt8.ofNat (key.toNat / 256^(31 - i)) := by
  have hlen : i < (leBytes 32 key.toNat).length := by rw [leBytes_length]; exact h
  have hget : (beBytes 32 key.toNat)[i]? = some (UInt8.ofNat (key.toNat / 256^(31 - i))) := by
    have hi : 32 - 1 - i < 32 := by omega
    rw [beBytes, List.getElem?_reverse hlen, leBytes_length, leBytes_getElem?, if_pos hi]
  change (beBytes 32 key.toNat).getD i 0 = _
  rw [List.getD_eq_getElem?_getD, hget]
  rfl

/-- Bit `j` of byte `i` is bit `8i + j` of the key. -/
theorem keyByte_bit {i j : Nat} (key : Hash) (hi : i < 32) (hj : j < 8) :
    (keyByte key i).toBitVec.getMsbD j = bit key (i * 8 + j) := by
  have hij : i * 8 + j < 256 := by omega
  have h256 : (256 : Nat)^(31 - i) = 2^(8 * (31 - i)) := by
    rw [pow_mul]
    rfl
  have h8 : 8 - 1 - j < 8 := by omega
  have hidx : 8 - 1 - j + 8 * (31 - i) = 256 - 1 - (i * 8 + j) := by omega
  rw [keyByte_eq key hi, bit, BitVec.getMsbD, BitVec.getMsbD, BitVec.getLsbD, BitVec.getLsbD]
  simp only [UInt8.toBitVec_ofNat', BitVec.toNat_ofNat, Nat.testBit_mod_two_pow, h256,
    Nat.testBit_div_two_pow, hj, hij, h8, hidx, decide_true, Bool.true_and]

private theorem mask_bit : ∀ s : Fin 8, ∀ j : Fin 8,
    (~~~((1 <<< UInt8.ofNat s.val) - 1) : UInt8).toBitVec.getMsbD j =
      decide (j.val + s.val < 8) := by
  decide

/-- Byte `i` of a node id: the bits of the key above `depth`, and zeros. -/
def idByte (key : Hash) (depth i : Nat) : UInt8 :=
  let b := keyByte key i
  let used := depth - i * 8
  if i = (depth + 7) / 8 - 1 ∧ used < 8 then b &&& ~~~((1 <<< UInt8.ofNat (8 - used)) - 1) else b

theorem nodeId_eq (key : Hash) (depth : Nat) :
    nodeId key depth = beBytes 2 depth ++ (List.range ((depth + 7) / 8)).map (idByte key depth) :=
  rfl

theorem idByte_bit (key : Hash) {depth i j : Nat} (hd : depth ≤ 256) (hi : i * 8 < depth)
    (hj : j < 8) : (idByte key depth i).toBitVec.getMsbD j =
      (decide (i * 8 + j < depth) && bit key (i * 8 + j)) := by
  have hk := keyByte_bit key (i := i) (j := j) (by omega) hj
  rw [idByte]
  split_ifs with hlast
  · obtain ⟨_, hused⟩ := hlast
    have hs : 8 - (depth - i * 8) < 8 := by omega
    have hm := mask_bit ⟨8 - (depth - i * 8), hs⟩ ⟨j, hj⟩
    simp only at hm
    rw [UInt8.toBitVec_and, BitVec.getMsbD_and, hm, hk, Bool.and_comm]
    congr 1
    simp only [decide_eq_decide]
    omega
  · have hlt : i * 8 + j < depth := by
      by_contra hge
      exact hlast ⟨by omega, by omega⟩
    rw [hk, decide_eq_true hlt, Bool.true_and]

/-- A node id is the depth and the first `depth` bits of the key. -/
theorem nodeId_eq_iff {a b : Hash} {d e : Nat} (hd : d ≤ 256) (he : e ≤ 256) :
    nodeId a d = nodeId b e ↔ d = e ∧ ∀ i < d, bit a i = bit b i := by
  rw [nodeId_eq, nodeId_eq]
  constructor
  · intro h
    obtain ⟨hdepth, hbytes⟩ := List.append_inj h (by simp)
    have hde : d = e := by
      have hn := congrArg ofBE hdepth
      rwa [ofBE_beBytes_of_lt (by omega), ofBE_beBytes_of_lt (by omega)] at hn
    subst hde
    refine ⟨rfl, fun i hi => ?_⟩
    have hidx : i / 8 < (d + 7) / 8 := by omega
    have hbyte : idByte a d (i / 8) = idByte b d (i / 8) :=
      List.map_inj_left.mp hbytes (i / 8) (List.mem_range.mpr hidx)
    have hsum : i / 8 * 8 + i % 8 = i := by omega
    have hmod : i % 8 < 8 := Nat.mod_lt i (by omega)
    have ha := idByte_bit a hd (show i / 8 * 8 < d by omega) hmod
    have hb := idByte_bit b hd (show i / 8 * 8 < d by omega) hmod
    rw [hsum, decide_eq_true hi, Bool.true_and] at ha hb
    rw [← ha, ← hb, hbyte]
  · rintro ⟨rfl, hbits⟩
    have hbytes : ∀ i ∈ List.range ((d + 7) / 8), idByte a d i = idByte b d i := by
      intro i hi
      have hlt : i * 8 < d := by
        have := List.mem_range.mp hi
        omega
      refine UInt8.toBitVec_inj.mp (BitVec.eq_of_getMsbD_eq fun j hj => ?_)
      rw [idByte_bit a hd hlt hj, idByte_bit b hd hlt hj]
      by_cases hij : i * 8 + j < d
      · rw [hbits _ hij]
      · simp [hij]
    rw [List.map_congr_left hbytes]

theorem bit_flipBit {key : Hash} {d i : Nat} (hd : d < 256) :
    bit (flipBit key d) i = (bit key i ^^ decide (i = d)) := by
  rw [bit, flipBit, BitVec.getMsbD_xor, BitVec.getMsbD_twoPow, bit]
  congr 1
  rw [Bool.eq_iff_iff]
  simp only [Bool.and_eq_true, decide_eq_true_eq]
  omega

private theorem shift_bit {b : UInt8} {j : Nat} (hj : j < 8) :
    (b >>> UInt8.ofNat (7 - j)) &&& 1 = if b.toBitVec.getMsbD j then 1 else 0 := by
  have h : ∀ (b : Fin 256) (j : Fin 8),
      (UInt8.ofNat b.val >>> UInt8.ofNat (7 - j.val)) &&& 1 =
        if (UInt8.ofNat b.val).toBitVec.getMsbD j.val then 1 else 0 := by
    decide +kernel
  have hb := h ⟨b.toNat, b.toNat_lt⟩ ⟨j, hj⟩
  simpa using hb

/-- The bit of a key as the source reads it from the byte that holds it. -/
theorem bit_eq_keyByte (key : Hash) {d : Nat} (hd : d < 256) :
    (keyByte key (d / 8) >>> UInt8.ofNat (7 - d % 8)) &&& 1 = if bit key d then 1 else 0 := by
  have hmod : d % 8 < 8 := Nat.mod_lt d (by omega)
  have hsum : d / 8 * 8 + d % 8 = d := by omega
  rw [shift_bit hmod, keyByte_bit key (by omega) hmod, hsum]

private theorem shift_one_bit : ∀ m j : Fin 8,
    ((1 <<< UInt8.ofNat (7 - m.val) : UInt8)).toBitVec.getMsbD j.val = decide (j.val = m.val) := by
  decide

/-- Flipping a bit changes the byte that holds it, and no other. -/
theorem keyByte_flipBit (key : Hash) {d i : Nat} (hd : d < 256) (hi : i < 32) :
    keyByte (flipBit key d) i =
      if i = d / 8 then keyByte key i ^^^ (1 <<< UInt8.ofNat (7 - d % 8)) else keyByte key i := by
  refine UInt8.toBitVec_inj.mp (BitVec.eq_of_getMsbD_eq fun j hj => ?_)
  rw [keyByte_bit _ hi hj, bit_flipBit hd]
  split_ifs with hbyte
  · have hone := shift_one_bit ⟨d % 8, Nat.mod_lt d (by omega)⟩ ⟨j, hj⟩
    simp only at hone
    rw [UInt8.toBitVec_xor, BitVec.getMsbD_xor, keyByte_bit key hi hj, hone]
    congr 1
    rw [decide_eq_decide]
    omega
  · rw [keyByte_bit key hi hj, decide_eq_false (by omega), Bool.xor_false]

/-- The nodes at depth `d` on the paths of `a` and `b` are the two children of one node. -/
def Siblings (a b : Hash) (d : Nat) : Prop :=
  nodeId a (d - 1) = nodeId b (d - 1) ∧ nodeId a d ≠ nodeId b d

theorem siblings_iff {a b : Hash} {d : Nat} (hd : d < 256) :
    Siblings a b (d + 1) ↔ (∀ i < d, bit a i = bit b i) ∧ bit b d = !bit a d := by
  rw [Siblings, Nat.add_sub_cancel, Ne, nodeId_eq_iff (by omega) (by omega),
    nodeId_eq_iff (by omega) (by omega)]
  simp only [true_and, Nat.forall_lt_succ_right, Bool.eq_not]
  constructor
  · rintro ⟨hbelow, hne⟩
    exact ⟨hbelow, fun h => hne ⟨hbelow, h.symm⟩⟩
  · rintro ⟨hbelow, hne⟩
    exact ⟨hbelow, fun h => hne h.2.symm⟩

/-- A node id says the depth and the first bits of a key and nothing else, and the key with the
last of these bits flipped, all others as they were, leads to the sibling. -/
theorem nodeId_faithful {a b : Hash} {d e : Nat} (hd : d ≤ 256) (he : e ≤ 256) :
    (nodeId a d = nodeId b e ↔ d = e ∧ ∀ i < d, bit a i = bit b i) ∧
      (1 ≤ d → (∀ i < 256, bit (flipBit a (d - 1)) i = if i = d - 1 then !bit a i else bit a i) ∧
        (Siblings a b d ↔ nodeId b d = nodeId (flipBit a (d - 1)) d)) := by
  refine ⟨nodeId_eq_iff hd he, fun hpos => ⟨fun i _ => ?_, ?_⟩⟩
  · rw [bit_flipBit (by omega)]
    split_ifs with hi
    · rw [decide_eq_true hi, Bool.xor_true]
    · rw [decide_eq_false hi, Bool.xor_false]
  · obtain ⟨d, rfl⟩ : ∃ n, d = n + 1 := ⟨d - 1, by omega⟩
    have hlt : d < 256 := hd
    rw [siblings_iff hlt, nodeId_eq_iff hd hd, Nat.add_sub_cancel]
    simp only [true_and, Nat.forall_lt_succ_right, bit_flipBit hlt]
    constructor
    · rintro ⟨hbelow, hlast⟩
      refine ⟨fun i hi => ?_, ?_⟩
      · rw [decide_eq_false (by omega), Bool.xor_false, hbelow i hi]
      · simp [hlast]
    · rintro ⟨hbelow, hlast⟩
      refine ⟨fun i hi => ?_, ?_⟩
      · have := hbelow i hi
        rw [decide_eq_false (by omega), Bool.xor_false] at this
        exact this.symm
      · simpa using hlast

/-- The keys `0` and `1` share the node at depth 3, and their leaves are siblings. -/
theorem nodeId_faithful_keys : nodeId 0 3 = nodeId 1 3 ∧ Siblings 0 1 256 := by
  have hflip : nodeId 1 256 = nodeId (flipBit 0 (256 - 1)) 256 := by
    have hone : flipBit 0 (256 - 1) = 1 := by decide
    rw [hone]
  exact ⟨(nodeId_faithful (by decide) (by decide)).1.mpr ⟨rfl, by decide⟩,
    ((nodeId_faithful le_rfl le_rfl).2 (by decide)).2.mpr hflip⟩

/-- The path of a key from the root, by its bits. -/
def path (key : Hash) : List Bool := (List.range height).map (bit key)

@[simp] theorem path_length (key : Hash) : (path key).length = 256 := by simp [path, height]

theorem take_path {key : Hash} {d : Nat} (hd : d ≤ 256) :
    (path key).take d = (List.range d).map (bit key) := by
  rw [path, height, ← List.map_take, List.take_range, Nat.min_eq_left hd]

theorem take_path_eq_iff {a b : Hash} {d : Nat} (hd : d ≤ 256) :
    (path a).take d = (path b).take d ↔ ∀ i < d, bit a i = bit b i := by
  rw [take_path hd, take_path hd, List.map_inj_left]
  simp only [List.mem_range]

theorem path_injective : Function.Injective path := by
  intro a b h
  have htake : (path a).take 256 = (path b).take 256 := by rw [h]
  exact BitVec.eq_of_getMsbD_eq ((take_path_eq_iff le_rfl).mp htake)

theorem take_path_succ {key : Hash} {d : Nat} (hd : d < 256) :
    (path key).take (d + 1) = (path key).take d ++ [bit key d] := by
  rw [take_path (by omega), take_path (by omega), List.range_succ, List.map_append]
  rfl

theorem take_path_flipBit {key : Hash} {d : Nat} (hd : d < 256) :
    (path (flipBit key d)).take (d + 1) = (path key).take d ++ [!bit key d] := by
  have hbelow : (path (flipBit key d)).take d = (path key).take d := by
    refine (take_path_eq_iff (by omega)).mpr fun i hi => ?_
    rw [bit_flipBit hd, decide_eq_false (by omega), Bool.xor_false]
  rw [take_path_succ hd, hbelow, bit_flipBit hd]
  simp

section Represents

open SparseTree (subtree root)

variable (blake3 : Bytes → Hash)

/-- What a store holds for the node at `depth` on the path of `key`. -/
def nodeAt (store : NodeStore) (key : Hash) (depth : Nat) : Hash :=
  (store.lookup (nodeId key depth)).getD (defaults blake3 depth)

/-- The store holds the nodes of the tree with leaves `f` from depth `d` down, and of the one
with leaves `g` above. -/
def Agrees (store : NodeStore) (f g : List Bool → Hash) (d : Nat) : Prop :=
  ∀ key e, e ≤ 256 → nodeAt blake3 store key e =
    subtree (hash2 blake3) 256 (if d ≤ e then f else g) ((path key).take e)

/-- The store holds every node of the tree with leaves `f`. -/
def Represents (store : NodeStore) (f : List Bool → Hash) : Prop :=
  ∀ key d, d ≤ 256 →
    nodeAt blake3 store key d = subtree (hash2 blake3) 256 f ((path key).take d)

variable {blake3}

theorem emptyRoot_eq (n : Nat) :
    emptyRoot blake3 n = SparseTree.emptyRoot (hash2 blake3) emptyLeaf n := by
  induction n with
  | zero => rfl
  | succ n ih => rw [emptyRoot, SparseTree.emptyRoot, ih]

theorem nodeAt_putNode {store : NodeStore} {key key' hash : Hash} {d e : Nat} (hd : d ≤ 256)
    (he : e ≤ 256) : nodeAt blake3 (putNode blake3 store (nodeId key d) hash d) key' e =
      if e = d ∧ (path key').take e = (path key).take d then hash
      else nodeAt blake3 store key' e := by
  have hid := nodeId_eq_iff (a := key') (b := key) he hd
  by_cases hsame : nodeId key' e = nodeId key d
  · obtain ⟨rfl, hbits⟩ := hid.mp hsame
    rw [if_pos ⟨rfl, (take_path_eq_iff he).mpr hbits⟩, nodeAt, putNode, hsame]
    split_ifs with hdef
    · rw [AList.lookup_erase, hdef]
      rfl
    · rw [AList.lookup_insert]
      rfl
  · have hne : ¬(e = d ∧ (path key').take e = (path key).take d) := by
      rintro ⟨rfl, hp⟩
      exact hsame (hid.mpr ⟨rfl, (take_path_eq_iff he).mp hp⟩)
    rw [if_neg hne, nodeAt, nodeAt, putNode]
    split_ifs with hdef
    · rw [AList.lookup_erase_ne hsame]
    · rw [AList.lookup_insert_ne hsame]

/-- Writing the node of the changed path at depth `d` moves the boundary up to `d`. -/
theorem Agrees.putNode {store : NodeStore} {f : List Bool → Hash} {key v hash : Hash} {d : Nat}
    (hd : d ≤ 256)
    (h : Agrees blake3 store (Function.update f (path key) v) f (d + 1))
    (hhash : hash = subtree (hash2 blake3) 256 (Function.update f (path key) v)
      ((path key).take d)) :
    Agrees blake3 (putNode blake3 store (nodeId key d) hash d)
      (Function.update f (path key) v) f d := by
  intro key' e he
  rw [nodeAt_putNode hd he]
  split_ifs with hon hle hle
  · rw [hhash, hon.2]
  · omega
  · rw [h key' e he]
    by_cases hed : e = d
    · subst hed
      have hoff : ¬(path key').take e <+: path key := by
        intro hp
        have hlen : ((path key').take e).length = e := by simp [he]
        rw [List.prefix_iff_eq_take, hlen] at hp
        exact hon ⟨rfl, hp⟩
      rw [if_neg (by omega), SparseTree.subtree_update_of_not_prefix v hoff]
    · rw [if_pos (by omega)]
  · rw [h key' e he, if_neg (by omega)]

/-- The loop of `update_leaf` rehashes the path: from the depth it has reached, the store has
the new tree below and the old one above. -/
theorem updatePath_represents {f : List Bool → Hash} {key v cur : Hash} {depth : Nat}
    {store : NodeStore} (hd : depth ≤ 256)
    (hcur : cur = subtree (hash2 blake3) 256 (Function.update f (path key) v)
      ((path key).take depth))
    (h : Agrees blake3 store (Function.update f (path key) v) f depth) :
    Represents blake3 (updatePath blake3 key depth cur store) (Function.update f (path key) v) := by
  induction depth generalizing cur store with
  | zero =>
    intro key' e he
    rw [updatePath, h key' e he, if_pos (Nat.zero_le e)]
  | succ depth ih =>
    have hlt : depth < 256 := hd
    have hlen : ((path key).take depth).length < 256 := by simpa using hlt
    have hsib := h (flipBit key depth) (depth + 1) hd
    rw [if_pos le_rfl, take_path_flipBit hlt] at hsib
    rw [take_path_succ hlt] at hcur
    have hnode : subtree (hash2 blake3) 256 (Function.update f (path key) v) _ = _ :=
      SparseTree.subtree_node _ hlen
    have hparent : (if bit key depth then
        hash2 blake3 (nodeAt blake3 store (flipBit key depth) (depth + 1)) cur
        else hash2 blake3 cur (nodeAt blake3 store (flipBit key depth) (depth + 1))) =
        subtree (hash2 blake3) 256 (Function.update f (path key) v) ((path key).take depth) := by
      rw [hnode, hcur, hsib]
      cases bit key depth <;> rfl
    exact ih (by omega) hparent (h.putNode (by omega) hparent)

/-- `update_leaf` changes one leaf of the tree. -/
theorem Represents.updateLeaf {store : NodeStore} {f : List Bool → Hash}
    (h : Represents blake3 store f) (key leaf : Hash) :
    Represents blake3 (updateLeaf blake3 store key leaf) (Function.update f (path key) leaf) := by
  have hleaf : leaf = subtree (hash2 blake3) 256 (Function.update f (path key) leaf)
      ((path key).take 256) := by
    have hall : (path key).take 256 = path key := List.take_of_length_le (by simp)
    rw [hall, SparseTree.subtree_leaf _ (path_length key), Function.update_self]
  refine updatePath_represents le_rfl hleaf (Agrees.putNode le_rfl ?_ hleaf)
  intro key' e he
  have hno : ¬256 + 1 ≤ e := by omega
  rw [h key' e he, height, if_neg hno]

theorem represents_empty : Represents blake3 ∅ fun _ => emptyLeaf := by
  intro key d hd
  have hlen : ((path key).take d).length = d := by simpa using hd
  rw [nodeAt, AList.lookup_empty, Option.getD_none, defaults, subtree, SparseTree.root_const, hlen,
    emptyRoot_eq]
  rfl

theorem Represents.storedRoot {store : NodeStore} {f : List Bool → Hash}
    (h : Represents blake3 store f) : storedRoot blake3 store = root (hash2 blake3) 256 f :=
  h 0 0 (Nat.zero_le 256)

end Represents

end TaoDag.Database.Smt
