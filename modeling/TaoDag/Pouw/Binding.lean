import TaoDag.Pouw.UtilityGate

namespace TaoDag.Pouw

open Consensus (Target meetsTarget)
open PairTree (joined level pairs walk walked)

variable {blake3 : Bytes → Hash} {hash : Hashing}

theorem nextPow2From_spec {n fuel e : Nat} (h : n ≤ 2^e + fuel) :
    ∃ d, nextPow2From n fuel (2^e) = 2^d ∧ n ≤ 2^d := by
  induction fuel generalizing e with
  | zero => exact ⟨e, rfl, by omega⟩
  | succ fuel ih =>
    rw [nextPow2From]
    by_cases hlt : 2^e < n
    · rw [if_pos hlt, ← Nat.pow_succ]
      have hpos : 0 < 2^e := Nat.two_pow_pos e
      exact ih (by rw [Nat.pow_succ]; omega)
    · rw [if_neg hlt]
      exact ⟨e, rfl, by omega⟩

theorem nextPow2_spec (n : Nat) : ∃ d, nextPow2 n = 2^d ∧ n ≤ 2^d :=
  nextPow2From_spec (e := 0) (by omega)

/-- The padded leaves fill the lowest level of a tree. -/
theorem paddedLeaves_length (leaves : List Hash) :
    ∃ d, (paddedLeaves blake3 leaves).length = 2^d := by
  obtain ⟨d, hd, hle⟩ := nextPow2_spec (max leaves.length 1)
  refine ⟨d, ?_⟩
  rw [paddedLeaves, List.length_append, List.length_replicate, hd]
  omega

theorem hashChunks_eq (l : List Hash) (h : l.length % 2 = 0) :
    hashChunks blake3 l = .ok (pairs (nodeHash blake3) l) := by
  fun_induction pairs (nodeHash blake3) l with
  | case1 a b rest ih =>
    simp only [List.length_cons] at h
    rw [hashChunks, ih (by omega)]
    rfl
  | case2 l hl =>
    cases l with
    | nil => rfl
    | cons a l =>
      cases l with
      | nil => simp at h
      | cons b rest => exact absurd rfl (hl a b rest)

/-- The root is the one value at the top. -/
theorem merkleRootLoop_eq {d fuel : Nat} {l : List Hash} (hl : l.length = 2^d) (hfuel : d < fuel) :
    ∃ top, merkleRootLoop blake3 fuel l = .ok top ∧ level (nodeHash blake3) d l = [top] := by
  induction d generalizing l fuel with
  | zero =>
    obtain ⟨fuel, rfl⟩ : ∃ f, fuel = f + 1 := ⟨fuel - 1, by omega⟩
    obtain ⟨top, rfl⟩ := List.length_eq_one_iff.mp hl
    exact ⟨top, rfl, rfl⟩
  | succ d ih =>
    obtain ⟨fuel, rfl⟩ : ∃ f, fuel = f + 1 := ⟨fuel - 1, by omega⟩
    have hpos : 0 < 2^d := Nat.two_pow_pos d
    rw [Nat.pow_succ] at hl
    have hlen : (pairs (nodeHash blake3) l).length = 2^d := by
      rw [PairTree.pairs_length, hl, Nat.mul_div_cancel _ Nat.two_pos]
    obtain ⟨top, hrun, htop⟩ := ih hlen (Nat.lt_of_succ_lt_succ hfuel)
    refine ⟨top, ?_, htop⟩
    rw [merkleRootLoop, if_pos (by omega), hashChunks_eq l (by omega)]
    exact hrun

theorem merkleRoot_eq {d : Nat} {l : List Hash} (hl : l.length = 2^d) :
    ∃ top, merkleRoot blake3 l = .ok top ∧ level (nodeHash blake3) d l = [top] :=
  merkleRootLoop_eq hl (by rw [hl]; exact Nat.lt_succ_of_lt Nat.lt_two_pow_self)

theorem entryBytes_cons_ne_nil (x : I64) (v : List I64) : entryBytes (x :: v) ≠ [] := by
  intro h
  have hlen : (Codec.u64.encode x).length = 8 := leBytes_length 8 _
  rw [(List.append_eq_nil_iff.mp h).1] at hlen
  cases hlen

theorem entryBytes_inj {v w : List I64} (h : entryBytes v = entryBytes w) : v = w := by
  induction v generalizing w with
  | nil =>
    cases w with
    | nil => rfl
    | cons y w => exact absurd h.symm (entryBytes_cons_ne_nil y w)
  | cons x v ih =>
    cases w with
    | nil => exact absurd h (entryBytes_cons_ne_nil x v)
    | cons y w =>
      rw [entryBytes, entryBytes, List.flatMap_cons, List.flatMap_cons] at h
      obtain ⟨hxy, hvw⟩ := Codec.encode_append_inj Codec.u64 trivial trivial h
      rw [hxy, ih hvw]

theorem tileBytes_inj {v w : List I64} (h : tileBytes v = tileBytes w) : v = w :=
  entryBytes_inj (List.append_cancel_left h)

/-- The byte string of the padding is no tile's. -/
theorem tileBytes_ne_emptyTile (v : List I64) : tileBytes v ≠ emptyTile := by
  intro h
  have hfifth : (tileBytes v)[4]? = some 116 := by
    rw [tileBytes, List.getElem?_append_left (by decide +kernel)]
    decide +kernel
  rw [h] at hfifth
  revert hfifth
  decide +kernel

theorem nodeBytes_inj {a b c d : Hash} (h : nodeBytes a b = nodeBytes c d) : (a, b) = (c, d) := by
  obtain ⟨hac, hbd⟩ := Codec.encode_append_inj Codec.bytes32 trivial trivial h
  rw [hac, Codec.encode_inj Codec.bytes32 trivial trivial hbd]

/-- A registration: the name of a model, its dimension and its weight tiles. -/
structure Registration where
  name : String
  n : Nat
  tiles : List (List I64)

namespace Registration

/-- The leaves that the weight root is over. -/
def leaves (blake3 : Bytes → Hash) (reg : Registration) : List Hash :=
  paddedLeaves blake3 (reg.tiles.map (tileLeaf blake3))

def record (blake3 : Bytes → Hash) (reg : Registration) : Result (ModelId × RegisteredModel) :=
  ModelRegistry.record blake3 reg.name reg.n reg.tiles

/-- Every tile is a vector in memory. -/
def Fits (reg : Registration) : Prop := ∀ tile ∈ reg.tiles, 8 * tile.length ≤ maxCapacity

/-- The model that a registration leaves in the registry. -/
structure Records (blake3 : Bytes → Hash) (reg : Registration) (model : RegisteredModel) :
    Prop where
  ne_nil : reg.tiles ≠ []
  square : ∀ tile ∈ reg.tiles, tile.length = model.n * model.n
  n : model.n = reg.n
  numTiles : model.numTiles = reg.tiles.length
  paddedLeaves : model.paddedLeaves = reg.leaves blake3
  root : ∃ d, (reg.leaves blake3).length = 2^d ∧
    level (nodeHash blake3) d (reg.leaves blake3) = [model.weightRoot]

variable {reg : Registration} {model : RegisteredModel} {id : ModelId}

theorem records (h : reg.record blake3 = .ok (id, model)) : reg.Records blake3 model := by
  obtain ⟨_, hassert, h⟩ := bind_eq_ok.mp h
  have hsquare := (assert_spec (C := False) nofun).post hassert
  obtain ⟨weightRoot, hroot, h⟩ := bind_eq_ok.mp h
  cases h
  obtain ⟨d, hd⟩ := @paddedLeaves_length blake3 (reg.tiles.map (tileLeaf blake3))
  obtain ⟨top, htop, hlevel⟩ := @merkleRoot_eq blake3 _ _ hd
  cases htop.symm.trans hroot
  exact
    { ne_nil := hsquare.1
      square := hsquare.2
      n := rfl
      numTiles := rfl
      paddedLeaves := rfl
      root := ⟨d, hd, hlevel⟩ }

/-- A leaf below the padding is of the tile at its place. -/
theorem leaf_eq {i : Nat} {x : Hash} (h : (reg.leaves blake3)[i]? = some x) :
    (∃ tile, reg.tiles[i]? = some tile ∧ x = tileLeaf blake3 tile) ∨ x = blake3 emptyTile := by
  rw [leaves, paddedLeaves, List.getElem?_append] at h
  split at h
  · rw [List.getElem?_map, Option.map_eq_some_iff] at h
    obtain ⟨tile, htile, rfl⟩ := h
    exact Or.inl ⟨tile, htile, rfl⟩
  · exact Or.inr (List.eq_of_mem_replicate (List.mem_of_getElem? h))

end Registration

/-- Makes the registrations one after the other. -/
def registerAll (blake3 : Bytes → Hash) (regs : List Registration) : Result ModelRegistry :=
  regs.foldlM (fun registry reg =>
    (registry.register blake3 reg.name reg.n reg.tiles).map (·.2)) ModelRegistry.new

/-- What the registry holds, a registration has put there. -/
theorem registered {regs : List Registration} {registry : ModelRegistry}
    (h : registerAll blake3 regs = .ok registry) {id : ModelId} {model : RegisteredModel}
    (hget : registry.get id = some model) :
    ∃ reg ∈ regs, reg.record blake3 = .ok (id, model) := by
  refine (Returns.foldlM (C := False) (l := regs)
    (I := fun done registry => ∀ id model, registry.get id = some model →
      ∃ reg ∈ done, reg.record blake3 = .ok (id, model)) (by simp [ModelRegistry.new,
        ModelRegistry.get]) ?_).post h id model hget
  intro done reg _ registry _ hdone
  refine ⟨fun registry' hrun id model hget => ?_, nofun⟩
  obtain ⟨⟨id', registry''⟩, hregister, rfl⟩ := map_eq_ok.mp hrun
  obtain ⟨⟨id'', record⟩, hrecord, hregister⟩ := bind_eq_ok.mp hregister
  cases hregister
  by_cases hid : id = id'
  · subst hid
    rw [ModelRegistry.get, AList.lookup_insert] at hget
    cases hget
    exact ⟨reg, by simp, hrecord⟩
  · rw [ModelRegistry.get, AList.lookup_insert_ne hid] at hget
    obtain ⟨reg', hreg', hrecord'⟩ := hdone id model hget
    exact ⟨reg', by simp [hreg'], hrecord'⟩

section Collisions

variable (blake3) (reg : Registration) (sol : BoundSolution)

/-- The strings hashed as leaves: the padding, the registered tiles and the tile of the solution. -/
def leafStrings : List Bytes := emptyTile :: (sol.weightTile :: reg.tiles).map tileBytes

/-- The strings hashed as inner nodes, in the tree and on the way up from the solution's tile. -/
def nodeStrings : List Bytes :=
  (joined (nodeHash blake3) (reg.leaves blake3).length (reg.leaves blake3) ++
    walked (nodeHash blake3) sol.weightProof.index (tileLeaf blake3 sol.weightTile)
      sol.weightProof.siblings).map fun p => nodeBytes p.1 p.2

/-- The hash is injective on these strings, and no leaf has the hash of an inner node. -/
structure CollisionFree : Prop where
  inj : ∀ x ∈ leafStrings reg sol ++ nodeStrings blake3 reg sol,
    ∀ y ∈ leafStrings reg sol ++ nodeStrings blake3 reg sol, blake3 x = blake3 y → x = y
  disjoint : ∀ x ∈ leafStrings reg sol, ∀ y ∈ nodeStrings blake3 reg sol, blake3 x ≠ blake3 y

end Collisions

/-- A proof that verifies binds the tile to the one that is registered at its index, the bits above
the height of the tree ignored. -/
theorem verified_tile {reg : Registration} {model : RegisteredModel} {sol : BoundSolution}
    (hmodel : reg.Records blake3 model) (hfree : CollisionFree blake3 reg sol)
    (h : merkleVerify blake3 model.weightRoot (tileLeaf blake3 sol.weightTile) sol.weightProof) :
    ∃ d, model.numTiles ≤ 2^d ∧
      reg.tiles[sol.weightProof.index % 2^d]? = some sol.weightTile := by
  obtain ⟨d, hlen, htop⟩ := hmodel.root
  have hd : d < (reg.leaves blake3).length := by
    rw [hlen]
    exact Nat.lt_two_pow_self
  have hjoined : ∀ p ∈ joined (nodeHash blake3) d (reg.leaves blake3),
      nodeBytes p.1 p.2 ∈ nodeStrings blake3 reg sol := by
    intro p hp
    refine List.mem_map.mpr ⟨p, List.mem_append_left _ ?_, rfl⟩
    obtain ⟨n, hn, hp⟩ := List.mem_flatMap.mp hp
    exact PairTree.mem_joined (lt_trans (List.mem_range.mp hn) hd) hp
  have hwalked : ∀ p ∈ walked (nodeHash blake3) sol.weightProof.index
      (tileLeaf blake3 sol.weightTile) sol.weightProof.siblings,
      nodeBytes p.1 p.2 ∈ nodeStrings blake3 reg sol :=
    fun p hp => List.mem_map.mpr ⟨p, List.mem_append_right _ hp, rfl⟩
  have hsol : tileBytes sol.weightTile ∈ leafStrings reg sol := by simp [leafStrings]
  have hempty : emptyTile ∈ leafStrings reg sol := by simp [leafStrings]
  have hreg : ∀ {i : Nat} {tile : List I64}, reg.tiles[i]? = some tile → tileBytes tile ∈ leafStrings reg sol := by
    intro i tile htile
    simp only [leafStrings, List.mem_cons, List.mem_map]
    exact Or.inr ⟨tile, Or.inr (List.mem_of_getElem? htile), rfl⟩
  have hleaf := PairTree.walk_leaf (i := sol.weightProof.index) htop
    (fun p hp q hq heq => nodeBytes_inj
      (hfree.inj _ (by simp [hwalked p hp]) _ (by simp [hjoined q hq]) heq))
    (fun q hq => hfree.disjoint _ hsol _ (hjoined q hq))
    (fun y hy p hp => by
      obtain ⟨i, hi⟩ := List.getElem?_of_mem hy
      rcases Registration.leaf_eq hi with ⟨tile, htile, rfl⟩ | rfl
      · exact hfree.disjoint _ (hreg htile) _ (hwalked p hp)
      · exact hfree.disjoint _ hempty _ (hwalked p hp))
    (of_decide_eq_true h)
  refine ⟨d, ?_, ?_⟩
  · rw [hmodel.numTiles, ← hlen, Registration.leaves, paddedLeaves, List.length_append,
      List.length_map]
    omega
  · rcases Registration.leaf_eq hleaf with ⟨tile, htile, heq⟩ | heq
    · rw [htile, tileBytes_inj (hfree.inj _ (by simp [hsol]) _ (by simp [hreg htile]) heq)]
    · exact absurd (hfree.inj _ (by simp [hsol]) _ (by simp [hempty]) heq)
        (tileBytes_ne_emptyTile _)

end TaoDag.Pouw
