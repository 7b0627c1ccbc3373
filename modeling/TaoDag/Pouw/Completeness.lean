import Mathlib.Data.Matrix.Mul
import TaoDag.Pouw.Soundness

namespace TaoDag.Pouw

open Consensus (Target meetsTarget)
open PairTree (level pairs walk)

variable {blake3 : Bytes → Hash} {hash : Hashing} {gate : UtilityGate}

/-- The `n × n` matrix that a list has row by row. -/
def matrixOf (n : Nat) (v : List I64) : Matrix (Fin n) (Fin n) I64 :=
  fun i j => v.getD (i * n + j) 0

theorem dotProduct_eq_sum (l r : List I64) (atL atR : Nat → Nat) (count : Nat) :
    dotProduct l r atL atR count =
      ∑ k : Fin count, l.getD (atL k) 0 * r.getD (atR k) 0 := by
  rw [dotProduct, Fin.sum_univ_eq_sum_range fun k => l.getD (atL k) 0 * r.getD (atR k) 0]
  induction count with
  | zero => rfl
  | succ count ih =>
    rw [List.range_succ, List.foldl_append, ih, Finset.sum_range_succ]
    rfl

theorem getElem?_rows {rows cols : Nat} (value : Nat → Nat → I64) {i j : Nat} (hi : i < rows)
    (hj : j < cols) :
    (((List.range rows).map fun i => (List.range cols).map (value i)).flatten)[i * cols + j]? =
      some (value i j) := by
  induction rows with
  | zero => omega
  | succ rows ih =>
    have hlen : (((List.range rows).map fun i => (List.range cols).map (value i)).flatten).length =
        rows * cols := flatten_rows_length value
    rw [List.range_succ, List.map_append, List.flatten_append]
    rcases Nat.lt_succ_iff_lt_or_eq.mp hi with hlt | rfl
    · rw [List.getElem?_append_left (by rw [hlen]; exact row_index_lt hlt hj)]
      exact ih hlt
    · rw [List.getElem?_append_right (by rw [hlen]; omega), hlen, Nat.add_sub_cancel_left]
      simp [hj]

/-- The product is the one of the matrices, modulo `2^64`. -/
theorem matrixOf_product (a b : List I64) (n : Nat) :
    matrixOf n (product a b n) = matrixOf n a * matrixOf n b := by
  funext i j
  rw [matrixOf, List.getD_eq_getElem?_getD, product, getElem?_rows _ i.isLt j.isLt,
    Matrix.mul_apply]
  exact dotProduct_eq_sum ..

theorem product_length (a b : List I64) (n : Nat) : (product a b n).length = n * n :=
  flatten_rows_length _

/-- The proof of a leaf below the number of leaves leads from it to the top. -/
theorem merkleProofLoop_eq {d fuel i : Nat} {l : List Hash} {x : Hash} (hl : l.length = 2^d)
    (hfuel : d < fuel) (hx : l[i]? = some x) :
    ∃ siblings, merkleProofLoop blake3 fuel l i = .ok siblings ∧
      level (nodeHash blake3) d l = [walk (nodeHash blake3) i x siblings] := by
  induction d generalizing l fuel i x with
  | zero =>
    obtain ⟨fuel, rfl⟩ : ∃ f, fuel = f + 1 := ⟨fuel - 1, by omega⟩
    obtain ⟨top, rfl⟩ := List.length_eq_one_iff.mp hl
    cases i with
    | zero =>
      obtain rfl : top = x := Option.some.inj hx
      exact ⟨[], rfl, rfl⟩
    | succ i => cases hx
  | succ d ih =>
    obtain ⟨fuel, rfl⟩ : ∃ f, fuel = f + 1 := ⟨fuel - 1, by omega⟩
    have hpos : 0 < 2^d := Nat.two_pow_pos d
    rw [Nat.pow_succ] at hl
    have hlen : (pairs (nodeHash blake3) l).length = 2^d := by
      rw [PairTree.pairs_length, hl, Nat.mul_div_cancel _ Nat.two_pos]
    have hi : i ^^^ 1 < l.length := by
      have hlt := (List.getElem?_eq_some_iff.mp hx).1
      rcases Nat.even_or_odd i with he | ho
      · rw [Nat.xor_one_of_even he]
        have := Nat.even_iff.mp he
        omega
      · rw [Nat.xor_one_of_odd ho]
        omega
    have hs : l[i ^^^ 1]? = some l[i ^^^ 1] := List.getElem?_eq_getElem hi
    obtain ⟨siblings, hrun, htop⟩ := ih hlen (Nat.lt_of_succ_lt_succ hfuel)
      (PairTree.getElem?_pairs_sibling hx hs)
    refine ⟨l[i ^^^ 1] :: siblings, ?_, htop⟩
    rw [merkleProofLoop, if_pos (by omega), index, hs, hashChunks_eq l (by omega)]
    change (merkleProofLoop blake3 fuel _ (i / 2) >>= fun rest => _) = _
    rw [hrun]
    rfl

/-- The proof of a registered tile verifies against the root of its model. -/
theorem tileProof_verifies {reg : Registration} {registry : ModelRegistry} {model : RegisteredModel}
    {id : ModelId} (hget : registry.get id = some model) (hrecords : reg.Records blake3 model)
    {i : Nat} {tile : List I64} (htile : reg.tiles[i]? = some tile) :
    ∃ proof, registry.tileProof blake3 id i = .ok (some proof) ∧ proof.index = i ∧
      merkleVerify blake3 model.weightRoot (tileLeaf blake3 tile) proof = true := by
  obtain ⟨d, hlen, htop⟩ := hrecords.root
  have hleaf : (reg.leaves blake3)[i]? = some (tileLeaf blake3 tile) := by
    have hi := (List.getElem?_eq_some_iff.mp htile).1
    rw [Registration.leaves, paddedLeaves, List.getElem?_append_left (by simpa using hi),
      List.getElem?_map, htile]
    rfl
  obtain ⟨siblings, hrun, hwalk⟩ : ∃ siblings,
      merkleProofLoop blake3 ((reg.leaves blake3).length + 1) (reg.leaves blake3) i =
        .ok siblings ∧ level (nodeHash blake3) d (reg.leaves blake3) =
          [walk (nodeHash blake3) i (tileLeaf blake3 tile) siblings] :=
    merkleProofLoop_eq hlen (by rw [hlen]; exact Nat.lt_succ_of_lt Nat.lt_two_pow_self) hleaf
  refine ⟨⟨i, siblings⟩, ?_, rfl, ?_⟩
  · rw [ModelRegistry.tileProof, hget]
    simp only [hrecords.paddedLeaves, merkleProof, hrun]
    rfl
  · rw [merkleVerify, decide_eq_true_eq]
    rw [hwalk] at htop
    exact List.singleton_inj.mp htop

/-- What grinding returns is an attempt whose noised product meets the target. -/
theorem solveLoop_eq {n : Nat} {target : Target} {attempt : BitVec 64 → BoundSolution}
    {remaining : Nat} {nonce : BitVec 64} {sol : BoundSolution}
    (h : UtilityGate.solveLoop hash gate n target attempt remaining nonce = .ok sol) :
    ∃ nonce, sol = attempt nonce ∧
      ∃ digest, gate.transcript hash n sol = .ok digest ∧ meetsTarget digest target = true := by
  induction remaining generalizing nonce with
  | zero => cases h
  | succ remaining ih =>
    rw [UtilityGate.solveLoop] at h
    obtain ⟨digest, hdigest, h⟩ := bind_eq_ok.mp h
    split at h
    · rename_i hmeets
      cases h
      exact ⟨nonce, rfl, digest, hdigest, hmeets⟩
    · exact ih h

/-- A transcript is only computed of matrices that fit in memory. -/
theorem noisyProductTranscript_fits {a b : List I64} {n rank : Nat} {seed digest : Hash}
    (h : noisyProductTranscript hash a b n rank seed = .ok digest) : 8 * (n * n) ≤ maxCapacity := by
  obtain ⟨count, _, h⟩ := bind_eq_ok.mp h
  obtain ⟨el, _, h⟩ := bind_eq_ok.mp h
  obtain ⟨er, _, h⟩ := bind_eq_ok.mp h
  obtain ⟨fl, _, h⟩ := bind_eq_ok.mp h
  obtain ⟨fr, _, h⟩ := bind_eq_ok.mp h
  obtain ⟨e, he, _⟩ := bind_eq_ok.mp h
  obtain ⟨cells, hcells, he⟩ := bind_eq_ok.mp he
  obtain ⟨_, hfits, _⟩ := bind_eq_ok.mp he
  rw [← ((mulU64_spec (C := False) nofun).post hcells).1]
  exact (allocate_spec (C := False) nofun).post hfits

/-- The matrix product is computed of matrices that fit in memory. -/
theorem matmul_eq {a b : List I64} {n : Nat} (hn : 8 * (n * n) ≤ maxCapacity)
    (ha : a.length = n * n) (hb : b.length = n * n) : matmul a b n = .ok (product a b n) := by
  obtain ⟨c, hc, rfl, _⟩ := (matmul_spec (C := True) hn ha.ge fun _ => hb.ge).total
  exact hc

/-- Whatever grinding returns for a registered tile with its proof is accepted, and its useful
output is the product of the tile and the input. -/
theorem solve_complete {reg : Registration} {registry : ModelRegistry} {model : RegisteredModel}
    {work : WorkItem} {tile : List I64} (hget : registry.get work.modelId = some model)
    (hrecord : reg.record hash.blake3 = .ok (work.modelId, model))
    (htile : reg.tiles[work.tileIndex]? = some tile)
    (hinput : work.input.length = reg.n * reg.n) :
    ∃ proof, registry.tileProof hash.blake3 work.modelId work.tileIndex = .ok (some proof) ∧
      ∀ (gate : UtilityGate) (target : Target) (sol : BoundSolution),
        gate.solve hash reg.n work target tile proof = .ok sol →
          gate.verify hash registry work target sol = .ok (.ok ()) ∧
          ∃ output, UtilityGate.usefulOutput sol reg.n = .ok output ∧
            output.length = reg.n * reg.n ∧
            matrixOf reg.n output = matrixOf reg.n tile * matrixOf reg.n work.input := by
  have hrecords := Registration.records hrecord
  obtain ⟨proof, hproof, hindex, hverify⟩ := tileProof_verifies hget hrecords htile
  refine ⟨proof, hproof, fun gate target sol hsolve => ?_⟩
  obtain ⟨nonce, rfl, digest, hdigest, hmeets⟩ := solveLoop_eq hsolve
  have hsquare : tile.length = reg.n * reg.n := by
    rw [← hrecords.n]
    exact hrecords.square tile (List.mem_of_getElem? htile)
  refine ⟨?_, _, matmul_eq (noisyProductTranscript_fits hdigest) hsquare hinput,
    product_length .., matrixOf_product ..⟩
  rw [← hrecords.n] at hdigest
  simp only [UtilityGate.verify, hget, hindex, hverify, hdigest, ne_eq, not_true_eq_false, if_false,
    Bool.true_eq_false]
  change (if meetsTarget digest target = true then _ else _) = _
  rw [if_pos hmeets]
  rfl

theorem register_get {registry registry' : ModelRegistry} {reg : Registration} {id : ModelId}
    (h : registry.register blake3 reg.name reg.n reg.tiles = .ok (id, registry')) :
    ∃ model, reg.record blake3 = .ok (id, model) ∧ registry'.get id = some model := by
  obtain ⟨⟨id, model⟩, hrecord, h⟩ := bind_eq_ok.mp h
  cases h
  exact ⟨model, hrecord, AList.lookup_insert _⟩

/-- The last of three tiles, on a gate with noise of rank one. -/
theorem solve_complete_toy : ∃ (registry : ModelRegistry) (work : WorkItem) (sol : BoundSolution),
    work.input = [1, 2, 3, 4] ∧
    toyGate.verify blake3Stream registry work (BitVec.allOnes 256) sol = .ok (.ok ()) := by
  have hrun : returnsWith (ModelRegistry.new.register Blake3.hash toyModel.name toyModel.n
      toyModel.tiles) (fun r =>
        returnsWith (r.2.tileProof Blake3.hash r.1 2) fun proof => proof.any fun proof =>
          returnsWith (toyGate.solve blake3Stream 2 ⟨r.1, 2, [1, 2, 3, 4]⟩ (BitVec.allOnes 256)
            (toyModel.tiles.getD 2 []) proof) fun _ => true) = true := by
    decide +kernel
  simp only [returnsWith_iff, Option.any_eq_true] at hrun
  obtain ⟨⟨id, registry⟩, hregister, _, hproof, proof, rfl, sol, hsolve, _⟩ := hrun
  obtain ⟨model, hrecord, hget⟩ := register_get hregister
  obtain ⟨proof', hproof', hcomplete⟩ := @solve_complete blake3Stream toyModel registry model
    ⟨id, 2, [1, 2, 3, 4]⟩ (toyModel.tiles.getD 2 []) hget hrecord rfl rfl
  obtain rfl : proof = proof' := Option.some.inj (Except.ok.inj (hproof.symm.trans hproof'))
  exact ⟨registry, ⟨id, 2, [1, 2, 3, 4]⟩, sol, rfl, (hcomplete toyGate _ sol hsolve).1⟩

end TaoDag.Pouw
