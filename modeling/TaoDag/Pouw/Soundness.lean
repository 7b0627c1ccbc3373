import TaoDag.Core.Blake3
import TaoDag.Pouw.Binding

namespace TaoDag.Pouw

open Consensus (Target meetsTarget)

variable {hash : Hashing} {gate : UtilityGate} {regs : List Registration}
  {registry : ModelRegistry} {work : WorkItem} {target : Target} {sol : BoundSolution}

/-- The solution is of the registered tile and the requested input, and its noised product meets
the target. -/
structure Genuine (hash : Hashing) (gate : UtilityGate) (reg : Registration) (work : WorkItem)
    (target : Target) (sol : BoundSolution) : Prop where
  index : work.tileIndex < reg.tiles.length
  tile : reg.tiles[work.tileIndex]? = some sol.weightTile
  input : sol.input = work.input
  square : work.input.length = reg.n * reg.n
  pow : ∃ h, gate.transcript hash reg.n sol = .ok h ∧ meetsTarget h target = true

/-- The gate decides, and accepts only what is genuine for a registered model. -/
def Sound (hash : Hashing) (gate : UtilityGate) (regs : List Registration)
    (registry : ModelRegistry) (work : WorkItem) (target : Target) (sol : BoundSolution) : Prop :=
  ∃ r, gate.verify hash registry work target sol = .ok r ∧ (r = .ok () →
    ∃ reg ∈ regs, ∃ model, registry.get work.modelId = some model ∧
      reg.record hash.blake3 = .ok (work.modelId, model) ∧
      Genuine hash gate reg work target sol)

/-- The solution passes every check before the noised product. -/
structure Passes (hash : Hashing) (registry : ModelRegistry) (work : WorkItem)
    (sol : BoundSolution) (model : RegisteredModel) : Prop where
  registered : registry.get work.modelId = some model
  commitment : sol.workCommitment = work.commitment hash.blake3
  input : sol.input = work.input
  index : sol.weightProof.index = work.tileIndex
  proof : merkleVerify hash.blake3 model.weightRoot (tileLeaf hash.blake3 sol.weightTile)
    sol.weightProof = true

/-- A solution that fails a check is rejected; of one that passes them the noised product decides. -/
theorem verify_cases : (∃ e, gate.verify hash registry work target sol = .ok (.error e) ∧
      ∀ model, ¬Passes hash registry work sol model) ∨
    ∃ model, Passes hash registry work sol model ∧
      gate.verify hash registry work target sol = (do
        let h ← gate.transcript hash model.n sol
        if meetsTarget h target then return .ok () else return .error .powNotMet) := by
  rw [UtilityGate.verify]
  cases hget : registry.get work.modelId with
  | none =>
    refine Or.inl ⟨_, rfl, fun model hp => ?_⟩
    rw [hp.registered] at hget
    cases hget
  | some model =>
    have hsame : ∀ model', Passes hash registry work sol model' → model' = model := by
      intro model' hp
      rw [hp.registered] at hget
      exact Option.some.inj hget
    simp only
    by_cases hcommitment : sol.workCommitment = work.commitment hash.blake3
    · rw [if_neg (not_not.mpr hcommitment)]
      by_cases hinput : sol.input = work.input
      · rw [if_neg (not_not.mpr hinput)]
        by_cases hindex : sol.weightProof.index = work.tileIndex
        · rw [if_neg (not_not.mpr hindex)]
          by_cases hproof : merkleVerify hash.blake3 model.weightRoot
              (tileLeaf hash.blake3 sol.weightTile) sol.weightProof = false
          · rw [if_pos hproof]
            refine Or.inl ⟨_, rfl, fun model' hp => ?_⟩
            have hverified := hp.proof
            rw [hsame model' hp, hproof] at hverified
            cases hverified
          · rw [if_neg hproof]
            exact Or.inr ⟨model, ⟨hget, hcommitment, hinput, hindex,
              Bool.eq_true_of_not_eq_false hproof⟩, rfl⟩
        · rw [if_pos hindex]
          exact Or.inl ⟨_, rfl, fun _ hp => hindex hp.index⟩
      · rw [if_pos hinput]
        exact Or.inl ⟨_, rfl, fun _ hp => hinput hp.input⟩
    · rw [if_pos hcommitment]
      exact Or.inl ⟨_, rfl, fun _ hp => hcommitment hp.commitment⟩

/-- The gate is sound exactly for the solutions that fail a check before the noised product, or
have an input that is long enough for it, on a gate whose noise fits in memory, and have an input
of the right length and an index of a tile if they meet the target. -/
theorem verify_sound_iff (hregs : registerAll hash.blake3 regs = .ok registry)
    (hfits : ∀ reg ∈ regs, reg.Fits) (hfree : ∀ reg ∈ regs, CollisionFree hash.blake3 reg sol) :
    Sound hash gate regs registry work target sol ↔
      ∀ model, Passes hash registry work sol model →
        model.n * gate.rank ≤ maxCapacity ∧ model.n * model.n ≤ work.input.length ∧
        ((∃ h, gate.transcript hash model.n sol = .ok h ∧ meetsTarget h target = true) →
          work.input.length = model.n * model.n ∧ work.tileIndex < model.numTiles) := by
  rcases @verify_cases hash gate registry work target sol with
    ⟨e, hrun, hnone⟩ | ⟨model, hp, hrun⟩
  · exact ⟨fun _ model hp => absurd hp (hnone model), fun _ => ⟨_, hrun, nofun⟩⟩
  obtain ⟨reg, hreg, hrecord⟩ := registered hregs hp.registered
  have hmodel := Registration.records hrecord
  obtain ⟨d, hle, htile⟩ := verified_tile hmodel (hfree reg hreg) hp.proof
  have hmem := List.mem_of_getElem? htile
  have hlen := hmodel.square _ hmem
  have hcapacity : 8 * (model.n * model.n) ≤ maxCapacity := by
    rw [← hlen]
    exact hfits reg hreg _ hmem
  have hsame : ∀ model', Passes hash registry work sol model' → model' = model := by
    intro model' hp'
    exact Option.some.inj (hp'.registered.symm.trans hp.registered)
  have htranscript : ∀ {C : Prop}, (C → model.n * gate.rank ≤ maxCapacity ∧
      model.n * model.n ≤ work.input.length) →
      Returns C (gate.transcript hash model.n sol) fun _ =>
        model.n * gate.rank ≤ maxCapacity ∧ model.n * model.n ≤ work.input.length := by
    intro C h
    rw [← hp.input] at h ⊢
    exact noisyProductTranscript_spec hcapacity hlen h
  constructor
  · rintro ⟨r, hr, hgenuine⟩ model' hp'
    obtain rfl := hsame model' hp'
    rw [hrun] at hr
    obtain ⟨h, hh, hr⟩ := bind_eq_ok.mp hr
    obtain ⟨hnoise, hinput⟩ := (htranscript (C := False) nofun).post hh
    refine ⟨hnoise, hinput, fun ⟨h', hh', hmeets⟩ => ?_⟩
    cases hh.symm.trans hh'
    rw [if_pos hmeets] at hr
    cases hr
    obtain ⟨reg', _, model'', hget, hrecord', hgen⟩ := hgenuine rfl
    cases hp.registered.symm.trans hget
    have hmodel' := Registration.records hrecord'
    exact ⟨by rw [hmodel'.n]; exact hgen.square, by rw [hmodel'.numTiles]; exact hgen.index⟩
  · intro h
    obtain ⟨hnoise, hinput, haccept⟩ := h model hp
    obtain ⟨t, ht, _⟩ := (htranscript (C := True) fun _ => ⟨hnoise, hinput⟩).total
    by_cases hmeets : meetsTarget t target = true
    · obtain ⟨hsquare, hindex⟩ := haccept ⟨t, ht, hmeets⟩
      refine ⟨.ok (), ?_, fun _ => ⟨reg, hreg, model, hp.registered, hrecord, ?_⟩⟩
      · rw [hrun]
        refine bind_eq_ok.mpr ⟨t, ht, ?_⟩
        rw [if_pos hmeets]
        rfl
      · rw [Nat.mod_eq_of_lt (by rw [hp.index]; omega), hp.index] at htile
        exact
          { index := by rw [← hmodel.numTiles]; exact hindex
            tile := htile
            input := hp.input
            square := by rw [← hmodel.n]; exact hsquare
            pow := ⟨t, by rw [← hmodel.n]; exact ht, hmeets⟩ }
    · refine ⟨.error .powNotMet, ?_, nofun⟩
      rw [hrun]
      refine bind_eq_ok.mpr ⟨t, ht, ?_⟩
      rw [if_neg hmeets]
      rfl

section Example

/-- BLAKE3, whose output stream starts with the digest. -/
def blake3Stream : Hashing where
  blake3 := Blake3.hash
  xof := fun input i => (Codec.bytes32.encode (Blake3.hash input)).getD i 0

/-- Three weight tiles of two rows. -/
def toyModel : Registration where
  name := "toy-llm"
  n := 2
  tiles := (List.range 3).map fun t => (List.range 4).map fun i =>
    BitVec.ofNat 64 ((t * 7 + i * 3) % 17) - 8

/-- A solution of a work item on the toy model: the registered tile at its index modulo the four
leaves, with that tile's proof under the index of the work item. -/
def toySolution (registry : ModelRegistry) (work : WorkItem) : Option BoundSolution := do
  let proof ← (← (registry.tileProof Blake3.hash work.modelId (work.tileIndex % 4)).toOption)
  let weightTile ← toyModel.tiles[work.tileIndex % 4]?
  return {
    workCommitment := work.commitment Blake3.hash
    weightTile
    weightProof := { proof with index := work.tileIndex }
    input := work.input
    nonce := 0 }

/-- A gate with noise of rank one. -/
def toyGate : UtilityGate := ⟨1⟩

theorem toyModel_fits : ∀ reg ∈ [toyModel], reg.Fits := by
  intro reg hreg
  obtain rfl := List.mem_singleton.mp hreg
  change ∀ tile ∈ toyModel.tiles, 8 * tile.length ≤ maxCapacity
  decide

/-- The last tile with its own index and a full input. -/
theorem verify_sound_toy : ∃ (registry : ModelRegistry) (work : WorkItem) (sol : BoundSolution),
    registerAll Blake3.hash [toyModel] = .ok registry ∧
    toyGate.verify blake3Stream registry work (BitVec.allOnes 256) sol = .ok (.ok ()) ∧
    Sound blake3Stream toyGate [toyModel] registry work (BitVec.allOnes 256) sol := by
  have hrun : returnsWith (registerAll Blake3.hash [toyModel]) (fun registry =>
      returnsWith (toyModel.record Blake3.hash) fun r =>
        (toySolution registry ⟨r.1, 2, [1, 2, 3, 4]⟩).any fun sol =>
          (registry.get r.1).any (fun model => decide (model.n = 2 ∧ model.numTiles = 3)) &&
          decide ((∀ x ∈ leafStrings toyModel sol ++ nodeStrings Blake3.hash toyModel sol,
              ∀ y ∈ leafStrings toyModel sol ++ nodeStrings Blake3.hash toyModel sol,
                Blake3.hash x = Blake3.hash y → x = y) ∧
            ∀ x ∈ leafStrings toyModel sol, ∀ y ∈ nodeStrings Blake3.hash toyModel sol,
              Blake3.hash x ≠ Blake3.hash y) &&
          returnsWith (toyGate.verify blake3Stream registry ⟨r.1, 2, [1, 2, 3, 4]⟩
            (BitVec.allOnes 256) sol) fun v => returnsWith v fun _ => true) = true := by
    decide +kernel
  simp only [returnsWith_iff, Option.any_eq_true, Bool.and_eq_true, decide_eq_true_eq] at hrun
  obtain ⟨registry, hregs, ⟨id, _⟩, _, sol, _, ⟨⟨model, hget, hn, htiles⟩, hinj, hdisjoint⟩, _,
    hverify, _, rfl, _⟩ := hrun
  have hregs' : registerAll blake3Stream.blake3 [toyModel] = .ok registry := hregs
  have hfree : ∀ reg ∈ [toyModel], CollisionFree blake3Stream.blake3 reg sol := by
    intro reg hreg
    obtain rfl := List.mem_singleton.mp hreg
    exact ⟨hinj, hdisjoint⟩
  refine ⟨registry, ⟨id, 2, [1, 2, 3, 4]⟩, sol, hregs, hverify, ?_⟩
  refine (verify_sound_iff hregs' toyModel_fits hfree).mpr fun model' hp => ?_
  obtain rfl : model = model' := Option.some.inj (hget.symm.trans hp.registered)
  rw [hn, htiles]
  refine ⟨by decide, le_rfl, fun _ => ⟨rfl, ?_⟩⟩
  change 2 < 3
  decide

/-- The index above the leaves, whose low bits are those of a tile, passes; an input that is too
short stops the gate; one that is too long passes. -/
theorem verify_unsound : ∃ (registry : ModelRegistry) (id : ModelId) (model : RegisteredModel)
    (outside short long : BoundSolution),
    registerAll Blake3.hash [toyModel] = .ok registry ∧ registry.get id = some model ∧
    model.n = 2 ∧ model.numTiles = 3 ∧
    toyGate.verify blake3Stream registry ⟨id, 6, [1, 2, 3, 4]⟩ (BitVec.allOnes 256) outside =
      .ok (.ok ()) ∧
    toyGate.verify blake3Stream registry ⟨id, 2, [1, 2, 3]⟩ (BitVec.allOnes 256) short =
      .error (.panic "index out of bounds") ∧
    toyGate.verify blake3Stream registry ⟨id, 2, [1, 2, 3, 4, 5]⟩ (BitVec.allOnes 256) long =
      .ok (.ok ()) := by
  have hrun : returnsWith (registerAll Blake3.hash [toyModel]) (fun registry =>
      returnsWith (toyModel.record Blake3.hash) fun r =>
        (registry.get r.1).any (fun model => decide (model.n = 2 ∧ model.numTiles = 3)) &&
        (toySolution registry ⟨r.1, 6, [1, 2, 3, 4]⟩).any (fun sol =>
          returnsWith (toyGate.verify blake3Stream registry ⟨r.1, 6, [1, 2, 3, 4]⟩
            (BitVec.allOnes 256) sol) fun v => returnsWith v fun _ => true) &&
        (toySolution registry ⟨r.1, 2, [1, 2, 3]⟩).any (fun sol =>
          match toyGate.verify blake3Stream registry ⟨r.1, 2, [1, 2, 3]⟩ (BitVec.allOnes 256)
            sol with
          | .ok _ => false
          | .error fault => decide (fault = .panic "index out of bounds")) &&
        (toySolution registry ⟨r.1, 2, [1, 2, 3, 4, 5]⟩).any fun sol =>
          returnsWith (toyGate.verify blake3Stream registry ⟨r.1, 2, [1, 2, 3, 4, 5]⟩
            (BitVec.allOnes 256) sol) fun v => returnsWith v fun _ => true) = true := by
    decide +kernel
  simp only [returnsWith_iff, Option.any_eq_true, Bool.and_eq_true, decide_eq_true_eq] at hrun
  obtain ⟨registry, hregs, ⟨id, _⟩, _, ⟨⟨⟨model, hget, hn, htiles⟩, outside, _, _, houtside, _, rfl,
    _⟩, short, _, hshort⟩, long, _, _, hlong, _, rfl, _⟩ := hrun
  refine ⟨registry, id, model, outside, short, long, hregs, hget, hn, htiles, houtside, ?_, hlong⟩
  split at hshort
  · cases hshort
  · rename_i fault hfault
    rw [hfault, of_decide_eq_true hshort]

end Example

end TaoDag.Pouw
