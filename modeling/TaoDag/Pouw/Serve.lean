import TaoDag.Pouw.Completeness

namespace TaoDag.Pouw

open Consensus (Target meetsTarget)

/-- One queued inference request: apply a layer of the model to an input. -/
structure InferenceRequest where
  tile : Nat
  input : List I64

/-- A served result: the request's output, and the nonce of its proof of work. -/
structure InferenceResult where
  tile : Nat
  nonce : BitVec 64
  output : List I64

/-- A sum in a checked build. -/
def addI64 (x y : I64) : Result I64 :=
  if x.saddOverflow y then .error (.panic "attempt to add with overflow") else .ok (x + y)

/-- `iter().sum::<i64>()`. -/
def sumI64 (v : List I64) : Result I64 := v.foldlM addI64 0

/-- The names that `{:?}` gives the errors. -/
def GateError.debug : GateError → String
  | .unknownModel => "UnknownModel"
  | .workMismatch => "WorkMismatch"
  | .inputMismatch => "InputMismatch"
  | .forgedWeights => "ForgedWeights"
  | .powNotMet => "PowNotMet"

namespace UtilityMine

/-- The weights of the demo model, tile by tile. -/
def weights (n tiles : Nat) : List (List I64) :=
  (List.range tiles).map fun t =>
    (List.range (n * n)).map fun i => BitVec.ofNat 64 ((t * 7 + i * 3) % 17) - 8

/-- The inputs of the demo, on one layer after the other. -/
def generated (blocks n tiles : Nat) : List InferenceRequest :=
  (List.range blocks).map fun h =>
    ⟨h % tiles, (List.range (n * n)).map fun i => BitVec.ofNat 64 ((h + i) % 5) - 2⟩

/-- A few bits of proof of work: a zero byte, then ones. -/
def target : Target := BitVec.allOnes 256 >>> 8

/-- The check of the requests of a file, from this one on. -/
def checkRequests (n tiles : Nat) : Nat → List InferenceRequest → Except String Unit
  | _, [] => .ok ()
  | i, r :: rest =>
      if tiles ≤ r.tile then
        .error ("request " ++ toString i ++ ": tile " ++ toString r.tile ++
          " out of range (tiles=" ++ toString tiles ++ ")")
      else if r.input.length ≠ n * n then
        .error ("request " ++ toString i ++ ": input len " ++ toString r.input.length ++
          " != n*n " ++ toString (n * n))
      else checkRequests n tiles (i + 1) rest

section Run

variable (hash : Hashing) (gate : UtilityGate) (registry : ModelRegistry) (modelId : ModelId)
  (n tiles : Nat)

/-- Proves, mines and verifies the request at this place of the queue. -/
def serve (idx : Nat) (req : InferenceRequest) : Result (Except String InferenceResult) := do
  let work : WorkItem := ⟨modelId, req.tile, req.input⟩
  match ← registry.tileProof hash.blake3 modelId req.tile with
  | none => return .error "missing tile proof"
  | some proof =>
      let weightTile ← expect "index out of bounds" (weights n tiles)[req.tile]?
      let sol ← gate.solve hash n work target weightTile proof
      match ← gate.verify hash registry work target sol with
      | .error e =>
          return .error ("utility gate rejected request " ++ toString idx ++ ": " ++ e.debug)
      | .ok () =>
          let output ← UtilityGate.usefulOutput sol n
          let _ ← sumI64 output
          return .ok ⟨req.tile, sol.nonce, output⟩

/-- Serves the queue from this place on, until a request is refused. -/
def serveAll : Nat → List InferenceRequest → Result (Except String (List InferenceResult))
  | _, [] => return .ok []
  | idx, req :: queue => do
      match ← serve hash gate registry modelId n tiles idx req with
      | .error e => return .error e
      | .ok result =>
          match ← serveAll (idx + 1) queue with
          | .error e => return .error e
          | .ok results => return .ok (result :: results)

end Run

end UtilityMine

open UtilityMine

/-- Serves a queue of inference requests on the demo model: those of a file, or as many generated
ones as `blocks` says. -/
def utilityMine (hash : Hashing) (blocks n rank tiles : Nat)
    (requests : Option (List InferenceRequest)) :
    Result (Except String (List InferenceResult)) := do
  if n = 0 ∨ rank = 0 ∨ n < rank ∨ tiles = 0 then
    return .error "invalid dimensions: need 0<rank<=n, n>0, tiles>0"
  else
    allocate 24 tiles
    allocate 8 (← mulU64 n n)
    let (modelId, registry) ←
      ModelRegistry.new.register hash.blake3 "tao-demo-llm" n (weights n tiles)
    match requests with
    | some requests =>
        match checkRequests n tiles 0 requests with
        | .error e => return .error e
        | .ok () => serveAll hash ⟨rank⟩ registry modelId n tiles 0 requests
    | none =>
        allocate 32 blocks
        serveAll hash ⟨rank⟩ registry modelId n tiles 0 (generated blocks n tiles)

namespace UtilityMine

/-- The demo model as it is registered. -/
def demo (n tiles : Nat) : Registration := ⟨"tao-demo-llm", n, weights n tiles⟩

/-- What the queue has, from the file or generated. -/
def queueOf (blocks n tiles : Nat) (requests : Option (List InferenceRequest)) :
    List InferenceRequest :=
  requests.getD (generated blocks n tiles)

/-- A request for a layer that there is, on an input of its size. -/
def Fitting (n tiles : Nat) (req : InferenceRequest) : Prop :=
  req.tile < tiles ∧ req.input.length = n * n

/-- What is asked for can be served: there is room for the noise, and each request fits. -/
structure Valid (blocks n rank tiles : Nat) (requests : Option (List InferenceRequest)) :
    Prop where
  rank_pos : 0 < rank
  rank_le : rank ≤ n
  tiles_pos : 0 < tiles
  fitting : ∀ req ∈ queueOf blocks n tiles requests, Fitting n tiles req

/-- A result is of the layer that the request names: anyone with the registry can check its
proof of work, and the output is the product of the layer's weights and the input. -/
structure Served (hash : Hashing) (gate : UtilityGate) (registry : ModelRegistry)
    (modelId : ModelId) (n tiles : Nat) (req : InferenceRequest) (result : InferenceResult) :
    Prop where
  tile : result.tile = req.tile
  verified : ∃ sol : BoundSolution, sol.nonce = result.nonce ∧
    gate.verify hash registry ⟨modelId, req.tile, req.input⟩ target sol = .ok (.ok ())
  length : result.output.length = n * n
  output : ∃ weight, (weights n tiles)[req.tile]? = some weight ∧
    matrixOf n result.output = matrixOf n weight * matrixOf n req.input

variable {hash : Hashing} {gate : UtilityGate} {registry : ModelRegistry} {modelId : ModelId}
  {n tiles : Nat}

theorem checkRequests_iff {i : Nat} {requests : List InferenceRequest} :
    checkRequests n tiles i requests = .ok () ↔ ∀ req ∈ requests, Fitting n tiles req := by
  induction requests generalizing i with
  | nil => simp [checkRequests]
  | cons req rest ih =>
    rw [checkRequests, List.forall_mem_cons, Fitting, ← @ih (i + 1)]
    by_cases htile : tiles ≤ req.tile
    · rw [if_pos htile]
      simp [Nat.not_lt.mpr htile]
    · rw [if_neg htile]
      by_cases hlen : req.input.length = n * n
      · rw [if_neg (not_not_intro hlen)]
        simp [Nat.not_le.mp htile, hlen]
      · rw [if_pos hlen]
        simp [hlen]

theorem generated_fitting {blocks : Nat} (htiles : 0 < tiles) :
    ∀ req ∈ generated blocks n tiles, Fitting n tiles req := by
  intro req hreq
  obtain ⟨h, -, rfl⟩ := List.mem_map.mp hreq
  constructor
  · exact Nat.mod_lt _ htiles
  · simp

/-- The proof that the registry gives for a layer of the demo model. -/
theorem tileProof_demo
    (hregister : ModelRegistry.new.register hash.blake3 "tao-demo-llm" n (weights n tiles) =
      .ok (modelId, registry)) {tile : Nat} {weight : List I64}
    (htile : (weights n tiles)[tile]? = some weight) :
    ∃ model proof, registry.get modelId = some model ∧ model.n = n ∧
      registry.tileProof hash.blake3 modelId tile = .ok (some proof) ∧ proof.index = tile ∧
      merkleVerify hash.blake3 model.weightRoot (tileLeaf hash.blake3 weight) proof = true := by
  have hdemo : ModelRegistry.new.register hash.blake3 (demo n tiles).name (demo n tiles).n
      (demo n tiles).tiles = .ok (modelId, registry) := hregister
  obtain ⟨model, hrecord, hget⟩ := register_get hdemo
  have hrecords := Registration.records hrecord
  obtain ⟨proof, hproof, hindex, hverify⟩ := tileProof_verifies hget hrecords htile
  exact ⟨model, proof, hget, hrecords.n, hproof, hindex, hverify⟩

/-- What grinding returns for a layer with its proof passes the gate. -/
theorem verify_solved {work : WorkItem} {model : RegisteredModel} {weight : List I64}
    {proof : MerkleProof} {sol : BoundSolution} (hget : registry.get work.modelId = some model)
    (hindex : proof.index = work.tileIndex)
    (hmerkle : merkleVerify hash.blake3 model.weightRoot (tileLeaf hash.blake3 weight) proof = true)
    (hsolve : gate.solve hash model.n work target weight proof = .ok sol) :
    gate.verify hash registry work target sol = .ok (.ok ()) ∧ sol.weightTile = weight ∧
      sol.input = work.input ∧ 8 * (model.n * model.n) ≤ maxCapacity := by
  obtain ⟨nonce, rfl, digest, hdigest, hmeets⟩ := solveLoop_eq hsolve
  refine ⟨?_, rfl, rfl, noisyProductTranscript_fits hdigest⟩
  simp only [UtilityGate.verify, hget, hindex, hmerkle, hdigest, ne_eq, not_true_eq_false, if_false,
    Bool.true_eq_false, bind, Except.bind]
  rw [if_pos hmeets]
  rfl

/-- No fitting request is refused: what mining finds for it passes the gate. -/
theorem serve_served
    (hregister : ModelRegistry.new.register hash.blake3 "tao-demo-llm" n (weights n tiles) =
      .ok (modelId, registry)) {req : InferenceRequest} (hfit : Fitting n tiles req) {idx : Nat}
    {r : Except String InferenceResult}
    (h : serve hash gate registry modelId n tiles idx req = .ok r) :
    ∃ result, r = .ok result ∧ Served hash gate registry modelId n tiles req result := by
  obtain ⟨hlt, hlen⟩ := hfit
  obtain ⟨weight, hweight⟩ : ∃ weight, (weights n tiles)[req.tile]? = some weight := by
    simp [weights, hlt]
  have hsquare : weight.length = n * n := by
    obtain ⟨t, -, rfl⟩ := List.mem_map.mp (List.mem_of_getElem? hweight)
    simp
  obtain ⟨model, proof, hget, rfl, hproof, hindex, hmerkle⟩ := tileProof_demo hregister hweight
  simp only [serve, hproof, hweight, expect, bind, Except.bind] at h
  cases hsolve : gate.solve hash model.n ⟨modelId, req.tile, req.input⟩ target weight proof with
  | error e =>
    simp only [hsolve] at h
    cases h
  | ok sol =>
    obtain ⟨hverify, htile, hinput, hfits⟩ := verify_solved hget hindex hmerkle hsolve
    have houtput : UtilityGate.usefulOutput sol model.n = .ok (product weight req.input model.n) := by
      rw [UtilityGate.usefulOutput, htile, hinput]
      exact matmul_eq hfits hsquare hlen
    simp only [hsolve, hverify, houtput] at h
    cases hsum : sumI64 (product weight req.input model.n) with
    | error e =>
      simp only [hsum] at h
      cases h
    | ok sum =>
      simp only [hsum] at h
      cases h
      exact ⟨_, rfl, rfl, ⟨sol, rfl, hverify⟩, product_length .., weight, hweight,
        matrixOf_product ..⟩

theorem serveAll_served
    (hregister : ModelRegistry.new.register hash.blake3 "tao-demo-llm" n (weights n tiles) =
      .ok (modelId, registry)) {queue : List InferenceRequest}
    (hfit : ∀ req ∈ queue, Fitting n tiles req) {idx : Nat}
    {r : Except String (List InferenceResult)}
    (h : serveAll hash gate registry modelId n tiles idx queue = .ok r) :
    ∃ results, r = .ok results ∧
      List.Forall₂ (Served hash gate registry modelId n tiles) queue results := by
  induction queue generalizing idx r with
  | nil =>
    cases h
    exact ⟨[], rfl, .nil⟩
  | cons req queue ih =>
    obtain ⟨hreq, hqueue⟩ := List.forall_mem_cons.mp hfit
    rw [serveAll] at h
    obtain ⟨r₁, hserve, h⟩ := bind_eq_ok.mp h
    obtain ⟨result, rfl, hresult⟩ := serve_served hregister hreq hserve
    obtain ⟨r₂, hrest, h⟩ := bind_eq_ok.mp h
    obtain ⟨results, rfl, hresults⟩ := ih hqueue hrest
    cases h
    exact ⟨result :: results, rfl, .cons hresult hresults⟩

end UtilityMine

/-- Whenever the service comes to an end, it has refused exactly what cannot be served: a queue
that fits is served request by request and in order, each with an output that is the matrix product
of the registered layer and the input, and with a proof of work that the gate accepts. -/
theorem utilityMine_served {hash : Hashing} {blocks n rank tiles : Nat}
    {requests : Option (List InferenceRequest)} {r : Except String (List InferenceResult)}
    (h : utilityMine hash blocks n rank tiles requests = .ok r) :
    (Valid blocks n rank tiles requests → ∃ modelId registry results,
      ModelRegistry.new.register hash.blake3 "tao-demo-llm" n (weights n tiles) =
        .ok (modelId, registry) ∧ r = .ok results ∧
      List.Forall₂ (Served hash ⟨rank⟩ registry modelId n tiles)
        (queueOf blocks n tiles requests) results) ∧
    (¬Valid blocks n rank tiles requests → ∃ e, r = .error e) := by
  rw [utilityMine] at h
  by_cases hdims : n = 0 ∨ rank = 0 ∨ n < rank ∨ tiles = 0
  · rw [if_pos hdims] at h
    cases h
    refine ⟨?_, fun _ => ⟨_, rfl⟩⟩
    intro hvalid
    have hrank := hvalid.rank_pos
    have hle := hvalid.rank_le
    have htiles := hvalid.tiles_pos
    omega
  · rw [if_neg hdims] at h
    obtain ⟨_, _, h⟩ := bind_eq_ok.mp h
    obtain ⟨_, _, h⟩ := bind_eq_ok.mp h
    obtain ⟨_, _, h⟩ := bind_eq_ok.mp h
    obtain ⟨⟨modelId, registry⟩, hregister, h⟩ := bind_eq_ok.mp h
    have hvalid : Valid blocks n rank tiles requests ↔
        ∀ req ∈ queueOf blocks n tiles requests, Fitting n tiles req := by
      constructor
      · exact Valid.fitting
      · intro hfit
        exact ⟨by omega, by omega, by omega, hfit⟩
    rw [hvalid]
    cases requests with
    | none =>
      obtain ⟨_, _, h⟩ := bind_eq_ok.mp h
      have hfit := @generated_fitting n tiles blocks (by omega)
      refine ⟨fun _ => ?_, fun hnot => absurd hfit hnot⟩
      obtain ⟨results, rfl, hserved⟩ := serveAll_served hregister hfit h
      exact ⟨modelId, registry, results, hregister, rfl, hserved⟩
    | some requests =>
      cases hcheck : checkRequests n tiles 0 requests with
      | error e =>
        simp only [hcheck] at h
        cases h
        refine ⟨fun hfit => ?_, fun _ => ⟨e, rfl⟩⟩
        have hok : checkRequests n tiles 0 requests = .ok () := checkRequests_iff.mpr hfit
        rw [hok] at hcheck
        cases hcheck
      | ok u =>
        simp only [hcheck] at h
        have hfit := checkRequests_iff.mp hcheck
        refine ⟨fun _ => ?_, fun hnot => absurd hfit hnot⟩
        obtain ⟨results, rfl, hserved⟩ := serveAll_served hregister hfit h
        exact ⟨modelId, registry, results, hregister, rfl, hserved⟩

/-- One request on a model of one weight, whose first nonce is good. -/
theorem utilityMine_served_one : ∃ (modelId : ModelId) (registry : ModelRegistry)
    (results : List InferenceResult),
    utilityMine blake3Stream 0 1 1 1 (some [⟨0, [510]⟩]) = .ok (.ok results) ∧
    List.Forall₂ (Served blake3Stream ⟨1⟩ registry modelId 1 1) [⟨0, [510]⟩] results := by
  have hrun : returnsWith (utilityMine blake3Stream 0 1 1 1 (some [⟨0, [510]⟩])) (fun _ => true) =
      true := by
    decide +kernel
  obtain ⟨r, hr, -⟩ := returnsWith_iff.mp hrun
  have hvalid : Valid 0 1 1 1 (some [⟨0, [510]⟩]) := by
    refine ⟨by decide, by decide, by decide, ?_⟩
    intro req hreq
    cases List.mem_singleton.mp hreq
    exact ⟨by decide, rfl⟩
  obtain ⟨modelId, registry, results, -, rfl, hserved⟩ := (utilityMine_served hr).1 hvalid
  exact ⟨modelId, registry, results, hr, hserved⟩

end TaoDag.Pouw
