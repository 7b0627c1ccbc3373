import TaoDag.Dagvm.Heaviest
import TaoDag.Dagvm.Interlinked

namespace TaoDag.Dagvm

open Consensus (DagBlock DagBlockHeader powLevel meetsTarget workForTarget u256Max)
open TaoDag.Runtime (Env)

section Walk

variable {blake3 : Bytes → Hash} {genesisId origin : Hash} {h n : DagBlockHeader} {work : Nat}
  {l r proof : List DagBlockHeader}

/-- Headers, latest first, as `verify_proof` takes them: each has work and points at the next, down
to one with the genesis id. -/
inductive Walk (blake3 : Bytes → Hash) (genesisId : Hash) : List DagBlockHeader → Prop
  | genesis {h : DagBlockHeader} (id : h.id blake3 = genesisId) : Walk blake3 genesisId [h]
  | step {h n : DagBlockHeader} {rest : List DagBlockHeader}
      (work : meetsTarget (h.id blake3) h.target = true)
      (pointer : h.interlink.getLast? = some (n.id blake3)) (below : Walk blake3 genesisId (n :: rest)) :
      Walk blake3 genesisId (h :: n :: rest)

/-- What the loop takes extends the walk. -/
theorem walk_of_verifyProofFrom (hwalk : Walk blake3 genesisId (h :: r))
    (hrun : verifyProofFrom blake3 (h.id blake3) (accumulatedWork (h :: r)) l = .ok work) :
    Walk blake3 genesisId (l.reverse ++ h :: r) ∧ work = accumulatedWork (l.reverse ++ h :: r) := by
  induction l generalizing h r with
  | nil =>
    cases hrun
    exact ⟨hwalk, rfl⟩
  | cons x l ih =>
    rw [verifyProofFrom] at hrun
    split_ifs at hrun with hmeets hpointer
    rw [← accumulatedWork_cons] at hrun
    have hnext := ih (.step hmeets (not_not.mp hpointer) hwalk) hrun
    simpa using hnext

/-- A proof that is taken, read from the origin on, is a walk, and its work is what the walk has. -/
theorem walk_of_verifyProof (hrun : verifyProof blake3 proof origin genesisId = .ok work) :
    ∃ h r, proof.reverse = h :: r ∧ h.id blake3 = origin ∧ Walk blake3 genesisId (h :: r) ∧
      work = accumulatedWork (h :: r) := by
  cases proof with
  | nil => cases hrun
  | cons first rest =>
    rw [verifyProof] at hrun
    split_ifs at hrun with hfirst hlast
    have hstart : accumulatedWork [first] = workForTarget first.target := by
      have hle := Consensus.workForTarget_le first.target
      simp [accumulatedWork, hle]
    rw [← hstart] at hrun
    obtain ⟨hwalk, hwork⟩ := walk_of_verifyProofFrom (.genesis (not_not.mp hfirst)) hrun
    rw [← List.reverse_cons] at hwalk hwork
    obtain ⟨front, last, hfront⟩ := List.eq_nil_or_concat (first :: rest) |>.resolve_left (by simp)
    have hid : last.id blake3 = origin := by
      simpa [hfront] using hlast
    refine ⟨last, front.reverse, by simp [hfront], hid, ?_⟩
    rw [hfront] at hwalk hwork
    simpa using And.intro hwalk hwork

/-- A walk and the pointers of known headers lead through the same headers. -/
theorem Walk.eq_linked {find : Hash → Option DagBlockHeader} (hwalk : Walk blake3 genesisId l)
    (hlinked : Linked blake3 find r)
    (hfree : ∀ y ∈ l, ∀ z, find (y.id blake3) = some z → y = z)
    (hgenesis : ∀ z, find genesisId = some z → z.interlink = [])
    (hid : l.head?.map (·.id blake3) = r.head?.map (·.id blake3)) : l = r := by
  induction hwalk generalizing r with
  | @genesis h id =>
    cases hlinked with
    | @last h' found pointer =>
      have hh : h.id blake3 = h'.id blake3 := by simpa using hid
      rw [hfree h (by simp) h' (hh ▸ found)]
    | @step h' n' rest' found pointer next =>
      have hh : h.id blake3 = h'.id blake3 := by simpa using hid
      rw [← hh, id] at found
      simp [hgenesis h' found] at pointer
  | @step h n rest work pointer below ih =>
    cases hlinked with
    | @last h' found pointer' =>
      have hh : h.id blake3 = h'.id blake3 := by simpa using hid
      rw [hfree h (by simp) h' (hh ▸ found), pointer'] at pointer
      cases pointer
    | @step h' n' rest' found pointer' next =>
      have hh : h.id blake3 = h'.id blake3 := by simpa using hid
      obtain rfl := hfree h (by simp) h' (hh ▸ found)
      rw [pointer'] at pointer
      rw [ih next (fun y hy => hfree y (List.mem_cons_of_mem _ hy)) (by simpa using pointer.symm)]

end Walk

namespace DagChain

variable {Tx : Type} {env : Env Tx} {p : Params} {c : DagChain Tx} {x : Hash} {work : Nat}
  {proof l : List DagBlockHeader} {tried : List DagBlock}

/-- The blocks of a chain, latest first, whose level no block below them exceeds. -/
def records (c : DagChain Tx) : List Hash → List Hash
  | [] => []
  | x :: past => if ∀ y ∈ past, c.level y ≤ c.level x then x :: c.records past else c.records past

theorem records_sublist (c : DagChain Tx) (past : List Hash) :
    List.Sublist (c.records past) past := by
  induction past with
  | nil => exact .slnil
  | cons x past ih =>
    rw [records]
    split_ifs with hrecord
    · exact ih.cons_cons x
    · exact ih.cons x

/-- The records of a chain of known headers. -/
theorem records_of_headerChain (hchain : HeaderChain env.blake3 c.genesisDag l)
    (hfound : ∀ y ∈ l, c.headers.lookup (y.id env.blake3) = some y) :
    (l.filter (isRecord env.blake3)).map (·.id env.blake3) =
      c.records (l.map (·.id env.blake3)) := by
  have hlevel : ∀ y ∈ l, c.level (y.id env.blake3) = powLevel (y.id env.blake3) y.target := by
    intro y hy
    rw [level, hfound y hy]
    rfl
  induction hchain with
  | @genesis h id interlink => simp [records, isRecord_of_genesis interlink]
  | @step h q rest chain parent interlink work ih =>
    have hnext := ih (fun y hy => hfound y (List.mem_cons_of_mem h hy))
      fun y hy => hlevel y (List.mem_cons_of_mem h hy)
    have hiff : isRecord env.blake3 h = true ↔ ∀ y ∈ (q :: rest).map (·.id env.blake3),
        c.level y ≤ c.level (h.id env.blake3) := by
      rw [(HeaderChain.step chain parent interlink work).isRecord_iff, List.forall_mem_map]
      apply forall₂_congr
      intro y hy
      rw [hlevel y (List.mem_cons_of_mem h hy), hlevel h List.mem_cons_self]
    rw [List.map_cons, records, ← hnext]
    by_cases hrecord : isRecord env.blake3 h = true
    · rw [if_pos (hiff.mp hrecord), List.filter_cons_of_pos hrecord, List.map_cons]
    · rw [if_neg (fun h => hrecord (hiff.mpr h)), List.filter_cons_of_neg hrecord]

theorem accumulatedWork_eq (hfound : ∀ y ∈ l, c.headers.lookup (y.id env.blake3) = some y) :
    accumulatedWork l = min ((l.map (·.id env.blake3)).map c.workOf).sum u256Max := by
  have hmap : (l.map (·.id env.blake3)).map c.workOf = l.map fun h => workForTarget h.target := by
    rw [List.map_map]
    apply List.map_congr_left
    intro y hy
    rw [Function.comp_apply, workOf, hfound y hy]
    rfl
  rw [hmap, accumulatedWork]

/-- What a proof for `x` must be on a chain that has the blocks of `past` below it: the record
blocks of the selected chain and `x`, with their work, as the chain would build the proof. -/
structure ProofOf (env : Env Tx) (c : DagChain Tx) (x : Hash) (past : List Hash)
    (proof : List DagBlockHeader) (work : Nat) : Prop where
  ids : proof.map (·.id env.blake3) = (x :: c.records past).reverse
  headers : ∀ y ∈ proof, c.headers.lookup (y.id env.blake3) = some y
  work : work = min ((x :: c.records past).map c.workOf).sum u256Max
  built : proof.length ≤ maxProofHeaders → c.buildProofFor env x = proof

/-- The headers that the pointers lead through. -/
theorem proofOf_of_walk {h : DagBlockHeader} {rest : List DagBlockHeader}
    (hchain : HeaderChain env.blake3 c.genesisDag (h :: rest))
    (hfound : ∀ y ∈ h :: rest, c.headers.lookup (y.id env.blake3) = some y) :
    ProofOf env c (h.id env.blake3) (rest.map (·.id env.blake3)) (proofOf env.blake3 (h :: rest)).reverse
      (accumulatedWork (proofOf env.blake3 (h :: rest))) := by
  have hids : (proofOf env.blake3 (h :: rest)).map (·.id env.blake3) =
      h.id env.blake3 :: c.records (rest.map (·.id env.blake3)) := by
    rw [proofOf, List.map_cons]
    cases rest with
    | nil => rfl
    | cons q rest =>
      rw [records_of_headerChain hchain.tail fun y hy => hfound y (List.mem_cons_of_mem h hy)]
  have hheaders : ∀ y ∈ proofOf env.blake3 (h :: rest),
      c.headers.lookup (y.id env.blake3) = some y := by
    intro y hy
    rcases List.mem_cons.mp hy with rfl | hy
    · exact hfound y List.mem_cons_self
    · exact hfound y (List.mem_cons_of_mem h (List.mem_filter.mp hy).1)
  constructor
  case ids => rw [List.map_reverse, hids]
  case headers => exact fun y hy => hheaders y (List.mem_reverse.mp hy)
  case work => rw [accumulatedWork_eq hheaders, hids]
  case built =>
    intro hlength
    have hproof : ∀ y, c.headers.lookup (y.id env.blake3) = some y →
        c.proofHeader env (y.id env.blake3) = some y := by
      intro y hy
      rw [proofHeader, hy]
    have hlinked : Linked env.blake3 (c.proofHeader env) (proofOf env.blake3 (h :: rest)) := by
      apply hchain.linked
      · exact hproof h (hfound h List.mem_cons_self)
      · exact fun y hy _ => hproof y (hfound y (List.mem_cons_of_mem h hy))
    rw [List.length_reverse] at hlength
    exact buildProofFor_linked hlinked hlength

/-- There is one such proof. -/
theorem ProofOf.unique {past : List Hash} {proof' : List DagBlockHeader} {work' : Nat}
    (h : ProofOf env c x past proof work) (h' : ProofOf env c x past proof' work') :
    proof = proof' ∧ work = work' := by
  have hheaders : ∀ {l : List DagBlockHeader},
      (∀ y ∈ l, c.headers.lookup (y.id env.blake3) = some y) →
      (l.map (·.id env.blake3)).map c.headers.lookup = l.map some := by
    intro l hl
    rw [List.map_map]
    exact List.map_congr_left hl
  constructor
  · have hsome : proof.map some = proof'.map some := by
      rw [← hheaders h.headers, ← hheaders h'.headers, h.ids, h'.ids]
    exact (Option.some_injective _).list_map hsome
  · rw [h.work, h'.work]

end DagChain

section Example

open DagChain
open TaoDag.Runtime (Transaction transferEnv)

end Example

end TaoDag.Dagvm
