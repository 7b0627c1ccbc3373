import TaoDag.Dagvm.Execution
import TaoDag.Dagvm.PrunedCopy
import TaoDag.Dagvm.SnapshotAccounts
import TaoDag.Dagvm.StateReplay
import TaoDag.Framework.Decoding

namespace TaoDag.Dagvm

open Consensus (DagBlock DagBlockHeader)
open Database (Account AppendFault ReplaceFault)
open Ghostdag (DagEngine)
open Ghostdag.DagEngine (OrderTo Tail)
open TaoDag.Runtime (Env)

section Bounded

theorem bounded_header : DagBlockHeader.codec.Bounded := by
  have h64 : Codec.u64.Bounded := Codec.bounded_uint (by decide)
  have h32 : Codec.u32.Bounded := Codec.bounded_uint (by decide)
  have hash := Codec.bounded_bytes32
  exact (h32.seq <| hash.vec.seq <| h64.seq <| hash.seq <| hash.seq <| hash.seq <| hash.vec.seq <|
    h64.seq hash).via

theorem bounded_block : DagBlock.codec.Bounded :=
  (bounded_header.seq Codec.bounded_byteVec.vec).via

theorem bounded_account : Account.codec.Bounded := by
  have h64 : Codec.u64.Bounded := Codec.bounded_uint (by decide)
  exact (h64.seq <| Codec.bounded_byteVec.seq <| Codec.bounded_bytes32.seq <|
    Codec.bounded_bool.seq h64).via

theorem bounded_snapshot : SyncSnapshot.codec.Bounded := by
  have haccounts : accountsCodec.Bounded := (Codec.bounded_bytes32.seq bounded_account).vec
  exact (bounded_header.seq <| haccounts.seq <| bounded_block.vec.seq bounded_header.vec).via

end Bounded

namespace DagChain

variable {Tx : Type} {env : Env Tx} {p : Params} {c c₀ d d₀ d₁ : DagChain Tx} {x : Hash}
  {h : DagBlockHeader} {block : DagBlock} {order done l : List Hash}

/-- The encoding of the transaction is decoded again. -/
def RoundTrips (env : Env Tx) (tx : Tx) : Prop :=
  ∀ bytes, env.encodeTx tx = .ok bytes → env.decodeTx bytes = .ok tx

/-- A chain that others can bootstrap from: its blocks are there under the ids of their headers and
over all parents that these name, those of the order are served, and their transactions are decoded
as they were. -/
structure Complete (env : Env Tx) (c : DagChain Tx) : Prop where
  ids : ∀ x h, c.headers.lookup x = some h → h.id env.blake3 = x
  parents : ∀ x h, c.headers.lookup x = some h → x ≠ c.genesisDag →
    ∀ q ∈ h.parents, q ∈ c.engine.dag.parents x
  served : ∀ order, c.totalOrder = .ok order → ∀ x ∈ order.drop 1, (c.getBlock env x).isSome
  bodies : ∀ x txs, c.blockTxs.lookup x = some txs → ∀ tx ∈ txs, RoundTrips env tx

theorem decodeTxs_of_encode {txs : List Tx} {encoded : List Bytes}
    (hcodec : ∀ tx ∈ txs, RoundTrips env tx) (h : txs.mapM env.encodeTx = .ok encoded) :
    decodeTxs env encoded = .ok txs := by
  induction txs generalizing encoded with
  | nil =>
    cases h
    rfl
  | cons tx txs ih =>
    rw [List.mapM_cons] at h
    obtain ⟨bytes, hbytes, h⟩ := bind_eq_ok.mp h
    obtain ⟨rest, hrest, h⟩ := bind_eq_ok.mp h
    cases h
    obtain ⟨htx, htxs⟩ := List.forall_mem_cons.mp hcodec
    have htail := ih htxs hrest
    rw [decodeTxs] at htail ⊢
    rw [List.mapM_cons, htx bytes hbytes, htail]
    rfl

/-- A served block has the header and the body that the chain has. -/
theorem getBlock_spec (hc : Complete env c) (h : c.getBlock env x = some block) :
    c.headers.lookup x = some block.header ∧ ∃ txs, decodeTxs env block.transactions = .ok txs ∧
      c.blockTxs.lookup x = if txs.isEmpty then none else some txs := by
  rw [getBlock] at h
  cases hheader : c.headers.lookup x with
  | none =>
    rw [hheader] at h
    cases h
  | some header =>
    rw [hheader] at h
    cases hbody : c.blockTxs.lookup x with
    | none =>
      rw [hbody] at h
      cases h
      exact ⟨rfl, [], rfl, rfl⟩
    | some txs =>
      simp only [hbody] at h
      cases hencode : txs.mapM env.encodeTx with
      | error e =>
        rw [hencode] at h
        cases h
      | ok encoded =>
        rw [hencode] at h
        cases encoded with
        | nil => cases h
        | cons bytes rest =>
          cases h
          refine ⟨rfl, txs, decodeTxs_of_encode (hc.bodies x txs hbody) hencode, ?_⟩
          cases txs with
          | nil => cases hencode
          | cons tx txs => rfl

/-- `d` has taken in these blocks of `c`, as they are there. -/
structure Follows (env : Env Tx) (c d : DagChain Tx) (done : List Hash) : Prop where
  anchored : Anchored env d
  origin : d.genesisDag = c.genesisDag
  tail : Tail env.fractions c.k c.genesisDag c.genesisDag c.engine d.engine
  blocks : ∀ x, x ∈ d.blocks ↔ x ∈ done
  headers : ∀ x ∈ d.blocks, d.headers.lookup x = c.headers.lookup x
  bodies : ∀ x, d.blockTxs.lookup x =
    if x ∈ done ∧ x ≠ c.genesisDag then c.blockTxs.lookup x else none

namespace Follows

/-- The origin, as a snapshot brings it. -/
theorem loaded {accounts : List (Consensus.Pubkey × Account)} {proof : List DagBlockHeader}
    (ha : Anchored env c) (ha₀ : Anchored env d₀) (hheader : c.headers.lookup c.genesisDag = some h)
    (hid : h.id env.blake3 = c.genesisDag) (hk : d₀.k = c.k)
    (hload : d₀.loadSnapshot env h accounts proof = .ok d) : Follows env c d [c.genesisDag] := by
  have hanchored := (anchored_kept env).load ha₀ hload
  obtain ⟨engine, hfresh, rfl⟩ := loadSnapshot_spec hload
  rw [hid, hk] at hfresh
  obtain ⟨hrooted, hblocks, _, _⟩ := freshEngine_rooted hfresh
  have honly : ∀ x, engine.Holds x → x = c.genesisDag :=
    fun x hx => ((hblocks x).mp hx.1).resolve_left hx.2
  constructor
  case anchored => exact hanchored
  case origin => exact hid
  case tail => exact Tail.start ha.rooted (ha.blocks _ ha.origin) hrooted honly
  case blocks =>
    intro x
    rw [Finset.mem_singleton, List.mem_singleton, hid]
  case headers =>
    intro x hx
    obtain rfl : x = h.id env.blake3 := Finset.mem_singleton.mp hx
    rw [hid, hheader]
    exact lookup_singleton.mpr ⟨rfl, rfl⟩
  case bodies =>
    intro x
    rw [if_neg fun hin => hin.2 (List.mem_singleton.mp hin.1)]
    rfl

/-- The engine gets the parents of the next block that the other one has. -/
theorem parents_eq (hf : Follows env c d done) (ha : Anchored env c) (hm : Mapped c)
    (hc : Complete env c) (ho : OrderTo c.engine c.engine.tip order)
    (hpre : done ++ [x] <+: order) (hh : c.headers.lookup x = some h) (hne : x ≠ c.genesisDag) :
    c.engine.dag.parents x = d.engineParents h.parents := by
  obtain ⟨ready, best⟩ := ha.rooted.grown.ready_best
  obtain ⟨there, hparents⟩ := hm x h hh hne
  have hmap : ∀ q ∈ h.parents, (if q ∈ there then q else c.genesisDag) =
      if q ∈ d.blocks.toList then q else c.genesisDag := by
    intro q hq
    have hparent := hc.parents x h hh hne q hq
    have hqor : q ≠ blockhash.origin :=
      fun heq => ha.rooted.origin_not_mem hne (heq ▸ hparent)
    have hless := ready.work hparent hqor
    have hin : q ∈ done ++ [x] := by
      apply ho.closed ha.rooted best.ne hpre (List.mem_append_right done (List.mem_singleton_self x))
      · rw [ready.genesis]
        exact hne
      · exact hparent
    have hdone : q ∈ done := by
      refine (List.mem_append.mp hin).resolve_right fun hself => ?_
      rw [List.mem_singleton.mp hself] at hless
      exact Nat.lt_irrefl _ hless
    rw [if_pos (Finset.mem_toList.mpr ((hf.blocks q).mpr hdone))]
    by_cases hthere : q ∈ there
    · exact if_pos hthere
    · rw [if_neg hthere]
      rw [hparents] at hparent
      have horigin := (eq_or_mem_of_keptParents hparent).resolve_right fun hk => hthere hk.2
      exact horigin.symm
  rw [engineParents_eq hf.anchored.origin, hf.origin, hparents, keptParents, keptParents,
    List.map_congr_left hmap]

/-- The next block of the order, as it is served. -/
theorem apply (hf : Follows env c d done) (ha : Anchored env c) (hm : Mapped c)
    (hc : Complete env c) (ho : OrderTo c.engine c.engine.tip order)
    (hpre : done ++ [x] <+: order) (hblock : c.getBlock env x = some block)
    (hrun : d.apply env block = .ok (.ok (), d₁)) : Follows env c d₁ (done ++ [x]) := by
  obtain ⟨hheader, txs, hdecode, hbody⟩ := getBlock_spec hc hblock
  have hid : block.id env.blake3 = x := hc.ids x block.header hheader
  have hanchored := (anchored_kept env).apply hf.anchored hrun
  rw [DagChain.apply, hid] at hrun
  rcases applyWithId_cases hrun with ⟨hold, _, rfl⟩ | ⟨hnew, engine, hadd, hrest⟩
  · have hmem := (hf.blocks x).mp hold
    have hiff : ∀ y, y ∈ done ++ [x] ↔ y ∈ done := by
      intro y
      rw [List.mem_append, List.mem_singleton]
      exact ⟨fun hy => hy.elim id fun heq => heq ▸ hmem, Or.inl⟩
    refine ⟨hanchored, hf.origin, hf.tail, fun y => ?_, hf.headers, fun y => ?_⟩
    · rw [hiff]
      exact hf.blocks y
    · rw [hf.bodies y]
      simp only [hiff]
  rcases hrest with ⟨_, _, hr, _⟩ | ⟨txs', hdecode', _, rfl⟩
  · cases hr
  cases hdecode.symm.trans hdecode'
  have hne : x ≠ c.genesisDag :=
    fun heq => hnew (heq ▸ hf.origin ▸ hf.anchored.origin)
  have hx : x ∈ c.blocks := (ha.headers x).mpr ⟨_, hheader⟩
  have hparents := hf.parents_eq ha hm hc ho hpre hheader hne
  have hps : ∀ q ∈ d.engineParents block.header.parents, d.engine.Holds q :=
    fun q hq => hf.anchored.blocks q (mem_engineParents hf.anchored.origin hq)
  constructor
  case anchored => exact hanchored
  case origin => exact hf.origin
  case tail => exact hf.tail.add (ha.blocks x hx) hparents hps hadd
  case blocks =>
    intro y
    show y ∈ insert x d.blocks ↔ _
    rw [Finset.mem_insert, hf.blocks, List.mem_append, List.mem_singleton, or_comm]
  case headers =>
    intro y hy
    show (d.headers.insert x block.header).lookup y = _
    by_cases hyx : y = x
    · rw [hyx, AList.lookup_insert, hheader]
    · rw [AList.lookup_insert_ne hyx]
      exact hf.headers y ((Finset.mem_insert.mp hy).resolve_left hyx)
  case bodies =>
    intro y
    show (if txs.isEmpty then d.blockTxs else d.blockTxs.insert x txs).lookup y = _
    have hnone : d.blockTxs.lookup x = none := by
      rw [hf.bodies x, if_neg fun hin => hnew ((hf.blocks x).mpr hin.1)]
    by_cases hyx : y = x
    · subst hyx
      have hin : y ∈ done ++ [y] ∧ y ≠ c.genesisDag :=
        ⟨List.mem_append_right done (List.mem_singleton_self y), hne⟩
      rw [if_pos hin, hbody]
      by_cases hempty : txs.isEmpty
      · rw [if_pos hempty, if_pos hempty, hnone]
      · rw [if_neg hempty, if_neg hempty, AList.lookup_insert]
    · have hiff : y ∈ done ++ [x] ↔ y ∈ done := by simp [hyx]
      simp only [hiff]
      rw [← hf.bodies y]
      by_cases hempty : txs.isEmpty
      · rw [if_pos hempty]
      · rw [if_neg hempty, AList.lookup_insert_ne hyx]

/-- The rest of the order. -/
theorem applySuffix (hf : Follows env c d done) (ha : Anchored env c) (hm : Mapped c)
    (hc : Complete env c) (ho : OrderTo c.engine c.engine.tip order)
    (hsplit : done ++ l = order) (hserved : ∀ x ∈ l, (c.getBlock env x).isSome)
    (hrun : d.applySuffix env (l.filterMap (c.getBlock env)) = .ok (.ok (), d₁)) :
    Follows env c d₁ order := by
  induction l generalizing d done with
  | nil =>
    cases hrun
    rw [← hsplit, List.append_nil]
    exact hf
  | cons x l ih =>
    obtain ⟨block, hblock⟩ := Option.isSome_iff_exists.mp (hserved x List.mem_cons_self)
    have hsplit' : (done ++ [x]) ++ l = order := by
      rw [List.append_assoc]
      exact hsplit
    rw [List.filterMap_cons_some hblock] at hrun
    obtain ⟨⟨v, d'⟩, happly, hrun⟩ := bind_eq_ok.mp hrun
    cases v with
    | error e => cases hrun
    | ok u =>
      have hnext := hf.apply ha hm hc ho ⟨l, hsplit'⟩ hblock happly
      exact ih hnext hsplit' (fun y hy => hserved y (List.mem_cons_of_mem x hy)) hrun

/-- What has the whole order is a copy. -/
theorem copies (hf : Follows env c d order) (ha : Anchored env c) (horder : c.totalOrder = .ok order)
    (hnet : d.network = c.network) : Copies env c d := by
  have best := ha.rooted.grown.ready_best.2
  have hlists := (ha.rooted.orderTo.post horder).lists ha.rooted best.ne
  constructor
  case left => exact ha
  case right => exact hf.anchored
  case tail =>
    rw [hf.origin]
    exact hf.tail
  case tip => exact (hf.blocks _).mpr ((hlists.mem _).mpr ⟨.refl, best.ne⟩)
  case subset =>
    intro x hx
    obtain ⟨h, hh⟩ := (hf.anchored.headers x).mp hx
    exact (ha.headers x).mpr ⟨h, (hf.headers x hx).symm.trans hh⟩
  case headers => exact hf.headers
  case genesisTarget => exact congrArg Network.genesisTarget hnet
  case blockTimeSecs => exact congrArg Network.blockTimeSecs hnet
  case lwmaWindow => exact congrArg Network.lwmaWindow hnet

/-- The order is executed to the same state, on the same accounts. -/
theorem rebuildState (hf : Follows env c d order) (hsame : d.totalOrder = c.totalOrder)
    (horder : c.totalOrder = .ok order) (hnet : d.network = c.network)
    (hbase : d.baseAccounts = c.baseAccounts) (haccounts : c.baseAccounts.isSome) :
    d.rebuildState env = c.rebuildState env := by
  obtain ⟨accounts, haccounts⟩ := Option.isSome_iff_exists.mp haccounts
  have haccounts' := hbase.trans haccounts
  have hfresh : d.freshBank env = c.freshBank env := by
    rw [freshBank, freshBank, openBank, openBank, seedAccounts, seedAccounts, hbase]
    simp only [haccounts]
  have hblocks : d.replayBlocks env (c.freshBank env) order =
      c.replayBlocks env (c.freshBank env) order := by
    apply replayBlocks_congr hf.origin (congrArg Network.reward hnet)
    · exact fun x hx => hf.headers x ((hf.blocks x).mpr hx)
    · intro x hx hne
      rw [hf.bodies x, if_pos ⟨hx, hne⟩]
  apply ExceptT.ext
  rw [rebuildState_eq (hsame.trans horder) (by simp [haccounts']),
    rebuildState_eq horder (by simp [haccounts]), hfresh, hblocks]

end Follows

section Copies

variable {d' : DagChain Tx}

theorem Copies.akin (h : Copies env d d') (horigin : d'.genesisDag = d.genesisDag) :
    Akin env d d' := by
  have hright : Ghostdag.DagEngine.Grown env.fractions d.k d.genesisDag d'.engine := by
    rw [← horigin]
    exact h.tail.above.grown
  obtain ⟨ready, _⟩ := h.left.rooted.grown.ready_best
  obtain ⟨ready', _⟩ := hright.ready_best
  have hparents : ∀ {x ps ps'}, d.engine.relations.lookup x = some ps →
      d'.engine.relations.lookup x = some ps' → ps = ps' := by
    intro x ps ps' hps hps'
    have hx : d'.engine.Holds x := ready'.relations.mp ⟨ps', hps'⟩
    rw [← Ghostdag.DagEngine.Ready.parents_of_lookup hps,
      ← Ghostdag.DagEngine.Ready.parents_of_lookup hps']
    by_cases hroot : x = d.genesisDag
    · rw [hroot, h.left.rooted.grown.recorded.2, hright.recorded.2]
    · exact (h.tail.parents hx (horigin ▸ hroot)).symm
  constructor
  case left => exact h.left
  case right => exact h.right
  case engine => exact h.left.rooted.grown.consistent hright hparents
  case genesisDag => exact horigin.symm
  case genesisTarget => exact h.genesisTarget.symm
  case blockTimeSecs => exact h.blockTimeSecs.symm
  case lwmaWindow => exact h.lwmaWindow.symm
  case headers => exact fun x _ hx => (h.headers x hx).symm

/-- Two nodes that build on the same tip, execute the same order and ask for the same work. -/
structure InStep (d d' : DagChain Tx) : Prop where
  tip : d'.engine.tip = d.engine.tip
  order : d'.totalOrder = d.totalOrder
  target : d'.nextTarget = d.nextTarget

/-- A copy from the origin on is a whole one. -/
theorem Copies.inStep (h : Copies env d d') (horigin : d'.genesisDag = d.genesisDag) :
    InStep d d' := by
  constructor
  case tip => exact h.tip_eq
  case order =>
    obtain ⟨before, rest, horder, horder', hto⟩ := h.totalOrder
    have hgenesis := h.left.rooted.grown.ready_best.1.genesis
    rw [horigin, ← hgenesis] at hto
    have halone : before ++ [d.engine.genesis] = [] ++ [d.engine.genesis] := hto.unique .genesis
    obtain rfl := List.append_cancel_right halone
    exact horder'.trans horder.symm
  case target =>
    rw [DagChain.nextTarget, DagChain.nextTarget, h.tip_eq]
    exact ((h.akin horigin).selectedChainTarget (h.subset h.tip) h.tip).symm

theorem Together.origin {Q : DagChain Tx → DagBlock → Prop} {c' : DagChain Tx}
    (h : Together env Q c c' d d') : d.genesisDag = c.genesisDag := by
  induction h with
  | refl => rfl
  | step _ _ _ run _ ih =>
    rcases accept_ok_cases run with ⟨_, rfl⟩ | ⟨_, log, engine, txs, _, rfl⟩
    · exact ih
    · exact ih

end Copies

theorem exportSnapshot_spec {bytes : Bytes} (h : c.exportSnapshot env = .ok (some bytes)) :
    ∃ header accounts order, c.headers.lookup c.genesisDag = some header ∧
      c.baseAccounts = some accounts ∧ c.totalOrder = .ok order ∧
      bytes = SyncSnapshot.codec.encode
        ⟨header, accounts, (order.drop 1).filterMap (c.getBlock env), c.proof⟩ := by
  rw [exportSnapshot] at h
  split at h
  case h_1 header accounts _ hheader haccounts =>
    obtain ⟨order, horder, h⟩ := bind_eq_ok.mp h
    cases h
    exact ⟨header, accounts, order, hheader, haccounts, horder, rfl⟩
  case h_2 => cases h

/-- A node that adopts what a complete peer exports has the peer's order, base accounts and proof. -/
theorem follows_of_import (ha : Anchored env c) (hm : Mapped c) (hc : Complete env c)
    (ha₀ : Anchored env d₀) (hnet : d₀.network = c.network) {bytes : Bytes}
    (hexport : c.exportSnapshot env = .ok (some bytes)) {io : Option ReplaceFault} {now : Int}
    (himport : d₀.importSnapshot env io now bytes = .ok (.ok true, d)) :
    ∃ order, c.totalOrder = .ok order ∧ Follows env c d order ∧ c.baseAccounts.isSome ∧
      d.baseAccounts = c.baseAccounts ∧ d.proof = c.proof := by
  obtain ⟨header, accounts, order, hheader, haccounts, horder, rfl⟩ :=
    exportSnapshot_spec hexport
  rcases importSnapshot_cases himport with ⟨_, hne⟩ | ⟨snap, work, hadopt, hrun⟩
  · exact absurd rfl hne
  have hsnap := hadopt.decoded
  rw [bounded_snapshot.deserialize_encode (Nat.lt_of_le_of_lt hadopt.small (by decide))] at hsnap
  cases hsnap
  obtain ⟨d₁, d₂, log, hload, happly, _, rfl⟩ := adoptSnapshot_ok hrun
  have hid : header.id env.blake3 = c.genesisDag := hc.ids _ header hheader
  have hk : d₀.k = c.k := congrArg Network.k hnet
  have hstart := Follows.loaded ha ha₀ hheader hid hk hload
  have ho := ha.rooted.orderTo.post horder
  obtain ⟨ready, best⟩ := ha.rooted.grown.ready_best
  obtain ⟨rest, hrest⟩ := (ho.lists ha.rooted best.ne).head
  have hsplit : [c.genesisDag] ++ order.drop 1 = order := by
    rw [hrest, ready.genesis]
    rfl
  have hf := hstart.applySuffix ha hm hc ho hsplit (hc.served order horder) happly
  have hanchored : Anchored env { d₂ with log, bootstrapped := true, bootstrapWork := work } :=
    (anchored_kept env).frame hf.anchored rfl rfl rfl rfl rfl
  refine ⟨order, horder, ⟨hanchored, hf.origin, hf.tail, hf.blocks, hf.headers, hf.bodies⟩,
    by rw [haccounts]; rfl, ?_⟩
  obtain ⟨_, _, rfl⟩ := loadSnapshot_spec hload
  obtain ⟨_, _, _, _, _, rfl⟩ := applySuffix_dag happly
  exact ⟨haccounts.symm, rfl⟩

/-- Bootstrap: a node of the network that adopts the snapshot of a peer has the state of the peer and
the proof of its origin, and agrees with the peer on tip, order and difficulty, also after any
further blocks that the two take in. -/
theorem bootstrap_in_step {p' : Params} {P P' : DagChain Tx → Call Tx → Prop} {file file' : Bytes}
    {bytes : Bytes} {io : Option ReplaceFault} {now : Int}
    (hopen : openWithGenesis env p file = .ok (.ok c₀)) (hrun : Reaches env P c₀ c)
    (hcomplete : Complete env c) (hexport : c.exportSnapshot env = .ok (some bytes))
    (hnet : networkOf p' = networkOf p) (hopen' : openWithGenesis env p' file' = .ok (.ok d₀))
    (hrun' : Reaches env P' d₀ d₁)
    (himport : d₁.importSnapshot env io now bytes = .ok (.ok true, d)) :
    d.proof = c.proof ∧ d.baseAccounts = c.baseAccounts ∧
      d.rebuildState env = c.rebuildState env ∧
      ∀ e e', Together env (fun _ _ => True) c d e e' → InStep e e' := by
  obtain ⟨ha, _, hm⟩ := mapped_of_reaches hopen hrun
  obtain ⟨ha₁, _, _⟩ := mapped_of_reaches hopen' hrun'
  have hnet₁ : d₁.network = c.network := by
    rw [network_of_reaches hopen' hrun', network_of_reaches hopen hrun, hnet]
  have hnetd : d.network = c.network := (importSnapshot_network himport).trans hnet₁
  obtain ⟨order, horder, hf, hsome, hbase, hproof⟩ :=
    follows_of_import ha hm hcomplete ha₁ hnet₁ hexport himport
  have hcopies := hf.copies ha horder hnetd
  have hsame := (hcopies.inStep hf.origin).order
  refine ⟨hproof, hbase, hf.rebuildState hsame horder hnetd hbase hsome, ?_⟩
  intro e e' htogether
  obtain ⟨hcopies', horigin, _⟩ := hcopies.together htogether
  exact hcopies'.inStep (horigin.trans (hf.origin.trans htogether.origin.symm))

end DagChain

section Example

open DagChain
open TaoDag.Runtime (Transaction transferEnv)

/-- What `Complete` asks for, of a chain without transactions. -/
def completeCheck (c : DagChain Transaction) : Bool :=
  (c.headers.entries.all fun e => decide (e.2.id transferEnv.blake3 = e.1) &&
    (decide (e.1 = c.genesisDag) ||
      e.2.parents.all fun q => decide (q ∈ c.engine.dag.parents e.1))) &&
  decide (c.blockTxs.keys = []) &&
  returnsWith c.totalOrder fun order =>
    (order.drop 1).all fun x => (c.getBlock transferEnv x).isSome

theorem complete_of_check {c : DagChain Transaction} (h : completeCheck c = true) :
    Complete transferEnv c := by
  simp only [completeCheck, returnsWith_iff, Bool.and_eq_true, decide_eq_true_eq, List.all_eq_true,
    Bool.or_eq_true] at h
  obtain ⟨⟨hheaders, hbodies⟩, order, horder, hserved⟩ := h
  constructor
  case ids =>
    intro x h hx
    exact (hheaders ⟨x, h⟩ (AList.mem_lookup_iff.mp hx)).1
  case parents =>
    intro x h hx hne q hq
    exact (hheaders ⟨x, h⟩ (AList.mem_lookup_iff.mp hx)).2.resolve_left hne q hq
  case served =>
    intro order' horder'
    cases horder.symm.trans horder'
    exact hserved
  case bodies =>
    intro x txs hx
    have hmem : x ∈ c.blockTxs.keys := AList.mem_keys.mp (AList.lookup_isSome.mp (by rw [hx]; rfl))
    rw [hbodies] at hmem
    cases hmem

/-- A node that is new adopts the snapshot of one that pruned to its tip and has a block more. -/
theorem bootstrap_in_step_pruned : ∃ c d : DagChain Transaction, d.blocks.card = 2 ∧
    d.proof = c.proof ∧ d.baseAccounts = c.baseAccounts ∧
    d.rebuildState transferEnv = c.rebuildState transferEnv ∧
    ∀ e e', Together transferEnv (fun _ _ => True) c d e e' → InStep e e' := by
  have hrun : returnsWith (openWithGenesis transferEnv prunableParams []) (fun o =>
      returnsWith o fun c₀ =>
        ((c₀.setFinalityDepth 1).acceptAll transferEnv 1750000500
          (c₀.mineAll transferEnv [1750000010, 1750000020])).any fun c₁ =>
        returnsWith (c₁.prune transferEnv none) fun r =>
          (r.2.acceptAll transferEnv 1750000500
            (r.2.mineAll transferEnv [1750000030])).any fun c =>
          completeCheck c && returnsWith (c.exportSnapshot transferEnv) fun exported =>
            exported.any fun bytes =>
              returnsWith (c₀.importSnapshot transferEnv none 1750000500 bytes) fun i =>
                returnsWith i.1 fun adopted =>
                  decide (adopted = true ∧ i.2.blocks.card = 2)) = true := by
    decide +kernel
  simp only [returnsWith_iff, Option.any_eq_true, Bool.and_eq_true, decide_eq_true_eq] at hrun
  obtain ⟨_, hopen, c₀, rfl, c₁, haccept, ⟨r, c₂⟩, hprune, c, haccept', hcheck, _, hexport, bytes,
    rfl, ⟨_, d⟩, himport, _, rfl, rfl, hcard⟩ := hrun
  have hdepth : StepOn transferEnv (fun _ _ => True) c₀ (c₀.setFinalityDepth 1) :=
    ⟨.setFinalityDepth 1, trivial, rfl⟩
  have hpruned : StepOn transferEnv (fun _ _ => True) c₁ c₂ :=
    ⟨.prune none, trivial, map_eq_ok.mpr ⟨_, hprune, rfl⟩⟩
  have hfirst : Reaches transferEnv (fun _ _ => True) c₀ c₁ :=
    .head hdepth (Accepts.of_acceptAll .nil haccept).reaches
  have hreach : Reaches transferEnv (fun _ _ => True) c₀ c :=
    (hfirst.tail hpruned).trans (Accepts.of_acceptAll .nil haccept').reaches
  have hnew : Reaches transferEnv (fun _ _ => True) c₀ c₀ := .refl
  exact ⟨c, d, hcard, bootstrap_in_step hopen hreach (complete_of_check hcheck) hexport rfl hopen hnew
    himport⟩

end Example

end TaoDag.Dagvm
