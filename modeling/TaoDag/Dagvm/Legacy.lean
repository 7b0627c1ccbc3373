import TaoDag.Dagvm.Finalized
import TaoDag.Dagvm.Restart

namespace TaoDag.Dagvm

open Consensus (DagBlock DagBlockHeader Pubkey)
open Database (Account BlockLog ReplaceFault)
open Ghostdag (DagEngine)
open TaoDag.Runtime (Env Transaction transferEnv)

namespace DagChain

variable {Tx : Type} {env : Env Tx} {p : Params} {c c' d d' g : DagChain Tx} {x : Hash}
  {blocks : List DagBlock}

/-- Every block is stored under the id of its header. -/
def Intrinsic (env : Env Tx) (c : DagChain Tx) : Prop :=
  ∀ {id header}, c.headers.lookup id = some header → header.id env.blake3 = id

section Intrinsic

theorem loadSnapshot_intrinsic {header : DagBlockHeader} {accounts : List (Pubkey × Account)}
    {proof : List DagBlockHeader} (h : c.loadSnapshot env header accounts proof = .ok c') :
    Intrinsic env c' := by
  obtain ⟨engine, _, rfl⟩ := loadSnapshot_spec h
  intro id header' hid
  obtain ⟨rfl, rfl⟩ := lookup_singleton.mp hid
  rfl

theorem Intrinsic.applySuffix (h : Intrinsic env c)
    (hrun : c.applySuffix env blocks = .ok (.ok (), c')) : Intrinsic env c' := by
  induction blocks generalizing c with
  | nil =>
    cases hrun
    exact h
  | cons block blocks ih =>
    obtain ⟨⟨v, c₁⟩, happly, hrun⟩ := bind_eq_ok.mp hrun
    cases v with
    | error e => cases hrun
    | ok u =>
      refine ih ?_ hrun
      rcases applyWithId_cases happly with ⟨_, _, rfl⟩ | ⟨_, engine, _, ⟨e, _, he, _⟩ | ⟨txs, _, _, rfl⟩⟩
      · exact h
      · cases he
      · intro id header hid
        change (c.headers.insert (block.id env.blake3) block.header).lookup id = some header at hid
        by_cases hne : id = block.id env.blake3
        · rw [hne, AList.lookup_insert] at hid
          cases hid
          exact hne.symm
        · rw [AList.lookup_insert_ne hne] at hid
          exact h hid

/-- New blocks under different ids are all decoded, and all stored. -/
theorem applySuffix_stores (hnodup : (blocks.map fun b => b.id env.blake3).Nodup)
    (hnew : ∀ b ∈ blocks, b.id env.blake3 ∉ c.blocks)
    (hrun : c.applySuffix env blocks = .ok (.ok (), c')) :
    (∀ b ∈ blocks, ∃ txs, decodeTxs env b.transactions = .ok txs) ∧
      ∀ id, id ∈ c'.blocks ↔ id ∈ c.blocks ∨ ∃ b ∈ blocks, b.id env.blake3 = id := by
  induction blocks generalizing c with
  | nil =>
    cases hrun
    exact ⟨nofun, fun id => by simp⟩
  | cons block blocks ih =>
    obtain ⟨hblock, hnodup⟩ := List.nodup_cons.mp hnodup
    obtain ⟨hfirst, hnew⟩ := List.forall_mem_cons.mp hnew
    obtain ⟨⟨v, c₁⟩, happly, hrun⟩ := bind_eq_ok.mp hrun
    cases v with
    | error e => cases hrun
    | ok u =>
      rcases applyWithId_cases happly with ⟨hknown, _⟩ | ⟨_, engine, _, ⟨e, _, he, _⟩ | ⟨txs, htxs, _, rfl⟩⟩
      · exact absurd hknown hfirst
      · cases he
      have hrest : ∀ b ∈ blocks, b.id env.blake3 ∉ insert (block.id env.blake3) c.blocks := by
        intro b hb hmem
        rcases Finset.mem_insert.mp hmem with heq | hmem
        · exact hblock (List.mem_map.mpr ⟨b, hb, heq⟩)
        · exact hnew b hb hmem
      obtain ⟨hdecoded, hstored⟩ := ih hnodup hrest hrun
      refine ⟨List.forall_mem_cons.mpr ⟨⟨txs, htxs⟩, hdecoded⟩, fun id => ?_⟩
      rw [hstored id]
      change id ∈ insert (block.id env.blake3) c.blocks ∨ _ ↔ _
      rw [Finset.mem_insert]
      simp only [List.mem_cons, exists_eq_or_imp]
      tauto

end Intrinsic

section Records

/-- Records of blocks that are replayed are blocks that are applied. -/
theorem applySuffix_of_replayRecords
    (hrecords : ∀ b ∈ blocks,
      LogRecord.codec.deserialize (LogRecord.block b).serialize = .ok (.block b))
    (h : replayRecords env c (blocks.map fun b => (LogRecord.block b).serialize) = .ok (.ok c')) :
    c.applySuffix env blocks = .ok (.ok (), c') := by
  induction blocks generalizing c with
  | nil =>
    cases h
    rfl
  | cons block blocks ih =>
    obtain ⟨hblock, hrecords⟩ := List.forall_mem_cons.mp hrecords
    rw [List.map_cons, replayRecords, replayRecord, hblock] at h
    obtain ⟨⟨v, c₁⟩, happly, h⟩ := bind_eq_ok.mp h
    cases v with
    | error e => cases h
    | ok u => exact bind_eq_ok.mpr ⟨_, happly, ih hrecords h⟩

/-- What a compacted log opens to: the snapshot that it starts with, and its blocks applied. -/
theorem open_compacted_iff {log : BlockLog} {header : DagBlockHeader}
    {accounts : List (Pubkey × Account)} {proof : List DagBlockHeader}
    (hg : genesis env p log = .ok g) (hattached : log.attached = true)
    (hholds : log.Holds ((LogRecord.snapshot header accounts proof).serialize ::
      blocks.map fun b => (LogRecord.block b).serialize))
    (hsnap : LogRecord.codec.deserialize (LogRecord.snapshot header accounts proof).serialize =
      .ok (.snapshot header accounts proof))
    (hrecords : ∀ b ∈ blocks,
      LogRecord.codec.deserialize (LogRecord.block b).serialize = .ok (.block b)) :
    openWithGenesis env p log.file = .ok (.ok d) ↔
      ∃ d₀, g.loadSnapshot env header accounts proof = .ok d₀ ∧
        d₀.applySuffix env blocks = .ok (.ok (), d) := by
  have hopened : BlockLog.openAt log.file = log := by
    cases log
    cases hattached
    rfl
  rw [openWithGenesis, hopened]
  constructor
  · intro h
    obtain ⟨_, hg', h⟩ := bind_eq_ok.mp h
    cases hg.symm.trans hg'
    rw [BlockLog.readAll_of_holds hholds] at h
    obtain ⟨⟨v, d₀⟩, hfirst, h⟩ := bind_eq_ok.mp h
    rw [replayRecord, hsnap] at hfirst
    obtain ⟨_, hload, hfirst⟩ := bind_eq_ok.mp hfirst
    cases hfirst
    exact ⟨d₀, hload, applySuffix_of_replayRecords hrecords h⟩
  · rintro ⟨d₀, hload, hsuffix⟩
    refine bind_eq_ok.mpr ⟨g, hg, ?_⟩
    rw [BlockLog.readAll_of_holds hholds]
    refine bind_eq_ok.mpr ⟨(.ok (), d₀), ?_, replayRecords_suffix hrecords hsuffix⟩
    rw [replayRecord, hsnap]
    exact bind_eq_ok.mpr ⟨d₀, hload, rfl⟩

end Records

section Reroot

variable {pt : Hash} {kept done suffix : List Hash} {e e' : DagEngine}

theorem getBlock_header {id : Hash} {block : DagBlock} (h : c.getBlock env id = some block) :
    c.headers.lookup id = some block.header := by
  rw [getBlock] at h
  cases hheader : c.headers.lookup id with
  | none =>
    rw [hheader] at h
    cases h
  | some header =>
    simp only [hheader] at h
    split at h
    · cases h
      rfl
    · split at h
      · cases h
      · cases h
      · cases h
        rfl

/-- Without any bodies, the blocks are served without transactions. -/
theorem getBlock_bare (hbare : c.blockTxs.entries = []) {id : Hash} {header : DagBlockHeader}
    (hheader : c.headers.lookup id = some header) : c.getBlock env id = some ⟨header, []⟩ := by
  have hbody : c.blockTxs.lookup id = none := by
    refine AList.lookup_eq_none.mpr fun hmem => ?_
    change id ∈ c.blockTxs.entries.map Sigma.fst at hmem
    rw [hbare] at hmem
    cases hmem
  rw [getBlock, hheader, hbody]

/-- A block is put into the new engine at most once. -/
theorem Reroots.nodup (h : Reroots env c pt kept done e) (hpt : pt ∈ kept)
    (hor : blockhash.origin ∉ kept)
    (hrun : suffix.foldlM (fun engine id => do
      let header ← expect "kept block has a header" (c.headers.lookup id)
      engine.addBlock env.fractions id (keptParents kept pt header.parents)) e = .ok e') :
    suffix.Nodup ∧ ∀ x ∈ suffix, x ≠ pt ∧ x ∉ done := by
  induction suffix generalizing e done with
  | nil => exact ⟨List.nodup_nil, nofun⟩
  | cons id suffix ih =>
    rw [List.foldlM_cons] at hrun
    obtain ⟨e₁, hstep, hrun⟩ := bind_eq_ok.mp hrun
    obtain ⟨header, hheader, hadd⟩ := bind_eq_ok.mp hstep
    rw [expect_eq_ok] at hheader
    obtain ⟨hnext, hnew, _⟩ := h.step hpt hor hheader hadd
    obtain ⟨hnodup, hapart⟩ := ih hnext hrun
    rw [h.blocks, not_or, not_or] at hnew
    refine ⟨List.nodup_cons.mpr ⟨fun hmem => ?_, hnodup⟩, List.forall_mem_cons.mpr ⟨hnew.2, ?_⟩⟩
    · exact (hapart id hmem).2 (List.mem_append_right _ (List.mem_singleton.mpr rfl))
    · exact fun x hx => ⟨(hapart x hx).1, fun hdone => (hapart x hx).2 (List.mem_append_left _ hdone)⟩

/-- A chain that has replayed the kept blocks of `done`: it has the engine that `prune` built of
them. -/
structure Refills (c : DagChain Tx) (pt : Hash) (done : List Hash) (e : DagEngine)
    (d : DagChain Tx) : Prop where
  engine : d.engine = e
  origin : d.genesisDag = pt
  blocks : ∀ x, x ∈ d.blocks ↔ x = pt ∨ x ∈ done
  headers : ∀ x, d.headers.lookup x =
    if x = pt ∨ x ∈ done then c.headers.lookup x else none

/-- The kept parents of the next block were replayed before it. -/
theorem Refills.engineParents (h : Refills c pt done e d) (hpt : pt ∈ kept)
    (hdone : ∀ q ∈ done, q ∈ kept) {ps : List Hash}
    (hknown : ∀ q ∈ ps, q ∈ kept → q = pt ∨ q ∈ done) :
    d.engineParents ps = keptParents kept pt ps := by
  have hmap : (ps.map fun q => if q = d.genesisDag ∨ q ∈ d.blocks then q else d.genesisDag) =
      ps.map fun q => if q ∈ kept then q else pt := by
    refine List.map_congr_left fun q hq => ?_
    rw [h.origin]
    by_cases hkept : q ∈ kept
    · rw [if_pos (Or.inr ((h.blocks q).mpr (hknown q hq hkept))), if_pos hkept]
    · rw [if_neg hkept, if_neg]
      rintro (rfl | hmem)
      · exact hkept hpt
      · rcases (h.blocks q).mp hmem with rfl | hmem
        · exact hkept hpt
        · exact hkept (hdone q hmem)
  obtain rfl := h.origin
  rw [DagChain.engineParents, hmap]
  rfl

/-- A kept block that is stored under the id of its header is replayed as `prune` puts it into the
new engine. -/
theorem Refills.step (h : Refills c pt done e d) (hre : Reroots env c pt kept done e)
    (hpt : pt ∈ kept) (hor : blockhash.origin ∉ kept) (hdone : ∀ q ∈ done, q ∈ kept)
    {block : DagBlock} {txs : List Tx} (hblock : c.getBlock env x = some block)
    (hid : block.id env.blake3 = x) (hdecoded : decodeTxs env block.transactions = .ok txs)
    (hadd : e.addBlock env.fractions x (keptParents kept pt block.header.parents) = .ok e') :
    ∃ d', d.apply env block = .ok (.ok (), d') ∧ Refills c pt (done ++ [x]) e' d' := by
  have hheader := getBlock_header hblock
  obtain ⟨_, hnew, hknown⟩ := hre.step hpt hor hheader hadd
  have hparents : d.engineParents block.header.parents =
      keptParents kept pt block.header.parents := by
    refine h.engineParents hpt hdone fun q hq hkept => ?_
    have hmem := (hre.blocks q).mp (hknown q (mem_keptParents_of_mem hq hkept))
    exact hmem.resolve_left fun heq => hor (heq ▸ hkept)
  rw [hre.blocks, not_or] at hnew
  have hfresh : x ∉ d.blocks := fun hmem => hnew.2 ((h.blocks x).mp hmem)
  refine ⟨{ d with engine := e' }.insertBlock block x txs, ?_, rfl, h.origin, fun y => ?_, fun y => ?_⟩
  · rw [DagChain.apply, hid, applyWithId, if_neg hfresh, hparents, h.engine]
    refine bind_eq_ok.mpr ⟨e', hadd, ?_⟩
    rw [hdecoded]
    rfl
  · change y ∈ insert x d.blocks ↔ _
    rw [Finset.mem_insert, h.blocks, List.mem_append, List.mem_singleton]
    tauto
  · change (d.headers.insert x block.header).lookup y = _
    by_cases hy : y = x
    · subst hy
      rw [AList.lookup_insert, if_pos (Or.inr (List.mem_append_right _ (List.mem_singleton.mpr rfl))),
        hheader]
    · rw [AList.lookup_insert_ne hy, h.headers]
      simp only [List.mem_append, List.mem_singleton, hy, or_false]

/-- So are all kept blocks, in their order. -/
theorem Refills.fold (h : Refills c pt done e d) (hre : Reroots env c pt kept done e)
    (hpt : pt ∈ kept) (hor : blockhash.origin ∉ kept) (hdone : ∀ q ∈ done, q ∈ kept)
    (hsuffix : ∀ x ∈ suffix, x ∈ kept)
    (hserved : ∀ x ∈ suffix, ∃ block txs, c.getBlock env x = some block ∧
      block.id env.blake3 = x ∧ decodeTxs env block.transactions = .ok txs)
    (hrun : suffix.foldlM (fun engine id => do
      let header ← expect "kept block has a header" (c.headers.lookup id)
      engine.addBlock env.fractions id (keptParents kept pt header.parents)) e = .ok e') :
    ∃ d', d.applySuffix env (suffix.filterMap (c.getBlock env)) = .ok (.ok (), d') ∧
      Refills c pt (done ++ suffix) e' d' := by
  induction suffix generalizing e d done with
  | nil =>
    cases hrun
    rw [List.append_nil]
    exact ⟨d, rfl, h⟩
  | cons x suffix ih =>
    obtain ⟨hx, hsuffix⟩ := List.forall_mem_cons.mp hsuffix
    obtain ⟨⟨block, txs, hblock, hid, hdecoded⟩, hserved⟩ := List.forall_mem_cons.mp hserved
    rw [List.foldlM_cons] at hrun
    obtain ⟨e₁, hstep, hrun⟩ := bind_eq_ok.mp hrun
    obtain ⟨header, hheader, hadd⟩ := bind_eq_ok.mp hstep
    rw [expect_eq_ok, getBlock_header hblock] at hheader
    cases hheader
    obtain ⟨d₁, happly, hd₁⟩ := h.step hre hpt hor hdone hblock hid hdecoded hadd
    have hdone₁ : ∀ q ∈ done ++ [x], q ∈ kept := by
      intro q hq
      rcases List.mem_append.mp hq with hq | hq
      · exact hdone q hq
      · exact List.mem_singleton.mp hq ▸ hx
    obtain ⟨d', hrest, hd'⟩ := ih hd₁ (hre.step hpt hor (getBlock_header hblock) hadd).1 hdone₁
      hsuffix hserved hrun
    refine ⟨d', ?_, by rwa [List.append_cons]⟩
    rw [List.filterMap_cons_some hblock]
    exact bind_eq_ok.mpr ⟨_, happly, hrest⟩

end Reroot

/-- A chain whose vectors have lengths that a `u64` holds, and that serves such blocks. -/
structure Fits (env : Env Tx) (c : DagChain Tx) : Prop where
  headers : ∀ {id header}, c.headers.lookup id = some header → header.Fits
  blocks : ∀ {id block}, c.getBlock env id = some block → block.Fits
  accounts : ∀ {accounts}, c.baseAccounts = some accounts → accountsCodec.Fits accounts
  proof : (Codec.vec DagBlockHeader.codec).Fits c.proof

/-- The chain `d` has the ids of `c` in the same order, and each block under the id that its
children name it by. -/
structure Survives (c d : DagChain Tx) : Prop where
  blocks : ∀ id, id ∈ d.blocks ↔ id ∈ c.blocks
  order : d.totalOrder = c.totalOrder
  named : ∀ id, d.headers.lookup id = c.headers.lookup id

/-- From the pruning point on, each block is stored under the id of its header, and those after it
are served with transactions that decode. -/
structure Rewritable (env : Env Tx) (c : DagChain Tx) (order : List Hash) (i : Nat) : Prop where
  intrinsic : ∀ id ∈ order.drop i, ∀ header, c.headers.lookup id = some header →
    header.id env.blake3 = id
  served : ∀ id ∈ order.drop (i + 1), ∃ block txs, c.getBlock env id = some block ∧
    decodeTxs env block.transactions = .ok txs

theorem kept_k (env : Env Tx) (k : Nat) : Kept env fun c => c.k = k where
  frame h _ hk _ _ _ := hk.trans h
  apply h hrun := by
    rcases applyWithId_cases hrun with ⟨_, _, rfl⟩ | ⟨_, _, _, ⟨_, _, _, rfl⟩ | ⟨_, _, _, rfl⟩⟩ <;>
      exact h
  load h hrun := by
    obtain ⟨engine, _, rfl⟩ := loadSnapshot_spec hrun
    exact h
  prune h hrun := by
    rcases prune_cases hrun with ⟨log, rfl, _⟩ |
      ⟨order, i, pt, bank, e, header, log, _, _, _, _, _, _, _, _, rfl⟩ <;>
      exact h

theorem genesis_k {log : BlockLog} (h : genesis env p log = .ok c) : c.k = p.k := by
  obtain ⟨engine, _, h⟩ := bind_eq_ok.mp h
  cases h
  rfl

/-- Pruning drops nothing of a kept block. -/
theorem getBlock_reanchored {engine : DagEngine} {log : BlockLog} {pt : Hash} {suffix : List Hash}
    {base : List (Pubkey × Account)} {proof : List DagBlockHeader} {id : Hash}
    (hid : id ∈ pt :: suffix) :
    (c.reanchored engine log pt suffix base proof).getBlock env id = c.getBlock env id := by
  have hheaders : (restrict c.headers (pt :: suffix)).lookup id = c.headers.lookup id := by
    rw [restrict_lookup, if_pos hid]
  have hbodies : (restrict c.blockTxs (pt :: suffix)).lookup id = c.blockTxs.lookup id := by
    rw [restrict_lookup, if_pos hid]
  rw [getBlock, getBlock]
  simp only [reanchored, hheaders, hbodies]

/-- The served blocks of ids are blocks with these ids. -/
theorem filterMap_getBlock_ids {ids : List Hash}
    (hids : ∀ id ∈ ids, ∀ block, c.getBlock env id = some block → block.id env.blake3 = id) :
    List.Sublist ((ids.filterMap (c.getBlock env)).map fun b => b.id env.blake3) ids := by
  induction ids with
  | nil => exact .slnil
  | cons id ids ih =>
    obtain ⟨hid, hids⟩ := List.forall_mem_cons.mp hids
    cases hblock : c.getBlock env id with
    | none =>
      rw [List.filterMap_cons_none hblock]
      exact (ih hids).cons id
    | some block =>
      rw [List.filterMap_cons_some hblock, List.map_cons, hid block hblock]
      exact (ih hids).cons_cons id

section Compacted

variable {pt : Hash} {suffix : List Hash} {e : DagEngine} {header : DagBlockHeader}
  {accounts : List (Pubkey × Account)} {proof : List DagBlockHeader}

/-- What `prune` wrote is replayed to the kept blocks, if each has the id of its header. -/
theorem refills_of_rewritable (hor : blockhash.origin ∉ pt :: suffix) (hk : g.k = c.k)
    (he : c.rerootEngine env pt suffix = .ok e) (hheader : c.headers.lookup pt = some header)
    (hid : header.id env.blake3 = pt)
    (hserved : ∀ x ∈ suffix, ∃ block txs, c.getBlock env x = some block ∧
      block.id env.blake3 = x ∧ decodeTxs env block.transactions = .ok txs) :
    ∃ d₀ d, g.loadSnapshot env header accounts proof = .ok d₀ ∧
      d₀.applySuffix env (suffix.filterMap (c.getBlock env)) = .ok (.ok (), d) ∧
      Refills c pt suffix e d := by
  obtain ⟨e₀, hfresh, hfold⟩ := bind_eq_ok.mp he
  have hload : ∃ d₀, g.loadSnapshot env header accounts proof = .ok d₀ ∧ Refills c pt [] e₀ d₀ := by
    refine ⟨_, bind_eq_ok.mpr ⟨e₀, ?_, rfl⟩, rfl, hid, fun x => ?_, fun x => ?_⟩
    · rw [hid, hk]
      exact hfresh
    · change x ∈ ({header.id env.blake3} : Finset Hash) ↔ _
      rw [hid, Finset.mem_singleton]
      simp
    · change (AList.singleton (header.id env.blake3) header : BlockHashMap DagBlockHeader).lookup x = _
      rw [hid]
      by_cases hx : x = pt
      · rw [hx, if_pos (Or.inl rfl), hheader]
        exact lookup_singleton.mpr ⟨rfl, rfl⟩
      · rw [if_neg (by simp [hx])]
        exact AList.lookup_eq_none.mpr fun hmem => hx (List.mem_singleton.mp hmem)
  obtain ⟨d₀, hload, hd₀⟩ := hload
  obtain ⟨d, hrest, hd⟩ := hd₀.fold (freshEngine_reroots hfresh) List.mem_cons_self hor nofun
    (fun x hx => List.mem_cons_of_mem pt hx) hserved hfold
  exact ⟨d₀, d, hload, hrest, hd⟩

/-- A chain that was replayed from what `prune` wrote stores each block under the id of its header,
and has no others than the served ones. -/
theorem rewritable_of_stored (hor : blockhash.origin ∉ pt :: suffix)
    (he : c.rerootEngine env pt suffix = .ok e) (hheader : c.headers.lookup pt = some header)
    (hload : g.loadSnapshot env header accounts proof = .ok d')
    (hreplay : d'.applySuffix env (suffix.filterMap (c.getBlock env)) = .ok (.ok (), d))
    (hnamed : ∀ id ∈ pt :: suffix, d.headers.lookup id = c.headers.lookup id)
    (hblocks : ∀ id ∈ suffix, id ∈ d.blocks) :
    (∀ id ∈ pt :: suffix, ∀ header, c.headers.lookup id = some header →
      header.id env.blake3 = id) ∧
    ∀ id ∈ suffix, ∃ block txs, c.getBlock env id = some block ∧
      decodeTxs env block.transactions = .ok txs := by
  have hintrinsic : ∀ id ∈ pt :: suffix, ∀ header, c.headers.lookup id = some header →
      header.id env.blake3 = id := by
    intro id hid header' hheader'
    rw [← hnamed id hid] at hheader'
    exact Intrinsic.applySuffix (loadSnapshot_intrinsic hload) hreplay hheader'
  have hids : ∀ id ∈ suffix, ∀ block, c.getBlock env id = some block →
      block.id env.blake3 = id := fun id hid block hblock =>
    hintrinsic id (List.mem_cons_of_mem pt hid) _ (getBlock_header hblock)
  obtain ⟨e₀, hfresh, hfold⟩ := bind_eq_ok.mp he
  obtain ⟨hnodup, hapart⟩ := (freshEngine_reroots hfresh).nodup List.mem_cons_self hor hfold
  have hpt : header.id env.blake3 = pt := hintrinsic pt List.mem_cons_self header hheader
  have hfirst : ∀ x, x ∈ d'.blocks ↔ x = pt := by
    obtain ⟨_, _, rfl⟩ := loadSnapshot_spec hload
    intro x
    change x ∈ ({header.id env.blake3} : Finset Hash) ↔ _
    rw [hpt, Finset.mem_singleton]
  obtain ⟨hdecoded, hstored⟩ := applySuffix_stores (hnodup.sublist (filterMap_getBlock_ids hids))
    (fun b hb hmem => by
      obtain ⟨id, hid, hblock⟩ := List.mem_filterMap.mp hb
      rw [hids id hid b hblock] at hmem
      exact (hapart id hid).1 ((hfirst id).mp hmem)) hreplay
  refine ⟨hintrinsic, fun id hid => ?_⟩
  rcases (hstored id).mp (hblocks id hid) with hmem | ⟨b, hb, hbid⟩
  · exact absurd ((hfirst id).mp hmem) (hapart id hid).1
  · obtain ⟨id', hid', hblock⟩ := List.mem_filterMap.mp hb
    obtain ⟨txs, htxs⟩ := hdecoded b hb
    rw [hids id' hid' b hblock] at hbid
    exact ⟨b, txs, hbid ▸ hblock, htxs⟩

end Compacted

/-- A prune survives a restart exactly when no kept block has another id than its header, and the
kept blocks are served. -/
theorem prune_survives_iff {file : Bytes} {c₀ : DagChain Tx} {io : Option ReplaceFault} {n i : Nat}
    {order : List Hash} (hopen : openWithGenesis env p file = .ok (.ok c₀))
    (hrun : Reaches env (fun _ _ => True) c₀ c) (horder : c.totalOrder = .ok order)
    (hpoint : c.prunePoint order = .ok (some i)) (hprune : c.prune env io = .ok (.ok n, c'))
    (hfits : Fits env c') :
    (∃ d, openWithGenesis env p c'.log.file = .ok (.ok d) ∧ Survives c' d) ↔
      Rewritable env c order i := by
  have hanchored := anchored_of_reaches hopen hrun
  have hk : c.k = p.k := (kept_k env p.k).reaches (fun hg => genesis_k hg) hopen hrun
  rcases prune_at horder hpoint hprune with ⟨_, _, h, _⟩ |
    ⟨pt, bank, e, header, log, hpt, _, he, hheader, hlog, _, rfl⟩
  · cases h
  have hor := hanchored.origin_not_kept horder hpt
  have hdrop : order.drop i = pt :: order.drop (i + 1) := by
    obtain ⟨hlt, hget⟩ := List.getElem?_eq_some_iff.mp hpt
    rw [← hget, List.cons_getElem_drop_succ]
  have hstored : ∀ id, (restrict c.headers (pt :: order.drop (i + 1))).lookup id =
      if id ∈ pt :: order.drop (i + 1) then c.headers.lookup id else none :=
    restrict_lookup c.headers (pt :: order.drop (i + 1))
  -- the records that were written are read back
  have hsnap : LogRecord.codec.deserialize
      (LogRecord.snapshot header bank.db.dump (c.buildProofFor env pt)).serialize =
      .ok (.snapshot header bank.db.dump (c.buildProofFor env pt)) := by
    have hkept : (restrict c.headers (pt :: order.drop (i + 1))).lookup pt = some header := by
      rw [hstored, if_pos List.mem_cons_self, hheader]
    have hrecord : LogRecord.codec.Fits
        (.snapshot header bank.db.dump (c.buildProofFor env pt)) :=
      ⟨DagBlockHeader.codec_fits (hfits.headers hkept), hfits.accounts rfl, hfits.proof⟩
    exact LogRecord.codec.deserialize_encode hrecord
  have hrecords : ∀ b ∈ (order.drop (i + 1)).filterMap (c.getBlock env),
      LogRecord.codec.deserialize (LogRecord.block b).serialize = .ok (.block b) := by
    intro b hb
    obtain ⟨id, hid, hblock⟩ := List.mem_filterMap.mp hb
    exact LogRecord.deserialize_block
      (hfits.blocks ((getBlock_reanchored (List.mem_cons_of_mem pt hid)).trans hblock))
  obtain ⟨g₀, hg₀, _⟩ := bind_eq_ok.mp hopen
  have hg : genesis env p log = .ok { g₀ with log } := genesis_log hg₀
  obtain ⟨hattached, hholds⟩ := holds_of_replaceAll hlog
  have hopens : ∀ d, openWithGenesis env p log.file = .ok (.ok d) ↔ _ := fun d =>
    open_compacted_iff hg hattached hholds hsnap hrecords
  constructor
  · rintro ⟨d, hd, hsurvives⟩
    obtain ⟨d₀, hload, hreplay⟩ := (hopens d).mp hd
    obtain ⟨hintrinsic, hserved⟩ := rewritable_of_stored hor he hheader hload hreplay
      (fun id hid => (hsurvives.named id).trans ((hstored id).trans (if_pos hid)))
      (fun id hid => (hsurvives.blocks id).mpr
        (List.mem_toFinset.mpr (List.mem_cons_of_mem pt hid)))
    exact ⟨hdrop ▸ hintrinsic, hserved⟩
  · intro hrewritable
    obtain ⟨d₀, d, hload, hreplay, hd⟩ := refills_of_rewritable (g := { g₀ with log }) hor
      ((genesis_k hg).trans hk.symm) he hheader
      (hrewritable.intrinsic pt (hdrop ▸ List.mem_cons_self) header hheader)
      (fun x hx => by
        obtain ⟨block, txs, hblock, hdecoded⟩ := hrewritable.served x hx
        refine ⟨block, txs, hblock, ?_, hdecoded⟩
        exact hrewritable.intrinsic x (hdrop ▸ List.mem_cons_of_mem pt hx) _ (getBlock_header hblock))
    refine ⟨d, (hopens d).mpr ⟨d₀, hload, hreplay⟩, fun id => ?_, ?_, fun id => ?_⟩
    · rw [hd.blocks]
      exact (List.mem_toFinset.trans List.mem_cons).symm
    · rw [totalOrder, hd.engine]
      rfl
    · rw [hd.headers]
      refine Eq.symm ((hstored id).trans ?_)
      simp only [List.mem_cons]

end DagChain

section Example

open DagChain

/-- A block in the legacy format. -/
def legacyChild (parents : List Hash) (timestamp : BitVec 64) : LegacyDagBlock where
  header :=
    { version := 1
      parents
      timestamp
      txMerkleRoot := 0
      target := BitVec.allOnes 256
      nonce := 0
      miner := 0 }
  transactions := []

/-- A log whose first block is a legacy one, with two blocks in the current format on it. -/
def mixedLog : Bytes :=
  let first := legacyChild [easyGenesis] 1750000010
  let second := easyBlock Blake3.hash [legacyBlockId Blake3.hash first.header] [] 1750000020 []
  let third := easyBlock Blake3.hash [second.id Blake3.hash] [] 1750000030 []
  BlockLog.frame (legacyLogRecordCodec.encode first) ++
    BlockLog.frame (LogRecord.block second).serialize ++
    BlockLog.frame (LogRecord.block third).serialize

/-- The two blocks in the current format. -/
def mixedIds : List Hash :=
  [0x39792117da3231e3eaa5234a85ba65d81dc2c34aaba43af4967cce8ceecfca00,
    0x68643f5df61e86bdac1e71d9773fef27c3a3f316688140037ab0511269f5b7c2]

/-- A prune that drops the legacy block survives a restart. -/
theorem mixed_survives : ∃ (c₀ c' d : DagChain Transaction),
    openWithGenesis transferEnv prunableParams mixedLog = .ok (.ok c₀) ∧
    (c₀.setFinalityDepth 2).prune transferEnv none = .ok (.ok 2, c') ∧
    openWithGenesis transferEnv prunableParams c'.log.file = .ok (.ok d) ∧ Survives c' d := by
  have hrun : returnsWith (openWithGenesis transferEnv prunableParams mixedLog) (fun o =>
      returnsWith o fun c₀ =>
        returnsWith (c₀.setFinalityDepth 2).totalOrder fun order =>
          returnsWith ((c₀.setFinalityDepth 2).prunePoint order) fun point =>
            decide (point = some 2 ∧ order.drop 2 = mixedIds) &&
            mixedIds.all (fun id => (c₀.headers.lookup id).any fun header =>
              decide (header.id transferEnv.blake3 = id)) &&
            decide (c₀.blockTxs.entries = []) &&
            returnsWith ((c₀.setFinalityDepth 2).prune transferEnv none) fun r =>
              returnsWith r.1 fun n => r.2.baseAccounts.any fun accounts =>
                decide (n = 2 ∧ r.2.blockTxs.entries = [] ∧ accounts.length < 2^64 ∧
                  r.2.proof.length < 2^64 ∧
                  (∀ a ∈ accounts, a.2.data.length < 2^64) ∧
                  (∀ h ∈ r.2.proof, h.parents.length < 2^64 ∧ h.interlink.length < 2^64) ∧
                  ∀ e ∈ r.2.headers.entries,
                    e.2.parents.length < 2^64 ∧ e.2.interlink.length < 2^64)) = true := by
    decide +kernel
  simp only [returnsWith_iff, Option.any_eq_true, Bool.and_eq_true, decide_eq_true_eq,
    List.all_eq_true] at hrun
  obtain ⟨_, hopen, c₀, rfl, order, horder, _, hpoint, ⟨⟨⟨rfl, hdrop⟩, hids⟩, hbare⟩, ⟨_, c'⟩, hprune,
    n, rfl, accounts, haccounts, rfl, hbare', hcount, hlength, hdata, hproof, hheaders⟩ := hrun
  have hdepth : Reaches transferEnv (fun _ _ => True) c₀ (c₀.setFinalityDepth 2) :=
    .single ⟨.setFinalityDepth 2, trivial, rfl⟩
  have hkept : ∀ {id : Hash} {header : DagBlockHeader}, c'.headers.lookup id = some header →
      header.Fits := fun hid => hheaders _ (AList.mem_lookup_iff.mp hid)
  have hfits : Fits transferEnv c' := by
    refine ⟨hkept, fun {id block} hblock => ?_, fun {_} h => ?_, hlength, fun h hh => ?_⟩
    · have hheader := getBlock_header hblock
      have hempty := Option.some.inj (hblock.symm.trans (getBlock_bare hbare' hheader))
      rw [hempty]
      exact ⟨hkept hheader, Nat.two_pow_pos 64, nofun⟩
    · cases haccounts.symm.trans h
      exact ⟨hcount, fun a ha => ⟨trivial, trivial, hdata a ha, trivial, trivial, trivial⟩⟩
    · exact DagBlockHeader.codec_fits (hproof h hh)
  have hrewritable : Rewritable transferEnv (c₀.setFinalityDepth 2) order 2 := by
    refine ⟨fun id hid header hheader => ?_, fun id hid => ?_⟩
    · rw [hdrop] at hid
      obtain ⟨header', hheader', hintrinsic⟩ := hids id hid
      cases hheader.symm.trans hheader'
      exact hintrinsic
    · have hmem : id ∈ mixedIds := by
        rw [← hdrop]
        exact List.drop_subset_drop_left order (Nat.le_succ 2) hid
      obtain ⟨header, hheader, _⟩ := hids id hmem
      exact ⟨_, [], getBlock_bare hbare hheader, rfl⟩
  obtain ⟨d, hd, hsurvives⟩ :=
    (prune_survives_iff hopen hdepth horder hpoint hprune hfits).mpr hrewritable
  exact ⟨c₀, c', d, hopen, hprune, hd, hsurvives⟩

/-- A log of three legacy blocks. -/
def legacyLog : Bytes :=
  let first := legacyChild [easyGenesis] 1750000010
  let second := legacyChild [legacyBlockId Blake3.hash first.header] 1750000020
  let third := legacyChild [legacyBlockId Blake3.hash second.header] 1750000030
  [first, second, third].flatMap fun block => BlockLog.frame (legacyLogRecordCodec.encode block)

/-- After a prune that keeps legacy blocks and a restart, the origin and its child have other ids,
and the child names an unknown parent. -/
theorem legacy_renamed : ∃ (c₀ c' d : DagChain Transaction) (id : Hash) (child : DagBlockHeader),
    openWithGenesis transferEnv prunableParams legacyLog = .ok (.ok c₀) ∧
    (c₀.setFinalityDepth 2).prune transferEnv none = .ok (.ok 2, c') ∧
    openWithGenesis transferEnv prunableParams c'.log.file = .ok (.ok d) ∧
    c'.genesisDag ∉ d.blocks ∧ d.headers.lookup id = some child ∧ child.parents = [c'.genesisDag] ∧
    ¬Survives c' d := by
  have hrun : returnsWith (openWithGenesis transferEnv prunableParams legacyLog) (fun o =>
      returnsWith o fun c₀ =>
        returnsWith ((c₀.setFinalityDepth 2).prune transferEnv none) fun r =>
          returnsWith r.1 fun n =>
            returnsWith (openWithGenesis transferEnv prunableParams r.2.log.file) fun o' =>
              returnsWith o' fun d => (d.headers.lookup d.engine.tip).any fun child =>
                decide (n = 2 ∧ r.2.genesisDag ∈ r.2.blocks ∧ r.2.genesisDag ∉ d.blocks ∧
                  child.parents = [r.2.genesisDag])) = true := by
    decide +kernel
  simp only [returnsWith_iff, Option.any_eq_true, decide_eq_true_eq] at hrun
  obtain ⟨_, hopen, c₀, rfl, ⟨_, c'⟩, hprune, n, rfl, _, hopen', d, rfl, child, hchild, rfl, horigin,
    hgone, hparents⟩ := hrun
  exact ⟨c₀, c', d, _, child, hopen, hprune, hopen', hgone, hchild, hparents,
    fun h => hgone ((h.blocks _).mpr horigin)⟩

end Example

end TaoDag.Dagvm
