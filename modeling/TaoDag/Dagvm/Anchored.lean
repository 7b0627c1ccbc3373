import TaoDag.Dagvm.Kept
import TaoDag.Ghostdag.Order

namespace TaoDag.Dagvm.DagChain

open Consensus (DagBlock DagBlockHeader)
open Database (Account AppendFault BlockLog ReplaceFault)
open Ghostdag (DagEngine)
open Ghostdag.DagEngine (Rooted)
open TaoDag.Runtime (Env)

variable {Tx : Type} {env : Env Tx} {p : Params} {c c' : DagChain Tx}

/-- A chain whose engine is built over its origin and holds its blocks, which have the headers
and all parents that the engine names. -/
structure Anchored (env : Env Tx) (c : DagChain Tx) : Prop where
  rooted : Rooted env.fractions c.k c.genesisDag c.engine
  origin : c.genesisDag ∈ c.blocks
  blocks : ∀ x ∈ c.blocks, x ∈ c.engine.dag.blocks ∧ x ≠ blockhash.origin
  headers : ∀ x, x ∈ c.blocks ↔ ∃ h, c.headers.lookup x = some h
  closed : ∀ x, ∀ q ∈ c.engine.dag.parents x, q ∈ c.blocks ∨ q = blockhash.origin

theorem mem_dedupFirst {seen ps : List Hash} {x : Hash} (hx : x ∈ dedupFirst seen ps) : x ∈ ps := by
  induction ps generalizing seen with
  | nil => exact hx
  | cons q ps ih =>
    rw [dedupFirst] at hx
    by_cases hq : q ∈ seen
    · rw [if_pos hq] at hx
      exact List.mem_cons_of_mem _ (ih hx)
    · rw [if_neg hq] at hx
      rcases List.mem_cons.mp hx with rfl | hx
      · exact List.mem_cons_self
      · exact List.mem_cons_of_mem _ (ih hx)

theorem mem_dedupFirst_of_mem {seen ps : List Hash} {x : Hash} (hx : x ∈ ps) (hs : x ∉ seen) :
    x ∈ dedupFirst seen ps := by
  induction ps generalizing seen with
  | nil => exact hx
  | cons q ps ih =>
    rw [dedupFirst]
    by_cases hq : q ∈ seen
    · rw [if_pos hq]
      rcases List.mem_cons.mp hx with rfl | hx
      · exact absurd hq hs
      · exact ih hx hs
    · rw [if_neg hq]
      by_cases hxq : x = q
      · rw [hxq]
        exact List.mem_cons_self
      · refine List.mem_cons_of_mem q (ih ((List.mem_cons.mp hx).resolve_left hxq) fun hmem => ?_)
        exact (List.mem_cons.mp hmem).elim hxq hs

/-- Parents without repetitions, and `origin` in place of none. -/
theorem mem_dedupFirst_or {ps : List Hash} {origin x : Hash} :
    x ∈ (match dedupFirst [] ps with
      | [] => [origin]
      | ps => ps) ↔ x ∈ ps ∨ ps = [] ∧ x = origin := by
  have hiff : x ∈ dedupFirst [] ps ↔ x ∈ ps :=
    ⟨mem_dedupFirst, fun hx => mem_dedupFirst_of_mem hx List.not_mem_nil⟩
  cases ps with
  | nil => simp [dedupFirst]
  | cons q ps =>
    rw [← hiff]
    simp [dedupFirst]

/-- The engine gets the known parents of a block, and the origin for the others. -/
theorem eq_or_mem_of_engineParents {ps : List Hash} {x : Hash} (hx : x ∈ c.engineParents ps) :
    x = c.genesisDag ∨ x ∈ ps ∧ x ∈ c.blocks := by
  rcases mem_dedupFirst_or.mp hx with hx | ⟨_, rfl⟩
  · obtain ⟨q, hq, rfl⟩ := List.mem_map.mp hx
    by_cases hknown : q = c.genesisDag ∨ q ∈ c.blocks
    · rw [if_pos hknown]
      exact hknown.imp_right fun h => ⟨hq, h⟩
    · rw [if_neg hknown]
      exact Or.inl rfl
  · exact Or.inl rfl

theorem mem_engineParents (horigin : c.genesisDag ∈ c.blocks) {ps : List Hash} {x : Hash}
    (hx : x ∈ c.engineParents ps) : x ∈ c.blocks := by
  rcases eq_or_mem_of_engineParents hx with rfl | ⟨_, hx⟩
  · exact horigin
  · exact hx

theorem freshEngine_rooted {fr : Reachability.Interval.Fractions} {k : Nat} {origin : Hash}
    {e : DagEngine} (h : freshEngine fr k origin = .ok e) :
    Rooted fr k origin e ∧ (∀ x, x ∈ e.dag.blocks ↔ x = blockhash.origin ∨ x = origin) ∧
      origin ≠ blockhash.origin ∧ ∀ x, ∀ q ∈ e.dag.parents x, q = blockhash.origin := by
  obtain ⟨e₀, hnew, hadd⟩ := bind_eq_ok.mp h
  have hrooted : Rooted fr k origin e := .genesis hnew hadd
  obtain ⟨inv, hdag, _⟩ := Ghostdag.DagEngine.new_ready.post hnew
  obtain ⟨d, _, _, ha, _⟩ := inv.step Ghostdag.DagEngine.originAlone_self hadd
  refine ⟨hrooted, fun x => ?_, ha.ne_origin inv.toInv, fun x q hq => ?_⟩
  · rw [ha.mem_blocks_iff, hdag, or_comm]
    exact or_congr_left Finset.mem_singleton
  · rw [ha.parents_eq inv.toInv] at hq
    by_cases hx : x = origin
    · rw [hx, Function.update_self] at hq
      exact List.mem_singleton.mp hq
    · rw [Function.update_of_ne hx, hdag] at hq
      cases hq

/-- A chain on a new engine, with its origin alone. -/
theorem anchored_of_freshEngine {header : DagBlockHeader}
    (hengine : freshEngine env.fractions c.k c.genesisDag = .ok c.engine)
    (hblocks : c.blocks = {c.genesisDag})
    (hheaders : c.headers = AList.singleton c.genesisDag header) : Anchored env c := by
  obtain ⟨hrooted, hmem, hne, hparents⟩ := freshEngine_rooted hengine
  refine ⟨hrooted, ?_, fun x hx => ?_, fun x => ?_, fun x q hq => Or.inr (hparents x q hq)⟩
  · rw [hblocks]
    exact Finset.mem_singleton_self _
  · rw [hblocks, Finset.mem_singleton] at hx
    rw [hx]
    exact ⟨(hmem _).mpr (Or.inr rfl), hne⟩
  · rw [hblocks, hheaders, Finset.mem_singleton]
    simp [lookup_singleton]

theorem genesis_anchored {log : BlockLog} (h : genesis env p log = .ok c) : Anchored env c := by
  obtain ⟨engine, hengine, h⟩ := bind_eq_ok.mp h
  cases h
  exact anchored_of_freshEngine hengine rfl rfl

theorem loadSnapshot_anchored {header : DagBlockHeader} {accounts : List (Consensus.Pubkey × Account)}
    {proof : List DagBlockHeader} (h : c.loadSnapshot env header accounts proof = .ok c') :
    Anchored env c' := by
  obtain ⟨engine, hengine, h⟩ := bind_eq_ok.mp h
  cases h
  exact anchored_of_freshEngine hengine rfl rfl

/-- What a chain is anchored in. -/
theorem Anchored.of_eq (h : Anchored env c) (hengine : c'.engine = c.engine) (hk : c'.k = c.k)
    (horigin : c'.genesisDag = c.genesisDag) (hblocks : c'.blocks = c.blocks)
    (hheaders : c'.headers = c.headers) : Anchored env c' := by
  refine ⟨?_, ?_, ?_, ?_, ?_⟩
  · rw [hengine, hk, horigin]
    exact h.rooted
  · rw [horigin, hblocks]
    exact h.origin
  · rw [hengine, hblocks]
    exact h.blocks
  · rw [hheaders, hblocks]
    exact h.headers
  · rw [hengine, hblocks]
    exact h.closed

section Insert

variable {id : Hash} {ps : List Hash} {engine : DagEngine}

theorem Anchored.originAlone (h : Anchored env c) (hps : ∀ q ∈ ps, q ∈ c.blocks) :
    blockhash.origin ∉ ps := fun hor => (h.blocks _ (hps _ hor)).2 rfl

/-- The engine takes a block over known parents. -/
theorem Anchored.takes (h : Anchored env c) (hps : ∀ q ∈ ps, q ∈ c.blocks)
    (hadd : c.engine.addBlock env.fractions id ps = .ok engine) :
    Anchored env { c with engine } := by
  have hor := h.originAlone hps
  have inv := h.rooted.grown.ready_best.1
  obtain ⟨d, _, _, ha, _⟩ := inv.step (fun hmem => absurd hmem hor) hadd
  refine ⟨.add h.rooted hor hadd, h.origin, fun x hx => ?_, h.headers, fun x q hq => ?_⟩
  · exact ⟨ha.mem_blocks_iff.mpr (Or.inr (h.blocks x hx).1), (h.blocks x hx).2⟩
  · rw [ha.parents_eq inv.toInv] at hq
    by_cases hx : x = id
    · rw [hx, Function.update_self] at hq
      exact Or.inl (hps q hq)
    · rw [Function.update_of_ne hx] at hq
      exact h.closed x q hq

/-- So does the chain. -/
theorem Anchored.inserts (h : Anchored env c) (hps : ∀ q ∈ ps, q ∈ c.blocks)
    (hadd : c.engine.addBlock env.fractions id ps = .ok engine) {block : DagBlock} {txs : List Tx} :
    Anchored env ({ c with engine }.insertBlock block id txs) := by
  have hgrown := h.takes hps hadd
  have inv := h.rooted.grown.ready_best.1
  obtain ⟨d, _, _, ha, _⟩ := inv.step (fun hmem => absurd hmem (h.originAlone hps)) hadd
  refine ⟨hgrown.rooted, Finset.mem_insert_of_mem h.origin, fun x hx => ?_, fun x => ?_,
    fun x q hq => ?_⟩
  · rcases Finset.mem_insert.mp hx with rfl | hx
    · exact ⟨ha.mem_blocks_iff.mpr (Or.inl rfl), ha.ne_origin inv.toInv⟩
    · exact hgrown.blocks x hx
  · change x ∈ insert id c.blocks ↔ ∃ hd, (c.headers.insert id block.header).lookup x = some hd
    rw [Finset.mem_insert]
    by_cases hx : x = id
    · rw [hx, AList.lookup_insert]
      simp
    · rw [AList.lookup_insert_ne hx, or_iff_right hx]
      exact h.headers x
  · exact (hgrown.closed x q hq).imp_left (Finset.mem_insert_of_mem ·)

end Insert

theorem Anchored.applyWithId (h : Anchored env c) {block : DagBlock} {id : Hash}
    {r : Except String Unit} (hrun : c.applyWithId env block id = .ok (r, c')) :
    Anchored env c' := by
  have hps : ∀ q ∈ c.engineParents block.header.parents, q ∈ c.blocks :=
    fun q hq => mem_engineParents h.origin hq
  rcases applyWithId_cases hrun with ⟨_, _, rfl⟩ | ⟨_, engine, hadd, hrest⟩
  · exact h
  · rcases hrest with ⟨e, _, _, rfl⟩ | ⟨txs, _, _, rfl⟩
    · exact h.takes hps hadd
    · exact h.inserts hps hadd

theorem Anchored.apply (h : Anchored env c) {block : DagBlock} {r : Except String Unit}
    (hrun : c.apply env block = .ok (r, c')) : Anchored env c' := h.applyWithId hrun

/-- The engine that `prune` builds gets the kept parents of a block, and the pruning point for the
others. -/
theorem eq_or_mem_of_keptParents {kept ps : List Hash} {p x : Hash}
    (hx : x ∈ keptParents kept p ps) : x = p ∨ x ∈ ps ∧ x ∈ kept := by
  rcases mem_dedupFirst_or.mp hx with hx | ⟨_, rfl⟩
  · obtain ⟨q, hq, rfl⟩ := List.mem_map.mp hx
    by_cases hkept : q ∈ kept
    · rw [if_pos hkept]
      exact Or.inr ⟨hq, hkept⟩
    · rw [if_neg hkept]
      exact Or.inl rfl
  · exact Or.inl rfl

theorem mem_keptParents {kept ps : List Hash} {p x : Hash} (hp : p ∈ kept)
    (hx : x ∈ keptParents kept p ps) : x ∈ kept := by
  rcases eq_or_mem_of_keptParents hx with rfl | ⟨_, hx⟩
  · exact hp
  · exact hx

theorem mem_keptParents_of_mem {kept ps : List Hash} {p x : Hash} (hx : x ∈ ps) (hkept : x ∈ kept) :
    x ∈ keptParents kept p ps := by
  refine mem_dedupFirst_or.mpr (Or.inl (List.mem_map.mpr ⟨x, hx, ?_⟩))
  rw [if_pos hkept]

/-- An engine over `p` that holds kept blocks only. -/
structure Rerooted (env : Env Tx) (c : DagChain Tx) (p : Hash) (kept : List Hash)
    (e : DagEngine) : Prop where
  rooted : Rooted env.fractions c.k p e
  closed : ∀ x, ∀ q ∈ e.dag.parents x, q ∈ kept ∨ q = blockhash.origin

/-- An engine over `p` with the kept blocks of `done`. -/
structure Reroots (env : Env Tx) (c : DagChain Tx) (p : Hash) (kept done : List Hash)
    (e : DagEngine) : Prop where
  rooted : Rooted env.fractions c.k p e
  blocks : ∀ x, x ∈ e.dag.blocks ↔ x = blockhash.origin ∨ x = p ∨ x ∈ done
  root : e.dag.parents p = [blockhash.origin]
  parents : ∀ x ∈ done, ∃ h, c.headers.lookup x = some h ∧
    e.dag.parents x = keptParents kept p h.parents

section Reroot

variable {pt x : Hash} {kept done suffix : List Hash} {e e' : DagEngine}

/-- One more block. -/
theorem Reroots.step (h : Reroots env c pt kept done e) (hpt : pt ∈ kept)
    (hor : blockhash.origin ∉ kept) {header : DagBlockHeader}
    (hheader : c.headers.lookup x = some header)
    (hadd : e.addBlock env.fractions x (keptParents kept pt header.parents) = .ok e') :
    Reroots env c pt kept (done ++ [x]) e' ∧ x ∉ e.dag.blocks ∧
      ∀ q ∈ keptParents kept pt header.parents, q ∈ e.dag.blocks := by
  have hno : blockhash.origin ∉ keptParents kept pt header.parents :=
    fun hmem => hor (mem_keptParents hpt hmem)
  have inv := h.rooted.grown.ready_best.1
  obtain ⟨d, _, hd, ha, _⟩ := inv.step (fun hmem => absurd hmem hno) hadd
  refine ⟨⟨.add h.rooted hno hadd, fun y => ?_, ?_, fun y hy => ?_⟩, ha.new, hd.known⟩
  · rw [ha.mem_blocks_iff, h.blocks y]
    simp only [List.mem_append, List.mem_singleton]
    tauto
  · have hne : pt ≠ x := fun heq => ha.new (heq ▸ (h.blocks pt).mpr (Or.inr (Or.inl rfl)))
    rw [ha.parents_eq inv.toInv, Function.update_of_ne hne, h.root]
  · rw [ha.parents_eq inv.toInv]
    by_cases hyx : y = x
    · rw [hyx, Function.update_self]
      exact ⟨header, hheader, rfl⟩
    · rw [Function.update_of_ne hyx]
      exact h.parents y ((List.mem_append.mp hy).resolve_right fun hy => hyx (List.mem_singleton.mp hy))

theorem Reroots.fold (h : Reroots env c pt kept done e) (hpt : pt ∈ kept)
    (hor : blockhash.origin ∉ kept)
    (hrun : suffix.foldlM (fun engine id => do
      let header ← expect "kept block has a header" (c.headers.lookup id)
      engine.addBlock env.fractions id (keptParents kept pt header.parents)) e = .ok e') :
    Reroots env c pt kept (done ++ suffix) e' := by
  induction suffix generalizing e done with
  | nil =>
    cases hrun
    rwa [List.append_nil]
  | cons id suffix ih =>
    rw [List.foldlM_cons] at hrun
    obtain ⟨e₁, hstep, hrun⟩ := bind_eq_ok.mp hrun
    obtain ⟨header, hheader, hadd⟩ := bind_eq_ok.mp hstep
    rw [expect_eq_ok] at hheader
    rw [List.append_cons]
    exact ih (h.step hpt hor hheader hadd).1 hrun

theorem freshEngine_reroots (h : freshEngine env.fractions c.k pt = .ok e) :
    Reroots env c pt kept [] e := by
  obtain ⟨hrooted, hblocks, _, _⟩ := freshEngine_rooted h
  refine ⟨hrooted, fun x => ?_, hrooted.grown.recorded.2, fun x hx => absurd hx List.not_mem_nil⟩
  rw [hblocks]
  simp

/-- The engine that `prune` builds. -/
theorem rerootEngine_reroots (hor : blockhash.origin ∉ pt :: suffix)
    (hrun : c.rerootEngine env pt suffix = .ok e) :
    Reroots env c pt (pt :: suffix) suffix e := by
  obtain ⟨e₀, hfresh, hrun⟩ := bind_eq_ok.mp hrun
  exact (freshEngine_reroots hfresh).fold List.mem_cons_self hor hrun

theorem rerootEngine_spec (hor : blockhash.origin ∉ pt :: suffix)
    (hrun : c.rerootEngine env pt suffix = .ok e) :
    Rerooted env c pt (pt :: suffix) e ∧ (∀ x ∈ pt :: suffix, x ∈ e.dag.blocks) ∧
      ∀ x ∈ suffix, ∃ h, c.headers.lookup x = some h := by
  have h := rerootEngine_reroots hor hrun
  refine ⟨⟨h.rooted, fun x q hq => ?_⟩, fun x hx => ?_, fun x hx => ?_⟩
  · have hmem := h.rooted.grown.ready_best.1.index.dag.closed hq
    rw [h.blocks] at hmem
    exact hmem.symm.imp_left List.mem_cons.mpr
  · exact (h.blocks x).mpr (Or.inr (List.mem_cons.mp hx))
  · obtain ⟨header, hheader, _⟩ := h.parents x hx
    exact ⟨header, hheader⟩

end Reroot

theorem Anchored.origin_not_kept (h : Anchored env c) {order : List Hash} {i : Nat} {pt : Hash}
    (horder : c.totalOrder = .ok order) (hpt : order[i]? = some pt) :
    blockhash.origin ∉ pt :: order.drop (i + 1) := by
  have hlists := (h.rooted.totalOrder.post horder).1
  intro hmem
  rcases List.mem_cons.mp hmem with heq | hmem
  · exact ((hlists.mem _).mp (heq ▸ List.mem_of_getElem? hpt)).2 rfl
  · exact ((hlists.mem _).mp (List.mem_of_mem_drop hmem)).2 rfl

theorem Anchored.reanchored (h : Anchored env c) {log : BlockLog} {order : List Hash} {i : Nat}
    {pt : Hash} {base : List (Consensus.Pubkey × Account)} {proof : List DagBlockHeader}
    {e : DagEngine} {header : DagBlockHeader} (horder : c.totalOrder = .ok order)
    (hpt : order[i]? = some pt) (hrun : c.rerootEngine env pt (order.drop (i + 1)) = .ok e)
    (hheader : c.headers.lookup pt = some header) :
    Anchored env (c.reanchored e log pt (order.drop (i + 1)) base proof) := by
  have hor := h.origin_not_kept horder hpt
  obtain ⟨hre, hall, hheaders⟩ := rerootEngine_spec hor hrun
  refine ⟨hre.rooted, ?_, fun x hx => ?_, fun x => ?_, fun x q hq => ?_⟩
  · exact List.mem_toFinset.mpr List.mem_cons_self
  · have hmem := List.mem_toFinset.mp hx
    exact ⟨hall x hmem, fun heq => hor (heq ▸ hmem)⟩
  · change x ∈ (pt :: order.drop (i + 1)).toFinset ↔
      ∃ h, (restrict c.headers (pt :: order.drop (i + 1))).lookup x = some h
    rw [List.mem_toFinset, restrict_lookup]
    by_cases hx : x ∈ pt :: order.drop (i + 1)
    · rw [if_pos hx]
      refine iff_of_true hx ?_
      rcases List.mem_cons.mp hx with rfl | hx
      · exact ⟨header, hheader⟩
      · exact hheaders x hx
    · rw [if_neg hx]
      simp [hx]
  · exact (hre.closed x q hq).imp_left List.mem_toFinset.mpr

theorem Anchored.prune (h : Anchored env c) {io : Option ReplaceFault}
    {r : Except Runtime.BankError Nat} (hrun : c.prune env io = .ok (r, c')) : Anchored env c' := by
  rcases prune_cases hrun with ⟨log, rfl, _⟩ | hmore
  · exact h.of_eq rfl rfl rfl rfl rfl
  · obtain ⟨order, i, pt, bank, e, header, log, horder, _, hpt, _, he, hheader, _, _, rfl⟩ := hmore
    exact h.reanchored horder hpt he hheader

theorem anchored_kept (env : Env Tx) : Kept env (Anchored env) where
  frame := Anchored.of_eq
  apply h hrun := h.applyWithId hrun
  load := fun _ => loadSnapshot_anchored
  prune h hrun := h.prune hrun

theorem open_anchored {file : Bytes} (h : openWithGenesis env p file = .ok (.ok c)) :
    Anchored env c := (anchored_kept env).opened genesis_anchored h

/-- Whatever is called on a chain that was opened, it stays anchored. -/
theorem anchored_of_reaches {P : DagChain Tx → Call Tx → Prop} {file : Bytes}
    (hopen : openWithGenesis env p file = .ok (.ok c)) (hrun : Reaches env P c c') :
    Anchored env c' := (anchored_kept env).reaches genesis_anchored hopen hrun

end TaoDag.Dagvm.DagChain
