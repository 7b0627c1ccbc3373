import TaoDag.Dagvm.Mined

namespace TaoDag.Dagvm

open Consensus (DagBlock DagBlockHeader powLevel meetsTarget)
open Database (AppendFault)
open TaoDag.Runtime (Env)

/-- The entry at level `k` is the first block before a chain block that has level `k`. -/
theorem HeaderChain.interlink_getElem? {blake3 : Bytes → Hash} {genesisId : Hash}
    {h : DagBlockHeader} {rest : List DagBlockHeader}
    (hc : HeaderChain blake3 genesisId (h :: rest)) (k : Nat) :
    h.interlink[k]? = (rest.find? fun x => k ≤ powLevel (x.id blake3) x.target).map
      (·.id blake3) := by
  induction rest generalizing h with
  | nil =>
    cases hc with
    | genesis id interlink => simp [interlink]
  | cons p rest ih =>
    cases hc with
    | step chain parent interlink work =>
      rw [interlink, interlinkAfter_eq, List.find?_cons]
      by_cases hk : k ≤ powLevel (p.id blake3) p.target
      · have hlt : k < (List.replicate (powLevel (p.id blake3) p.target + 1) (p.id blake3)).length := by
          rw [List.length_replicate]
          omega
        rw [List.getElem?_append_left hlt, List.getElem?_replicate, if_pos (by omega)]
        simp [hk]
      · have hge : (List.replicate (powLevel (p.id blake3) p.target + 1) (p.id blake3)).length ≤ k := by
          rw [List.length_replicate]
          omega
        have hidx : powLevel (p.id blake3) p.target + 1 + (k - (powLevel (p.id blake3) p.target + 1)) =
            k := by omega
        rw [List.getElem?_append_right hge, List.length_replicate, List.getElem?_drop, hidx, ih chain]
        simp [hk]

namespace DagChain

variable {Tx : Type} {env : Env Tx} {p : Params} {c c' d : DagChain Tx} {block : DagBlock}
  {tried : List DagBlock} {b sp x : Hash} {h : DagBlockHeader}

/-- The PoW level of a block. -/
def level (c : DagChain Tx) (x : Hash) : Nat :=
  (c.headers.lookup x).elim 0 fun h => powLevel x h.target

/-- The selected-parent chain below a block, down to genesis. -/
inductive SelectedPast (c : DagChain Tx) : Hash → List Hash → Prop
  | genesis : SelectedPast c c.genesisDag []
  | step {b sp : Hash} {past : List Hash} (ne : b ≠ c.genesisDag)
      (selected : c.engine.selectedParent b = .ok sp) (below : SelectedPast c sp past) :
      SelectedPast c b (sp :: past)

/-- Every block but genesis has the interlink of a child of its selected parent. -/
structure Woven (env : Env Tx) (c : DagChain Tx) : Prop where
  ids : ∀ x h, c.headers.lookup x = some h → h.id env.blake3 = x
  genesis : ∀ h, c.headers.lookup c.genesisDag = some h → h.interlink = []
  link : ∀ x h, c.headers.lookup x = some h → x ≠ c.genesisDag → ∃ data header,
    c.engine.gd.lookup x = some data ∧ c.headers.lookup data.selectedParent = some header ∧
      data.selectedParent ∈ h.parents ∧ h.interlink = interlinkAfter data.selectedParent header ∧
      meetsTarget x h.target = true

/-- A block of the chain, and the headers of the selected chain below it. -/
theorem Woven.headerChain (hw : Woven env c) (hanchored : Anchored env c) (n : Nat)
    (hn : below c.engine x < n) (hx : c.headers.lookup x = some h) :
    ∃ rest, HeaderChain env.blake3 c.genesisDag (h :: rest) ∧
      SelectedPast c x (rest.map (·.id env.blake3)) ∧
      ∀ y ∈ rest, c.headers.lookup (y.id env.blake3) = some y := by
  induction n generalizing x h with
  | zero => exact absurd hn (Nat.not_lt_zero _)
  | succ n ih =>
    have hid := hw.ids x h hx
    by_cases hgen : x = c.genesisDag
    · subst hgen
      exact ⟨[], .genesis hid (hw.genesis h hx), .genesis, by simp⟩
    · obtain ⟨data, header, hdata, hheader, hmem, hlink, hwork⟩ := hw.link x h hx hgen
      have hsp := hw.ids _ header hheader
      obtain ⟨data', hdata', hspb, hless⟩ :=
        hanchored.selectedParent ((hanchored.headers x).mpr ⟨h, hx⟩) hgen
      cases hdata.symm.trans hdata'
      have hbelow := below_lt (hanchored.blocks _ hspb).1 hless
      obtain ⟨rest, hchain, hpast, hfound⟩ := ih (by omega) hheader
      have hselected : c.engine.selectedParent x = .ok data.selectedParent := by
        rw [Ghostdag.DagEngine.selectedParent, data_of_lookup hdata]
        rfl
      refine ⟨header :: rest, .step hchain (hsp ▸ hmem) (hsp.symm ▸ hlink) (hid.symm ▸ hwork), ?_,
        List.forall_mem_cons.mpr ⟨hsp.symm ▸ hheader, hfound⟩⟩
      rw [List.map_cons, hsp]
      exact .step hgen hselected hpast

/-- What the header of a block says: its interlink has one entry for each level up to the highest
below it, the entry at level `k` is the nearest block below that has level `k`, and the highest
pointers lead through blocks below it to genesis. -/
structure Tells (env : Env Tx) (c : DagChain Tx) (h : DagBlockHeader) (past : List Hash) : Prop where
  nonempty : h.interlink ≠ []
  attained : ∃ x ∈ past, h.interlink.length = c.level x + 1
  bounded : ∀ x ∈ past, c.level x + 1 ≤ h.interlink.length
  nearest : ∀ k, h.interlink[k]? = past.find? fun x => k ≤ c.level x
  walk : ∃ walk, Linked env.blake3 c.headers.lookup (h :: walk) ∧
    (∀ x ∈ walk, x.id env.blake3 ∈ past) ∧
    (h :: walk).getLast?.map (·.id env.blake3) = some c.genesisDag

private theorem foldr_max_attained {xs : List Nat} (hne : xs ≠ []) : xs.foldr max 0 ∈ xs :=
  List.maximum_mem (List.foldr_max_of_ne_nil hne).symm

/-- A pointer walk ends at genesis. -/
private theorem linked_getLast? {blake3 : Bytes → Hash} {find : Hash → Option DagBlockHeader}
    {genesisId : Hash} {l : List DagBlockHeader} (hl : Linked blake3 find l)
    (hp : ∀ x ∈ l, Proven blake3 genesisId x) :
    l.getLast?.map (·.id blake3) = some genesisId := by
  induction hl with
  | @last h found pointer =>
    exact congrArg some ((hp h (List.mem_singleton_self h)).1 (by simpa using pointer))
  | step found pointer next ih => exact ih fun x hx => hp x (List.mem_cons_of_mem _ hx)

theorem tells_of_headerChain {rest : List DagBlockHeader}
    (hc : HeaderChain env.blake3 c.genesisDag (h :: rest)) (hne : rest ≠ [])
    (hself : c.headers.lookup (h.id env.blake3) = some h)
    (hfound : ∀ y ∈ rest, c.headers.lookup (y.id env.blake3) = some y) :
    Tells env c h (rest.map (·.id env.blake3)) := by
  have hlevel : ∀ y ∈ rest, c.level (y.id env.blake3) = powLevel (y.id env.blake3) y.target := by
    intro y hy
    rw [level, hfound y hy]
    rfl
  have hlen := hc.interlink_length
  have hmap : rest.map (fun y => powLevel (y.id env.blake3) y.target + 1) ≠ [] := by simpa using hne
  have hbounded : ∀ y ∈ rest, c.level (y.id env.blake3) + 1 ≤ h.interlink.length := by
    intro y hy
    rw [hlen, hlevel y hy]
    exact List.le_max_of_le (List.mem_map.mpr ⟨y, hy, rfl⟩) le_rfl
  constructor
  case nonempty =>
    obtain ⟨y, hy⟩ := List.exists_mem_of_ne_nil _ hne
    have := hbounded y hy
    exact List.ne_nil_of_length_pos (by omega)
  case attained =>
    obtain ⟨y, hy, heq⟩ := List.mem_map.mp (foldr_max_attained hmap)
    refine ⟨_, List.mem_map.mpr ⟨y, hy, rfl⟩, ?_⟩
    rw [hlen, hlevel y hy, heq]
  case bounded => simpa using hbounded
  case nearest =>
    intro k
    rw [hc.interlink_getElem?, List.find?_map]
    refine congrArg (Option.map _) (List.find?_congr fun y hy => ?_)
    rw [Function.comp_apply, hlevel y hy]
  case walk =>
    have hlinked : Linked env.blake3 c.headers.lookup (proofOf env.blake3 (h :: rest)) :=
      hc.linked hself fun y hy _ => hfound y hy
    refine ⟨rest.filter (isRecord env.blake3), hlinked, fun x hx => ?_, ?_⟩
    · exact List.mem_map.mpr ⟨x, (List.mem_filter.mp hx).1, rfl⟩
    · refine linked_getLast? hlinked fun x hx => hc.proven x ?_
      rcases List.mem_cons.mp hx with rfl | hx
      · exact List.mem_cons_self
      · exact List.mem_cons_of_mem h (List.mem_filter.mp hx).1

/-- In a woven chain every header tells the truth. -/
theorem Woven.tells (hw : Woven env c) (hanchored : Anchored env c)
    (hx : c.headers.lookup x = some h) (hne : x ≠ c.genesisDag) :
    ∃ past, SelectedPast c x past ∧ Tells env c h past := by
  obtain ⟨rest, hchain, hpast, hfound⟩ :=
    hw.headerChain hanchored (below c.engine x + 1) (Nat.lt_succ_self _) hx
  have hid := hw.ids x h hx
  refine ⟨_, hpast, tells_of_headerChain hchain ?_ (hid.symm ▸ hx) hfound⟩
  rintro rfl
  cases hpast
  exact hne rfl

theorem Woven.of_eq (h : Woven env c) (hengine : c'.engine = c.engine)
    (hheaders : c'.headers = c.headers) (hgenesis : c'.genesisDag = c.genesisDag) :
    Woven env c' := by
  refine ⟨?_, ?_, ?_⟩
  · rw [hheaders]
    exact h.ids
  · rw [hheaders, hgenesis]
    exact h.genesis
  · rw [hheaders, hgenesis, hengine]
    exact h.link

theorem open_woven (h : openWithGenesis env p [] = .ok (.ok c)) : Woven env c := by
  have hgen := genesis_of_open_nil h
  obtain ⟨engine, _, hgen⟩ := bind_eq_ok.mp hgen
  cases hgen
  refine ⟨fun x h hx => ?_, fun h hx => ?_, fun x h hx hne => ?_⟩
  · obtain ⟨rfl, rfl⟩ := lookup_singleton.mp hx
    rfl
  · rw [(lookup_singleton.mp hx).2]
    rfl
  · exact absurd (lookup_singleton.mp hx).1 hne

/-- The engine selects the same parent as the chain. -/
theorem Anchored.selects (h : Anchored env c) {ps : List Hash} {data : Ghostdag.GhostdagData}
    (hne : ps ≠ []) (hnodup : ps.Nodup)
    (hps : ∀ q ∈ ps, q ∈ c.blocks)
    (hd : Ghostdag.DagEngine.IsData c.engine (c.engineParents ps) data) :
    c.selectedParentDag ps = .ok data.selectedParent := by
  have hsame := engineParents_of_known hne hnodup hps
  obtain ⟨sp, hrun, hsp, hmax⟩ := selectedParentDag_spec hne fun q hq => (h.blocks q (hps q hq)).1
  have hmem := hd.mem
  have hle := hd.max sp (hsame.symm ▸ hsp)
  rw [hsame] at hmem
  have heq := Ghostdag.SortableBlock.le_antisymm (hmax _ hmem) hle
  have hhash : data.selectedParent = sp := congrArg Ghostdag.SortableBlock.hash heq
  rw [hrun, hhash]

/-- A block with the interlink of a child of its selected parent keeps the chain woven. -/
theorem Woven.apply (hw : Woven env c) (hanchored : Anchored env c)
    (hne : block.header.parents ≠ []) (hnodup : block.header.parents.Nodup)
    (hps : ∀ q ∈ block.header.parents, q ∈ c.blocks)
    (hlink : ∀ sp, c.selectedParentDag block.header.parents = .ok sp →
      block.header.interlink = c.interlinkForParent sp)
    (hwork : meetsTarget (block.header.id env.blake3) block.header.target = true)
    {r : Except String Unit} (hrun : c.apply env block = .ok (r, c')) : Woven env c' := by
  rcases applyWithId_cases hrun with ⟨_, _, rfl⟩ | ⟨hnew, engine, hadd, hrest⟩
  · exact hw
  have hsame := engineParents_of_known hne hnodup hps
  have inv := hanchored.rooted.grown.ready_best.1
  obtain ⟨data, _, hd, ha, _⟩ := inv.step (fun hor => absurd hor (hanchored.originAlone
    fun q hq => mem_engineParents hanchored.origin hq)) hadd
  have hselected := hanchored.selects hne hnodup hps hd
  have hother : ∀ {x}, x ∈ c.blocks → engine.gd.lookup x = c.engine.gd.lookup x := fun hx =>
    ha.lookup_of_ne fun heq => ha.new (heq ▸ (hanchored.blocks _ hx).1)
  have hheld : ∀ {x h}, c.headers.lookup x = some h → x ∈ c.blocks := fun hx =>
    (hanchored.headers _).mpr ⟨_, hx⟩
  have hlinks : ∀ x h, c.headers.lookup x = some h → x ≠ c.genesisDag → ∃ data header,
      engine.gd.lookup x = some data ∧ c.headers.lookup data.selectedParent = some header ∧
        data.selectedParent ∈ h.parents ∧ h.interlink = interlinkAfter data.selectedParent header ∧
        meetsTarget x h.target = true := by
    intro x h hx hxg
    rw [hother (hheld hx)]
    exact hw.link x h hx hxg
  rcases hrest with ⟨e, _, _, rfl⟩ | ⟨txs, _, _, rfl⟩
  · exact ⟨hw.ids, hw.genesis, hlinks⟩
  have hcases : ∀ {x h}, (c.headers.insert (block.id env.blake3) block.header).lookup x = some h →
      (x = block.id env.blake3 ∧ h = block.header) ∨ c.headers.lookup x = some h := by
    intro x h hx
    by_cases hid : x = block.id env.blake3
    · rw [hid, AList.lookup_insert] at hx
      exact Or.inl ⟨hid, (Option.some.inj hx).symm⟩
    · rw [AList.lookup_insert_ne hid] at hx
      exact Or.inr hx
  have hkeep : ∀ {x h}, c.headers.lookup x = some h →
      (c.headers.insert (block.id env.blake3) block.header).lookup x = some h := by
    intro x h hx
    have hne : x ≠ block.id env.blake3 := fun heq => hnew (by rw [← heq]; exact hheld hx)
    rw [AList.lookup_insert_ne hne, hx]
  refine ⟨fun x h hx => ?_, fun h hx => ?_, fun x h hx hxg => ?_⟩
  · rcases hcases hx with ⟨rfl, rfl⟩ | hx
    · rfl
    · exact hw.ids x h hx
  · rcases hcases hx with ⟨hid, _⟩ | hx
    · exact absurd (hid ▸ hanchored.origin) hnew
    · exact hw.genesis h hx
  · rcases hcases hx with ⟨rfl, rfl⟩ | hx
    · have hmem := hd.mem
      rw [hsame] at hmem
      obtain ⟨header, hheader⟩ := (hanchored.headers _).mp (hps _ hmem)
      refine ⟨data, header, ha.lookup_self, hkeep hheader, hmem, ?_, hwork⟩
      rw [hlink _ hselected, interlinkForParent_of_lookup hheader]
    · obtain ⟨data', header, hdata, hheader, hrest⟩ := hlinks x h hx hxg
      exact ⟨data', header, hdata, hkeep hheader, hrest⟩

theorem Woven.appendAndApply (hw : Woven env c) (hanchored : Anchored env c)
    (hne : block.header.parents ≠ []) (hnodup : block.header.parents.Nodup)
    (hps : ∀ q ∈ block.header.parents, q ∈ c.blocks)
    (hlink : ∀ sp, c.selectedParentDag block.header.parents = .ok sp →
      block.header.interlink = c.interlinkForParent sp)
    (hwork : meetsTarget (block.header.id env.blake3) block.header.target = true)
    {io : Option AppendFault} {r : Except String Unit}
    (hrun : c.appendAndApply env io block = .ok (r, c')) : Woven env c' := by
  rcases appendAndApply_cases hrun with ⟨e, log, _, _, rfl⟩ | ⟨log, _, hrun⟩
  · exact hw.of_eq rfl rfl rfl
  · have hw' : Woven env { c with log } := hw.of_eq rfl rfl rfl
    exact hw'.apply (hanchored.of_eq rfl rfl rfl rfl rfl) hne hnodup hps hlink hwork hrun

/-- A chain with its whole history, as `mine` and `accept` calls build it. Whenever it mines, the
heaviest block of its engine is one of its blocks. -/
inductive Weaves (env : Env Tx) (p : Params) : List DagBlock → DagChain Tx → Prop
  | start {c : DagChain Tx} (run : openWithGenesis env p [] = .ok (.ok c)) : Weaves env p [] c
  | accept {tried : List DagBlock} {c c' : DagChain Tx} {io : Option AppendFault} {now : Int}
      {block : DagBlock} {r : Except String Unit} (before : Weaves env p tried c)
      (run : c.accept env io now block = .ok (r, c')) : Weaves env p (tried ++ [block]) c'
  | mine {tried : List DagBlock} {c c' : DagChain Tx} {io : Option AppendFault} {txs : List Tx}
      {timestamp : BitVec 64} {block : DagBlock} {r : Except String DagBlock}
      (before : Weaves env p tried c) (tip : c.engine.tip ∈ c.blocks)
      (build : c.buildBlockAt env txs timestamp = .ok block)
      (run : c.mineAt env io txs timestamp = .ok (r, c')) : Weaves env p (tried ++ [block]) c'

theorem Weaves.woven (h : Weaves env p tried c) : Unpruned env p tried c ∧ Woven env c := by
  induction h with
  | start run => exact ⟨open_unpruned run, open_woven run⟩
  | @accept tried c c' io now block r before run ih =>
    obtain ⟨hun, hw⟩ := ih
    rcases accept_cases run with rfl | ⟨hpass, hrun⟩
    · exact ⟨hun.mono fun b hb => List.mem_append_left _ hb, hw⟩
    · obtain ⟨hne, hnodup, hps⟩ := hpass.parents
      refine ⟨hun.appendAndApply (fun q hq => (hun.anchored.blocks q (hps q hq)).1) hrun,
        hw.appendAndApply hun.anchored hne hnodup hps (fun sp hsp => ?_)
          (validateBlockIntrinsic_iff.mp hpass.intrinsic).1 hrun⟩
      obtain ⟨sp', hrun', hmem, _⟩ :=
        selectedParentDag_spec hne fun q hq => (hun.anchored.blocks q (hps q hq)).1
      cases hrun'.symm.trans hsp
      obtain ⟨header, hheader⟩ := (hun.anchored.headers _).mp (hps _ hmem)
      exact ((checkContext_iff hps hsp hheader).mp hpass.context).2.2.2
  | @mine tried c c' io txs timestamp block r before tip build run ih =>
    obtain ⟨hun, hw⟩ := ih
    have hbuilt := buildBlockAt_spec build
    obtain ⟨block', hbuild', happly⟩ := bind_eq_ok.mp run
    rw [build] at hbuild'
    cases hbuild'
    obtain ⟨⟨v, d⟩, happly, hend⟩ := bind_eq_ok.mp happly
    have htip : c.engine.tip ∈ block.header.parents := by
      rw [hbuilt.parents]
      exact tip_mem_buildParents (hun.tip_mem tip)
    have hps : ∀ q ∈ block.header.parents, q ∈ c.blocks := by
      intro q hq
      rw [hbuilt.parents] at hq
      rcases mem_buildParents hq with hq | rfl
      · exact (hun.tips.mp hq).1
      · exact tip
    have hnodup : block.header.parents.Nodup := by
      rw [hbuilt.parents]
      exact buildParents_nodup hun.nodup
    have hselected := hun.selectedParentDag htip hps
    have hstep : Unpruned env p (tried ++ [block]) d ∧ Woven env d := by
      refine ⟨hun.appendAndApply (hun.parents_mem hbuilt) happly,
        hw.appendAndApply hun.anchored (List.ne_nil_of_mem htip) hnodup hps (fun sp hsp => ?_)
          hbuilt.work happly⟩
      cases hselected.symm.trans hsp
      exact hbuilt.interlink
    cases v with
    | ok u =>
      cases hend
      exact hstep
    | error e =>
      cases hend
      exact hstep

/-- In every run in which the heaviest block of the engine is known whenever the node mines, every
header tells the selected chain below its block. -/
theorem interlink_tells (hrun : Weaves env p tried c) (hx : c.headers.lookup x = some h)
    (hne : x ≠ c.genesisDag) : ∃ past, SelectedPast c x past ∧ Tells env c h past := by
  obtain ⟨hun, hw⟩ := hrun.woven
  exact hw.tells hun.anchored hx hne

end DagChain

section Example

open DagChain
open TaoDag.Runtime (Transaction transferEnv)

/-- The first block that a node mines. -/
theorem interlink_tells_easy : ∃ (c : DagChain Transaction) (past : List Hash),
    Weaves transferEnv easyParams [easyChild []] c ∧
    SelectedPast c ((easyChild []).id Blake3.hash) past ∧
    Tells transferEnv c (easyChild []).header past := by
  have hrun : returnsWith (DagChain.openWithGenesis transferEnv easyParams []) (fun o =>
      returnsWith o fun c => decide (c.engine.tip ∈ c.blocks) &&
        returnsWith (c.mineAt transferEnv none [] 1750000010) fun m =>
          returnsWith m.1 fun b => decide (b = easyChild [] ∧
            m.2.headers.lookup (b.id Blake3.hash) = some b.header ∧
              b.id Blake3.hash ≠ m.2.genesisDag)) = true := by
    decide +kernel
  simp only [returnsWith_iff, Bool.and_eq_true, decide_eq_true_eq] at hrun
  obtain ⟨_, hopen, c, rfl, htip, ⟨_, c'⟩, hmine, _, rfl, rfl, hheader, hne⟩ := hrun
  have hbuild : c.buildBlockAt transferEnv [] 1750000010 = .ok (easyChild []) := by
    obtain ⟨b', hbuild, hrest⟩ := bind_eq_ok.mp hmine
    obtain ⟨⟨w, d⟩, _, hend⟩ := bind_eq_ok.mp hrest
    cases w with
    | error e => cases hend
    | ok u =>
      cases hend
      exact hbuild
  have hweaves : Weaves transferEnv easyParams ([] ++ [easyChild []]) c' :=
    .mine (.start hopen) htip hbuild hmine
  obtain ⟨past, hpast, htells⟩ := interlink_tells hweaves hheader hne
  exact ⟨c', past, hweaves, hpast, htells⟩

/-- After a block with a transaction that does not decode has been refused, the next block that
the node mines has an empty interlink. -/
theorem interlink_empty : ∃ (c c' c'' : DagChain Transaction) (block : DagBlock),
    openWithGenesis transferEnv easyParams [] = .ok (.ok c) ∧
    (∃ e, c.accept transferEnv none 1750000010 poisonBlock = .ok (.error e, c')) ∧
    c'.mineAt transferEnv none [] 1750000011 = .ok (.ok block, c'') ∧
    c''.headers.lookup (block.id Blake3.hash) = some block.header ∧
    block.id Blake3.hash ≠ c''.genesisDag ∧ block.header.interlink = [] := by
  have hrun : returnsWith (DagChain.openWithGenesis transferEnv easyParams []) (fun o =>
      returnsWith o fun c =>
        returnsWith (c.accept transferEnv none 1750000010 poisonBlock) fun a =>
          fails a.1 && returnsWith (a.2.mineAt transferEnv none [] 1750000011) fun m =>
            returnsWith m.1 fun b => decide (
              m.2.headers.lookup (b.id Blake3.hash) = some b.header ∧
                b.id Blake3.hash ≠ m.2.genesisDag ∧ b.header.interlink = [])) = true := by
    decide +kernel
  simp only [returnsWith_iff, Bool.and_eq_true, decide_eq_true_eq] at hrun
  obtain ⟨_, hopen, c, rfl, ⟨_, c'⟩, haccept, hfail, ⟨_, c''⟩, hmine, block, rfl, hheader, hne,
    hempty⟩ := hrun
  obtain ⟨e, rfl⟩ := fails_iff.mp hfail
  exact ⟨c, c', c'', block, hopen, ⟨e, haccept⟩, hmine, hheader, hne, hempty⟩

end Example

end TaoDag.Dagvm
