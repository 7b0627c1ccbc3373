import TaoDag.Ghostdag.Growth

namespace TaoDag.Ghostdag

open BlockDag

theorem agree_unwrap {α : Type*} {x y : Result α} (h : Agree x y) : Agree (unwrap x) (unwrap y) :=
  fun a b ha hb => h a b (eq_ok_of_unwrap ha) (eq_ok_of_unwrap hb)

namespace GhostdagManager

/-- Two managers with the same parameters whose queries agree. Their walks may have different
bounds. -/
structure Similar (m m' : GhostdagManager) : Prop where
  genesisHash : m.genesisHash = m'.genesisHash
  k : m.k = m'.k
  getData : ∀ h, Agree (m.getData h) (m'.getData h)
  getParents : ∀ h, Agree (m.getParents h) (m'.getParents h)
  isDagAncestorOf : ∀ x y, Agree (m.isDagAncestorOf x y) (m'.isDagAncestorOf x y)
  getWork : m.getWork = m'.getWork

variable {m m' : GhostdagManager} {sp : Hash} {parents : List Hash}

theorem Similar.sortable (h : Similar m m') (x : Hash) : Agree (m.sortable x) (m'.sortable x) :=
  .bind (.bind (agree_unwrap (h.getData x)) fun _ _ _ => .refl _) fun _ _ _ => .refl _

theorem Similar.findSelectedParent (h : Similar m m') (parents : List Hash) :
    Agree (m.findSelectedParent parents) (m'.findSelectedParent parents) :=
  .bind (.mapM h.sortable) fun _ _ _ => .refl _

theorem Similar.sortBlocks (h : Similar m m') (l : List Hash) :
    Agree (m.sortBlocks l) (m'.sortBlocks l) :=
  .bind (.mapM h.sortable) fun _ _ _ => .refl _

theorem Similar.visitParents (h : Similar m m') (rest queue mergeset past : List Hash) :
    Agree (m.visitParents sp rest queue mergeset past)
      (m'.visitParents sp rest queue mergeset past) := by
  induction rest generalizing queue mergeset past with
  | nil => exact .refl _
  | cons p rest ih =>
    rw [GhostdagManager.visitParents, GhostdagManager.visitParents]
    by_cases hp : p ∈ mergeset ∨ p ∈ past
    · rw [if_pos hp, if_pos hp]
      exact ih _ _ _
    · rw [if_neg hp, if_neg hp]
      refine .bind (h.isDagAncestorOf p sp) fun r _ _ => ?_
      cases r with
      | true => exact ih _ _ _
      | false => exact ih _ _ _

theorem Similar.mergesetLoop (h : Similar m m') (fuel fuel' : Nat) (queue mergeset past : List Hash) :
    Agree (m.mergesetLoop sp fuel queue mergeset past)
      (m'.mergesetLoop sp fuel' queue mergeset past) := by
  induction fuel generalizing fuel' queue mergeset past with
  | zero => exact .error_left
  | succ fuel ih =>
    cases fuel' with
    | zero => exact .error_right
    | succ fuel' =>
      cases queue with
      | nil => exact .refl _
      | cons cur queue =>
        refine .bind (agree_unwrap (h.getParents cur)) fun ps _ _ => ?_
        exact .bind (h.visitParents ps _ _ _) fun r _ _ => ih _ _ _ _

theorem Similar.blueAnticoneSizeLoop (h : Similar m m') (block : Hash) (fuel fuel' : Nat)
    (sizes : BlockHashMap Nat) (sp : Hash) :
    Agree (m.blueAnticoneSizeLoop block fuel sizes sp)
      (m'.blueAnticoneSizeLoop block fuel' sizes sp) := by
  induction fuel generalizing fuel' sizes sp with
  | zero => exact .error_left
  | succ fuel ih =>
    cases fuel' with
    | zero => exact .error_right
    | succ fuel' =>
      rw [GhostdagManager.blueAnticoneSizeLoop, GhostdagManager.blueAnticoneSizeLoop, h.genesisHash]
      cases sizes.lookup block with
      | some n => exact .refl _
      | none =>
        by_cases hstop : sp = m'.genesisHash ∨ sp = blockhash.origin
        · simp only [hstop, if_true]
          exact .error_left
        · simp only [hstop, if_false]
          exact .bind (agree_unwrap (h.getData sp)) fun d _ _ => ih _ _ _

theorem Similar.checkPeers (h : Similar m m') (nd : GhostdagData) (cand : Hash) (peers : List Hash)
    (c : Candidate) :
    Agree (m.checkPeers nd cand peers c) (m'.checkPeers nd cand peers c) := by
  induction peers generalizing c with
  | nil => exact .refl _
  | cons p peers ih =>
    refine .bind (h.isDagAncestorOf p cand) fun r _ _ => ?_
    cases r with
    | true => exact ih c
    | false =>
      refine .bind (h.blueAnticoneSizeLoop p _ _ _ _) fun n _ _ => ?_
      refine .bind (.refl _) fun size _ _ => ?_
      rw [h.k]
      by_cases hmany : m'.k < size
      · simp only [hmany, if_true]
        exact .refl _
      · simp only [hmany, if_false]
        by_cases hfull : n = m'.k
        · simp only [hfull, if_true]
          exact .refl _
        · simp only [hfull, if_false]
          exact .bind (.refl _) fun _ _ _ => ih _

theorem Similar.checkLoop (h : Similar m m') (nd : GhostdagData) (cand : Hash) (fuel fuel' : Nat)
    (cb : ChainBlock) (c : Candidate) :
    Agree (m.checkLoop nd cand fuel cb c) (m'.checkLoop nd cand fuel' cb c) := by
  induction fuel generalizing fuel' cb c with
  | zero => exact .error_left
  | succ fuel ih =>
    cases fuel' with
    | zero => exact .error_right
    | succ fuel' =>
      obtain ⟨hash, data⟩ := cb
      have hstep : Agree (m.checkBlueCandidateWithChainBlock nd ⟨hash, data⟩ cand c)
          (m'.checkBlueCandidateWithChainBlock nd ⟨hash, data⟩ cand c) := by
        rw [GhostdagManager.checkBlueCandidateWithChainBlock,
          GhostdagManager.checkBlueCandidateWithChainBlock]
        have hrest : ∀ r : Bool, Agree
            (if r then return (.blue, c) else m.checkPeers nd cand data.mergesetBlues c)
            (if r then return (.blue, c) else m'.checkPeers nd cand data.mergesetBlues c) := by
          intro r
          cases r with
          | true => exact .refl _
          | false => exact h.checkPeers nd cand _ c
        cases hash with
        | none => exact hrest false
        | some x => exact .bind (h.isDagAncestorOf x cand) fun r _ _ => hrest r
      refine .bind hstep fun r _ _ => ?_
      obtain ⟨state, c'⟩ := r
      cases state with
      | blue => exact .refl _
      | red => exact .refl _
      | pending => exact .bind (agree_unwrap (h.getData _)) fun d _ _ => ih _ _ _

theorem Similar.colour (h : Similar m m') (nd : GhostdagData) (cand : Hash) :
    Agree (m.colour nd cand) (m'.colour nd cand) := by
  have hcheck : Agree (m.checkBlueCandidate nd cand) (m'.checkBlueCandidate nd cand) := by
    rw [GhostdagManager.checkBlueCandidate, GhostdagManager.checkBlueCandidate, h.k]
    refine .bind (.refl _) fun limit _ _ => ?_
    by_cases hcap : nd.mergesetBlues.length % (kTypeMax + 1) = limit
    · rw [if_pos hcap, if_pos hcap]
      exact .refl _
    · rw [if_neg hcap, if_neg hcap]
      exact h.checkLoop nd cand _ _ _ _
  exact .bind hcheck fun _ _ _ => .refl _

/-- The data of a block depends on the answers to the queries only. -/
theorem Similar.ghostdag (h : Similar m m') (parents : List Hash) :
    Agree (m.ghostdag parents) (m'.ghostdag parents) := by
  refine .bind (.refl _) fun _ _ _ => ?_
  refine .bind (h.findSelectedParent parents) fun sp _ _ => ?_
  by_cases hor : sp = blockhash.origin
  · rw [if_pos hor, if_pos hor]
    exact .refl _
  · rw [if_neg hor, if_neg hor, h.k, h.getWork]
    refine .bind (.refl _) fun nd _ _ => ?_
    refine .bind (.bind (h.mergesetLoop _ _ _ _ _) fun l _ _ => h.sortBlocks l) fun l _ _ => ?_
    refine .bind (.foldlM h.colour nd) fun nd _ _ => ?_
    exact .bind (agree_unwrap (h.getData sp)) fun d _ _ => .refl _

end GhostdagManager

namespace DagEngine

variable {fr : Reachability.Interval.Fractions} {k : Nat} {genesis : Hash} {e e' e₁ e₂ : DagEngine}
  {b h x y : Hash} {parents : List Hash} {d d' : GhostdagData}

/-- The engines over `genesis` that `add_block` calls lead to. -/
inductive Grown (fr : Reachability.Interval.Fractions) (k : Nat) (genesis : Hash) :
    DagEngine → Prop
  | genesis {e₀ e : DagEngine} (run : DagEngine.new k genesis = .ok e₀)
      (add : e₀.addBlock fr genesis [blockhash.origin] = .ok e) : Grown fr k genesis e
  | add {e e' : DagEngine} {b : Hash} {parents : List Hash} (before : Grown fr k genesis e)
      (alone : OriginAlone parents) (run : e.addBlock fr b parents = .ok e') :
      Grown fr k genesis e'

/-- An engine in which every block but ORIGIN has its parents. -/
structure Ready (k : Nat) (genesis : Hash) (e : DagEngine) : Prop extends e.Inv where
  k : e.k = k
  genesis : e.genesis = genesis
  relations : ∀ {y}, (∃ ps, e.relations.lookup y = some ps) ↔
    y ∈ e.dag.blocks ∧ y ≠ blockhash.origin

/-- The tip is the greatest block by blue work, then hash. -/
structure Best (e : DagEngine) : Prop where
  mem : e.tip ∈ e.dag.blocks
  ne : e.tip ≠ blockhash.origin
  max : ∀ {y}, y ∈ e.dag.blocks → y ≠ blockhash.origin → (e.key y).le (e.key e.tip)

/-- What `e` holds, `e'` holds. -/
structure Within (e e' : DagEngine) : Prop where
  gd : ∀ {h d}, e.gd.lookup h = some d → e'.gd.lookup h = some d
  relations : ∀ {h ps}, e.relations.lookup h = some ps → e'.relations.lookup h = some ps

/-- The data of a block is what `ghostdag` said when the block was added. -/
def Provenance (k : Nat) (genesis : Hash) (e : DagEngine) : Prop :=
  ∀ h d, e.gd.lookup h = some d → h ≠ blockhash.origin → ∃ (before : DagEngine) (ps : List Hash),
    Ready k genesis before ∧ Within before e ∧
    e.relations.lookup h = some ps ∧ before.manager.ghostdag ps = .ok d

theorem Added.relations_self (ha : Added e e' b parents d) : e'.relations.lookup b = some parents := by
  rw [ha.relations, AList.lookup_insert]

theorem Added.relations_of_ne (ha : Added e e' b parents d) (hx : x ≠ b) :
    e'.relations.lookup x = e.relations.lookup x := by
  rw [ha.relations, AList.lookup_insert_ne hx]

theorem Added.mem_blocks_iff (ha : Added e e' b parents d) :
    x ∈ e'.dag.blocks ↔ x = b ∨ x ∈ e.dag.blocks := by
  rw [mem_blocks, mem_blocks]
  by_cases hx : x = b
  · rw [hx, ha.lookup_self]
    simp
  · rw [ha.lookup_of_ne hx]
    simp [hx]

theorem Added.within (ha : Added e e' b parents d) (inv : Ready k genesis e) : Within e e' where
  gd := by
    intro h d' hd
    have hne : h ≠ b := fun hb => ha.new (hb ▸ mem_blocks.mpr ⟨d', hd⟩)
    rw [ha.lookup_of_ne hne]
    exact hd
  relations := by
    intro h ps hps
    have hmem := (inv.relations.mp ⟨ps, hps⟩).1
    have hne : h ≠ b := fun hb => ha.new (hb ▸ hmem)
    rw [ha.relations_of_ne hne]
    exact hps

theorem Ready.add (inv : Ready k genesis e) (ha : Added e e' b parents d) (inv' : e'.Inv) :
    Ready k genesis e' where
  toInv := inv'
  k := ha.k.trans inv.k
  genesis := ha.genesis.trans inv.genesis
  relations := by
    intro y
    have hb : b ≠ blockhash.origin := fun h => ha.new (h ▸ inv.origin_mem)
    rw [ha.mem_blocks_iff]
    by_cases hy : y = b
    · rw [hy, ha.relations_self]
      simp [hb]
    · rw [ha.relations_of_ne hy, inv.relations]
      simp [hy]

theorem Added.key_of_ne (ha : Added e e' b parents d) (hx : x ≠ b) : e'.key x = e.key x := by
  rw [key, key, ha.work hx]

theorem Best.add (best : e.Best) (inv : e.Inv) (ha : Added e e' b parents d) : e'.Best := by
  have hb : b ≠ blockhash.origin := fun h => ha.new (h ▸ inv.origin_mem)
  have hmax : ∀ {y}, y ∈ e'.dag.blocks → y ≠ blockhash.origin →
      (e'.key y).le (e'.key b) ∨ (e'.key y).le (e'.key e.tip) := by
    intro y hy hne
    by_cases hyb : y = b
    · rw [hyb]
      exact Or.inl (SortableBlock.le_refl _)
    · have hym := (ha.mem_blocks_iff.mp hy).resolve_left hyb
      have htip : e.tip ≠ b := fun h => ha.new (h ▸ best.mem)
      rw [ha.key_of_ne hyb, ha.key_of_ne htip]
      exact Or.inr (best.max hym hne)
  rcases ha.tip with ⟨htip, hle⟩ | ⟨htip, hle⟩
  · refine ⟨?_, ?_, fun {y} hy hne => ?_⟩
    · rw [htip, ha.mem_blocks_iff]
      exact Or.inl rfl
    · rw [htip]
      exact hb
    · rw [htip]
      exact (hmax hy hne).elim id fun h => SortableBlock.le_trans h hle
  · refine ⟨?_, ?_, fun {y} hy hne => ?_⟩
    · rw [htip, ha.mem_blocks_iff]
      exact Or.inr best.mem
    · rw [htip]
      exact best.ne
    · rw [htip]
      exact (hmax hy hne).elim (fun h => SortableBlock.le_trans h hle) id

theorem new_ready : Returns False (DagEngine.new k genesis) (fun e => Ready k genesis e ∧
    e.dag = Reachability.Dag.origin ∧ e.tip = genesis) := by
  have hnew : Returns False (DagEngine.new k genesis) (fun e => e.relations = ∅) :=
    Returns.bind ⟨fun _ _ => trivial, False.elim⟩ fun _ _ => Returns.pure rfl
  refine (Returns.and new_spec fun e he => hnew.post he).mono fun e he => ?_
  obtain ⟨⟨inv, hdag, hgenesis, hk, htip⟩, hrel⟩ := he
  refine ⟨⟨inv, hk, hgenesis, fun {y} => ?_⟩, hdag, htip⟩
  rw [hrel, hdag]
  simp [Reachability.Dag.origin]

theorem originAlone_self : OriginAlone [blockhash.origin] := fun _ _ hp => List.mem_singleton.mp hp

/-- What a call of `add_block` does to an engine that is ready for it. -/
theorem Ready.step (inv : Ready k genesis e) (halone : OriginAlone parents)
    (run : e.addBlock fr b parents = .ok e') : ∃ d, e.manager.ghostdag parents = .ok d ∧
      IsData e parents d ∧ Added e e' b parents d ∧ Ready k genesis e' := by
  obtain ⟨d, hrun, hd, ha, inv'⟩ := (addBlock_spec fr inv.toInv fun _ => halone).post run
  exact ⟨d, hrun, hd, ha, inv.add ha inv'⟩

theorem Grown.ready_best (h : Grown fr k genesis e) : Ready k genesis e ∧ e.Best := by
  induction h with
  | genesis run add =>
    obtain ⟨inv, hdag, htip⟩ := new_ready.post run
    obtain ⟨d, _, _, ha, inv'⟩ := inv.step originAlone_self add
    have hb := ha.new
    rw [hdag] at hb
    have hgenesis : genesis ≠ blockhash.origin := fun h => hb (Finset.mem_singleton.mpr h)
    have htip' : _ = genesis := (ha.tip.elim And.left fun h => h.1.trans htip)
    refine ⟨inv', ?_, ?_, fun {y} hy hne => ?_⟩
    · rw [htip', ha.mem_blocks_iff]
      exact Or.inl rfl
    · rw [htip']
      exact hgenesis
    · rw [ha.mem_blocks_iff, hdag] at hy
      rw [hy.resolve_right fun h => hne (Finset.mem_singleton.mp h), htip']
      exact SortableBlock.le_refl _
  | add before alone run ih =>
    obtain ⟨d, _, _, ha, inv'⟩ := ih.1.step alone run
    exact ⟨inv', ih.2.add ih.1.toInv ha⟩

theorem Ready.provenance_add (inv : Ready k genesis e) (hp : Provenance k genesis e)
    (ha : Added e e' b parents d) (hrun : e.manager.ghostdag parents = .ok d) :
    Provenance k genesis e' := by
  intro h d' hd' hne
  have hw := ha.within inv
  by_cases hhb : h = b
  · subst hhb
    rw [ha.lookup_self] at hd'
    cases hd'
    exact ⟨e, parents, inv, hw, ha.relations_self, hrun⟩
  · rw [ha.lookup_of_ne hhb] at hd'
    obtain ⟨before, ps, hr, hwb, hps, hgd⟩ := hp h d' hd' hne
    exact ⟨before, ps, hr, ⟨fun h => hw.gd (hwb.gd h), fun h => hw.relations (hwb.relations h)⟩,
      hw.relations hps, hgd⟩

theorem Grown.provenance (h : Grown fr k genesis e) : Provenance k genesis e := by
  induction h with
  | @genesis e₀ e run add =>
    obtain ⟨inv, hdag, _⟩ := new_ready.post run
    obtain ⟨d, hrun, _, ha, _⟩ := inv.step originAlone_self add
    refine inv.provenance_add (fun h d hd hne => absurd ?_ hne) ha hrun
    have hmem : h ∈ e₀.dag.blocks := mem_blocks.mpr ⟨d, hd⟩
    rw [hdag] at hmem
    exact Finset.mem_singleton.mp hmem
  | add before alone run ih =>
    have inv := before.ready_best.1
    obtain ⟨d, hrun, _, ha, _⟩ := inv.step alone run
    exact inv.provenance_add ih ha hrun

/-- Two engines that hold the same parents and data of the blocks they share. -/
structure Consistent (e₁ e₂ : DagEngine) : Prop where
  relations : ∀ {h ps₁ ps₂}, e₁.relations.lookup h = some ps₁ →
    e₂.relations.lookup h = some ps₂ → ps₁ = ps₂
  gd : ∀ {h d₁ d₂}, e₁.gd.lookup h = some d₁ → e₂.gd.lookup h = some d₂ → d₁ = d₂

theorem Ready.parents_of_lookup {h : Hash} {ps : List Hash} (hps : e.relations.lookup h = some ps) :
    e.dag.parents h = ps := by
  change (e.relations.lookup h).getD [] = ps
  rw [hps]
  rfl

theorem getParents_lookup :
    Returns False (e.getParents h) (fun ps => e.relations.lookup h = some ps) := by
  rw [getParents]
  cases hp : e.relations.lookup h with
  | none => exact Returns.error id
  | some ps => exact Returns.ok rfl

theorem Consistent.reach_iff {k' : Nat} {genesis' : Hash} (hc : Consistent e₁ e₂)
    (inv₁ : Ready k genesis e₁) (inv₂ : Ready k' genesis' e₂) (hy₁ : y ∈ e₁.dag.blocks)
    (hy₂ : y ∈ e₂.dag.blocks) : Reach e₁.dag.parents x y ↔ Reach e₂.dag.parents x y := by
  refine inv₁.index.dag.reach_congr inv₂.index.dag (fun z hz₁ hz₂ => ?_) hy₁ hy₂
  by_cases hor : z = blockhash.origin
  · rw [hor, inv₁.parents_origin, inv₂.parents_origin]
  · obtain ⟨ps₁, hps₁⟩ := inv₁.relations.mpr ⟨hz₁, hor⟩
    obtain ⟨ps₂, hps₂⟩ := inv₂.relations.mpr ⟨hz₂, hor⟩
    rw [Ready.parents_of_lookup hps₁, Ready.parents_of_lookup hps₂, hc.relations hps₁ hps₂]

/-- Consistent engines answer alike, whatever their reachability trees. -/
theorem Consistent.similar (hc : Consistent e₁ e₂) (inv₁ : Ready k genesis e₁)
    (inv₂ : Ready k genesis e₂) : GhostdagManager.Similar e₁.manager e₂.manager where
  genesisHash := inv₁.genesis.trans inv₂.genesis.symm
  k := inv₁.k.trans inv₂.k.symm
  getData _ _ _ h₁ h₂ := hc.gd (getData_spec.post h₁) (getData_spec.post h₂)
  getParents _ _ _ h₁ h₂ := hc.relations (getParents_lookup.post h₁) (getParents_lookup.post h₂)
  isDagAncestorOf x y r₁ r₂ h₁ h₂ := by
    obtain ⟨_, hy₁, hr₁⟩ := (isDagAncestorOf_spec inv₁.toInv).post h₁
    obtain ⟨_, hy₂, hr₂⟩ := (isDagAncestorOf_spec inv₂.toInv).post h₂
    rw [hc.reach_iff inv₁ inv₂ hy₁ hy₂, ← hr₂] at hr₁
    exact Bool.eq_iff_iff.mpr hr₁
  getWork := rfl

theorem Within.consistent (hw : Within e e') : Consistent e e' where
  relations h₁ h₂ := Option.some.inj ((hw.relations h₁).symm.trans h₂)
  gd h₁ h₂ := Option.some.inj ((hw.gd h₁).symm.trans h₂)

theorem Consistent.within {e₂' : DagEngine} (hc : Consistent e₁ e₂) (hw : Within e₂' e₂) :
    Consistent e₁ e₂' where
  relations h₁ h₂ := hc.relations h₁ (hw.relations h₂)
  gd h₁ h₂ := hc.gd h₁ (hw.gd h₂)

/-- A block that is added gets the data that the other engine has for it. -/
theorem Consistent.add (hc : Consistent e₁ e₂) (inv₁ : Ready k genesis e₁)
    (hp₂ : Provenance k genesis e₂) (ha : Added e₁ e' b parents d)
    (hrun : e₁.manager.ghostdag parents = .ok d)
    (hrel : ∀ {h ps₁ ps₂}, e'.relations.lookup h = some ps₁ →
      e₂.relations.lookup h = some ps₂ → ps₁ = ps₂) : Consistent e' e₂ where
  relations := hrel
  gd := by
    intro h d₁ d₂ hd₁ hd₂
    by_cases hhb : h = b
    · subst hhb
      rw [ha.lookup_self] at hd₁
      cases hd₁
      have hb : h ≠ blockhash.origin := fun hor => ha.new (hor ▸ inv₁.origin_mem)
      obtain ⟨before, ps, hr, hw, hps, hgd⟩ := hp₂ h d₂ hd₂ hb
      have hps' := hrel ha.relations_self hps
      subst hps'
      exact ((hc.within hw).similar inv₁ hr).ghostdag parents d d₂ hrun hgd
    · rw [ha.lookup_of_ne hhb] at hd₁
      exact hc.gd hd₁ hd₂

theorem Within.consistent_relations (hw : Within e e')
    (hrel : ∀ {h ps₁ ps₂}, e'.relations.lookup h = some ps₁ →
      e₂.relations.lookup h = some ps₂ → ps₁ = ps₂) {h : Hash} {ps₁ ps₂ : List Hash}
    (h₁ : e.relations.lookup h = some ps₁) (h₂ : e₂.relations.lookup h = some ps₂) : ps₁ = ps₂ :=
  hrel (hw.relations h₁) h₂

/-- Convergence of the engine: blocks with the same parents have the same data, in whatever order
they were added. -/
theorem Grown.consistent (h₁ : Grown fr k genesis e₁) (h₂ : Grown fr k genesis e₂)
    (hrel : ∀ {h ps₁ ps₂}, e₁.relations.lookup h = some ps₁ →
      e₂.relations.lookup h = some ps₂ → ps₁ = ps₂) : Consistent e₁ e₂ := by
  have hp₂ : Provenance k genesis e₂ := h₂.provenance
  induction h₁ with
  | @genesis e₀ e run add =>
    obtain ⟨inv, hdag, _⟩ := new_ready.post run
    obtain ⟨d, hrun, _, ha, _⟩ := inv.step originAlone_self add
    have hw := ha.within inv
    have hc : Consistent e₀ e₂ := by
      refine ⟨fun h₁ h₂ => hw.consistent_relations hrel h₁ h₂, fun {h d₁ d₂} hd₁ hd₂ => ?_⟩
      have hmem : h ∈ e₀.dag.blocks := mem_blocks.mpr ⟨d₁, hd₁⟩
      rw [hdag] at hmem
      have hor : h = blockhash.origin := Finset.mem_singleton.mp hmem
      rw [hor, inv.origin] at hd₁
      rw [hor, h₂.ready_best.1.origin] at hd₂
      exact (Option.some.inj hd₁).symm.trans (Option.some.inj hd₂)
    exact hc.add inv hp₂ ha hrun hrel
  | add before alone run ih =>
    have inv := before.ready_best.1
    obtain ⟨d, hrun, _, ha, _⟩ := inv.step alone run
    have hw := ha.within inv
    exact (ih fun h₁ h₂ => hw.consistent_relations hrel h₁ h₂).add inv hp₂ ha hrun hrel

/-- Two engines that cannot be told apart but by their reachability trees. -/
structure SameView (e₁ e₂ : DagEngine) : Prop where
  genesis : e₁.genesis = e₂.genesis
  k : e₁.k = e₂.k
  gd : ∀ h, e₁.gd.lookup h = e₂.gd.lookup h
  relations : ∀ h, e₁.relations.lookup h = e₂.relations.lookup h
  tip : e₁.tip = e₂.tip
  length : e₁.gd.entries.length = e₂.gd.entries.length

theorem Grown.sameView (h₁ : Grown fr k genesis e₁) (h₂ : Grown fr k genesis e₂)
    (hrel : ∀ h, e₁.relations.lookup h = e₂.relations.lookup h) : SameView e₁ e₂ := by
  obtain ⟨inv₁, best₁⟩ := h₁.ready_best
  obtain ⟨inv₂, best₂⟩ := h₂.ready_best
  have hcons : Consistent e₁ e₂ := h₁.consistent h₂ fun {h ps₁ ps₂} hps₁ hps₂ => by
    rw [hrel, hps₂] at hps₁
    exact (Option.some.inj hps₁).symm
  have hmem : ∀ h, h ∈ e₁.dag.blocks ↔ h ∈ e₂.dag.blocks := by
    intro h
    by_cases hor : h = blockhash.origin
    · rw [hor]
      exact iff_of_true inv₁.origin_mem inv₂.origin_mem
    · have h₁' := inv₁.relations (y := h)
      have h₂' := inv₂.relations (y := h)
      rw [hrel] at h₁'
      exact (and_iff_left hor).symm.trans (h₁'.symm.trans (h₂'.trans (and_iff_left hor)))
  have hgd : ∀ h, e₁.gd.lookup h = e₂.gd.lookup h := by
    intro h
    have hiff := hmem h
    rw [mem_blocks, mem_blocks] at hiff
    cases hd₁ : e₁.gd.lookup h with
    | none =>
      cases hd₂ : e₂.gd.lookup h with
      | none => rfl
      | some d₂ =>
        obtain ⟨d, hd⟩ := hiff.mpr ⟨d₂, hd₂⟩
        rw [hd₁] at hd
        cases hd
    | some d₁ =>
      obtain ⟨d₂, hd₂⟩ := hiff.mp ⟨d₁, hd₁⟩
      rw [hd₂, hcons.gd hd₁ hd₂]
  have hkey : ∀ h, e₁.key h = e₂.key h := by
    intro h
    rw [key, key, work, work, hgd]
  have hblocks : e₁.dag.blocks = e₂.dag.blocks := Finset.ext hmem
  refine ⟨inv₁.genesis.trans inv₂.genesis.symm, inv₁.k.trans inv₂.k.symm, hgd, hrel, ?_, ?_⟩
  · have hle₁ := best₂.max ((hmem _).mp best₁.mem) best₁.ne
    have hle₂ := best₁.max ((hmem _).mpr best₂.mem) best₂.ne
    rw [hkey, hkey] at hle₂
    exact congrArg SortableBlock.hash (SortableBlock.le_antisymm hle₁ hle₂)
  · rw [← card_blocks, ← card_blocks, hblocks]

theorem SameView.data (hv : SameView e₁ e₂) (h : Hash) : e₁.data h = e₂.data h := by
  rw [DagEngine.data, DagEngine.data, getData, getData, hv.gd]

theorem SameView.selectedParent (hv : SameView e₁ e₂) (h : Hash) :
    e₁.selectedParent h = e₂.selectedParent h := by
  rw [DagEngine.selectedParent, DagEngine.selectedParent, hv.data]

theorem SameView.chainLoop (hv : SameView e₁ e₂) (fuel : Nat) (cur : Hash) (above : List Hash) :
    e₁.chainLoop fuel cur above = e₂.chainLoop fuel cur above := by
  induction fuel generalizing cur above with
  | zero => rfl
  | succ fuel ih =>
    rw [DagEngine.chainLoop, DagEngine.chainLoop, hv.genesis, hv.selectedParent]
    by_cases hcur : cur = e₂.genesis
    · rw [if_pos hcur, if_pos hcur]
    · rw [if_neg hcur, if_neg hcur]
      exact congrArg _ (funext fun sp => ih sp (cur :: above))

theorem SameView.selectedChain (hv : SameView e₁ e₂) : e₁.selectedChain = e₂.selectedChain := by
  rw [DagEngine.selectedChain, DagEngine.selectedChain, hv.length, hv.tip]
  exact hv.chainLoop _ _ _

theorem SameView.sortBlocks (hv : SameView e₁ e₂) (l : List Hash) :
    e₁.manager.sortBlocks l = e₂.manager.sortBlocks l := by
  have hsortable : e₁.manager.sortable = e₂.manager.sortable := by
    funext h
    rw [GhostdagManager.sortable, GhostdagManager.sortable, GhostdagManager.getBlueWork,
      GhostdagManager.getBlueWork]
    have hdata : unwrap (e₁.manager.getData h) = unwrap (e₂.manager.getData h) := hv.data h
    rw [hdata]
  rw [GhostdagManager.sortBlocks, GhostdagManager.sortBlocks, hsortable]

theorem SameView.orderSegment (hv : SameView e₁ e₂) (h : Hash) :
    e₁.orderSegment h = e₂.orderSegment h := by
  rw [DagEngine.orderSegment, DagEngine.orderSegment, hv.genesis, hv.data]
  by_cases hgen : h = e₂.genesis
  · simp only [hgen, if_true]
  · simp only [hgen, if_false]
    refine congrArg _ (funext fun d => ?_)
    rw [hv.sortBlocks]

theorem SameView.totalOrder (hv : SameView e₁ e₂) : e₁.totalOrder = e₂.totalOrder := by
  rw [DagEngine.totalOrder, DagEngine.totalOrder, hv.selectedChain]
  exact congrArg _ (funext fun chain => congrArg (fun f => do return (← chain.mapM f).flatten)
    (funext hv.orderSegment))

end DagEngine

end TaoDag.Ghostdag
