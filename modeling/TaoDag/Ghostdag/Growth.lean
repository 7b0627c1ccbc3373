import TaoDag.Ghostdag.Mergeset

namespace TaoDag.Ghostdag

open BlockDag

namespace GhostdagData

theorem bumpSizes_spec {sizes : BlockHashMap Nat} {l : List ((_ : Hash) × Nat)}
    (hl : l.NodupKeys) :
    Returns False (bumpSizes sizes l) (fun r => ∀ x,
      r.lookup x = ((l.dlookup x).map (· + 1)).or (sizes.lookup x)) := by
  induction l generalizing sizes with
  | nil => exact Returns.ok fun x => by simp
  | cons a l ih =>
    obtain ⟨blue, size⟩ := a
    rw [List.nodupKeys_cons] at hl
    refine Returns.bind (addUpTo_spec False.elim) fun n hn => ?_
    refine (ih hl.2).mono fun r hr x => ?_
    rw [hr x]
    by_cases hx : x = blue
    · subst hx
      have hno : l.dlookup x = none := List.dlookup_eq_none.mpr hl.1
      rw [hno, List.dlookup_cons_eq, AList.lookup_insert, hn.1]
      rfl
    · rw [List.dlookup_cons_ne _ _ hx, AList.lookup_insert_ne hx]

/-- `add_blue` appends the block, and counts it for itself and for its peers. -/
theorem addBlue_spec {d : GhostdagData} {block : Hash} {n : Nat} {peers : BlockHashMap Nat} :
    Returns False (d.addBlue block n peers) (fun d' => ∃ sizes,
      d' = { d with mergesetBlues := d.mergesetBlues ++ [block], bluesAnticoneSizes := sizes } ∧
      ∀ x, sizes.lookup x = ((peers.lookup x).map (· + 1)).or
        ((d.bluesAnticoneSizes.insert block n).lookup x)) :=
  Returns.bind (bumpSizes_spec peers.nodupKeys) fun sizes hsizes =>
    Returns.pure ⟨sizes, rfl, hsizes⟩

end GhostdagData

namespace DagEngine

variable {e e' : DagEngine} {b x y h sp : Hash} {l parents : List Hash} {d nd : GhostdagData}

/-- Candidates have been put among the blues or the reds. -/
structure Sorted (nd d : GhostdagData) (candidates : List Hash) : Prop where
  selected : d.selectedParent = nd.selectedParent
  split : ∃ blues reds, d.mergesetBlues = nd.mergesetBlues ++ blues ∧
    d.mergesetReds = nd.mergesetReds ++ reds ∧ (blues ++ reds).Perm candidates

theorem foldColour_sorted :
    Returns False (l.foldlM e.manager.colour nd) (fun d => Sorted nd d l) := by
  have hstart : Sorted nd nd [] := ⟨rfl, [], [], by simp, by simp, .refl _⟩
  refine Returns.foldlM (I := fun pre d => Sorted nd d pre) hstart fun pre a post d _ hd => ?_
  obtain ⟨hsel, blues, reds, hblues, hreds, hperm⟩ := hd
  have hout : Returns False (e.manager.checkBlueCandidate d a) fun _ => True :=
    ⟨fun _ _ => trivial, False.elim⟩
  refine Returns.bind hout fun o _ => ?_
  cases o with
  | blue n peers =>
    refine GhostdagData.addBlue_spec.mono fun d' hd' => ?_
    obtain ⟨sizes, rfl, _⟩ := hd'
    refine ⟨hsel, blues ++ [a], reds, ?_, hreds, ?_⟩
    · simp [hblues]
    · rw [List.append_assoc]
      refine (List.perm_append_comm_assoc blues [a] reds).trans ?_
      exact (hperm.cons a).trans (List.perm_append_singleton a pre).symm
  | red =>
    refine Returns.pure ⟨hsel, blues, reds ++ [a], hblues, ?_, ?_⟩
    · simp [GhostdagData.addRed, hreds]
    · rw [← List.append_assoc]
      exact hperm.append_right [a]

theorem sumWork_spec {ws : List Nat} :
    Returns False (GhostdagManager.sumWork ws) (fun n => n = ws.sum) := by
  induction ws with
  | nil => exact Returns.ok rfl
  | cons w ws ih =>
    refine Returns.bind ih fun n hn => (addUpTo_spec False.elim).mono fun r hr => ?_
    rw [hr.1, hn, List.sum_cons]

def score (e : DagEngine) (h : Hash) : Nat := (e.gd.lookup h).elim 0 (·.blueScore)

/-- What the data of a new block with these parents says, whatever the colours. -/
structure IsData (e : DagEngine) (parents : List Hash) (d : GhostdagData) : Prop where
  mem : d.selectedParent ∈ parents
  known : ∀ p ∈ parents, p ∈ e.dag.blocks
  max : ∀ p ∈ parents, (e.key p).le (e.key d.selectedParent)
  blues : ∃ blues, d.mergesetBlues = d.selectedParent :: blues
  mergeset : IsMergeset e d.selectedParent parents d.unorderedMergesetWithoutSelectedParent
  origin : d.selectedParent = blockhash.origin → d.blueWork = 0 ∧ d.blueScore = 0
  work : d.selectedParent ≠ blockhash.origin →
    d.blueWork = e.work d.selectedParent + d.mergesetBlues.length ∧
    d.blueScore = e.score d.selectedParent + d.mergesetBlues.length

theorem IsMergeset.perm {m m' : List Hash} (h : IsMergeset e sp parents m) (hp : m'.Perm m) :
    IsMergeset e sp parents m' where
  nodup := hp.nodup_iff.mpr h.nodup
  sound x hx := h.sound x (hp.mem_iff.mp hx)
  apart x hx := h.apart x (hp.mem_iff.mp hx)
  start p hq hne := hp.mem_iff.mpr (h.start p hq hne)
  complete x p hq hx := (h.complete x p hq hx).imp_right hp.mem_iff.mpr

/-- ORIGIN comes as a parent only alone. -/
def OriginAlone (parents : List Hash) : Prop :=
  blockhash.origin ∈ parents → ∀ p ∈ parents, p = blockhash.origin

theorem newWithSelectedParent_spec {k : Nat} :
    Returns False (GhostdagData.newWithSelectedParent sp k) (fun d =>
      d = ⟨0, 0, sp, [sp], [], AList.singleton sp 0⟩) :=
  Returns.bind (addUpTo_spec False.elim) fun _ _ => Returns.pure rfl

theorem ghostdag_spec (inv : e.Inv)
    (halone : (∀ p ∈ parents, p ∈ e.dag.blocks) → OriginAlone parents) :
    Returns False (e.manager.ghostdag parents) (IsData e parents) := by
  refine Returns.bind (assert_spec False.elim) fun _ _ => ?_
  refine Returns.bind findSelectedParent_spec fun sp hsp => ?_
  obtain ⟨hmem, hknown, hmax⟩ := hsp
  have ho := halone hknown
  by_cases hor : sp = blockhash.origin
  · rw [if_pos hor]
    refine newWithSelectedParent_spec.mono fun d hd => ?_
    subst hd
    refine ⟨hmem, hknown, hmax, ⟨[], rfl⟩, ?_, fun _ => ⟨rfl, rfl⟩, fun hne => absurd hor hne⟩
    have hnone : GhostdagData.unorderedMergesetWithoutSelectedParent
        ⟨0, 0, sp, [sp], [], AList.singleton sp 0⟩ = [] := rfl
    rw [hnone]
    refine ⟨List.nodup_nil, by simp, by simp,
      fun p hp hne => absurd ((ho (hor ▸ hmem) p hp).trans hor.symm) hne,
      fun x p hp hx => Or.inl ?_⟩
    change Reach e.dag.parents x sp
    rw [hor, ← ho (hor ▸ hmem) p hp]
    exact hx
  · rw [if_neg hor]
    refine Returns.bind newWithSelectedParent_spec fun nd hnd => ?_
    have hmerge : Returns False (e.manager.orderedMergesetWithoutSelectedParent sp parents)
        (IsMergeset e sp parents) :=
      Returns.bind (unorderedMergeset_spec inv) fun m hm =>
        sortBlocks_spec.mono fun l hl => hm.perm hl.1
    refine Returns.bind hmerge fun m hm => ?_
    refine Returns.bind foldColour_sorted fun d hd => ?_
    obtain ⟨hsel, blues, reds, hblues, hreds, hperm⟩ := hd
    subst hnd
    have hdata : Returns False (unwrap (e.manager.getData sp)) _ := unwrap_returns getData_spec
    refine Returns.bind hdata fun spd hspd => ?_
    refine Returns.bind (addU64_spec False.elim) fun score hscore => ?_
    refine Returns.bind sumWork_spec fun added hadded => ?_
    refine Returns.bind (addUpTo_spec False.elim) fun work hwork => Returns.pure ?_
    have hw : e.work sp = spd.blueWork := by
      rw [DagEngine.work, hspd]
      rfl
    have hs : e.score sp = spd.blueScore := by
      rw [DagEngine.score, hspd]
      rfl
    have hsum : (d.mergesetBlues.map e.manager.getWork).sum = d.mergesetBlues.length := by
      change (d.mergesetBlues.map fun _ => 1).sum = _
      simp
    rw [hadded, hsum] at hwork
    have hsel' : d.selectedParent = sp := hsel
    refine ⟨?_, hknown, ?_, ⟨blues, ?_⟩, ?_, fun h => absurd (hsel' ▸ h) hor, fun _ => ?_⟩
    · rw [show (d.finalizeScoreAndWork score work).selectedParent = sp from hsel']
      exact hmem
    · rw [show (d.finalizeScoreAndWork score work).selectedParent = sp from hsel']
      exact hmax
    · change d.mergesetBlues = d.selectedParent :: blues
      rw [hblues, hsel']
      rfl
    · rw [show (d.finalizeScoreAndWork score work).selectedParent = sp from hsel']
      refine hm.perm ?_
      change (d.mergesetBlues.drop 1 ++ d.mergesetReds).Perm m
      rw [hblues, hreds]
      exact hperm
    · rw [show (d.finalizeScoreAndWork score work).selectedParent = sp from hsel', hw, hs]
      exact ⟨hwork.1, hscore.1⟩

/-- The engine with a new block and its data. -/
structure Added (e e' : DagEngine) (b : Hash) (parents : List Hash) (d : GhostdagData) : Prop where
  new : b ∉ e.dag.blocks
  genesis : e'.genesis = e.genesis
  k : e'.k = e.k
  gd : e'.gd = e.gd.insert b d
  relations : e'.relations = e.relations.insert b parents
  tip_mem : e.tip ∈ e'.dag.blocks
  tip : e'.tip = b ∧ (e'.key e.tip).le (e'.key b) ∨
    e'.tip = e.tip ∧ (e'.key b).le (e'.key e.tip)

theorem Added.dag (h : Added e e' b parents d) (hb : b ≠ blockhash.origin) :
    e'.dag = e.dag.add b parents d.selectedParent := by
  have hblocks : e'.dag.blocks = insert b e.dag.blocks := by
    ext x
    rw [Finset.mem_insert, mem_blocks, mem_blocks, h.gd]
    by_cases hx : x = b
    · subst hx
      simp
    · simp [hx]
  have hparents : e'.dag.parents = Function.update e.dag.parents b parents := by
    funext x
    change (e'.relations.lookup x).getD [] = _
    rw [h.relations, Function.update_apply]
    by_cases hx : x = b
    · subst hx
      simp
    · simp [hx, DagEngine.dag]
  have hselected : e'.dag.selectedParent =
      Function.update e.dag.selectedParent b (some d.selectedParent) := by
    funext x
    change (if x = blockhash.origin then none else (e'.gd.lookup x).map (·.selectedParent)) = _
    rw [h.gd, Function.update_apply]
    by_cases hx : x = b
    · subst hx
      simp [hb]
    · simp [hx, DagEngine.dag]
  rw [Reachability.Dag.add, ← hblocks, ← hparents, ← hselected]

theorem Added.lookup_self (h : Added e e' b parents d) : e'.gd.lookup b = some d := by
  rw [h.gd, AList.lookup_insert]

theorem Added.lookup_of_ne (h : Added e e' b parents d) (hx : x ≠ b) :
    e'.gd.lookup x = e.gd.lookup x := by
  rw [h.gd, AList.lookup_insert_ne hx]

theorem Added.work (h : Added e e' b parents d) (hx : x ≠ b) : e'.work x = e.work x := by
  rw [DagEngine.work, h.lookup_of_ne hx]
  rfl

theorem Added.work_self (h : Added e e' b parents d) : e'.work b = d.blueWork := by
  rw [DagEngine.work, h.lookup_self]
  rfl

theorem IsMergeset.merges (hm : IsMergeset e sp parents l) (hsp : sp ∈ parents) :
    Reachability.Merges e.dag parents sp l := by
  intro x
  constructor
  · rintro ⟨p, hp, hx⟩
    exact hm.complete x p hp hx
  · rintro (hx | hx)
    · exact ⟨sp, hsp, hx⟩
    · exact hm.sound x hx

/-- `add_block` stores the data of a block that is not there yet, and keeps the invariant. -/
theorem addBlock_spec (fr : Reachability.Interval.Fractions) (inv : e.Inv)
    (halone : (∀ p ∈ parents, p ∈ e.dag.blocks) → OriginAlone parents) :
    Returns False (e.addBlock fr b parents) (fun e' => ∃ d,
      e.manager.ghostdag parents = .ok d ∧ IsData e parents d ∧ Added e e' b parents d ∧ e'.Inv) := by
  refine Returns.bind (Returns.and (ghostdag_spec inv halone) fun d hd => hd) fun d hd => ?_
  obtain ⟨hdata, hrun⟩ := hd
  have ho := halone hdata.known
  have hadd := Reachability.addBlock_spec (b := b) fr inv.index hdata.known
    (hdata.mergeset.merges hdata.mem)
  refine Returns.bind (unwrap_returns hadd) fun r₁ hr₁ => ?_
  obtain ⟨hnew, hspm, hr₁⟩ := hr₁
  refine Returns.bind (unwrap_returns
    (Reachability.hintVirtualSelectedParent_spec fr hr₁)) fun r hr => ?_
  have hb : b ≠ blockhash.origin := fun h => hnew (h ▸ inv.origin_mem)
  let e₁ : DagEngine := ⟨e.genesis, e.k, r, e.gd.insert b d, e.relations.insert b parents, e.tip⟩
  have hlook : e₁.gd.lookup b = some d := AList.lookup_insert _
  -- Whichever block the new tip is, the rest of the engine is `e₁`.
  have hadded : ∀ tip, e.tip ∈ e₁.dag.blocks →
      (tip = b ∧ (e₁.key e.tip).le (e₁.key b) ∨ tip = e.tip ∧ (e₁.key b).le (e₁.key e.tip)) →
      Added e { e₁ with tip } b parents d ∧ { e₁ with tip }.Inv := by
    intro tip htip hcases
    have hadd : Added e { e₁ with tip } b parents d := ⟨hnew, rfl, rfl, rfl, rfl, htip, hcases⟩
    refine ⟨hadd, ?_, ?_, fun {h d'} hd' hne => ?_, fun {x y} hx hne => ?_⟩
    · rw [hadd.dag hb]
      exact hr
    · rw [hadd.lookup_of_ne (Ne.symm hb)]
      exact inv.origin
    · rw [hadd.dag hb]
      change d'.selectedParent ∈ Function.update e.dag.parents b parents h
      by_cases hhb : h = b
      · subst hhb
        rw [hadd.lookup_self] at hd'
        cases hd'
        rw [Function.update_self]
        exact hdata.mem
      · rw [hadd.lookup_of_ne hhb] at hd'
        rw [Function.update_of_ne hhb]
        exact inv.selected hd' hne
    · rw [hadd.dag hb] at hx
      change x ∈ Function.update e.dag.parents b parents y at hx
      by_cases hyb : y = b
      · subst hyb
        rw [Function.update_self] at hx
        have hxy : x ≠ y := fun hxy => hnew (hxy ▸ hdata.known x hx)
        rw [hadd.work_self, hadd.work hxy]
        have hsel : d.selectedParent ≠ blockhash.origin := fun hsel =>
          hne (ho (hsel ▸ hdata.mem) x hx)
        obtain ⟨blues, hblues⟩ := hdata.blues
        rw [(hdata.work hsel).1, hblues, List.length_cons]
        have hle : e.work x ≤ e.work d.selectedParent := by
          rcases hdata.max x hx with h | h
          · exact h.le
          · exact h.1.le
        omega
      · rw [Function.update_of_ne hyb] at hx
        have hxb : x ≠ b := fun hxb => hnew (hxb ▸ inv.index.dag.closed hx)
        rw [hadd.work hyb, hadd.work hxb]
        exact inv.work hx hne
  have htip : Returns False (e₁.data e.tip) fun td => e₁.gd.lookup e.tip = some td :=
    unwrap_returns getData_spec
  refine Returns.bind htip fun td htd => ?_
  have hwork : e₁.work e.tip = td.blueWork := by
    rw [DagEngine.work, htd]
    rfl
  have hworkb : e₁.work b = d.blueWork := by
    rw [DagEngine.work, hlook]
    rfl
  have hmem : e.tip ∈ e₁.dag.blocks := mem_blocks.mpr ⟨td, htd⟩
  by_cases hbest : td.blueWork < d.blueWork ∨ (d.blueWork = td.blueWork ∧ e.tip.toNat < b.toNat)
  · simp only [hbest, if_true]
    refine Returns.pure ⟨d, hrun, hdata, hadded b hmem (Or.inl ⟨rfl, ?_⟩)⟩
    change e₁.work e.tip < e₁.work b ∨ (e₁.work e.tip = e₁.work b ∧ e.tip.toNat ≤ b.toNat)
    omega
  · simp only [hbest, if_false]
    refine Returns.pure ⟨d, hrun, hdata, hadded e.tip hmem (Or.inr ⟨rfl, ?_⟩)⟩
    change e₁.work b < e₁.work e.tip ∨ (e₁.work b = e₁.work e.tip ∧ b.toNat ≤ e.tip.toNat)
    omega

/-- A new engine holds ORIGIN alone. -/
theorem new_spec {k : Nat} {genesis : Hash} :
    Returns False (DagEngine.new k genesis) (fun e => e.Inv ∧ e.dag = Reachability.Dag.origin ∧
      e.genesis = genesis ∧ e.k = k ∧ e.tip = genesis) := by
  have hinit : Returns False (Reachability.init Reachability.MemoryReachabilityStore.empty)
      (Reachability.DagInv blockhash.origin Reachability.Dag.origin) :=
    ⟨fun s hs => Reachability.init_dagInv hs, False.elim⟩
  refine Returns.bind (unwrap_returns hinit) fun reach hreach => Returns.pure ?_
  let e : DagEngine := ⟨genesis, k, reach, AList.singleton blockhash.origin
    GhostdagManager.originGhostdagData, ∅, genesis⟩
  have hlook : ∀ {h : Hash}, h ≠ blockhash.origin → e.gd.lookup h = none := fun hh =>
    AList.lookup_eq_none.mpr fun hmem => hh (by simpa [e, AList.mem_keys] using hmem)
  have hdag : e.dag = Reachability.Dag.origin := by
    rw [dag, Reachability.Dag.origin]
    congr 1
    funext h
    by_cases hh : h = blockhash.origin
    · simp [hh]
    · rw [if_neg hh, hlook hh]
      rfl
  refine ⟨⟨hdag ▸ hreach, rfl, fun {h d} hd hne => ?_, fun {x y} hx => ?_⟩, hdag, rfl, rfl, rfl⟩
  · change e.gd.lookup h = some d at hd
    rw [hlook hne] at hd
    cases hd
  · change x ∈ e.dag.parents y at hx
    rw [hdag] at hx
    cases hx

end DagEngine

end TaoDag.Ghostdag
