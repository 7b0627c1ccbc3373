import TaoDag.Framework.KCluster
import TaoDag.Ghostdag.Growth

namespace TaoDag.Ghostdag

open BlockDag KCluster
open GhostdagManager (Candidate ChainBlock)

namespace DagEngine

variable {e e' : DagEngine} {b x y h sp cand : Hash} {l parents peers : List Hash}
  {d nd : GhostdagData} {S F R : Finset Hash}

open Classical in
/-- `Blue(b)`: the blues merged along the selected-parent chain of `b`, ORIGIN excluded. -/
noncomputable def blue (e : DagEngine) (b : Hash) : Finset Hash :=
  e.dag.blocks.filter fun x => x ≠ blockhash.origin ∧
    ∃ c d, e.dag.OnChain c b ∧ e.gd.lookup c = some d ∧ x ∈ d.mergesetBlues

/-- The anticone size of `x` within `S`. -/
noncomputable def antiCount (e : DagEngine) (S : Finset Hash) (x : Hash) : Nat :=
  count (Anticone e.dag.parents) S x

/-- The size that the maps along the selected chain hold for `x`, from `sizes` and then from the
data of `sp` on. -/
inductive ChainSize (e : DagEngine) (x : Hash) : BlockHashMap Nat → Hash → Nat → Prop
  | here {sizes : BlockHashMap Nat} {sp : Hash} {n : Nat} (found : sizes.lookup x = some n) :
      ChainSize e x sizes sp n
  | up {sizes : BlockHashMap Nat} {sp : Hash} {d : GhostdagData} {n : Nat}
      (absent : sizes.lookup x = none) (genesis : sp ≠ e.genesis) (origin : sp ≠ blockhash.origin)
      (data : e.gd.lookup sp = some d)
      (above : ChainSize e x d.bluesAnticoneSizes d.selectedParent n) : ChainSize e x sizes sp n

theorem mem_blue : x ∈ e.blue b ↔ x ∈ e.dag.blocks ∧ x ≠ blockhash.origin ∧
    ∃ c d, e.dag.OnChain c b ∧ e.gd.lookup c = some d ∧ x ∈ d.mergesetBlues := by
  simp only [blue, Finset.mem_filter]

theorem onChain_iff (hb : b ≠ blockhash.origin) (hd : e.gd.lookup b = some d) {c : Hash} :
    e.dag.OnChain c b ↔ c = b ∨ e.dag.OnChain c d.selectedParent := by
  have hsel : e.dag.selectedParent b = some d.selectedParent := by
    change (if b = blockhash.origin then none else (e.gd.lookup b).map (·.selectedParent)) = _
    rw [if_neg hb, hd]
    rfl
  constructor
  · intro hc
    rcases Relation.ReflTransGen.cases_tail hc with rfl | ⟨p, hp, hpb⟩
    · exact Or.inl rfl
    · rw [hsel] at hpb
      cases hpb
      exact Or.inr hp
  · rintro (rfl | hc)
    · exact .refl
    · exact hc.tail hsel

theorem onChain_origin {c : Hash} (hc : e.dag.OnChain c blockhash.origin) :
    c = blockhash.origin := by
  rcases Relation.ReflTransGen.cases_tail hc with h | ⟨p, _, hp⟩
  · exact h.symm
  · change (if blockhash.origin = blockhash.origin then none
      else (e.gd.lookup blockhash.origin).map (·.selectedParent)) = some p at hp
    rw [if_pos rfl] at hp
    cases hp

theorem Inv.blue_origin (inv : e.Inv) : e.blue blockhash.origin = ∅ := by
  refine Finset.eq_empty_of_forall_notMem fun x hx => ?_
  obtain ⟨_, _, c, d, hc, hd, hxd⟩ := mem_blue.mp hx
  rw [onChain_origin hc, inv.origin] at hd
  cases hd
  cases hxd

/-- The blue set of a block: its own merged blues, over the blue set of its selected parent. -/
theorem mem_blue_iff (hb : b ≠ blockhash.origin) (hd : e.gd.lookup b = some d)
    (hblues : ∀ x ∈ d.mergesetBlues, x ∈ e.dag.blocks) :
    x ∈ e.blue b ↔ x ∈ d.mergesetBlues ∧ x ≠ blockhash.origin ∨ x ∈ e.blue d.selectedParent := by
  rw [mem_blue, mem_blue]
  constructor
  · rintro ⟨hx, hne, c, d', hc, hd', hxd⟩
    rcases (onChain_iff hb hd).mp hc with rfl | hc
    · rw [hd] at hd'
      cases hd'
      exact Or.inl ⟨hxd, hne⟩
    · exact Or.inr ⟨hx, hne, c, d', hc, hd', hxd⟩
  · rintro (⟨hx, hne⟩ | ⟨hx, hne, c, d', hc, hd', hxd⟩)
    · exact ⟨hblues x hx, hne, b, d, (onChain_iff hb hd).mpr (Or.inl rfl), hd, hx⟩
    · exact ⟨hx, hne, c, d', (onChain_iff hb hd).mpr (Or.inr hc), hd', hxd⟩

theorem ChainSize.unique {sizes : BlockHashMap Nat} {n n' : Nat} (hn : ChainSize e x sizes sp n)
    (hn' : ChainSize e x sizes sp n') : n = n' := by
  induction hn with
  | here found =>
    cases hn' with
    | here found' => exact Option.some.inj (found.symm.trans found')
    | up absent' _ _ _ _ => exact absurd (found.symm.trans absent') (by simp)
  | up absent _ _ data _ ih =>
    cases hn' with
    | here found' => exact absurd (found'.symm.trans absent) (by simp)
    | up _ _ _ data' above' =>
      rw [data] at data'
      cases data'
      exact ih above'

theorem blueAnticoneSizeLoop_spec {fuel : Nat} {sizes : BlockHashMap Nat} :
    Returns False (e.manager.blueAnticoneSizeLoop x fuel sizes sp) (ChainSize e x sizes sp) := by
  induction fuel generalizing sizes sp with
  | zero => exact Returns.error id
  | succ fuel ih =>
    rw [GhostdagManager.blueAnticoneSizeLoop]
    cases hl : sizes.lookup x with
    | some n => exact Returns.ok (.here hl)
    | none =>
      by_cases hstop : sp = e.manager.genesisHash ∨ sp = blockhash.origin
      · simp only [hstop, if_true]
        exact Returns.error id
      · simp only [hstop, if_false]
        rw [not_or] at hstop
        have hdata : Returns False (unwrap (e.manager.getData sp)) _ := unwrap_returns getData_spec
        refine Returns.bind hdata fun d hd => ih.mono fun n hn => ?_
        exact .up hl hstop.1 hstop.2 hd hn

theorem blueAnticoneSize_spec :
    Returns False (e.manager.blueAnticoneSize x d)
      (ChainSize e x d.bluesAnticoneSizes d.selectedParent) := blueAnticoneSizeLoop_spec

/-- The blues of the new block so far: the set `S` with its exact anticone sizes. -/
structure Counted (e : DagEngine) (sp : Hash) (S : Finset Hash) (nd : GhostdagData) : Prop where
  selected : nd.selectedParent = sp
  members : ∀ x, x ∈ S ↔ x ∈ nd.mergesetBlues ∨ x ∈ e.blue sp
  nodup : nd.mergesetBlues.Nodup
  disjoint : ∀ x ∈ nd.mergesetBlues, x ∉ e.blue sp
  above : ∀ x ∈ S, x ≠ blockhash.origin
  cluster : IsCluster (Anticone e.dag.parents) e.k S
  sizes : ∀ x ∈ S, ChainSize e x nd.bluesAnticoneSizes sp (e.antiCount S x)

/-- The peers met so far that are not in the past of the candidate, each with room for it. -/
structure Found (e : DagEngine) (S F : Finset Hash) (cand : Hash)
    (c : Candidate) : Prop where
  sub : ∀ x ∈ F, x ∈ S ∧ ¬Reach e.dag.parents x cand
  lookup : ∀ x, c.bluesAnticoneSizes.lookup x = if x ∈ F then some (e.antiCount S x) else none
  size : c.blueAnticoneSize = F.card
  le : F.card ≤ e.k
  room : ∀ x ∈ F, e.antiCount S x < e.k

/-- By the greedy rule over `S` the candidate is blue. -/
def Admitted (e : DagEngine) (S : Finset Hash) (cand : Hash) : Prop :=
  Admits (Anticone e.dag.parents) e.k S cand

theorem card_le_antiCount (hsub : ∀ x ∈ F, x ∈ S ∧ ¬Reach e.dag.parents x cand)
    (hlater : ∀ x ∈ S, ¬Reach e.dag.parents cand x) : F.card ≤ e.antiCount S cand :=
  Finset.card_le_card fun x hx =>
    mem_anticone.mpr ⟨(hsub x hx).1, hlater x (hsub x hx).1, (hsub x hx).2⟩

theorem checkPeers_spec (inv : e.Inv) (hs : Counted e sp S nd) (hcand : cand ∈ e.dag.blocks)
    (hlater : ∀ x ∈ S, ¬Reach e.dag.parents cand x) {c : Candidate}
    (hf : Found e S F cand c) (hpeers : ∀ p ∈ peers, p ∈ S ∨ p = blockhash.origin)
    (hnodup : peers.Nodup) (hdisj : ∀ p ∈ peers, p ∉ F) :
    Returns False (e.manager.checkPeers nd cand peers c) (fun r =>
      r.1 = .red ∧ ¬e.Admitted S cand ∨
      r.1 = .pending ∧ ∃ F', Found e S F' cand r.2 ∧
        ∀ x, x ∈ F' ↔ x ∈ F ∨ x ∈ peers ∧ ¬Reach e.dag.parents x cand) := by
  induction peers generalizing F c with
  | nil => exact Returns.ok (Or.inr ⟨rfl, F, hf, by simp⟩)
  | cons p peers ih =>
    rw [List.forall_mem_cons] at hpeers hdisj
    rw [List.nodup_cons] at hnodup
    refine Returns.bind (isDagAncestorOf_spec inv) fun r hr => ?_
    obtain ⟨-, -, hr⟩ := hr
    cases r with
    | true =>
      have hp := hr.mp rfl
      refine (ih hf hpeers.2 hnodup.2 hdisj.2).mono fun r' hr' => hr'.imp_right ?_
      rintro ⟨hpend, F', hF', hmem⟩
      refine ⟨hpend, F', hF', fun x => ?_⟩
      rw [hmem, List.mem_cons]
      refine or_congr_right (and_congr_left fun hx => ?_)
      have hne : x ≠ p := fun hxp => hx (hxp ▸ hp)
      exact (or_iff_right hne).symm
    | false =>
      have hp : ¬Reach e.dag.parents p cand := fun h => by cases hr.mpr h
      have hpS : p ∈ S := hpeers.1.resolve_right fun h => hp (h ▸ inv.origin_reach hcand)
      have hanti : Anticone e.dag.parents cand p := ⟨hlater p hpS, hp⟩
      have hsize : Returns False (e.manager.blueAnticoneSize p nd) fun n =>
          n = e.antiCount S p := by
        refine blueAnticoneSize_spec.mono fun n hn => ?_
        rw [hs.selected] at hn
        exact hn.unique (hs.sizes p hpS)
      refine Returns.bind hsize fun n hn => ?_
      subst hn
      refine Returns.bind (addUpTo_spec False.elim) fun m hm => ?_
      have hcard : (insert p F).card = F.card + 1 := Finset.card_insert_of_notMem hdisj.1
      have hsub : ∀ x ∈ insert p F, x ∈ S ∧ ¬Reach e.dag.parents x cand :=
        (Finset.forall_mem_insert ..).mpr ⟨⟨hpS, hp⟩, hf.sub⟩
      have hmcard : m = (insert p F).card := by
        rw [hm.1, hf.size, hcard]
      by_cases hmany : e.manager.k < m
      · simp only [hmany, if_true]
        refine Returns.pure (Or.inl ⟨rfl, fun ha => ?_⟩)
        have hle := card_le_antiCount hsub hlater
        have hka : e.antiCount S cand ≤ e.k := ha.1
        have hkm : e.k < m := hmany
        omega
      · simp only [hmany, if_false]
        by_cases hfull : e.antiCount S p = e.manager.k
        · simp only [hfull, if_true]
          refine Returns.pure (Or.inl ⟨rfl, fun ha => ?_⟩)
          have hlt : e.antiCount S p < e.k := ha.2 p hpS hanti
          rw [hfull] at hlt
          exact lt_irrefl _ hlt
        · simp only [hfull, if_false]
          refine Returns.bind (assert_spec False.elim) fun _ hle => ?_
          have hroom : e.antiCount S p < e.k := lt_of_le_of_ne hle hfull
          have hf' : Found e S (insert p F) cand
              ⟨c.bluesAnticoneSizes.insert p (e.antiCount S p), m⟩ := by
            refine ⟨hsub, fun x => ?_, hmcard, ?_, ?_⟩
            · by_cases hx : x = p
              · subst hx
                rw [AList.lookup_insert, if_pos (Finset.mem_insert_self ..)]
              · rw [AList.lookup_insert_ne hx, hf.lookup]
                simp [hx]
            · have hkm : ¬e.k < m := hmany
              omega
            · exact (Finset.forall_mem_insert ..).mpr ⟨hroom, hf.room⟩
          have hdisj' : ∀ q ∈ peers, q ∉ insert p F := by
            intro q hq hmem
            rcases Finset.mem_insert.mp hmem with rfl | hmem
            · exact hnodup.1 hq
            · exact hdisj.2 q hq hmem
          refine (ih hf' hpeers.2 hnodup.2 hdisj').mono fun r' hr' => hr'.imp_right ?_
          rintro ⟨hpend, F', hF', hmem⟩
          refine ⟨hpend, F', hF', fun x => ?_⟩
          rw [hmem, Finset.mem_insert, List.mem_cons]
          constructor
          · rintro ((rfl | hx) | ⟨hx, hxc⟩)
            · exact Or.inr ⟨Or.inl rfl, hp⟩
            · exact Or.inl hx
            · exact Or.inr ⟨Or.inr hx, hxc⟩
          · rintro (hx | ⟨rfl | hx, hxc⟩)
            · exact Or.inl (Or.inr hx)
            · exact Or.inl (Or.inl rfl)
            · exact Or.inr ⟨hx, hxc⟩

/-- The data of a stored block other than ORIGIN: its blue set is a `k`-cluster whose exact anticone
sizes its maps hold, its blue score is the size of that set, and its mergeset what it merges. -/
structure Coloured (e : DagEngine) (b : Hash) (d : GhostdagData) : Prop where
  head : ∃ blues, d.mergesetBlues = d.selectedParent :: blues
  known : ∀ x ∈ d.mergesetBlues, x ∈ e.dag.blocks
  past : ∀ x ∈ e.blue b, Past e.dag.parents x b
  nodup : d.mergesetBlues.Nodup
  cluster : IsCluster (Anticone e.dag.parents) e.k (e.blue b)
  sizes : ∀ x ∈ e.blue b,
    ChainSize e x d.bluesAnticoneSizes d.selectedParent (e.antiCount (e.blue b) x)
  score : d.blueScore = (e.blue b).card
  merged : ∀ x, x ∈ d.unorderedMergesetWithoutSelectedParent ↔
    Past e.dag.parents x b ∧ ¬Reach e.dag.parents x d.selectedParent
  merged_nodup : d.unorderedMergesetWithoutSelectedParent.Nodup

/-- Every stored block is coloured. The genesis block comes first, and merges ORIGIN alone. -/
structure ColourInv (e : DagEngine) : Prop extends e.Inv where
  coloured : ∀ {b d}, e.gd.lookup b = some d → b ≠ blockhash.origin → Coloured e b d
  genesis : e.blue e.genesis = ∅
  start : e.genesis ∈ e.dag.blocks ∨ e.tip = e.genesis ∧ e.dag.blocks = {blockhash.origin}

/-- The selected parent reaches its blue set. -/
theorem ColourInv.blue_reach (inv : e.ColourInv) (hb : b ∈ e.dag.blocks) (hx : x ∈ e.blue b) :
    Reach e.dag.parents x b := by
  by_cases hor : b = blockhash.origin
  · rw [hor, inv.blue_origin] at hx
    cases hx
  · obtain ⟨d, hd⟩ := mem_blocks.mp hb
    exact ((inv.coloured hd hor).past x hx).reach

theorem Coloured.disjoint (inv : e.ColourInv) (hc : Coloured e b d) :
    ∀ x ∈ d.mergesetBlues, x ∉ e.blue d.selectedParent := by
  intro x hx hblue
  obtain ⟨blues, hblues⟩ := hc.head
  have hsp : d.selectedParent ∈ e.dag.blocks := hc.known _ (by simp [hblues])
  have hreach := inv.blue_reach hsp hblue
  rw [hblues, List.mem_cons] at hx
  rcases hx with rfl | hx
  · by_cases hor : d.selectedParent = blockhash.origin
    · rw [hor, inv.blue_origin] at hblue
      cases hblue
    · obtain ⟨d', hd'⟩ := mem_blocks.mp hsp
      exact inv.index.dag.acyclic ((inv.coloured hd' hor).past _ hblue)
  · have hm : x ∈ d.unorderedMergesetWithoutSelectedParent := by
      rw [GhostdagData.unorderedMergesetWithoutSelectedParent, hblues]
      exact List.mem_append_left _ hx
    exact ((hc.merged x).mp hm).2 hreach

/-- How the walk back along the selected chain stands: the blues `R` of the chain block and of its
chain are to be visited, the others of `S` have been. -/
structure Walk (e : DagEngine) (S R F : Finset Hash) (cand : Hash)
    (cb : ChainBlock) : Prop where
  sub : R ⊆ S
  visited : ∀ x ∈ S, x ∈ R ∨ x ∈ F ∨ Reach e.dag.parents x cand
  apart : ∀ x ∈ F, x ∉ R
  hash : ∀ h, cb.hash = some h → ∀ x ∈ R, Reach e.dag.parents x h
  members : cb.hash ≠ some blockhash.origin → ∀ x, x ∈ R ↔
    x ∈ cb.data.mergesetBlues ∧ x ≠ blockhash.origin ∨ x ∈ e.blue cb.data.selectedParent
  nodup : cb.data.mergesetBlues.Nodup
  disjoint : cb.hash ≠ some blockhash.origin → ∀ x ∈ cb.data.mergesetBlues,
    x ∉ e.blue cb.data.selectedParent

/-- What the colouring of a candidate says. -/
def Verdict (e : DagEngine) (S : Finset Hash) (cand : Hash) : ColoringOutput → Prop
  | .blue n peers => e.Admitted S cand ∧ n = e.antiCount S cand ∧ ∀ x, peers.lookup x =
      if x ∈ anticone (Anticone e.dag.parents) S cand then some (e.antiCount S x) else none
  | .red => ¬e.Admitted S cand

/-- The peers found are the whole anticone of the candidate. -/
theorem Found.verdict {c : Candidate} (hf : Found e S F cand c)
    (hlater : ∀ x ∈ S, ¬Reach e.dag.parents cand x)
    (hall : ∀ x ∈ S, x ∈ F ∨ Reach e.dag.parents x cand) :
    Verdict e S cand (.blue c.blueAnticoneSize c.bluesAnticoneSizes) := by
  have hset : anticone (Anticone e.dag.parents) S cand = F := by
    ext x
    rw [mem_anticone]
    constructor
    · rintro ⟨hx, hanti⟩
      exact (hall x hx).resolve_right hanti.2
    · intro hx
      obtain ⟨hxS, hxc⟩ := hf.sub x hx
      exact ⟨hxS, hlater x hxS, hxc⟩
  have hcount : e.antiCount S cand = F.card := by rw [antiCount, count, hset]
  refine ⟨⟨?_, fun x hx hanti => ?_⟩, ?_, fun x => ?_⟩
  · exact hcount.le.trans hf.le
  · refine hf.room x ?_
    rw [← hset]
    exact mem_anticone.mpr ⟨hx, hanti⟩
  · rw [hcount, hf.size]
  · rw [hset, hf.lookup]

theorem checkLoop_spec (inv : e.ColourInv) (hs : Counted e sp S nd) (hcand : cand ∈ e.dag.blocks)
    (hlater : ∀ x ∈ S, ¬Reach e.dag.parents cand x) {fuel : Nat}
    {cb : ChainBlock} {c : Candidate} (hf : Found e S F cand c)
    (hw : Walk e S R F cand cb) :
    Returns False (e.manager.checkLoop nd cand fuel cb c) (Verdict e S cand) := by
  induction fuel generalizing F R cb c with
  | zero => exact Returns.error id
  | succ fuel ih =>
    obtain ⟨hash, data⟩ := cb
    -- One chain block: all that is left is in the past of the candidate, or its blues are visited.
    have hstep : Returns False (e.manager.checkBlueCandidateWithChainBlock nd ⟨hash, data⟩ cand c) (fun r =>
        r.1 = .blue ∧ r.2 = c ∧ (∀ x ∈ R, Reach e.dag.parents x cand) ∨
        r.1 = .red ∧ ¬e.Admitted S cand ∨
        r.1 = .pending ∧ hash ≠ some blockhash.origin ∧ ∃ F', Found e S F' cand r.2 ∧
          ∀ x, x ∈ F' ↔ x ∈ F ∨ x ∈ data.mergesetBlues ∧ ¬Reach e.dag.parents x cand) := by
      have hrest : ∀ r : Bool, (r = true → ∀ x ∈ R, Reach e.dag.parents x cand) ∧
          (r = false → hash ≠ some blockhash.origin) →
          Returns False (if r then return (.blue, c)
            else e.manager.checkPeers nd cand data.mergesetBlues c) (fun r =>
          r.1 = .blue ∧ r.2 = c ∧ (∀ x ∈ R, Reach e.dag.parents x cand) ∨
          r.1 = .red ∧ ¬e.Admitted S cand ∨
          r.1 = .pending ∧ hash ≠ some blockhash.origin ∧ ∃ F', Found e S F' cand r.2 ∧
            ∀ x, x ∈ F' ↔ x ∈ F ∨ x ∈ data.mergesetBlues ∧ ¬Reach e.dag.parents x cand) := by
        intro r hr
        cases r with
        | true => exact Returns.pure (Or.inl ⟨rfl, rfl, hr.1 rfl⟩)
        | false =>
          have hne := hr.2 rfl
          have hmem := hw.members hne
          refine (checkPeers_spec inv.toInv hs hcand hlater hf (fun p hp => ?_) hw.nodup
            fun p hp hpF => ?_).mono fun r' hr' => ?_
          · by_cases hor : p = blockhash.origin
            · exact Or.inr hor
            · exact Or.inl (hw.sub ((hmem p).mpr (Or.inl ⟨hp, hor⟩)))
          · have hor : p ≠ blockhash.origin := hs.above p (hf.sub p hpF).1
            exact hw.apart p hpF ((hmem p).mpr (Or.inl ⟨hp, hor⟩))
          · rcases hr' with h | ⟨hpend, h⟩
            · exact Or.inr (Or.inl h)
            · exact Or.inr (Or.inr ⟨hpend, hne, h⟩)
      rw [GhostdagManager.checkBlueCandidateWithChainBlock]
      cases hash with
      | none =>
        refine Returns.bind (Returns.pure ?_) hrest
        exact ⟨fun h => (by cases h), fun _ h => (by cases h)⟩
      | some h =>
        have hfuture : Returns False (e.manager.isDagAncestorOf h cand) (fun r =>
            (r = true → ∀ x ∈ R, Reach e.dag.parents x cand) ∧
            (r = false → some h ≠ some blockhash.origin)) := by
          refine (isDagAncestorOf_spec inv.toInv).mono fun r hr =>
            ⟨fun hr' x hx => (hw.hash h rfl x hx).trans (hr.2.2.mp hr'), fun hr' heq => ?_⟩
          cases heq
          rw [hr.2.2.mpr (inv.origin_reach hcand)] at hr'
          cases hr'
        exact Returns.bind hfuture hrest
    refine Returns.bind hstep fun r hr => ?_
    obtain ⟨state, c'⟩ := r
    rcases hr with ⟨hblue, hc, hall⟩ | ⟨hred, hnot⟩ | ⟨hpend, hne, F', hf', hF'⟩
    · simp only at hblue hc
      subst hblue hc
      refine Returns.pure (hf.verdict hlater fun x hx => ?_)
      rcases hw.visited x hx with h | h | h
      · exact Or.inr (hall x h)
      · exact Or.inl h
      · exact Or.inr h
    · simp only at hred
      subst hred
      exact Returns.pure hnot
    · simp only at hpend hf'
      subst hpend
      have hdata : Returns False (unwrap (e.manager.getData data.selectedParent)) _ :=
        unwrap_returns getData_spec
      refine Returns.bind hdata fun d' hd' => ?_
      have hmem := hw.members hne
      have hR' : ∀ x ∈ e.blue data.selectedParent, x ∈ R := fun x hx => (hmem x).mpr (Or.inr hx)
      refine ih hf' ⟨fun x hx => hw.sub (hR' x hx), fun x hx => ?_, fun x hx hx' => ?_,
        fun h hh x hx => ?_, fun hor x => ?_, ?_, fun hor => ?_⟩
      · rcases hw.visited x hx with h | h | h
        · rcases (hmem x).mp h with ⟨hb, _⟩ | hb
          · by_cases hxc : Reach e.dag.parents x cand
            · exact Or.inr (Or.inr hxc)
            · exact Or.inr (Or.inl ((hF' x).mpr (Or.inr ⟨hb, hxc⟩)))
          · exact Or.inl hb
        · exact Or.inr (Or.inl ((hF' x).mpr (Or.inl h)))
        · exact Or.inr (Or.inr h)
      · rcases (hF' x).mp hx with hxF | ⟨hxb, _⟩
        · exact hw.apart x hxF (hR' x hx')
        · exact hw.disjoint hne x hxb hx'
      · cases hh
        exact inv.blue_reach (mem_blocks.mpr ⟨d', hd'⟩) hx
      · have hor' : data.selectedParent ≠ blockhash.origin := fun h => hor (by rw [h])
        exact mem_blue_iff hor' hd' (inv.coloured hd' hor').known
      · by_cases hor : data.selectedParent = blockhash.origin
        · rw [hor, inv.origin] at hd'
          cases hd'
          exact List.nodup_nil
        · exact (inv.coloured hd' hor).nodup
      · have hor' : data.selectedParent ≠ blockhash.origin := fun h => hor (by rw [h])
        exact (inv.coloured hd' hor').disjoint inv

end DagEngine

end TaoDag.Ghostdag
