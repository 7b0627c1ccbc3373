import TaoDag.Reachability.Slack

namespace TaoDag.Reachability

open MemoryReachabilityStore OrderedTree ReindexOperationContext

variable {o : Hash} {C : Prop} {s s₁ s' : Store} {side : Side} {gap ogap : Store → Hash → Nat}
  {a p c root top : Hash} {k : Nat}

/-- The way from `c` up to a child of `top`: the blocks above `c`, the nearest first. -/
inductive Climb (kids : Hash → List Hash) (top : Hash) : Hash → List Hash → Prop
  | here {c : Hash} (h : c ∈ kids top) : Climb kids top c []
  | up {c p : Hash} {up : List Hash} (h : c ∈ kids p) (climb : Climb kids top p up) :
      Climb kids top c (p :: up)

theorem Climb.parent {kids : Hash → List Hash} {up : List Hash} (h : Climb kids top c up) :
    ∃ p, c ∈ kids p ∧ (up = [] ∧ p = top ∨ ∃ rest, up = p :: rest ∧ Climb kids top p rest) := by
  cases h with
  | here h => exact ⟨top, h, Or.inl ⟨rfl, rfl⟩⟩
  | up h climb => exact ⟨_, h, Or.inr ⟨_, rfl, climb⟩⟩

theorem Climb.desc {kids : Hash → List Hash} {up : List Hash} (h : Climb kids top c up) :
    ∃ b ∈ kids top, Desc kids b c := by
  induction h with
  | here h => exact ⟨_, h, .refl⟩
  | up h climb ih =>
    obtain ⟨b, hb, hd⟩ := ih
    exact ⟨b, hb, hd.trans (.kid h)⟩

/-- The blocks on the way are strictly above `c`. -/
theorem Climb.above {up : List Hash} (t : TreeInv o s) (h : Climb s.kids top c up) :
    ∀ q ∈ up, Desc s.kids q c ∧ q ≠ c := by
  induction h with
  | here h => simp
  | @up c p up h climb ih =>
    refine List.forall_mem_cons.mpr ⟨⟨.kid h, ?_⟩, fun q hq => ?_⟩
    · rintro rfl
      exact t.tree.not_desc_of_kid h .refl
    · refine ⟨(ih q hq).1.trans (.kid h), ?_⟩
      rintro rfl
      exact t.tree.not_desc_of_kid h (ih _ hq).1

theorem Climb.length_lt {up : List Hash} (t : TreeInv o s) (h : Climb s.kids top c up) :
    up.length < s.count := by
  have hall : (c :: up).Nodup ∧ ∀ q ∈ c :: up, q ∈ s.nodes := by
    induction h with
    | here h => exact ⟨List.nodup_singleton _, by simpa using t.tree.closed h⟩
    | @up c p up h climb ih =>
      have habove := (Climb.up h climb).above t
      refine ⟨List.nodup_cons.mpr ⟨fun hm => (habove c hm).2 rfl, ih.1⟩, ?_⟩
      exact List.forall_mem_cons.mpr ⟨t.tree.closed h, ih.2⟩
  have hcard := Finset.card_le_card (s := (c :: up).toFinset) (t := s.nodes) fun q hq =>
    hall.2 q (List.mem_toFinset.mp hq)
  rw [List.toFinset_card_of_nodup hall.1, card_nodes, List.length_cons] at hcard
  omega

/-- What the loops of a reclaim rely on: the blocks are laid out but those below the allocation
block `a`, a child of `top` on the given side of the chain to the reindex root. -/
structure Reclaiming (o : Hash) (side : Side) (s : Store) (a top root : Hash) : Prop where
  tree : TreeInv o s
  outside : NestedOutside s a
  alloc : a ∈ s.kids top
  chain : Desc s.kids top root
  inner : s.kids root ≠ []
  beside : ¬Desc s.kids a root
  small : labels s a ≤ treeSize s a
  room : ∀ c ∈ s.kids top, Desc s.kids c root → ∀ pre post, s.kids top = pre ++ c :: post →
    a ∈ side.siblings (pre, post)

/-- A block of the chain below `top` is not near the allocation block. -/
theorem Reclaiming.apart (h : Reclaiming o side s a top root)
    (hc : ∃ b ∈ s.kids top, Desc s.kids b c) (hcr : Desc s.kids c root) :
    ¬Desc s.kids a c ∧ ¬Desc s.kids c a := by
  obtain ⟨b, hb, hbc⟩ := hc
  have hne : b ≠ a := by
    rintro rfl
    exact h.beside (hbc.trans hcr)
  refine ⟨fun hac => h.beside (hac.trans hcr), fun hca => ?_⟩
  exact hne (h.tree.tree.kids_disjoint hb h.alloc (hbc.trans hca) .refl)

/-- A level below `top` leaves the allocation block as it is. -/
theorem Reclaiming.of_level (h : Reclaiming o side s a top root)
    (hl : Level side gap ogap s s₁ s' a p c k) (hp : ∃ b ∈ s.kids top, Desc s.kids b p)
    (hpr : Desc s.kids p root) : Reclaiming o side s' a top root := by
  have hs := hl.shape
  have hiv : s'.iv a = s.iv a := hl.frame a fun e he hea => (h.apart hp hpr).2 ((Desc.kid he).trans hea)
  refine ⟨h.tree.of_sameShape hs, fun z hz hza => ?_, ?_, ?_, ?_, ?_, ?_, ?_⟩
  · rw [hs.nodes] at hz
    rw [hs.kids] at hza
    exact hl.nested z hz (Or.inr hza)
  · rw [hs.kids]
    exact h.alloc
  · rw [hs.kids]
    exact h.chain
  · rw [hs.kids]
    exact h.inner
  · rw [hs.kids]
    exact h.beside
  · rw [treeSize_of_sameShape hs, labels_eq_size, hiv]
    exact h.small
  · rw [hs.kids]
    exact h.room

/-- A chain block narrowed within its gap keeps its children where they are. -/
theorem moved_of_narrow (laws : SideLaws side gap ogap) (t : TreeInv o s)
    (hn : ∀ y, Desc s.kids c y → LaidOut s y) (hk : s.kids c ≠ []) (hs : SameShape s s')
    (hop : side.narrow (s.iv c) k = .ok (s'.iv c)) (hframe : ∀ y, y ≠ c → s'.iv y = s.iv y)
    (hle : k ≤ gap s c) :
    Moved s s' c side.narrow k ∧ gap s' c + k = gap s c ∧ ogap s' c = ogap s c := by
  have hself : ∀ e ∈ s.kids c, s'.iv e = s.iv e := fun e he => hframe e fun h => by
    subst h
    exact t.tree.not_desc_of_kid he .refl
  have hc := hn c .refl
  obtain ⟨hnest, hgap, hog⟩ := laws.narrow_self hc.nested hk hs hop hself hle
  refine ⟨⟨hs, hop, fun y hy => hframe y fun h => hy (h ▸ .refl), fun y hy => ?_⟩, hgap, hog⟩
  by_cases hyc : y = c
  · subst hyc
    exact ⟨hnest, hc.packed.of_iv hs hself⟩
  · refine (hn y hy).of_iv hs ?_
    rintro z (rfl | hz)
    · exact hframe z hyc
    · refine hframe z fun hzc => ?_
      subst hzc
      exact t.tree.not_desc_of_kid hz hy

/-- A level at `c`, where the chain block above it, if that is not `top`, has gained room. -/
structure Stepped (o : Hash) (side : Side) (gap ogap : Store → Hash → Nat) (s s' : Store)
    (a top root c : Hash) (up : List Hash) (k : Nat) : Prop where
  shape : SameShape s s'
  done : up = [] → ∀ z ∈ s.nodes, LaidOut s' z
  going : ∀ p rest, up = p :: rest → Reclaiming o side s' a top root ∧ gap s' p = gap s p + k ∧
    ∀ q ∈ rest, gap s' q = gap s q
  slacks : ∀ slack exc, Slacks gap ogap slack root exc s → (∀ z, exc = some z → z = c) →
    (c ≠ root → gap s c ≤ slack + k) → (up = [] → k ≤ treeSize s a) →
    Slacks gap ogap slack root up.head? s'

theorem stepped_spec (fr : Interval.Fractions) (laws : SideLaws side gap ogap)
    {ctx : ReindexOperationContext} (h : Reclaiming o side s a top root)
    (hcache : Cached s ctx.subtreeSizes) (hC : C → s.count ≤ u64Max) {up : List Hash}
    (hclimb : Climb s.kids top c up) (hcr : Desc s.kids c root)
    (hm : Moved s ctx.store c side.narrow k) (hn : NarrowedAlone s ctx.store c root)
    (hgap : c ≠ root → gap ctx.store c + k = gap s c ∧ ogap ctx.store c = ogap s c)
    (hlast : up = [] → treeSize s a ≤ labels s a + k) :
    Returns C (offsetSiblings fr side ctx a c k) (fun ctx' =>
      Stepped o side gap ogap s ctx'.store a top root c up k ∧ Cached s ctx'.subtreeSizes ∧
      ctx'.slack = ctx.slack) := by
  have t := h.tree
  obtain ⟨p, hck, hup⟩ := hclimb.parent
  have hpr : Desc s.kids p root := (Desc.kid hck).trans hcr
  -- Below `top` the chain stays away from the allocation block.
  have hbelow : up ≠ [] → ∃ b ∈ s.kids top, Desc s.kids b p := by
    intro hne
    rcases hup with ⟨hnil, _⟩ | ⟨rest, _, hrest⟩
    · exact absurd hnil hne
    · exact hrest.desc
  have htop : up = [] → p = top := by
    intro hnil
    rcases hup with ⟨_, hp⟩ | ⟨rest, hcons, _⟩
    · exact hp
    · rw [hnil] at hcons
      cases hcons
  have hak : a ∈ s.kids p ↔ up = [] := by
    constructor
    · intro hak
      by_contra hne
      exact (h.apart (hbelow hne) hpr).2 (.kid hak)
    · intro hnil
      rw [htop hnil]
      exact h.alloc
  have hap : ¬Desc s.kids a p := by
    by_cases hnil : up = []
    · rw [htop hnil]
      exact t.tree.not_desc_of_kid h.alloc
    · exact (h.apart (hbelow hnil) hpr).1
  have ha : a ∈ s.kids p ∨ ¬Desc s.kids p a := by
    by_cases hnil : up = []
    · exact Or.inl (hak.mpr hnil)
    · exact Or.inr (h.apart (hbelow hnil) hpr).2
  have hside : ∀ pre post, s.kids p = pre ++ c :: post → a ∈ s.kids p →
      a ∈ side.siblings (pre, post) ∧ treeSize s a ≤ labels s a + k := by
    intro pre post hk hka
    have hnil := hak.mp hka
    have hpt := htop hnil
    subst hpt
    exact ⟨h.room c hck hcr pre post hk, hlast hnil⟩
  refine (offsetSiblings_spec fr laws t hm hcache hC hck h.outside hap ha hside).mono ?_
  rintro ctx' ⟨hl, hc', hsl⟩
  refine ⟨⟨hl.shape, fun hnil z hz => hl.nested z hz (Or.inl (hak.mpr hnil)), ?_, ?_⟩, hc', hsl⟩
  · intro q rest hcons
    have hne : up ≠ [] := by simp [hcons]
    rcases hup with ⟨hnil, _⟩ | ⟨rest', hcons', hclimb'⟩
    · exact absurd hnil hne
    · rw [hcons] at hcons'
      cases hcons'
      refine ⟨h.of_level hl (hbelow hne) hpr, hl.grown fun hm => hne (hak.mp hm), fun r hr => ?_⟩
      have hrp := hclimb'.above t r hr
      refine (hl.gap_above laws t hck hcr hn ⟨hrp.1.trans hpr, ?_⟩ hrp.2 ?_).1
      · rintro rfl
        exact t.tree.not_desc_of_kid hck (hcr.trans hrp.1)
      · rintro rfl
        exact t.tree.not_desc_of_kid hck hrp.1
  · intro slack exc sl hexc hroom hk
    have hself : c ≠ root → gap ctx'.store c ≤ slack ∧ ogap ctx'.store c = ogap s c := by
      intro hne
      obtain ⟨hg, hog⟩ := hgap hne
      have hkids : ctx'.store.kids c = ctx.store.kids c := by rw [hl.shape.kids, hm.shape.kids]
      obtain ⟨h1, h2⟩ := laws.frame hkids (hl.below c .refl) fun e he => by
        rw [hm.shape.kids] at he
        exact hl.below e (.kid he)
      have := hroom hne
      refine ⟨?_, by rw [h2, hog]⟩
      rw [h1]
      omega
    have hmain := sl.level laws t hl hck hcr hn hexc hself fun hka =>
      ⟨h.beside, by
        have := hk (hak.mp hka)
        have := h.small
        omega⟩
    rcases hup with ⟨hnil, _⟩ | ⟨rest, hcons, _⟩
    · rw [if_pos (hak.mpr hnil)] at hmain
      rw [hnil]
      exact hmain
    · have hne : up ≠ [] := by simp [hcons]
      rw [if_neg fun hka => hne (hak.mp hka)] at hmain
      rw [hcons]
      exact hmain

/-- A chain block below the reindex root gives up room of its own. -/
theorem narrowStep_spec (fr : Interval.Fractions) (laws : SideLaws side gap ogap)
    {ctx : ReindexOperationContext} (h : Reclaiming o side ctx.store a top root)
    (hcache : Cached ctx.store ctx.subtreeSizes) (hC : C → ctx.store.count ≤ u64Max)
    {up : List Hash} (hclimb : Climb ctx.store.kids top c up) (hc : Above ctx.store c root)
    (hk : k ≤ gap ctx.store c)
    (hlast : up = [] → treeSize ctx.store a ≤ labels ctx.store a + k) :
    Returns C (do offsetSiblings fr side (← ctx.applyIntervalOp c k side.narrow) a c k)
      (fun ctx' => Stepped o side gap ogap ctx.store ctx'.store a top root c up k ∧
        Cached ctx.store ctx'.subtreeSizes ∧ ctx'.slack = ctx.slack) := by
  have t := h.tree
  have hcm : c ∈ ctx.store.nodes := by
    obtain ⟨p, hp, _⟩ := hclimb.parent
    exact t.tree.closed hp
  have hapart := h.apart hclimb.desc hc.1
  have hlaid : ∀ y, Desc ctx.store.kids c y → LaidOut ctx.store y := by
    intro y hy
    refine h.outside y (t.tree.mem_desc hy hcm) fun hay => ?_
    rcases t.tree.linear hay hy with hac | hca
    · exact hapart.1 hac
    · exact hapart.2 hca
  have hkids : ctx.store.kids c ≠ [] := by
    rcases desc_iff_head.mp hc.1 with heq | ⟨e, he, _⟩
    · exact absurd heq hc.2
    · exact List.ne_nil_of_mem he
  have hle := laws.gap_le (hlaid c .refl).nested
  refine Returns.bind (applyIntervalOp_spec hcm fun _ => laws.narrow_ok ?_) fun ctx₁ hctx₁ => ?_
  · rw [← labels_eq_size]
    omega
  obtain ⟨hs, hop, hframe, hsz, hsl⟩ := hctx₁
  obtain ⟨hm, hg, hog⟩ := moved_of_narrow laws t hlaid hkids hs hop hframe hk
  have hcache₁ : Cached ctx.store ctx₁.subtreeSizes := by
    rw [hsz]
    exact hcache
  refine (stepped_spec fr laws h hcache₁ hC hclimb hc.1 hm (Or.inr fun y _ hy => hframe y hy)
    (fun _ => ⟨hg, hog⟩) hlast).mono ?_
  rintro ctx' ⟨hst, hc', hsl'⟩
  exact ⟨hst, hc', hsl'.trans hsl⟩

/-- The reindex root gives up room, and its subtree is laid out in the rest. -/
theorem rootStep_spec (fr : Interval.Fractions) (laws : SideLaws side gap ogap)
    {ctx : ReindexOperationContext} (h : Reclaiming o side ctx.store a top root)
    (hcache : Cached ctx.store ctx.subtreeSizes) (hC : C → ctx.store.count ≤ u64Max)
    {up : List Hash} (hclimb : Climb ctx.store.kids top root up)
    (hk : C → treeSize ctx.store root + k ≤ labels ctx.store root)
    (hlast : up = [] → treeSize ctx.store a ≤ labels ctx.store a + k) :
    Returns C
      (do offsetSiblings fr side (← ctx.applyIntervalOpAndPropagate fr root k side.narrow) a root k)
      (fun ctx' => Stepped o side gap ogap ctx.store ctx'.store a top root root up k ∧
        Cached ctx.store ctx'.subtreeSizes ∧ ctx'.slack = ctx.slack) := by
  have t := h.tree
  have hrm : root ∈ ctx.store.nodes := by
    obtain ⟨p, hp, _⟩ := hclimb.parent
    exact t.tree.closed hp
  refine Returns.bind (applyIntervalOpAndPropagate_spec fr t hcache hC hrm
    (fun hc => laws.narrow_ok ?_) (fun hkids => absurd hkids h.inner) fun hc j hj => ?_)
    fun ctx₁ hctx₁ => ?_
  · have := hk hc
    rw [← labels_eq_size]
    omega
  · have := laws.narrow_size hj
    have := hk hc
    rw [labels_eq_size] at this
    omega
  obtain ⟨hm, hc₁, hsl⟩ := hctx₁
  refine (stepped_spec fr laws h hc₁ hC hclimb .refl hm (Or.inl rfl)
    (fun hne => absurd rfl hne) hlast).mono ?_
  rintro ctx' ⟨hst, hc', hsl'⟩
  exact ⟨hst, hc', hsl'.trans hsl⟩

/-- A finished reclaim: every block is laid out again, and the chain has no more room than before. -/
structure Reclaimed (gap ogap : Store → Hash → Nat) (root : Hash) (slack : Nat) (exc : Option Hash)
    (s s' : Store) : Prop where
  shape : SameShape s s'
  laidOut : ∀ z ∈ s.nodes, LaidOut s' z
  slacks : Slacks gap ogap slack root exc s → Slacks gap ogap slack root none s'

theorem Reclaimed.trans_shape {slack : Nat} {exc exc' : Option Hash} (hs : SameShape s s₁)
    (h : Reclaimed gap ogap root slack exc' s₁ s')
    (hsl : Slacks gap ogap slack root exc s → Slacks gap ogap slack root exc' s₁) :
    Reclaimed gap ogap root slack exc s s' where
  shape := hs.trans h.shape
  laidOut := fun z hz => h.laidOut z (by rwa [hs.nodes])
  slacks := fun sl => h.slacks (hsl sl)

/-- The second loop: the room `R` that the allocation needs moves up the path, and at each block
the slack stays behind. -/
theorem reclaimUp_spec (fr : Interval.Fractions) (laws : SideLaws side gap ogap)
    {ctx : ReindexOperationContext} {psa fuel : Nat} {up : List Hash} (t : TreeInv o ctx.store)
    (hcache : Cached ctx.store ctx.subtreeSizes) (hC : C → ctx.store.count ≤ u64Max)
    (hpsa : psa ≤ ctx.slack) (hclimb : Climb ctx.store.kids top c up)
    (hcr : Desc ctx.store.kids c root)
    (hdone : up = [] → ∀ z ∈ ctx.store.nodes, LaidOut ctx.store z)
    (hgoing : up ≠ [] → Reclaiming o side ctx.store a top root ∧
      (up.map (gap ctx.store)).sum = treeSize ctx.store a + psa * up.length ∧
      (up.tail.map (gap ctx.store)).sum ≤ treeSize ctx.store a)
    (hfuel : C → up.length < fuel) :
    Returns C (reclaimUp fr side a top psa fuel ctx c) (fun ctx' =>
      Reclaimed gap ogap root ctx.slack up.head? ctx.store ctx'.store) := by
  induction fuel generalizing ctx c up with
  | zero => exact Returns.error fun hc => by simpa using hfuel hc
  | succ fuel ih =>
    obtain ⟨p, hck, hup⟩ := hclimb.parent
    have hcm : c ∈ ctx.store.nodes := t.tree.closed hck
    refine Returns.bind (getParent_spec fun _ => hcm) fun q hq => ?_
    rw [hq.1, t.par hck]
    rcases hup with ⟨hnil, rfl⟩ | ⟨rest, hcons, hrest⟩
    · subst hnil
      rw [if_pos rfl]
      exact Returns.pure ⟨.refl _, hdone rfl, fun sl => sl⟩
    · subst hcons
      obtain ⟨h, hsum, htail⟩ := hgoing (by simp)
      have hpt : p ≠ top := by
        rintro rfl
        obtain ⟨b, hb, hbp⟩ := hrest.desc
        exact t.tree.not_desc_of_kid hb hbp
      have hpr : Above ctx.store p root := by
        refine ⟨(Desc.kid hck).trans hcr, ?_⟩
        rintro rfl
        exact t.tree.not_desc_of_kid hck hcr
      have hpm : p ∈ ctx.store.nodes := t.tree.mem_of_kid hck
      have hapart := h.apart hrest.desc hpr.1
      have hlp : LaidOut ctx.store p := h.outside p hpm hapart.1
      simp only [List.map_cons, List.sum_cons, List.length_cons, List.tail_cons, Nat.mul_add,
        Nat.mul_one] at hsum htail
      have hroom : psa ≤ gap ctx.store p := by
        have : 0 ≤ psa * rest.length := Nat.zero_le _
        omega
      rw [if_neg hpt]
      refine Returns.bind (laws.remaining hlp.nested (List.ne_nil_of_mem hck) hpm
        fun e he => t.tree.closed he) fun i hi => ?_
      rw [hi]
      refine Returns.bind (subU64_spec fun _ => hroom) fun k hk => ?_
      rw [hk.1]
      have hlast : rest = [] → gap ctx.store p - psa = treeSize ctx.store a := by
        rintro rfl
        simp only [List.map_nil, List.sum_nil, List.length_nil] at hsum
        omega
      rw [← bind_assoc]
      refine Returns.bind (narrowStep_spec fr laws h hcache hC hrest hpr (Nat.sub_le ..)
        fun hnil => ?_) fun ctx' hctx' => ?_
      · have := hlast hnil
        omega
      obtain ⟨hst, hc', hsl'⟩ := hctx'
      have hs' := hst.shape
      have hslacks : Slacks gap ogap ctx.slack root (some p) ctx.store →
          Slacks gap ogap ctx.slack root rest.head? ctx'.store := by
        intro sl
        refine hst.slacks ctx.slack (some p) sl (fun z hz => by cases hz; rfl) (fun _ => ?_) ?_
        · omega
        · intro hnil
          have := hlast hnil
          omega
      have hclimb' : Climb ctx'.store.kids top p rest := by
        rw [hs'.kids]
        exact hrest
      refine (ih (t.of_sameShape hs') (hc'.of_sameShape hs') ?_ ?_ hclimb' ?_ ?_ ?_ ?_).mono ?_
      · intro hc
        rw [hs'.count]
        exact hC hc
      · rw [hsl']
        exact hpsa
      · rw [hs'.kids]
        exact hpr.1
      · intro hnil z hz
        rw [hs'.nodes] at hz
        exact hst.done hnil z hz
      · intro hne
        obtain ⟨r, rest', hcons⟩ := List.exists_cons_of_ne_nil hne
        obtain ⟨hrec, hgr, hothers⟩ := hst.going r rest' hcons
        refine ⟨hrec, ?_⟩
        have htl : rest'.map (gap ctx'.store) = rest'.map (gap ctx.store) :=
          List.map_congr_left hothers
        subst hcons
        simp only [List.map_cons, List.sum_cons, List.length_cons, List.tail_cons, Nat.mul_add,
          Nat.mul_one, htl, hgr, treeSize_of_sameShape hs'] at hsum htail ⊢
        omega
      · intro hc
        have := hfuel hc
        simp only [List.length_cons] at this
        omega
      · intro ctx'' h''
        rw [hsl'] at h''
        exact Reclaimed.trans_shape hs' h'' hslacks

/-- The next chain block below `c`. -/
theorem nextChainAncestor_spec (t : TreeInv o s) (hn : ∀ z, s.kids z ≠ [] → NestedAt s z)
    (hc : Above s c root)
    (hkids : ∀ pre d post, s.kids c = pre ++ d :: post → ∀ e ∈ pre, s.lo e ≤ s.hi e)
    (hroot : s.lo root ≤ s.hi root) :
    Returns C (getNextChainAncestorUnchecked s root c) fun d =>
      d ∈ s.kids c ∧ Desc s.kids d root := by
  obtain ⟨d, hd, hdr⟩ := (desc_iff_head.mp hc.1).resolve_left hc.2
  obtain ⟨pre, post, hk⟩ := List.append_of_mem hd
  have hcont := contains_of_desc hn hdr
  have hnest := hn c (List.ne_nil_of_mem hd)
  refine (getNextChainAncestorUnchecked_spec (fun _ => ⟨fun e he => t.tree.closed he, ?_, ?_⟩) hk
    (ordered_of_stacked hnest) (hkids pre d post hk) hcont.1 hcont.2.1 hroot).mono ?_
  · exact t.tree.mem_desc hdr (t.tree.closed hd)
  · exact t.tree.mem_of_kid hd
  · rintro e rfl
    exact ⟨hd, hdr⟩

/-- Where the first loop of a reclaim stops: room has been made on the way up to `top`. -/
structure Stopped (o : Hash) (side : Side) (gap ogap : Store → Hash → Nat) (s s' : Store)
    (a top root c : Hash) (slack psa : Nat) (up : List Hash) : Prop where
  shape : SameShape s s'
  climb : Climb s.kids top c up
  chain : Desc s.kids c root
  psa_le : psa ≤ slack
  done : up = [] → ∀ z ∈ s.nodes, LaidOut s' z
  going : up ≠ [] → Reclaiming o side s' a top root ∧
    (up.map (gap s')).sum = treeSize s a + psa * up.length ∧
    (up.tail.map (gap s')).sum ≤ treeSize s a
  slacks : Slacks gap ogap slack root none s → Slacks gap ogap slack root up.head? s'

theorem Stepped.stopped {slack psa : Nat} {up : List Hash} (hclimb : Climb s.kids top c up)
    (hcr : Desc s.kids c root) (hpsa : psa ≤ slack)
    (h : Stepped o side gap ogap s s' a top root c up k)
    (hsum : (up.map (gap s)).sum + k = treeSize s a + psa * up.length)
    (htail : (up.map (gap s)).sum < treeSize s a)
    (hgap : Slacks gap ogap slack root none s → c ≠ root → gap s c ≤ slack + k) :
    Stopped o side gap ogap s s' a top root c slack psa up where
  shape := h.shape
  climb := hclimb
  chain := hcr
  psa_le := hpsa
  done := h.done
  going := by
    intro hne
    obtain ⟨r, rest, rfl⟩ := List.exists_cons_of_ne_nil hne
    obtain ⟨hrec, hgr, hothers⟩ := h.going r rest rfl
    have htl : rest.map (gap s') = rest.map (gap s) := List.map_congr_left hothers
    refine ⟨hrec, ?_⟩
    simp only [List.map_cons, List.sum_cons, List.tail_cons, htl, hgr] at hsum htail ⊢
    omega
  slacks := by
    intro sl
    refine h.slacks slack none sl (fun z hz => by cases hz) (hgap sl) ?_
    rintro rfl
    simp only [List.map_nil, List.sum_nil, List.length_nil] at hsum
    omega

/-- The first loop: it stops at the first chain block by which the gaps cover the need, or at
the reindex root. -/
theorem reclaimDown_spec (fr : Interval.Fractions) (laws : SideLaws side gap ogap)
    {ctx : ReindexOperationContext} {fuel : Nat} {up : List Hash}
    (h : Reclaiming o side ctx.store a top root) (hn : ∀ z, ctx.store.kids z ≠ [] → NestedAt ctx.store z)
    (hcache : Cached ctx.store ctx.subtreeSizes) (hC : C → ctx.store.count ≤ u64Max)
    (hclimb : Climb ctx.store.kids top c up) (hcr : Desc ctx.store.kids c root)
    (hsum : (up.map (gap ctx.store)).sum < treeSize ctx.store a)
    (hroom : C → treeSize ctx.store root + treeSize ctx.store a + ctx.slack * ctx.store.count ≤
      labels ctx.store root)
    (hu64 : C → labels ctx.store root ≤ u64Max)
    (hsl : C → Slacks gap ogap ctx.slack root none ctx.store)
    (hfuel : C → treeSize ctx.store c < fuel) :
    Returns C (reclaimDown fr side a root (treeSize ctx.store a) fuel ctx c
        (up.map (gap ctx.store)).sum up.length)
      (fun r => ∃ up', Stopped o side gap ogap ctx.store r.1.store a top root r.2.1 ctx.slack r.2.2 up' ∧
        Cached ctx.store r.1.subtreeSizes ∧ r.1.slack = ctx.slack) := by
  induction fuel generalizing c up with
  | zero => exact Returns.error fun hc => by simpa using hfuel hc
  | succ fuel ih =>
    have t := h.tree
    have hlen := hclimb.length_lt t
    have hslackLen : ctx.slack * up.length + ctx.slack ≤ ctx.slack * ctx.store.count := by
      rw [← Nat.mul_succ]
      exact Nat.mul_le_mul_left _ hlen
    rw [reclaimDown]
    by_cases hroot : c = root
    · subst hroot
      rw [if_pos rfl]
      refine Returns.bind (mulU64_spec fun hc => ?_) fun m hm => ?_
      · have := hroom hc
        have := hu64 hc
        omega
      rw [hm.1]
      refine Returns.bind (addU64_spec fun hc => ?_) fun n hn' => ?_
      · have := hroom hc
        have := hu64 hc
        omega
      rw [hn'.1]
      refine Returns.bind (subU64_spec fun _ => by omega) fun k hk => ?_
      rw [hk.1, ← bind_assoc]
      have hlast : up = [] → treeSize ctx.store a ≤ labels ctx.store a +
          (treeSize ctx.store a + ctx.slack * up.length - (up.map (gap ctx.store)).sum) := by
        rintro rfl
        simp only [List.map_nil, List.sum_nil, List.length_nil]
        omega
      refine Returns.bind (rootStep_spec fr laws h hcache hC hclimb (fun hc => ?_) hlast)
        fun ctx' hctx' => Returns.pure ⟨up, ?_, hctx'.2.1, hctx'.2.2⟩
      · have := hroom hc
        omega
      · have hst : Stopped o side gap ogap ctx.store ctx'.store a top c c ctx.slack ctx.slack up :=
          hctx'.1.stopped hclimb .refl (le_refl _) (by omega) hsum fun _ hne => absurd rfl hne
        rw [hctx'.2.2]
        exact hst
    · have hc : Above ctx.store c root := ⟨hcr, hroot⟩
      obtain ⟨d, hd, hdr⟩ := (desc_iff_head.mp hcr).resolve_left hroot
      have hne : ctx.store.kids c ≠ [] := List.ne_nil_of_mem hd
      have hcm : c ∈ ctx.store.nodes := t.tree.mem_of_kid hd
      have hlc := hn c hne
      rw [if_neg hroot]
      refine Returns.bind (laws.remaining hlc hne hcm fun e he => t.tree.closed he) fun i hi => ?_
      rw [hi]
      refine Returns.bind (addU64_spec fun hc' => ?_) fun m hm => ?_
      · have := hroom hc'
        have := hu64 hc'
        have := (hsl hc').gap c hc (by simp)
        omega
      rw [hm.1]
      split_ifs with hstop
      · refine Returns.bind (subU64_spec fun _ => hstop) fun k₀ hk₀ => ?_
        rw [hk₀.1]
        refine Returns.bind (subU64_spec fun _ => by omega) fun k hk => ?_
        rw [hk.1, ← bind_assoc]
        refine Returns.bind (narrowStep_spec fr laws h hcache hC hclimb hc (Nat.sub_le ..)
          fun hnil => ?_) fun ctx' hctx' => Returns.pure ⟨up, ?_, hctx'.2.1, hctx'.2.2⟩
        · subst hnil
          simp only [List.map_nil, List.sum_nil] at hstop ⊢
          omega
        · have hst : Stopped o side gap ogap ctx.store ctx'.store a top root c ctx.slack 0 up := by
            refine hctx'.1.stopped hclimb hcr (Nat.zero_le _) (by omega) hsum fun sl _ => ?_
            have := sl.gap c hc (by simp)
            omega
          exact hst
      · have hapart := h.apart hclimb.desc hcr
        have hlaid : ∀ y, Desc ctx.store.kids c y → LaidOut ctx.store y := by
          intro y hy
          refine h.outside y (t.tree.mem_desc hy hcm) fun hay => ?_
          rcases t.tree.linear hay hy with hac | hca
          · exact hapart.1 hac
          · exact hapart.2 hca
        have hlabel : ∀ pre d post, ctx.store.kids c = pre ++ d :: post → ∀ e ∈ pre,
            ctx.store.lo e ≤ ctx.store.hi e := by
          intro pre d post hk e he
          have hek : e ∈ ctx.store.kids c := by
            rw [hk]
            exact List.mem_append_left _ he
          exact (hlaid e (.kid hek)).nested.le
        refine Returns.bind (nextChainAncestor_spec t hn hc hlabel (hlaid root hcr).nested.le)
          fun e he => ?_
        obtain ⟨hek, her⟩ := he
        refine Returns.bind (addU64_spec fun hc' => ?_) fun l hl => ?_
        · have := hC hc'
          omega
        rw [hl.1]
        have hnext := ih (.up hek hclimb) her (by simp only [List.map_cons, List.sum_cons]; omega)
          (fun hc' => ?_)
        · simp only [List.map_cons, List.sum_cons, List.length_cons] at hnext
          rw [Nat.add_comm _ (gap ctx.store c)]
          exact hnext
        · have := hfuel hc'
          have hsize := t.treeSize_eq hcm
          have := List.single_le_sum (l := (ctx.store.kids c).map (treeSize ctx.store))
            (fun _ _ => Nat.zero_le _) _ (List.mem_map_of_mem hek)
          omega

/-- `reclaim_interval_*`: the allocation block gets the room its subtree needs, and every block is
laid out. -/
theorem reclaimInterval_spec (fr : Interval.Fractions) (laws : SideLaws side gap ogap)
    {ctx : ReindexOperationContext} (h : Reclaiming o side ctx.store a top root)
    (hn : ∀ z, ctx.store.kids z ≠ [] → NestedAt ctx.store z)
    (hcache : Cached ctx.store ctx.subtreeSizes) (hC : C → ctx.store.count ≤ u64Max)
    (hck : c ∈ ctx.store.kids top) (hcr : Desc ctx.store.kids c root)
    (hroom : C → treeSize ctx.store root + treeSize ctx.store a + ctx.slack * ctx.store.count ≤
      labels ctx.store root)
    (hu64 : C → labels ctx.store root ≤ u64Max)
    (hsl : C → Slacks gap ogap ctx.slack root none ctx.store) :
    Returns C (reclaimInterval fr side ctx a top c root (treeSize ctx.store a)) (fun ctx' =>
      Reclaimed gap ogap root ctx.slack none ctx.store ctx'.store) := by
  have t := h.tree
  have hpos : 0 < treeSize ctx.store a := size_pos (t.tree.closed h.alloc)
  have hle := treeSize_le_count ctx.store c
  have hfuel : C → treeSize ctx.store c < ctx.store.count + 1 := fun _ => by omega
  have hdown := reclaimDown_spec fr laws h hn hcache hC (.here hck) hcr
    (by simpa using hpos) hroom hu64 hsl hfuel
  refine Returns.bind hdown fun r hr => ?_
  obtain ⟨up, hst, hc', hsl'⟩ := hr
  have hs := hst.shape
  have hclimb : Climb r.1.store.kids top r.2.1 up := by
    rw [hs.kids]
    exact hst.climb
  have hup : Returns C (reclaimUp fr side a top r.2.2 (ctx.store.count + 1) r.1 r.2.1) fun ctx' =>
      Reclaimed gap ogap root r.1.slack up.head? r.1.store ctx'.store := by
    refine reclaimUp_spec fr laws (t.of_sameShape hs) (hc'.of_sameShape hs) ?_ ?_ hclimb ?_ ?_ ?_ ?_
    · intro hc
      rw [hs.count]
      exact hC hc
    · rw [hsl']
      exact hst.psa_le
    · rw [hs.kids]
      exact hst.chain
    · intro hnil z hz
      rw [hs.nodes] at hz
      exact hst.done hnil z hz
    · rw [treeSize_of_sameShape hs]
      exact hst.going
    · intro _
      have := hst.climb.length_lt t
      omega
  refine hup.mono fun ctx' h' => ?_
  rw [hsl'] at h'
  exact Reclaimed.trans_shape hs h' hst.slacks

end TaoDag.Reachability
