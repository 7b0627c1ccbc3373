import TaoDag.Ghostdag.Converge

namespace TaoDag.Ghostdag

/-- `d` is the data of a block in a DAG, `d'` that in the part of the DAG above a root with this
work and score. -/
structure Shifted (work score : Nat) (d d' : GhostdagData) : Prop where
  selectedParent : d.selectedParent = d'.selectedParent
  blues : d.mergesetBlues = d'.mergesetBlues
  reds : d.mergesetReds = d'.mergesetReds
  sizes : d.bluesAnticoneSizes = d'.bluesAnticoneSizes
  work : d.blueWork = d'.blueWork + work
  score : d.blueScore = d'.blueScore + score

namespace SortableBlock

/-- A block with more work. -/
def lift (work : Nat) (b : SortableBlock) : SortableBlock := { b with blueWork := b.blueWork + work }

theorem lift_le {work : Nat} {a b : SortableBlock} : (a.lift work).le (b.lift work) ↔ a.le b := by
  simp only [le, lift]
  omega

end SortableBlock

namespace GhostdagManager

/-- `m'` starts at `root`, and answers for the root and the blocks above it, which are `K`, as `m`
does. It has no blocks but these that are not below all of them. -/
structure Above (root : Hash) (K : Hash → Prop) (work score : Nat) (m m' : GhostdagManager) :
    Prop where
  genesisHash : m'.genesisHash = root
  k : m.k = m'.k
  getWork : m.getWork = m'.getWork
  origin : ¬K blockhash.origin
  mem_root : K root
  data : ∀ {h d d'}, K h → h ≠ root → m.getData h = .ok d → m'.getData h = .ok d' →
    Shifted work score d d' ∧ K d'.selectedParent ∧ ∀ x ∈ d'.mergesetBlues, K x
  shift : ∀ {h d d'}, K h → m.getData h = .ok d → m'.getData h = .ok d' →
    d.blueWork = d'.blueWork + work ∧ d.blueScore = d'.blueScore + score
  getParents : ∀ {h}, K h → h ≠ root → Agree (m.getParents h) (m'.getParents h)
  closed : ∀ {h ps}, K h → h ≠ root → m'.getParents h = .ok ps → ∀ p ∈ ps, K p
  isDagAncestorOf : ∀ {x y}, K x → K y → Agree (m.isDagAncestorOf x y) (m'.isDagAncestorOf x y)
  below : ∀ {y r}, K y → m'.isDagAncestorOf root y = .ok r → r = true
  rootParents : ∀ {ps}, m.getParents root = .ok ps → ∀ p ∈ ps, ¬K p ∧
    ∀ {y r}, K y → m.isDagAncestorOf p y = .ok r → r = true
  rootParents' : ∀ {ps}, m'.getParents root = .ok ps → ∀ p ∈ ps, ¬K p ∧
    ∀ {y r}, K y → m'.isDagAncestorOf p y = .ok r → r = true

variable {root sp : Hash} {K : Hash → Prop} {work score : Nat} {m m' : GhostdagManager}
  {parents l : List Hash}

theorem related_unwrap {α : Type} {R : α → α → Prop} {x y : Result α} (h : Related R x y) :
    Related R (unwrap x) (unwrap y) :=
  fun a b ha hb => h a b (eq_ok_of_unwrap ha) (eq_ok_of_unwrap hb)

section Order

theorem Above.sortable (h : Above root K work score m m') {x : Hash} (hx : K x) :
    Related (fun b b' => b = b'.lift work) (m.sortable x) (m'.sortable x) := by
  intro b b' hb hb'
  obtain ⟨w, hw, hb⟩ := bind_eq_ok.mp hb
  obtain ⟨w', hw', hb'⟩ := bind_eq_ok.mp hb'
  obtain ⟨d, hd, hw⟩ := bind_eq_ok.mp hw
  obtain ⟨d', hd', hw'⟩ := bind_eq_ok.mp hw'
  cases hw
  cases hw'
  cases hb
  cases hb'
  rw [(h.shift hx (eq_ok_of_unwrap hd) (eq_ok_of_unwrap hd')).1]
  rfl

theorem Above.sortables (h : Above root K work score m m') (hl : ∀ x ∈ l, K x) :
    Related (fun bs bs' => bs = bs'.map (SortableBlock.lift work)) (l.mapM m.sortable)
      (l.mapM m'.sortable) := by
  refine (Related.mapM fun x hx => h.sortable (hl x hx)).mono fun bs bs' hbs => ?_
  induction hbs with
  | nil => rfl
  | cons hb _ ih => rw [hb, ih, List.map_cons]

theorem maxSortable_lift (b : SortableBlock) (bs : List SortableBlock) :
    maxSortable (b.lift work) (bs.map (SortableBlock.lift work)) =
      (maxSortable b bs).lift work := by
  induction bs generalizing b with
  | nil => rfl
  | cons c bs ih =>
    rw [List.map_cons, maxSortable, maxSortable, ← ih]
    by_cases hle : b.le c
    · rw [if_pos hle, if_pos (SortableBlock.lift_le.mpr hle)]
    · rw [if_neg hle, if_neg (mt SortableBlock.lift_le.mp hle)]

theorem Above.findSelectedParent (h : Above root K work score m m') (hparents : ∀ p ∈ parents, K p) :
    Agree (m.findSelectedParent parents) (m'.findSelectedParent parents) := by
  intro sp sp' hsp hsp'
  obtain ⟨bs, hbs, hsp⟩ := bind_eq_ok.mp hsp
  obtain ⟨bs', hbs', hsp'⟩ := bind_eq_ok.mp hsp'
  have hlift := h.sortables hparents bs bs' hbs hbs'
  subst hlift
  cases bs' with
  | nil => cases hsp
  | cons b bs' =>
    cases hsp
    cases hsp'
    rw [maxSortable_lift]
    rfl

theorem Above.sortBlocks (h : Above root K work score m m') (hl : ∀ x ∈ l, K x) :
    Agree (m.sortBlocks l) (m'.sortBlocks l) := by
  intro r r' hr hr'
  obtain ⟨bs, hbs, hr⟩ := bind_eq_ok.mp hr
  obtain ⟨bs', hbs', hr'⟩ := bind_eq_ok.mp hr'
  have hlift := h.sortables hl bs bs' hbs hbs'
  subst hlift
  cases hr
  cases hr'
  rw [← List.map_insertionSort SortableBlock.le SortableBlock.le (SortableBlock.lift work) bs'
    fun a _ b _ => SortableBlock.lift_le.symm, List.map_map]
  rfl

end Order

section Mergeset

variable {queue mergeset past past' rest : List Hash}

/-- How two searches for one mergeset stand: they have found the same blocks, which are in `K`, and
passed over the same blocks of `K`. -/
structure Alike (K : Hash → Prop) (r r' : List Hash × List Hash × List Hash) : Prop where
  queue : r.1 = r'.1
  mergeset : r.2.1 = r'.2.1
  past : ∀ x, K x → (x ∈ r.2.2 ↔ x ∈ r'.2.2)
  queued : ∀ x ∈ r'.1, K x
  merged : ∀ x ∈ r'.2.1, K x

theorem Above.visitParents (h : Above root K work score m m') (hsp : K sp)
    (hrest : ∀ p ∈ rest, K p) (ha : Alike K (queue, mergeset, past) (queue, mergeset, past')) :
    Related (Alike K) (m.visitParents sp rest queue mergeset past)
      (m'.visitParents sp rest queue mergeset past') := by
  induction rest generalizing queue mergeset past past' with
  | nil => exact Related.of_ok ha
  | cons p rest ih =>
    obtain ⟨hp, hrest⟩ := List.forall_mem_cons.mp hrest
    have hseen : (p ∈ mergeset ∨ p ∈ past) ↔ (p ∈ mergeset ∨ p ∈ past') :=
      or_congr_right (ha.past p hp)
    rw [GhostdagManager.visitParents, GhostdagManager.visitParents]
    by_cases hs : p ∈ mergeset ∨ p ∈ past
    · rw [if_pos hs, if_pos (hseen.mp hs)]
      exact ih hrest ha
    · rw [if_neg hs, if_neg (mt hseen.mpr hs)]
      refine Related.bind (h.isDagAncestorOf hp hsp) fun r r' _ _ hr => ?_
      subst hr
      cases r with
      | true =>
        refine ih hrest ⟨rfl, rfl, fun x hx => ?_, ha.queued, ha.merged⟩
        show x ∈ past ++ [p] ↔ x ∈ past' ++ [p]
        rw [List.mem_append, List.mem_append]
        exact or_congr_left (ha.past x hx)
      | false =>
        have hadd : ∀ {l : List Hash}, (∀ x ∈ l, K x) → ∀ x ∈ l ++ [p], K x := by
          intro l hl x hx
          rcases List.mem_append.mp hx with hx | hx
          · exact hl x hx
          · rw [List.mem_singleton.mp hx]
            exact hp
        exact ih hrest ⟨rfl, rfl, ha.past, hadd ha.queued, hadd ha.merged⟩

/-- Parents that are below the selected parent, and not in `K`, are passed over. -/
theorem visitParents_below (hrest : ∀ p ∈ rest, ¬K p ∧
      ∀ {r}, m.isDagAncestorOf p sp = .ok r → r = true) :
    Returns False (m.visitParents sp rest queue mergeset past) fun r =>
      r.1 = queue ∧ r.2.1 = mergeset ∧ ∀ x, K x → (x ∈ r.2.2 ↔ x ∈ past) := by
  induction rest generalizing past with
  | nil => exact Returns.ok ⟨rfl, rfl, fun _ _ => Iff.rfl⟩
  | cons p rest ih =>
    obtain ⟨hp, hrest⟩ := List.forall_mem_cons.mp hrest
    rw [GhostdagManager.visitParents]
    by_cases hs : p ∈ mergeset ∨ p ∈ past
    · rw [if_pos hs]
      exact ih hrest
    · rw [if_neg hs]
      have htrue : Returns False (m.isDagAncestorOf p sp) fun r => r = true :=
        ⟨fun r hr => hp.2 hr, False.elim⟩
      refine Returns.bind htrue fun r hr => ?_
      subst hr
      refine (ih hrest).mono fun r hr => ⟨hr.1, hr.2.1, fun x hx => ?_⟩
      have hne : x ≠ p := by
        rintro rfl
        exact hp.1 hx
      rw [hr.2.2 x hx, List.mem_append, List.mem_singleton]
      exact or_iff_left hne

theorem Above.mergesetLoop (h : Above root K work score m m') (hsp : K sp) (fuel fuel' : Nat)
    (ha : Alike K (queue, mergeset, past) (queue, mergeset, past')) :
    Related (fun l l' => l = l' ∧ ∀ x ∈ l', K x) (m.mergesetLoop sp fuel queue mergeset past)
      (m'.mergesetLoop sp fuel' queue mergeset past') := by
  induction fuel generalizing fuel' queue mergeset past past' with
  | zero => exact .error_left
  | succ fuel ih =>
    cases fuel' with
    | zero => exact .error_right
    | succ fuel' =>
      cases queue with
      | nil => exact Related.of_ok ⟨rfl, ha.merged⟩
      | cons cur queue =>
        have hcur : K cur := ha.queued cur List.mem_cons_self
        have hqueue : Alike K (queue, mergeset, past) (queue, mergeset, past') :=
          ⟨rfl, rfl, ha.past, fun x hx => ha.queued x (List.mem_cons_of_mem _ hx), ha.merged⟩
        have hvisit : Related (Alike K)
            (unwrap (m.getParents cur) >>= fun ps => m.visitParents sp ps queue mergeset past)
            (unwrap (m'.getParents cur) >>= fun ps =>
              m'.visitParents sp ps queue mergeset past') := by
          by_cases hroot : cur = root
          · subst hroot
            intro r r' hr hr'
            obtain ⟨ps, hps, hr⟩ := bind_eq_ok.mp hr
            obtain ⟨ps', hps', hr'⟩ := bind_eq_ok.mp hr'
            have hbelow := h.rootParents (eq_ok_of_unwrap hps)
            have hbelow' := h.rootParents' (eq_ok_of_unwrap hps')
            obtain ⟨hq, hm, hpast⟩ := (visitParents_below (K := K) fun p hp =>
              ⟨(hbelow p hp).1, (hbelow p hp).2 hsp⟩).post hr
            obtain ⟨hq', hm', hpast'⟩ := (visitParents_below (K := K) fun p hp =>
              ⟨(hbelow' p hp).1, (hbelow' p hp).2 hsp⟩).post hr'
            refine ⟨hq.trans hq'.symm, hm.trans hm'.symm, fun x hx => ?_, ?_, ?_⟩
            · rw [hpast x hx, hpast' x hx]
              exact ha.past x hx
            · rw [hq']
              exact hqueue.queued
            · rw [hm']
              exact ha.merged
          · refine Related.bind (related_unwrap (R := Eq) (h.getParents hcur hroot))
              fun ps ps' _ hps' heq => ?_
            subst heq
            exact h.visitParents hsp (h.closed hcur hroot (eq_ok_of_unwrap hps')) hqueue
        intro l l' hl hl'
        rw [GhostdagManager.mergesetLoop] at hl hl'
        obtain ⟨ps, hps, hl⟩ := bind_eq_ok.mp hl
        obtain ⟨ps', hps', hl'⟩ := bind_eq_ok.mp hl'
        obtain ⟨⟨q, mg, pa⟩, hr, hl⟩ := bind_eq_ok.mp hl
        obtain ⟨⟨q', mg', pa'⟩, hr', hl'⟩ := bind_eq_ok.mp hl'
        have halike := hvisit _ _ (bind_eq_ok.mpr ⟨ps, hps, hr⟩) (bind_eq_ok.mpr ⟨ps', hps', hr'⟩)
        obtain ⟨rfl, rfl⟩ : q = q' ∧ mg = mg' := ⟨halike.queue, halike.mergeset⟩
        exact ih fuel' halike l l' hl hl'

theorem sortables_hash : Returns False (l.mapM m.sortable) fun bs => bs.map (·.hash) = l := by
  induction l with
  | nil => exact Returns.pure rfl
  | cons x l ih =>
    rw [List.mapM_cons]
    have hx : Returns False (m.sortable x) fun b => b.hash = x :=
      Returns.bind ⟨fun _ _ => trivial, False.elim⟩ fun _ _ => Returns.pure rfl
    refine Returns.bind hx fun b hb => Returns.bind ih fun bs hbs => Returns.pure ?_
    rw [List.map_cons, hb, hbs]

theorem mem_of_sortBlocks : Returns False (m.sortBlocks l) fun r => ∀ x ∈ r, x ∈ l := by
  refine Returns.bind sortables_hash fun bs hbs => Returns.pure fun x hx => ?_
  obtain ⟨b, hb, rfl⟩ := List.mem_map.mp hx
  rw [← hbs]
  exact List.mem_map_of_mem ((List.mem_insertionSort SortableBlock.le).mp hb)

/-- The search for the mergeset finds the same blocks. -/
theorem Above.orderedMergeset (h : Above root K work score m m') (hsp : K sp)
    (hparents : ∀ p ∈ parents, K p) :
    Related (fun l l' => l = l' ∧ ∀ x ∈ l', K x) (m.orderedMergesetWithoutSelectedParent sp parents)
      (m'.orderedMergesetWithoutSelectedParent sp parents) := by
  have hqueue : ∀ x ∈ parents.filter (· ≠ sp), K x :=
    fun x hx => hparents x (List.mem_filter.mp hx).1
  refine Related.bind (h.mergesetLoop hsp _ _ ⟨rfl, rfl, fun _ _ => Iff.rfl, hqueue,
    fun x hx => hqueue x (List.mem_dedup.mp hx)⟩) fun l l' _ _ hl => ?_
  obtain ⟨rfl, hK⟩ := hl
  intro r r' hr hr'
  exact ⟨h.sortBlocks hK r r' hr hr', fun x hx => hK x (mem_of_sortBlocks.post hr' x hx)⟩

end Mergeset

section Colouring

variable {nd : GhostdagData} {cand : Hash} {peers : List Hash}

/-- Data of a new block, as far as it is coloured, that names blocks of `K` only. -/
structure Inside (K : Hash → Prop) (nd : GhostdagData) : Prop where
  selectedParent : K nd.selectedParent
  blues : ∀ x ∈ nd.mergesetBlues, K x

theorem Above.blueAnticoneSizeLoop (h : Above root K work score m m') (block : Hash)
    (fuel fuel' : Nat) (sizes : BlockHashMap Nat) (hsp : K sp) :
    Agree (m.blueAnticoneSizeLoop block fuel sizes sp)
      (m'.blueAnticoneSizeLoop block fuel' sizes sp) := by
  induction fuel generalizing fuel' sizes sp with
  | zero => exact .error_left
  | succ fuel ih =>
    cases fuel' with
    | zero => exact .error_right
    | succ fuel' =>
      rw [GhostdagManager.blueAnticoneSizeLoop, GhostdagManager.blueAnticoneSizeLoop, h.genesisHash]
      cases sizes.lookup block with
      | some n => exact .refl _
      | none =>
        by_cases hroot : sp = root
        · simp only [hroot, true_or, if_true]
          exact .error_right
        · have horigin : sp ≠ blockhash.origin := fun hor => h.origin (hor ▸ hsp)
          simp only [hroot, horigin, or_self, or_false, if_false]
          by_cases hstop : sp = m.genesisHash
          · simp only [hstop, if_true]
            exact .error_left
          · simp only [hstop, if_false]
            intro n n' hn hn'
            obtain ⟨d, hd, hn⟩ := bind_eq_ok.mp hn
            obtain ⟨d', hd', hn'⟩ := bind_eq_ok.mp hn'
            obtain ⟨hshift, hK, _⟩ :=
              h.data hsp hroot (eq_ok_of_unwrap hd) (eq_ok_of_unwrap hd')
            rw [hshift.sizes, hshift.selectedParent] at hn
            exact ih fuel' _ hK n n' hn hn'

theorem Above.checkPeers (h : Above root K work score m m') (hnd : Inside K nd) (hcand : K cand)
    (hpeers : ∀ p ∈ peers, K p) (c : Candidate) :
    Agree (m.checkPeers nd cand peers c) (m'.checkPeers nd cand peers c) := by
  induction peers generalizing c with
  | nil => exact .refl _
  | cons p peers ih =>
    obtain ⟨hp, hpeers⟩ := List.forall_mem_cons.mp hpeers
    refine .bind (h.isDagAncestorOf hp hcand) fun r _ _ => ?_
    cases r with
    | true => exact ih hpeers c
    | false =>
      refine .bind (h.blueAnticoneSizeLoop p _ _ _ hnd.selectedParent) fun n _ _ => ?_
      refine .bind (.refl _) fun size _ _ => ?_
      rw [h.k]
      by_cases hmany : m'.k < size
      · simp only [hmany, if_true]
        exact .refl _
      · simp only [hmany, if_false]
        by_cases hfull : n = m'.k
        · simp only [hfull, if_true]
          exact .refl _
        · simp only [hfull, if_false]
          exact .bind (.refl _) fun _ _ _ => ih hpeers _

/-- A block of the selected chain as the two managers see it: the root, or one with the same
blues. -/
def SameChain (root : Hash) (K : Hash → Prop) (cb cb' : ChainBlock) : Prop :=
  cb.hash = cb'.hash ∧ (∀ x, cb'.hash = some x → K x) ∧
    (cb'.hash = some root ∨ cb.data.mergesetBlues = cb'.data.mergesetBlues ∧
      cb.data.selectedParent = cb'.data.selectedParent ∧ K cb'.data.selectedParent ∧
      ∀ x ∈ cb'.data.mergesetBlues, K x)

theorem Above.chainBlock (h : Above root K work score m m') (hsp : K sp) :
    Related (fun d d' => SameChain root K ⟨some sp, d⟩ ⟨some sp, d'⟩) (unwrap (m.getData sp))
      (unwrap (m'.getData sp)) := by
  intro d d' hd hd'
  refine ⟨rfl, fun x hx => Option.some.inj hx ▸ hsp, ?_⟩
  by_cases hroot : sp = root
  · exact Or.inl (congrArg some hroot)
  · obtain ⟨hshift, hK, hblues⟩ := h.data hsp hroot (eq_ok_of_unwrap hd) (eq_ok_of_unwrap hd')
    exact Or.inr ⟨hshift.blues, hshift.selectedParent, hK, hblues⟩

theorem Above.checkChainBlock (h : Above root K work score m m') (hnd : Inside K nd)
    (hcand : K cand) {cb cb' : ChainBlock} (hcb : SameChain root K cb cb') (c : Candidate) :
    Related (fun r r' => r = r' ∧ (r'.1 = .pending → cb'.hash ≠ some root))
      (m.checkBlueCandidateWithChainBlock nd cb cand c)
      (m'.checkBlueCandidateWithChainBlock nd cb' cand c) := by
  obtain ⟨hash, data⟩ := cb
  obtain ⟨hash', data'⟩ := cb'
  obtain ⟨hhash, hK, hdata⟩ := hcb
  have hhash : hash = hash' := hhash
  subst hhash
  cases hash with
  | none =>
    have hnone : (none : Option Hash) ≠ some root := by simp
    obtain ⟨hblues, _, _, hpeers⟩ := hdata.resolve_left hnone
    have hblues : data.mergesetBlues = data'.mergesetBlues := hblues
    rw [checkBlueCandidateWithChainBlock, checkBlueCandidateWithChainBlock]
    simp only [hblues]
    exact fun r r' hr hr' => ⟨h.checkPeers hnd hcand hpeers c r r' hr hr', fun _ => hnone⟩
  | some x =>
    have hx : K x := hK x rfl
    rw [checkBlueCandidateWithChainBlock, checkBlueCandidateWithChainBlock]
    refine Related.bind (h.isDagAncestorOf hx hcand) fun r r' _ hr' heq => ?_
    subst heq
    cases r with
    | true =>
      apply Related.of_ok
      simp
    | false =>
      have hne : x ≠ root := by
        rintro rfl
        cases h.below hcand hr'
      obtain ⟨hblues, _, _, hpeers⟩ := hdata.resolve_left fun hroot => hne (Option.some.inj hroot)
      have hblues : data.mergesetBlues = data'.mergesetBlues := hblues
      simp only [hblues]
      exact fun r r' hr hr' => ⟨h.checkPeers hnd hcand hpeers c r r' hr hr',
        fun _ hroot => hne (Option.some.inj hroot)⟩

theorem Above.checkLoop (h : Above root K work score m m') (hnd : Inside K nd) (hcand : K cand)
    (fuel fuel' : Nat) {cb cb' : ChainBlock} (hcb : SameChain root K cb cb') (c : Candidate) :
    Agree (m.checkLoop nd cand fuel cb c) (m'.checkLoop nd cand fuel' cb' c) := by
  induction fuel generalizing fuel' cb cb' c with
  | zero => exact .error_left
  | succ fuel ih =>
    cases fuel' with
    | zero => exact .error_right
    | succ fuel' =>
      intro out out' hout hout'
      obtain ⟨⟨state, c₁⟩, hr, hout⟩ := bind_eq_ok.mp hout
      obtain ⟨r', hr', hout'⟩ := bind_eq_ok.mp hout'
      obtain ⟨rfl, hpending⟩ := h.checkChainBlock hnd hcand hcb c _ r' hr hr'
      cases state with
      | blue =>
        cases hout
        cases hout'
        rfl
      | red =>
        cases hout
        cases hout'
        rfl
      | pending =>
        obtain ⟨_, hsame, hK, _⟩ := hcb.2.2.resolve_left (hpending rfl)
        obtain ⟨d, hd, hout⟩ := bind_eq_ok.mp hout
        obtain ⟨d', hd', hout'⟩ := bind_eq_ok.mp hout'
        rw [hsame] at hd hout
        exact ih fuel' (h.chainBlock hK d d' hd hd') c₁ out out' hout hout'

theorem Above.colour (h : Above root K work score m m') (hnd : Inside K nd) (hcand : K cand) :
    Agree (m.colour nd cand) (m'.colour nd cand) := by
  have hcheck : Agree (m.checkBlueCandidate nd cand) (m'.checkBlueCandidate nd cand) := by
    rw [GhostdagManager.checkBlueCandidate, GhostdagManager.checkBlueCandidate, h.k]
    refine .bind (.refl _) fun limit _ _ => ?_
    by_cases hcap : nd.mergesetBlues.length % (kTypeMax + 1) = limit
    · rw [if_pos hcap, if_pos hcap]
      exact .refl _
    · rw [if_neg hcap, if_neg hcap]
      have hnew : SameChain root K ⟨none, nd⟩ ⟨none, nd⟩ := by
        refine ⟨rfl, fun x hx => ?_, Or.inr ⟨rfl, rfl, hnd.selectedParent, hnd.blues⟩⟩
        cases hx
      exact h.checkLoop hnd hcand _ _ hnew _
  exact .bind hcheck fun _ _ _ => .refl _

theorem Inside.colour (hnd : Inside K nd) (hcand : K cand) :
    Returns False (m.colour nd cand) (Inside K) := by
  refine Returns.bind (P := fun _ => True) ⟨fun _ _ => trivial, False.elim⟩ fun out _ => ?_
  cases out with
  | blue n peers =>
    refine GhostdagData.addBlue_spec.mono fun d hd => ?_
    obtain ⟨sizes, rfl, _⟩ := hd
    refine ⟨hnd.selectedParent, fun x hx => ?_⟩
    rcases List.mem_append.mp hx with hx | hx
    · exact hnd.blues x hx
    · rw [List.mem_singleton.mp hx]
      exact hcand
  | red => exact Returns.pure ⟨hnd.selectedParent, hnd.blues⟩

theorem Above.foldColour (h : Above root K work score m m') (hnd : Inside K nd)
    (hl : ∀ x ∈ l, K x) : Agree (l.foldlM m.colour nd) (l.foldlM m'.colour nd) := by
  induction l generalizing nd with
  | nil => exact .refl _
  | cons x l ih =>
    obtain ⟨hx, hl⟩ := List.forall_mem_cons.mp hl
    rw [List.foldlM_cons, List.foldlM_cons]
    exact .bind (h.colour hnd hx) fun d _ hd => ih ((hnd.colour hx).post hd) hl

end Colouring

theorem addUpTo_related {max a a' b shift : Nat} (h : a = a' + shift) :
    Related (fun n n' => n = n' + shift) (addUpTo max a b) (addUpTo max a' b) := by
  rw [addUpTo, addUpTo]
  split_ifs
  · exact Related.of_ok (by omega)
  · exact .error_right
  · exact .error_left
  · exact .error_left

theorem mem_of_findSelectedParent :
    Returns False (m.findSelectedParent parents) fun sp => sp ∈ parents := by
  refine Returns.bind sortables_hash fun bs hbs => ?_
  cases bs with
  | nil => exact Returns.error id
  | cons b bs =>
    refine Returns.pure ?_
    rw [← hbs]
    exact List.mem_map_of_mem (maxSortable_spec b bs).1

theorem newWithSelectedParent_inside {k : Nat} (hsp : K sp) :
    Returns False (GhostdagData.newWithSelectedParent sp k) (Inside K) := by
  refine DagEngine.newWithSelectedParent_spec.mono fun nd hnd => ?_
  subst hnd
  refine ⟨hsp, fun x hx => ?_⟩
  rw [List.mem_singleton.mp hx]
  exact hsp

/-- The data of a block above the root is that in the whole DAG, less the work and score of the
root. -/
theorem Above.ghostdag (h : Above root K work score m m') (hparents : ∀ p ∈ parents, K p) :
    Related (Shifted work score) (m.ghostdag parents) (m'.ghostdag parents) := by
  refine Related.bind (R := Eq) (fun _ _ _ _ => rfl) fun _ _ _ _ _ => ?_
  refine Related.bind (h.findSelectedParent hparents) fun sp _ hrun _ hsame => ?_
  subst hsame
  have hsp : K sp := hparents sp (mem_of_findSelectedParent.post hrun)
  have hor : sp ≠ blockhash.origin := fun hor => h.origin (hor ▸ hsp)
  rw [if_neg hor, if_neg hor, h.k, h.getWork]
  refine Related.bind (Agree.refl _) fun nd _ hnd _ hsame => ?_
  subst hsame
  have hinside : Inside K nd := (newWithSelectedParent_inside hsp).post hnd
  refine Related.bind (h.orderedMergeset hsp hparents) fun l _ _ _ hl => ?_
  obtain ⟨rfl, hK⟩ := hl
  refine Related.bind (h.foldColour hinside hK) fun coloured _ _ _ hsame => ?_
  subst hsame
  have hscores : Related (fun d d' : GhostdagData =>
      d.blueWork = d'.blueWork + work ∧ d.blueScore = d'.blueScore + score)
      (unwrap (m.getData sp)) (unwrap (m'.getData sp)) :=
    fun d d' hd hd' => h.shift hsp (eq_ok_of_unwrap hd) (eq_ok_of_unwrap hd')
  refine Related.bind hscores fun d d' _ _ hd => ?_
  obtain ⟨hwork, hscore⟩ := hd
  refine Related.bind (addUpTo_related hscore) fun blueScore blueScore' _ _ hblueScore => ?_
  refine Related.bind (Agree.refl _) fun added _ _ _ hsame => ?_
  subst hsame
  refine Related.bind (addUpTo_related hwork) fun blueWork blueWork' _ _ hblueWork => ?_
  exact Related.of_ok ⟨rfl, rfl, rfl, rfl, hblueWork, hblueScore⟩

end GhostdagManager

end TaoDag.Ghostdag
